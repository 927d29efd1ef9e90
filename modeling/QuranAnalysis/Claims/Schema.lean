import QuranAnalysis.Py.Exc

/-!
# The claims register (`claims/schema.py`)

A `Claim` is a valid entry of the register: the constraints of the schema are fields, so an invalid entry cannot be
built.
-/

namespace QuranAnalysis

open Py

/-- The asserted quantity: a count, or a symbolic text. -/
inductive Asserted
  | int (n : Int)
  | str (s : Str)
deriving DecidableEq, Repr

/-- A character of an id behind the first. -/
def isSlugChar (c : Char) : Bool := isSlugStart c || c == '_' || c == '-'
where
  /-- The first character of an id. -/
  isSlugStart (c : Char) : Bool := ('a' ≤ c && c ≤ 'z') || ('0' ≤ c && c ≤ '9')

/-- `ID_PATTERN`: `^[a-z0-9][a-z0-9_-]*$` -/
def MatchesIdPattern : Str → Prop
  | [] => False
  | c :: s => isSlugChar.isSlugStart c = true ∧ ∀ d ∈ s, isSlugChar d = true

instance : DecidablePred MatchesIdPattern
  | [] => inferInstanceAs (Decidable False)
  | _ :: s => @instDecidableAnd _ _ _ (List.decidableBAll _ s)

/-- A claim about the text. -/
structure Claim where
  id : Str
  description : Str
  source : Str
  assertedValue : Asserted
  operationalDefinition : Str
  expectedResult : Str
  requiresMorphology : Bool
  ambiguityNote : Option Str
  id_pattern : MatchesIdPattern id
  description_ne_nil : description ≠ []
  source_ne_nil : source ≠ []
  operationalDefinition_ne_nil : operationalDefinition ≠ []
  expectedResult_ne_nil : expectedResult ≠ []
  ambiguityNote_ne_nil : ambiguityNote ≠ some []

/-! Texts that short claims share are no empty ones. -/

theorem s_ne_nil : "s".toList ≠ [] := by decide

theorem match_ne_nil : "match".toList ≠ [] := by decide

theorem mismatch_ne_nil : "mismatch".toList ≠ [] := by decide

theorem none_ne_some_nil : (none : Option Str) ≠ some [] := nofun

/-- The claims, in order, with unique ids. -/
structure ClaimsRegister where
  claims : List Claim
  unique_ids : (claims.map (·.id)).Nodup

end QuranAnalysis
