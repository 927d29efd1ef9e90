import QuranAnalysis.Corpus.Model
import QuranAnalysis.Morphology.Model
import QuranAnalysis.Claims.Schema

/-!
# The check registry (`claims/registry.py`)

A check maps a claim and a context to a measurement. `check` registers one under its claim's id and refuses an id that
is taken; checks with different ids register to the table of them all (`registerAll_of_nodup`).
-/

namespace QuranAnalysis

open Py

/-- What a check measured: a count, a text, a pair of counts, or nothing. -/
inductive Measured
  | none
  | int (n : Int)
  | str (s : Str)
  | pair (a b : Int)
deriving DecidableEq, Repr

/-- The measured value, and whether it satisfies the claim. -/
structure Measurement where
  value : Measured
  matched : Bool
deriving DecidableEq, Repr

/-- The loaded data: corpora by edition, and the morphology if there is one. -/
structure CheckContext where
  corpora : Seq.Dict Str Corpus
  morphology : Option Morphology

/-- The corpus loaded for an edition. -/
def CheckContext.corpus (ctx : CheckContext) (edition : Str) : Result Corpus :=
  match ctx.corpora.lookup edition with
  | some c => .ok c
  | none => .error (.keyError [.text "no corpus loaded for edition ", .repr edition])

/-- A check. -/
abbrev CheckFn := Claim → CheckContext → Result Measurement

/-- `@check(claim_id)`: the function is registered, unless the id is taken. -/
def check (checks : Seq.Dict Str CheckFn) (claimId : Str) (fn : CheckFn) : Result (Seq.Dict Str CheckFn) :=
  if (checks.lookup claimId).isSome then
    .error (.valueError [.text "duplicate check registration for ", .repr claimId])
  else .ok (checks.set claimId fn)

/-- Checks registered one after another. -/
def registerAll (checks : Seq.Dict Str CheckFn) (fns : List (Str × CheckFn)) : Result (Seq.Dict Str CheckFn) :=
  fns.foldlM (fun table e => check table e.1 e.2) checks

/-- A new id is registered behind the others. -/
theorem check_of_notMem {checks : Seq.Dict Str CheckFn} {claimId : Str} (h : claimId ∉ checks.keys) (fn : CheckFn) :
    check checks claimId fn = .ok (checks ++ [(claimId, fn)]) := by
  have hl : ¬ (checks.lookup claimId).isSome := fun hs => h (Seq.Dict.lookup_isSome.mp hs)
  rw [check, if_neg hl, Seq.Dict.set_of_notMem h]

/-- **Checks with different ids register to the table of them all.** -/
theorem registerAll_of_nodup : ∀ {checks : Seq.Dict Str CheckFn} {fns : List (Str × CheckFn)},
    ((checks ++ fns).map Prod.fst).Nodup → registerAll checks fns = .ok (checks ++ fns)
  | checks, [], _ => by rw [List.append_nil]; rfl
  | checks, e :: fns, h => by
    have hfresh : e.1 ∉ checks.keys := by
      rw [List.map_append, List.nodup_append] at h
      exact fun hm => h.2.2 _ hm _ (by simp) rfl
    have h' : ((checks ++ [e] ++ fns).map Prod.fst).Nodup := by simpa using h
    rw [registerAll, List.foldlM_cons, check_of_notMem hfresh]
    show registerAll (checks ++ [e]) fns = _
    rw [registerAll_of_nodup h', List.append_assoc, List.singleton_append]

end QuranAnalysis
