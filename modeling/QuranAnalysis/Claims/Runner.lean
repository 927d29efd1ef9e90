import QuranAnalysis.Claims.Checks

/-!
# The claim runner (`claims/runner.py`)

`evaluateClaim` looks up the check of a claim and applies the rules that are common to all claims; `runRegister` does
so for every claim of a register.
-/

namespace QuranAnalysis

open Py

/-- The outcome of a claim. -/
inductive Verdict
  | matched
  | mismatch
  | ambiguous
deriving DecidableEq, Repr

/-- The text of a verdict. -/
def Verdict.value : Verdict → Str
  | matched => "match".toList
  | mismatch => "mismatch".toList
  | ambiguous => "ambiguous".toList

/-- The result for one claim. -/
structure ClaimResult where
  id : Str
  asserted : Asserted
  measured : Measured
  verdict : Verdict
deriving DecidableEq, Repr

/-- A text that is set and not empty. -/
def truthy (note : Option Str) : Prop := ∃ s, note = some s ∧ s ≠ []

instance : DecidablePred truthy
  | none => .isFalse (by rintro ⟨s, h, _⟩; cases h)
  | some s => decidable_of_iff (s ≠ []) ⟨fun h => ⟨s, rfl, h⟩, by rintro ⟨_, h1, h2⟩; cases h1; exact h2⟩

section Runner

variable [Interpreter]

/-- `evaluate_claim`: the built-in checks are used unless others are given. -/
def evaluateClaim (claim : Claim) (ctx : CheckContext) (checks : Option (Seq.Dict Str CheckFn)) :
    Result ClaimResult := do
  let table ← match checks with
    | none => registry
    | some table => .ok table
  match table.lookup claim.id with
  -- no registered check
  | none => .ok ⟨claim.id, claim.assertedValue, .none, .ambiguous⟩
  | some fn =>
    -- the claim needs morphology but none is loaded: the check is not called
    if claim.requiresMorphology = true ∧ ctx.morphology = none then
      .ok ⟨claim.id, claim.assertedValue, .none, .ambiguous⟩
    else do
      let measurement ← fn claim ctx
      -- an undisclosed convention is never forced to a verdict
      if truthy claim.ambiguityNote then .ok ⟨claim.id, claim.assertedValue, measurement.value, .ambiguous⟩
      else
        .ok ⟨claim.id, claim.assertedValue, measurement.value, if measurement.matched then .matched else .mismatch⟩

/-- `run_register` -/
def runRegister (register : ClaimsRegister) (ctx : CheckContext) (checks : Option (Seq.Dict Str CheckFn)) :
    Result (List ClaimResult) :=
  register.claims.mapM fun c => evaluateClaim c ctx checks

/-- `build_default_context` on the decoded texts of the two files. -/
def buildDefaultContext (simpleClean qac : Str) : Result CheckContext := do
  let corpus ← loadCorpus "simple-clean".toList simpleClean
  let morphology ← Morphology.loadMorphology qac
  .ok ⟨[("simple-clean".toList, corpus)], some morphology⟩

end Runner

end QuranAnalysis
