import QuranAnalysis.Claims.Runner

/-!
# Verdicts with and without a morphology

Seven of the built-in checks read the morphology; without one they report nothing, and the runner turns this into a
verdict unless the claim's own flags prevent it.

- `reads_of_mem`: these seven report nothing without a morphology, and the other nine do not read it.
- `stable_iff`: a claim's verdict survives the loading of a morphology exactly when the claim asks for a morphology,
  carries an ambiguity note, or belongs to one of the nine.
-/

namespace QuranAnalysis

open Py

/-- The ids of the checks that read the morphology. -/
def morphologyChecks : List Str :=
  ["yawm-singular-365".toList, "shahr-month-12".toList, "ayyam-days-30".toList, "hayat-mawt-equal".toList,
    "malaika-shayatin-equal".toList, "rajul-imraa-equal".toList, "bahr-barr-water-ratio".toList]

/-! ## What the checks read -/

/-- A check that does not read the morphology. -/
def Independent (fn : CheckFn) : Prop := ∀ claim corpora m, fn claim ⟨corpora, m⟩ = fn claim ⟨corpora, none⟩

/-- A check that reports nothing without a morphology, and something with one. -/
structure NeedsMorphology (fn : CheckFn) : Prop where
  without : ∀ claim corpora, fn claim ⟨corpora, none⟩ = .ok ⟨.none, false⟩
  measures : ∀ claim corpora m, ∃ v b, fn claim ⟨corpora, some m⟩ = .ok ⟨v, b⟩ ∧ v ≠ .none

theorem needsMorphology_lemmaCheck (lem : Str) : NeedsMorphology (lemmaCheck lem) :=
  ⟨fun _ _ => rfl, fun _ _ _ => ⟨_, _, rfl, by simp⟩⟩

theorem needsMorphology_lemmaPairCheck (lem lem' : Str) : NeedsMorphology (lemmaPairCheck lem lem') :=
  ⟨fun _ _ => rfl, fun _ _ _ => ⟨_, _, rfl, by simp⟩⟩

theorem needsMorphology_bahrBarrWaterRatio : NeedsMorphology bahrBarrWaterRatio :=
  ⟨fun _ _ => rfl, fun _ _ _ => ⟨_, _, rfl, by simp⟩⟩

/-- In a valid claim, the note is empty only if it is absent. -/
theorem truthy_ambiguityNote (claim : Claim) : truthy claim.ambiguityNote ↔ claim.ambiguityNote ≠ none := by
  have hne := claim.ambiguityNote_ne_nil
  cases h : claim.ambiguityNote with
  | none => simp [truthy]
  | some s =>
    rw [h] at hne
    simp only [ne_eq, reduceCtorEq, not_false_eq_true, iff_true]
    exact ⟨s, rfl, fun hs => hne (by rw [hs])⟩

section Registry

variable [Interpreter]

/-- **A built-in check needs the morphology, or it does not read it**; the seven ids tell which. -/
theorem reads_of_mem : ∀ e ∈ builtinChecks, e.1 ∈ morphologyChecks ∧ NeedsMorphology e.2 ∨
    e.1 ∉ morphologyChecks ∧ Independent e.2 := by
  simp only [builtinChecks, List.forall_mem_cons]
  refine ⟨?abjadAllah, ?abjadBasmala, ?yawm, ?shahr, ?ayyam, ?sab, ?dunya, ?qaf, ?noon, ?basmala, ?dunyaAkhira, ?hayat,
    ?malaika, ?rajul, ?bahr, ?allah, by simp⟩
  case yawm | shahr | ayyam => exact .inl ⟨by decide, needsMorphology_lemmaCheck _⟩
  case hayat | malaika | rajul => exact .inl ⟨by decide, needsMorphology_lemmaPairCheck _ _⟩
  case bahr => exact .inl ⟨by decide, needsMorphology_bahrBarrWaterRatio⟩
  all_goals exact .inr ⟨by decide, fun _ _ _ => rfl⟩

/-- The seven checks are registered. -/
theorem exists_check {id : Str} (h : id ∈ morphologyChecks) : ∃ fn, builtinChecks.lookup id = some fn := by
  have hkeys : ∀ i ∈ morphologyChecks, i ∈ Seq.Dict.keys builtinChecks := by
    simp only [Seq.Dict.keys, builtinChecks, List.map_cons, List.map_nil]
    decide
  exact Option.isSome_iff_exists.mp (Seq.Dict.lookup_isSome.mpr (hkeys id h))

/-! ## The runner on built-in checks -/

/-- A claim without a check is ambiguous. -/
theorem evaluateClaim_of_none {claim : Claim} (ctx : CheckContext) (h : builtinChecks.lookup claim.id = none) :
    evaluateClaim claim ctx none = .ok ⟨claim.id, claim.assertedValue, .none, .ambiguous⟩ := by
  simp only [evaluateClaim, registry_eq, bind, Except.bind, h]

/-- A claim with a check: the two rules, and the comparison of the check. -/
theorem evaluateClaim_of_some {claim : Claim} (ctx : CheckContext) {fn : CheckFn}
    (h : builtinChecks.lookup claim.id = some fn) : evaluateClaim claim ctx none =
      if claim.requiresMorphology = true ∧ ctx.morphology = none then
        .ok ⟨claim.id, claim.assertedValue, .none, .ambiguous⟩
      else (fn claim ctx >>= fun measurement =>
        if truthy claim.ambiguityNote then .ok ⟨claim.id, claim.assertedValue, measurement.value, .ambiguous⟩
        else
          .ok ⟨claim.id, claim.assertedValue, measurement.value,
            if measurement.matched then .matched else .mismatch⟩) := by
  simp only [evaluateClaim, registry_eq, bind, Except.bind, h]

/-! ## Stability -/

/-- A verdict that is reached without a morphology is reached with the morphology `m`, for the same measured value. -/
def Stable (claim : Claim) (corpora : Seq.Dict Str Corpus) (m : Morphology) : Prop :=
  ∀ r, evaluateClaim claim ⟨corpora, none⟩ none = .ok r → r.verdict ≠ .ambiguous →
    ∃ r', evaluateClaim claim ⟨corpora, some m⟩ none = .ok r' ∧ r'.verdict = r.verdict ∧ r'.measured = r.measured

/-- A claim without a check is stable. -/
theorem stable_of_none {claim : Claim} (h : builtinChecks.lookup claim.id = none) (corpora : Seq.Dict Str Corpus)
    (m : Morphology) : Stable claim corpora m := by
  intro r hr hv
  rw [evaluateClaim_of_none _ h] at hr
  cases hr
  exact absurd rfl hv

/-- Where a flag of the claim prevents a verdict without a morphology, the claim is stable. -/
theorem stable_of_flag {claim : Claim} {fn : CheckFn} (h : builtinChecks.lookup claim.id = some fn)
    (hf : claim.requiresMorphology = true ∨ claim.ambiguityNote ≠ none) (corpora : Seq.Dict Str Corpus)
    (m : Morphology) : Stable claim corpora m := by
  intro r hr hv
  rw [evaluateClaim_of_some _ h] at hr
  split at hr
  · cases hr
    exact absurd rfl hv
  · next hg =>
    have hnote : truthy claim.ambiguityNote := by
      rw [truthy_ambiguityNote]
      exact hf.resolve_left fun hq => hg ⟨hq, rfl⟩
    obtain ⟨measurement, _, hr⟩ := bind_eq_ok_iff.mp hr
    rw [if_pos hnote] at hr
    cases hr
    exact absurd rfl hv

/-- A claim whose check does not read the morphology is stable. -/
theorem stable_of_independent {claim : Claim} {fn : CheckFn} (h : builtinChecks.lookup claim.id = some fn)
    (hfn : Independent fn) (hq : claim.requiresMorphology = false) (corpora : Seq.Dict Str Corpus) (m : Morphology) :
    Stable claim corpora m := by
  have hsame : evaluateClaim claim ⟨corpora, some m⟩ none = evaluateClaim claim ⟨corpora, none⟩ none := by
    rw [evaluateClaim_of_some _ h, evaluateClaim_of_some _ h, hfn claim corpora (some m)]
    simp [hq]
  intro r hr _
  exact ⟨r, by rw [hsame, hr], rfl, rfl⟩

/-- Without a flag, a check that needs the morphology reports a mismatch of nothing in its absence. -/
theorem not_stable {claim : Claim} {fn : CheckFn} (h : builtinChecks.lookup claim.id = some fn)
    (hfn : NeedsMorphology fn) (hq : claim.requiresMorphology = false) (hnote : claim.ambiguityNote = none)
    (corpora : Seq.Dict Str Corpus) (m : Morphology) : ¬ Stable claim corpora m := by
  have hn : ¬ truthy claim.ambiguityNote := by
    rw [truthy_ambiguityNote, hnote]
    exact fun hne => hne rfl
  have hwithout : evaluateClaim claim ⟨corpora, none⟩ none =
      .ok ⟨claim.id, claim.assertedValue, .none, .mismatch⟩ := by
    rw [evaluateClaim_of_some _ h, hfn.without, if_neg (by simp [hq])]
    simp [bind, Except.bind, hn]
  intro hs
  obtain ⟨r', hr', -, hm⟩ := hs _ hwithout (by simp)
  obtain ⟨v, b, hv, hne⟩ := hfn.measures claim corpora m
  rw [evaluateClaim_of_some _ h, hv, if_neg (by simp)] at hr'
  simp only [bind, Except.bind, if_neg hn, Except.ok.injEq] at hr'
  exact hne (by rw [← hr'] at hm; exact hm)

/-- **A verdict survives the loading of a morphology exactly when a flag of the claim guards it or its check does not
read the morphology.** -/
theorem stable_iff (claim : Claim) (corpora : Seq.Dict Str Corpus) (m : Morphology) : Stable claim corpora m ↔
    claim.requiresMorphology = true ∨ claim.ambiguityNote ≠ none ∨ claim.id ∉ morphologyChecks := by
  constructor
  · intro hs
    by_contra hc
    simp only [not_or, not_not, Bool.not_eq_true] at hc
    obtain ⟨hq, hnote, hid⟩ := hc
    obtain ⟨fn, h⟩ := exists_check hid
    have hfn : NeedsMorphology fn := ((reads_of_mem _ (lookup_builtinChecks.mp h)).resolve_right fun hn => hn.1 hid).2
    exact not_stable h hfn hq hnote corpora m hs
  · intro hc
    cases h : builtinChecks.lookup claim.id with
    | none => exact stable_of_none h corpora m
    | some fn =>
      by_cases hf : claim.requiresMorphology = true ∨ claim.ambiguityNote ≠ none
      · exact stable_of_flag h hf corpora m
      · simp only [not_or, Bool.not_eq_true] at hf
        have hid : claim.id ∉ morphologyChecks := (hc.resolve_left (by simp [hf.1])).resolve_left hf.2
        have hfn : Independent fn := ((reads_of_mem _ (lookup_builtinChecks.mp h)).resolve_left fun hm => hid hm.1).2
        exact stable_of_independent h hfn hf.1 corpora m

end Registry

/-- A claim of equal counts whose flag is left at its default. -/
def lifeDeathClaim : Claim where
  id := "hayat-mawt-equal".toList
  description := "life and death occur equally often".toList
  source := "s".toList
  assertedValue := .str "equal".toList
  operationalDefinition := "lemma counts".toList
  expectedResult := "mismatch".toList
  requiresMorphology := false
  ambiguityNote := none
  id_pattern := by decide
  description_ne_nil := by decide
  source_ne_nil := s_ne_nil
  operationalDefinition_ne_nil := by decide
  expectedResult_ne_nil := mismatch_ne_nil
  ambiguityNote_ne_nil := none_ne_some_nil

/-- A morphology with one word of each lemma. -/
def lifeDeathMorphology : Morphology :=
  ⟨[⟨2, 28, 1, "Hayaw`p".toList, some "Hyy".toList, some "Hayaw`p".toList, some "N".toList⟩,
    ⟨2, 28, 2, "mawot".toList, some "mwt".toList, some "mawot".toList, some "N".toList⟩]⟩

/-- The verdict flips from mismatch to match. -/
theorem lifeDeath_flips :
    (∃ r, @evaluateClaim defaultInterpreter lifeDeathClaim ⟨[], none⟩ none = .ok r ∧ r.verdict = .mismatch) ∧
      (∃ r, @evaluateClaim defaultInterpreter lifeDeathClaim ⟨[], some lifeDeathMorphology⟩ none = .ok r ∧
        r.verdict = .matched) ∧
      ¬ @Stable defaultInterpreter lifeDeathClaim [] lifeDeathMorphology := by
  have h1 : @evaluateClaim defaultInterpreter lifeDeathClaim ⟨[], none⟩ none =
      .ok ⟨"hayat-mawt-equal".toList, .str "equal".toList, .none, .mismatch⟩ := by rfl
  have h2 : @evaluateClaim defaultInterpreter lifeDeathClaim ⟨[], some lifeDeathMorphology⟩ none =
      .ok ⟨"hayat-mawt-equal".toList, .str "equal".toList, .pair 1 1, .matched⟩ := by rfl
  refine ⟨⟨_, h1, rfl⟩, ⟨_, h2, rfl⟩, fun hs => ?_⟩
  obtain ⟨r, hr, hv, -⟩ := hs _ h1 (by decide)
  rw [h2] at hr
  cases hr
  cases hv

end QuranAnalysis
