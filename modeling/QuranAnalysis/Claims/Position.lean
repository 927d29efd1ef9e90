import QuranAnalysis.Corpus.Grammar
import QuranAnalysis.Primitives.Forms
import QuranAnalysis.Claims.Consistent

/-!
# The positional check decides its claim

An asserted position `s:a` is read back as the two numbers, the scan finds the least position of the name, and the
runner turns their comparison into the verdict.

- `parsePos_positionText`: the digits of two numbers are read as these numbers; integers and texts that are no position
  raise `ValueError` (`isValueError_parsePos_int`, `isValueError_parsePos_str`).
- `renderPos_eq_positionText`: the check shows `s:a` exactly for the position of these numbers.
- `firstOccurrencePosition_eq_some_iff`: the scan of a loaded corpus returns the least position of a verse word.
- `evaluateClaim_position`: the verdict is a match exactly for the least position, and exactly then the check shows the
  asserted text.
-/

namespace QuranAnalysis

open Py

section Position

variable [Interpreter]

/-! ## Reading positions -/

/-- Two texts that `int()` accepts, with the only colon between them. -/
def SpellsPosition (t : Str) : Prop :=
  ∃ f g p q, ':' ∉ f ∧ ':' ∉ g ∧ t = f ++ ':' :: g ∧ int f = .ok p ∧ int g = .ok q

/-- `s:a` in decimal digits. -/
def positionText (s a : Nat) : Str := Nat.toDigits 10 s ++ ':' :: Nat.toDigits 10 a

/-- What is not read as a position raises `ValueError`. -/
theorem onlyValueError_parsePos (v : Asserted) : OnlyValueError (parsePos v) := by
  refine OnlyValueError.bind ?_ fun t _ => ?_
  · cases v with
    | int n => exact onlyValueError_str n
    | str t => exact .ok t
  · split
    · exact (onlyValueError_int _).bind fun _ _ => (onlyValueError_int _).bind fun _ _ => .ok _
    · exact .valueError _

/-- An integer has no colon, so it is no position. -/
theorem isValueError_parsePos_int (n : Int) : IsValueError (parsePos (.int n)) := by
  refine (onlyValueError_parsePos _).isValueError fun ⟨p, hp⟩ => ?_
  obtain ⟨f, g, -, -, ht, -⟩ := parsePos_eq_ok_iff.mp hp
  exact absurd (by simp) (notMem_of_str (c := ':') ht (by decide))

/-- Nor is a text without two integers around one colon. -/
theorem isValueError_parsePos_str {t : Str} (h : ¬ SpellsPosition t) : IsValueError (parsePos (.str t)) := by
  refine (onlyValueError_parsePos _).isValueError fun ⟨p, hp⟩ => ?_
  obtain ⟨f, g, hf, hg, ht, hp, hq⟩ := parsePos_eq_ok_iff.mp hp
  exact h ⟨f, g, p.1, p.2, hf, hg, Except.ok.inj ht, hp, hq⟩

/-- The digits of two numbers are read as these numbers, exactly when both can be written. -/
theorem parsePos_positionText {s a : Nat} {p : Int × Int} : parsePos (.str (positionText s a)) = .ok p ↔
    ((∃ t, str (s : Int) = .ok t) ∧ ∃ t, str (a : Int) = .ok t) ∧ p = ((s : Int), (a : Int)) := by
  have hcolon : ∀ n : Nat, ':' ∉ Nat.toDigits 10 n := fun n hm => by
    have := isDigit_of_mem_toDigits hm
    revert this
    decide
  rw [parsePos_eq_ok_iff]
  constructor
  · rintro ⟨f, g, hf, hg, ht, hp, hq⟩
    have hsplit : (positionText s a).splitOn ':' = [f, g] :=
      Seq.splitOn_eq_pair_iff.mpr ⟨hf, hg, Except.ok.inj ht⟩
    rw [positionText, Seq.splitOn_eq_pair_iff.mpr ⟨hcolon s, hcolon a, rfl⟩] at hsplit
    cases hsplit
    obtain ⟨hs, hp⟩ := int_toDigits_eq_ok_iff.mp hp
    obtain ⟨ha, hq⟩ := int_toDigits_eq_ok_iff.mp hq
    exact ⟨⟨hs, ha⟩, Prod.ext hp hq⟩
  · rintro ⟨⟨hs, ha⟩, rfl⟩
    exact ⟨_, _, hcolon s, hcolon a, rfl, int_toDigits_eq_ok_iff.mpr ⟨hs, rfl⟩, int_toDigits_eq_ok_iff.mpr ⟨ha, rfl⟩⟩

/-! ## Writing positions -/

/-- **The check shows `s:a` exactly for the position of these numbers.** -/
theorem renderPos_eq_positionText {first : Option (Int × Int)} {v : Measured} (h : renderPos first = .ok v)
    (s a : Nat) : v = .str (positionText s a) ↔ first = some ((s : Int), (a : Int)) := by
  cases first with
  | none =>
    cases h
    simp
  | some p =>
    obtain ⟨ts, ta, hs, ha, rfl⟩ := renderPos_some_eq_ok_iff.mp h
    constructor
    · intro ht
      have hp : parsePos (.str (ts ++ ':' :: ta)) = .ok p := parsePos_of_str hs ha
      rw [Measured.str.inj ht] at hp
      rw [(parsePos_positionText.mp hp).2]
    · intro hp
      obtain rfl := Option.some.inj hp
      rw [← (str_natCast_eq_ok_iff.mp hs).2, ← (str_natCast_eq_ok_iff.mp ha).2, positionText]

/-- The report shows a position as the check does, and nothing as no position. -/
theorem formatMeasured_eq_positionText {first : Option (Int × Int)} {v : Measured} (h : renderPos first = .ok v)
    (s a : Nat) : formatMeasured v = .ok (positionText s a) ↔ v = .str (positionText s a) := by
  cases first with
  | none =>
    cases h
    have hne : missing ≠ positionText s a := by
      intro he
      have hcolon : ':' ∈ missing := by simp [he, positionText]
      revert hcolon
      decide
    simp [formatMeasured, hne]
  | some p =>
    obtain ⟨ts, ta, -, -, rfl⟩ := renderPos_some_eq_ok_iff.mp h
    simp [formatMeasured]

/-! ## The least position -/

/-- The positions of the words of numbered verses that are the name. -/
def namePositions (c : Corpus) : Set (ℤ ×ₗ ℤ) :=
  {p | ∃ w ∈ c.words true, 1 ≤ w.aya ∧ normalize w.text = normalize "الله".toList ∧ p = toLex (w.sura, w.aya)}

/-- The position that the check measures. -/
abbrev nameFirst (c : Corpus) : Option (Int × Int) := firstOccurrencePosition c "الله".toList false normalize

omit [Interpreter] in
/-- Words of numbered verses are the words without the separated basmalas. -/
theorem namePositions_corpus (M : Mushaf) (edition : Str) :
    namePositions (M.corpus edition) = formPositions (M.corpus edition) "الله".toList false normalize := by
  ext p
  constructor
  · rintro ⟨w, hw, h1, hf, rfl⟩
    refine ⟨w, ?_, hf, rfl⟩
    rw [words_false_eq_filter, List.mem_filter, decide_eq_true_eq, basmalaAya]
    exact ⟨hw, by omega⟩
  · rintro ⟨w, hw, hf, rfl⟩
    rw [words_false_eq_filter, List.mem_filter, decide_eq_true_eq] at hw
    rcases words_corpus_located hw.1 with ⟨h1, -⟩ | ⟨-, h0, -⟩
    · exact ⟨w, hw.1, h1, hf, rfl⟩
    · exact absurd h0 hw.2

/-- **The check measures the least position of a verse word that is the name.** -/
theorem nameFirst_eq_some_iff {edition raw : Str} {c : Corpus} (hc : loadCorpus edition raw = .ok c) {p : Int × Int} :
    nameFirst c = some p ↔ IsLeast (namePositions c) (toLex p) := by
  obtain ⟨records, M, -, -, rfl⟩ := lists_of_loadCorpus hc
  rw [namePositions_corpus, firstOccurrencePosition_eq_some_iff (by decide)]

/-- The addresses of the verse words of a loaded corpus can be written: they stand in its file. -/
theorem exists_str_of_mem_words {edition raw : Str} {c : Corpus} (hc : loadCorpus edition raw = .ok c) {w : Word}
    (hw : w ∈ c.words false) : (∃ t, str w.sura = .ok t) ∧ ∃ t, str w.aya = .ok t := by
  obtain ⟨records, M, hp, hM, rfl⟩ := lists_of_loadCorpus hc
  obtain ⟨su, hsu, hw⟩ := List.mem_flatMap.mp hw
  obtain ⟨n, vs, hv, rfl⟩ := Seq.mem_mapIdx_iff.mp hsu
  rw [words_suraOf, if_neg Bool.false_ne_true, List.nil_append] at hw
  obtain ⟨hs, a, v, ha, hwa, -⟩ := located_of_mem_ayasOf hw
  obtain ⟨hlt, -⟩ := List.getElem?_eq_some_iff.mp ha
  rw [length_bodies] at hlt
  obtain ⟨r, hr, hrs, hra⟩ := hM.exists_record_iff.mpr ⟨n, vs, hv, hs, show 1 ≤ w.aya by omega, by omega⟩
  rw [← hrs, ← hra]
  exact exists_str_of_mem hp hr

/-- So the measured position can be shown. -/
theorem exists_renderPos {edition raw : Str} {c : Corpus} (hc : loadCorpus edition raw = .ok c) :
    ∃ v, renderPos (nameFirst c) = .ok v := by
  cases h : nameFirst c with
  | none => exact ⟨_, rfl⟩
  | some p =>
    obtain ⟨-, w, hw, rfl⟩ := firstOccurrencePosition_eq_some h
    obtain ⟨⟨s, hs⟩, a, ha⟩ := exists_str_of_mem_words hc (List.mem_of_find?_eq_some hw)
    exact ⟨_, renderPos_some_eq_ok_iff.mpr ⟨s, a, hs, ha, rfl⟩⟩

/-! ## The verdict -/

/-- The check raises what reading the asserted position raises, and compares otherwise. -/
theorem allahFirstOccurrence11_eq {claim : Claim} {ctx : CheckContext} {c : Corpus}
    (hctx : ctx.corpus simpleClean = .ok c) {rendered : Measured} (hr : renderPos (nameFirst c) = .ok rendered) :
    allahFirstOccurrence11 claim ctx =
      parsePos claim.assertedValue >>= fun asserted => .ok ⟨rendered, nameFirst c = some asserted⟩ := by
  unfold allahFirstOccurrence11
  simp only [hctx, hr, bind, Except.bind]

/-- A claim under the id of the check: a note makes it ambiguous, else the comparison decides. -/
theorem evaluateClaim_positional {claim : Claim} {ctx : CheckContext} {c : Corpus}
    (hctx : ctx.corpus simpleClean = .ok c) {rendered : Measured} (hr : renderPos (nameFirst c) = .ok rendered)
    (hid : claim.id = positionalId) (hq : claim.requiresMorphology = false) : evaluateClaim claim ctx none =
      parsePos claim.assertedValue >>= fun asserted =>
        .ok ⟨claim.id, claim.assertedValue, rendered,
          if truthy claim.ambiguityNote then .ambiguous
          else if nameFirst c = some asserted then .matched else .mismatch⟩ := by
  have hlookup : builtinChecks.lookup claim.id = some allahFirstOccurrence11 := by
    rw [hid, lookup_builtinChecks]
    exact List.mem_of_getLast? rfl
  rw [evaluateClaim_of_some ctx hlookup, if_neg (by simp [hq]), allahFirstOccurrence11_eq hctx hr]
  cases parsePos claim.assertedValue with
  | error e => rfl
  | ok asserted =>
    simp only [bind, Except.bind, decide_eq_true_eq]
    split <;> rfl

/-- The outcome for the asserted position `s:a`. -/
structure DecidesPosition (claim : Claim) (ctx : CheckContext) (c : Corpus) (s a : Nat) : Prop where
  returns_iff : (∃ r, evaluateClaim claim ctx none = .ok r) ↔
    (∃ t, str (s : Int) = .ok t) ∧ ∃ t, str (a : Int) = .ok t
  matched_iff : (∃ r, evaluateClaim claim ctx none = .ok r ∧ r.verdict = .matched) ↔
    IsLeast (namePositions c) (toLex ((s : Int), (a : Int)))
  texts : ∀ r, evaluateClaim claim ctx none = .ok r →
    r.verdict = .matched ∧ r.measured = .str (positionText s a) ∨
      r.verdict = .mismatch ∧ formatMeasured r.measured ≠ .ok (positionText s a)

/-- What the evaluation of an asserted position returns. -/
theorem evaluateClaim_positionText {claim : Claim} {ctx : CheckContext} {c : Corpus}
    (hctx : ctx.corpus simpleClean = .ok c) {rendered : Measured} (hr : renderPos (nameFirst c) = .ok rendered)
    (hid : claim.id = positionalId) (hq : claim.requiresMorphology = false) {s a : Nat}
    (hv : claim.assertedValue = .str (positionText s a)) (hnote : claim.ambiguityNote = none) {r : ClaimResult} :
    evaluateClaim claim ctx none = .ok r ↔ ((∃ t, str (s : Int) = .ok t) ∧ ∃ t, str (a : Int) = .ok t) ∧
      r = ⟨claim.id, claim.assertedValue, rendered,
        if nameFirst c = some ((s : Int), (a : Int)) then .matched else .mismatch⟩ := by
  have hn : ¬ truthy claim.ambiguityNote := by
    rw [truthy_ambiguityNote, hnote]
    exact fun h => h rfl
  rw [evaluateClaim_positional hctx hr hid hq, hv, bind_eq_ok_iff]
  simp only [parsePos_positionText, if_neg hn, Except.ok.injEq]
  constructor
  · rintro ⟨_, ⟨hw, rfl⟩, rfl⟩
    exact ⟨hw, rfl⟩
  · rintro ⟨hw, rfl⟩
    exact ⟨_, ⟨hw, rfl⟩, rfl⟩

/-- **The verdict on an asserted position is a match exactly for the least position.** -/
theorem decidesPosition {edition raw : Str} {c : Corpus} (hc : loadCorpus edition raw = .ok c) {ctx : CheckContext}
    (hctx : ctx.corpus simpleClean = .ok c) {claim : Claim} (hid : claim.id = positionalId)
    (hq : claim.requiresMorphology = false) {s a : Nat} (hv : claim.assertedValue = .str (positionText s a))
    (hnote : claim.ambiguityNote = none) : DecidesPosition claim ctx c s a := by
  obtain ⟨rendered, hr⟩ := exists_renderPos hc
  have heval : ∀ r, _ := fun r => @evaluateClaim_positionText _ _ _ _ hctx _ hr hid hq _ _ hv hnote r
  constructor
  case returns_iff =>
    simp only [heval, exists_and_left, exists_eq, and_true]
  case matched_iff =>
    rw [← nameFirst_eq_some_iff hc]
    constructor
    · rintro ⟨r, hres, hm⟩
      obtain ⟨-, rfl⟩ := (heval r).mp hres
      by_contra hf
      rw [if_neg hf] at hm
      cases hm
    · intro hf
      rw [hf] at hr
      obtain ⟨ts, ta, hs, ha, -⟩ := renderPos_some_eq_ok_iff.mp hr
      exact ⟨_, (heval _).mpr ⟨⟨⟨ts, hs⟩, ta, ha⟩, rfl⟩, if_pos hf⟩
  case texts =>
    intro r hres
    obtain ⟨-, rfl⟩ := (heval r).mp hres
    by_cases hf : nameFirst c = some ((s : Int), (a : Int))
    · exact .inl ⟨if_pos hf, (renderPos_eq_positionText hr s a).mpr hf⟩
    · refine .inr ⟨if_neg hf, ?_⟩
      rw [ne_eq, formatMeasured_eq_positionText hr, renderPos_eq_positionText hr]
      exact hf

/-- **The positional check decides its claim.** For an asserted `s:a` the verdict is a match exactly if `s:a` is the
least position of the name, and exactly then the check shows the asserted text; what is no position raises
`ValueError`. -/
theorem evaluateClaim_position {edition raw : Str} {c : Corpus} (hc : loadCorpus edition raw = .ok c)
    {ctx : CheckContext} (hctx : ctx.corpus simpleClean = .ok c) {claim : Claim} (hid : claim.id = positionalId)
    (hq : claim.requiresMorphology = false) :
    (∀ s a : Nat, claim.assertedValue = .str (positionText s a) → claim.ambiguityNote = none →
        DecidesPosition claim ctx c s a) ∧
      ((∃ n, claim.assertedValue = .int n) ∨ (∃ t, claim.assertedValue = .str t ∧ ¬ SpellsPosition t) →
        IsValueError (evaluateClaim claim ctx none)) := by
  refine ⟨fun s a hv hnote => decidesPosition hc hctx hid hq hv hnote, fun hv => ?_⟩
  have hparse : IsValueError (parsePos claim.assertedValue) := by
    rcases hv with ⟨n, hn⟩ | ⟨t, ht, hno⟩
    · rw [hn]
      exact isValueError_parsePos_int n
    · rw [ht]
      exact isValueError_parsePos_str hno
  obtain ⟨rendered, hr⟩ := exists_renderPos hc
  obtain ⟨msg, hmsg⟩ := hparse
  rw [evaluateClaim_positional hctx hr hid hq, hmsg]
  exact ⟨msg, rfl⟩

end Position

/-- A file with the name in verse 1:2, behind a verse with another word. -/
def nameText : Str := "1|1|بسم\n1|2|اللَّه\n".toList

/-- The corpus of the file. -/
def nameCorpus : Corpus :=
  ⟨"simple-clean".toList, [⟨1, [⟨1, 1, enumWords 1 1 ["بسم".toList]⟩, ⟨1, 2, enumWords 1 2 ["اللَّه".toList]⟩], none⟩]⟩

/-- The claim that the name first occurs in 1:2. -/
def namePositionClaim : Claim where
  id := positionalId
  description := "the name first occurs in 1:2".toList
  source := "s".toList
  assertedValue := .str "1:2".toList
  operationalDefinition := "first occurrence".toList
  expectedResult := "match".toList
  requiresMorphology := false
  ambiguityNote := none
  id_pattern := by decide
  description_ne_nil := by decide
  source_ne_nil := s_ne_nil
  operationalDefinition_ne_nil := by decide
  expectedResult_ne_nil := match_ne_nil
  ambiguityNote_ne_nil := none_ne_some_nil

theorem loadSimpleClean_name : @loadSimpleClean defaultInterpreter nameText = .ok nameCorpus := by decide

/-- The verdict is a match, so 1:2 is the least position of the name. -/
theorem evaluateClaim_position_name :
    IsLeast (namePositions nameCorpus) (toLex (((1 : Nat) : Int), ((2 : Nat) : Int))) := by
  have hdecides := (@evaluateClaim_position defaultInterpreter _ _ _ loadSimpleClean_name
    ⟨[(simpleClean, nameCorpus)], none⟩ rfl namePositionClaim rfl rfl).1 1 2 rfl rfl
  exact (@DecidesPosition.matched_iff defaultInterpreter _ _ _ _ _ hdecides).mp
    ⟨⟨positionalId, .str "1:2".toList, .str "1:2".toList, .matched⟩, by rfl, rfl⟩

end QuranAnalysis
