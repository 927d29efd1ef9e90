import QuranAnalysis.Claims.Stability
import QuranAnalysis.Claims.Report

/-!
# Rows that show one text twice

A row of the report shows the asserted and the measured value as texts, while the checks compare the values.

- `counts_of_mem`: every check but the positional one compares a count with the asserted value, or two counts with
  each other.
- `evaluateClaim_inv`: the rules of the runner, read backwards.
- `parsePos_eq_ok_iff`, `renderPos_some_eq_ok_iff`: what is read and what is shown as a position.
- `verdict_of_equal_texts`: where the texts are equal, an integer or a position is never a mismatch; a quoted text for a
  count always is one, unless a note makes it ambiguous.
-/

namespace QuranAnalysis

open Py

/-- The id of the positional claim. -/
def positionalId : Str := "allah-first-occurrence-1-1".toList

/-! ## What the checks compare -/

/-- What a check of counts may return: nothing, a count compared with the asserted value, or two counts compared with
each other. -/
inductive CountsOnly (claim : Claim) : Measurement → Prop
  | nothing : CountsOnly claim ⟨.none, false⟩
  | count (n : Nat) : CountsOnly claim (counted claim n)
  | pair (a b : Nat) : CountsOnly claim (countedPair a b)

/-- A check of counts. -/
def IsCountCheck (fn : CheckFn) : Prop := ∀ claim ctx m, fn claim ctx = .ok m → CountsOnly claim m

theorem isCountCheck_abjadCheck (text : Str) : IsCountCheck (abjadCheck text) := by
  intro claim ctx m h
  cases h
  exact .count _

theorem isCountCheck_lemmaCheck (lem : Str) : IsCountCheck (lemmaCheck lem) := by
  intro claim ctx m h
  unfold lemmaCheck at h
  split at h
  · cases h; exact .nothing
  · cases h; exact .count _

theorem isCountCheck_formCheck (form : Str) : IsCountCheck (formCheck form) := by
  intro claim ctx m h
  obtain ⟨corpus, -, h⟩ := bind_eq_ok_iff.mp h
  cases h
  exact .count _

theorem isCountCheck_letterCheck (sura : Int) (letter : Char) : IsCountCheck (letterCheck sura letter) := by
  intro claim ctx m h
  obtain ⟨corpus, -, h⟩ := bind_eq_ok_iff.mp h
  obtain ⟨freq, -, h⟩ := bind_eq_ok_iff.mp h
  cases h
  exact .count _

theorem isCountCheck_basmala19Letters : IsCountCheck basmala19Letters := by
  intro claim ctx m h
  cases h
  exact .count _

theorem isCountCheck_dunyaAkhiraEqual : IsCountCheck dunyaAkhiraEqual := by
  intro claim ctx m h
  obtain ⟨corpus, -, h⟩ := bind_eq_ok_iff.mp h
  cases h
  exact .pair _ _

theorem isCountCheck_lemmaPairCheck (lem lem' : Str) : IsCountCheck (lemmaPairCheck lem lem') := by
  intro claim ctx m h
  unfold lemmaPairCheck at h
  split at h
  · cases h; exact .nothing
  · cases h; exact .pair _ _

theorem isCountCheck_bahrBarrWaterRatio : IsCountCheck bahrBarrWaterRatio := by
  intro claim ctx m h
  unfold bahrBarrWaterRatio at h
  split at h
  · cases h; exact .nothing
  · cases h; exact .count _

section Registry

variable [Interpreter]

/-- **Every built-in check but the positional one is a check of counts.** -/
theorem counts_of_mem : ∀ e ∈ builtinChecks, e = (positionalId, allahFirstOccurrence11) ∨
    e.1 ≠ positionalId ∧ IsCountCheck e.2 := by
  simp only [builtinChecks, List.forall_mem_cons]
  refine ⟨?abjadAllah, ?abjadBasmala, ?yawm, ?shahr, ?ayyam, ?sab, ?dunya, ?qaf, ?noon, ?basmala, ?dunyaAkhira, ?hayat,
    ?malaika, ?rajul, ?bahr, .inl rfl, by simp⟩
  case abjadAllah | abjadBasmala => exact .inr ⟨by decide, isCountCheck_abjadCheck _⟩
  case yawm | shahr | ayyam => exact .inr ⟨by decide, isCountCheck_lemmaCheck _⟩
  case sab | dunya => exact .inr ⟨by decide, isCountCheck_formCheck _⟩
  case qaf | noon => exact .inr ⟨by decide, isCountCheck_letterCheck _ _⟩
  case basmala => exact .inr ⟨by decide, isCountCheck_basmala19Letters⟩
  case dunyaAkhira => exact .inr ⟨by decide, isCountCheck_dunyaAkhiraEqual⟩
  case hayat | malaika | rajul => exact .inr ⟨by decide, isCountCheck_lemmaPairCheck _ _⟩
  case bahr => exact .inr ⟨by decide, isCountCheck_bahrBarrWaterRatio⟩

/-- The rules of the runner, read backwards: nothing was measured, or the check decides unless a note is set. -/
theorem evaluateClaim_inv {claim : Claim} {ctx : CheckContext} {r : ClaimResult}
    (h : evaluateClaim claim ctx none = .ok r) : r.asserted = claim.assertedValue ∧
      (r.measured = .none ∧ r.verdict = .ambiguous ∨
        ∃ fn m, builtinChecks.lookup claim.id = some fn ∧ fn claim ctx = .ok m ∧ r.measured = m.value ∧
          r.verdict =
            if claim.ambiguityNote ≠ none then .ambiguous else if m.matched then .matched else .mismatch) := by
  cases hl : builtinChecks.lookup claim.id with
  | none =>
    rw [evaluateClaim_of_none ctx hl] at h
    cases h
    exact ⟨rfl, .inl ⟨rfl, rfl⟩⟩
  | some fn =>
    rw [evaluateClaim_of_some ctx hl] at h
    split at h
    · cases h
      exact ⟨rfl, .inl ⟨rfl, rfl⟩⟩
    · obtain ⟨m, hm, h⟩ := bind_eq_ok_iff.mp h
      simp only [truthy_ambiguityNote] at h
      by_cases hn : claim.ambiguityNote ≠ none
      · rw [if_pos hn] at h
        cases h
        exact ⟨rfl, .inr ⟨fn, m, rfl, hm, rfl, by rw [if_pos hn]⟩⟩
      · rw [if_neg hn] at h
        cases h
        exact ⟨rfl, .inr ⟨fn, m, rfl, hm, rfl, by rw [if_neg hn]⟩⟩

/-! ## Texts of values -/

/-- Only a measured integer is shown as an integer. -/
theorem measured_of_int_text {n : Int} {v : Measured} {t : Str} (hn : str n = .ok t) (hv : formatMeasured v = .ok t)
    (hs : ∀ s, v ≠ .str s) : v = .int n := by
  cases v with
  | none =>
    cases hv
    exact absurd (by simp [missing]) (notMem_of_str (c := '—') hn (by decide))
  | int k => rw [str_injective hn hv]
  | str s => exact absurd rfl (hs s)
  | pair a b =>
    obtain ⟨ta, -, hv⟩ := bind_eq_ok_iff.mp hv
    obtain ⟨tb, -, hv⟩ := bind_eq_ok_iff.mp hv
    cases hv
    exact absurd (by simp) (notMem_of_str (c := ' ') hn (by decide))

/-! ## Texts of positions -/

/-- A text is read as a position when it has one colon, with integers around it. -/
theorem parsePos_eq_ok_iff {v : Asserted} {p : Int × Int} : parsePos v = .ok p ↔
    ∃ f g, ':' ∉ f ∧ ':' ∉ g ∧ v.toStr = .ok (f ++ ':' :: g) ∧ int f = .ok p.1 ∧ int g = .ok p.2 := by
  rw [parsePos, bind_eq_ok_iff]
  constructor
  · rintro ⟨t, ht, hp⟩
    split at hp
    · next f g hfg =>
      obtain ⟨hf, hg, rfl⟩ := Seq.splitOn_eq_pair_iff.mp hfg
      obtain ⟨s, hs, hp⟩ := bind_eq_ok_iff.mp hp
      obtain ⟨a, ha, hp⟩ := bind_eq_ok_iff.mp hp
      cases hp
      exact ⟨f, g, hf, hg, ht, hs, ha⟩
    · cases hp
  · rintro ⟨f, g, hf, hg, ht, hs, ha⟩
    refine ⟨_, ht, ?_⟩
    rw [Seq.splitOn_eq_pair_iff.mpr ⟨hf, hg, rfl⟩]
    exact bind_eq_ok_iff.mpr ⟨_, hs, bind_eq_ok_iff.mpr ⟨_, ha, rfl⟩⟩

/-- A written position is read back. -/
theorem parsePos_of_str {sura aya : Int} {s a : Str} (hs : str sura = .ok s) (ha : str aya = .ok a) :
    parsePos (.str (s ++ ':' :: a)) = .ok (sura, aya) :=
  parsePos_eq_ok_iff.mpr
    ⟨s, a, notMem_of_str hs (by decide), notMem_of_str ha (by decide), rfl, int_str hs, int_str ha⟩

/-- A text without a colon is no position. -/
theorem parsePos_of_notMem {v : Asserted} {t : Str} (hv : v.toStr = .ok t) (hc : ':' ∉ t) (p : Int × Int) :
    parsePos v ≠ .ok p := by
  intro hp
  obtain ⟨f, g, -, -, ht, -⟩ := parsePos_eq_ok_iff.mp hp
  rw [hv] at ht
  obtain rfl := Except.ok.inj ht
  exact hc (by simp)

/-- What the check shows for a position: its numbers as they are written. -/
theorem renderPos_some_eq_ok_iff {p : Int × Int} {v : Measured} : renderPos (some p) = .ok v ↔
    ∃ s a, str p.1 = .ok s ∧ str p.2 = .ok a ∧ v = .str (s ++ ':' :: a) := by
  simp only [renderPos, bind_eq_ok_iff, Except.ok.injEq]
  constructor
  · rintro ⟨s, hs, a, ha, rfl⟩
    exact ⟨s, a, hs, ha, rfl⟩
  · rintro ⟨s, a, hs, ha, rfl⟩
    exact ⟨s, hs, a, ha, rfl⟩

/-! ## The positional check -/

/-- The positional check compares the first occurrence with the asserted position, and shows it in the same notation. -/
theorem allahFirstOccurrence11_inv {claim : Claim} {ctx : CheckContext} {m : Measurement}
    (h : allahFirstOccurrence11 claim ctx = .ok m) : ∃ measured asserted,
      parsePos claim.assertedValue = .ok asserted ∧ renderPos measured = .ok m.value ∧
        m.matched = decide (measured = some asserted) := by
  obtain ⟨corpus, -, h⟩ := bind_eq_ok_iff.mp h
  obtain ⟨asserted, ha, h⟩ := bind_eq_ok_iff.mp h
  obtain ⟨rendered, hr, h⟩ := bind_eq_ok_iff.mp h
  cases h
  exact ⟨_, asserted, ha, hr, rfl⟩

/-- Where the positional check shows the asserted text, it matches. -/
theorem positional_matched {claim : Claim} {ctx : CheckContext} {m : Measurement} {t : Str}
    (h : allahFirstOccurrence11 claim ctx = .ok m) (ha : claim.assertedValue.toStr = .ok t)
    (hm : formatMeasured m.value = .ok t) : m.matched = true := by
  obtain ⟨measured, asserted, hp, hr, hmatch⟩ := allahFirstOccurrence11_inv h
  cases measured with
  | none =>
    rw [← Except.ok.inj hr] at hm
    cases hm
    exact absurd hp (parsePos_of_notMem ha (by decide) asserted)
  | some p =>
    obtain ⟨ts, ta, hts, hta, hr⟩ := renderPos_some_eq_ok_iff.mp hr
    rw [hr] at hm
    cases hm
    cases hv : claim.assertedValue with
    | int n =>
      rw [hv] at ha
      exact absurd (by simp) (notMem_of_str (c := ':') ha (by decide))
    | str s =>
      rw [hv] at hp ha
      obtain rfl : s = ts ++ ':' :: ta := Except.ok.inj ha
      rw [parsePos_of_str hts hta] at hp
      have hpos : p = asserted := Except.ok.inj hp
      rw [hmatch, hpos, decide_eq_true_eq]

/-! ## Verdicts -/

/-- An integer that is shown as measured is matched. -/
theorem count_matched {claim : Claim} {m : Measurement} {n : Int} {t : Str} (hc : CountsOnly claim m)
    (hv : claim.assertedValue = .int n) (ha : str n = .ok t) (hm : formatMeasured m.value = .ok t) :
    m.matched = true := by
  cases hc with
  | nothing => cases measured_of_int_text ha hm (by simp)
  | count k =>
    have hk := measured_of_int_text ha hm (by simp [counted])
    simp only [counted, Measured.int.injEq] at hk
    simp [counted, hv, hk]
  | pair a b => cases measured_of_int_text ha hm (by simp [countedPair])

omit [Interpreter] in
/-- A check of counts never matches a text; it compares two counts with each other. -/
theorem count_matched_of_str {claim : Claim} {m : Measurement} {s : Str} (hc : CountsOnly claim m)
    (hv : claim.assertedValue = .str s) (hne : m.value ≠ .none) :
    m.matched = false ↔ (∃ n, m.value = .int n) ∨ ∃ a b, m.value = .pair a b ∧ a ≠ b := by
  cases hc with
  | nothing => exact absurd rfl hne
  | count k => simp [counted, hv]
  | pair a b =>
    rw [show (countedPair a b).matched = decide (a = b) from rfl, decide_eq_false_iff_not]
    constructor
    · intro h
      exact .inr ⟨a, b, rfl, by omega⟩
    · rintro (⟨n, hn⟩ | ⟨a', b', hp, h⟩)
      · cases hn
      · cases hp
        omega

/-- **Rows that show one text twice**: for an integer and for a position the verdict is no mismatch; a text that is
asserted for counts is a mismatch exactly where no note is set and the counts do not stand for an equality. -/
theorem verdict_of_equal_texts {claim : Claim} {ctx : CheckContext} {r : ClaimResult}
    (h : evaluateClaim claim ctx none = .ok r) {t : Str} (ha : r.asserted.toStr = .ok t)
    (hm : formatMeasured r.measured = .ok t) :
    ((∃ n, r.asserted = .int n) ∨ claim.id = positionalId → r.verdict ≠ .mismatch) ∧
      ((∃ s, r.asserted = .str s) → claim.id ≠ positionalId → r.measured ≠ .none →
        (r.verdict = .mismatch ↔ claim.ambiguityNote = none ∧
          ((∃ n, r.measured = .int n) ∨ ∃ a b, r.measured = .pair a b ∧ a ≠ b))) := by
  obtain ⟨hasserted, ⟨hnone, hverdict⟩ | ⟨fn, m, hl, hfn, hmeas, hverdict⟩⟩ := evaluateClaim_inv h
  · exact ⟨fun _ => by simp [hverdict], fun _ _ hne => absurd hnone hne⟩
  · rw [hasserted] at ha ⊢
    rw [hmeas] at hm ⊢
    rw [hverdict]
    have hmem := counts_of_mem _ (lookup_builtinChecks.mp hl)
    constructor
    · intro hcase
      have hmatched : m.matched = true := by
        rcases hmem with he | ⟨hid, hcount⟩
        · obtain rfl : fn = allahFirstOccurrence11 := congrArg Prod.snd he
          exact positional_matched hfn ha hm
        · obtain ⟨n, hv⟩ := hcase.resolve_right hid
          rw [hv] at ha
          exact count_matched (hcount _ _ _ hfn) hv ha hm
      rw [hmatched]
      split <;> simp
    · rintro ⟨s, hv⟩ hid hne
      have hcount : IsCountCheck fn := (hmem.resolve_left fun he => hid (congrArg Prod.fst he)).2
      rw [← count_matched_of_str (hcount _ _ _ hfn) hv hne]
      by_cases hn : claim.ambiguityNote = none <;> cases m.matched <;> simp [hn]

end Registry

/-- The abjad value 66, asserted as a number. -/
def allahClaim : Claim where
  id := "abjad-allah-66".toList
  description := "the name has the abjad value 66".toList
  source := "s".toList
  assertedValue := .int 66
  operationalDefinition := "abjad value".toList
  expectedResult := "match".toList
  requiresMorphology := false
  ambiguityNote := none
  id_pattern := by decide
  description_ne_nil := by decide
  source_ne_nil := s_ne_nil
  operationalDefinition_ne_nil := by decide
  expectedResult_ne_nil := match_ne_nil
  ambiguityNote_ne_nil := none_ne_some_nil

/-- The same, asserted as a quoted text. -/
def quotedAllahClaim : Claim := { allahClaim with assertedValue := .str "66".toList }

/-- As a number the value is no mismatch. -/
theorem verdict_of_equal_texts_allah :
    ∃ r, @evaluateClaim defaultInterpreter allahClaim ⟨[], none⟩ none = .ok r ∧ r.verdict ≠ .mismatch :=
  ⟨⟨allahClaim.id, .int 66, .int 66, .matched⟩, rfl, (@verdict_of_equal_texts defaultInterpreter allahClaim ⟨[], none⟩
    ⟨allahClaim.id, .int 66, .int 66, .matched⟩ rfl "66".toList (by decide) (by decide)).1 (.inl ⟨66, rfl⟩)⟩

/-- As a text the value is a mismatch, though both cells show `66`. -/
theorem quotedAllahClaim_mismatch :
    ∃ r, @evaluateClaim defaultInterpreter quotedAllahClaim ⟨[], none⟩ none = .ok r ∧
      @Asserted.toStr defaultInterpreter r.asserted = .ok "66".toList ∧
      @formatMeasured defaultInterpreter r.measured = .ok "66".toList ∧ r.verdict = .mismatch := by
  have h : @evaluateClaim defaultInterpreter quotedAllahClaim ⟨[], none⟩ none =
      .ok ⟨quotedAllahClaim.id, .str "66".toList, .int 66, .mismatch⟩ := by rfl
  exact ⟨_, h, rfl, by decide, rfl⟩

end QuranAnalysis
