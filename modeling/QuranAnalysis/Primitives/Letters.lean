import QuranAnalysis.Normalize.Tokens
import QuranAnalysis.Primitives

/-!
# Letters: the histogram and the abjad value

The histogram of letters is the tally of all characters of the normalised words (`letterFrequency_eq_tally`).

- `letterFrequency_exact`: each character once, in the order of first appearance, with its number of occurrences; a
  query of one character is counted alike by `countBySubstring`.
- `abjad_letterFrequency`: the abjad values of the letters, each as often as counted, add up to the abjad value of the
  running text; the abjad value is additive, and no folding changes it.
-/

namespace QuranAnalysis

open Py

/-- The characters of the normalised words. -/
def normalizedChars (c : Corpus) (b : Bool) (normalizer : Str → Str) : Str :=
  (c.words b).flatMap fun w => normalizer w.text

theorem letterFrequency_eq_tally (c : Corpus) (b : Bool) (normalizer : Str → Str) :
    letterFrequency c b normalizer = Seq.tally (normalizedChars c b normalizer) := by
  rw [letterFrequency, Seq.tally, normalizedChars, List.foldl_flatMap]

/-- The number of a letter in the histogram. -/
theorem lookup_letterFrequency (c : Corpus) (b : Bool) (normalizer : Str → Str) (d : Char) :
    ((letterFrequency c b normalizer).lookup d).getD 0 = (normalizedChars c b normalizer).count d := by
  rw [letterFrequency_eq_tally, Seq.lookup_tally]

/-- A sum over the normalised characters, word by word. -/
theorem sum_map_normalizedChars (c : Corpus) (b : Bool) (normalizer : Str → Str) (g : Char → Nat) :
    ((normalizedChars c b normalizer).map g).sum = ((c.words b).map fun w => ((normalizer w.text).map g).sum).sum :=
  Seq.sum_map_flatMap _ g _

/-! ## The histogram -/

/-- A query of one character counts it in the words. -/
theorem countBySubstring_singleton (c : Corpus) (b : Bool) {normalizer : Str → Str} {q : Str} {d : Char}
    (hq : normalizer q = [d]) (hd : isSpace d = false) :
    countBySubstring c q b normalizer = (normalizedChars c b normalizer).count d := by
  have htok : IsToken [d] := ⟨by simp, by simpa using hd⟩
  have hstrip : strip [d] ≠ [] := by
    rw [strip_eq_of_isToken htok]
    simp
  rw [countBySubstring, hq, if_neg hstrip, normalizedChars, List.count_flatMap]
  congr 1
  refine List.map_congr_left fun w _ => ?_
  rw [count, if_neg (by simp), Seq.occurrences_singleton, Function.comp_apply]

/-- **The histogram of letters is exact**: every character of the normalised words once, in the order of first
appearance, with its number of occurrences, which is also what a query of the character counts. -/
theorem letterFrequency_exact (c : Corpus) (b : Bool) (normalizer : Str → Str) :
    (letterFrequency c b normalizer).keys.Nodup ∧
      (∀ d, d ∈ (letterFrequency c b normalizer).keys ↔ ∃ w ∈ c.words b, d ∈ normalizer w.text) ∧
      (letterFrequency c b normalizer).keys.Pairwise (fun d e =>
        (normalizedChars c b normalizer).idxOf d < (normalizedChars c b normalizer).idxOf e) ∧
      (∀ e ∈ letterFrequency c b normalizer, 0 < e.2) ∧
      ((letterFrequency c b normalizer).map (·.2)).sum = ((c.words b).map fun w => (normalizer w.text).length).sum ∧
      ∀ (q : Str) (d : Char), normalizer q = [d] → isSpace d = false →
        countBySubstring c q b normalizer = ((letterFrequency c b normalizer).lookup d).getD 0 := by
  have hkeys : (letterFrequency c b normalizer).keys = (normalizedChars c b normalizer).eraseDups := by
    rw [letterFrequency_eq_tally, Seq.keys_tally]
  have hsum : ((letterFrequency c b normalizer).map (·.2)).sum =
      ((c.words b).map fun w => (normalizer w.text).length).sum := by
    have htally := Seq.sum_tally (fun _ => 1) (normalizedChars c b normalizer)
    rw [sum_map_normalizedChars] at htally
    simpa [letterFrequency_eq_tally] using htally
  refine ⟨?_, fun d => ?_, ?_, fun e he => ?_, hsum, fun q d hq hd => ?_⟩
  · rw [hkeys]
    exact Seq.nodup_eraseDups _
  · rw [hkeys, List.mem_eraseDups, normalizedChars, List.mem_flatMap]
  · rw [hkeys]
    exact Seq.pairwise_eraseDups _
  · rw [letterFrequency_eq_tally] at he
    exact Seq.pos_of_mem_tally he
  · rw [countBySubstring_singleton c b hq hd, lookup_letterFrequency]

/-! ## The abjad value -/

/-- The value of a character in the abjad table; 0 outside. -/
def abjadOf (ch : Char) : Nat := (abjadValues.lookup ch).getD 0

theorem abjadValue_eq (x : Str) : abjadValue x normalize = ((normalize x).map abjadOf).sum := rfl

theorem abjadValue_append (x y : Str) :
    abjadValue (x ++ y) normalize = abjadValue x normalize + abjadValue y normalize := by
  rw [abjadValue_eq, normalize_append, List.map_append, List.sum_append_nat]
  rfl

/-- Normalising does not change the abjad value. -/
theorem abjadValue_normalize (x : Str) : abjadValue (normalize x) normalize = abjadValue x normalize := by
  rw [abjadValue_eq, normalize_idem]
  rfl

/-- A final form becomes a letter of its value. -/
theorem abjadOf_of_finalForm {c : Char} {e : Option Char} (h : rulesOf finalFormsMap c = some e) :
    ∃ d, e = some d ∧ abjadOf d = abjadOf c := by
  have hvalue : ∀ p ∈ finalFormsMap, ∃ n, p.2 = some n ∧ abjadOf (Char.ofNat n) = abjadOf (Char.ofNat p.1) := by
    simp only [finalFormsMap, List.forall_mem_cons]
    exact ⟨⟨_, rfl, by decide⟩, ⟨_, rfl, by decide⟩, by simp⟩
  obtain ⟨m, hm, rfl⟩ := Option.map_eq_some_iff.mp h
  obtain ⟨n, hn, hv⟩ := hvalue _ (Seq.Dict.mem_of_lookup hm)
  obtain rfl : m = some n := hn
  exact ⟨Char.ofNat n, rfl, by rw [hv, Char.ofNat_toNat]⟩

/-- Folding the final forms does not change the abjad value. -/
theorem abjadValue_normalizeFinalForms (x : Str) :
    abjadValue (normalizeFinalForms x) normalize = abjadValue x normalize := by
  rw [abjadValue_eq, ← normalizeFinalForms_normalize, normalizeFinalForms, translate_eq_rewrite, Seq.sum_map_rewrite]
  · rfl
  · intro c hc
    obtain ⟨d, hd, -⟩ := abjadOf_of_finalForm hc
    cases hd
  · intro c d hc
    obtain ⟨d', hd, hv⟩ := abjadOf_of_finalForm hc
    cases hd
    exact hv

/-- The abjad value of a join: the spaces count nothing. -/
theorem abjadValue_join : ∀ ts : List Str,
    abjadValue (join ts) normalize = (ts.map fun t => abjadValue t normalize).sum
  | [] => rfl
  | [t] => by simp [join]
  | t :: u :: ts => by
    have hspace : abjadValue [' '] normalize = 0 := by decide
    rw [join, List.intercalate_cons_cons, abjadValue_append, abjadValue_append, hspace, List.map_cons, List.sum_cons]
    exact congrArg _ (abjadValue_join (u :: ts))

/-- **The histogram of letters and the running text have one abjad value**, which is additive and not changed by
folding. -/
theorem abjad_letterFrequency :
    (∀ (c : Corpus) (b : Bool),
      ((letterFrequency c b normalize).map fun e => e.2 * (abjadValues.lookup e.1).getD 0).sum =
        ((c.words b).map fun w => abjadValue w.text normalize).sum ∧
      ((letterFrequency c b normalize).map fun e => e.2 * (abjadValues.lookup e.1).getD 0).sum =
        abjadValue (c.text b) normalize) ∧
      (∀ x y : Str, abjadValue (x ++ y) normalize = abjadValue x normalize + abjadValue y normalize) ∧
      ∀ x : Str, abjadValue x normalize = abjadValue (normalize x) normalize ∧
        abjadValue x normalize = abjadValue (normalizeFinalForms x) normalize := by
  refine ⟨fun c b => ?_, abjadValue_append, fun x =>
    ⟨(abjadValue_normalize x).symm, (abjadValue_normalizeFinalForms x).symm⟩⟩
  have hwords : ((letterFrequency c b normalize).map fun e => e.2 * abjadOf e.1).sum =
      ((c.words b).map fun w => abjadValue w.text normalize).sum := by
    rw [letterFrequency_eq_tally, Seq.sum_tally, sum_map_normalizedChars]
    rfl
  refine ⟨hwords, hwords.trans ?_⟩
  rw [Corpus.text, abjadValue_join, List.map_map]
  rfl

end QuranAnalysis
