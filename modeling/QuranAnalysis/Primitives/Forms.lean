import Mathlib.Data.Prod.Lex
import Mathlib.Order.Bounds.Basic
import QuranAnalysis.Corpus.Conserve
import QuranAnalysis.Primitives

/-!
# The form primitives agree

Three scans look for the words with a form: `countByForm`, `countBySubstring` and `firstOccurrencePosition`. The words
of a loaded corpus stand in the order of their addresses, so the first word with a form has the least position of all
(`isLeast_firstOccurrencePosition`).

- `firstOccurrencePosition_eq_none_iff`: there is no first occurrence exactly when nothing is counted.
- `countByForm_le_countBySubstring`: a form occurs in every word that has it.
- `form_primitives_agree`: both, and the separated basmalas only add occurrences.
-/

namespace QuranAnalysis

open Py

/-- The positions of the words with the normalised form, in lexicographic order. -/
def formPositions (c : Corpus) (form : Str) (b : Bool) (normalizer : Str → Str) : Set (ℤ ×ₗ ℤ) :=
  {p | ∃ w ∈ c.words b, normalizer w.text = normalizer form ∧ p = toLex (w.sura, w.aya)}

section Scans

variable {c : Corpus} {form : Str} {b : Bool} {normalizer : Str → Str}

/-- **There is no first occurrence exactly when nothing is counted.** -/
theorem firstOccurrencePosition_eq_none_iff :
    firstOccurrencePosition c form b normalizer = none ↔ countByForm c form b normalizer = 0 := by
  unfold firstOccurrencePosition countByForm
  by_cases hs : strip (normalizer form) = []
  · simp only [if_pos hs]
  · simp only [if_neg hs, Option.map_eq_none_iff, List.find?_eq_none, List.countP_eq_zero]

/-- A first occurrence is the position of a word with the form, found by the scan. -/
theorem firstOccurrencePosition_eq_some {p : Int × Int} (h : firstOccurrencePosition c form b normalizer = some p) :
    strip (normalizer form) ≠ [] ∧
      ∃ w, (c.words b).find? (fun w => normalizer w.text = normalizer form) = some w ∧ p = (w.sura, w.aya) := by
  unfold firstOccurrencePosition at h
  by_cases hs : strip (normalizer form) = []
  · rw [if_pos hs] at h
    cases h
  · rw [if_neg hs] at h
    obtain ⟨w, hw, rfl⟩ := Option.map_eq_some_iff.mp h
    exact ⟨hs, w, hw, rfl⟩

/-- A word with the form gives a first occurrence. -/
theorem exists_firstOccurrencePosition (hs : strip (normalizer form) ≠ []) {w : Word} (hw : w ∈ c.words b)
    (hf : normalizer w.text = normalizer form) : ∃ p, firstOccurrencePosition c form b normalizer = some p := by
  rw [← Option.ne_none_iff_exists', ne_eq, firstOccurrencePosition_eq_none_iff, countByForm, if_neg hs,
    List.countP_eq_zero]
  exact fun h => h w hw (by simpa using hf)

/-- **A form occurs in every word that has it.** -/
theorem countByForm_le_countBySubstring : countByForm c form b normalizer ≤ countBySubstring c form b normalizer := by
  unfold countByForm countBySubstring
  by_cases hs : strip (normalizer form) = []
  · simp only [if_pos hs, le_refl]
  · simp only [if_neg hs]
    have hne : normalizer form ≠ [] := ne_nil_of_strip hs
    induction c.words b with
    | nil => simp
    | cons w ws ih =>
      rw [List.countP_cons, List.map_cons, List.sum_cons]
      split
      · next hw =>
        have hw : normalizer w.text = normalizer form := by simpa using hw
        have hpos : 0 < count (normalizer w.text) (normalizer form) := by
          rw [count, if_neg hne, hw]
          exact Seq.occurrences_self_pos hne
        omega
      · omega

end Scans

/-! ## Loaded corpora -/

section Mushaf

variable {M : Mushaf} {edition form : Str} {b : Bool} {normalizer : Str → Str}

/-- A word in front of another has no greater position. -/
theorem Word.Before.toLex_le {w w' : Word} (h : w.Before w') : toLex (w.sura, w.aya) ≤ toLex (w'.sura, w'.aya) := by
  rw [Prod.Lex.toLex_le_toLex]
  unfold Word.Before at h
  omega

/-- **The first occurrence has the least position of all words with the form.** -/
theorem isLeast_firstOccurrencePosition {p : Int × Int}
    (h : firstOccurrencePosition (M.corpus edition) form b normalizer = some p) :
    IsLeast (formPositions (M.corpus edition) form b normalizer) (toLex p) := by
  obtain ⟨-, w, hw, rfl⟩ := firstOccurrencePosition_eq_some h
  refine ⟨⟨w, List.mem_of_find?_eq_some hw, by simpa using List.find?_some hw, rfl⟩, ?_⟩
  rintro q ⟨w', hw', hf, rfl⟩
  rcases Seq.eq_or_rel_of_find? (pairwise_words_corpus M edition b) hw hw' (by simpa using hf) with rfl | hlt
  · exact le_refl _
  · exact hlt.toLex_le

/-- The scan returns exactly the least position of all words with the form. -/
theorem firstOccurrencePosition_eq_some_iff (hs : strip (normalizer form) ≠ []) {p : Int × Int} :
    firstOccurrencePosition (M.corpus edition) form b normalizer = some p ↔
      IsLeast (formPositions (M.corpus edition) form b normalizer) (toLex p) := by
  refine ⟨isLeast_firstOccurrencePosition, fun h => ?_⟩
  obtain ⟨w, hw, hf, -⟩ := h.1
  obtain ⟨q, hq⟩ := exists_firstOccurrencePosition hs hw hf
  rw [hq, toLex.injective ((isLeast_firstOccurrencePosition hq).unique h)]

/-- The separated basmalas do not hide an occurrence. -/
theorem firstOccurrencePosition_basmala {p : Int × Int}
    (h : firstOccurrencePosition (M.corpus edition) form false normalizer = some p) :
    ∃ q, firstOccurrencePosition (M.corpus edition) form true normalizer = some q ∧ toLex q ≤ toLex p := by
  obtain ⟨hs, w, hw, rfl⟩ := firstOccurrencePosition_eq_some h
  have hf : normalizer w.text = normalizer form := by simpa using List.find?_some hw
  have hmem : w ∈ (M.corpus edition).words true := by
    have := List.mem_of_find?_eq_some hw
    rw [words_false_eq_filter] at this
    exact List.mem_of_mem_filter this
  obtain ⟨q, hq⟩ := exists_firstOccurrencePosition hs hmem hf
  exact ⟨q, hq, (isLeast_firstOccurrencePosition hq).2 ⟨w, hmem, hf, rfl⟩⟩

end Mushaf

/-- **The form primitives agree on every loaded corpus.** -/
theorem form_primitives_agree [Interpreter] {edition raw : Str} {c : Corpus} (h : loadCorpus edition raw = .ok c)
    (form : Str) (normalizer : Str → Str) :
    (∀ b, firstOccurrencePosition c form b normalizer = none ↔ countByForm c form b normalizer = 0) ∧
      (∀ b p, firstOccurrencePosition c form b normalizer = some p →
        IsLeast (formPositions c form b normalizer) (toLex p)) ∧
      (∀ p, firstOccurrencePosition c form false normalizer = some p →
        ∃ q, firstOccurrencePosition c form true normalizer = some q ∧ toLex q ≤ toLex p) ∧
      ∀ b, countByForm c form b normalizer ≤ countBySubstring c form b normalizer := by
  obtain ⟨records, M, -, -, rfl⟩ := lists_of_loadCorpus h
  exact ⟨fun b => firstOccurrencePosition_eq_none_iff, fun b p hp => isLeast_firstOccurrencePosition hp,
    fun p hp => firstOccurrencePosition_basmala hp, fun b => countByForm_le_countBySubstring⟩

/-- The name in the small file, first in the basmala of sura 1. -/
theorem form_primitives_agree_sample :
    IsLeast (formPositions sampleCorpus "allahi".toList false normalize) (toLex (1, 1)) :=
  (@form_primitives_agree defaultInterpreter _ _ _ loadUthmani_sample "allahi".toList normalize).2.1 false (1, 1)
    (by decide)

end QuranAnalysis
