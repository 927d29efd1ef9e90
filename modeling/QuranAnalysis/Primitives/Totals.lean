import QuranAnalysis.Morphology.Model
import QuranAnalysis.Primitives.Letters

/-!
# Totals of the counts, and coarser normalisers

`wordForms` lists the normalised forms of the words that are not blank, each once, and `columnValues` the values of a
column of the morphology.

- `counts_partition`: the counts of all forms, of all roots and of all lemmas add up to the numbers of words that have
  one.
- `countByForm_coarser`: a count under a coarser normaliser is the sum of the counts of the forms that it identifies.
- `counts_finalForms`: so it is for folding the final forms, in words and in letters.
-/

namespace QuranAnalysis

open Py

section Forms

variable {norm : Str → Str} {c : Corpus} {b : Bool}

/-- The normalised forms of the words that are not blank, each once. -/
def wordForms (c : Corpus) (b : Bool) (norm : Str → Str) : List Str :=
  ((c.words b).map fun w => norm w.text).eraseDups.filter fun f => strip f ≠ []

theorem mem_wordForms_iff {f : Str} :
    f ∈ wordForms c b norm ↔ (∃ w ∈ c.words b, norm w.text = f) ∧ strip f ≠ [] := by
  rw [wordForms, List.mem_filter, List.mem_eraseDups, List.mem_map, decide_eq_true_eq]

/-- A form counts the words that have it. -/
theorem countByForm_of_mem (hn : ∀ x, norm (norm x) = norm x) {f : Str} (hf : f ∈ wordForms c b norm) :
    countByForm c f b norm = ((c.words b).map fun w => norm w.text).count f := by
  obtain ⟨⟨w, hw, rfl⟩, hs⟩ := mem_wordForms_iff.mp hf
  rw [countByForm, hn, if_neg hs, List.count, List.countP_map]
  exact List.countP_congr fun v _ => by simp

/-- The counts of some forms add up to the number of words with one of them. -/
theorem sum_countByForm_filter (hn : ∀ x, norm (norm x) = norm x) (p : Str → Bool) :
    (((wordForms c b norm).filter p).map fun f => countByForm c f b norm).sum =
      (c.words b).countP fun w => p (norm w.text) && strip (norm w.text) ≠ [] := by
  have hcount : ((wordForms c b norm).filter p).map (fun f => countByForm c f b norm) =
      ((wordForms c b norm).filter p).map ((c.words b).map fun w => norm w.text).count :=
    List.map_congr_left fun f hf => countByForm_of_mem hn (List.mem_of_mem_filter hf)
  rw [hcount, wordForms, List.filter_filter, Seq.sum_count_filter, List.countP_map]
  rfl

/-- **The counts of all forms add up to the number of words that are not blank.** -/
theorem sum_countByForm (hn : ∀ x, norm (norm x) = norm x) :
    ((wordForms c b norm).map fun f => countByForm c f b norm).sum =
      (c.words b).countP fun w => strip (norm w.text) ≠ [] := by
  have h := sum_countByForm_filter (c := c) (b := b) hn fun _ => true
  rw [List.filter_true] at h
  simpa using h

/-- **A coarser normaliser counts all the forms that it identifies with the query.** -/
theorem countByForm_coarser {g : Str → Str} (hn : ∀ x, norm (norm x) = norm x)
    (hg : ∀ x, strip (g x) = [] ↔ strip x = []) (q : Str) :
    countByForm c q b (fun x => g (norm x)) =
      (((wordForms c b norm).filter fun f => g f = g (norm q)).map fun f => countByForm c f b norm).sum := by
  rw [sum_countByForm_filter hn, countByForm]
  split
  · next hq =>
    -- no form that is not blank is identified with a blank query
    rw [eq_comm, List.countP_eq_zero]
    intro w _ hw
    rw [Bool.and_eq_true, decide_eq_true_eq, decide_eq_true_eq] at hw
    rw [← hw.1] at hq
    exact hw.2 ((hg _).mp hq)
  · next hq =>
    refine List.countP_congr fun w _ => ?_
    rw [Bool.and_eq_true, decide_eq_true_eq, decide_eq_true_eq]
    constructor
    · intro he
      refine ⟨he, fun hs => hq ?_⟩
      rw [← he]
      exact (hg _).mpr hs
    · exact fun h => h.1

/-- What is equal stays equal under a coarser normaliser. -/
theorem countByForm_le_coarser {g : Str → Str} (hg : ∀ x, strip (g x) = [] ↔ strip x = []) (q : Str) :
    countByForm c q b norm ≤ countByForm c q b fun x => g (norm x) := by
  by_cases hq : strip (norm q) = []
  · rw [countByForm, if_pos hq]
    exact Nat.zero_le _
  · rw [countByForm, if_neg hq, countByForm, if_neg fun h => hq ((hg _).mp h)]
    refine List.countP_mono_left fun w _ hw => ?_
    rw [decide_eq_true_eq] at hw ⊢
    rw [hw]

/-- Where letters are folded, the folded letters are counted together. -/
theorem letterFrequency_map (c : Corpus) (b : Bool) (norm : Str → Str) (ρ : Char → Char) (d : Char) :
    ((letterFrequency c b fun x => (norm x).map ρ).lookup d).getD 0 =
      (((letterFrequency c b norm).filter fun e => ρ e.1 = d).map (·.2)).sum := by
  have hchars : normalizedChars c b (fun x => (norm x).map ρ) = (normalizedChars c b norm).map ρ := by
    rw [normalizedChars, normalizedChars, List.map_flatMap]
  have hcount : ((normalizedChars c b norm).map ρ).count d = (normalizedChars c b norm).countP fun e => ρ e = d := by
    rw [List.count, List.countP_map]
    exact List.countP_congr fun e _ => by simp
  rw [lookup_letterFrequency, hchars, hcount, ← Seq.sum_count_filter, letterFrequency_eq_tally, Seq.tally_eq,
    List.filter_map, List.map_map]
  rfl

end Forms

/-! ## Columns of the morphology -/

/-- The values of a column that are not blank, each once. -/
def columnValues (column : MorphologyWord → Option Str) (m : Morphology) : List Str :=
  (m.words.filterMap column).eraseDups.filter fun x => strip x ≠ []

/-- The counts of the values of a column add up to the number of words with a value that is not blank. -/
theorem sum_countByColumn (column : MorphologyWord → Option Str) (m : Morphology) :
    ((columnValues column m).map (countByColumn column m)).sum =
      m.words.countP fun w => (column w).any fun x => strip x ≠ [] := by
  have hcount : ∀ x ∈ columnValues column m, countByColumn column m x = (m.words.filterMap column).count x := by
    intro x hx
    rw [columnValues, List.mem_filter, decide_eq_true_eq] at hx
    rw [countByColumn, if_neg hx.2, List.count, List.countP_filterMap]
    refine List.countP_congr fun w _ => ?_
    cases hw : column w with
    | none => simp
    | some y => simp
  rw [List.map_congr_left hcount, columnValues, Seq.sum_count_filter, List.countP_filterMap]
  refine List.countP_congr fun w _ => ?_
  cases hw : column w with
  | none => simp
  | some y => simp

/-- **The counts of all forms, roots and lemmas add up**: each word that is not blank, or has a root or a lemma that is
not, is counted once. -/
theorem counts_partition (c : Corpus) (b : Bool) (m : Morphology) :
    ((wordForms c b normalize).map fun f => countByForm c f b normalize).sum =
        ((c.words b).countP fun w => strip (normalize w.text) ≠ []) ∧
      ((columnValues (·.root) m).map (countByRoot m)).sum =
        (m.words.countP fun w => w.root.any fun x => strip x ≠ []) ∧
      ((columnValues (·.lem) m).map (countByLemma m)).sum =
        m.words.countP fun w => w.lem.any fun x => strip x ≠ [] :=
  ⟨sum_countByForm normalize_idem, sum_countByColumn _ m, sum_countByColumn _ m⟩

/-! ## Folding the final forms -/

/-- The letter that a final form is folded to. -/
def finalForm (c : Char) : Char := ((rulesOf finalFormsMap c).getD none).getD c

/-- No letter is deleted. -/
theorem rulesOf_finalFormsMap_ne (c : Char) : rulesOf finalFormsMap c ≠ some none := by
  have hnone : ∀ e ∈ finalFormsMap, e.2 ≠ none := by decide
  intro h
  obtain ⟨e, he, hen⟩ := Option.map_eq_some_iff.mp h
  exact hnone _ (Seq.Dict.mem_of_lookup he) (Option.map_eq_none_iff.mp hen)

theorem normalizeFinalForms_eq_map (x : Str) : normalizeFinalForms x = x.map finalForm := by
  rw [normalizeFinalForms, translate_eq_rewrite, Seq.rewrite, ← List.flatMap_singleton' (x.map finalForm),
    List.flatMap_map]
  refine List.flatMap_congr fun c _ => ?_
  rw [finalForm]
  cases hc : rulesOf finalFormsMap c with
  | none => exact Seq.rewriteOne_none hc
  | some o =>
    cases o with
    | none => exact absurd hc (rulesOf_finalFormsMap_ne c)
    | some d => exact Seq.rewriteOne_replace hc

/-- Folding keeps whitespace and makes none. -/
theorem isSpace_finalForm (c : Char) : isSpace (finalForm c) = isSpace c := by
  have hkeep := (noSpace_tables.mono (List.subset_append_left finalFormsMap normalizeTables.flatten)).keepsSeparators
  rw [finalForm]
  cases hc : rulesOf finalFormsMap c with
  | none => rfl
  | some o =>
    have hsep : isSpace c = false := by
      by_contra hs
      rw [hkeep.sep c (by simpa using hs)] at hc
      cases hc
    cases o with
    | none => rfl
    | some d => rw [hsep]; exact hkeep.target c d hc

/-- Folding makes no text blank. -/
theorem strip_normalizeFinalForms_eq_nil_iff (x : Str) : strip (normalizeFinalForms x) = [] ↔ strip x = [] := by
  rw [normalizeFinalForms_eq_map, strip, strip, Seq.trim_eq_nil_iff, Seq.trim_eq_nil_iff, List.forall_mem_map]
  simp only [isSpace_finalForm]

/-- **Folding the final forms adds up the counts of the forms and letters that it identifies**, and so counts no form
less often. -/
theorem counts_finalForms (c : Corpus) (b : Bool) (q : Str) :
    countByForm c q b (fun x => normalizeFinalForms (normalize x)) =
        (((wordForms c b normalize).filter fun f => normalizeFinalForms f = normalizeFinalForms (normalize q)).map
          fun f => countByForm c f b normalize).sum ∧
      countByForm c q b normalize ≤ countByForm c q b (fun x => normalizeFinalForms (normalize x)) ∧
      ∀ d, ((letterFrequency c b fun x => normalizeFinalForms (normalize x)).lookup d).getD 0 =
        (((letterFrequency c b normalize).filter fun e => finalForm e.1 = d).map (·.2)).sum := by
  refine ⟨countByForm_coarser normalize_idem strip_normalizeFinalForms_eq_nil_iff q,
    countByForm_le_coarser strip_normalizeFinalForms_eq_nil_iff q, fun d => ?_⟩
  simp only [normalizeFinalForms_eq_map]
  exact letterFrequency_map c b normalize finalForm d

end QuranAnalysis
