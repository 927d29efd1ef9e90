import QuranAnalysis.Morphology.Features

/-!
# The records of a morphology, run by run

What a record holds, said from the items of the features and without the scan: `IsRecordOf run w` takes form, root,
lemma and part of speech from the first segment of the run with an item `ROOT:`, `LEM:` or `POS:`.

- `isStem_iff`: these segments are the stems of the scan.
- `buildWords_records`: one record for each maximal run, in order; the counts are counts of runs.
-/

namespace QuranAnalysis

open Py

namespace Morphology

/-- An item among the features starts with one of the three prefixes. -/
def Segment.HasFeature (s : Segment) : Prop :=
  ∃ item ∈ s.features.splitOn '|',
    startswith item rootPrefix = true ∨ startswith item lemmaPrefix = true ∨ startswith item posPrefix = true

instance (s : Segment) : Decidable s.HasFeature := List.decidableBEx _ _

/-- The first segment of a run with such an item. -/
def firstFeatured (segs : List Segment) : Option Segment := segs.find? fun s => s.HasFeature

/-- `w` is the record of the run: the values of the first segment with features, or the first form and nothing. -/
structure IsRecordOf (run : Key × List Segment) (w : MorphologyWord) : Prop where
  key : wordKey w = run.1
  stem : ∀ s, firstFeatured run.2 = some s → w.form = s.form ∧ (w.root, w.lem, w.pos) = parseFeatures s.features
  no_stem : firstFeatured run.2 = none →
    some w.form = run.2.head?.map (·.form) ∧ w.root = none ∧ w.lem = none ∧ w.pos = none

/-! ## Stems -/

/-- There is a last value exactly when an item has the prefix. -/
theorem lastValue_ne_none_iff {pre : Str} {items : List Str} :
    lastValue pre items ≠ none ↔ ∃ item ∈ items, startswith item pre = true := by
  rw [lastValue, ne_eq, List.getLast?_eq_none_iff, List.filterMap_eq_nil_iff]
  simp only [not_forall, exists_prop]
  refine exists_congr fun item => and_congr_right fun _ => ?_
  unfold valueOf
  by_cases h : startswith item pre = true <;> simp [h]

/-- The stems of the scan are the segments with features. -/
theorem isStem_iff (s : Segment) : s.IsStem ↔ s.HasFeature := by
  unfold Segment.IsStem Segment.HasFeature Segment.root Segment.lem Segment.pos
  rw [parseFeatures_eq]
  simp only [lastValue_ne_none_iff]
  constructor
  · rintro (⟨item, hm, h⟩ | ⟨item, hm, h⟩ | ⟨item, hm, h⟩)
    · exact ⟨item, hm, Or.inl h⟩
    · exact ⟨item, hm, Or.inr (Or.inl h)⟩
    · exact ⟨item, hm, Or.inr (Or.inr h)⟩
  · rintro ⟨item, hm, h | h | h⟩
    · exact Or.inl ⟨item, hm, h⟩
    · exact Or.inr (Or.inl ⟨item, hm, h⟩)
    · exact Or.inr (Or.inr ⟨item, hm, h⟩)

theorem stemOf_eq_firstFeatured (segs : List Segment) : stemOf segs = firstFeatured segs := by
  unfold stemOf firstFeatured
  simp only [isStem_iff]

/-! ## Records -/

/-- The aggregate of a run is its record. -/
theorem isRecordOf_aggregate {q : Key × List Segment} (hq : q.2 ≠ []) : IsRecordOf q (aggregate q.1 q.2) := by
  constructor
  case key => exact wordKey_aggregate q.1 q.2
  case stem =>
    intro s hs
    rw [← stemOf_eq_firstFeatured] at hs
    simp [aggregate, wordOf, hs, Segment.root, Segment.lem, Segment.pos]
  case no_stem =>
    intro hs
    rw [← stemOf_eq_firstFeatured] at hs
    obtain ⟨s, segs, he⟩ := List.exists_cons_of_ne_nil hq
    simp only [he] at hs ⊢
    simp [aggregate, wordOf, hs]

/-- A column is counted run by run. -/
theorem countByColumn_eq_countP {segs : List Segment} {rs : List (Key × List Segment)}
    (h : Seq.IsRuns Segment.key segs rs) {x : Str} (hx : strip x ≠ []) {column : MorphologyWord → Option Str}
    {column' : Segment → Option Str} (hc : ∀ k segs, column (aggregate k segs) = (stemOf segs).bind column') :
    countByColumn column ⟨buildWords segs⟩ x = rs.countP fun q => (firstFeatured q.2).bind column' = some x := by
  rw [countByColumn, if_neg hx, buildWords_of_isRuns h, List.countP_map]
  refine List.countP_congr fun q _ => ?_
  simp only [Function.comp, hc, stemOf_eq_firstFeatured]

/-- **The segments are aggregated run by run**: one record for each maximal run, in order, made from this run alone. The
counts of roots and lemmas are counts of runs. -/
theorem buildWords_records (segs : List Segment) :
    Seq.IsRuns Segment.key segs (Seq.runs Segment.key segs) ∧
      List.Forall₂ IsRecordOf (Seq.runs Segment.key segs) (buildWords segs) ∧
      (∀ x, strip x ≠ [] → countByRoot ⟨buildWords segs⟩ x =
        (Seq.runs Segment.key segs).countP fun q => (firstFeatured q.2).bind Segment.root = some x) ∧
      ∀ x, strip x ≠ [] → countByLemma ⟨buildWords segs⟩ x =
        (Seq.runs Segment.key segs).countP fun q => (firstFeatured q.2).bind Segment.lem = some x := by
  have h := Seq.runs_isRuns Segment.key segs
  refine ⟨h, ?_, fun x hx => countByColumn_eq_countP h hx fun _ _ => rfl,
    fun x hx => countByColumn_eq_countP h hx fun _ _ => rfl⟩
  rw [buildWords_of_isRuns h, List.forall₂_map_right_iff, List.forall₂_same]
  exact fun q hq => isRecordOf_aggregate (h.ne_nil q hq)

end Morphology

end QuranAnalysis
