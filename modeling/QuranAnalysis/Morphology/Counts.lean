import QuranAnalysis.Morphology.Records

/-!
# Counting roots and lemmas

A count sees the stem of each word: its first segment with features.

- `countByColumn_eq_card`: where the segments of a word stand next to each other, the count is the number of words whose
  stem has the value.
- `stemLocations_subset`: these words carry the value; a word that carries it behind its stem is not counted.
- `counts_of_adjacent`: both together, for lemmas and roots.
-/

namespace QuranAnalysis

open Py

namespace Morphology

/-- The item `pre ++ x` stands among the features of the segment. -/
def Segment.Carries (s : Segment) (item : Str) : Prop := item ∈ s.features.splitOn '|'

instance (s : Segment) (item : Str) : Decidable (s.Carries item) := inferInstanceAs (Decidable (_ ∈ _))

/-- The locations with a segment that carries the item. -/
def carryingLocations (segs : List Segment) (item : Str) : Finset Key :=
  ((segs.filter fun s => s.Carries item).map Segment.key).toFinset

/-- The stem of a location: its first segment with features. -/
def stemAt (segs : List Segment) (k : Key) : Option Segment := stemOf (segs.filter fun s => s.key = k)

/-- The locations whose stem has the value `x` in a column. -/
def stemLocations (column : Segment → Option Str) (segs : List Segment) (x : Str) : Finset Key :=
  (segs.map Segment.key).toFinset.filter fun k => (stemAt segs k).bind column = some x

theorem mem_carryingLocations {segs : List Segment} {item : Str} {k : Key} :
    k ∈ carryingLocations segs item ↔ ∃ s ∈ segs, s.key = k ∧ s.Carries item := by
  simp [carryingLocations, and_assoc, and_comm]

/-- The stem of a location is one of its segments. -/
theorem mem_of_stemAt {segs : List Segment} {k : Key} {s : Segment} (h : stemAt segs k = some s) :
    s ∈ segs ∧ s.key = k := by
  obtain ⟨hm, hk⟩ := List.mem_filter.mp (List.mem_of_find?_eq_some h)
  exact ⟨hm, by simpa using hk⟩

/-- Each record has the values of the stem of its location. -/
theorem aggregate_filter {segs : List Segment} {rs : List (Key × List Segment)}
    (h : Seq.IsRuns Segment.key segs rs) (hn : (rs.map Prod.fst).Nodup) {q : Key × List Segment} (hq : q ∈ rs) :
    stemOf q.2 = stemAt segs q.1 := by
  rw [stemAt, h.filter_key_eq hn hq]

/-- **A column counts the locations whose stem has the value.** -/
theorem countByColumn_eq_card {segs : List Segment} (h : Seq.Adjacent (segs.map Segment.key)) {x : Str}
    (hx : strip x ≠ []) {column : MorphologyWord → Option Str} {column' : Segment → Option Str}
    (hc : ∀ k segs, column (aggregate k segs) = (stemOf segs).bind column') :
    countByColumn column ⟨buildWords segs⟩ x = (stemLocations column' segs x).card := by
  have hr := Seq.runs_isRuns Segment.key segs
  have hn := hr.nodup_iff_adjacent.mpr h
  rw [countByColumn_eq_countP hr hx hc, stemLocations,
    ← hr.countP_eq_card hn fun k => (stemAt segs k).bind column' = some x]
  refine List.countP_congr fun q hq => ?_
  rw [← stemOf_eq_firstFeatured, aggregate_filter hr hn hq]

/-- The stem's lemma and root stand among its features. -/
theorem stemLocations_subset {segs : List Segment} {x pre : Str} {column : Segment → Option Str}
    (hc : ∀ s, column s = lastValue pre (s.features.splitOn '|')) :
    stemLocations column segs x ⊆ carryingLocations segs (pre ++ x) := by
  intro k hk
  obtain ⟨s, hs, hx⟩ := Option.bind_eq_some_iff.mp (Finset.mem_filter.mp hk).2
  obtain ⟨hm, hkey⟩ := mem_of_stemAt hs
  exact mem_carryingLocations.mpr ⟨s, hm, hkey, mem_of_lastValue ((hc s).symm.trans hx)⟩

/-- A count of stems: at most the locations that carry the item, and all of them exactly when every one has it in its
stem. -/
structure CountsStems (column : Segment → Option Str) (pre : Str) (segs : List Segment) (x : Str) (count : Nat) :
    Prop where
  count_eq : count = (stemLocations column segs x).card
  count_le : count ≤ (carryingLocations segs (pre ++ x)).card
  count_eq_iff : count = (carryingLocations segs (pre ++ x)).card ↔
    ∀ k ∈ carryingLocations segs (pre ++ x), (stemAt segs k).bind column = some x

theorem countsStems_of_eq {segs : List Segment} {x pre : Str} {column : Segment → Option Str} {count : Nat}
    (hc : ∀ s, column s = lastValue pre (s.features.splitOn '|'))
    (h : count = (stemLocations column segs x).card) : CountsStems column pre segs x count := by
  have hsub : stemLocations column segs x ⊆ carryingLocations segs (pre ++ x) := stemLocations_subset hc
  refine ⟨h, h ▸ Finset.card_le_card hsub, ?_⟩
  rw [h]
  constructor
  · intro he k hk
    rw [← Finset.eq_of_subset_of_card_le hsub he.ge] at hk
    exact (Finset.mem_filter.mp hk).2
  · intro hall
    refine congrArg Finset.card (hsub.antisymm fun k hk => ?_)
    obtain ⟨s, hs, hkey, -⟩ := mem_carryingLocations.mp hk
    exact Finset.mem_filter.mpr ⟨List.mem_toFinset.mpr (List.mem_map.mpr ⟨s, hs, hkey⟩), hall k hk⟩

/-- **`count_by_lemma` and `count_by_root` count the words whose stem has the value.** -/
theorem counts_of_adjacent {segs : List Segment} (h : Seq.Adjacent (segs.map Segment.key)) {x : Str}
    (hx : strip x ≠ []) :
    CountsStems Segment.lem lemmaPrefix segs x (countByLemma ⟨buildWords segs⟩ x) ∧
      CountsStems Segment.root rootPrefix segs x (countByRoot ⟨buildWords segs⟩ x) :=
  ⟨countsStems_of_eq (fun s => by rw [Segment.lem, parseFeatures_eq]) (countByColumn_eq_card h hx fun _ _ => rfl),
    countsStems_of_eq (fun s => by rw [Segment.root, parseFeatures_eq]) (countByColumn_eq_card h hx fun _ _ => rfl)⟩

/-- The segments of the words 2:3:5 and 2:3:6. -/
def twoStems : List Segment :=
  [⟨⟨2, 3, 5, 1⟩, "\x7bl".toList, "PREFIX|Al+".toList⟩,
    ⟨⟨2, 3, 5, 2⟩, "S~alaw`pa".toList, "STEM|POS:N|LEM:Salaw`p|ROOT:Slw|F|ACC".toList⟩,
    ⟨⟨2, 3, 6, 1⟩, "wa".toList, "PREFIX|w:REM+".toList⟩,
    ⟨⟨2, 3, 6, 2⟩, "mi".toList, "STEM|POS:P|LEM:min".toList⟩,
    ⟨⟨2, 3, 6, 3⟩, "m~aA".toList, "STEM|POS:REL|LEM:maA".toList⟩]

/-- The counts of the root of the first word. -/
theorem counts_of_adjacent_twoStems :
    CountsStems Segment.lem lemmaPrefix twoStems "Slw".toList (countByLemma ⟨buildWords twoStems⟩ "Slw".toList) ∧
      CountsStems Segment.root rootPrefix twoStems "Slw".toList (countByRoot ⟨buildWords twoStems⟩ "Slw".toList) :=
  counts_of_adjacent (by decide) (by decide)

/-- The lemma of the second stem of a word is not counted. -/
theorem count_twoStems : Seq.Adjacent (twoStems.map Segment.key) ∧
    countByLemma ⟨buildWords twoStems⟩ "maA".toList = 0 ∧
      (carryingLocations twoStems (lemmaPrefix ++ "maA".toList)).card = 1 := by
  decide

end Morphology

end QuranAnalysis
