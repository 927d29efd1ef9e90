import Mathlib.Data.List.Induction
import QuranAnalysis.Morphology.Aggregate

/-!
# The features of a segment

`parseFeatures` keeps, for each of the three prefixes, the value of the last item that starts with it
(`parseFeatures_eq`).
-/

namespace QuranAnalysis

open Py

namespace Morphology

/-- The value of an item with this prefix. -/
def valueOf (pre item : Str) : Option Str := if startswith item pre then some (item.drop pre.length) else none

/-- The value of the last item with this prefix. -/
def lastValue (pre : Str) (items : List Str) : Option Str := (items.filterMap (valueOf pre)).getLast?

theorem startswith_iff {item pre : Str} : startswith item pre = true ↔ ∃ x, item = pre ++ x := by
  rw [startswith, List.isPrefixOf_iff_prefix]
  exact ⟨fun ⟨x, h⟩ => ⟨x, h.symm⟩, fun ⟨x, h⟩ => ⟨x, h.symm⟩⟩

theorem valueOf_eq_some_iff {pre item x : Str} : valueOf pre item = some x ↔ item = pre ++ x := by
  rw [valueOf]
  split
  · next h =>
    obtain ⟨y, rfl⟩ := startswith_iff.mp h
    simp
  · next h =>
    exact ⟨fun h' => (by cases h'), fun h' => absurd (startswith_iff.mpr ⟨x, h'⟩) h⟩

/-- Behind one more item, the last value is its value, if it has one. -/
theorem lastValue_concat (pre : Str) (items : List Str) (item : Str) :
    lastValue pre (items ++ [item]) = (valueOf pre item).or (lastValue pre items) := by
  rw [lastValue, List.filterMap_append]
  cases h : valueOf pre item with
  | none => simp [lastValue, h]
  | some x => simp [h]

/-- Two prefixes that start with different letters. -/
structure Apart (pre pre' : Str) : Prop where
  ne_nil : pre ≠ []
  ne_nil' : pre' ≠ []
  head : pre.head? ≠ pre'.head?

theorem Apart.symm {pre pre' : Str} (h : Apart pre pre') : Apart pre' pre := ⟨h.ne_nil', h.ne_nil, h.head.symm⟩

theorem apart_root_lemma : Apart rootPrefix lemmaPrefix := ⟨by decide, by decide, by decide⟩

theorem apart_root_pos : Apart rootPrefix posPrefix := ⟨by decide, by decide, by decide⟩

theorem apart_lemma_pos : Apart lemmaPrefix posPrefix := ⟨by decide, by decide, by decide⟩

/-- An item with one prefix has no value for another. -/
theorem Apart.valueOf_eq_none {pre pre' item : Str} (ha : Apart pre pre') (h : startswith item pre = true) :
    valueOf pre' item = none := by
  cases hv : valueOf pre' item with
  | none => rfl
  | some y =>
    obtain ⟨x, rfl⟩ := startswith_iff.mp h
    have he := congrArg List.head? (valueOf_eq_some_iff.mp hv)
    rw [List.head?_append_of_ne_nil _ ha.ne_nil, List.head?_append_of_ne_nil _ ha.ne_nil'] at he
    exact absurd he ha.head

/-- One feature updates the value of its prefix. -/
theorem featureStep_eq (st : Option Str × Option Str × Option Str) (item : Str) : featureStep st item =
    ((valueOf rootPrefix item).or st.1, (valueOf lemmaPrefix item).or st.2.1, (valueOf posPrefix item).or st.2.2) := by
  rw [featureStep]
  split
  · next h =>
    rw [apart_root_lemma.valueOf_eq_none h, apart_root_pos.valueOf_eq_none h, valueOf, if_pos h]
    rfl
  · next hr =>
    split
    · next h =>
      rw [apart_root_lemma.symm.valueOf_eq_none h, apart_lemma_pos.valueOf_eq_none h, valueOf, if_pos h]
      rfl
    · next hl =>
      rw [valueOf, if_neg hr, valueOf, if_neg hl, valueOf]
      split <;> rfl

/-- **Each of root, lemma and part of speech is the last value of its prefix.** -/
theorem parseFeatures_eq (features : Str) : parseFeatures features =
    (lastValue rootPrefix (features.splitOn '|'), lastValue lemmaPrefix (features.splitOn '|'),
      lastValue posPrefix (features.splitOn '|')) := by
  rw [parseFeatures]
  induction features.splitOn '|' using List.reverseRecOn with
  | nil => rfl
  | append_singleton items item ih =>
    rw [List.foldl_append, ih, List.foldl_cons, List.foldl_nil, featureStep_eq, lastValue_concat, lastValue_concat,
      lastValue_concat]

/-- A last value stands in an item. -/
theorem mem_of_lastValue {pre x : Str} {items : List Str} (h : lastValue pre items = some x) : pre ++ x ∈ items := by
  obtain ⟨item, hm, hv⟩ := List.mem_filterMap.mp (List.mem_of_getLast? h)
  rwa [← valueOf_eq_some_iff.mp hv]

end Morphology

end QuranAnalysis
