import Mathlib.Algebra.Order.BigOperators.Group.Finset
import Mathlib.Order.Interval.Finset.Basic
import Mathlib.Data.Int.ConditionallyCompleteOrder
import Mathlib.Data.Int.Interval
import Mathlib.Order.ConditionallyCompleteLattice.Basic

/-!
# Counting pairs by their fibres

For a finite set `s` of pairs `(i, a)` with integers `a`, `fiber s i` is the set of the numbers that stand with `i`.

- `card_eq_sum_fiber`: the pairs are counted fibre by fibre.
- `forall_fiber_eq_Icc_iff`: fibres inside `1..m i` are all of `1..m i` exactly when the `m i` add up to the number of
  pairs.
-/

namespace Seq

variable {ι : Type*} [DecidableEq ι]

/-- The set of a list of images. -/
theorem toFinset_map {α β : Type*} [DecidableEq α] [DecidableEq β] (f : α → β) (l : List α) :
    (l.map f).toFinset = l.toFinset.image f := by
  ext b
  simp

/-- The largest element of a list is bounded by the bounds of its elements. -/
theorem foldr_max_le_iff {l : List ℕ} {k : ℕ} : l.foldr max 0 ≤ k ↔ ∀ n ∈ l, n ≤ k := by
  induction l with
  | nil => simp
  | cons n l ih => simp [ih]

/-- The numbers that stand with `i`. -/
def fiber (s : Finset (ι × ℤ)) (i : ι) : Finset ℤ := (s.filter fun p => p.1 = i).image Prod.snd

@[simp] theorem mem_fiber {s : Finset (ι × ℤ)} {i : ι} {a : ℤ} : a ∈ fiber s i ↔ (i, a) ∈ s := by
  simp only [fiber, Finset.mem_image, Finset.mem_filter]
  constructor
  · rintro ⟨⟨j, b⟩, ⟨hp, rfl⟩, rfl⟩
    exact hp
  · exact fun h => ⟨(i, a), ⟨h, rfl⟩, rfl⟩

/-- The pairs are counted fibre by fibre. -/
theorem card_eq_sum_fiber {s : Finset (ι × ℤ)} {t : Finset ι} (h : ∀ p ∈ s, p.1 ∈ t) :
    s.card = ∑ i ∈ t, (fiber s i).card := by
  rw [Finset.card_eq_sum_card_fiberwise (f := Prod.fst) (t := t) h]
  refine Finset.sum_congr rfl fun i _ => ?_
  rw [fiber, Finset.card_image_of_injOn]
  rintro ⟨j, a⟩ hp ⟨j', a'⟩ hq he
  have hj : j = i := (Finset.mem_filter.mp hp).2
  have hj' : j' = i := (Finset.mem_filter.mp hq).2
  exact Prod.ext (hj.trans hj'.symm) he

/-- **Fibres inside `1..m i` are full exactly when the bounds add up to the number of pairs.** -/
theorem forall_fiber_eq_Icc_iff {s : Finset (ι × ℤ)} {t : Finset ι} {m : ι → ℕ} (h : ∀ p ∈ s, p.1 ∈ t)
    (hm : ∀ i ∈ t, fiber s i ⊆ Finset.Icc 1 (m i : ℤ)) :
    (∀ i ∈ t, fiber s i = Finset.Icc 1 (m i : ℤ)) ↔ ∑ i ∈ t, m i = s.card := by
  have hcard : ∀ i, (Finset.Icc 1 (m i : ℤ)).card = m i := fun i => by simp
  have hle : ∀ i ∈ t, (fiber s i).card ≤ m i := fun i hi => by
    have := Finset.card_le_card (hm i hi)
    rwa [hcard] at this
  rw [card_eq_sum_fiber h, eq_comm, Finset.sum_eq_sum_iff_of_le hle]
  refine forall₂_congr fun i hi => ⟨fun he => by rw [he, hcard], fun he => ?_⟩
  exact Finset.eq_of_subset_of_card_le (hm i hi) (by rw [hcard, he])

end Seq
