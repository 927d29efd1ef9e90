import Mathlib.Data.List.Sort

/-!
# Numbered lists and sorted lists

`l.mapIdx f` stores each element with its position. Maps over it (`map_mapIdx`), element-wise relations between it and
another numbered list (`forall₂_mapIdx`), relations between its elements (`pairwise_mapIdx`), and lookups by the stored
number (`find?_mapIdx_eq_some`, `find?_mapIdx_eq_none`). In an ordered list what is found first is least
(`eq_or_rel_of_find?`), and a strictly ordered arrangement of a list is its sorting (`insertionSort_eq_of_perm`).
-/

namespace Seq

variable {α β γ : Type*}

theorem map_mapIdx (f : Nat → α → β) (g : β → γ) (l : List α) : (l.mapIdx f).map g = l.mapIdx fun i a => g (f i a) := by
  apply List.ext_getElem?
  intro i
  simp only [List.getElem?_map, List.getElem?_mapIdx, Option.map_map]
  rfl

theorem mapIdx_map (g : α → β) (f : Nat → β → γ) (l : List α) : (l.map g).mapIdx f = l.mapIdx fun i a => f i (g a) := by
  apply List.ext_getElem?
  intro i
  simp only [List.getElem?_map, List.getElem?_mapIdx, Option.map_map]
  rfl

/-- Related lists are numbered to related lists. -/
theorem forall₂_mapIdx {δ : Type*} {R : α → β → Prop} {S : γ → δ → Prop} {l : List α} {m : List β}
    (h : List.Forall₂ R l m) : ∀ {f : Nat → α → γ} {g : Nat → β → δ},
      (∀ i a b, l[i]? = some a → m[i]? = some b → R a b → S (f i a) (g i b)) →
        List.Forall₂ S (l.mapIdx f) (m.mapIdx g) := by
  induction h with
  | nil => exact fun _ => .nil
  | cons hab _ ih =>
    intro f g hfg
    rw [List.mapIdx_cons, List.mapIdx_cons]
    exact .cons (hfg 0 _ _ rfl rfl hab) (ih fun i a b ha hb => hfg (i + 1) a b (by simpa using ha) (by simpa using hb))

/-- A numbered list is ordered when earlier positions come before later ones. -/
theorem pairwise_mapIdx {R : β → β → Prop} {f : Nat → α → β} {l : List α}
    (h : ∀ i j a b, i < j → l[i]? = some a → l[j]? = some b → R (f i a) (f j b)) : (l.mapIdx f).Pairwise R := by
  rw [List.pairwise_iff_getElem]
  intro i j hi hj hij
  rw [List.length_mapIdx] at hi hj
  simp only [List.getElem_mapIdx]
  exact h i j _ _ hij (List.getElem?_eq_getElem hi) (List.getElem?_eq_getElem hj)

/-- Membership in a numbered list, by position. -/
theorem mem_mapIdx_iff {f : Nat → α → β} {l : List α} {b : β} :
    b ∈ l.mapIdx f ↔ ∃ i a, l[i]? = some a ∧ f i a = b := by
  rw [List.mem_mapIdx]
  constructor
  · rintro ⟨i, hi, rfl⟩
    exact ⟨i, l[i], List.getElem?_eq_getElem hi, rfl⟩
  · rintro ⟨i, a, ha, rfl⟩
    obtain ⟨hi, rfl⟩ := List.getElem?_eq_some_iff.mp ha
    exact ⟨i, hi, rfl⟩

section Lookup

variable {f : Nat → α → β} (num : β → Int) {l : List α}

/-- Looking up a number from 1 on finds the element at its position. -/
theorem find?_mapIdx_eq_some (hnum : ∀ i a, num (f i a) = (i : Int) + 1) {i : Nat} {a : α} (ha : l[i]? = some a) :
    (l.mapIdx f).find? (fun b => num b = (i : Int) + 1) = some (f i a) := by
  obtain ⟨hi, rfl⟩ := List.getElem?_eq_some_iff.mp ha
  rw [List.find?_eq_some_iff_getElem]
  refine ⟨by simp [hnum], i, by simpa using hi, by simp, fun j hj => ?_⟩
  have : (j : Int) ≠ i := by omega
  simp [hnum, this]

/-- Looking up any other number finds nothing. -/
theorem find?_mapIdx_eq_none (hnum : ∀ i a, num (f i a) = (i : Int) + 1) {n : Int}
    (hn : ¬ (1 ≤ n ∧ n ≤ l.length)) : (l.mapIdx f).find? (fun b => num b = n) = none := by
  rw [List.find?_eq_none]
  intro b hb
  obtain ⟨i, a, ha, rfl⟩ := mem_mapIdx_iff.mp hb
  obtain ⟨hi, -⟩ := List.getElem?_eq_some_iff.mp ha
  simp only [hnum, decide_eq_true_eq]
  omega

end Lookup

/-- In an ordered list, the first element with a property comes before the others that have it. -/
theorem eq_or_rel_of_find? {R : α → α → Prop} {p : α → Bool} {l : List α} (h : l.Pairwise R) {a b : α}
    (ha : l.find? p = some a) (hb : b ∈ l) (hp : p b = true) : b = a ∨ R a b := by
  obtain ⟨-, as, bs, rfl, has⟩ := List.find?_eq_some_iff_append.mp ha
  rcases List.mem_append.mp hb with hb | hb
  · have := has b hb
    rw [hp] at this
    cases this
  · exact (List.mem_cons.mp hb).imp_right fun hb => List.rel_of_pairwise_cons (List.pairwise_append.mp h).2.1 hb

/-- A strictly ordered arrangement of a list is what sorting gives. -/
theorem insertionSort_eq_of_perm {r : α → α → Prop} [DecidableRel r] [Std.Total r] [IsTrans α r] {l m : List α}
    (hp : m.Perm l) (hm : m.Pairwise fun a b => r a b ∧ ¬ r b a) : l.insertionSort r = m := by
  have hle : m.Pairwise r := hm.imp And.left
  refine List.Perm.eq_of_pairwise ?_ (List.pairwise_insertionSort r l) hle
    ((List.perm_insertionSort r l).trans hp.symm)
  intro a b ha hb hab hba
  obtain ⟨i, hi, rfl⟩ := List.mem_iff_getElem.mp (hp.mem_iff.mpr ((List.mem_insertionSort r).mp ha))
  obtain ⟨j, hj, rfl⟩ := List.mem_iff_getElem.mp hb
  rw [List.pairwise_iff_getElem] at hm
  rcases Nat.lt_trichotomy i j with h | rfl | h
  · exact absurd hba (hm i j hi hj h).2
  · rfl
  · exact absurd hab (hm j i hj hi h).2

end Seq
