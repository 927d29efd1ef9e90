import Mathlib.Data.List.Nodup

/-!
# Ranges from one on

`oneTo n` is `list(range(1, n + 1))`: its elements by position (`getElem?_oneTo`), its members (`mem_oneTo`), and the
numbering of a list by position (`mapIdx_eq_oneTo`).
-/

namespace Py

/-- `list(range(1, n + 1))` -/
def oneTo (n : Nat) : List Int := (List.range n).map fun (i : Nat) => (i : Int) + 1

/-- `list(range(1, n + 1))` by position. -/
theorem getElem?_oneTo (n i : Nat) : (oneTo n)[i]? = if i < n then some ((i : Int) + 1) else none := by
  rw [oneTo, List.getElem?_map]
  split
  · next h => rw [List.getElem?_range h]; rfl
  · next h => rw [List.getElem?_eq_none (by simpa using h)]; rfl

@[simp] theorem length_oneTo (n : Nat) : (oneTo n).length = n := by simp [oneTo]

theorem oneTo_sublist {m n : Nat} (h : m ≤ n) : (oneTo m).Sublist (oneTo n) := (List.range_sublist.mpr h).map _

theorem mem_oneTo {n : Nat} {i : Int} : i ∈ oneTo n ↔ 1 ≤ i ∧ i ≤ n := by
  simp only [oneTo, List.mem_map, List.mem_range]
  constructor
  · rintro ⟨j, hj, rfl⟩; omega
  · rintro ⟨h1, h2⟩; exact ⟨i.toNat - 1, by omega, by omega⟩

/-- Numbered by position, whatever is stored. -/
theorem mapIdx_eq_oneTo {α : Type*} (l : List α) : l.mapIdx (fun i _ => (i : Int) + 1) = oneTo l.length := by
  apply List.ext_getElem?
  intro i
  rw [List.getElem?_mapIdx, getElem?_oneTo]
  split
  · next h => rw [List.getElem?_eq_getElem h]; rfl
  · next h => rw [List.getElem?_eq_none (by omega)]; rfl

theorem nodup_oneTo (n : Nat) : (oneTo n).Nodup := List.nodup_range.map fun i j h => by omega

end Py
