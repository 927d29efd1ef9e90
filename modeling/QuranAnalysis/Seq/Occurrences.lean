import Mathlib.Algebra.Order.Ring.Nat
import Mathlib.Data.List.Infix

/-!
# Counting occurrences from left to right

`occurrences needle l` scans `l` once and counts non-overlapping occurrences of `needle`, each as early as possible
(`occurrences_append_self`).

- The scan is local to the pieces between separators: an occurrence never reaches over an element that is not in the
  needle (`occurrences_append_cons`, `occurrences_intercalate`).
- A needle with an element that is not in the list does not occur (`occurrences_eq_zero`); a nonempty list occurs in
  itself (`occurrences_self_pos`); a needle of one element occurs as often as the element (`occurrences_singleton`).
-/

namespace Seq

open List

variable {α : Type*} [DecidableEq α]

/-- The scan, with `skip` elements of the last occurrence still to be passed. -/
def occurrencesFrom (needle : List α) : Nat → List α → Nat
  | _, [] => 0
  | skip + 1, _ :: l => occurrencesFrom needle skip l
  | 0, a :: l =>
    if needle.isPrefixOf (a :: l) then occurrencesFrom needle (needle.length - 1) l + 1
    else occurrencesFrom needle 0 l

/-- The number of non-overlapping occurrences of a nonempty needle, from left to right. -/
def occurrences (needle l : List α) : Nat := occurrencesFrom needle 0 l

@[simp] theorem occurrences_nil (needle : List α) : occurrences needle [] = 0 := rfl

/-- Skipped elements are not looked at. -/
theorem occurrencesFrom_eq_drop (needle : List α) :
    ∀ (skip : Nat) (l : List α), occurrencesFrom needle skip l = occurrences needle (l.drop skip)
  | 0, l => rfl
  | skip + 1, [] => by rw [drop_nil]; rfl
  | skip + 1, a :: l => by
    rw [occurrencesFrom, drop_succ_cons]
    exact occurrencesFrom_eq_drop needle skip l

/-- An occurrence in front is counted, and the scan goes on behind it. -/
theorem occurrences_append_self {needle : List α} (hne : needle ≠ []) (l : List α) :
    occurrences needle (needle ++ l) = occurrences needle l + 1 := by
  obtain ⟨a, rest, rfl⟩ := exists_cons_of_ne_nil hne
  have hp : (a :: rest).isPrefixOf (a :: (rest ++ l)) := by simp
  unfold occurrences
  rw [cons_append, occurrencesFrom, if_pos hp, occurrencesFrom_eq_drop]
  simp [occurrences]

omit [DecidableEq α] in
/-- A prefix that does not contain `sep` ends in front of it. -/
theorem prefix_append_cons_iff {needle : List α} {sep : α} (h : sep ∉ needle) (l m : List α) :
    needle <+: l ++ sep :: m ↔ needle <+: l := by
  refine ⟨fun hp => ?_, fun hp => hp.trans (prefix_append _ _)⟩
  have hs : l ++ [sep] <+: l ++ sep :: m := ⟨m, by simp⟩
  rcases prefix_or_prefix_of_prefix hp hs with hp | hp
  · rcases prefix_concat_iff.mp hp with rfl | hp
    · exact absurd (by simp) h
    · exact hp
  · exact absurd (hp.subset (by simp)) h

/-- The scan passes a separator with nothing left to skip. -/
theorem occurrencesFrom_append_cons {needle : List α} {sep : α} (hne : needle ≠ []) (h : sep ∉ needle) (m : List α) :
    ∀ (l : List α) (skip : Nat), skip ≤ l.length →
      occurrencesFrom needle skip (l ++ sep :: m) = occurrencesFrom needle skip l + occurrences needle m
  | [], skip, hk => by
    obtain rfl : skip = 0 := by simpa using hk
    have hp : ¬ needle <+: sep :: m := fun hp => hne (prefix_nil.mp ((prefix_append_cons_iff h [] m).mp hp))
    simp [occurrencesFrom, occurrences, hp]
  | a :: l, skip + 1, hk => by
    rw [cons_append, occurrencesFrom, occurrencesFrom]
    exact occurrencesFrom_append_cons hne h m l skip (by simpa using hk)
  | a :: l, 0, _ => by
    have hiff : needle <+: a :: (l ++ sep :: m) ↔ needle <+: a :: l := prefix_append_cons_iff h (a :: l) m
    rw [cons_append, occurrencesFrom, occurrencesFrom]
    simp only [ isPrefixOf_iff_prefix, hiff]
    split
    · next hp =>
      -- the occurrence lies in front of the separator
      have hlen : needle.length - 1 ≤ l.length := by
        have := hp.length_le
        rw [length_cons] at this
        omega
      rw [occurrencesFrom_append_cons hne h m l _ hlen]
      omega
    · exact occurrencesFrom_append_cons hne h m l 0 (Nat.zero_le _)

/-- No occurrence reaches over an element that is not in the needle. -/
theorem occurrences_append_cons {needle : List α} {sep : α} (hne : needle ≠ []) (h : sep ∉ needle) (l m : List α) :
    occurrences needle (l ++ sep :: m) = occurrences needle l + occurrences needle m :=
  occurrencesFrom_append_cons hne h m l 0 (Nat.zero_le _)

/-- **The occurrences in a join are those in its pieces.** -/
theorem occurrences_intercalate {needle : List α} {sep : α} (hne : needle ≠ []) (h : sep ∉ needle) :
    ∀ ls : List (List α), occurrences needle ([sep].intercalate ls) = (ls.map (occurrences needle)).sum
  | [] => rfl
  | [l] => by simp
  | l :: m :: ls => by
    rw [intercalate_cons_of_ne_nil (by simp), append_assoc, singleton_append, occurrences_append_cons hne h,
      occurrences_intercalate hne h (m :: ls)]
    simp

/-- A needle with an element that is not in the list does not occur. -/
theorem occurrencesFrom_eq_zero {needle : List α} {x : α} (hx : x ∈ needle) :
    ∀ (l : List α) (skip : Nat), x ∉ l → occurrencesFrom needle skip l = 0
  | [], _, _ => by unfold occurrencesFrom; rfl
  | a :: l, skip + 1, h => by
    rw [occurrencesFrom]
    exact occurrencesFrom_eq_zero hx l skip fun hl => h (mem_cons_of_mem _ hl)
  | a :: l, 0, h => by
    have hp : ¬ needle <+: a :: l := fun hp => h (hp.subset hx)
    rw [occurrencesFrom, if_neg (by simpa using hp)]
    exact occurrencesFrom_eq_zero hx l 0 fun hl => h (mem_cons_of_mem _ hl)

theorem occurrences_eq_zero {needle l : List α} {x : α} (hx : x ∈ needle) (hl : x ∉ l) : occurrences needle l = 0 :=
  occurrencesFrom_eq_zero hx l 0 hl

/-- A nonempty list occurs in itself. -/
theorem occurrences_self_pos {l : List α} (h : l ≠ []) : 0 < occurrences l l := by
  have := occurrences_append_self h []
  rw [append_nil] at this
  omega

/-- A needle of one element occurs as often as the element. -/
theorem occurrences_singleton (a : α) (l : List α) : occurrences [a] l = l.count a := by
  induction l with
  | nil => rfl
  | cons b l ih =>
    rw [occurrences] at ih
    rw [occurrences, occurrencesFrom]
    by_cases h : b = a
    · subst h
      simpa using ih
    · have h' : a ≠ b := fun e => h e.symm
      simpa [h, h'] using ih

end Seq
