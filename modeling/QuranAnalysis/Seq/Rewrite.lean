import Mathlib.Algebra.Order.Ring.Nat
import Mathlib.Logic.Relation
import QuranAnalysis.Seq.Fields

/-!
# Rewriting single elements of a list

Rules `f : α → Option (Option α)` keep an element (`none`), delete it (`some none`) or put another one in its
place (`some (some b)`). `rewrite f` applies them once to every element.

- Two rewritings in a row are one when the second keeps what the first puts in (`rewrite_rewrite`).
- Rules that keep what they put in are settled: rewriting is idempotent (`rewrite_idem`) and leaves no element with a
  rule (`eq_none_of_mem_rewrite`).
- Rules that keep the separators and put in none can be applied field by field (`fields_rewrite`).
- `rewrite_eq_iff`: two lists have the same rewriting exactly when single edits, forward or backward, lead from one to
  the other.
-/

namespace Seq

open List Relation

variable {α : Type*} {f g : α → Option (Option α)}

/-- What the rules make of one element. -/
def rewriteOne (f : α → Option (Option α)) (a : α) : List α :=
  match f a with
  | none => [a]
  | some none => []
  | some (some b) => [b]

/-- What the rules make of a list. -/
def rewrite (f : α → Option (Option α)) (l : List α) : List α := l.flatMap (rewriteOne f)

theorem rewriteOne_none {a : α} (h : f a = none) : rewriteOne f a = [a] := by
  unfold rewriteOne
  rw [h]

theorem rewriteOne_delete {a : α} (h : f a = some none) : rewriteOne f a = [] := by
  unfold rewriteOne
  rw [h]

theorem rewriteOne_replace {a b : α} (h : f a = some (some b)) : rewriteOne f a = [b] := by
  unfold rewriteOne
  rw [h]

@[simp] theorem rewrite_nil : rewrite f [] = [] := rfl

@[simp] theorem rewrite_cons (a : α) (l : List α) : rewrite f (a :: l) = rewriteOne f a ++ rewrite f l := by
  simp [rewrite]

@[simp] theorem rewrite_append (l m : List α) : rewrite f (l ++ m) = rewrite f l ++ rewrite f m := by
  simp [rewrite]

/-- The rewriting of one element. -/
theorem rewrite_singleton (a : α) : rewrite f [a] = rewriteOne f a := by simp

/-- The elements of a rewriting: kept, or put in. -/
theorem mem_rewrite {l : List α} {b : α} :
    b ∈ rewrite f l ↔ (b ∈ l ∧ f b = none) ∨ ∃ a ∈ l, f a = some (some b) := by
  induction l with
  | nil => simp
  | cons a l ih =>
    rw [rewrite_cons, mem_append, ih]
    rcases ha : f a with _ | _ | c
    · rw [rewriteOne_none ha]
      by_cases hb : b = a
      · subst hb; simp [ha]
      · simp [hb, ha]
    · rw [rewriteOne_delete ha]
      by_cases hb : b = a
      · subst hb; simp [ha]
      · simp [hb, ha]
    · rw [rewriteOne_replace ha]
      by_cases hb : b = a
      · subst hb; simp [ha, eq_comm]
      · simp [hb, ha, eq_comm, or_left_comm]

/-- Rules that delete weightless elements and replace others by equally weighted ones keep the weight of a list. -/
theorem sum_map_rewrite {g : α → Nat} (h0 : ∀ a, f a = some none → g a = 0)
    (h1 : ∀ a b, f a = some (some b) → g b = g a) (l : List α) : ((rewrite f l).map g).sum = (l.map g).sum := by
  induction l with
  | nil => rfl
  | cons a l ih =>
    rw [rewrite_cons, map_append, sum_append_nat, ih, map_cons, sum_cons]
    congr 1
    rcases ha : f a with _ | _ | b
    · simp [rewriteOne_none ha]
    · simp [rewriteOne_delete ha, h0 a ha]
    · simp [rewriteOne_replace ha, h1 a b ha]

/-! ## Rewritings in a row -/

/-- `g` keeps what `f` puts in. -/
def Keeps (g f : α → Option (Option α)) : Prop := ∀ a b, f a = some (some b) → g b = none

/-- Two rewritings in a row are one, by the first rule that applies. -/
theorem rewrite_rewrite (h : Keeps g f) (l : List α) :
    rewrite g (rewrite f l) = rewrite (fun a => (f a).or (g a)) l := by
  induction l with
  | nil => rfl
  | cons a l ih =>
    rw [rewrite_cons, rewrite_append, ih, rewrite_cons]
    congr 1
    rcases ha : f a with _ | _ | b
    · rw [rewriteOne_none ha, rewrite_singleton]
      simp [rewriteOne, ha]
    · rw [rewriteOne_delete ha, rewriteOne_delete (by simp [ha]), rewrite_nil]
    · have hor : (f a).or (g a) = some (some b) := by simp [ha]
      rw [rewriteOne_replace ha, rewrite_singleton, rewriteOne_none (h a b ha), rewriteOne_replace hor]

/-- With settled rules a second rewriting changes nothing. -/
theorem rewrite_idem (h : Keeps f f) (l : List α) : rewrite f (rewrite f l) = rewrite f l := by
  rw [rewrite_rewrite h]
  simp only [Option.or_self]

/-- Settled rules leave no element with a rule. -/
theorem eq_none_of_mem_rewrite (h : Keeps f f) {l : List α} {b : α} (hb : b ∈ rewrite f l) : f b = none := by
  rcases mem_rewrite.mp hb with ⟨-, hb⟩ | ⟨a, -, ha⟩
  · exact hb
  · exact h a b ha

/-! ## Fields -/

/-- The rules keep the separators and put in none. -/
structure KeepsSeparators (p : α → Bool) (f : α → Option (Option α)) : Prop where
  sep : ∀ a, p a = true → f a = none
  target : ∀ a b, f a = some (some b) → p b = false

section Fields

variable {p : α → Bool} (hp : KeepsSeparators p f)

include hp

/-- No separators come up. -/
theorem KeepsSeparators.no_sep {l : List α} (hl : ∀ a ∈ l, p a = false) : ∀ b ∈ rewrite f l, p b = false := by
  intro b hb
  rcases mem_rewrite.mp hb with ⟨hb, -⟩ | ⟨a, -, ha⟩
  · exact hl b hb
  · exact hp.target a b ha

/-- A separator stays where it is. -/
theorem KeepsSeparators.rewrite_append_cons (l m : List α) {s : α} (hs : p s = true) :
    rewrite f (l ++ s :: m) = rewrite f l ++ s :: rewrite f m := by
  rw [rewrite_append, rewrite_cons, rewriteOne_none (hp.sep s hs), singleton_append]

/-- **Rewriting goes field by field**; a field that is deleted altogether is left out. -/
theorem fields_rewrite (l : List α) :
    fields p (rewrite f l) = ((fields p l).map (rewrite f)).filter fun b => !b.isEmpty := by
  have block {b : List α} (hb : ∀ a ∈ b, p a = false) :
      fields p (rewrite f b) = ((fields p b).map (rewrite f)).filter fun b => !b.isEmpty := by
    rw [fields_of_no_sep (hp.no_sep hb), fields_of_no_sep hb]
    by_cases h : b = []
    · simp [h]
    · by_cases h' : rewrite f b = [] <;> simp [h, h']
  induction l using fieldsInduction (p := p) with
  | last b hb => exact block hb
  | step b s m hb hs ih =>
    rw [hp.rewrite_append_cons b m hs, fields_append_cons _ _ hs, fields_append_cons b m hs, map_append,
      filter_append, block hb, ih]

/-- Rewriting goes piece by piece through a join at a separator. -/
theorem rewrite_intercalate {s : α} (hs : p s = true) :
    ∀ bs : List (List α), rewrite f ([s].intercalate bs) = [s].intercalate (bs.map (rewrite f))
  | [] => rfl
  | [b] => by simp
  | b :: c :: bs => by
    have ih := rewrite_intercalate hs (c :: bs)
    rw [map_cons] at ih
    rw [intercalate_cons_cons, map_cons, map_cons, intercalate_cons_cons, append_assoc, append_assoc,
      singleton_append, singleton_append, hp.rewrite_append_cons b _ hs, ih]

end Fields

/-! ## Single edits -/

/-- One application of a rule at one place. -/
inductive Edit (f : α → Option (Option α)) : List α → List α → Prop
  | delete (l m : List α) {a : α} (h : f a = some none) : Edit f (l ++ a :: m) (l ++ m)
  | replace (l m : List α) {a b : α} (h : f a = some (some b)) : Edit f (l ++ a :: m) (l ++ b :: m)

theorem Edit.cons {l m : List α} (a : α) (h : Edit f l m) : Edit f (a :: l) (a :: m) := by
  cases h with
  | delete l m h => exact .delete (a :: l) m h
  | replace l m h => exact .replace (a :: l) m h

/-- Edits lead to the rewriting. -/
theorem edits_rewrite (f : α → Option (Option α)) (l : List α) : ReflTransGen (Edit f) l (rewrite f l) := by
  induction l with
  | nil => exact .refl
  | cons a l ih =>
    have hl : ReflTransGen (Edit f) (a :: l) (a :: rewrite f l) := ih.lift (a :: ·) fun _ _ h => h.cons a
    rw [rewrite_cons]
    rcases ha : f a with _ | _ | b
    · rw [rewriteOne_none ha]
      exact hl
    · rw [rewriteOne_delete ha]
      exact hl.tail (.delete [] _ ha)
    · rw [rewriteOne_replace ha]
      exact hl.tail (.replace [] _ ha)

/-- With settled rules one edit does not change the rewriting. -/
theorem Edit.rewrite_eq (hf : Keeps f f) {l m : List α} (h : Edit f l m) : rewrite f l = rewrite f m := by
  cases h with
  | delete l m h => simp [rewriteOne_delete h]
  | replace l m h => simp [rewriteOne_replace h, rewriteOne_none (hf _ _ h)]

/-- **Two lists have the same rewriting exactly when edits, forward or backward, connect them.** -/
theorem rewrite_eq_iff (hf : Keeps f f) {l m : List α} : rewrite f l = rewrite f m ↔ EqvGen (Edit f) l m := by
  constructor
  · intro h
    have toRewrite (k : List α) : EqvGen (Edit f) k (rewrite f k) :=
      EqvGen.reflTransGen_le_eqvGen _ _ _ (edits_rewrite f k)
    have hm : EqvGen (Edit f) (rewrite f l) m := by
      rw [h]
      exact (toRewrite m).symm
    exact (toRewrite l).trans _ _ _ hm
  · intro h
    induction h with
    | rel l m h => exact h.rewrite_eq hf
    | refl l => rfl
    | symm l m _ ih => exact ih.symm
    | trans l m k _ _ ih₁ ih₂ => exact ih₁.trans ih₂

end Seq
