import Mathlib.Data.List.DropRight
import Mathlib.Data.List.Infix

/-!
# Splitting a list at separators and joining it again

For a separator test `p` on the elements of a list:

- `fields p l` is the list of maximal separator-free blocks of `l` (`isField_of_mem_fields`), together the list without
  its separators (`flatten_fields`); it distributes over a separator (`fields_append_cons`) and undoes a join of fields
  (`fields_intercalate`);
- `trim p l` drops separators at both ends; it undoes padding (`trim_pad`);
- `splitMax a n l` splits at the first `n` occurrences of `a` (`splitMax_append_cons`); `l.splitOn a` has two pieces
  exactly when `a` occurs once (`splitOn_eq_pair_iff`).
-/

namespace Seq

variable {α : Type*} {p : α → Bool}

/-! ## Fields -/

/-- The maximal nonempty blocks of `l` without separators, in order. -/
def fields (p : α → Bool) (l : List α) : List (List α) :=
  (l.splitOnP p).filter fun b => !b.isEmpty

/-- A field: a nonempty block without separators. -/
structure IsField (p : α → Bool) (b : List α) : Prop where
  ne_nil : b ≠ []
  no_sep : ∀ x ∈ b, p x = false

@[simp] theorem fields_nil : fields p [] = [] := rfl

/-- A separator ends a field. -/
theorem fields_append_cons (l m : List α) {s : α} (hs : p s = true) :
    fields p (l ++ s :: m) = fields p l ++ fields p m := by
  simp only [fields, List.splitOnP_append_cons l m hs, List.filter_append]

/-- Separators in front are skipped. -/
@[simp] theorem fields_cons_sep {s : α} (hs : p s = true) (l : List α) : fields p (s :: l) = fields p l :=
  fields_append_cons [] l hs

/-- A field is its own only field. -/
theorem IsField.fields_eq {b : List α} (hb : IsField p b) : fields p b = [b] := by
  have hne : b.isEmpty = false := by simpa using hb.ne_nil
  simp [fields, List.splitOnP_eq_singleton hb.no_sep, hne]

/-- A block with at least one element before a separator adds itself in front. -/
theorem IsField.fields_append_sep {b : List α} (hb : IsField p b) {s : α} (hs : p s = true) (l : List α) :
    fields p (b ++ s :: l) = b :: fields p l := by
  rw [fields_append_cons b l hs, hb.fields_eq, List.singleton_append]

/-- A list is separator-free, or splits at its first separator. -/
theorem sep_free_or_split (p : α → Bool) (l : List α) :
    (∀ x ∈ l, p x = false) ∨ ∃ b s m, l = b ++ s :: m ∧ (∀ x ∈ b, p x = false) ∧ p s = true := by
  induction l with
  | nil => exact Or.inl (by simp)
  | cons x l ih =>
    cases hx : p x with
    | true => exact Or.inr ⟨[], x, l, rfl, by simp, hx⟩
    | false =>
      rcases ih with h | ⟨b, s, m, rfl, hb, hs⟩
      · exact Or.inl (by simpa [hx] using h)
      · exact Or.inr ⟨x :: b, s, m, rfl, by simpa [hx] using hb, hs⟩

/-- Induction along the fields: a last block, or a block, a separator and the rest. -/
theorem fieldsInduction {motive : List α → Prop} (last : ∀ b, (∀ x ∈ b, p x = false) → motive b)
    (step : ∀ b s m, (∀ x ∈ b, p x = false) → p s = true → motive m → motive (b ++ s :: m)) (l : List α) :
    motive l := by
  induction hn : l.length using Nat.strong_induction_on generalizing l with
  | _ n ih =>
    rcases sep_free_or_split p l with h | ⟨b, s, m, rfl, hb, hs⟩
    · exact last l h
    · refine step b s m hb hs (ih m.length ?_ m rfl)
      simp only [List.length_append, List.length_cons] at hn
      omega

/-- The fields of a block without separators: itself, unless it is empty. -/
theorem fields_of_no_sep {b : List α} (hb : ∀ x ∈ b, p x = false) : fields p b = if b = [] then [] else [b] := by
  split
  · next h => rw [h, fields_nil]
  · next h => exact IsField.fields_eq ⟨h, hb⟩

/-- Every field is nonempty and without separators. -/
theorem isField_of_mem_fields {l b : List α} (h : b ∈ fields p l) : IsField p b := by
  induction l using fieldsInduction (p := p) with
  | last m hm =>
    rw [fields_of_no_sep hm] at h
    split at h
    · cases h
    · next hne => obtain rfl := List.mem_singleton.mp h; exact ⟨hne, hm⟩
  | step m s l hm hs ih =>
    rw [fields_append_cons m l hs, List.mem_append] at h
    rcases h with h | h
    · rw [fields_of_no_sep hm] at h
      split at h
      · cases h
      · next hne => obtain rfl := List.mem_singleton.mp h; exact ⟨hne, hm⟩
    · exact ih h

/-- Only a list of separators has no fields. -/
theorem fields_eq_nil_iff {l : List α} : fields p l = [] ↔ ∀ x ∈ l, p x = true := by
  induction l with
  | nil => simp
  | cons x l ih =>
    cases hx : p x with
    | true => simp [hx, ih]
    | false =>
      refine ⟨fun h => ?_, fun h => absurd (h x (by simp)) (by simp [hx])⟩
      rcases sep_free_or_split p (x :: l) with hb | ⟨b, s, m, he, hb, hs⟩
      · rw [fields_of_no_sep hb] at h; simp at h
      · have hne : b ≠ [] := by
          rintro rfl
          obtain rfl : x = s := by simpa using congrArg List.head? he
          simp [hx] at hs
        rw [he, IsField.fields_append_sep ⟨hne, hb⟩ hs] at h
        cases h

/-- Splitting undoes a join of fields by one separator. -/
theorem fields_intercalate {s : α} (hs : p s = true) :
    ∀ {bs : List (List α)}, (∀ b ∈ bs, IsField p b) → fields p ([s].intercalate bs) = bs
  | [], _ => rfl
  | [b], h => by simpa using (h b (by simp)).fields_eq
  | b :: c :: bs, h => by
    have ih : fields p ([s].intercalate (c :: bs)) = c :: bs :=
      fields_intercalate hs fun d hd => h d (List.mem_cons_of_mem _ hd)
    rw [List.intercalate_cons_of_ne_nil (by simp), List.append_assoc, List.singleton_append,
      (h b (by simp)).fields_append_sep hs, ih]

/-- Separators in front of a list do not change its fields. -/
theorem fields_append_left {l : List α} (h : ∀ x ∈ l, p x = true) (m : List α) : fields p (l ++ m) = fields p m := by
  induction l with
  | nil => rfl
  | cons x l ih =>
    rw [List.cons_append, fields_cons_sep (h x (by simp)), ih fun y hy => h y (List.mem_cons_of_mem _ hy)]

/-- Nor do separators behind it. -/
theorem fields_append_right (l : List α) {m : List α} (h : ∀ x ∈ m, p x = true) : fields p (l ++ m) = fields p l := by
  cases m with
  | nil => rw [List.append_nil]
  | cons x m =>
    have hm : fields p m = [] := fields_eq_nil_iff.mpr fun y hy => h y (List.mem_cons_of_mem _ hy)
    rw [fields_append_cons l m (h x (by simp)), hm, List.append_nil]

/-- **The fields together are the list without its separators.** -/
theorem flatten_fields (l : List α) : (fields p l).flatten = l.filter fun x => !p x := by
  have block {b : List α} (hb : ∀ x ∈ b, p x = false) : (fields p b).flatten = b.filter fun x => !p x := by
    have hkeep : b.filter (fun x => !p x) = b := List.filter_eq_self.mpr fun x hx => by rw [hb x hx]; rfl
    rw [fields_of_no_sep hb, hkeep]
    by_cases h : b = [] <;> simp [h]
  induction l using fieldsInduction (p := p) with
  | last b hb => exact block hb
  | step b s m hb hs ih =>
    rw [fields_append_cons b m hs, List.flatten_append, block hb, ih, List.filter_append,
      List.filter_cons_of_neg (by simp [hs])]

/-! ## Trimming -/

/-- `l` without the separators at its two ends. -/
def trim (p : α → Bool) (l : List α) : List α := (l.dropWhile p).rdropWhile p

/-- What trimming removes is made of separators. -/
theorem exists_pad_trim (p : α → Bool) (l : List α) :
    ∃ a b, l = a ++ trim p l ++ b ∧ (∀ x ∈ a, p x = true) ∧ ∀ x ∈ b, p x = true := by
  refine ⟨l.takeWhile p, (l.dropWhile p).rtakeWhile p, ?_, fun x hx => List.mem_takeWhile_imp hx,
    fun x hx => List.mem_rtakeWhile_imp hx⟩
  rw [trim, List.append_assoc, List.rdropWhile_append_rtakeWhile, List.takeWhile_append_dropWhile]

/-- Trimming keeps the fields. -/
theorem fields_trim (l : List α) : fields p (trim p l) = fields p l := by
  obtain ⟨a, b, hl, ha, hb⟩ := exists_pad_trim p l
  have h := congrArg (fields p) hl
  rw [fields_append_right _ hb, fields_append_left ha] at h
  exact h.symm

/-- A list whose first and last elements are not separators. -/
structure Trimmed (p : α → Bool) (l : List α) : Prop where
  head : ∀ x ∈ l.head?, p x = false
  last : ∀ x ∈ l.getLast?, p x = false

theorem dropWhile_eq_self_of_head {l : List α} (h : ∀ x ∈ l.head?, p x = false) : l.dropWhile p = l := by
  cases l with
  | nil => rfl
  | cons x l => simp [h x (by simp)]

/-- Trimming undoes padding with separators on both sides. -/
theorem trim_pad {l : List α} (h : Trimmed p l) {a b : List α} (ha : ∀ x ∈ a, p x = true)
    (hb : ∀ x ∈ b, p x = true) : trim p (a ++ l ++ b) = l := by
  cases l with
  | nil =>
    have hall : (a ++ [] ++ b).dropWhile p = [] := by
      rw [List.dropWhile_eq_nil_iff]
      intro x hx
      rcases List.mem_append.mp hx with hx | hx
      · exact ha x (by simpa using hx)
      · exact hb x hx
    rw [trim, hall, List.rdropWhile_nil]
  | cons x l =>
    have hx : p x = false := h.head x (by simp)
    have hdrop : (a ++ (x :: l) ++ b).dropWhile p = (x :: l) ++ b := by
      rw [List.append_assoc, List.dropWhile_append_of_pos ha, List.cons_append, List.dropWhile_cons]
      simp [hx]
    have hrev : b.reverse.dropWhile p = [] := by
      rw [List.dropWhile_eq_nil_iff]
      exact fun y hy => hb y (by simpa using hy)
    have hlast : (x :: l).reverse.dropWhile p = (x :: l).reverse :=
      dropWhile_eq_self_of_head (by rw [List.head?_reverse]; exact h.last)
    rw [trim, hdrop, List.rdropWhile, List.reverse_append, List.dropWhile_append_of_pos
      (by simpa using hb), hlast, List.reverse_reverse]

/-- Trimming keeps a trimmed list. -/
theorem Trimmed.trim_eq {l : List α} (h : Trimmed p l) : trim p l = l := by
  simpa using trim_pad h (a := []) (b := []) (by simp) (by simp)

/-- A list without separators is trimmed. -/
theorem trimmed_of_no_sep {l : List α} (h : ∀ x ∈ l, p x = false) : Trimmed p l :=
  ⟨fun x hx => h x (List.mem_of_mem_head? hx), fun x hx => h x (List.mem_of_mem_getLast? hx)⟩

/-- Nothing is left exactly of separators. -/
theorem trim_eq_nil_iff {l : List α} : trim p l = [] ↔ ∀ x ∈ l, p x = true := by
  constructor
  · intro h x hx
    obtain ⟨a, b, hl, ha, hb⟩ := exists_pad_trim p l
    rw [hl, h, List.append_nil] at hx
    exact (List.mem_append.mp hx).elim (ha x) (hb x)
  · intro h
    simpa using trim_pad (trimmed_of_no_sep (l := []) (by simp)) h (b := []) (by simp)

/-- Fewer separators leave a trimmed list trimmed. -/
theorem Trimmed.mono {q : α → Bool} {l : List α} (h : Trimmed p l) (hq : ∀ x, p x = false → q x = false) :
    Trimmed q l :=
  ⟨fun x hx => hq x (h.head x hx), fun x hx => hq x (h.last x hx)⟩

/-- The elements of a join are those of the separator and of the blocks. -/
theorem mem_intercalate {s : List α} {x : α} :
    ∀ {bs : List (List α)}, x ∈ s.intercalate bs → x ∈ s ∨ ∃ b ∈ bs, x ∈ b
  | [], h => by cases h
  | [b], h => Or.inr ⟨b, by simp, by simpa using h⟩
  | b :: c :: bs, h => by
    rw [List.intercalate_cons_of_ne_nil (by simp), List.append_assoc, List.mem_append, List.mem_append] at h
    rcases h with h | h | h
    · exact Or.inr ⟨b, by simp, h⟩
    · exact Or.inl h
    · exact (mem_intercalate h).imp_right fun ⟨d, hd, hx⟩ => ⟨d, List.mem_cons_of_mem _ hd, hx⟩

/-- A join of fields is trimmed. -/
theorem trimmed_intercalate (s : List α) :
    ∀ {bs : List (List α)}, (∀ b ∈ bs, IsField p b) → Trimmed p (s.intercalate bs)
  | [], _ => ⟨by simp, by simp⟩
  | [b], h => by simpa using trimmed_of_no_sep (h b (by simp)).no_sep
  | b :: c :: bs, h => by
    have ih : Trimmed p (s.intercalate (c :: bs)) :=
      trimmed_intercalate s fun d hd => h d (List.mem_cons_of_mem _ hd)
    have hb := h b (by simp)
    have hne : s.intercalate (c :: bs) ≠ [] := by
      cases bs with
      | nil => simpa using (h c (by simp)).ne_nil
      | cons d bs =>
        rw [List.intercalate_cons_of_ne_nil (by simp)]
        simp [(h c (by simp)).ne_nil]
    rw [List.intercalate_cons_of_ne_nil (by simp)]
    constructor
    · rw [List.append_assoc, List.head?_append_of_ne_nil _ hb.ne_nil]
      exact (trimmed_of_no_sep hb.no_sep).head
    · rw [List.getLast?_append_of_ne_nil _ hne]
      exact ih.last

/-- Trimming keeps a first element that is not a separator. -/
theorem head?_trim {x : α} {l : List α} (hx : p x = false) : (trim p (x :: l)).head? = some x := by
  obtain ⟨a, b, hl, ha, hb⟩ := exists_pad_trim p (x :: l)
  cases a with
  | cons y a =>
    obtain rfl : x = y := by simpa using congrArg List.head? hl
    rw [ha x (by simp)] at hx; cases hx
  | nil =>
    cases ht : trim p (x :: l) with
    | cons y m =>
      rw [ht] at hl
      simpa using (congrArg List.head? hl).symm
    | nil =>
      rw [ht, List.nil_append, List.nil_append] at hl
      rw [hb x (by rw [← hl]; simp)] at hx; cases hx

/-- A separator in front is trimmed. -/
theorem trim_cons_sep {x : α} (hx : p x = true) (l : List α) : trim p (x :: l) = trim p l := by
  rw [trim, List.dropWhile_cons_of_pos hx, trim]

/-- An element that is not a separator hides what is behind it from the start of the trimmed list. -/
theorem head?_trim_append_cons {x : α} (hx : p x = false) (l m : List α) :
    ∀ a, (trim p (a ++ x :: l)).head? = (trim p (a ++ x :: m)).head?
  | [] => by rw [List.nil_append, List.nil_append, head?_trim hx, head?_trim hx]
  | y :: a => by
    rw [List.cons_append, List.cons_append]
    cases hy : p y with
    | true => rw [trim_cons_sep hy, trim_cons_sep hy, head?_trim_append_cons hx l m a]
    | false => rw [head?_trim hy, head?_trim hy]

/-! ## Splits at one element -/

/-- Split at the first `n` occurrences of `a`. -/
def splitMax [BEq α] (a : α) : Nat → List α → List (List α)
  | 0, l => [l]
  | n + 1, l =>
    match l.dropWhile (· != a) with
    | [] => [l]
    | _ :: m => l.takeWhile (· != a) :: splitMax a n m

/-- A list without `a`, or split at its first `a`. -/
theorem notMem_or_split [DecidableEq α] (a : α) (l : List α) : a ∉ l ∨ ∃ f m, a ∉ f ∧ l = f ++ a :: m := by
  rcases sep_free_or_split (· == a) l with h | ⟨f, s, m, rfl, hf, hs⟩
  · exact Or.inl fun ha => by simpa using h a ha
  · obtain rfl : s = a := by simpa using hs
    exact Or.inr ⟨f, m, fun ha => by simpa using hf s ha, rfl⟩

/-- A list has one piece exactly when the separator does not occur. -/
theorem splitOn_eq_singleton_iff [DecidableEq α] {a : α} {l f : List α} : l.splitOn a = [f] ↔ a ∉ l ∧ l = f := by
  rcases notMem_or_split a l with hl | ⟨g, m, hg, rfl⟩
  · rw [List.splitOn_eq_singleton hl, List.singleton_inj, and_iff_right hl]
  · rw [List.splitOn_append_cons_self_of_not_mem hg]
    constructor
    · intro h
      exact absurd (List.cons.inj h).2 (List.splitOn_ne_nil a m)
    · rintro ⟨ha, -⟩
      exact absurd (by simp) ha

/-- A piece has no separator, and its elements are elements of the list. -/
theorem of_mem_splitOn [DecidableEq α] {a : α} {l f : List α} (h : f ∈ l.splitOn a) : a ∉ f ∧ f ⊆ l := by
  rcases notMem_or_split a l with hl | ⟨g, m, hg, rfl⟩
  · rw [List.splitOn_eq_singleton hl, List.mem_singleton] at h
    rw [h]
    exact ⟨hl, List.Subset.refl l⟩
  · rw [List.splitOn_append_cons_self_of_not_mem hg] at h
    rcases List.mem_cons.mp h with rfl | hm
    · exact ⟨hg, List.subset_append_left f (a :: m)⟩
    · obtain ⟨ha, hsub⟩ := of_mem_splitOn hm
      exact ⟨ha, fun x hx => List.mem_append_right g (List.mem_cons_of_mem a (hsub hx))⟩
termination_by l.length
decreasing_by
  rename_i he
  simp [he]
  omega

/-- A list has two pieces exactly when the separator occurs once, between them. -/
theorem splitOn_eq_pair_iff [DecidableEq α] {a : α} {l f g : List α} :
    l.splitOn a = [f, g] ↔ a ∉ f ∧ a ∉ g ∧ l = f ++ a :: g := by
  constructor
  · intro h
    rcases notMem_or_split a l with hl | ⟨f', m, hf, rfl⟩
    · rw [List.splitOn_eq_singleton hl] at h
      exact absurd (List.cons.inj h).2 (by simp)
    · rw [List.splitOn_append_cons_self_of_not_mem hf] at h
      obtain ⟨he, hm⟩ := List.cons.inj h
      obtain ⟨hg, rfl⟩ := splitOn_eq_singleton_iff.mp hm
      exact ⟨he ▸ hf, hg, by rw [he]⟩
  · rintro ⟨hf, hg, rfl⟩
    rw [List.splitOn_append_cons_self_of_not_mem hf, List.splitOn_eq_singleton hg]

/-- An occurrence of the separator closes the first piece. -/
theorem splitMax_append_cons [BEq α] [LawfulBEq α] {a : α} {f : List α} (hf : a ∉ f) (n : Nat) (m : List α) :
    splitMax a (n + 1) (f ++ a :: m) = f :: splitMax a n m := by
  have hne : ∀ x ∈ f, (x != a) = true := fun x hx => bne_iff_ne.2 fun h => hf (h ▸ hx)
  have hd : (f ++ a :: m).dropWhile (· != a) = a :: m := by
    rw [List.dropWhile_append_of_pos hne]; simp
  have ht : (f ++ a :: m).takeWhile (· != a) = f := by
    rw [List.takeWhile_append_of_pos hne]; simp
  rw [splitMax, hd, ht]

/-- Without the separator there is one piece. -/
theorem splitMax_of_notMem [BEq α] [LawfulBEq α] {a : α} {l : List α} (hl : a ∉ l) (n : Nat) :
    splitMax a n l = [l] := by
  cases n with
  | zero => rfl
  | succ n =>
    have hd : l.dropWhile (· != a) = [] := by
      rw [List.dropWhile_eq_nil_iff]
      exact fun x hx => bne_iff_ne.2 fun h => hl (h ▸ hx)
    rw [splitMax, hd]

end Seq
