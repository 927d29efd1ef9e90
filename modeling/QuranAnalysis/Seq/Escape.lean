import QuranAnalysis.Seq.Fields

/-!
# Escaped separators

Cells that may contain the separator `sep` are written with an escape `esc` in front of it. A reader that knows only one
element back splits at the separators that do not follow an escape.

- `unescape_escape`: removing the escapes undoes writing them, whatever escapes the cell had before.
- `sepsEscaped_escape`: in an escaped cell every separator follows an escape.
- `splitUnescaped_flatMap`: cells that end in a plain element are read back from their row.
-/

namespace Seq

variable {α : Type*} [DecidableEq α] {esc sep : α}

/-- An escape is written in front of every separator. -/
def escape (esc sep : α) (l : List α) : List α := l.flatMap fun x => if x = sep then [esc, sep] else [x]

/-- The escapes in front of separators are dropped. -/
def unescape (esc sep : α) : List α → List α
  | [] => []
  | x :: l => if x = esc ∧ l.head? = some sep then unescape esc sep l else x :: unescape esc sep l

/-- The pieces between the separators that do not follow an escape. The flag says that the element before `l` is an
escape. -/
def splitUnescaped (esc sep : α) : Bool → List α → List (List α)
  | _, [] => [[]]
  | escaped, x :: l =>
    if x = sep ∧ escaped = false then [] :: splitUnescaped esc sep (decide (x = esc)) l
    else
      match splitUnescaped esc sep (decide (x = esc)) l with
      | [] => [[x]]
      | p :: ps => (x :: p) :: ps

/-! ## Escaping -/

@[simp] theorem escape_nil : escape esc sep [] = [] := rfl

theorem escape_cons_sep (l : List α) : escape esc sep (sep :: l) = esc :: sep :: escape esc sep l := by simp [escape]

theorem escape_cons_of_ne {x : α} (h : x ≠ sep) (l : List α) : escape esc sep (x :: l) = x :: escape esc sep l := by
  simp [escape, h]

/-- Escaping adds escapes only. -/
theorem mem_escape {l : List α} {x : α} (h : x ∈ escape esc sep l) : x = esc ∨ x ∈ l := by
  obtain ⟨y, hy, hx⟩ := List.mem_flatMap.mp h
  split at hx
  · next hs =>
    subst hs
    rcases List.mem_pair.mp hx with rfl | rfl
    · exact Or.inl rfl
    · exact Or.inr hy
  · rw [List.mem_singleton.mp hx]; exact Or.inr hy

/-- An escaped list does not start with a separator. -/
theorem head?_escape_ne (h : sep ≠ esc) (l : List α) : (escape esc sep l).head? ≠ some sep := by
  cases l with
  | nil => simp
  | cons x l =>
    by_cases hx : x = sep
    · subst hx
      rw [escape_cons_sep, List.head?_cons]
      exact fun e => h (Option.some.inj e).symm
    · rw [escape_cons_of_ne hx, List.head?_cons]
      exact fun e => hx (Option.some.inj e)

/-- **Removing the escapes undoes writing them.** -/
theorem unescape_escape (h : sep ≠ esc) (l : List α) : unescape esc sep (escape esc sep l) = l := by
  induction l with
  | nil => rfl
  | cons x l ih =>
    by_cases hx : x = sep
    · subst hx
      rw [escape_cons_sep, unescape, if_pos ⟨rfl, rfl⟩, unescape, if_neg fun e => h e.1, ih]
    · -- an escape of the cell itself is not followed by a bare separator
      rw [escape_cons_of_ne hx, unescape, if_neg fun e => head?_escape_ne h l e.2, ih]

/-- The last element stays the last. -/
theorem getLast?_escape (l : List α) : (escape esc sep l).getLast? = l.getLast? := by
  induction l using List.reverseRecOn with
  | nil => rfl
  | append_singleton l x _ =>
    simp only [escape, List.flatMap_append, List.flatMap_singleton]
    split
    · next h => simp [h]
    · simp

/-- Escaping keeps a list trimmed, when the escape is none of the elements that are trimmed. -/
theorem Trimmed.escape {p : α → Bool} {l : List α} (h : Trimmed p l) (hesc : p esc = false) :
    Trimmed p (escape esc sep l) where
  head := by
    cases l with
    | nil => simp
    | cons x l =>
      by_cases hx : x = sep
      · subst hx; simpa [escape_cons_sep] using hesc
      · simpa [escape_cons_of_ne hx] using h.head
  last := by rw [getLast?_escape]; exact h.last

/-! ## Splitting -/

/-- Every separator follows an escape. The flag is that of `splitUnescaped`. -/
def SepsEscaped (esc sep : α) : Bool → List α → Prop
  | _, [] => True
  | escaped, x :: l => (x = sep → escaped = true) ∧ SepsEscaped esc sep (decide (x = esc)) l

/-- In an escaped list every separator follows an escape. -/
theorem sepsEscaped_escape (h : sep ≠ esc) (escaped : Bool) (l : List α) :
    SepsEscaped esc sep escaped (escape esc sep l) := by
  induction l generalizing escaped with
  | nil => trivial
  | cons x l ih =>
    by_cases hx : x = sep
    · subst hx
      rw [escape_cons_sep]
      exact ⟨fun e => absurd e.symm h, fun _ => by simp, ih _⟩
    · rw [escape_cons_of_ne hx]
      exact ⟨fun e => absurd e hx, ih _⟩

/-- A piece ends at a separator behind a plain element. -/
theorem splitUnescaped_append_sep (h : sep ≠ esc) {x : α} (hsep : x ≠ sep) (hesc : x ≠ esc) {escaped : Bool}
    {b : List α} (hb : SepsEscaped esc sep escaped b) (l : List α) :
    splitUnescaped esc sep escaped (b ++ x :: sep :: l) = (b ++ [x]) :: splitUnescaped esc sep false l := by
  induction b generalizing escaped with
  | nil => simp [splitUnescaped, h, hsep, hesc]
  | cons y b ih =>
    have hy : ¬ (y = sep ∧ escaped = false) := fun e => by
      rw [hb.1 e.1] at e
      cases e.2
    rw [List.cons_append, splitUnescaped, if_neg hy, ih hb.2]
    rfl

/-- **Cells that end in a plain element are read back from their row.** -/
theorem splitUnescaped_flatMap (h : sep ≠ esc) {x : α} (hsep : x ≠ sep) (hesc : x ≠ esc) {bs : List (List α)}
    (hbs : ∀ b ∈ bs, SepsEscaped esc sep false b) :
    splitUnescaped esc sep false (bs.flatMap (· ++ [x, sep])) = bs.map (· ++ [x]) ++ [[]] := by
  induction bs with
  | nil => rfl
  | cons b bs ih =>
    rw [List.flatMap_cons, List.append_assoc, List.cons_append, List.singleton_append,
      splitUnescaped_append_sep h hsep hesc (hbs b (by simp)), ih fun c hc => hbs c (List.mem_cons_of_mem _ hc),
      List.map_cons, List.cons_append]

end Seq
