import Mathlib.Data.List.Forall2
import Mathlib.Data.List.ReduceOption
import QuranAnalysis.Py.Str

/-!
# Python exceptions

A function that may raise returns a `Result`. A message is kept as its pieces: fixed text and interpolated values.

- `mapM_eq_ok_iff`: a loop over a list returns exactly when every step returns.
- `mapM_eq_error_iff`: it raises exactly what its first raising step raises.
- `mapM_reduceOption_iff`: the same for a loop that skips some elements.
- `SameOutcome R`: the same exception or related results; it composes along binds (`SameOutcome.bind`).
- `OnlyValueError` composes along binds and loops.
-/

namespace Py

/-- A piece of an exception message; `reprTo` cuts a representation off. -/
inductive Piece
  | text (s : String)
  | repr (s : Str)
  | reprTo (n : Nat) (s : Str)
  | int (n : Int)
  | ints (ns : List Int)
  | strs (ss : List Str)
deriving DecidableEq, Repr

/-- The exceptions of the program. -/
inductive Exc
  | valueError (msg : List Piece)
  | keyError (msg : List Piece)
  | indexError (msg : List Piece)
deriving DecidableEq, Repr

/-- A result, or a raised exception. -/
abbrev Result := Except Exc

/-- A raised `ValueError`. -/
def IsValueError {α : Type*} (r : Result α) : Prop := ∃ msg, r = .error (.valueError msg)

section Loops

variable {ε α β : Type} {f : α → Except ε β}

/-- A bind returns when both parts return. -/
theorem bind_eq_ok_iff {γ : Type} {x : Except ε α} {g : α → Except ε γ} {c : γ} :
    (x >>= g) = .ok c ↔ ∃ a, x = .ok a ∧ g a = .ok c := by
  cases x with
  | ok a => simp [bind, Except.bind]
  | error e => simp [bind, Except.bind]

/-- A bind raises when one of its parts does. -/
theorem bind_eq_error_iff {γ : Type} {x : Except ε α} {g : α → Except ε γ} {e : ε} :
    (x >>= g) = .error e ↔ x = .error e ∨ ∃ a, x = .ok a ∧ g a = .error e := by
  cases x with
  | ok a => simp [bind, Except.bind]
  | error e => simp [bind, Except.bind]

/-- A result is mapped when there is one. -/
theorem map_eq_ok_iff {g : α → β} {x : Except ε α} {b : β} : g <$> x = .ok b ↔ ∃ a, x = .ok a ∧ g a = b := by
  cases x <;> simp [Functor.map, Except.map]

/-- A loop returns exactly when every step returns. -/
theorem mapM_eq_ok_iff : ∀ {l : List α} {bs : List β},
    l.mapM f = .ok bs ↔ List.Forall₂ (fun a b => f a = .ok b) l bs
  | [], bs => by
    rw [List.mapM_nil, List.forall₂_nil_left_iff]
    simp only [pure, Except.pure, Except.ok.injEq]
    exact eq_comm
  | a :: l, bs => by
    rw [List.mapM_cons, bind_eq_ok_iff, List.forall₂_cons_left_iff]
    simp only [bind_eq_ok_iff, pure, Except.pure, Except.ok.injEq, mapM_eq_ok_iff]
    constructor
    · rintro ⟨b, hb, bs', hbs, rfl⟩
      exact ⟨b, bs', hb, hbs, rfl⟩
    · rintro ⟨b, bs', hb, hbs, rfl⟩
      exact ⟨b, hb, bs', hbs, rfl⟩

/-- A loop that raises has a raising step. -/
theorem exists_of_mapM_eq_error {l : List α} {e : ε} (h : l.mapM f = .error e) : ∃ a ∈ l, f a = .error e := by
  induction l with
  | nil => cases h
  | cons a l ih =>
    rw [List.mapM_cons, bind_eq_error_iff] at h
    rcases h with h | ⟨b, hb, h⟩
    · exact ⟨a, by simp, h⟩
    · rw [bind_eq_error_iff] at h
      rcases h with h | ⟨bs, _, h⟩
      · obtain ⟨a', ha', he⟩ := ih h
        exact ⟨a', List.mem_cons_of_mem _ ha', he⟩
      · cases h

/-- **A loop raises exactly what its first raising step raises.** -/
theorem mapM_eq_error_iff : ∀ {l : List α} {e : ε}, l.mapM f = .error e ↔
    ∃ pre a post, l = pre ++ a :: post ∧ (∀ b ∈ pre, ∃ c, f b = .ok c) ∧ f a = .error e
  | [], e => by simp [pure, Except.pure]
  | a :: l, e => by
    rw [List.mapM_cons, bind_eq_error_iff]
    simp only [bind_eq_error_iff, mapM_eq_error_iff, pure, Except.pure, reduceCtorEq, and_false, exists_false, or_false]
    constructor
    · rintro (h | ⟨b, hb, pre, a', post, rfl, hpre, h⟩)
      · exact ⟨[], a, l, rfl, by simp, h⟩
      · exact ⟨a :: pre, a', post, rfl, List.forall_mem_cons.mpr ⟨⟨b, hb⟩, hpre⟩, h⟩
    · rintro ⟨pre, a', post, hl, hpre, h⟩
      cases pre with
      | nil =>
        obtain ⟨rfl, rfl⟩ := List.cons.inj hl
        exact .inl h
      | cons b pre =>
        obtain ⟨rfl, rfl⟩ := List.cons.inj hl
        obtain ⟨⟨c, hc⟩, hpre⟩ := List.forall_mem_cons.mp hpre
        exact .inr ⟨c, hc, pre, a', post, rfl, hpre, h⟩

/-- Loops with the same steps are the same. -/
theorem mapM_congr {g : α → Except ε β} {l : List α} (h : ∀ a ∈ l, f a = g a) : l.mapM f = l.mapM g := by
  induction l with
  | nil => rfl
  | cons a l ih => rw [List.mapM_cons, List.mapM_cons, h a (by simp), ih fun b hb => h b (List.mem_cons_of_mem _ hb)]

/-- Elements of related lists have partners. -/
theorem exists_of_forall₂ {R : α → β → Prop} {l : List α} {bs : List β} (h : List.Forall₂ R l bs) {a : α} (ha : a ∈ l) :
    ∃ b ∈ bs, R a b := by
  induction h with
  | nil => cases ha
  | cons hb _ ih =>
    rcases List.mem_cons.mp ha with rfl | ha
    · exact ⟨_, by simp, hb⟩
    · obtain ⟨b, hm, hR⟩ := ih ha
      exact ⟨b, List.mem_cons_of_mem _ hm, hR⟩

/-- Related lists have as many elements with related properties. -/
theorem countP_eq_of_forall₂ {R : α → β → Prop} {p : α → Bool} {q : β → Bool}
    (hpq : ∀ a b, R a b → p a = q b) {l : List α} {m : List β} (h : List.Forall₂ R l m) : l.countP p = m.countP q := by
  induction h with
  | nil => rfl
  | cons hR _ ih => rw [List.countP_cons, List.countP_cons, ih, hpq _ _ hR]

/-- Loops over related lists whose steps raise the same, raise the same. -/
theorem mapM_eq_error_of_forall₂ {γ δ : Type} {R : α → γ → Prop} {f : α → Except ε β} {g : γ → Except ε δ}
    (hfg : ∀ a c, R a c → ∀ e, f a = .error e ↔ g c = .error e) {l : List α} {m : List γ} (h : List.Forall₂ R l m)
    (e : ε) : l.mapM f = .error e ↔ m.mapM g = .error e := by
  induction h with
  | nil => simp [pure, Except.pure]
  | @cons a c _ _ hR _ ih =>
    rw [List.mapM_cons, List.mapM_cons]
    cases ha : f a with
    | error e' =>
      rw [(hfg a c hR e').mp ha]
      simp [bind, Except.bind]
    | ok x =>
      cases hc : g c with
      | error e' =>
        rw [(hfg a c hR e').mpr hc] at ha
        cases ha
      | ok y => simpa [bind_eq_error_iff, pure, Except.pure] using ih

/-- Related lists have equal images. -/
theorem map_eq_of_forall₂ {γ : Type} {R : α → β → Prop} {g : α → γ} {k : β → γ} (hgk : ∀ a b, R a b → g a = k b)
    {l : List α} {m : List β} (h : List.Forall₂ R l m) : l.map g = m.map k := by
  induction h with
  | nil => rfl
  | cons hR _ ih => rw [List.map_cons, List.map_cons, ih, hgk _ _ hR]

/-- Searches of related lists for related properties find related elements, or both find nothing. -/
theorem find?_of_forall₂ {R : α → β → Prop} {p : α → Bool} {q : β → Bool} (hpq : ∀ a b, R a b → p a = q b)
    {l : List α} {m : List β} (h : List.Forall₂ R l m) : Option.Rel R (l.find? p) (m.find? q) := by
  induction h with
  | nil => exact .none
  | @cons a b _ _ hR _ ih =>
    rw [List.find?_cons, List.find?_cons, ← hpq a b hR]
    cases p a with
    | true => exact .some hR
    | false => exact ih

/-- If related inputs have related outputs, then so have related lists of inputs. -/
theorem exists_forall₂_of_forall₂ {γ δ : Type} {R : α → γ → Prop} {P : α → β → Prop} {Q : γ → δ → Prop}
    {S : β → δ → Prop} (hstep : ∀ a c b, R a c → P a b → ∃ d, Q c d ∧ S b d) {l : List α} {m : List γ} {bs : List β}
    (hR : List.Forall₂ R l m) (hP : List.Forall₂ P l bs) : ∃ ds, List.Forall₂ Q m ds ∧ List.Forall₂ S bs ds := by
  induction hR generalizing bs with
  | nil =>
    obtain rfl := List.forall₂_nil_left_iff.mp hP
    exact ⟨[], .nil, .nil⟩
  | cons ha _ ih =>
    obtain ⟨b, bs, hb, hbs, rfl⟩ := List.forall₂_cons_left_iff.mp hP
    obtain ⟨d, hd, hbd⟩ := hstep _ _ _ ha hb
    obtain ⟨ds, hds, hS⟩ := ih hbs
    exact ⟨d :: ds, .cons hd hds, .cons hbd hS⟩

/-- Every step of a loop that returns has returned. -/
theorem exists_of_mapM_eq_ok {l : List α} {bs : List β} (h : l.mapM f = .ok bs) {a : α} (ha : a ∈ l) :
    ∃ b, f a = .ok b := by
  obtain ⟨b, -, hb⟩ := exists_of_forall₂ (mapM_eq_ok_iff.mp h) ha
  exact ⟨b, hb⟩

/-- A loop returns when every step returns. -/
theorem mapM_returns_iff {l : List α} : (∃ bs, l.mapM f = .ok bs) ↔ ∀ a ∈ l, ∃ b, f a = .ok b := by
  refine ⟨fun ⟨bs, h⟩ a ha => exists_of_mapM_eq_ok h ha, fun h => ?_⟩
  induction l with
  | nil => exact ⟨[], rfl⟩
  | cons a l ih =>
    obtain ⟨b, hb⟩ := h a (by simp)
    obtain ⟨bs, hbs⟩ := ih fun c hc => h c (List.mem_cons_of_mem _ hc)
    exact ⟨b :: bs, mapM_eq_ok_iff.mpr (.cons hb (mapM_eq_ok_iff.mp hbs))⟩

/-- A loop whose steps all return returns their results. -/
theorem mapM_eq_ok_map {g : α → β} {l : List α} (h : ∀ a ∈ l, f a = .ok (g a)) : l.mapM f = .ok (l.map g) := by
  rw [mapM_eq_ok_iff, List.forall₂_map_right_iff, List.forall₂_same]
  exact h

/-- A loop that skips what does not satisfy `P` returns exactly when every other step returns a value. -/
theorem mapM_reduceOption_iff {f : α → Except ε (Option β)} {P : α → Prop} [DecidablePred P]
    (hskip : ∀ a, ¬ P a → f a = .ok none) (hdata : ∀ a, P a → f a ≠ .ok none) :
    ∀ {l : List α} {bs : List β}, (∃ rows, l.mapM f = .ok rows ∧ rows.reduceOption = bs) ↔
      List.Forall₂ (fun a b => f a = .ok (some b)) (l.filter P) bs
  | [], bs => by
    simp only [mapM_eq_ok_iff, List.forall₂_nil_left_iff, List.filter_nil, exists_eq_left, List.reduceOption_nil]
    exact eq_comm
  | a :: l, bs => by
    have ih := fun bs : List β => @mapM_reduceOption_iff f P _ hskip hdata l bs
    simp only [mapM_eq_ok_iff, List.forall₂_cons_left_iff] at ih ⊢
    by_cases hP : P a
    · rw [List.filter_cons_of_pos (by simpa using hP), List.forall₂_cons_left_iff]
      simp only [← ih]
      constructor
      · rintro ⟨_, ⟨_ | b, rows, hb, hl, rfl⟩, rfl⟩
        · exact absurd hb (hdata a hP)
        · exact ⟨b, _, hb, ⟨rows, hl, rfl⟩, by simp⟩
      · rintro ⟨b, _, hb, ⟨rows, hl, rfl⟩, rfl⟩
        exact ⟨_, ⟨some b, rows, hb, hl, rfl⟩, by simp⟩
    · rw [List.filter_cons_of_neg (by simpa using hP), ← ih]
      constructor
      · rintro ⟨_, ⟨b, rows, hb, hl, rfl⟩, rfl⟩
        rw [hskip a hP] at hb
        cases hb
        exact ⟨rows, hl, by simp⟩
      · rintro ⟨rows, hl, rfl⟩
        exact ⟨_, ⟨none, rows, hskip a hP, hl, rfl⟩, by simp⟩

end Loops

/-! ## Computations with the same outcome -/

/-- Both raise the same exception, or both return related results. -/
inductive SameOutcome {ε α β : Type} (R : α → β → Prop) : Except ε α → Except ε β → Prop
  | error (e : ε) : SameOutcome R (.error e) (.error e)
  | ok {a : α} {b : β} (h : R a b) : SameOutcome R (.ok a) (.ok b)

namespace SameOutcome

variable {ε α β γ δ : Type} {R : α → β → Prop} {S : γ → δ → Prop} {x : Except ε α} {y : Except ε β}

theorem refl {R : α → α → Prop} (hR : ∀ a, R a a) (x : Except ε α) : SameOutcome R x x := by
  cases x with
  | error e => exact .error e
  | ok a => exact .ok (hR a)

/-- Two computations that raise the same and return related results. -/
theorem of_error_iff (he : ∀ e, x = .error e ↔ y = .error e) (hR : ∀ a b, x = .ok a → y = .ok b → R a b) :
    SameOutcome R x y := by
  cases x with
  | error e =>
    rw [(he e).mp rfl]
    exact .error e
  | ok a =>
    cases y with
    | error e => cases (he e).mpr rfl
    | ok b => exact .ok (hR a b rfl rfl)

/-- Two computations that raise the same, or return related results. -/
theorem of_or (h : (∃ e, x = .error e ∧ y = .error e) ∨ ∃ a b, x = .ok a ∧ y = .ok b ∧ R a b) : SameOutcome R x y := by
  rcases h with ⟨e, rfl, rfl⟩ | ⟨a, b, rfl, rfl, hR⟩
  · exact .error e
  · exact .ok hR

/-- Continued alike, they have the same outcome. -/
theorem bind {f : α → Except ε γ} {g : β → Except ε δ} (h : SameOutcome R x y)
    (hfg : ∀ a b, R a b → SameOutcome S (f a) (g b)) : SameOutcome S (x >>= f) (y >>= g) := by
  cases h with
  | error e => exact .error e
  | ok hR => exact hfg _ _ hR

theorem eq {x y : Except ε α} (h : SameOutcome (· = ·) x y) : x = y := by
  cases h with
  | error e => rfl
  | ok h => rw [h]

end SameOutcome

/-! ## Computations that raise nothing but `ValueError` -/

/-- `r` returns or raises `ValueError`. -/
def OnlyValueError {α : Type*} (r : Result α) : Prop := ∀ e, r = .error e → ∃ msg, e = .valueError msg

namespace OnlyValueError

variable {α β : Type}

@[simp] theorem ok (a : α) : OnlyValueError (.ok a : Result α) := fun _ h => by cases h

@[simp] theorem valueError (msg : List Piece) : OnlyValueError (.error (.valueError msg) : Result α) := fun _ h => by
  cases h; exact ⟨msg, rfl⟩

theorem bind {x : Result α} {g : α → Result β} (hx : OnlyValueError x) (hg : ∀ a, x = .ok a → OnlyValueError (g a)) :
    OnlyValueError (x >>= g) := by
  intro e he
  rcases bind_eq_error_iff.mp he with h | ⟨a, ha, h⟩
  · exact hx e h
  · exact hg a ha e h

theorem mapM {f : α → Result β} {l : List α} (h : ∀ a ∈ l, OnlyValueError (f a)) : OnlyValueError (l.mapM f) := by
  intro e he
  obtain ⟨a, ha, hfa⟩ := exists_of_mapM_eq_error he
  exact h a ha e hfa

/-- What does not return raises `ValueError`. -/
theorem isValueError {r : Result α} (h : OnlyValueError r) (hr : ¬ ∃ a, r = .ok a) : IsValueError r := by
  cases r with
  | ok a => exact absurd ⟨a, rfl⟩ hr
  | error e =>
    obtain ⟨msg, rfl⟩ := h e rfl
    exact ⟨msg, rfl⟩

end OnlyValueError

end Py
