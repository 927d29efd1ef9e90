import Mathlib.Data.List.Forall2
import QuranAnalysis.Seq.Dict

/-!
# Validators

A validation library turns the values of decoded documents into those of annotated fields. What it does is a parameter:
`Pydantic` has a validator for each annotation and what is documented of it. Annotations are built from annotations, so
what a model accepts follows from its fields.

- `Values`: the values of documents, as far as programs write them down and ask for their types.
- `Fields`, `Fields.Reads`: the fields of a model, and what they are read as.
- `readsField_constrained_iff`, `optional_constrained_iff`: what is read under a constraint is what is read without it.
- `after_eq_ok_iff`: a validator of the program behind an annotation accepts what both accept.
-/

namespace Validation

open Seq

/-- A text, as its code points. -/
abbrev Text := List Char

/-- The types that programs ask for; `other` are all the rest. -/
inductive PyType
  | none
  | bool
  | int
  | float
  | str
  | list
  | dict
  | other
deriving DecidableEq, Repr

/-- The values of documents: some that can be written down, and the types of all. -/
class Values (V : Type) where
  typeOf : V → PyType
  ofNone : V
  ofBool : Bool → V
  ofInt : Int → V
  ofStr : Text → V
  ofList : List V → V
  ofDict : Dict Text V → V
  typeOf_ofNone : typeOf ofNone = .none
  typeOf_ofInt (n : Int) : typeOf (ofInt n) = .int
  typeOf_ofStr (s : Text) : typeOf (ofStr s) = .str
  typeOf_ofDict (entries : Dict Text V) : typeOf (ofDict entries) = .dict

/-- A validator: what a value is read as, or the errors. -/
abbrev Validator (V E α : Type) := V → Except E α

section Fields

variable {V E α β : Type}

/-- A field has the value under its name; a field that is not there has its default. -/
def ReadsField (entries : Dict Text V) (name : Text) (default : Option α) (read : Validator V E α) (a : α) : Prop :=
  match entries.lookup name with
  | some v => read v = .ok a
  | none => default = some a

/-- The fields of a model, in order, with the type of their values. -/
inductive Fields (V E : Type) : Type → Type 1
  | nil : Fields V E Unit
  | cons {α β : Type} (name : Text) (default : Option α) (read : Validator V E α) (rest : Fields V E β) :
      Fields V E (α × β)

/-- The names of the fields. -/
def Fields.names : {α : Type} → Fields V E α → List Text
  | _, nil => []
  | _, cons name _ _ rest => name :: rest.names

/-- What the fields are read as. -/
def Fields.Reads (entries : Dict Text V) : {α : Type} → Fields V E α → α → Prop
  | _, nil, _ => True
  | _, cons name default read rest, (a, as) => ReadsField entries name default read a ∧ rest.Reads entries as

end Fields

/-- A validation library: a validator for each annotation, with its documented behaviour.

`union` prefers the member whose type a value has, and `model` forbids other fields than its own. `before` and `after`
put the validators of a program in front of an annotation and behind it; what they raise becomes an error. `items` and
`entries` are what is taken for a list, and for a mapping with texts as keys. -/
class Pydantic (V : Type) (E : outParam Type) extends Values V where
  str : Validator V E Text
  int : Validator V E Int
  bool : Validator V E Bool
  union {α β : Type} (f : Validator V E α) (g : Validator V E β) : Validator V E (α ⊕ β)
  optional {α : Type} (f : Validator V E α) : Validator V E (Option α)
  constrained {α : Type} (P : α → Prop) [DecidablePred P] (f : Validator V E α) : Validator V E {a // P a}
  list {α : Type} (f : Validator V E α) : Validator V E (List α)
  model {α : Type} (fields : Fields V E α) : Validator V E α
  before {α : Type} (check : V → Except Text V) (f : Validator V E α) : Validator V E α
  after {α β : Type} (f : Validator V E α) (check : α → Except Text β) : Validator V E β
  items : V → Option (List V)
  entries : V → Option (Dict Text V)
  valueError : Text → E
  items_ofList (vs : List V) : items (ofList vs) = some vs
  entries_ofDict {es : Dict Text V} (h : es.keys.Nodup) : entries (ofDict es) = some es
  str_ofStr (s : Text) : str (ofStr s) = .ok s
  bool_ofBool (b : Bool) : bool (ofBool b) = .ok b
  union_ofInt (n : Int) : union int str (ofInt n) = .ok (.inl n)
  union_ofStr (s : Text) : union int str (ofStr s) = .ok (.inr s)
  optional_none {α : Type} (f : Validator V E α) {v : V} (h : typeOf v = .none) : optional f v = .ok none
  optional_eq_ok_iff {α : Type} {f : Validator V E α} {v : V} (h : typeOf v ≠ .none) {o : Option α} :
    optional f v = .ok o ↔ ∃ a, f v = .ok a ∧ o = some a
  constrained_eq_ok_iff {α : Type} {P : α → Prop} [DecidablePred P] {f : Validator V E α} {v : V} {a : {a // P a}} :
    constrained P f v = .ok a ↔ f v = .ok a.1
  list_eq_ok_iff {α : Type} {f : Validator V E α} {v : V} {as : List α} :
    list f v = .ok as ↔ ∃ vs, items v = some vs ∧ List.Forall₂ (fun w a => f w = .ok a) vs as
  model_eq_ok_iff {α : Type} {fields : Fields V E α} {v : V} {a : α} : model fields v = .ok a ↔
    ∃ es, entries v = some es ∧ (∀ k ∈ es.keys, k ∈ fields.names) ∧ fields.Reads es a
  before_eq_ok_iff {α : Type} {check : V → Except Text V} {f : Validator V E α} {v : V} {a : α} :
    before check f v = .ok a ↔ ∃ w, check v = .ok w ∧ f w = .ok a
  after_of_ok {α β : Type} {f : Validator V E α} {v : V} {a : α} (h : f v = .ok a) (check : α → Except Text β) :
    after f check v = (check a).mapError valueError
  after_of_error {α β : Type} {f : Validator V E α} {v : V} {e : E} (h : f v = .error e) (check : α → Except Text β) :
    after f check v = .error e

attribute [simp] Values.typeOf_ofNone Values.typeOf_ofInt Values.typeOf_ofStr Values.typeOf_ofDict Pydantic.items_ofList
  Pydantic.str_ofStr Pydantic.bool_ofBool Pydantic.union_ofInt Pydantic.union_ofStr Pydantic.constrained_eq_ok_iff

open Values Pydantic

variable {V E α β : Type} [Pydantic V E]

/-- A field is read under its constraint exactly when it is read. -/
theorem readsField_constrained_iff {P : α → Prop} [DecidablePred P] {f : Validator V E α} {es : Dict Text V}
    {name : Text} {a : {a // P a}} :
    ReadsField es name none (constrained P f) a ↔ ReadsField es name none f a.1 := by
  unfold ReadsField
  split <;> simp

/-- An optional field is read under its constraint exactly when it is read. -/
theorem optional_constrained_iff {P : α → Prop} [DecidablePred P] {f : Validator V E α} {v : V}
    {o : Option {a // P a}} : optional (constrained P f) v = .ok o ↔ optional f v = .ok (o.map Subtype.val) := by
  by_cases hv : typeOf v = .none
  · rw [optional_none _ hv, optional_none _ hv]
    cases o <;> simp
  · simp only [optional_eq_ok_iff hv, constrained_eq_ok_iff]
    cases o <;> simp

theorem readsField_optional_constrained_iff {P : α → Prop} [DecidablePred P] {f : Validator V E α} {es : Dict Text V}
    {name : Text} {o : Option {a // P a}} : ReadsField es name (some none) (optional (constrained P f)) o ↔
      ReadsField es name (some none) (optional f) (o.map Subtype.val) := by
  unfold ReadsField
  split
  · exact optional_constrained_iff
  · cases o <;> simp

/-- An optional text is read from itself. -/
theorem optional_str_ofStr (s : Text) : optional str (ofStr s : V) = .ok (some s) :=
  (optional_eq_ok_iff (by simp)).mpr ⟨s, str_ofStr s, rfl⟩

/-- A validator of the program behind an annotation accepts what both accept. -/
theorem after_eq_ok_iff {f : Validator V E α} {check : α → Except Text β} {v : V} {b : β} :
    after f check v = .ok b ↔ ∃ a, f v = .ok a ∧ check a = .ok b := by
  cases h : f v with
  | ok a =>
    rw [after_of_ok h]
    cases hc : check a <;> simp [Except.mapError, hc]
  | error e => simp [after_of_error h]

end Validation
