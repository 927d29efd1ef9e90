import QuranAnalysis.Py.Exc
import QuranAnalysis.Validation.Validators

/-!
# Plain documents

Documents of nothing but null, truth values, integers, texts, lists and mappings, with validators that take every value
for what it is. `plainPydantic` shows that the documented behaviour of the validators is consistent.
-/

namespace Validation

open Seq

/-- A plain document. -/
inductive Plain
  | none
  | bool (b : Bool)
  | int (n : Int)
  | str (s : Text)
  | list (vs : List Plain)
  | dict (entries : List (Text × Plain))

variable {V α β : Type}

/-- Reads a field; the errors are texts. -/
def readField (entries : Dict Text V) (name : Text) (default : Option α) (read : Validator V Text α) : Except Text α :=
  match entries.lookup name with
  | some v => read v
  | none =>
    match default with
    | some a => .ok a
    | none => .error "Field required".toList

/-- Reads the fields of a model one after the other. -/
def Fields.read (entries : Dict Text V) : {α : Type} → Fields V Text α → Except Text α
  | _, nil => .ok ()
  | _, cons name default read rest => do
    let a ← readField entries name default read
    let as ← rest.read entries
    .ok (a, as)

theorem readField_eq_ok_iff {entries : Dict Text V} {name : Text} {default : Option α} {read : Validator V Text α}
    {a : α} : readField entries name default read = .ok a ↔ ReadsField entries name default read a := by
  unfold readField ReadsField
  cases entries.lookup name with
  | some v => rfl
  | none => cases default <;> simp

theorem Fields.read_eq_ok_iff {entries : Dict Text V} : ∀ {α : Type} {fields : Fields V Text α} {a : α},
    fields.read entries = .ok a ↔ fields.Reads entries a
  | _, nil, _ => by simp [Fields.read, Fields.Reads]
  | _, cons name default read rest, (a, as) => by
    simp only [Fields.read, Fields.Reads, Py.bind_eq_ok_iff, readField_eq_ok_iff, Fields.read_eq_ok_iff,
      Except.ok.injEq, Prod.mk.injEq]
    constructor
    · rintro ⟨_, ha, _, has, rfl, rfl⟩
      exact ⟨ha, has⟩
    · rintro ⟨ha, has⟩
      exact ⟨_, ha, _, has, rfl, rfl⟩

namespace Plain

def typeOf : Plain → PyType
  | none => .none
  | bool _ => .bool
  | int _ => .int
  | str _ => .str
  | list _ => .list
  | dict _ => .dict

def readStr : Validator Plain Text Text
  | str s => .ok s
  | _ => .error "Input should be a valid string".toList

def readInt : Validator Plain Text Int
  | int n => .ok n
  | _ => .error "Input should be a valid integer".toList

def readBool : Validator Plain Text Bool
  | bool b => .ok b
  | _ => .error "Input should be a valid boolean".toList

def readUnion (f : Validator Plain Text α) (g : Validator Plain Text β) : Validator Plain Text (α ⊕ β) := fun v =>
  match f v with
  | .ok a => .ok (.inl a)
  | .error _ => .inr <$> g v

def readOptional (f : Validator Plain Text α) : Validator Plain Text (Option α)
  | none => .ok .none
  | v => some <$> f v

theorem readOptional_eq_ok_iff {f : Validator Plain Text α} {v : Plain} (h : v.typeOf ≠ .none) {o : Option α} :
    readOptional f v = .ok o ↔ ∃ a, f v = .ok a ∧ o = some a := by
  have hmap : some <$> f v = .ok o ↔ ∃ a, f v = .ok a ∧ o = some a := by
    cases f v <;> simp [Functor.map, Except.map, eq_comm]
  cases v with
  | none => exact absurd rfl h
  | _ => exact hmap

def readConstrained (P : α → Prop) [DecidablePred P] (f : Validator Plain Text α) : Validator Plain Text {a // P a} :=
  fun v => f v >>= fun a => if h : P a then .ok ⟨a, h⟩ else .error "Input should match the constraint".toList

theorem readConstrained_eq_ok_iff {P : α → Prop} [DecidablePred P] {f : Validator Plain Text α} {v : Plain}
    {a : {a // P a}} : readConstrained P f v = .ok a ↔ f v = .ok a.1 := by
  rw [readConstrained, Py.bind_eq_ok_iff]
  constructor
  · rintro ⟨b, hb, h⟩
    split at h
    · cases h
      exact hb
    · cases h
  · exact fun h => ⟨a.1, h, dif_pos a.2⟩

def items : Plain → Option (List Plain)
  | list vs => some vs
  | _ => .none

def entries : Plain → Option (Dict Text Plain)
  | dict es => some es
  | _ => .none

def readList (f : Validator Plain Text α) (v : Plain) : Except Text (List α) :=
  match v.items with
  | some vs => vs.mapM f
  | .none => .error "Input should be a valid list".toList

theorem readList_eq_ok_iff {f : Validator Plain Text α} {v : Plain} {as : List α} : readList f v = .ok as ↔
    ∃ vs, v.items = some vs ∧ List.Forall₂ (fun w a => f w = .ok a) vs as := by
  unfold readList
  cases v.items with
  | none => simp
  | some vs => simp [Py.mapM_eq_ok_iff]

def readModel (fields : Fields Plain Text α) (v : Plain) : Except Text α :=
  match v.entries with
  | some es =>
    if ∀ k ∈ es.keys, k ∈ fields.names then fields.read es else .error "Extra inputs are not permitted".toList
  | .none => .error "Input should be a valid dictionary".toList

theorem readModel_eq_ok_iff {fields : Fields Plain Text α} {v : Plain} {a : α} : readModel fields v = .ok a ↔
    ∃ es, v.entries = some es ∧ (∀ k ∈ es.keys, k ∈ fields.names) ∧ fields.Reads es a := by
  unfold readModel
  cases v.entries with
  | none => simp
  | some es =>
    dsimp only
    split
    · next h =>
      rw [Fields.read_eq_ok_iff]
      constructor
      · exact fun ha => ⟨es, rfl, h, ha⟩
      · rintro ⟨_, ⟨⟩, -, ha⟩
        exact ha
    · next h =>
      refine iff_of_false (by simp) ?_
      rintro ⟨_, ⟨⟩, hk, -⟩
      exact h hk

end Plain

/-- Validators of plain documents, with texts as errors. -/
instance plainPydantic : Pydantic Plain Text where
  typeOf := Plain.typeOf
  ofNone := .none
  ofBool := .bool
  ofInt := .int
  ofStr := .str
  ofList := .list
  ofDict := .dict
  str := Plain.readStr
  int := Plain.readInt
  bool := Plain.readBool
  union := Plain.readUnion
  optional := Plain.readOptional
  constrained P := Plain.readConstrained P
  list := Plain.readList
  model := Plain.readModel
  before check f v := check v >>= f
  after f check v := f v >>= check
  items := Plain.items
  entries := Plain.entries
  valueError := id
  typeOf_ofNone := rfl
  typeOf_ofInt _ := rfl
  typeOf_ofStr _ := rfl
  typeOf_ofDict _ := rfl
  items_ofList _ := rfl
  entries_ofDict _ := rfl
  str_ofStr _ := rfl
  bool_ofBool _ := rfl
  union_ofInt _ := rfl
  union_ofStr _ := rfl
  optional_none _ v h := by
    cases v with
    | none => rfl
    | _ => cases h
  optional_eq_ok_iff h _ := Plain.readOptional_eq_ok_iff h
  constrained_eq_ok_iff := Plain.readConstrained_eq_ok_iff
  list_eq_ok_iff := Plain.readList_eq_ok_iff
  model_eq_ok_iff := Plain.readModel_eq_ok_iff
  before_eq_ok_iff := Py.bind_eq_ok_iff
  after_of_ok h check := by
    rw [h]
    show check _ = _
    cases check _ <;> rfl
  after_of_error h check := by
    rw [h]
    rfl

end Validation
