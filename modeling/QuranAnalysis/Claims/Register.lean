import Mathlib.Data.Char
import Mathlib.Data.Finset.Sort
import Mathlib.Data.List.Lex
import QuranAnalysis.Validation.Plain
import QuranAnalysis.Claims.Schema

/-!
# Loading the register (`load_register` in `claims/schema.py`)

A decoded document is validated into a register of claims with different ids. The validation library is a parameter
(`Pydantic`); the models, their fields and the two validators of the program are those of the source.

- `claimModel_eq_ok_iff`: the values that are validated as claims, field by field (`IsEntry`).
- `loadRegister_eq_ok_iff`: a document is loaded exactly when each of the values it lists is a claim, and to these
  claims.
- `loadRegister_toValue`: every register is loaded from some document.
- `loadRegister_unique_ids`: ids that occur more than once are refused, and the message lists exactly these, in order.
- `loadRegister_merge`: two registers are merged exactly when they share no ids.
-/

namespace QuranAnalysis

open Py Validation

/-- A claim with the fields that no verdict depends on. -/
structure Entry extends Claim where
  rederivationNote : Option Str
  tags : List Str

/-- The entries, in order, with unique ids. -/
structure EntryRegister where
  entries : List Entry
  unique_ids : (entries.map (·.id)).Nodup

/-- The claims that are evaluated. -/
def EntryRegister.register (r : EntryRegister) : ClaimsRegister :=
  ⟨r.entries.map (·.toClaim), by simpa [Function.comp_def] using r.unique_ids⟩

/-! ## Unique ids -/

/-- The step of `_unique_ids`: the ids that were seen, and those that were seen again. -/
def idsStep (acc : Finset Str × Finset Str) (id : Str) : Finset Str × Finset Str :=
  (insert id acc.1, if id ∈ acc.1 then insert id acc.2 else acc.2)

/-- The ids that were seen again. -/
def duplicates (ids : List Str) : Finset Str := (ids.foldl idsStep (∅, ∅)).2

/-- The loop holds the ids so far, and those among them that occur more than once. -/
theorem foldl_idsStep (ids : List Str) : (ids.foldl idsStep (∅, ∅)).1 = ids.toFinset ∧
    ∀ id, id ∈ (ids.foldl idsStep (∅, ∅)).2 ↔ 1 < ids.count id := by
  induction ids using List.reverseRecOn with
  | nil => simp
  | append_singleton ids id ih =>
    obtain ⟨hseen, hdup⟩ := ih
    rw [List.foldl_append, List.foldl_cons, List.foldl_nil, idsStep, hseen]
    refine ⟨by ext; simp, fun i => ?_⟩
    have hcount : (ids ++ [id]).count i = ids.count i + if id = i then 1 else 0 := by
      rw [List.count_append, List.count_singleton]
      simp
    rw [hcount]
    by_cases hi : id = i
    · subst hi
      have hmem : id ∈ ids ↔ 0 < ids.count id := List.count_pos_iff.symm
      by_cases hid : id ∈ ids
      · simp [hid, hmem.mp hid]
      · simp [hid, hdup, List.count_eq_zero_of_not_mem hid]
    · by_cases hid : id ∈ ids
      · simp [hid, hi, hdup, Ne.symm hi]
      · simp [hid, hi, hdup]

/-- **The loop finds exactly the ids that occur more than once.** -/
theorem mem_duplicates_iff {ids : List Str} {id : Str} : id ∈ duplicates ids ↔ 1 < ids.count id :=
  (foldl_idsStep ids).2 id

theorem duplicates_eq_empty_iff {ids : List Str} : duplicates ids = ∅ ↔ ids.Nodup := by
  rw [Finset.eq_empty_iff_forall_notMem, List.nodup_iff_count_le_one]
  simp only [mem_duplicates_iff, not_lt]

/-- `_unique_ids` -/
def uniqueIds (claims : List Entry) : Except Str EntryRegister :=
  if h : duplicates (claims.map (·.id)) = ∅ then .ok ⟨claims, duplicates_eq_empty_iff.mp h⟩
  else
    .error ("duplicate claim id(s): ".toList ++
      ", ".toList.intercalate ((duplicates (claims.map (·.id))).sort (· ≤ ·)))

/-- **Claims with different ids make a register.** -/
theorem uniqueIds_eq_ok_iff {claims : List Entry} {r : EntryRegister} : uniqueIds claims = .ok r ↔ r.entries = claims
  := by
  unfold uniqueIds
  split
  · rw [Except.ok.injEq]
    constructor
    · rintro rfl
      rfl
    · rintro rfl
      rfl
  · next h =>
    refine iff_of_false nofun ?_
    rintro rfl
    exact h (duplicates_eq_empty_iff.mpr r.unique_ids)

/-- **Otherwise the message lists exactly the ids that occur more than once**, each of them once and in order. -/
theorem uniqueIds_of_not_nodup {claims : List Entry} (h : ¬ (claims.map (·.id)).Nodup) :
    ∃ ids : List Str, ids.Pairwise (· < ·) ∧ (∀ id, id ∈ ids ↔ 1 < (claims.map (·.id)).count id) ∧
      uniqueIds claims = .error ("duplicate claim id(s): ".toList ++ ", ".toList.intercalate ids) := by
  refine ⟨(duplicates (claims.map (·.id))).sort (· ≤ ·), Finset.sortedLT_sort _ |>.pairwise, fun id => ?_, ?_⟩
  · rw [Finset.mem_sort, mem_duplicates_iff]
  · rw [uniqueIds, dif_neg (mt duplicates_eq_empty_iff.mp h)]

section Models

variable {V E : Type} [Pydantic V E]

/-! ## Models -/

/-- `_asserted_value_type_guard` -/
def assertedValueTypeGuard (value : V) : Except Str V :=
  if Values.typeOf value = .bool then .error "asserted_value must be an int or str, not a bool".toList
  else if Values.typeOf value = .float then .error "asserted_value must be an int or str, not a float".toList
  else .ok value

/-- A text with `min_length=1`. -/
abbrev Filled := {s : Str // 1 ≤ s.length}

/-- `str = Field(min_length=1)` -/
def filled : Validator V E Filled := Pydantic.constrained _ Pydantic.str

/-- The values of the fields of a claim. -/
abbrev ClaimValues := {s : Str // MatchesIdPattern s ∧ 1 ≤ s.length} × Filled × Filled × (Int ⊕ Str) × Filled × Filled ×
  Bool × Option Filled × Option Str × List Str × Unit

/-- The fields of `Claim`. -/
def claimFields : Fields V E ClaimValues :=
  .cons "id".toList none (Pydantic.constrained _ Pydantic.str) <|
  .cons "description".toList none filled <|
  .cons "source".toList none filled <|
  .cons "asserted_value".toList none
    (Pydantic.before assertedValueTypeGuard (Pydantic.union Pydantic.int Pydantic.str)) <|
  .cons "operational_definition".toList none filled <|
  .cons "expected_result".toList none filled <|
  .cons "requires_morphology".toList (some false) Pydantic.bool <|
  .cons "ambiguity_note".toList (some none) (Pydantic.optional filled) <|
  .cons "rederivation_note".toList (some none) (Pydantic.optional Pydantic.str) <|
  .cons "tags".toList (some []) (Pydantic.list Pydantic.str) .nil

/-- An asserted value of the union. -/
def Asserted.ofSum : Int ⊕ Str → Asserted
  | .inl n => .int n
  | .inr s => .str s

/-- A claim with validated fields. -/
def Entry.ofValues : ClaimValues → Entry
  | (id, description, source, assertedValue, operationalDefinition, expectedResult, requiresMorphology, ambiguityNote,
      rederivationNote, tags, _) =>
    { id := id
      description := description
      source := source
      assertedValue := .ofSum assertedValue
      operationalDefinition := operationalDefinition
      expectedResult := expectedResult
      requiresMorphology := requiresMorphology
      ambiguityNote := ambiguityNote.map Subtype.val
      id_pattern := id.2.1
      description_ne_nil := List.ne_nil_of_length_pos description.2
      source_ne_nil := List.ne_nil_of_length_pos source.2
      operationalDefinition_ne_nil := List.ne_nil_of_length_pos operationalDefinition.2
      expectedResult_ne_nil := List.ne_nil_of_length_pos expectedResult.2
      ambiguityNote_ne_nil := by
        cases ambiguityNote with
        | none => simp
        | some s => simpa using List.ne_nil_of_length_pos s.2
      rederivationNote := rederivationNote
      tags := tags }

/-- `Claim` -/
def claimModel : Validator V E Entry := fun v => Entry.ofValues <$> Pydantic.model claimFields v

/-- The fields of `ClaimsRegister`. -/
def registerFields : Fields V E (List Entry × Unit) := .cons "claims".toList (some []) (Pydantic.list claimModel) .nil

/-- `ClaimsRegister` -/
def claimsRegisterModel : Validator V E EntryRegister :=
  Pydantic.after (fun v => Prod.fst <$> Pydantic.model registerFields v) uniqueIds

/-- `load_register` on the decoded document: an empty one is a register without claims. -/
def loadRegister (raw : V) : Except E EntryRegister :=
  claimsRegisterModel (if Values.typeOf raw = .none then Values.ofDict [("claims".toList, Values.ofList [])] else raw)

/-! ## What is accepted -/

/-- The names of the fields of a claim. -/
def fieldNames : List Str :=
  ["id".toList, "description".toList, "source".toList, "asserted_value".toList, "operational_definition".toList,
    "expected_result".toList, "requires_morphology".toList, "ambiguity_note".toList, "rederivation_note".toList,
    "tags".toList]

/-- The fields of a claim are read from a mapping: the required ones are there, the others have their defaults, the
asserted value is neither a truth value nor a float, and no other fields are there. -/
structure IsEntry (es : Seq.Dict Str V) (e : Entry) : Prop where
  keys : ∀ k ∈ es.keys, k ∈ fieldNames
  id : ReadsField es "id".toList none Pydantic.str e.id
  description : ReadsField es "description".toList none Pydantic.str e.description
  source : ReadsField es "source".toList none Pydantic.str e.source
  assertedValue : ∃ v x, es.lookup "asserted_value".toList = some v ∧ Values.typeOf v ≠ .bool ∧
    Values.typeOf v ≠ .float ∧ Pydantic.union Pydantic.int Pydantic.str v = .ok x ∧ .ofSum x = e.assertedValue
  operationalDefinition : ReadsField es "operational_definition".toList none Pydantic.str e.operationalDefinition
  expectedResult : ReadsField es "expected_result".toList none Pydantic.str e.expectedResult
  requiresMorphology : ReadsField es "requires_morphology".toList (some false) Pydantic.bool e.requiresMorphology
  ambiguityNote : ReadsField es "ambiguity_note".toList (some none) (Pydantic.optional Pydantic.str) e.ambiguityNote
  rederivationNote :
    ReadsField es "rederivation_note".toList (some none) (Pydantic.optional Pydantic.str) e.rederivationNote
  tags : ReadsField es "tags".toList (some []) (Pydantic.list Pydantic.str) e.tags

/-- The guard lets a value through that is neither a truth value nor a float. -/
theorem assertedValueTypeGuard_eq_ok_iff {v w : V} :
    assertedValueTypeGuard v = .ok w ↔ Values.typeOf v ≠ .bool ∧ Values.typeOf v ≠ .float ∧ v = w := by
  unfold assertedValueTypeGuard
  split
  · next h => simp [h]
  · split
    · next h => simp [h]
    · next hb hf => simp [hb, hf]

/-- The asserted value is read behind the guard. -/
theorem readsField_asserted_iff {es : Seq.Dict Str V} {x : Int ⊕ Str} :
    ReadsField es "asserted_value".toList none
        (Pydantic.before assertedValueTypeGuard (Pydantic.union Pydantic.int Pydantic.str)) x ↔
      ∃ v, es.lookup "asserted_value".toList = some v ∧ Values.typeOf v ≠ .bool ∧ Values.typeOf v ≠ .float ∧
        Pydantic.union Pydantic.int Pydantic.str v = .ok x := by
  unfold ReadsField
  cases es.lookup "asserted_value".toList with
  | none => simp
  | some v => simp [Pydantic.before_eq_ok_iff, assertedValueTypeGuard_eq_ok_iff, and_assoc]

/-- **A claim is read exactly from a mapping of its fields.** -/
theorem claimModel_eq_ok_iff {v : V} {e : Entry} :
    claimModel v = .ok e ↔ ∃ es, Pydantic.entries v = some es ∧ IsEntry es e := by
  simp only [claimModel, map_eq_ok_iff, Pydantic.model_eq_ok_iff]
  constructor
  · rintro ⟨⟨id, description, source, asserted, definition, expected, flag, note, note', tags, u⟩,
      ⟨es, hes, hkeys, hid, hdescription, hsource, hasserted, hdefinition, hexpected, hflag, hnote, hnote', htags, -⟩,
      rfl⟩
    obtain ⟨w, hw, hbool, hfloat, hx⟩ := readsField_asserted_iff.mp hasserted
    exact ⟨es, hes, hkeys, readsField_constrained_iff.mp hid, readsField_constrained_iff.mp hdescription,
      readsField_constrained_iff.mp hsource, ⟨w, asserted, hw, hbool, hfloat, hx, rfl⟩,
      readsField_constrained_iff.mp hdefinition, readsField_constrained_iff.mp hexpected, hflag,
      readsField_optional_constrained_iff.mp hnote, hnote', htags⟩
  · rintro ⟨es, hes, h⟩
    obtain ⟨w, x, hw, hbool, hfloat, hx, hasserted⟩ := h.assertedValue
    obtain ⟨note, hnote⟩ : ∃ o : Option Filled, o.map Subtype.val = e.ambiguityNote := by
      have hne := e.ambiguityNote_ne_nil
      cases he : e.ambiguityNote with
      | none => exact ⟨none, rfl⟩
      | some s =>
        have hs : s ≠ [] := fun hs => hne (by rw [he, hs])
        exact ⟨some ⟨s, List.length_pos_iff.mpr hs⟩, rfl⟩
    have hid : e.id ≠ [] := fun hnil => by
      have hp := e.id_pattern
      rw [hnil] at hp
      exact hp
    refine ⟨⟨⟨e.id, e.id_pattern, List.length_pos_iff.mpr hid⟩,
      ⟨e.description, List.length_pos_iff.mpr e.description_ne_nil⟩,
      ⟨e.source, List.length_pos_iff.mpr e.source_ne_nil⟩, x,
      ⟨e.operationalDefinition, List.length_pos_iff.mpr e.operationalDefinition_ne_nil⟩,
      ⟨e.expectedResult, List.length_pos_iff.mpr e.expectedResult_ne_nil⟩, e.requiresMorphology, note,
      e.rederivationNote, e.tags, ()⟩, ⟨es, hes, h.keys, ?_⟩, ?_⟩
    · exact ⟨readsField_constrained_iff.mpr h.id, readsField_constrained_iff.mpr h.description,
        readsField_constrained_iff.mpr h.source, readsField_asserted_iff.mpr ⟨w, hw, hbool, hfloat, hx⟩,
        readsField_constrained_iff.mpr h.operationalDefinition, readsField_constrained_iff.mpr h.expectedResult,
        h.requiresMorphology, readsField_optional_constrained_iff.mpr (by rw [hnote]; exact h.ambiguityNote),
        h.rederivationNote, h.tags, trivial⟩
    · obtain ⟨⟨⟩, _, _⟩ := e
      subst hnote hasserted
      rfl

/-! ## Documents of claims -/

/-- The document of an asserted value. -/
def Asserted.toValue : Asserted → V
  | .int n => Values.ofInt n
  | .str s => Values.ofStr s

/-- The document of a note. -/
def noteValue : Option Str → V
  | none => Values.ofNone
  | some s => Values.ofStr s

/-- The document of an entry, with all of its fields. -/
def Entry.toDict (e : Entry) : Seq.Dict Str V :=
  [("id".toList, Values.ofStr e.id), ("description".toList, Values.ofStr e.description),
    ("source".toList, Values.ofStr e.source), ("asserted_value".toList, e.assertedValue.toValue),
    ("operational_definition".toList, Values.ofStr e.operationalDefinition),
    ("expected_result".toList, Values.ofStr e.expectedResult),
    ("requires_morphology".toList, Values.ofBool e.requiresMorphology),
    ("ambiguity_note".toList, noteValue e.ambiguityNote), ("rederivation_note".toList, noteValue e.rederivationNote),
    ("tags".toList, Values.ofList (e.tags.map Values.ofStr))]

/-- An integer or a text is asserted as it stands. -/
theorem Asserted.guarded_toValue (a : Asserted) : Values.typeOf (a.toValue : V) ≠ .bool ∧
    Values.typeOf (a.toValue : V) ≠ .float ∧ ∃ x, Pydantic.union Pydantic.int Pydantic.str (a.toValue : V) = .ok x ∧
      .ofSum x = a := by
  cases a with
  | int n => exact ⟨by simp [Asserted.toValue], by simp [Asserted.toValue], .inl n, Pydantic.union_ofInt n, rfl⟩
  | str s => exact ⟨by simp [Asserted.toValue], by simp [Asserted.toValue], .inr s, Pydantic.union_ofStr s, rfl⟩

theorem optional_noteValue (o : Option Str) : Pydantic.optional Pydantic.str (noteValue o : V) = .ok o := by
  cases o with
  | none => exact Pydantic.optional_none _ Values.typeOf_ofNone
  | some s => exact optional_str_ofStr s

theorem isEntry_toDict (e : Entry) : IsEntry (e.toDict : Seq.Dict Str V) e := by
  obtain ⟨hbool, hfloat, x, hx, hasserted⟩ := Asserted.guarded_toValue (V := V) e.assertedValue
  constructor
  case keys => simp [Seq.Dict.keys, fieldNames, Entry.toDict]
  case assertedValue => exact ⟨_, x, rfl, hbool, hfloat, hx, hasserted⟩
  case requiresMorphology => exact Pydantic.bool_ofBool _
  case ambiguityNote | rederivationNote => exact optional_noteValue _
  case tags =>
    refine Pydantic.list_eq_ok_iff.mpr ⟨_, Pydantic.items_ofList _, ?_⟩
    rw [List.forall₂_map_left_iff, List.forall₂_same]
    exact fun s _ => Pydantic.str_ofStr s
  all_goals exact Pydantic.str_ofStr _

/-- Every entry is read from its document. -/
theorem claimModel_toDict (e : Entry) : claimModel (Values.ofDict e.toDict : V) = .ok e := by
  have hkeys : (Seq.Dict.keys (e.toDict : Seq.Dict Str V)).Nodup := by
    simp only [Seq.Dict.keys, Entry.toDict, List.map_cons, List.map_nil]
    decide
  exact claimModel_eq_ok_iff.mpr ⟨_, Pydantic.entries_ofDict hkeys, isEntry_toDict e⟩

/-- The claim on the days of a year. -/
def dayEntry : Entry where
  id := "yawm-singular-365".toList
  description := "days of a year".toList
  source := "s".toList
  assertedValue := .int 365
  operationalDefinition := "lemma count".toList
  expectedResult := "mismatch".toList
  requiresMorphology := true
  ambiguityNote := none
  id_pattern := by decide
  description_ne_nil := by decide
  source_ne_nil := s_ne_nil
  operationalDefinition_ne_nil := by decide
  expectedResult_ne_nil := mismatch_ne_nil
  ambiguityNote_ne_nil := none_ne_some_nil
  rederivationNote := none
  tags := ["constant".toList]

/-- The claim on the months. -/
def monthEntry : Entry :=
  { dayEntry with id := "shahr-month-12".toList, assertedValue := .int 12, id_pattern := by decide }

/-! ## Loading -/

/-- The values that a document lists as its claims: those under its only key, and none without it or if it is empty. -/
inductive ListsClaims : V → List V → Prop
  | empty {raw : V} (h : Values.typeOf raw = .none) : ListsClaims raw []
  | default {raw : V} {es : Seq.Dict Str V} (h : Values.typeOf raw ≠ .none) (he : Pydantic.entries raw = some es)
      (hk : ∀ k ∈ es.keys, k = "claims".toList) (hl : es.lookup "claims".toList = none) : ListsClaims raw []
  | claims {raw w : V} {es : Seq.Dict Str V} {vs : List V} (h : Values.typeOf raw ≠ .none)
      (he : Pydantic.entries raw = some es) (hk : ∀ k ∈ es.keys, k = "claims".toList)
      (hl : es.lookup "claims".toList = some w) (hw : Pydantic.items w = some vs) : ListsClaims raw vs

/-- The claims of a mapping without other keys are those of its list. -/
theorem model_registerFields_iff {raw : V} {claims : List Entry} :
    Prod.fst <$> Pydantic.model registerFields raw = .ok claims ↔
      ∃ es, Pydantic.entries raw = some es ∧ (∀ k ∈ es.keys, k = "claims".toList) ∧
        ReadsField es "claims".toList (some []) (Pydantic.list claimModel) claims := by
  simp only [map_eq_ok_iff, Pydantic.model_eq_ok_iff]
  constructor
  · rintro ⟨⟨_, _⟩, ⟨es, hes, hk, hreads, -⟩, rfl⟩
    exact ⟨es, hes, fun k hm => List.mem_singleton.mp (hk k hm), hreads⟩
  · rintro ⟨es, hes, hk, hreads⟩
    exact ⟨⟨claims, ()⟩, ⟨es, hes, fun k hm => List.mem_singleton.mpr (hk k hm), hreads, trivial⟩, rfl⟩

/-- **The claims of a document are validated one by one.** -/
theorem claims_eq_ok_iff {raw : V} {claims : List Entry} :
    Prod.fst <$> Pydantic.model registerFields
        (if Values.typeOf raw = .none then Values.ofDict [("claims".toList, Values.ofList [])] else raw) = .ok claims ↔
      ∃ vs, ListsClaims raw vs ∧ List.Forall₂ (fun v e => claimModel v = .ok e) vs claims := by
  rw [model_registerFields_iff]
  split
  · next h =>
    rw [Pydantic.entries_ofDict (by simp [Seq.Dict.keys])]
    constructor
    · rintro ⟨_, ⟨⟩, -, hreads⟩
      obtain ⟨vs, hvs, hclaims⟩ := Pydantic.list_eq_ok_iff.mp hreads
      rw [Pydantic.items_ofList] at hvs
      cases hvs
      exact ⟨[], .empty h, hclaims⟩
    · rintro ⟨vs, hl, hclaims⟩
      cases hl with
      | empty =>
        refine ⟨_, rfl, by simp [Seq.Dict.keys], Pydantic.list_eq_ok_iff.mpr ⟨[], Pydantic.items_ofList _, hclaims⟩⟩
      | default hne | claims hne => exact absurd h hne
  · next h =>
    constructor
    · rintro ⟨es, hes, hk, hreads⟩
      unfold ReadsField at hreads
      split at hreads
      · next w hw =>
        obtain ⟨vs, hvs, hclaims⟩ := Pydantic.list_eq_ok_iff.mp hreads
        exact ⟨vs, .claims h hes hk hw hvs, hclaims⟩
      · next hw =>
        cases hreads
        exact ⟨[], .default h hes hk hw, .nil⟩
    · rintro ⟨vs, hl, hclaims⟩
      cases hl with
      | empty hne => exact absurd hne h
      | default _ hes hk hl =>
        cases hclaims
        exact ⟨_, hes, hk, by rw [ReadsField, hl]⟩
      | claims _ hes hk hl hw =>
        refine ⟨_, hes, hk, ?_⟩
        rw [ReadsField, hl]
        exact Pydantic.list_eq_ok_iff.mpr ⟨vs, hw, hclaims⟩

/-- The claims of a document are a register if their ids are different. -/
theorem loadRegister_of_listsClaims {raw : V} {vs : List V} {claims : List Entry} (h : ListsClaims raw vs)
    (hc : List.Forall₂ (fun v e => claimModel v = .ok e) vs claims) :
    loadRegister raw = (uniqueIds claims).mapError (Pydantic.valueError V) :=
  Pydantic.after_of_ok (f := fun v => Prod.fst <$> Pydantic.model registerFields v) (claims_eq_ok_iff.mpr ⟨vs, h, hc⟩)
    uniqueIds

/-- A document lists one list of values. -/
theorem ListsClaims.unique {raw : V} {vs ws : List V} (h : ListsClaims raw vs) (h' : ListsClaims raw ws) : vs = ws := by
  cases h with
  | empty h =>
    cases h' with
    | empty => rfl
    | default hne | claims hne => exact absurd h hne
  | default hne he _ hl =>
    cases h' with
    | empty | default => rfl
    | claims _ he' _ hl' =>
      cases he.symm.trans he'
      cases hl.symm.trans hl'
  | claims hne he _ hl hw =>
    cases h' with
    | empty h => exact absurd h hne
    | default _ he' _ hl' =>
      cases he.symm.trans he'
      cases hl.symm.trans hl'
    | claims _ he' _ hl' hw' =>
      cases he.symm.trans he'
      cases hl.symm.trans hl'
      exact Option.some.inj (hw.symm.trans hw')

/-- A register is loaded from the values of its claims. -/
theorem loadRegister_iff_of_listsClaims {raw : V} {vs : List V} (h : ListsClaims raw vs) {r : EntryRegister} :
    loadRegister raw = .ok r ↔ List.Forall₂ (fun v e => claimModel v = .ok e) vs r.entries := by
  simp only [loadRegister, claimsRegisterModel, after_eq_ok_iff, claims_eq_ok_iff, uniqueIds_eq_ok_iff]
  constructor
  · rintro ⟨claims, ⟨ws, hws, hclaims⟩, rfl⟩
    rwa [h.unique hws]
  · exact fun hclaims => ⟨_, ⟨vs, h, hclaims⟩, rfl⟩

/-- What is loaded lists claims. -/
theorem exists_listsClaims {raw : V} {r : EntryRegister} (h : loadRegister raw = .ok r) : ∃ vs, ListsClaims raw vs := by
  obtain ⟨claims, hclaims, -⟩ := after_eq_ok_iff.mp h
  obtain ⟨vs, hvs, -⟩ := claims_eq_ok_iff.mp hclaims
  exact ⟨vs, hvs⟩

/-- **A document is loaded exactly when the values that it lists are claims**, and to these claims, in order. -/
theorem loadRegister_eq_ok_iff {raw : V} {r : EntryRegister} : loadRegister raw = .ok r ↔
    ∃ vs, ListsClaims raw vs ∧
      List.Forall₂ (fun v e => ∃ es, Pydantic.entries v = some es ∧ IsEntry es e) vs r.entries := by
  simp only [← claimModel_eq_ok_iff]
  constructor
  · intro h
    obtain ⟨vs, hvs⟩ := exists_listsClaims h
    exact ⟨vs, hvs, (loadRegister_iff_of_listsClaims hvs).mp h⟩
  · rintro ⟨vs, hvs, hclaims⟩
    exact (loadRegister_iff_of_listsClaims hvs).mpr hclaims

/-- The document with these claims. -/
def documentOf (vs : List V) : V := Values.ofDict [("claims".toList, Values.ofList vs)]

theorem listsClaims_documentOf (vs : List V) : ListsClaims (documentOf vs) vs :=
  .claims (by simp [documentOf]) (Pydantic.entries_ofDict (by simp [Seq.Dict.keys])) (by simp [Seq.Dict.keys]) rfl
    (Pydantic.items_ofList vs)

/-- The document of a register. -/
def EntryRegister.toValue (r : EntryRegister) : V := documentOf (r.entries.map fun e => Values.ofDict e.toDict)

/-- **Every register is loaded from its document.** -/
theorem loadRegister_toValue (r : EntryRegister) : loadRegister (r.toValue : V) = .ok r := by
  rw [EntryRegister.toValue, loadRegister_iff_of_listsClaims (listsClaims_documentOf _), List.forall₂_map_left_iff,
    List.forall₂_same]
  exact fun e _ => claimModel_toDict e

/-- **Claims with different ids are a register; otherwise the error names exactly the ids that occur more than once**,
each of them once and in order. -/
theorem loadRegister_unique_ids {raw : V} {vs : List V} {claims : List Entry} (h : ListsClaims raw vs)
    (hc : List.Forall₂ (fun v e => claimModel v = .ok e) vs claims) :
    ((∃ r, loadRegister raw = .ok r ∧ r.entries = claims) ↔ (claims.map (·.id)).Nodup) ∧
      (¬ (claims.map (·.id)).Nodup → ∃ ids : List Str, ids.Pairwise (· < ·) ∧
        (∀ id, id ∈ ids ↔ 1 < (claims.map (·.id)).count id) ∧ loadRegister raw =
          .error (Pydantic.valueError V ("duplicate claim id(s): ".toList ++ ", ".toList.intercalate ids))) := by
  refine ⟨⟨?_, fun hn => ?_⟩, fun hn => ?_⟩
  · rintro ⟨r, -, rfl⟩
    exact r.unique_ids
  · exact ⟨⟨claims, hn⟩, (loadRegister_iff_of_listsClaims h).mpr hc, rfl⟩
  · obtain ⟨ids, hsorted, hids, herr⟩ := uniqueIds_of_not_nodup hn
    exact ⟨ids, hsorted, hids, by rw [loadRegister_of_listsClaims h hc, herr]; rfl⟩

omit [Pydantic V E] in
/-- The days cannot be listed twice. -/
theorem loadRegister_unique_ids_days : ∃ ids : List Str, (∀ id, id ∈ ids ↔ 1 < [dayEntry.id, dayEntry.id].count id) ∧
    loadRegister (documentOf [.dict dayEntry.toDict, .dict dayEntry.toDict] : Plain) =
      .error (Pydantic.valueError Plain ("duplicate claim id(s): ".toList ++ ", ".toList.intercalate ids)) := by
  have hclaims : List.Forall₂ (fun (v : Plain) e => claimModel v = .ok e) [.dict dayEntry.toDict, .dict dayEntry.toDict]
      [dayEntry, dayEntry] := .cons (claimModel_toDict _) (.cons (claimModel_toDict _) .nil)
  obtain ⟨ids, -, hids, herr⟩ := (loadRegister_unique_ids (listsClaims_documentOf _) hclaims).2 (by simp)
  exact ⟨ids, hids, herr⟩

/-! ## Merged and reordered registers -/

/-- Reordered claims are loaded to the reordered entries. -/
theorem loadRegister_of_perm {raw raw' : V} {vs vs' : List V} (h : ListsClaims raw vs) (h' : ListsClaims raw' vs')
    (hp : vs'.Perm vs) {r : EntryRegister} (hr : loadRegister raw = .ok r) :
    ∃ r', loadRegister raw' = .ok r' ∧ r'.entries.Perm r.entries := by
  obtain ⟨es, hes, hperm⟩ := List.perm_comp_forall₂ hp ((loadRegister_iff_of_listsClaims h).mp hr)
  have hids : (es.map (·.id)).Nodup := (hperm.map _).nodup_iff.mpr r.unique_ids
  exact ⟨⟨es, hids⟩, (loadRegister_iff_of_listsClaims h').mpr hes, hperm⟩

omit [Pydantic V E] in
/-- Of two lists without repetitions, the common elements occur more than once in the concatenation. -/
theorem one_lt_count_append_iff {ids ids' : List Str} (h : ids.Nodup) (h' : ids'.Nodup) {id : Str} :
    1 < (ids ++ ids').count id ↔ id ∈ ids ∧ id ∈ ids' := by
  have hle := List.nodup_iff_count_le_one.mp h id
  have hle' := List.nodup_iff_count_le_one.mp h' id
  rw [List.count_append, ← List.count_pos_iff, ← List.count_pos_iff]
  omega

/-- **Two registers are merged exactly when they share no ids**: the document that lists the claims of both is loaded to
the claims of both, and otherwise the error names exactly the shared ids. -/
theorem loadRegister_merge {raw raw' merged : V} {vs ws : List V} (hv : ListsClaims raw vs) (hw : ListsClaims raw' ws)
    (hm : ListsClaims merged (vs ++ ws)) :
    (∀ r, loadRegister merged = .ok r ↔ ∃ r₁ r₂, loadRegister raw = .ok r₁ ∧ loadRegister raw' = .ok r₂ ∧
        r.entries = r₁.entries ++ r₂.entries) ∧
      ∀ r₁ r₂, loadRegister raw = .ok r₁ → loadRegister raw' = .ok r₂ →
        ¬ (r₁.entries.map (·.id)).Disjoint (r₂.entries.map (·.id)) → ∃ ids : List Str, ids.Pairwise (· < ·) ∧
          (∀ id, id ∈ ids ↔ id ∈ r₁.entries.map (·.id) ∧ id ∈ r₂.entries.map (·.id)) ∧ loadRegister merged =
            .error (Pydantic.valueError V ("duplicate claim id(s): ".toList ++ ", ".toList.intercalate ids)) := by
  refine ⟨fun r => ?_, fun r₁ r₂ h₁ h₂ hd => ?_⟩
  · simp only [loadRegister_iff_of_listsClaims hv, loadRegister_iff_of_listsClaims hw,
      loadRegister_iff_of_listsClaims hm]
    constructor
    · intro h
      have hids : (r.entries.map (·.id)).Nodup := r.unique_ids
      refine ⟨⟨r.entries.take vs.length, hids.sublist ((List.take_sublist _ _).map _)⟩,
        ⟨r.entries.drop vs.length, hids.sublist ((List.drop_sublist _ _).map _)⟩, ?_, ?_, ?_⟩
      · exact (List.forall₂_take_append _ _ _ h.flip).flip
      · exact (List.forall₂_drop_append _ _ _ h.flip).flip
      · exact (List.take_append_drop _ _).symm
    · rintro ⟨r₁, r₂, h₁, h₂, he⟩
      rw [he]
      exact List.rel_append h₁ h₂
  · have hclaims :=
      List.rel_append ((loadRegister_iff_of_listsClaims hv).mp h₁) ((loadRegister_iff_of_listsClaims hw).mp h₂)
    have hn : ¬ ((r₁.entries ++ r₂.entries).map (·.id)).Nodup := by
      rw [List.map_append, List.nodup_append']
      exact fun h => hd h.2.2
    obtain ⟨ids, hsorted, hids, herr⟩ := uniqueIds_of_not_nodup hn
    refine ⟨ids, hsorted, fun id => ?_, by rw [loadRegister_of_listsClaims hm hclaims, herr]; rfl⟩
    rw [hids, List.map_append, one_lt_count_append_iff r₁.unique_ids r₂.unique_ids]

end Models

/-- The documents of days and of months are merged; the days cannot be listed twice. -/
theorem loadRegister_merge_days :
    (∃ r, loadRegister (documentOf [.dict dayEntry.toDict, .dict monthEntry.toDict] : Plain) = .ok r ∧
        r.entries = [dayEntry, monthEntry]) ∧
      ∃ ids : List Str, (∀ id, id ∈ ids ↔ id = "yawm-singular-365".toList) ∧
        loadRegister (documentOf [.dict dayEntry.toDict, .dict dayEntry.toDict] : Plain) =
          .error (Pydantic.valueError Plain ("duplicate claim id(s): ".toList ++ ", ".toList.intercalate ids)) := by
  have hlists : ∀ vs : List Plain, ListsClaims (documentOf vs) vs := listsClaims_documentOf
  have hloads : ∀ e : Entry, loadRegister (documentOf [.dict e.toDict] : Plain) = .ok ⟨[e], List.nodup_singleton _⟩ :=
    fun e => (loadRegister_iff_of_listsClaims (hlists _)).mpr (.cons (claimModel_toDict e) .nil)
  constructor
  · refine ⟨⟨[dayEntry, monthEntry], by decide⟩, ?_, rfl⟩
    exact ((loadRegister_merge (hlists [_]) (hlists [_]) (hlists [_, _])).1 _).mpr
      ⟨_, _, hloads dayEntry, hloads monthEntry, rfl⟩
  · have hshared : ¬ ([dayEntry].map (·.id)).Disjoint ([dayEntry].map (·.id)) := fun h =>
      h (List.mem_singleton.mpr rfl) (List.mem_singleton.mpr rfl)
    obtain ⟨ids, -, hids, herr⟩ := (loadRegister_merge (hlists [_]) (hlists [_]) (hlists [_, _])).2 _ _
      (hloads dayEntry) (hloads dayEntry) hshared
    refine ⟨ids, fun id => ?_, herr⟩
    rw [hids, List.map_singleton, List.mem_singleton, and_self]
    rfl

end QuranAnalysis
