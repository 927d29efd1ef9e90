import QuranAnalysis.Seq.Enum
import QuranAnalysis.Corpus.Model

/-!
# What a loaded corpus says: the mushaf

A `Mushaf` is the text itself: for every sura the token lists of its verses, with no empty list of verses. The corpus
of a mushaf (`Mushaf.corpus`) addresses these tokens and sets the opening basmala of a sura apart.

The loader refines this picture: `Lists records M` says that the records of a file, sura by sura, list the verses of
`M` in order, and then

- a file whose records list `M` loads to the corpus of `M` (`loadCorpus_of_lists`);
- every loaded corpus is the corpus of a mushaf that its records list (`lists_of_loadCorpus`).
-/

namespace QuranAnalysis

open Py

/-- The text of an edition: suras of verses of tokens. -/
structure Mushaf where
  suras : List (List (List Str))
  ne_nil : suras ≠ []
  sura_ne_nil : ∀ vs ∈ suras, vs ≠ []
  isToken : ∀ vs ∈ suras, ∀ v ∈ vs, ∀ t ∈ v, IsToken t

/-! ## The corpus of a mushaf -/

/-- A verse 1 that opens with the basmala `ref`, up to the spelling of the first token, and goes on behind it. -/
def Opens (ref : List Str) (number : Int) (v : List Str) : Prop :=
  (number ≠ 1 ∧ number ≠ 9) ∧ ref.length < v.length ∧ (v.take ref.length).drop 1 = ref.drop 1

instance (ref : List Str) (number : Int) (v : List Str) : Decidable (Opens ref number v) :=
  inferInstanceAs (Decidable (_ ∧ _))

/-- The opening basmala that is set apart from the verses of a sura. -/
def opening (ref : List Str) (number : Int) (vs : List (List Str)) : Option (List Str) :=
  if Opens ref number (vs.headD []) then some ((vs.headD []).take ref.length) else none

/-- The verses of a sura without an opening basmala that is set apart. -/
def bodies (ref : List Str) (number : Int) (vs : List (List Str)) : List (List Str) :=
  if Opens ref number (vs.headD []) then (vs.headD []).drop ref.length :: vs.tail else vs

/-- The verses as ayas, numbered from 1. -/
def ayasOf (number : Int) (vs : List (List Str)) : List Aya :=
  vs.mapIdx fun a v => ⟨number, (a : Int) + 1, enumWords number ((a : Int) + 1) v⟩

/-- The sura with these verses. -/
def suraOf (ref : List Str) (number : Int) (vs : List (List Str)) : Sura :=
  ⟨number, ayasOf number (bodies ref number vs), (opening ref number vs).map (enumWords number basmalaAya)⟩

namespace Mushaf

/-- The basmala: verse 1 of sura 1. -/
def basmala (M : Mushaf) : List Str := (M.suras.headD []).headD []

/-- The first sura opens with the basmala. -/
theorem exists_first (M : Mushaf) : ∃ vs suras, M.suras = (M.basmala :: vs) :: suras := by
  obtain ⟨vs, suras, hM⟩ := List.exists_cons_of_ne_nil M.ne_nil
  obtain ⟨v, vs, rfl⟩ := List.exists_cons_of_ne_nil (M.sura_ne_nil vs (by simp [hM]))
  exact ⟨vs, suras, by simp [basmala, hM]⟩

theorem isToken_basmala (M : Mushaf) : ∀ t ∈ M.basmala, IsToken t := by
  obtain ⟨vs, suras, hM⟩ := M.exists_first
  exact M.isToken _ (by rw [hM]; exact List.mem_cons_self) _ List.mem_cons_self

/-- The mushaf as a corpus. -/
def corpus (M : Mushaf) (edition : Str) : Corpus :=
  ⟨edition, M.suras.mapIdx fun n vs => suraOf M.basmala ((n : Int) + 1) vs⟩

end Mushaf

/-! ## Small facts about the parts of a sura -/

@[simp] theorem map_text_enumWords (s a : Int) (ts : List Str) : (enumWords s a ts).map (·.text) = ts := by
  apply List.ext_getElem?
  intro i
  simp [enumWords, List.getElem?_mapIdx]
  cases ts[i]? <;> rfl

@[simp] theorem length_enumWords (s a : Int) (ts : List Str) : (enumWords s a ts).length = ts.length := by
  simp [enumWords]

/-- The words of an aya carry its address. -/
theorem address_of_mem_enumWords {s a : Int} {ts : List Str} {w : Word} (h : w ∈ enumWords s a ts) :
    w.sura = s ∧ w.aya = a ∧ (enumWords s a ts)[w.position]? = some w := by
  obtain ⟨i, hi, rfl⟩ := List.mem_iff_getElem.mp h
  refine ⟨by simp [enumWords], by simp [enumWords], ?_⟩
  have hp : ((enumWords s a ts)[i]).position = i := by simp [enumWords]
  rw [hp, List.getElem?_eq_getElem hi]

@[simp] theorem length_ayasOf (n : Int) (vs : List (List Str)) : (ayasOf n vs).length = vs.length := by
  simp [ayasOf]

theorem getElem?_ayasOf (n : Int) (vs : List (List Str)) (a : Nat) :
    (ayasOf n vs)[a]? = vs[a]?.map fun v => ⟨n, (a : Int) + 1, enumWords n ((a : Int) + 1) v⟩ := by
  simp [ayasOf, List.getElem?_mapIdx]

@[simp] theorem length_bodies (ref : List Str) (n : Int) (vs : List (List Str)) :
    (bodies ref n vs).length = vs.length := by
  cases vs with
  | nil => simp [bodies, Opens]
  | cons v vs =>
    rw [bodies]
    split <;> rfl

/-- A verse stays as it is, or it is verse 1 and its opening is set apart. -/
theorem getElem?_bodies (ref : List Str) (n : Int) {vs : List (List Str)} {a : Nat} {v : List Str}
    (hv : vs[a]? = some v) :
    (bodies ref n vs)[a]? = some v ∧ (a = 0 → opening ref n vs = none) ∨
      a = 0 ∧ Opens ref n v ∧ opening ref n vs = some (v.take ref.length) ∧
        (bodies ref n vs)[a]? = some (v.drop ref.length) := by
  cases vs with
  | nil => cases hv
  | cons u vs =>
    by_cases ho : Opens ref n u
    · cases a with
      | zero =>
        obtain rfl : u = v := by simpa using hv
        exact Or.inr ⟨rfl, ho, by simp [opening, ho], by simp [bodies, ho]⟩
      | succ a => exact Or.inl ⟨by simpa [bodies, ho] using hv, by simp⟩
    · exact Or.inl ⟨by simpa [bodies, ho] using hv, fun _ => by simp [opening, ho]⟩

/-- Set apart or not, the tokens of a sura are those of its verses. -/
theorem opening_append_bodies (ref : List Str) (n : Int) (vs : List (List Str)) :
    (opening ref n vs).getD [] ++ (bodies ref n vs).flatten = vs.flatten := by
  cases vs with
  | nil => simp [opening, bodies, Opens]
  | cons v vs =>
    rw [opening, bodies]
    split <;> simp [← List.append_assoc]

theorem map_number_ayasOf (n : Int) (vs : List (List Str)) : (ayasOf n vs).map (·.number) = oneTo vs.length := by
  rw [ayasOf, Seq.map_mapIdx, ← mapIdx_eq_oneTo]

/-! ## Records that list a mushaf -/

/-- Sura by sura, the records list the verses of the mushaf in order; the suras first appear in order. -/
structure Lists (records : List Record) (M : Mushaf) : Prop where
  order : (records.map (·.sura)).eraseDups = oneTo M.suras.length
  rows : ∀ (n : Nat) vs, M.suras[n]? = some vs →
    (records.filter (fun r => r.sura = (n : Int) + 1)).map (fun r => (r.aya, split r.text)) =
      vs.mapIdx fun a v => ((a : Int) + 1, v)

/-- The suras first appear as `1..N` with `N ≥ 1`, and in each the ayas are listed as `1..k`. -/
structure Numbered (records : List Record) : Prop where
  order : ∃ N, 1 ≤ N ∧ (records.map (·.sura)).eraseDups = oneTo N
  rows : ∀ s ∈ records.map (·.sura), ∃ k, (records.filter (fun r => r.sura = s)).map (·.aya) = oneTo k

namespace Lists

variable {records : List Record} {M : Mushaf}

/-- The sura numbers of the records are those of the mushaf. -/
theorem mem_sura_iff (h : Lists records M) {s : Int} :
    s ∈ records.map (·.sura) ↔ 1 ≤ s ∧ s ≤ M.suras.length := by
  rw [← List.mem_eraseDups, h.order, mem_oneTo]

/-- A record is a verse of the mushaf. -/
theorem verse_of_mem (h : Lists records M) {r : Record} (hr : r ∈ records) :
    ∃ (n a : Nat) (vs : _), M.suras[n]? = some vs ∧ vs[a]? = some (split r.text) ∧
      r.sura = (n : Int) + 1 ∧ r.aya = (a : Int) + 1 := by
  have hs := h.mem_sura_iff.mp (List.mem_map_of_mem (f := (·.sura)) hr)
  obtain ⟨n, hn⟩ : ∃ n : Nat, r.sura = (n : Int) + 1 := ⟨r.sura.toNat - 1, by omega⟩
  have hlt : n < M.suras.length := by omega
  refine ⟨n, ?_⟩
  have hm : (r.aya, split r.text) ∈
      (records.filter (fun r => r.sura = (n : Int) + 1)).map (fun r => (r.aya, split r.text)) :=
    List.mem_map.mpr ⟨r, List.mem_filter.mpr ⟨hr, by simpa using hn⟩, rfl⟩
  rw [h.rows n _ (List.getElem?_eq_getElem hlt), List.mem_mapIdx] at hm
  obtain ⟨a, ha, he⟩ := hm
  obtain ⟨h1, h2⟩ := Prod.mk.inj he
  exact ⟨a, _, List.getElem?_eq_getElem hlt, by rw [List.getElem?_eq_getElem ha, h2], hn, h1.symm⟩

/-- The records of sura `n + 1` are numbered `1..k`. -/
theorem map_aya (h : Lists records M) {n : Nat} {vs : List (List Str)} (hv : M.suras[n]? = some vs) :
    (records.filter (fun r => r.sura = (n : Int) + 1)).map (·.aya) = oneTo vs.length := by
  have := congrArg (List.map Prod.fst) (h.rows n vs hv)
  rw [List.map_map, Seq.map_mapIdx] at this
  rw [← mapIdx_eq_oneTo]
  exact this

/-- The keys of the records, by position in the mushaf. -/
theorem exists_record_iff (h : Lists records M) {s a : Int} :
    (∃ r ∈ records, r.sura = s ∧ r.aya = a) ↔
      ∃ (n : Nat) (vs : List (List Str)), M.suras[n]? = some vs ∧ s = (n : Int) + 1 ∧ 1 ≤ a ∧ a ≤ vs.length := by
  constructor
  · rintro ⟨r, hr, rfl, rfl⟩
    obtain ⟨n, i, vs, hv, hi, hs, ha⟩ := h.verse_of_mem hr
    obtain ⟨hlt, -⟩ := List.getElem?_eq_some_iff.mp hi
    exact ⟨n, vs, hv, hs, by omega, by omega⟩
  · rintro ⟨n, vs, hv, rfl, h1, h2⟩
    have hm : a ∈ (records.filter (fun r => r.sura = (n : Int) + 1)).map (·.aya) := by
      rw [h.map_aya hv, mem_oneTo]; exact ⟨h1, h2⟩
    obtain ⟨r, hr, rfl⟩ := List.mem_map.mp hm
    obtain ⟨hr, hs⟩ := List.mem_filter.mp hr
    exact ⟨r, hr, by simpa using hs, rfl⟩

end Lists

/-- The verses of the records, sura by sura. -/
def versesOf (records : List Record) : List (List (List Str)) :=
  (records.map (·.sura)).eraseDups.map fun s => (records.filter (fun r => r.sura = s)).map fun r => split r.text

/-- Rows that are numbered from 1 are numbered by their positions. -/
theorem map_row_of_map_aya {rows : List Record} {k : Nat} (h : rows.map (·.aya) = oneTo k) :
    rows.map (fun r => (r.aya, split r.text)) =
      (rows.map fun r => split r.text).mapIdx fun a v => ((a : Int) + 1, v) := by
  apply List.ext_getElem?
  intro a
  have ha := congrArg (·[a]?) h
  simp only [List.getElem?_map, getElem?_oneTo] at ha
  simp only [List.getElem?_mapIdx, List.getElem?_map]
  cases hr : rows[a]? with
  | none => rfl
  | some r =>
    rw [hr] at ha
    split at ha
    · simp only [Option.map_some, Option.some.injEq] at ha
      simp [ha]
    · cases ha

/-- Numbered records list a mushaf: their own verses. -/
theorem Numbered.exists_lists {records : List Record} (h : Numbered records) : ∃ M : Mushaf, Lists records M := by
  obtain ⟨⟨N, hN, ho⟩, hrows⟩ := h
  have hne : versesOf records ≠ [] := by
    have h0 : oneTo N ≠ [] := by
      rw [← List.length_pos_iff, length_oneTo]; omega
    simpa [versesOf, ho] using h0
  refine ⟨⟨versesOf records, hne, ?sura_ne_nil, ?isToken⟩, ?order, ?rows⟩
  case sura_ne_nil =>
    intro vs hvs
    obtain ⟨s, hs, rfl⟩ := List.mem_map.mp hvs
    obtain ⟨r, hr, rfl⟩ := List.mem_map.mp (List.mem_eraseDups.mp hs)
    exact List.ne_nil_of_mem (List.mem_map.mpr ⟨r, List.mem_filter.mpr ⟨hr, by simp⟩, rfl⟩)
  case isToken =>
    intro vs hvs v hv t ht
    obtain ⟨s, _, rfl⟩ := List.mem_map.mp hvs
    obtain ⟨r, _, rfl⟩ := List.mem_map.mp hv
    exact isToken_of_mem_split ht
  case order => simp [versesOf, ho]
  case rows =>
    intro n vs hv
    simp only [versesOf, ho, List.getElem?_map, Option.map_eq_some_iff] at hv
    obtain ⟨s, hs, rfl⟩ := hv
    have hmem : s ∈ records.map (·.sura) := by
      rw [← List.mem_eraseDups, ho]
      exact List.mem_of_getElem? hs
    rw [getElem?_oneTo] at hs
    split at hs
    · obtain rfl := Option.some.inj hs
      obtain ⟨k, hk⟩ := hrows _ hmem
      exact map_row_of_map_aya hk
    · cases hs

end QuranAnalysis
