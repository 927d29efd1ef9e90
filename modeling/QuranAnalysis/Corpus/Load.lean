import QuranAnalysis.Corpus.Mushaf

/-!
# The loader refines the mushaf

One specification for each function of the loader, and then the loader against the mushaf:

- `buildSura_eq_suraOf`: rows that list the verses of a sura build the sura with these verses;
- `validate_eq_ok_iff`: validation accepts exactly contiguous numbers;
- `loadCorpus_eq_ok_iff`: what it takes to load, step by step;
- `loadCorpus_of_lists`, `lists_of_loadCorpus`: records that list a mushaf load to its corpus, and every loaded corpus
  comes about in this way;
- `onlyValueError_loadCorpus`: a load that does not return raises `ValueError`.
-/

namespace QuranAnalysis

open Py

/-! ## Building a sura -/

/-- The aya of a row that is not split. -/
def ayaOfRow (number : Int) (r : Record) : Aya := ⟨r.sura, r.aya, enumWords number r.aya (split r.text)⟩

/-- Rows other than verse 1 only append their ayas. -/
theorem foldl_buildRow (number : Int) (ref : List Str) : ∀ (rows : List Record) (st : Option (List Word) × List Aya),
    (∀ r ∈ rows, r.aya ≠ 1) → rows.foldl (buildRow number ref) st = (st.1, st.2 ++ rows.map (ayaOfRow number))
  | [], st, _ => by simp
  | r :: rows, st, h => by
    have hr : r.aya ≠ 1 := h r (by simp)
    have hstep : buildRow number ref st r = (st.1, st.2 ++ [ayaOfRow number r]) := by
      simp [buildRow, hr, ayaOfRow]
    rw [List.foldl_cons, hstep, foldl_buildRow number ref rows _ fun q hq => h q (List.mem_cons_of_mem _ hq)]
    simp

/-- Whatever is split, every row gives one aya with its number. -/
theorem map_number_foldl_buildRow (number : Int) (ref : List Str) :
    ∀ (rows : List Record) (st : Option (List Word) × List Aya),
      (rows.foldl (buildRow number ref) st).2.map (·.number) = st.2.map (·.number) ++ rows.map (·.aya)
  | [], st => by simp
  | r :: rows, st => by
    have hstep : (buildRow number ref st r).2.map (·.number) = st.2.map (·.number) ++ [r.aya] := by
      rw [buildRow]
      split <;> simp
    rw [List.foldl_cons, map_number_foldl_buildRow number ref rows, hstep]
    simp

theorem map_number_buildSura (number : Int) (rows : List Record) (ref : Str) :
    (buildSura number rows ref).ayas.map (·.number) = rows.map (·.aya) := by
  simpa [buildSura] using map_number_foldl_buildRow number (split ref) rows (none, [])

/-- The first row of a sura, with number 1. -/
theorem buildRow_first (number : Int) (ref : List Str) {r : Record} (hs : r.sura = number) (ha : r.aya = 1) :
    buildRow number ref (none, []) r =
      ((opening ref number [split r.text]).map (enumWords number basmalaAya),
        ayasOf number (bodies ref number [split r.text])) := by
  by_cases ho : Opens ref number (split r.text)
  · have hc := ho
    rw [Opens] at hc
    rw [buildRow, if_pos ⟨ha, hc⟩]
    simp [opening, bodies, ho, ayasOf, hs, ha]
  · have hc := ho
    rw [Opens] at hc
    rw [buildRow, if_neg fun h => hc h.2]
    simp [opening, bodies, ho, ayasOf, hs, ha]

/-- Rows that list the verses `vs` build the sura with these verses. -/
theorem buildSura_eq_suraOf {number : Int} {rows : List Record} {vs : List (List Str)} (ref : Str) (hne : vs ≠ [])
    (hs : ∀ r ∈ rows, r.sura = number)
    (hrows : rows.map (fun r => (r.aya, split r.text)) = vs.mapIdx fun a v => ((a : Int) + 1, v)) :
    buildSura number rows ref = suraOf (split ref) number vs := by
  match rows, vs, hne, hrows with
  | [], v :: vs, _, hrows => simp at hrows
  | r :: rows, v :: vs, _, hrows =>
    rw [List.map_cons, List.mapIdx_cons, List.cons.injEq, Prod.mk.injEq] at hrows
    obtain ⟨⟨ha, hv⟩, htail⟩ := hrows
    have ha : r.aya = 1 := by simpa using ha
    have hne1 : ∀ q ∈ rows, q.aya ≠ 1 := by
      intro q hq
      have hm : (q.aya, split q.text) ∈ rows.map (fun r => (r.aya, split r.text)) := List.mem_map_of_mem hq
      rw [htail, Seq.mem_mapIdx_iff] at hm
      obtain ⟨i, _, _, he⟩ := hm
      have := (Prod.mk.inj he).1
      push_cast at this
      omega
    -- the rows behind verse 1 are its successors, unsplit
    have hrest : rows.map (ayaOfRow number) =
        vs.mapIdx fun a v => ⟨number, ((a + 1 : Nat) : Int) + 1, enumWords number (((a + 1 : Nat) : Int) + 1) v⟩ := by
      have := congrArg (List.map fun p : Int × List Str => (⟨number, p.1, enumWords number p.1 p.2⟩ : Aya)) htail
      rw [List.map_map, Seq.map_mapIdx] at this
      rw [← this]
      refine List.map_congr_left fun q hq => ?_
      simp [ayaOfRow, hs q (List.mem_cons_of_mem _ hq)]
    rw [buildSura, List.foldl_cons, buildRow_first number (split ref) (hs r (by simp)) ha, foldl_buildRow _ _ _ _ hne1,
      hrest, hv, suraOf]
    by_cases ho : Opens (split ref) number v <;>
      simp [opening, bodies, ho, ayasOf, List.mapIdx_cons]

/-! ## Validation -/

theorem validateSura_eq_ok_iff {s : Sura} {u : Unit} :
    validateSura s = .ok u ↔ s.ayas.map (·.number) = oneTo s.ayas.length := by
  rw [validateSura]
  split
  · next h => simpa using h
  · next h => simpa using h

/-- Validation accepts exactly suras numbered `1..N` with ayas numbered `1..k`. -/
theorem validate_eq_ok_iff {suras : List Sura} :
    validate suras = .ok () ↔
      suras.map (·.number) = oneTo suras.length ∧ ∀ s ∈ suras, s.ayas.map (·.number) = oneTo s.ayas.length := by
  rw [validate]
  split
  · next hn => simp [hn]
  · next hn =>
    rw [bind_eq_ok_iff]
    refine ⟨fun ⟨us, hus, _⟩ => ⟨by simpa using hn, fun s hs => ?_⟩, fun h => ?_⟩
    · obtain ⟨u, hu⟩ := exists_of_mapM_eq_ok hus hs
      exact validateSura_eq_ok_iff.mp hu
    · exact ⟨_, mapM_eq_ok_map (g := fun _ => ()) fun s hs => validateSura_eq_ok_iff.mpr (h.2 s hs), rfl⟩

theorem onlyValueError_validate (suras : List Sura) : OnlyValueError (validate suras) := by
  rw [validate]
  split
  · exact .valueError _
  · refine (OnlyValueError.mapM fun s _ => ?_).bind fun _ _ => .ok _
    rw [validateSura]
    split
    · exact .valueError _
    · exact .ok _

/-! ## Reading records -/

theorem onlyValueError_parseLines [Interpreter] (raw : Str) : OnlyValueError (parseLines raw) := by
  refine (OnlyValueError.mapM fun line _ => ?_).bind fun _ _ => .ok _
  rw [parseLine]
  split
  · exact .ok _
  · split
    · exact (onlyValueError_int _).bind fun _ _ => (onlyValueError_int _).bind fun _ _ => .ok _
    · exact .valueError _

/-! ## Loading -/

/-- What the loader builds from its records. -/
def builtSuras (records : List Record) (ref : Str) : List Sura :=
  (records.map (·.sura)).eraseDups.map fun n => buildSura n (records.filter (fun r => r.sura = n)) ref

/-- The grouped rows of every noted sura are there, so the loop over the suras returns. -/
theorem mapM_order (records : List Record) (ref : Str) :
    ((Seq.group Record.sura records).2.mapM fun n => do
      let rows ← getRows (Seq.group Record.sura records).1 n
      .ok (buildSura n rows ref)) = (.ok (builtSuras records ref) : Result (List Sura)) := by
  rw [Seq.group_order]
  refine mapM_eq_ok_map fun n hn => ?_
  rw [getRows, Seq.lookup_group, if_pos (List.mem_eraseDups.mp hn)]
  rfl

/-- What it takes to load: a known edition, readable lines, a verse 1:1 and valid numbering. -/
theorem loadCorpus_eq_ok_iff [Interpreter] {edition raw : Str} {c : Corpus} :
    loadCorpus edition raw = .ok c ↔
      (editionFiles.lookup edition).isSome ∧ ∃ records ref, parseLines raw = .ok records ∧
        records.find? (fun r => r.sura = 1 ∧ r.aya = 1) = some ref ∧
        validate (builtSuras records ref.text) = .ok () ∧ c = ⟨edition, builtSuras records ref.text⟩ := by
  rw [loadCorpus]
  cases hed : editionFiles.lookup edition with
  | none => simp
  | some f =>
    simp only [Option.isSome_some, true_and, bind_eq_ok_iff]
    refine exists_congr fun records => ?_
    cases href : records.find? (fun r => r.sura = 1 ∧ r.aya = 1) with
    | none => simp
    | some ref =>
      simp only [mapM_order, bind_eq_ok_iff, Except.ok.injEq, exists_eq_left', Option.some.injEq]
      constructor
      · rintro ⟨h1, u, h2, rfl⟩
        exact ⟨ref, h1, rfl, h2, rfl⟩
      · rintro ⟨_, h1, rfl, h2, rfl⟩
        exact ⟨h1, (), h2, rfl⟩

/-- Loading raises nothing but `ValueError`. -/
theorem onlyValueError_loadCorpus [Interpreter] (edition raw : Str) : OnlyValueError (loadCorpus edition raw) := by
  rw [loadCorpus]
  split
  · exact .valueError _
  · refine (onlyValueError_parseLines raw).bind fun records _ => ?_
    split
    · exact .valueError _
    · simp only [mapM_order]
      exact (OnlyValueError.ok _).bind fun _ _ => (onlyValueError_validate _).bind fun _ _ => .ok _

/-- The first record of 1:1 holds the basmala of the mushaf. -/
theorem find?_ref {records : List Record} {M : Mushaf} (h : Lists records M) :
    ∃ ref, records.find? (fun r => r.sura = 1 ∧ r.aya = 1) = some ref ∧ split ref.text = M.basmala := by
  obtain ⟨vs, suras, hM⟩ := M.exists_first
  have hrows : (records.filter (fun r => r.sura = 1)).map (fun r => (r.aya, split r.text)) = _ :=
    h.rows 0 (M.basmala :: vs) (by simp [hM])
  rw [List.mapIdx_cons] at hrows
  have hfind : records.find? (fun r => r.sura = 1 ∧ r.aya = 1) =
      (records.filter (fun r => r.sura = 1)).find? (fun r => r.aya = 1) := by
    rw [List.find?_filter]
    simp only [Bool.decide_and, Bool.decide_eq_true]
  match hf : records.filter (fun r => r.sura = 1) with
  | [] => rw [hf] at hrows; cases hrows
  | r :: rows =>
    rw [hf, List.map_cons, List.cons.injEq, Prod.mk.injEq] at hrows
    obtain ⟨⟨ha, hv⟩, -⟩ := hrows
    exact ⟨r, by rw [hfind, hf, List.find?_cons_of_pos (by simpa using ha)], hv⟩

/-- Records that list a mushaf build its suras. -/
theorem builtSuras_of_lists {records : List Record} {M : Mushaf} (h : Lists records M) {ref : Str}
    (href : split ref = M.basmala) : builtSuras records ref = (M.corpus []).suras := by
  rw [builtSuras, h.order]
  apply List.ext_getElem?
  intro n
  rw [List.getElem?_map, getElem?_oneTo, Mushaf.corpus, List.getElem?_mapIdx]
  cases hv : M.suras[n]? with
  | none => rw [if_neg (by simpa using hv)]; rfl
  | some vs =>
    obtain ⟨hn, -⟩ := List.getElem?_eq_some_iff.mp hv
    rw [if_pos hn, Option.map_some, Option.map_some, ← href]
    congr 1
    refine buildSura_eq_suraOf ref (M.sura_ne_nil vs (List.mem_of_getElem? hv)) (fun r hr => ?_) (h.rows n vs hv)
    simpa using (List.mem_filter.mp hr).2

theorem validate_corpus (M : Mushaf) (edition : Str) : validate (M.corpus edition).suras = .ok () := by
  rw [validate_eq_ok_iff, Mushaf.corpus]
  refine ⟨?_, fun s hs => ?_⟩
  · rw [Seq.map_mapIdx, List.length_mapIdx]
    exact mapIdx_eq_oneTo _
  · obtain ⟨n, vs, _, rfl⟩ := Seq.mem_mapIdx_iff.mp hs
    rw [suraOf, map_number_ayasOf, length_ayasOf]

/-- **Records that list a mushaf load to its corpus.** -/
theorem loadCorpus_of_lists [Interpreter] {edition raw : Str} {records : List Record} {M : Mushaf}
    (hed : (editionFiles.lookup edition).isSome) (hp : parseLines raw = .ok records) (h : Lists records M) :
    loadCorpus edition raw = .ok (M.corpus edition) := by
  obtain ⟨ref, hfind, href⟩ := find?_ref h
  have hb := builtSuras_of_lists h href
  refine loadCorpus_eq_ok_iff.mpr ⟨hed, records, ref, hp, hfind, ?_, ?_⟩
  · rw [hb]; exact validate_corpus M []
  · rw [hb]; rfl

/-- The records of a loaded corpus are numbered. -/
theorem numbered_of_loadCorpus [Interpreter] {edition raw : Str} {c : Corpus} (h : loadCorpus edition raw = .ok c) :
    ∃ records, parseLines raw = .ok records ∧ Numbered records := by
  obtain ⟨-, records, ref, hp, hfind, hval, -⟩ := loadCorpus_eq_ok_iff.mp h
  obtain ⟨hnum, hayas⟩ := validate_eq_ok_iff.mp hval
  have hmem : ref ∈ records := List.mem_of_find?_eq_some hfind
  have hN : (records.map (·.sura)).eraseDups ≠ [] :=
    List.ne_nil_of_mem (List.mem_eraseDups.mpr (List.mem_map_of_mem hmem))
  refine ⟨records, hp, ⟨_, List.length_pos_iff.mpr hN, ?_⟩, fun s hs => ?_⟩
  · rw [builtSuras, List.map_map, List.length_map] at hnum
    rw [← hnum]
    exact (List.map_id _).symm
  · have hs' := hayas _ (List.mem_map.mpr ⟨s, List.mem_eraseDups.mpr hs, rfl⟩)
    rw [map_number_buildSura] at hs'
    exact ⟨_, hs'⟩

/-- **Every loaded corpus is the corpus of a mushaf that its records list.** -/
theorem lists_of_loadCorpus [Interpreter] {edition raw : Str} {c : Corpus} (h : loadCorpus edition raw = .ok c) :
    ∃ records M, parseLines raw = .ok records ∧ Lists records M ∧ c = M.corpus edition := by
  obtain ⟨records, hp, hn⟩ := numbered_of_loadCorpus h
  obtain ⟨M, hM⟩ := hn.exists_lists
  have hload := loadCorpus_of_lists (loadCorpus_eq_ok_iff.mp h).1 hp hM
  rw [h] at hload
  exact ⟨records, M, hp, hM, Except.ok.inj hload⟩

/-! ## A small file -/

/-- The lines of the suras are interleaved, and sura 2 opens with the basmala. -/
def sampleText : Str := "# sample\n1|1|bismi allahi\n2|1|bi-smi allahi alif\n1|2|al|hamdu\n\n2|2|dhalika\n".toList

/-- The corpus of the small file. -/
def sampleCorpus : Corpus :=
  ⟨"uthmani".toList,
    [⟨1, [⟨1, 1, enumWords 1 1 ["bismi".toList, "allahi".toList]⟩, ⟨1, 2, enumWords 1 2 ["al|hamdu".toList]⟩], none⟩,
      ⟨2, [⟨2, 1, enumWords 2 1 ["alif".toList]⟩, ⟨2, 2, enumWords 2 2 ["dhalika".toList]⟩],
        some (enumWords 2 basmalaAya ["bi-smi".toList, "allahi".toList])⟩]⟩

theorem loadUthmani_sample : @loadUthmani defaultInterpreter sampleText = .ok sampleCorpus := by
  decide

end QuranAnalysis
