import QuranAnalysis.Corpus.Grammar

/-!
# Export and reload

A corpus is written as one line `sura|aya|text` per aya, the opening basmala back in front of verse 1.

- `exportRecord_spec`: the line of a record is a data line that is read as the record.
- `lists_exportRecords`: the records of the corpus of a mushaf list the mushaf.
- `loadCorpus_export`: the lines of a loaded corpus, with skipped lines anywhere between, load to the same corpus.
-/

namespace QuranAnalysis

open Py

/-! ## Writing a corpus -/

/-- The words that an aya's line shows: the separated basmala in front of verse 1. -/
def exportWords (su : Sura) (ay : Aya) : List Word :=
  (if ay.number = 1 then su.separatedBasmala.getD [] else []) ++ ay.words

/-- The records of the ayas of a corpus, in order. -/
def exportRecords (c : Corpus) : List Record :=
  c.suras.flatMap fun su => su.ayas.map fun ay => ⟨ay.sura, ay.number, join ((exportWords su ay).map (·.text))⟩

/-- The line `sura|aya|text`. -/
def exportRecord [Interpreter] (r : Record) : Result Str := do
  let sura ← str r.sura
  let aya ← str r.aya
  .ok (sura ++ '|' :: (aya ++ '|' :: r.text))

/-- The lines of a corpus. -/
def exportLines [Interpreter] (c : Corpus) : Result (List Str) := (exportRecords c).mapM exportRecord

/-! ## A line of the export -/

section Lines

variable [Interpreter]

/-- A record of tokens is written as a data line without line breaks, and read back. -/
theorem exportRecord_spec {s a : Int} {ts : List Str} (hts : ∀ t ∈ ts, IsToken t) {line : Str}
    (h : exportRecord ⟨s, a, join ts⟩ = .ok line) :
    IsData line ∧ NoBreak line ∧ parseLine line = .ok (some ⟨s, a, join ts⟩) := by
  simp only [exportRecord, bind_eq_ok_iff, Except.ok.injEq] at h
  obtain ⟨f, hf, g, hg, rfl⟩ := h
  have hd : IsData (f ++ '|' :: (g ++ '|' :: join ts)) := by
    obtain ⟨hne, hdec⟩ := isDecimal_of_str hf
    obtain ⟨x, f, rfl⟩ := List.exists_cons_of_ne_nil hne
    have hx := hdec x (by simp)
    refine isData_iff_head?.mpr ⟨x, Seq.head?_trim (not_isSpace_of_isDecimal hx), ?_⟩
    rcases hx with hx | rfl
    · rintro rfl; cases hx
    · decide
  refine ⟨hd, ?_, ?_⟩
  · exact (noBreak_str hf).append (NoBreak.cons (by decide)
      ((noBreak_str hg).append (NoBreak.cons (by decide) (noBreak_join hts))))
  · exact (parseLine_of_bars_eq_some (notMem_of_str hf (by decide)) (notMem_of_str hg (by decide)) hd).mpr
      ⟨int_str hf, int_str hg, (strip_join hts).symm⟩

/-- The record of an aya that was read can be written. -/
theorem exists_exportRecord {raw : Str} {records : List Record} (hp : parseLines raw = .ok records) {r q : Record}
    (hr : r ∈ records) (hs : q.sura = r.sura) (ha : q.aya = r.aya) : ∃ line, exportRecord q = .ok line := by
  obtain ⟨⟨t, ht⟩, u, hu⟩ := exists_str_of_mem hp hr
  exact ⟨_, by rw [exportRecord, hs, ha, ht, hu]; rfl⟩

end Lines

/-! ## The records of a corpus -/

/-- The records of sura `n + 1` with the verses `vs`. -/
def suraRecords (n : Nat) (vs : List (List Str)) : List Record :=
  vs.mapIdx fun a v => ⟨(n : Int) + 1, (a : Int) + 1, join v⟩

/-- Back in front of verse 1, the opening restores the verses. -/
theorem exportRecords_corpus (M : Mushaf) (edition : Str) :
    exportRecords (M.corpus edition) = (M.suras.mapIdx suraRecords).flatten := by
  rw [exportRecords, Mushaf.corpus, List.flatMap_def, Seq.map_mapIdx]
  congr 2
  funext n vs
  apply List.ext_getElem?
  intro a
  rw [suraOf, List.getElem?_map, getElem?_ayasOf, suraRecords, List.getElem?_mapIdx]
  cases hv : vs[a]? with
  | none =>
    have hb : (bodies M.basmala ((n : Int) + 1) vs)[a]? = none := by
      rw [List.getElem?_eq_none_iff, length_bodies]
      exact List.getElem?_eq_none_iff.mp hv
    rw [hb]; rfl
  | some v =>
    rcases getElem?_bodies M.basmala ((n : Int) + 1) hv with ⟨hb, ho⟩ | ⟨rfl, -, ho, hb⟩
    · rw [hb]
      by_cases ha : a = 0
      · simp [exportWords, ho ha]
      · have ha : (a : Int) + 1 ≠ 1 := by omega
        simp [exportWords, ha]
    · rw [hb]
      simp [exportWords, ho]

/-- The records of the suras are blocks with the numbers of the suras. -/
theorem areBlocks_suraRecords (M : Mushaf) :
    Seq.AreBlocks Record.sura (fun i => (i : Int) + 1) (M.suras.mapIdx suraRecords) := by
  intro n b hb
  rw [List.getElem?_mapIdx] at hb
  obtain ⟨vs, hv, rfl⟩ := Option.map_eq_some_iff.mp hb
  have hne := M.sura_ne_nil vs (List.mem_of_getElem? hv)
  refine ⟨by simpa [suraRecords] using hne, fun r hr => ?_⟩
  obtain ⟨a, v, _, rfl⟩ := Seq.mem_mapIdx_iff.mp hr
  rfl

/-- **The exported records list the mushaf.** -/
theorem lists_exportRecords (M : Mushaf) (edition : Str) : Lists (exportRecords (M.corpus edition)) M := by
  have hinj : Function.Injective fun i : Nat => (i : Int) + 1 := fun i j h => Int.ofNat_inj.mp (by simpa using h)
  rw [exportRecords_corpus]
  refine ⟨?_, fun n vs hv => ?_⟩
  · rw [(areBlocks_suraRecords M).eraseDups_eq hinj, List.length_mapIdx]
    rfl
  · rw [(areBlocks_suraRecords M).filter_eq hinj (n := n) (b := suraRecords n vs)
      (by rw [List.getElem?_mapIdx, hv]; rfl), suraRecords, Seq.map_mapIdx]
    apply List.ext_getElem?
    intro a
    rw [List.getElem?_mapIdx, List.getElem?_mapIdx]
    cases ha : vs[a]? with
    | none => rfl
    | some v =>
      have hv' : ∀ t ∈ v, IsToken t := M.isToken vs (List.mem_of_getElem? hv) v (List.mem_of_getElem? ha)
      simp [split_join hv']

/-- An exported record is written from tokens, and its numbers are those of a record of the file. -/
theorem mem_exportRecords {records : List Record} {M : Mushaf} (h : Lists records M) {edition : Str} {q : Record}
    (hq : q ∈ exportRecords (M.corpus edition)) :
    (∃ ts, (∀ t ∈ ts, IsToken t) ∧ q.text = join ts) ∧ ∃ r ∈ records, q.sura = r.sura ∧ q.aya = r.aya := by
  have hL := lists_exportRecords M edition
  constructor
  · rw [exportRecords_corpus] at hq
    obtain ⟨b, hb, hq⟩ := List.mem_flatten.mp hq
    obtain ⟨n, vs, hv, rfl⟩ := Seq.mem_mapIdx_iff.mp hb
    obtain ⟨a, v, ha, rfl⟩ := Seq.mem_mapIdx_iff.mp hq
    exact ⟨v, M.isToken vs (List.mem_of_getElem? hv) v (List.mem_of_getElem? ha), rfl⟩
  · obtain ⟨r, hr, hs, ha⟩ := h.exists_record_iff.mpr (hL.exists_record_iff.mp ⟨q, hq, rfl, rfl⟩)
    exact ⟨r, hr, hs.symm, ha.symm⟩

/-! ## Reloading -/

/-- **Export and reload is the identity on loaded corpora**, whatever skipped lines stand between the lines. -/
theorem loadCorpus_export [Interpreter] {edition raw : Str} {c : Corpus} (h : loadCorpus edition raw = .ok c) :
    ∃ lines, exportLines c = .ok lines ∧ (∀ line ∈ lines, IsData line ∧ NoBreak line) ∧
      ∀ layout, (∀ line ∈ layout, NoBreak line) → layout.filter IsData = lines →
        loadCorpus edition (unlines layout) = .ok c := by
  obtain ⟨records, M, hp, hM, rfl⟩ := lists_of_loadCorpus h
  have hed := (loadCorpus_eq_ok_iff.mp h).1
  obtain ⟨lines, hlines⟩ : ∃ lines, exportLines (M.corpus edition) = .ok lines := by
    cases hx : exportLines (M.corpus edition) with
    | ok lines => exact ⟨lines, rfl⟩
    | error e =>
      obtain ⟨q, hq, he⟩ := exists_of_mapM_eq_error hx
      obtain ⟨-, r, hr, hs, ha⟩ := mem_exportRecords hM hq
      obtain ⟨line, hl⟩ := exists_exportRecord hp hr hs ha
      rw [hl] at he; cases he
  have hspec : List.Forall₂ (fun q line => IsData line ∧ NoBreak line ∧ parseLine line = .ok (some q))
      (exportRecords (M.corpus edition)) lines := by
    refine ((List.forall₂_and_left _ _).mpr ⟨fun _ hq => hq, mapM_eq_ok_iff.mp hlines⟩).imp fun q line ⟨hq, hl⟩ => ?_
    obtain ⟨⟨ts, hts, htext⟩, -⟩ := mem_exportRecords hM hq
    obtain ⟨s, a, text⟩ := q
    subst htext
    exact exportRecord_spec hts hl
  refine ⟨lines, hlines, fun line hl => ?_, fun layout hbreak hfilter => ?_⟩
  · obtain ⟨q, -, hq⟩ := exists_of_forall₂ hspec.flip hl
    exact ⟨hq.1, hq.2.1⟩
  · refine loadCorpus_of_lists hed (parseLines_eq_ok_iff.mpr ?_) (lists_exportRecords M edition)
    rw [dataLines, splitlines_unlines hbreak, hfilter]
    exact hspec.flip.imp fun _ _ hq => hq.2.2

/-- The small file, exported and loaded again. -/
theorem loadCorpus_export_sample : ∃ lines, @exportLines defaultInterpreter sampleCorpus = .ok lines ∧
    (∀ line ∈ lines, IsData line ∧ NoBreak line) ∧
      ∀ layout, (∀ line ∈ layout, NoBreak line) → layout.filter IsData = lines →
        @loadCorpus defaultInterpreter "uthmani".toList (unlines layout) = .ok sampleCorpus :=
  @loadCorpus_export defaultInterpreter _ _ _ loadUthmani_sample

end QuranAnalysis
