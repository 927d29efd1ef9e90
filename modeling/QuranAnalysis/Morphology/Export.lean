import QuranAnalysis.Morphology.Guard
import QuranAnalysis.Morphology.Format

/-!
# The morphologies that a file can load to

- `Writable w`: the form and the values of a record are columns and items, and its numbers can be written.
- `Loadable m`: writable records, neighbours with different keys, and addresses that pass the guard.
- `loadable_of_loadMorphology`: every loaded morphology is loadable.
- `loadMorphology_of_writeLines`: rows that are written for loadable records load to them.
- `loadable_iff`, `loadMorphology_export`: so the loadable morphologies are the loaded ones, and each is loaded again
  from one row per record (`exportLines`).
-/

namespace QuranAnalysis

open Py

namespace Morphology

/-! ## Loadable morphologies -/

/-- A value among the features: no bar, no tab and no line break. -/
def CleanValue (x : Str) : Prop := '|' ∉ x ∧ CleanColumn x

instance (x : Str) : Decidable (CleanValue x) := inferInstanceAs (Decidable (_ ∧ _))

/-- A record that can stand in a file. -/
structure Writable [Interpreter] (w : MorphologyWord) : Prop where
  form : CleanColumn w.form
  root : ∀ x ∈ w.root, CleanValue x
  lem : ∀ x ∈ w.lem, CleanValue x
  pos : ∀ x ∈ w.pos, CleanValue x
  sura : ∃ t, str w.sura = .ok t
  aya : ∃ t, str w.aya = .ok t
  word : ∃ t, str w.word = .ok t

/-- Records that can stand in a file one behind the other, with 114 suras and 6236 pairs `(sura, aya)`. -/
structure Loadable [Interpreter] (m : Morphology) : Prop where
  writable : ∀ w ∈ m.words, Writable w
  differ : (m.words.map wordKey).IsChain (· ≠ ·)
  suras : (m.words.map (·.sura)).toFinset = (oneTo 114).toFinset
  pairs : (m.words.map fun w => (w.sura, w.aya)).toFinset.card = 6236

theorem validate_eq_ok_iff {ws : List MorphologyWord} : validate ws = .ok () ↔
    (ws.map (·.sura)).toFinset = (oneTo 114).toFinset ∧ (ws.map fun w => (w.sura, w.aya)).toFinset.card = 6236 := by
  rw [validate]
  by_cases h : (ws.map (·.sura)).toFinset = (oneTo 114).toFinset
  · by_cases h' : (ws.map fun w => (w.sura, w.aya)).toFinset.card = 6236 <;> simp [h, h']
  · simp [h]

/-! ## What is read is writable -/

/-- The columns and numbers of a segment that was read. -/
structure Segment.Clean [Interpreter] (s : Segment) : Prop where
  form : CleanColumn s.form
  features : CleanColumn s.features
  sura : ∃ t, str s.location.sura = .ok t
  aya : ∃ t, str s.location.aya = .ok t
  word : ∃ t, str s.location.word = .ok t

/-- A column of a line is a column. -/
theorem cleanColumn_of_mem_splitOn {line f : Str} (hb : NoBreak line) (hf : f ∈ line.splitOn '\t') : CleanColumn f := by
  obtain ⟨htab, hsub⟩ := Seq.of_mem_splitOn hf
  exact ⟨htab, fun c hc => hb c (hsub hc)⟩

section Reading

variable [Interpreter]

/-- The numbers of a location that was read can be written. -/
theorem exists_str_of_parseLocation {location : Str} {l : Location} (h : parseLocation location = .ok l) :
    (∃ t, str l.sura = .ok t) ∧ (∃ t, str l.aya = .ok t) ∧ ∃ t, str l.word = .ok t := by
  rw [parseLocation] at h
  split at h
  · simp only [bind_eq_ok_iff, Except.ok.injEq] at h
    obtain ⟨s, hs, a, ha, w, hw, g, -, rfl⟩ := h
    exact ⟨str_of_int hs, str_of_int ha, str_of_int hw⟩
  · cases h

/-- A segment that is read from a line is clean. -/
theorem clean_of_readLine {line : Str} (hb : NoBreak line) {s : Segment} (h : readLine line = .ok (some s)) :
    s.Clean := by
  rw [readLine] at h
  split at h
  · cases h
  · split at h
    · next location form tag features rest hcols =>
      simp only [bind_eq_ok_iff, Except.ok.injEq, Option.some.injEq] at h
      obtain ⟨l, hl, rfl⟩ := h
      have hcol : ∀ f ∈ [location, form, tag, features], CleanColumn f := fun f hf => by
        apply cleanColumn_of_mem_splitOn hb
        rw [hcols]
        exact List.mem_append_left rest hf
      obtain ⟨hs, ha, hw⟩ := exists_str_of_parseLocation hl
      exact ⟨hcol form (by simp), hcol features (by simp), hs, ha, hw⟩
    · cases h

theorem clean_of_readSegments {raw : Str} {segs : List Segment} (h : readSegments raw = .ok segs) {s : Segment}
    (hs : s ∈ segs) : s.Clean := by
  obtain ⟨line, hline, hr⟩ := exists_of_forall₂ (List.Forall₂.flip (readSegments_eq_ok_iff.mp h)) hs
  exact clean_of_readLine (noBreak_of_mem_splitlines (List.mem_of_mem_filter hline)) hr

omit [Interpreter] in
/-- A value among clean features is clean. -/
theorem cleanValue_of_lastValue {features pre x : Str} (hf : CleanColumn features)
    (h : lastValue pre (features.splitOn '|') = some x) : CleanValue x := by
  obtain ⟨hbar, hsub⟩ := Seq.of_mem_splitOn (mem_of_lastValue h)
  have hx : ∀ c ∈ x, c ∈ pre ++ x := fun c hc => List.mem_append_right pre hc
  exact ⟨fun hc => hbar (hx _ hc), fun hc => hf.1 (hsub (hx _ hc)), fun c hc => hf.2 c (hsub (hx _ hc))⟩

/-- The values of a clean segment are clean. -/
theorem Segment.Clean.values {s : Segment} (h : s.Clean) :
    (∀ x ∈ s.root, CleanValue x) ∧ (∀ x ∈ s.lem, CleanValue x) ∧ ∀ x ∈ s.pos, CleanValue x := by
  simp only [Segment.root, Segment.lem, Segment.pos, parseFeatures_eq, Option.mem_def]
  exact ⟨fun _ => cleanValue_of_lastValue h.features, fun _ => cleanValue_of_lastValue h.features,
    fun _ => cleanValue_of_lastValue h.features⟩

/-- The record of clean segments is writable. -/
theorem writable_aggregate {k : Key} {segs : List Segment} (hne : segs ≠ []) (hk : ∀ s ∈ segs, s.key = k)
    (hc : ∀ s ∈ segs, s.Clean) : Writable (aggregate k segs) := by
  obtain ⟨first, rest, rfl⟩ := List.exists_cons_of_ne_nil hne
  have hfirst := hc first (by simp)
  obtain rfl : first.key = k := hk first (by simp)
  have hstem : ∀ s, stemOf (first :: rest) = some s → s.Clean := fun s hs => hc s (List.mem_of_find?_eq_some hs)
  cases hst : stemOf (first :: rest) with
  | none =>
    rw [aggregate, hst]
    exact ⟨hfirst.form, by simp [wordOf], by simp [wordOf], by simp [wordOf], hfirst.sura, hfirst.aya, hfirst.word⟩
  | some s =>
    obtain ⟨hroot, hlem, hpos⟩ := (hstem s hst).values
    rw [aggregate, hst]
    exact ⟨(hstem s hst).form, hroot, hlem, hpos, hfirst.sura, hfirst.aya, hfirst.word⟩

/-- **Every loaded morphology is loadable.** -/
theorem loadable_of_loadMorphology {raw : Str} {m : Morphology} (h : loadMorphology raw = .ok m) : Loadable m := by
  obtain ⟨segs, hs, hguard, rfl⟩ := loadMorphology_eq_ok_iff.mp h
  have hr := Seq.runs_isRuns Segment.key segs
  obtain ⟨hsuras, hpairs⟩ := validate_eq_ok_iff.mp (validate_buildWords_iff.mpr hguard)
  refine ⟨fun w hw => ?_, ?_, hsuras, hpairs⟩
  · rw [buildWords_of_isRuns hr] at hw
    obtain ⟨q, hq, rfl⟩ := List.mem_map.mp hw
    exact writable_aggregate (hr.ne_nil q hq) (hr.key_eq q hq) fun s hm =>
      clean_of_readSegments hs (hr.mem_of_mem_run hq hm)
  · rw [map_wordKey_buildWords hr]
    exact hr.differ

/-! ## Writing -/

/-- The rows are read, whatever skipped lines stand between them. -/
theorem readSegments_of_writeLines {entries : List (MorphologyWord × List Row)} (hw : ∀ e ∈ entries, Writes e.1 e.2)
    {lines layout : List Str} (hl : writeLines entries = .ok lines) (hb : ∀ line ∈ layout, NoBreak line)
    (hf : (layout.filter fun line => IsDataRow line) = lines) :
    readSegments (unlines layout) = .ok (segmentsOf entries) := by
  rw [readSegments_eq_ok_iff, splitlines_unlines hb, hf]
  exact (forall₂_writeLines hw hl).imp fun _ _ h => h.2.2

/-- Rows of loadable records load to the records. -/
theorem loadMorphology_of_writeLines {entries : List (MorphologyWord × List Row)} (hw : ∀ e ∈ entries, Writes e.1 e.2)
    (hm : Loadable ⟨entries.map Prod.fst⟩) {lines layout : List Str} (hl : writeLines entries = .ok lines)
    (hb : ∀ line ∈ layout, NoBreak line) (hf : (layout.filter fun line => IsDataRow line) = lines) :
    loadMorphology (unlines layout) = .ok ⟨entries.map Prod.fst⟩ := by
  have hc : (entries.map fun e => wordKey e.1).IsChain (· ≠ ·) := by
    have := hm.differ
    rwa [List.map_map] at this
  have hread := readSegments_of_writeLines hw hl hb hf
  have hwords := buildWords_segmentsOf hw hc
  rw [loadMorphology_eq_ok_iff]
  refine ⟨segmentsOf entries, hread, ?_, by rw [hwords]⟩
  rw [← validate_buildWords_iff, hwords, validate_eq_ok_iff]
  exact ⟨hm.suras, hm.pairs⟩

/-- One row for a record: its part of speech as the tag, and the items of its values. -/
def exportRow (w : MorphologyWord) : Row := ⟨1, w.form, w.pos.getD [], presentItems w⟩

/-- The records with their rows. -/
def exportEntries (m : Morphology) : List (MorphologyWord × List Row) := m.words.map fun w => (w, [exportRow w])

omit [Interpreter] in
/-- One segment for each record. -/
theorem segmentsOf_exportEntries (m : Morphology) :
    segmentsOf (exportEntries m) = m.words.map fun w => segmentOf (wordKey w) (exportRow w) := by
  rw [segmentsOf, exportEntries, List.flatMap_map, List.map_eq_flatMap]
  rfl

/-- One line for each record. -/
def exportLines (m : Morphology) : Result (List Str) := writeLines (exportEntries m)

omit [Interpreter] in
theorem map_fst_exportEntries (m : Morphology) : (exportEntries m).map Prod.fst = m.words := by
  rw [exportEntries, List.map_map]
  exact List.map_id _

omit [Interpreter] in
/-- The item of a clean value is an item. -/
theorem clean_item {pre x : Str} (hp : CleanValue pre) (hx : CleanValue x) : CleanValue (pre ++ x) := by
  refine ⟨fun h => ?_, fun h => ?_, hp.2.2.append hx.2.2⟩
  · exact (List.mem_append.mp h).elim hp.1 hx.1
  · exact (List.mem_append.mp h).elim hp.2.1 hx.2.1

/-- The items of a writable record are items. -/
theorem Writable.clean_items {w : MorphologyWord} (h : Writable w) {item : Str} (hi : item ∈ presentItems w) :
    CleanValue item := by
  have hitem : ∀ {pre : Str} {v : Option Str}, CleanValue pre → (∀ x ∈ v, CleanValue x) →
      item ∈ (v.map (pre ++ ·)).toList → CleanValue item := fun {pre v} hp hv hm => by
    obtain ⟨x, hx, rfl⟩ := Option.map_eq_some_iff.mp (Option.mem_toList.mp hm)
    exact clean_item hp (hv x hx)
  rw [presentItems, List.mem_append, List.mem_append] at hi
  rcases hi with (hi | hi) | hi
  · exact hitem (by decide) h.root hi
  · exact hitem (by decide) h.lem hi
  · exact hitem (by decide) h.pos hi

/-- A writable record is written by its row. -/
theorem Writable.writes {w : MorphologyWord} (h : Writable w) : Writes w [exportRow w] := by
  have hclean : (exportRow w).Clean := by
    refine ⟨h.form, ?_, fun item hi => h.clean_items hi⟩
    rw [exportRow]
    cases hp : w.pos with
    | none => exact ⟨by simp, fun c hc => by cases hc⟩
    | some x => exact (h.pos x hp).2
  refine ⟨by simpa using hclean, fun hp => ?_, fun _ => ?_⟩
  · refine ⟨?_, _, [], rfl, rfl⟩
    simp [Row.Plain, exportRow, hp]
  · exact ⟨[], exportRow w, [], [], rfl, by simp, by simp, rfl, by simp, by simp [exportRow]⟩

/-- The row of a writable record can be written. -/
theorem Writable.exists_rowLine {w : MorphologyWord} (h : Writable w) :
    ∃ line, rowLine (wordKey w) (exportRow w) = .ok line := by
  obtain ⟨s, hs⟩ := h.sura
  obtain ⟨a, ha⟩ := h.aya
  obtain ⟨n, hn⟩ := h.word
  exact ⟨_, by rw [rowLine, writeLocation, wordKey, exportRow, hs, ha, hn, str_one]; rfl⟩

/-- The entries of a loadable morphology are written. -/
theorem Loadable.writes {m : Morphology} (h : Loadable m) : ∀ e ∈ exportEntries m, Writes e.1 e.2 := by
  intro e he
  obtain ⟨w, hmem, rfl⟩ := List.mem_map.mp he
  exact (h.writable w hmem).writes

/-- A loadable morphology can be written, in rows. -/
theorem Loadable.exists_lines {m : Morphology} (h : Loadable m) : ∃ lines, exportLines m = .ok lines ∧
    ∀ line ∈ lines, IsDataRow line ∧ NoBreak line := by
  obtain ⟨lines, hl⟩ : ∃ lines, exportLines m = .ok lines := by
    rw [exportLines, writeLines, mapM_returns_iff]
    intro p hp
    obtain ⟨e, he, hp⟩ := List.mem_flatMap.mp hp
    obtain ⟨w, hmem, rfl⟩ := List.mem_map.mp he
    obtain rfl : p = (wordKey w, exportRow w) := by simpa using hp
    exact (h.writable w hmem).exists_rowLine
  refine ⟨lines, hl, fun line hline => ?_⟩
  obtain ⟨_, -, h1, h2, -⟩ := exists_of_forall₂ (forall₂_writeLines h.writes hl) hline
  exact ⟨h1, h2⟩

/-- **A loadable morphology is loaded from its rows.** -/
theorem Loadable.exists_exportLines {m : Morphology} (h : Loadable m) : ∃ lines, exportLines m = .ok lines ∧
    (∀ line ∈ lines, IsDataRow line ∧ NoBreak line) ∧
      ∀ layout, (∀ line ∈ layout, NoBreak line) → (layout.filter fun line => IsDataRow line) = lines →
        loadMorphology (unlines layout) = .ok m := by
  obtain ⟨lines, hl, hlines⟩ := h.exists_lines
  refine ⟨lines, hl, hlines, fun layout hb hf => ?_⟩
  have hload := loadMorphology_of_writeLines h.writes (by rwa [map_fst_exportEntries]) hl hb hf
  rwa [map_fst_exportEntries] at hload

/-- A loadable morphology has a file of nothing but its rows. -/
theorem Loadable.exists_raw {m : Morphology} (h : Loadable m) : ∃ raw,
    readSegments raw = .ok (segmentsOf (exportEntries m)) ∧ loadMorphology raw = .ok m := by
  obtain ⟨lines, hl, hlines⟩ := h.exists_lines
  have hb : ∀ line ∈ lines, NoBreak line := fun line hline => (hlines line hline).2
  have hf : (lines.filter fun line => IsDataRow line) = lines :=
    List.filter_eq_self.mpr fun line hline => by simpa using (hlines line hline).1
  refine ⟨unlines lines, readSegments_of_writeLines h.writes hl hb hf, ?_⟩
  have hload := loadMorphology_of_writeLines h.writes (by rwa [map_fst_exportEntries]) hl hb hf
  rwa [map_fst_exportEntries] at hload

/-- A loadable morphology is loadable backwards. -/
theorem Loadable.reverse {m : Morphology} (h : Loadable m) : Loadable ⟨m.words.reverse⟩ := by
  refine ⟨fun w hw => h.writable w (List.mem_reverse.mp hw), ?_, ?_, ?_⟩
  · rw [List.map_reverse, List.isChain_reverse]
    exact h.differ.imp fun _ _ => Ne.symm
  · rw [List.map_reverse, List.toFinset_reverse, h.suras]
  · rw [List.map_reverse, List.toFinset_reverse, h.pairs]

/-- **The loadable morphologies are the loaded ones.** -/
theorem loadable_iff {m : Morphology} : (∃ raw, loadMorphology raw = .ok m) ↔ Loadable m := by
  constructor
  · intro h
    obtain ⟨raw, hraw⟩ := h
    exact loadable_of_loadMorphology hraw
  · intro h
    obtain ⟨raw, -, hraw⟩ := h.exists_raw
    exact ⟨raw, hraw⟩

/-- **Export and reload is the identity on loaded morphologies**, whatever skipped lines stand between the rows. -/
theorem loadMorphology_export {raw : Str} {m : Morphology} (h : loadMorphology raw = .ok m) :
    ∃ lines, exportLines m = .ok lines ∧ (∀ line ∈ lines, IsDataRow line ∧ NoBreak line) ∧
      ∀ layout, (∀ line ∈ layout, NoBreak line) → (layout.filter fun line => IsDataRow line) = lines →
        loadMorphology (unlines layout) = .ok m :=
  (loadable_of_loadMorphology h).exists_exportLines

end Reading

/-! ## A loadable morphology -/

/-- The word `form` in each aya of `firstSuraAddresses`. -/
def sampleMorphology (form : Str) : Morphology :=
  ⟨(firstSuraAddresses (oneTo 6123)).map fun p =>
    ⟨p.1, p.2, 1, form, some "qwl".toList, some "qaAla".toList, some "V".toList⟩⟩

/-- Short numbers can be written. -/
theorem exists_str_of_lt {n : Int} (h : n.natAbs < 10 ^ 4) : ∃ t, @str defaultInterpreter n = .ok t := by
  have hl := (Nat.length_toDigits_le_iff (b := 10) (by omega) (by omega)).mpr h
  have ht : ¬ @tooLong defaultInterpreter (Nat.toDigits 10 n.natAbs).length := by
    intro ht
    have hlong : 4300 < (Nat.toDigits 10 n.natAbs).length := ht.2
    omega
  exact ⟨_, (@str_eq_ok_iff defaultInterpreter _ _).mpr ⟨ht, rfl⟩⟩

/-- No two words of the sample have one key. -/
theorem nodup_sampleMorphology (form : Str) : ((sampleMorphology form).words.map wordKey).Nodup := by
  -- as many addresses as ayas
  have hl : (firstSuraAddresses (oneTo 6123)).length = 6236 := by simp [firstSuraAddresses]
  have hd : (firstSuraAddresses (oneTo 6123)).Nodup := by
    have hcard := (guard_firstSura (nodup_oneTo 6123) (length_oneTo 6123)).2
    rw [List.card_toFinset, ← hl] at hcard
    rw [← List.dedup_eq_self]
    exact (List.dedup_sublist _).eq_of_length hcard
  rw [sampleMorphology, List.map_map]
  refine hd.map fun p q h => ?_
  obtain ⟨h1, h2⟩ := Prod.mk.inj h
  exact Prod.ext h1 (Prod.mk.inj h2).1

theorem loadable_sampleMorphology {form : Str} (hform : CleanColumn form) :
    @Loadable defaultInterpreter (sampleMorphology form) := by
  have hmem : ∀ p ∈ firstSuraAddresses (oneTo 6123), p.1.natAbs < 10 ^ 4 ∧ p.2.natAbs < 10 ^ 4 := by
    intro p hp
    rw [firstSuraAddresses, List.mem_append, List.mem_map, List.mem_map] at hp
    rcases hp with ⟨a, ha, rfl⟩ | ⟨i, hi, rfl⟩
    · have ha := mem_oneTo.mp ha
      simp only
      omega
    · have hi := List.mem_range.mp hi
      simp only
      omega
  have hpairs : (sampleMorphology form).words.map (fun w => (w.sura, w.aya)) = firstSuraAddresses (oneTo 6123) := by
    rw [sampleMorphology, List.map_map]
    exact List.map_id _
  obtain ⟨hsuras, hcard⟩ := guard_firstSura (nodup_oneTo 6123) (length_oneTo 6123)
  refine @Loadable.mk defaultInterpreter _ (fun w hw => ?_) (nodup_sampleMorphology form).isChain ?_
    (by rw [hpairs, hcard])
  · simp only [sampleMorphology, List.mem_map] at hw
    obtain ⟨p, hp, rfl⟩ := hw
    obtain ⟨h1, h2⟩ := hmem p hp
    have hval : ∀ {v : Str}, CleanValue v → ∀ x ∈ some v, CleanValue x := fun hv x hx => by
      cases hx
      exact hv
    exact @Writable.mk defaultInterpreter _ hform (hval (by decide)) (hval (by decide)) (hval (by decide))
      (exists_str_of_lt h1) (exists_str_of_lt h2) (exists_str_of_lt (n := 1) (by decide))
  · rw [← hsuras, ← hpairs, ← Seq.toFinset_map, List.map_map]
    rfl

/-- The sample is loaded from some file, exported and loaded again. -/
theorem loadMorphology_export_sample : ∃ lines,
    @exportLines defaultInterpreter (sampleMorphology "qAl".toList) = .ok lines ∧
      (∀ line ∈ lines, IsDataRow line ∧ NoBreak line) ∧
      ∀ layout, (∀ line ∈ layout, NoBreak line) → (layout.filter fun line => IsDataRow line) = lines →
        @loadMorphology defaultInterpreter (unlines layout) = .ok (sampleMorphology "qAl".toList) := by
  have hform : CleanColumn "qAl".toList := by decide
  obtain ⟨raw, -, hraw⟩ := @Loadable.exists_raw defaultInterpreter _ (loadable_sampleMorphology hform)
  exact @loadMorphology_export defaultInterpreter _ _ hraw

end Morphology

end QuranAnalysis
