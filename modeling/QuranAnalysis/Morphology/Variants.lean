import QuranAnalysis.Morphology.Format
import QuranAnalysis.Morphology.Guard

/-!
# What the morphology keeps of its rows

Two files are annotated alike (`AnnotatedAlike`) if their data rows, one by one, belong to the same words with the same
roots and lemmas. They may differ in forms, tags, segment numbers, further columns and items, the values of parts of
speech, and all that stands between the rows.

- `Scan.Sim.step`, `Scan.Sim.foldl`: the scans of such files go in step.
- `buildWords_annotatedAlike`: so their words are annotated alike.
- `loadMorphology_annotatedAlike`: such files are accepted alike, and have the same words with the same annotation.
- `loadMorphology_reordered`: files with the same rows, word by word, are accepted alike, whatever the order of the
  words (`ReorderedText`), and have the same words and lookups.
-/

namespace QuranAnalysis

open Py

namespace Morphology

/-! ## Rows and words that are annotated alike -/

/-- Segments of one word with one annotation; both are stems or none is. -/
structure Segment.Alike (s s' : Segment) : Prop where
  key : s'.key = s.key
  root : s'.root = s.root
  lem : s'.lem = s.lem
  isStem : s'.IsStem ↔ s.IsStem

/-- Records of one word with one annotation. -/
structure WordsAlike (w w' : MorphologyWord) : Prop where
  key : wordKey w' = wordKey w
  root : w'.root = w.root
  lem : w'.lem = w.lem

/-! ## The scan, in two steps -/

/-- A segment of another word starts a new one. -/
def Scan.enter (st : Scan) (seg : Segment) : Scan :=
  if some seg.key ≠ st.currentKey then ⟨st.flush, some seg.key, seg.form, none, none, none, none⟩ else st

/-- The first stem of a word is noted. -/
def Scan.note (st : Scan) (seg : Segment) : Scan :=
  if seg.IsStem ∧ st.stemForm = none then
    { st with stemForm := some seg.form, stemRoot := seg.root, stemLemma := seg.lem, stemPos := seg.pos }
  else st

theorem Scan.step_eq (st : Scan) (seg : Segment) : st.step seg = (st.enter seg).note seg := rfl

/-! ## Scans in step -/

/-- Scans that have read the same annotation. -/
structure Scan.Sim (st st' : Scan) : Prop where
  words : List.Forall₂ WordsAlike st.words st'.words
  currentKey : st'.currentKey = st.currentKey
  stemForm : st'.stemForm = none ↔ st.stemForm = none
  stemRoot : st'.stemRoot = st.stemRoot
  stemLemma : st'.stemLemma = st.stemLemma

namespace Scan.Sim

variable {st st' : Scan} {seg seg' : Segment}

theorem start : Scan.Sim .start .start := ⟨.nil, rfl, Iff.rfl, rfl, rfl⟩

/-- The words behind the last segment are annotated alike. -/
theorem flush (h : Scan.Sim st st') : List.Forall₂ WordsAlike st.flush st'.flush := by
  unfold Scan.flush
  rw [h.currentKey]
  cases st.currentKey with
  | none => exact h.words
  | some k => exact List.rel_append h.words (.cons ⟨rfl, h.stemRoot, h.stemLemma⟩ .nil)

theorem enter (h : Scan.Sim st st') (hs : seg.Alike seg') : Scan.Sim (st.enter seg) (st'.enter seg') := by
  unfold Scan.enter
  rw [h.currentKey, hs.key]
  split
  · exact ⟨h.flush, rfl, Iff.rfl, rfl, rfl⟩
  · exact h

theorem note (h : Scan.Sim st st') (hs : seg.Alike seg') : Scan.Sim (st.note seg) (st'.note seg') := by
  have hcond : (seg'.IsStem ∧ st'.stemForm = none) ↔ (seg.IsStem ∧ st.stemForm = none) :=
    and_congr hs.isStem h.stemForm
  unfold Scan.note
  by_cases hc : seg.IsStem ∧ st.stemForm = none
  · rw [if_pos hc, if_pos (hcond.mpr hc)]
    exact ⟨h.words, h.currentKey, by simp, hs.root, hs.lem⟩
  · rw [if_neg hc, if_neg (mt hcond.mp hc)]
    exact h

/-- One segment keeps the scans in step. -/
theorem step (h : Scan.Sim st st') (hs : seg.Alike seg') : Scan.Sim (st.step seg) (st'.step seg') := by
  rw [Scan.step_eq, Scan.step_eq]
  exact (h.enter hs).note hs

/-- And so do all segments. -/
theorem foldl {segs segs' : List Segment} (hs : List.Forall₂ Segment.Alike segs segs') :
    ∀ {st st' : Scan}, Scan.Sim st st' → Scan.Sim (segs.foldl Scan.step st) (segs'.foldl Scan.step st') := by
  induction hs with
  | nil => exact fun h => h
  | cons hseg _ ih => exact fun h => ih (h.step hseg)

end Scan.Sim

/-- **Words of segments that are annotated alike are annotated alike.** -/
theorem buildWords_annotatedAlike {segs segs' : List Segment} (h : List.Forall₂ Segment.Alike segs segs') :
    List.Forall₂ WordsAlike (buildWords segs) (buildWords segs') := (Scan.Sim.foldl h .start).flush

/-! ## Files that are annotated alike -/

section Files

variable [Interpreter] {raw raw' : Str}

/-- The data rows of a file. -/
def dataRows (raw : Str) : List Str := (splitlines raw).filter fun line => IsDataRow line

/-- Data rows that are read as segments with one annotation. -/
def RowsAlike (line line' : Str) : Prop :=
  ∃ s s', readLine line = .ok (some s) ∧ readLine line' = .ok (some s') ∧ s.Alike s'

/-- Row by row one annotation. -/
def AnnotatedAlike (raw raw' : Str) : Prop := List.Forall₂ RowsAlike (dataRows raw) (dataRows raw')

/-- Rows are annotated alike if they are read as segments that are. -/
theorem forall₂_rowsAlike_iff {rows rows' : List Str} : List.Forall₂ RowsAlike rows rows' ↔ ∃ segs segs',
    List.Forall₂ (fun line seg => readLine line = .ok (some seg)) rows segs ∧
      List.Forall₂ (fun line seg => readLine line = .ok (some seg)) rows' segs' ∧
        List.Forall₂ Segment.Alike segs segs' := by
  constructor
  · intro h
    induction h with
    | nil => exact ⟨[], [], .nil, .nil, .nil⟩
    | cons hrow _ ih =>
      obtain ⟨s, s', hs, hs', hss⟩ := hrow
      obtain ⟨segs, segs', hsegs, hsegs', hall⟩ := ih
      exact ⟨s :: segs, s' :: segs', .cons hs hsegs, .cons hs' hsegs', .cons hss hall⟩
  · intro h
    obtain ⟨segs, segs', hr, hr', hall⟩ := h
    induction hall generalizing rows rows' with
    | nil =>
      rw [List.forall₂_nil_right_iff] at hr hr'
      rw [hr, hr']
      exact .nil
    | cons hss _ ih =>
      rw [List.forall₂_cons_right_iff] at hr hr'
      obtain ⟨line, lines, hline, hlines, rfl⟩ := hr
      obtain ⟨line', lines', hline', hlines', rfl⟩ := hr'
      exact .cons ⟨_, _, hline, hline', hss⟩ (ih hlines hlines')

/-- Files that are annotated alike are read, and so are their segments. -/
theorem annotatedAlike_iff : AnnotatedAlike raw raw' ↔ ∃ segs segs',
    readSegments raw = .ok segs ∧ readSegments raw' = .ok segs' ∧ List.Forall₂ Segment.Alike segs segs' := by
  simp only [readSegments_eq_ok_iff]
  exact forall₂_rowsAlike_iff

omit [Interpreter] in
/-- The guard sees the keys of the words. -/
theorem validate_congr {ws ws' : List MorphologyWord} (h : List.Forall₂ WordsAlike ws ws') :
    validate ws' = validate ws := by
  have hkeys : ws'.map wordKey = ws.map wordKey := (map_eq_of_forall₂ (fun _ _ hw => hw.key.symm) h).symm
  have hsuras : ws'.map (·.sura) = ws.map (·.sura) := by
    have h1 := congrArg (List.map fun k : Key => k.1) hkeys
    rw [List.map_map, List.map_map] at h1
    exact h1
  have hpairs : ws'.map (fun w => (w.sura, w.aya)) = ws.map fun w => (w.sura, w.aya) := by
    have h2 := congrArg (List.map fun k : Key => (k.1, k.2.1)) hkeys
    rw [List.map_map, List.map_map] at h2
    exact h2
  unfold validate
  rw [hsuras, hpairs]

/-- **Files that are annotated alike are accepted alike**, and then have the same words with the same roots and
lemmas. -/
theorem loadMorphology_annotatedAlike (h : AnnotatedAlike raw raw') :
    (∃ e, loadMorphology raw = .error e ∧ loadMorphology raw' = .error e) ∨
      ∃ m m', loadMorphology raw = .ok m ∧ loadMorphology raw' = .ok m' ∧ List.Forall₂ WordsAlike m.words m'.words := by
  obtain ⟨segs, segs', hr, hr', hss⟩ := annotatedAlike_iff.mp h
  have hwords := buildWords_annotatedAlike hss
  have hvalid := validate_congr hwords
  unfold loadMorphology
  rw [hr, hr']
  simp only [bind, Except.bind, hvalid]
  cases validate (buildWords segs) with
  | error e => exact .inl ⟨e, rfl, rfl⟩
  | ok u => exact .inr ⟨_, _, rfl, rfl, hwords⟩

/-! ## Words in another order -/

/-- The segments of each word stand together, and are the same in both. -/
structure Reordered (segs segs' : List Segment) : Prop where
  adjacent : Seq.Adjacent (segs.map Segment.key)
  adjacent' : Seq.Adjacent (segs'.map Segment.key)
  same : ∀ k, segs.filter (fun s => s.key = k) = segs'.filter (fun s => s.key = k)

/-- Files with the same rows, word by word, each word in one place. -/
def ReorderedText (raw raw' : Str) : Prop :=
  ∃ segs segs', readSegments raw = .ok segs ∧ readSegments raw' = .ok segs' ∧ Reordered segs segs'

section Reordered

variable {segs segs' : List Segment}

omit [Interpreter] in
/-- No two words have one key. -/
theorem nodup_buildWords (h : Seq.Adjacent (segs.map Segment.key)) : ((buildWords segs).map wordKey).Nodup := by
  have hr := Seq.runs_isRuns Segment.key segs
  rw [map_wordKey_buildWords hr]
  exact hr.nodup_of_adjacent h

omit [Interpreter] in
/-- The words are the same, in some order. -/
theorem Reordered.perm_buildWords (h : Reordered segs segs') : (buildWords segs).Perm (buildWords segs') := by
  have hr := Seq.runs_isRuns Segment.key segs
  have hr' := Seq.runs_isRuns Segment.key segs'
  rw [buildWords_of_isRuns hr, buildWords_of_isRuns hr']
  exact (hr.perm_of_filter_eq hr' (hr.nodup_of_adjacent h.adjacent) (hr'.nodup_of_adjacent h.adjacent') h.same).map _

omit [Interpreter] in
/-- So are the lookups. -/
theorem Reordered.word_eq (h : Reordered segs segs') (s a n : Int) :
    word ⟨buildWords segs'⟩ s a n = word ⟨buildWords segs⟩ s a n := by
  have hkey : ∀ w : MorphologyWord, decide (w.sura = s ∧ w.aya = a ∧ w.word = n) = true ↔ wordKey w = (s, a, n) := by
    intro w
    rw [decide_eq_true_iff, wordKey, Prod.mk.injEq, Prod.mk.injEq]
  rw [word, word, Seq.find?_of_perm h.perm_buildWords (nodup_buildWords h.adjacent') hkey]

omit [Interpreter] in
/-- Where every word has one row, the rows can stand in any order. -/
theorem reordered_of_perm (hp : segs.Perm segs') (hn : (segs.map Segment.key).Nodup) : Reordered segs segs' :=
  ⟨Seq.adjacent_of_nodup hn, Seq.adjacent_of_nodup ((hp.map Segment.key).nodup_iff.mp hn), Seq.filter_key_of_perm hp hn⟩

omit [Interpreter] in
/-- The guard does not see the order of the words. -/
theorem validate_perm {ws ws' : List MorphologyWord} (h : ws.Perm ws') : validate ws' = validate ws := by
  unfold validate
  rw [List.toFinset_eq_of_perm _ _ (h.map (·.sura)), List.toFinset_eq_of_perm _ _ (h.map fun w => (w.sura, w.aya))]

/-- **Files with their words in another order are accepted alike**, and then have the same words and lookups. -/
theorem loadMorphology_reordered (h : ReorderedText raw raw') :
    (∃ e, loadMorphology raw = .error e ∧ loadMorphology raw' = .error e) ∨
      ∃ m m', loadMorphology raw = .ok m ∧ loadMorphology raw' = .ok m' ∧ m.words.Perm m'.words ∧
        ∀ s a n, word m' s a n = word m s a n := by
  obtain ⟨segs, segs', hr, hr', hsegs⟩ := h
  have hvalid := validate_perm hsegs.perm_buildWords
  unfold loadMorphology
  rw [hr, hr']
  simp only [bind, Except.bind, hvalid]
  cases validate (buildWords segs) with
  | error e => exact .inl ⟨e, rfl, rfl⟩
  | ok u => exact .inr ⟨_, _, rfl, rfl, hsegs.perm_buildWords, hsegs.word_eq⟩

end Reordered

end Files

end Morphology

end QuranAnalysis
