import QuranAnalysis.Seq.Runs
import QuranAnalysis.Morphology.Model

/-!
# Words are runs of segments

`buildWords` scans the segments once and compares each with the key before it, so its words are the runs of segments
with one key.

- `step_inRun`, `step_new`: one segment continues a word or starts a new one.
- `foldl_inRun`: over the rest of a run, the scan keeps the first stem.
- `buildWords_of_isRuns`: the records are the aggregates of the runs.
-/

namespace QuranAnalysis

open Py

namespace Morphology

/-! ## Stems -/

namespace Segment

def root (s : Segment) : Option Str := (parseFeatures s.features).1

def lem (s : Segment) : Option Str := (parseFeatures s.features).2.1

def pos (s : Segment) : Option Str := (parseFeatures s.features).2.2

/-- A segment with a root, a lemma or a part of speech. -/
def IsStem (s : Segment) : Prop := s.root ≠ none ∨ s.lem ≠ none ∨ s.pos ≠ none

instance (s : Segment) : Decidable s.IsStem := inferInstanceAs (Decidable (_ ∨ _ ∨ _))

end Segment

/-- The record of a word with this first form and stem. -/
def wordOf (k : Key) (firstForm : Str) (stem : Option Segment) : MorphologyWord :=
  ⟨k.1, k.2.1, k.2.2, (stem.map (·.form)).getD firstForm, stem.bind (·.root), stem.bind (·.lem), stem.bind (·.pos)⟩

/-- The stem of a word: its first segment with features. -/
def stemOf (segs : List Segment) : Option Segment := segs.find? fun s => s.IsStem

/-- The record of the segments of one word. -/
def aggregate (k : Key) (segs : List Segment) : MorphologyWord :=
  wordOf k ((segs.head?.map (·.form)).getD []) (stemOf segs)

@[simp] theorem wordKey_wordOf (k : Key) (f : Str) (stem : Option Segment) : wordKey (wordOf k f stem) = k := rfl

@[simp] theorem wordKey_aggregate (k : Key) (segs : List Segment) : wordKey (aggregate k segs) = k := rfl

/-! ## The scan inside a word -/

/-- The scan inside the word `k`, behind the words `ws`. -/
def inRun (ws : List MorphologyWord) (k : Key) (firstForm : Str) (stem : Option Segment) : Scan :=
  ⟨ws, some k, firstForm, stem.map (·.form), stem.bind (·.root), stem.bind (·.lem), stem.bind (·.pos)⟩

@[simp] theorem flush_inRun (ws : List MorphologyWord) (k : Key) (f : Str) (stem : Option Segment) :
    (inRun ws k f stem).flush = ws ++ [wordOf k f stem] := rfl

/-- A segment of the word is its stem if no earlier one is. -/
def thenStem (stem : Option Segment) (seg : Segment) : Option Segment :=
  stem.or (if seg.IsStem then some seg else none)

/-- The features of a segment inside its word. -/
theorem features_step (ws : List MorphologyWord) (k : Key) (f : Str) (stem : Option Segment) (seg : Segment) :
    (let st := inRun ws k f stem
     let (root, lem, pos) := parseFeatures seg.features
     if (root ≠ none ∨ lem ≠ none ∨ pos ≠ none) ∧ st.stemForm = none then
       { st with stemForm := some seg.form, stemRoot := root, stemLemma := lem, stemPos := pos }
     else st) = inRun ws k f (thenStem stem seg) := by
  show (if seg.IsStem ∧ stem.map (·.form) = none then _ else _) = _
  cases stem with
  | some s => simp [inRun, thenStem]
  | none =>
    by_cases hs : seg.IsStem
    · have ht : thenStem none seg = some seg := by simp [thenStem, hs]
      rw [if_pos ⟨hs, rfl⟩, ht]
      rfl
    · have ht : thenStem none seg = none := by simp [thenStem, hs]
      rw [if_neg fun h => hs h.1, ht]

/-- A segment with the key of the word continues it. -/
theorem step_inRun (ws : List MorphologyWord) (f : Str) (stem : Option Segment) (seg : Segment) :
    (inRun ws seg.key f stem).step seg = inRun ws seg.key f (thenStem stem seg) := by
  rw [Scan.step, if_neg (by simp [inRun])]
  exact features_step ws seg.key f stem seg

/-- A segment with another key closes the word and starts a new one. -/
theorem step_new {st : Scan} {seg : Segment} (h : st.currentKey ≠ some seg.key) :
    st.step seg = inRun st.flush seg.key seg.form (thenStem none seg) := by
  rw [Scan.step, if_pos (Ne.symm h)]
  exact features_step st.flush seg.key seg.form none seg

/-- Over more segments of the word, the scan keeps the first stem. -/
theorem foldl_inRun (ws : List MorphologyWord) (k : Key) (f : Str) : ∀ (segs : List Segment) (stem : Option Segment),
    (∀ s ∈ segs, s.key = k) → segs.foldl Scan.step (inRun ws k f stem) = inRun ws k f (stem.or (stemOf segs))
  | [], stem, _ => by simp [stemOf]
  | seg :: segs, stem, h => by
    obtain rfl : seg.key = k := h seg (by simp)
    rw [List.foldl_cons, step_inRun, foldl_inRun ws seg.key f segs _ fun s hs => h s (List.mem_cons_of_mem _ hs)]
    congr 1
    rw [stemOf, stemOf, List.find?_cons, thenStem]
    by_cases hs : seg.IsStem <;> cases stem <;> simp [hs]

/-! ## The whole scan -/

/-- Runs of other words than the one before add their records. -/
theorem flush_foldl : ∀ {rs : List (Key × List Segment)} {segs : List Segment} {st : Scan},
    Seq.IsRuns Segment.key segs rs → (∀ q ∈ rs.head?, st.currentKey ≠ some q.1) →
      (segs.foldl Scan.step st).flush = st.flush ++ rs.map fun q => aggregate q.1 q.2
  | [], segs, st, h, _ => by
    obtain rfl : segs = [] := by simpa using h.flatten.symm
    simp
  | (k, r) :: rs, segs, st, h, hst => by
    obtain ⟨seg, r, rfl⟩ := List.exists_cons_of_ne_nil (h.ne_nil (k, r) (by simp))
    have hkeys := h.key_eq (k, seg :: r) (by simp)
    obtain rfl : seg.key = k := hkeys seg (by simp)
    -- behind the first run, the scan is inside its word, and the next run has another key
    have hnext : ∀ q ∈ rs.head?, (inRun st.flush seg.key seg.form (stemOf (seg :: r))).currentKey ≠ some q.1 := by
      intro q hq
      have hd := h.differ
      cases rs with
      | nil => cases hq
      | cons p rs =>
        obtain rfl : p = q := by simpa using hq
        rw [List.map_cons, List.map_cons, List.isChain_cons_cons] at hd
        simpa [inRun] using hd.1
    have hrun : (seg :: r).foldl Scan.step st = inRun st.flush seg.key seg.form (stemOf (seg :: r)) := by
      rw [List.foldl_cons, step_new (hst _ rfl), foldl_inRun _ _ _ r _ fun s hs => hkeys s (List.mem_cons_of_mem _ hs)]
      congr 1
      rw [stemOf, stemOf, List.find?_cons, thenStem]
      by_cases hs : seg.IsStem <;> simp [hs]
    rw [← h.flatten, List.flatMap_cons, List.foldl_append, hrun, flush_foldl h.tail hnext, flush_inRun, List.map_cons,
      List.append_assoc]
    rfl

/-- **The records of a morphology are the aggregates of the runs of its segments.** -/
theorem buildWords_of_isRuns {segs : List Segment} {rs : List (Key × List Segment)}
    (h : Seq.IsRuns Segment.key segs rs) : buildWords segs = rs.map fun q => aggregate q.1 q.2 := by
  rw [buildWords, flush_foldl h fun q _ => by simp [Scan.start]]
  rfl

/-- The keys of the records are the keys of the runs. -/
theorem map_wordKey_buildWords {segs : List Segment} {rs : List (Key × List Segment)}
    (h : Seq.IsRuns Segment.key segs rs) : (buildWords segs).map wordKey = rs.map Prod.fst := by
  rw [buildWords_of_isRuns h, List.map_map]
  rfl

/-- The records and the segments have the same keys. -/
theorem mem_map_wordKey_iff {segs : List Segment} {k : Key} :
    k ∈ (buildWords segs).map wordKey ↔ k ∈ segs.map Segment.key := by
  have h := Seq.runs_isRuns Segment.key segs
  rw [map_wordKey_buildWords h, h.mem_keys_iff]

end Morphology

end QuranAnalysis
