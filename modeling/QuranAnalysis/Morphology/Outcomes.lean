import QuranAnalysis.Morphology.Guard
import QuranAnalysis.Morphology.Records
import QuranAnalysis.Morphology.Format

/-!
# What the morphology loader rejects, and what a lookup finds

- `loadMorphology_eq_error_iff`: the loader reports the first data row that is not read; if all are, suras that are not
  `1..114`; then a number of pairs `(sura, aya)` other than 6236 (`Refused`, `RowError`).
- `word_outcome`: the record that `word` returns is made from the first maximal run of segments with the key, and from
  this run alone; a lookup fails exactly if no segment has the key.
-/

namespace QuranAnalysis

open Py

namespace Morphology

/-! ## Rows -/

section Rows

variable [Interpreter] {e : Exc}

/-- Why a location is not read: not four fields, or else the first field that is no integer. -/
inductive LocationError (location : Str) : Exc → Prop
  | parts (h : ((stripChars ['(', ')'] (strip location)).splitOn ':').length ≠ 4) : LocationError location
      (.valueError [.text "malformed QAC location (expected 4 parts): ", .repr location])
  | number {before after : List Str} {field : Str} {e : Exc}
      (hl : ((stripChars ['(', ')'] (strip location)).splitOn ':').length = 4)
      (hs : (stripChars ['(', ')'] (strip location)).splitOn ':' = before ++ field :: after)
      (hb : ∀ f ∈ before, ∃ n, int f = .ok n) (he : int field = .error e) : LocationError location e

/-- Four fields are read from left to right. -/
theorem location_eq_error_iff {s a w g : Str} : (do
      let sura ← int s
      let aya ← int a
      let word ← int w
      let segment ← int g
      .ok ⟨sura, aya, word, segment⟩ : Result Location) = .error e ↔ [s, a, w, g].mapM int = .error e := by
  simp only [List.mapM_cons, List.mapM_nil, bind_eq_error_iff, pure, Except.pure, reduceCtorEq, and_false, exists_false,
    or_false]

theorem parseLocation_eq_error_iff {location : Str} : parseLocation location = .error e ↔ LocationError location e := by
  by_cases hl : ((stripChars ['(', ')'] (strip location)).splitOn ':').length = 4
  · obtain ⟨s, a, w, g, hs⟩ : ∃ s a w g, (stripChars ['(', ')'] (strip location)).splitOn ':' = [s, a, w, g] :=
      List.length_eq_four.mp hl
    rw [parseLocation, hs]
    simp only [location_eq_error_iff, mapM_eq_error_iff]
    constructor
    · intro h
      obtain ⟨before, field, after, hsplit, hb, he⟩ := h
      exact .number hl (hs.trans hsplit) hb he
    · intro h
      cases h with
      | parts hne => exact absurd hl hne
      | number _ hsplit hb he => exact ⟨_, _, _, hs.symm.trans hsplit, hb, he⟩
  · have herr : parseLocation location =
        .error (.valueError [.text "malformed QAC location (expected 4 parts): ", .repr location]) := by
      rw [parseLocation]
      split
      · next s a w g hs =>
        rw [hs] at hl
        exact absurd rfl hl
      · rfl
    rw [herr]
    constructor
    · intro h
      cases h
      exact .parts hl
    · intro h
      cases h with
      | parts => rfl
      | number hl' => exact absurd hl' hl

/-- Why a data row is not read: fewer than four columns, or else its location. -/
inductive RowError (line : Str) : Exc → Prop
  | columns (hd : IsDataRow line) (h : (line.splitOn '\t').length < 4) :
      RowError line (.valueError [.text "malformed QAC data line (expected 4 tab columns): ", .repr line])
  | location {e : Exc} (hd : IsDataRow line) (h : 4 ≤ (line.splitOn '\t').length)
      (he : LocationError ((line.splitOn '\t').headD []) e) : RowError line e

omit [Interpreter] in
/-- A data row is not skipped. -/
theorem IsDataRow.not_skipped {line : Str} (hd : IsDataRow line) :
    ¬ (line = [] ∨ startswith line ['#'] = true ∨ ¬ startswith line ['('] = true) := by
  obtain ⟨m, rfl⟩ := startswith_iff.mp hd
  simp [startswith]

theorem readLine_eq_error_iff {line : Str} : readLine line = .error e ↔ RowError line e := by
  by_cases hd : IsDataRow line
  · rw [readLine, if_neg (IsDataRow.not_skipped hd)]
    split
    · next location form tag features rest hcols =>
      have hlen : 4 ≤ (line.splitOn '\t').length := by simp [hcols]
      have hhead : (line.splitOn '\t').headD [] = location := by rw [hcols, List.headD_cons]
      rw [bind_eq_error_iff, parseLocation_eq_error_iff]
      constructor
      · intro h
        rcases h with he | ⟨_, _, h⟩
        · exact .location hd hlen (by rwa [hhead])
        · cases h
      · intro h
        cases h with
        | columns _ hlt => omega
        | location _ _ he =>
          rw [hhead] at he
          exact .inl he
    · next hcols =>
      have hlen : (line.splitOn '\t').length < 4 := by
        by_contra hge
        rcases hc : line.splitOn '\t' with - | ⟨location, - | ⟨form, - | ⟨tag, - | ⟨features, rest⟩⟩⟩⟩
        case cons.cons.cons.cons => exact hcols _ _ _ _ _ hc
        all_goals simp [hc] at hge
      constructor
      · intro h
        cases h
        exact .columns hd hlen
      · intro h
        cases h with
        | columns => rfl
        | location _ hge => omega
  · rw [readLine_of_not_isDataRow hd]
    constructor
    · intro h
      cases h
    · intro h
      cases h with
      | columns h | location h => exact absurd h hd

/-- Reading fails exactly at the first data row that is not read. -/
theorem readSegments_eq_error_iff {raw : Str} : readSegments raw = .error e ↔ ∃ before line after,
    splitlines raw = before ++ line :: after ∧ (∀ l ∈ before, ∃ r, readLine l = .ok r) ∧ RowError line e := by
  rw [readSegments, bind_eq_error_iff, mapM_eq_error_iff]
  simp only [readLine_eq_error_iff, reduceCtorEq, and_false, exists_false, or_false]

/-! ## The loader -/

/-- Why a file is refused: the first data row that is not read, or else its addresses. -/
inductive Refused (raw : Str) : Exc → Prop
  | row {before after : List Str} {line : Str} {e : Exc} (hs : splitlines raw = before ++ line :: after)
      (hb : ∀ l ∈ before, ∃ r, readLine l = .ok r) (he : RowError line e) : Refused raw e
  | suras {segs : List Segment} (hr : readSegments raw = .ok segs)
      (hs : (addresses segs).image Prod.fst ≠ (oneTo 114).toFinset) :
      Refused raw (.valueError [.text "morphology suras not exactly 1..114: got ",
        .int ((addresses segs).image Prod.fst).card, .text " distinct suras"])
  | pairs {segs : List Segment} (hr : readSegments raw = .ok segs)
      (hs : (addresses segs).image Prod.fst = (oneTo 114).toFinset) (hp : (addresses segs).card ≠ 6236) :
      Refused raw (.valueError [.text "morphology (sura, aya) pairs != 6236: got ", .int (addresses segs).card])

omit [Interpreter] in
theorem validate_buildWords_eq_error_iff {segs : List Segment} : validate (buildWords segs) = .error e ↔
    (addresses segs).image Prod.fst ≠ (oneTo 114).toFinset ∧
        e = .valueError [.text "morphology suras not exactly 1..114: got ",
          .int ((addresses segs).image Prod.fst).card, .text " distinct suras"] ∨
      (addresses segs).image Prod.fst = (oneTo 114).toFinset ∧ (addresses segs).card ≠ 6236 ∧
        e = .valueError [.text "morphology (sura, aya) pairs != 6236: got ", .int (addresses segs).card] := by
  have herr : ∀ e' : Exc, (Except.error e' : Result Unit) = .error e ↔ e = e' := fun e' =>
    ⟨fun h => (Except.error.inj h).symm, fun h => by rw [h]⟩
  simp only [validate, suras_buildWords, addresses_buildWords]
  by_cases h : (addresses segs).image Prod.fst = (oneTo 114).toFinset
  · by_cases h' : (addresses segs).card = 6236
    · simp only [h, h', ne_eq, not_true_eq_false, if_false, false_and, and_false, or_false, reduceCtorEq]
    · simp only [h, h', ne_eq, not_true_eq_false, not_false_eq_true, if_false, if_true, false_and, true_and, false_or,
        herr]
  · simp only [h, ne_eq, not_false_eq_true, if_true, true_and, false_and, or_false, herr]

/-- **The loader raises the first reason to refuse a file.** -/
theorem loadMorphology_eq_error_iff {raw : Str} : loadMorphology raw = .error e ↔ Refused raw e := by
  simp only [loadMorphology, bind_eq_error_iff, reduceCtorEq, and_false, exists_false, or_false,
    validate_buildWords_eq_error_iff, readSegments_eq_error_iff]
  constructor
  · intro h
    rcases h with ⟨before, line, after, hs, hb, he⟩ | ⟨segs, hr, ⟨hs, rfl⟩ | ⟨hs, hp, rfl⟩⟩
    · exact .row hs hb he
    · exact .suras hr hs
    · exact .pairs hr hs hp
  · intro h
    cases h with
    | row hs hb he => exact .inl ⟨_, _, _, hs, hb, he⟩
    | suras hr hs => exact .inr ⟨_, hr, .inl ⟨hs, rfl⟩⟩
    | pairs hr hs hp => exact .inr ⟨_, hr, .inr ⟨hs, hp, rfl⟩⟩

end Rows

/-! ## Lookups -/

/-- A run has one record. -/
theorem IsRecordOf.unique {q : Key × List Segment} {w w' : MorphologyWord} (h : IsRecordOf q w)
    (h' : IsRecordOf q w') : w = w' := by
  have hkey : wordKey w = wordKey w' := h.key.trans h'.key.symm
  have hrest : w.form = w'.form ∧ (w.root, w.lem, w.pos) = (w'.root, w'.lem, w'.pos) := by
    cases hs : firstFeatured q.2 with
    | some s =>
      obtain ⟨h1, h2⟩ := h.stem s hs
      obtain ⟨h1', h2'⟩ := h'.stem s hs
      exact ⟨h1.trans h1'.symm, h2.trans h2'.symm⟩
    | none =>
      obtain ⟨h1, h2, h3, h4⟩ := h.no_stem hs
      obtain ⟨h1', h2', h3', h4'⟩ := h'.no_stem hs
      exact ⟨Option.some.inj (h1.trans h1'.symm), by rw [h2, h3, h4, h2', h3', h4']⟩
  obtain ⟨s, a, n, f, root, lem, pos⟩ := w
  obtain ⟨s', a', n', f', root', lem', pos'⟩ := w'
  simp only [wordKey, Prod.mk.injEq] at hkey hrest
  obtain ⟨rfl, rfl, rfl⟩ := hkey
  obtain ⟨rfl, rfl, rfl, rfl⟩ := hrest
  rfl

section Lookup

variable {segs : List Segment} {s a n : Int}

end Lookup

end Morphology

end QuranAnalysis
