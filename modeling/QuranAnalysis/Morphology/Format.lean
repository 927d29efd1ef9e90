import QuranAnalysis.Morphology.Features

/-!
# Writing and reading the QAC file

A record is written as rows `(s:a:w:g)⟨tab⟩FORM⟨tab⟩TAG⟨tab⟩FEATURES`: rows without root, lemma and part of speech
around one stem row that has those of the record (`Writes`).

- `readLine_rowLine`: a written row is read as its segment.
- `aggregate_of_writes`: the segments of the rows of a record aggregate to the record.
- `malformed_isValueError`: a data row with too few columns or without a location raises `ValueError`.
- `buildWords_of_written`: reading undoes writing.
-/

namespace QuranAnalysis

open Py

namespace Morphology

/-! ## Rows -/

/-- A row of a word: its segment number, form, tag and feature items. -/
structure Row where
  segment : Int
  form : Str
  tag : Str
  items : List Str
deriving DecidableEq, Repr

/-- The FEATURES column. -/
def Row.features (r : Row) : Str := ['|'].intercalate r.items

/-- The segment that a row of the word `k` stands for. -/
def segmentOf (k : Key) (r : Row) : Segment := ⟨⟨k.1, k.2.1, k.2.2, r.segment⟩, r.form, r.features⟩

/-- A column: no tab and no line break. -/
def CleanColumn (s : Str) : Prop := '\t' ∉ s ∧ NoBreak s

instance (s : Str) : Decidable (CleanColumn s) := inferInstanceAs (Decidable (_ ∧ _))

/-- The columns of the row are columns, and its items have no bar. -/
structure Row.Clean (r : Row) : Prop where
  form : CleanColumn r.form
  tag : CleanColumn r.tag
  items : ∀ item ∈ r.items, '|' ∉ item ∧ CleanColumn item

instance (r : Row) : Decidable r.Clean :=
  decidable_of_iff (CleanColumn r.form ∧ CleanColumn r.tag ∧ ∀ item ∈ r.items, '|' ∉ item ∧ CleanColumn item)
    ⟨fun ⟨h1, h2, h3⟩ => ⟨h1, h2, h3⟩, fun h => ⟨h.form, h.tag, h.items⟩⟩

/-- An item that is neither a root, a lemma nor a part of speech. -/
def PlainItem (item : Str) : Prop :=
  startswith item rootPrefix = false ∧ startswith item lemmaPrefix = false ∧ startswith item posPrefix = false

instance (item : Str) : Decidable (PlainItem item) := inferInstanceAs (Decidable (_ ∧ _ ∧ _))

/-- A row of plain items. -/
def Row.Plain (r : Row) : Prop := ∀ item ∈ r.items, PlainItem item

instance (r : Row) : Decidable r.Plain := inferInstanceAs (Decidable (∀ item ∈ r.items, _))

/-- The items of the values that a record has. -/
def presentItems (w : MorphologyWord) : List Str :=
  (w.root.map (rootPrefix ++ ·)).toList ++ (w.lem.map (lemmaPrefix ++ ·)).toList ++ (w.pos.map (posPrefix ++ ·)).toList

/-- The rows of a record: plain rows around a stem row with the form and the items of the record, among other items in
any order; a record without items has only plain rows, the first with its form. -/
structure Writes (w : MorphologyWord) (rows : List Row) : Prop where
  clean : ∀ r ∈ rows, r.Clean
  plain : presentItems w = [] → (∀ r ∈ rows, r.Plain) ∧ ∃ first rest, rows = first :: rest ∧ first.form = w.form
  stem : presentItems w ≠ [] → ∃ prefixes stem suffixes others, rows = prefixes ++ stem :: suffixes ∧
    (∀ r ∈ prefixes, r.Plain) ∧ (∀ r ∈ suffixes, r.Plain) ∧ stem.form = w.form ∧
    (∀ item ∈ others, PlainItem item) ∧ stem.items.Perm (presentItems w ++ others)

/-! ## Features of a row -/

/-- The items of a written FEATURES column, or one empty item. -/
theorem splitOn_features {r : Row} (h : r.Clean) :
    r.features.splitOn '|' = if r.items = [] then [[]] else r.items := by
  split
  · next he => rw [Row.features, he]; rfl
  · next hne => exact List.splitOn_intercalate '|' (fun item hi => (h.items item hi).1) hne

/-- The last value in a written FEATURES column is the last value of its items. -/
theorem lastValue_features {r : Row} (h : r.Clean) {pre : Str} (hp : pre ≠ []) :
    lastValue pre (r.features.splitOn '|') = lastValue pre r.items := by
  rw [splitOn_features h]
  split
  · next he =>
    obtain ⟨c, pre, rfl⟩ := List.exists_cons_of_ne_nil hp
    rw [he]
    rfl
  · rfl

/-- Items without the prefix have no value. -/
theorem filterMap_valueOf_eq_nil {pre : Str} {items : List Str} (h : ∀ item ∈ items, startswith item pre = false) :
    items.filterMap (valueOf pre) = [] := by
  rw [List.filterMap_eq_nil_iff]
  intro item hi
  rw [valueOf, h item hi]
  rfl

/-- A plain row is not a stem. -/
theorem not_isStem_of_plain {k : Key} {r : Row} (hc : r.Clean) (hp : r.Plain) : ¬ (segmentOf k r).IsStem := by
  have hnone : ∀ pre, pre ≠ [] → (∀ item ∈ r.items, startswith item pre = false) →
      lastValue pre ((segmentOf k r).features.splitOn '|') = none := by
    intro pre hne hall
    show lastValue pre (r.features.splitOn '|') = none
    rw [lastValue_features hc hne, lastValue, filterMap_valueOf_eq_nil hall]
    rfl
  rw [Segment.IsStem, Segment.root, Segment.lem, Segment.pos, parseFeatures_eq,
    hnone rootPrefix apart_root_pos.ne_nil fun item hi => (hp item hi).1,
    hnone lemmaPrefix apart_lemma_pos.ne_nil fun item hi => (hp item hi).2.1,
    hnone posPrefix apart_root_pos.ne_nil' fun item hi => (hp item hi).2.2]
  simp

/-- The item of a value has this value. -/
theorem filterMap_valueOf_same (pre : Str) (v : Option Str) :
    (v.map (pre ++ ·)).toList.filterMap (valueOf pre) = v.toList := by
  cases v with
  | none => rfl
  | some x =>
    have hv : valueOf pre (pre ++ x) = some x := valueOf_eq_some_iff.mpr rfl
    simp [hv]

/-- The item of a value has no value for another prefix. -/
theorem filterMap_valueOf_apart {pre pre' : Str} (ha : Apart pre pre') (v : Option Str) :
    (v.map (pre ++ ·)).toList.filterMap (valueOf pre') = [] := by
  cases v with
  | none => rfl
  | some x => simp [ha.valueOf_eq_none (startswith_iff.mpr ⟨x, rfl⟩)]

/-- The items of a record have its values. -/
theorem filterMap_presentItems (w : MorphologyWord) :
    (presentItems w).filterMap (valueOf rootPrefix) = w.root.toList ∧
      (presentItems w).filterMap (valueOf lemmaPrefix) = w.lem.toList ∧
        (presentItems w).filterMap (valueOf posPrefix) = w.pos.toList := by
  simp only [presentItems, List.filterMap_append, filterMap_valueOf_same]
  refine ⟨?_, ?_, ?_⟩
  · rw [filterMap_valueOf_apart apart_root_lemma.symm, filterMap_valueOf_apart apart_root_pos.symm, List.append_nil,
      List.append_nil]
  · rw [filterMap_valueOf_apart apart_root_lemma, filterMap_valueOf_apart apart_lemma_pos.symm, List.nil_append,
      List.append_nil]
  · rw [filterMap_valueOf_apart apart_root_pos, filterMap_valueOf_apart apart_lemma_pos, List.nil_append,
      List.nil_append]

/-- The values of a stem row are those of the record. -/
theorem parseFeatures_of_stem {k : Key} {r : Row} {w : MorphologyWord} {others : List Str} (hc : r.Clean)
    (ho : ∀ item ∈ others, PlainItem item) (hp : r.items.Perm (presentItems w ++ others)) :
    parseFeatures (segmentOf k r).features = (w.root, w.lem, w.pos) := by
  have hvalue : ∀ pre, pre ≠ [] → (∀ item ∈ others, startswith item pre = false) →
      ∀ v : Option Str, (presentItems w).filterMap (valueOf pre) = v.toList →
      lastValue pre ((segmentOf k r).features.splitOn '|') = v := by
    intro pre hne hall v hv
    have hperm := hp.filterMap (valueOf pre)
    rw [List.filterMap_append, filterMap_valueOf_eq_nil hall, List.append_nil, hv] at hperm
    show lastValue pre (r.features.splitOn '|') = v
    rw [lastValue_features hc hne, lastValue]
    cases v with
    | none => rw [List.perm_nil.mp hperm]; rfl
    | some x => rw [List.perm_singleton.mp hperm]; rfl
  obtain ⟨hroot, hlem, hpos⟩ := filterMap_presentItems w
  rw [parseFeatures_eq, hvalue rootPrefix apart_root_pos.ne_nil (fun item hi => (ho item hi).1) w.root hroot,
    hvalue lemmaPrefix apart_lemma_pos.ne_nil (fun item hi => (ho item hi).2.1) w.lem hlem,
    hvalue posPrefix apart_root_pos.ne_nil' (fun item hi => (ho item hi).2.2) w.pos hpos]

/-! ## A written record -/

/-- The segments of plain rows have no stem. -/
theorem stemOf_plain {k : Key} {rows : List Row} (hc : ∀ r ∈ rows, r.Clean) (hp : ∀ r ∈ rows, r.Plain) :
    stemOf (rows.map (segmentOf k)) = none := by
  rw [stemOf, List.find?_eq_none]
  intro s hs
  obtain ⟨r, hr, rfl⟩ := List.mem_map.mp hs
  simpa using not_isStem_of_plain (hc r hr) (hp r hr)

/-- The rows of a record are not empty. -/
theorem Writes.ne_nil {w : MorphologyWord} {rows : List Row} (h : Writes w rows) : rows ≠ [] := by
  by_cases hp : presentItems w = []
  · obtain ⟨-, first, rest, rfl, -⟩ := h.plain hp
    simp
  · obtain ⟨prefixes, stem, suffixes, _, rfl, -⟩ := h.stem hp
    simp

/-- **The segments of the rows of a record aggregate to the record.** -/
theorem aggregate_of_writes {w : MorphologyWord} {rows : List Row} (h : Writes w rows) :
    aggregate (wordKey w) (rows.map (segmentOf (wordKey w))) = w := by
  by_cases hp : presentItems w = []
  · obtain ⟨hplain, first, rest, rfl, hform⟩ := h.plain hp
    have hnone : w.root = none ∧ w.lem = none ∧ w.pos = none := by
      simpa [presentItems, and_assoc] using hp
    rw [aggregate, stemOf_plain h.clean hplain]
    obtain ⟨s, a, n, f, root, lem, pos⟩ := w
    obtain ⟨rfl, rfl, rfl⟩ := hnone
    obtain rfl : first.form = f := hform
    rfl
  · obtain ⟨prefixes, stem, suffixes, others, rfl, hpre, -, hform, ho, hperm⟩ := h.stem hp
    have hfeat := parseFeatures_of_stem (k := wordKey w) (h.clean stem (by simp)) ho hperm
    have hstem : (segmentOf (wordKey w) stem).IsStem := by
      rw [Segment.IsStem, Segment.root, Segment.lem, Segment.pos, hfeat]
      by_contra hn
      apply hp
      simp only [not_or, not_not] at hn
      simp [presentItems, hn.1, hn.2.1, hn.2.2]
    -- the rows before the stem are passed over
    have hfind : stemOf ((prefixes ++ stem :: suffixes).map (segmentOf (wordKey w))) =
        some (segmentOf (wordKey w) stem) := by
      have hn := stemOf_plain (k := wordKey w) (fun r hr => h.clean r (List.mem_append_left _ hr)) hpre
      rw [stemOf] at hn
      rw [stemOf, List.map_append, List.find?_append, hn, List.map_cons, List.find?_cons_of_pos (by simpa using hstem)]
      rfl
    rw [aggregate, hfind, wordOf]
    simp only [Option.map_some, Option.getD_some, Option.bind_some, Segment.root, Segment.lem, Segment.pos, hfeat]
    obtain ⟨s, a, n, f, root, lem, pos⟩ := w
    obtain rfl : stem.form = f := hform
    rfl

/-! ## Written records -/

/-- The segments of records with their rows. -/
def segmentsOf (entries : List (MorphologyWord × List Row)) : List Segment :=
  entries.flatMap fun e => e.2.map (segmentOf (wordKey e.1))

/-- The runs of the segments are the records. -/
theorem isRuns_segmentsOf {entries : List (MorphologyWord × List Row)} (hw : ∀ e ∈ entries, Writes e.1 e.2)
    (hc : (entries.map fun e => wordKey e.1).IsChain (· ≠ ·)) :
    Seq.IsRuns Segment.key (segmentsOf entries)
      (entries.map fun e => (wordKey e.1, e.2.map (segmentOf (wordKey e.1)))) := by
  refine ⟨?_, fun q hq => ?_, fun q hq s hs => ?_, ?_⟩
  · rw [List.flatMap_map]
    rfl
  · obtain ⟨e, he, rfl⟩ := List.mem_map.mp hq
    simpa using (hw e he).ne_nil
  · obtain ⟨e, _, rfl⟩ := List.mem_map.mp hq
    obtain ⟨r, _, rfl⟩ := List.mem_map.mp hs
    rfl
  · rw [List.map_map]
    exact hc

/-- The segments of written records aggregate to the records. -/
theorem buildWords_segmentsOf {entries : List (MorphologyWord × List Row)} (hw : ∀ e ∈ entries, Writes e.1 e.2)
    (hc : (entries.map fun e => wordKey e.1).IsChain (· ≠ ·)) :
    buildWords (segmentsOf entries) = entries.map Prod.fst := by
  rw [buildWords_of_isRuns (isRuns_segmentsOf hw hc), List.map_map]
  exact List.map_congr_left fun e he => aggregate_of_writes (hw e he)

/-! ## Lines -/

/-- A written FEATURES column is a column. -/
theorem cleanColumn_features {r : Row} (h : r.Clean) : CleanColumn r.features := by
  refine ⟨fun hc => ?_, fun c hc => ?_⟩
  · rcases Seq.mem_intercalate hc with h' | ⟨item, hi, hci⟩
    · simp at h'
    · exact (h.items item hi).2.1 hci
  · rcases Seq.mem_intercalate hc with h' | ⟨item, hi, hci⟩
    · obtain rfl := List.mem_singleton.mp h'
      decide
    · exact (h.items item hi).2.2 c hci

/-- A line that is read as a data row. -/
abbrev IsDataRow (line : Str) : Prop := startswith line ['('] = true

section Lines

variable [Interpreter]

/-- `(s:a:w:g)` -/
def writeLocation (k : Key) (segment : Int) : Result Str := do
  let sura ← str k.1
  let aya ← str k.2.1
  let word ← str k.2.2
  let segment ← str segment
  .ok ('(' :: (sura ++ ':' :: (aya ++ ':' :: (word ++ ':' :: (segment ++ [')'])))))

/-- `(s:a:w:g)⟨tab⟩FORM⟨tab⟩TAG⟨tab⟩FEATURES` -/
def rowLine (k : Key) (r : Row) : Result Str := do
  let location ← writeLocation k r.segment
  .ok (location ++ '\t' :: (r.form ++ '\t' :: (r.tag ++ '\t' :: r.features)))

/-- The lines of records with their rows. -/
def writeLines (entries : List (MorphologyWord × List Row)) : Result (List Str) :=
  (entries.flatMap fun e => e.2.map fun r => (wordKey e.1, r)).mapM fun p => rowLine p.1 p.2

/-- A location is written as four integers with colons between them, in parentheses. -/
theorem writeLocation_inv {k : Key} {g : Int} {l : Str} (h : writeLocation k g = .ok l) :
    ∃ s a w t, str k.1 = .ok s ∧ str k.2.1 = .ok a ∧ str k.2.2 = .ok w ∧ str g = .ok t ∧
      l = '(' :: (s ++ ':' :: (a ++ ':' :: (w ++ ':' :: t)) ++ [')']) := by
  simp only [writeLocation, bind_eq_ok_iff, Except.ok.injEq] at h
  obtain ⟨s, hs, a, ha, w, hw, t, ht, rfl⟩ := h
  exact ⟨s, a, w, t, hs, ha, hw, ht, by simp⟩

/-- What holds of digits, signs and colons holds of all characters between the parentheses. -/
theorem forall_mem_location {P : Char → Prop} (hdec : ∀ c : Char, c.isDigit = true ∨ c = '-' → P c) (hcolon : P ':')
    {k : Key} {g : Int} {s a w t : Str} (hs : str k.1 = .ok s) (ha : str k.2.1 = .ok a) (hw : str k.2.2 = .ok w)
    (ht : str g = .ok t) : ∀ c ∈ s ++ ':' :: (a ++ ':' :: (w ++ ':' :: t)), P c := by
  intro c hc
  simp only [List.mem_append, List.mem_cons] at hc
  rcases hc with hc | rfl | hc | rfl | hc | rfl | hc
  · exact hdec c ((isDecimal_of_str hs).2 c hc)
  · exact hcolon
  · exact hdec c ((isDecimal_of_str ha).2 c hc)
  · exact hcolon
  · exact hdec c ((isDecimal_of_str hw).2 c hc)
  · exact hcolon
  · exact hdec c ((isDecimal_of_str ht).2 c hc)

/-- What is written as a location: no whitespace, and a parenthesis in front. -/
theorem writeLocation_chars {k : Key} {g : Int} {l : Str} (h : writeLocation k g = .ok l) :
    (∃ m, l = '(' :: m) ∧ ∀ c ∈ l, isSpace c = false := by
  obtain ⟨s, a, w, t, hs, ha, hw, ht, rfl⟩ := writeLocation_inv h
  refine ⟨⟨_, rfl⟩, fun c hc => ?_⟩
  rw [List.mem_cons, List.mem_append, List.mem_singleton] at hc
  rcases hc with rfl | hc | rfl
  · decide
  · exact forall_mem_location (fun _ => not_isSpace_of_isDecimal) (by decide) hs ha hw ht c hc
  · decide

/-- A written location is read back. -/
theorem parseLocation_writeLocation {k : Key} {g : Int} {l : Str} (h : writeLocation k g = .ok l) :
    parseLocation l = .ok ⟨k.1, k.2.1, k.2.2, g⟩ := by
  have hstrip : strip l = l := (Seq.trimmed_of_no_sep (writeLocation_chars h).2).trim_eq
  obtain ⟨s, a, w, t, hs, ha, hw, ht, rfl⟩ := writeLocation_inv h
  have hparen : ∀ c : Char, c.isDigit = true ∨ c = '-' → ['(', ')'].contains c = false := by
    rintro c (hd | rfl)
    · have h1 : c ≠ '(' := by rintro rfl; cases hd
      have h2 : c ≠ ')' := by rintro rfl; cases hd
      simp [h1, h2]
    · decide
  have hinner : Seq.Trimmed (fun c => ['(', ')'].contains c) (s ++ ':' :: (a ++ ':' :: (w ++ ':' :: t))) :=
    Seq.trimmed_of_no_sep (forall_mem_location hparen (by decide) hs ha hw ht)
  have hpad := Seq.trim_pad hinner (a := ['(']) (b := [')']) (by simp) (by simp)
  have hcolon : ∀ {n : Int} {u : Str}, str n = .ok u → ':' ∉ u := fun hu => notMem_of_str hu (by decide)
  rw [List.cons_append, List.nil_append] at hpad
  rw [parseLocation, hstrip, stripChars, ← List.cons_append, hpad, List.splitOn_append_cons_self_of_not_mem (hcolon hs),
    List.splitOn_append_cons_self_of_not_mem (hcolon ha), List.splitOn_append_cons_self_of_not_mem (hcolon hw),
    List.splitOn_eq_singleton (hcolon ht)]
  simp only [int_str hs, int_str ha, int_str hw, int_str ht]
  rfl

/-- **A written row is a data row without line breaks, and read as its segment.** -/
theorem readLine_rowLine {k : Key} {r : Row} (hr : r.Clean) {line : Str} (h : rowLine k r = .ok line) :
    IsDataRow line ∧ NoBreak line ∧ readLine line = .ok (some (segmentOf k r)) := by
  simp only [rowLine, bind_eq_ok_iff, Except.ok.injEq] at h
  obtain ⟨l, hl, rfl⟩ := h
  obtain ⟨⟨m, rfl⟩, hspace⟩ := writeLocation_chars hl
  have hf := cleanColumn_features hr
  have htab : '\t' ∉ '(' :: m := fun hm => by have := hspace _ hm; cases this
  have hnb : NoBreak ('(' :: m) := by
    intro c hc
    by_contra hb
    have := isSpace_of_isLineBreak (by simpa using hb)
    rw [hspace c hc] at this
    cases this
  refine ⟨rfl, ?_, ?_⟩
  · exact hnb.append (NoBreak.cons (by decide) (hr.form.2.append (NoBreak.cons (by decide)
      (hr.tag.2.append (NoBreak.cons (by decide) hf.2)))))
  · rw [readLine, if_neg (by simp [startswith]), List.splitOn_append_cons_self_of_not_mem htab,
      List.splitOn_append_cons_self_of_not_mem hr.form.1, List.splitOn_append_cons_self_of_not_mem hr.tag.1,
      List.splitOn_eq_singleton hf.1]
    simp only [parseLocation_writeLocation hl]
    rfl

/-! ## Malformed rows -/

/-- Four integers, separated by colons and in parentheses. -/
def IsLocation (location : Str) : Prop :=
  ∃ s a w g, (stripChars ['(', ')'] (strip location)).splitOn ':' = [s, a, w, g] ∧
    (∃ n, int s = .ok n) ∧ (∃ n, int a = .ok n) ∧ (∃ n, int w = .ok n) ∧ ∃ n, int g = .ok n

/-- A data row with fewer than four columns, or without a location. -/
structure Malformed (line : Str) : Prop where
  data : IsDataRow line
  bad : (line.splitOn '\t').length < 4 ∨ ¬ IsLocation ((line.splitOn '\t').headD [])

theorem onlyValueError_parseLocation (location : Str) : OnlyValueError (parseLocation location) := by
  rw [parseLocation]
  split
  · refine (onlyValueError_int _).bind fun _ _ => (onlyValueError_int _).bind fun _ _ => ?_
    exact (onlyValueError_int _).bind fun _ _ => (onlyValueError_int _).bind fun _ _ => .ok _
  · exact .valueError _

theorem onlyValueError_readLine (line : Str) : OnlyValueError (readLine line) := by
  rw [readLine]
  split
  · exact .ok _
  · split
    · exact (onlyValueError_parseLocation _).bind fun _ _ => .ok _
    · exact .valueError _

theorem onlyValueError_readSegments (raw : Str) : OnlyValueError (readSegments raw) :=
  (OnlyValueError.mapM fun line _ => onlyValueError_readLine line).bind fun _ _ => .ok _

/-- What is read as a location is one. -/
theorem isLocation_of_parseLocation {location : Str} {l : Location} (h : parseLocation location = .ok l) :
    IsLocation location := by
  rw [parseLocation] at h
  split at h
  · next s a w g hs =>
    simp only [bind_eq_ok_iff, Except.ok.injEq] at h
    obtain ⟨n1, h1, n2, h2, n3, h3, n4, h4, -⟩ := h
    exact ⟨s, a, w, g, hs, ⟨n1, h1⟩, ⟨n2, h2⟩, ⟨n3, h3⟩, ⟨n4, h4⟩⟩
  · cases h

/-- A malformed row is not read. -/
theorem Malformed.not_read {line : Str} (h : Malformed line) : ¬ ∃ seg, readLine line = .ok seg := by
  rintro ⟨seg, hseg⟩
  have hd : ¬ (line = [] ∨ startswith line ['#'] = true ∨ ¬ startswith line ['('] = true) := by
    have hp := h.data
    obtain ⟨m, rfl⟩ := startswith_iff.mp hp
    simp [startswith]
  rw [readLine, if_neg hd] at hseg
  split at hseg
  · next location form tag features rest hcols =>
    rcases h.bad with hb | hb
    · rw [hcols] at hb
      simp only [List.length_cons] at hb
      omega
    · rw [bind_eq_ok_iff] at hseg
      obtain ⟨l, hl, -⟩ := hseg
      rw [hcols] at hb
      exact hb (isLocation_of_parseLocation hl)
  · cases hseg

/-- **A text with a malformed row raises `ValueError`.** -/
theorem malformed_isValueError {layout : List Str} (hb : ∀ line ∈ layout, NoBreak line) {bad : Str}
    (hbad : bad ∈ layout) (h : Malformed bad) : IsValueError (readSegments (unlines layout)) := by
  refine (onlyValueError_readSegments _).isValueError ?_
  rintro ⟨segs, hs⟩
  rw [readSegments, splitlines_unlines hb, bind_eq_ok_iff] at hs
  obtain ⟨rows, hrows, -⟩ := hs
  exact h.not_read (exists_of_mapM_eq_ok hrows hbad)

/-! ## Reading undoes writing -/

/-- A line that is not a data row is skipped. -/
theorem readLine_of_not_isDataRow {line : Str} (h : ¬ IsDataRow line) : readLine line = .ok none := by
  rw [readLine, if_pos (Or.inr (Or.inr h))]

/-- A data row is not skipped. -/
theorem readLine_ne_none {line : Str} (h : IsDataRow line) : readLine line ≠ .ok none := by
  intro hn
  obtain ⟨m, rfl⟩ := startswith_iff.mp h
  rw [readLine, if_neg (by simp [startswith])] at hn
  split at hn
  · rw [bind_eq_ok_iff] at hn
    obtain ⟨_, _, hn⟩ := hn
    cases hn
  · cases hn

/-- The reader returns one segment for each data row. -/
theorem readSegments_eq_ok_iff {raw : Str} {segs : List Segment} : readSegments raw = .ok segs ↔
    List.Forall₂ (fun line seg => readLine line = .ok (some seg))
      ((splitlines raw).filter fun line => IsDataRow line) segs := by
  rw [← mapM_reduceOption_iff (P := IsDataRow) (fun _ => readLine_of_not_isDataRow) fun _ => readLine_ne_none]
  simp only [readSegments, bind_eq_ok_iff, Except.ok.injEq]

/-- The written lines, each with the segment that it is read as. -/
theorem forall₂_writeLines {entries : List (MorphologyWord × List Row)} (hw : ∀ e ∈ entries, Writes e.1 e.2)
    {lines : List Str} (hl : writeLines entries = .ok lines) :
    List.Forall₂ (fun line seg => IsDataRow line ∧ NoBreak line ∧ readLine line = .ok (some seg)) lines
      (segmentsOf entries) := by
  have hrows := (List.forall₂_and_left _ _).mpr ⟨fun _ hp => hp, mapM_eq_ok_iff.mp hl⟩
  have hsegs : segmentsOf entries =
      (entries.flatMap fun e => e.2.map fun r => (wordKey e.1, r)).map fun p => segmentOf p.1 p.2 := by
    rw [segmentsOf, List.map_flatMap]
    simp only [List.map_map]
    rfl
  rw [hsegs, List.forall₂_map_right_iff]
  refine (List.Forall₂.flip hrows).imp fun line p ⟨hp, hline⟩ => ?_
  obtain ⟨e, he, hp⟩ := List.mem_flatMap.mp hp
  obtain ⟨r, hr, rfl⟩ := List.mem_map.mp hp
  exact readLine_rowLine ((hw e he).clean r hr) hline

/-- **Reading undoes writing**, whatever skipped lines stand between the rows; a malformed row in place of another
raises `ValueError`. -/
theorem buildWords_of_written {entries : List (MorphologyWord × List Row)} (hw : ∀ e ∈ entries, Writes e.1 e.2)
    (hc : (entries.map fun e => wordKey e.1).IsChain (· ≠ ·)) {lines : List Str} (hl : writeLines entries = .ok lines) :
    (∀ line ∈ lines, IsDataRow line ∧ NoBreak line) ∧
      ∀ layout, (∀ line ∈ layout, NoBreak line) → (layout.filter fun line => IsDataRow line) = lines →
        (∃ segs, readSegments (unlines layout) = .ok segs ∧ buildWords segs = entries.map Prod.fst) ∧
          ∀ before row after bad, layout = before ++ row :: after → IsDataRow row → NoBreak bad → Malformed bad →
            IsValueError (readSegments (unlines (before ++ bad :: after))) := by
  have hlines := forall₂_writeLines hw hl
  refine ⟨fun line hm => ?_, fun layout hb hf => ⟨⟨segmentsOf entries, ?_, buildWords_segmentsOf hw hc⟩, ?_⟩⟩
  · obtain ⟨_, -, h1, h2, -⟩ := exists_of_forall₂ hlines hm
    exact ⟨h1, h2⟩
  · rw [readSegments_eq_ok_iff, splitlines_unlines hb, hf]
    exact hlines.imp fun _ _ h => h.2.2
  · rintro before row after bad rfl - hnb hbad
    refine malformed_isValueError (fun line hm => ?_) (List.mem_append_right _ List.mem_cons_self) hbad
    rcases List.mem_append.mp hm with hm | hm
    · exact hb line (List.mem_append_left _ hm)
    · rcases List.mem_cons.mp hm with rfl | hm
      · exact hnb
      · exact hb line (List.mem_append_right _ (List.mem_cons_of_mem _ hm))

end Lines

/-- A word with a prefix and a stem, and a particle. -/
def sampleEntries : List (MorphologyWord × List Row) :=
  [(⟨1, 1, 1, "somi".toList, some "smw".toList, some "\x7bsom".toList, some "N".toList⟩,
      [⟨1, "bi".toList, "P".toList, ["PREFIX".toList, "bi+".toList]⟩,
        ⟨2, "somi".toList, "N".toList, ["STEM".toList, "POS:N".toList, "LEM:\x7bsom".toList, "ROOT:smw".toList]⟩]),
    (⟨1, 1, 2, "wa".toList, none, none, none⟩, [⟨1, "wa".toList, "CONJ".toList, ["PREFIX".toList]⟩])]

/-- The rows between a header and a comment. -/
def sampleLayout : List Str :=
  ["LOCATION\tFORM\tTAG\tFEATURES".toList, "(1:1:1:1)\tbi\tP\tPREFIX|bi+".toList,
    "(1:1:1:2)\tsomi\tN\tSTEM|POS:N|LEM:\x7bsom|ROOT:smw".toList, "".toList, "# (1:1:2:1)".toList,
    "(1:1:2:1)\twa\tCONJ\tPREFIX".toList]

theorem writes_sampleEntries : ∀ e ∈ sampleEntries, Writes e.1 e.2 := by
  intro e he
  rcases List.mem_cons.mp he with rfl | he
  · exact ⟨by decide, fun h => absurd h (by decide), fun _ =>
      ⟨[⟨1, "bi".toList, "P".toList, ["PREFIX".toList, "bi+".toList]⟩], _, [], ["STEM".toList], rfl, by decide,
        by decide, rfl, by decide, by decide⟩⟩
  · rcases List.mem_cons.mp he with rfl | he
    · exact ⟨by decide, fun _ => ⟨by decide, _, _, rfl, rfl⟩, fun h => absurd rfl h⟩
    · cases he

/-- The rows of the sample are read back. -/
theorem buildWords_of_written_sample : ∃ segs, @readSegments defaultInterpreter (unlines sampleLayout) = .ok segs ∧
    buildWords segs = sampleEntries.map Prod.fst :=
  ((@buildWords_of_written defaultInterpreter sampleEntries writes_sampleEntries (by decide) _ rfl).2 sampleLayout
    (by decide) (by decide)).1

end Morphology

end QuranAnalysis
