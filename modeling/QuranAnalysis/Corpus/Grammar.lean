import QuranAnalysis.Corpus.Load

/-!
# The grammar of corpus files

`Grammar raw` describes the accepted texts line by line, without reference to the loader: every data line has two bars
behind two integers, the suras first appear as `1..N`, and the ayas of each are listed as `1..k`.

- `parseLines_eq_ok_iff`: the reader returns one record for each data line.
- `grammar_iff`: the grammar is `Numbered` for these records.
- `Lists.congr`: only the order inside each sura matters.
- `loadCorpus_grammar`: the loader accepts exactly the grammar.
-/

namespace QuranAnalysis

open Py

/-! ## Data lines -/

/-- A line that is neither blank nor a comment. -/
def IsData (line : Str) : Prop := strip line ≠ [] ∧ startswith (strip line) ['#'] = false

instance (line : Str) : Decidable (IsData line) := inferInstanceAs (Decidable (_ ∧ _))

theorem IsData.not_skipped {line : Str} (h : IsData line) :
    ¬ (strip line = [] ∨ startswith (strip line) ['#'] = true) := by
  rintro (h1 | h2)
  · exact h.1 h1
  · rw [h.2] at h2; cases h2

/-- Whether a line is skipped shows at its first character that is not whitespace. -/
theorem isData_iff_head? {line : Str} : IsData line ↔ ∃ c, (strip line).head? = some c ∧ c ≠ '#' := by
  unfold IsData
  cases strip line with
  | nil => simp
  | cons c s =>
    have hc : startswith (c :: s) ['#'] = false ↔ c ≠ '#' := by
      rw [startswith, List.isPrefixOf_cons_cons, List.isPrefixOf_nil_left, Bool.and_true, beq_eq_false_iff_ne, ne_comm]
    simp [hc]

/-- The lines that are neither blank nor comments. -/
def dataLines (raw : Str) : List Str := (splitlines raw).filter IsData

/-- A line has fewer than two bars, or two fields in front of its text. -/
theorem few_bars_or_fields (line : Str) : line.count '|' < 2 ∨
    ∃ f g text, '|' ∉ f ∧ '|' ∉ g ∧ line = f ++ '|' :: (g ++ '|' :: text) := by
  rcases Seq.notMem_or_split '|' line with hl | ⟨f, m, hf, rfl⟩
  · exact Or.inl (by rw [List.count_eq_zero.mpr hl]; omega)
  · rcases Seq.notMem_or_split '|' m with hm | ⟨g, text, hg, rfl⟩
    · exact Or.inl (by rw [List.count_append, List.count_cons_self, List.count_eq_zero.mpr hf,
        List.count_eq_zero.mpr hm]; omega)
    · exact Or.inr ⟨f, g, text, hf, hg, rfl⟩

theorem splitOn_of_fields {f g text : Str} (hf : '|' ∉ f) (hg : '|' ∉ g) :
    (f ++ '|' :: (g ++ '|' :: text)).splitOn '|' = f :: g :: text.splitOn '|' := by
  rw [List.splitOn_append_cons_self_of_not_mem hf, List.splitOn_append_cons_self_of_not_mem hg]

theorem isData_of_mem_dataLines {raw line : Str} (h : line ∈ dataLines raw) : IsData line := by
  simpa using (List.mem_filter.mp h).2

section Lines

variable [Interpreter]

/-- The integer in field `i` of a line, if `int()` accepts it. -/
def fieldNumber (i : Nat) (line : Str) : Option Int := (line.splitOn '|')[i]?.bind fun field => (int field).toOption

/-- At least two bars, and integers in front of the first two. -/
structure WellFormedLine (line : Str) : Prop where
  bars : 2 ≤ line.count '|'
  sura : (fieldNumber 0 line).isSome
  aya : (fieldNumber 1 line).isSome

/-- A skipped line gives no record. -/
theorem parseLine_of_not_isData {line : Str} (h : ¬ IsData line) : parseLine line = .ok none := by
  rw [parseLine, if_pos]
  by_cases h1 : strip line = []
  · exact Or.inl h1
  · exact Or.inr (by simpa using fun h2 => h ⟨h1, h2⟩)

/-- A data line with at least two bars. -/
theorem parseLine_of_bars {f g text : Str} (hf : '|' ∉ f) (hg : '|' ∉ g)
    (hd : IsData (f ++ '|' :: (g ++ '|' :: text))) : parseLine (f ++ '|' :: (g ++ '|' :: text)) =
      (do
        let sura ← int f
        let aya ← int g
        .ok (some ⟨sura, aya, strip text⟩)) := by
  rw [parseLine, if_neg hd.not_skipped, Seq.splitMax_append_cons hf, Seq.splitMax_append_cons hg, Seq.splitMax]

/-- What a data line with two bars is read as. -/
theorem parseLine_of_bars_eq_some {f g text : Str} (hf : '|' ∉ f) (hg : '|' ∉ g)
    (hd : IsData (f ++ '|' :: (g ++ '|' :: text))) {r : Record} :
    parseLine (f ++ '|' :: (g ++ '|' :: text)) = .ok (some r) ↔
      int f = .ok r.sura ∧ int g = .ok r.aya ∧ r.text = strip text := by
  rw [parseLine_of_bars hf hg hd]
  simp only [bind_eq_ok_iff, Except.ok.injEq, Option.some.injEq]
  constructor
  · rintro ⟨s, hs, a, ha, rfl⟩
    exact ⟨hs, ha, rfl⟩
  · rintro ⟨hs, ha, ht⟩
    exact ⟨_, hs, _, ha, by rw [← ht]⟩

/-- A data line with fewer bars is malformed. -/
theorem parseLine_of_few_bars {line : Str} (hd : IsData line) (h : line.count '|' < 2) :
    IsValueError (parseLine line) := by
  rw [parseLine, if_neg hd.not_skipped]
  rcases Seq.notMem_or_split '|' line with hl | ⟨f, m, hf, rfl⟩
  · rw [Seq.splitMax_of_notMem hl]
    exact ⟨_, rfl⟩
  · rw [List.count_append, List.count_cons_self] at h
    rw [Seq.splitMax_append_cons hf, Seq.splitMax_of_notMem (List.count_eq_zero.mp (by omega))]
    exact ⟨_, rfl⟩

/-- What a data line is read as: the integers of its first two fields. -/
theorem parseLine_eq_some {line : Str} (hd : IsData line) {r : Record} (h : parseLine line = .ok (some r)) :
    WellFormedLine line ∧ fieldNumber 0 line = some r.sura ∧ fieldNumber 1 line = some r.aya := by
  rcases few_bars_or_fields line with hb | ⟨f, g, text, hf, hg, rfl⟩
  · obtain ⟨msg, he⟩ := parseLine_of_few_bars hd hb
    rw [he] at h; cases h
  · obtain ⟨hs, ha, -⟩ := (parseLine_of_bars_eq_some hf hg hd).mp h
    have h0 : fieldNumber 0 (f ++ '|' :: (g ++ '|' :: text)) = some r.sura := by
      rw [fieldNumber, splitOn_of_fields hf hg]; simp [hs, Except.toOption]
    have h1 : fieldNumber 1 (f ++ '|' :: (g ++ '|' :: text)) = some r.aya := by
      rw [fieldNumber, splitOn_of_fields hf hg]; simp [ha, Except.toOption]
    refine ⟨⟨?_, by rw [h0]; rfl, by rw [h1]; rfl⟩, h0, h1⟩
    simp only [List.count_append, List.count_cons_self]
    omega

/-- A well-formed data line is read. -/
theorem WellFormedLine.exists_record {line : Str} (hd : IsData line) (h : WellFormedLine line) :
    ∃ r, parseLine line = .ok (some r) := by
  rcases few_bars_or_fields line with hb | ⟨f, g, text, hf, hg, rfl⟩
  · have := h.bars; omega
  · have hs := h.sura
    have ha := h.aya
    rw [fieldNumber, splitOn_of_fields hf hg] at hs ha
    rw [parseLine_of_bars hf hg hd]
    cases hf' : int f with
    | error e => simp [hf', Except.toOption] at hs
    | ok s =>
      cases hg' : int g with
      | error e => simp [hg', Except.toOption] at ha
      | ok a => exact ⟨_, rfl⟩

/-- A data line is not skipped. -/
theorem parseLine_ne_none {line : Str} (hd : IsData line) : parseLine line ≠ .ok none := by
  intro h
  rcases few_bars_or_fields line with hb | ⟨f, g, text, hf, hg, rfl⟩
  · obtain ⟨msg, he⟩ := parseLine_of_few_bars hd hb
    rw [he] at h; cases h
  · rw [parseLine_of_bars hf hg hd] at h
    simp only [bind_eq_ok_iff, Except.ok.injEq] at h
    obtain ⟨_, _, _, _, h⟩ := h
    cases h

/-- **The reader returns one record for each data line.** -/
theorem parseLines_eq_ok_iff {raw : Str} {records : List Record} : parseLines raw = .ok records ↔
    List.Forall₂ (fun line r => parseLine line = .ok (some r)) (dataLines raw) records := by
  rw [dataLines, ← mapM_reduceOption_iff (P := IsData) (fun _ => parseLine_of_not_isData) fun _ => parseLine_ne_none]
  simp only [parseLines, bind_eq_ok_iff, Except.ok.injEq]

/-! ## The grammar -/

/-- The texts that the loader accepts: two bars behind two integers on every data line, suras that first appear as
`1..N` with `N ≥ 1`, and ayas that are listed as `1..k` for each sura. -/
structure Grammar (raw : Str) : Prop where
  lines : ∀ line ∈ dataLines raw, WellFormedLine line
  suras : ∃ N, 1 ≤ N ∧ ((dataLines raw).filterMap (fieldNumber 0)).eraseDups = oneTo N
  ayas : ∀ s ∈ (dataLines raw).filterMap (fieldNumber 0), ∃ k,
    ((dataLines raw).filter (fun line => fieldNumber 0 line = some s)).filterMap (fieldNumber 1) = oneTo k

/-- Lines and the records that carry their numbers. -/
abbrev Carries (line : Str) (r : Record) : Prop :=
  fieldNumber 0 line = some r.sura ∧ fieldNumber 1 line = some r.aya

theorem carries_of_parseLines {raw : Str} {records : List Record} (h : parseLines raw = .ok records) :
    List.Forall₂ Carries (dataLines raw) records := by
  have h1 := (List.forall₂_and_left _ _).mpr ⟨fun _ => isData_of_mem_dataLines, parseLines_eq_ok_iff.mp h⟩
  exact h1.imp fun _ _ hr => (parseLine_eq_some hr.1 hr.2).2

/-- A number that stands in a line can be written. -/
theorem exists_str_of_fieldNumber {i : Nat} {line : Str} {n : Int} (h : fieldNumber i line = some n) :
    ∃ t, str n = .ok t := by
  obtain ⟨field, -, hf⟩ := Option.bind_eq_some_iff.mp h
  cases hi : int field with
  | error e => simp [hi, Except.toOption] at hf
  | ok m =>
    obtain rfl : m = n := by simpa [hi, Except.toOption] using hf
    exact str_of_int hi

/-- The numbers of a record that was read can be written. -/
theorem exists_str_of_mem {raw : Str} {records : List Record} (hp : parseLines raw = .ok records) {r : Record}
    (hr : r ∈ records) : (∃ t, str r.sura = .ok t) ∧ ∃ t, str r.aya = .ok t := by
  have hflip : List.Forall₂ (fun r line => Carries line r) records (dataLines raw) :=
    List.Forall₂.flip (carries_of_parseLines hp)
  obtain ⟨line, -, h0, h1⟩ := exists_of_forall₂ hflip hr
  exact ⟨exists_str_of_fieldNumber h0, exists_str_of_fieldNumber h1⟩

/-- The sura numbers of the lines are those of the records. -/
theorem suras_of_carries {ls : List Str} {records : List Record} (h : List.Forall₂ Carries ls records) :
    ls.filterMap (fieldNumber 0) = records.map (·.sura) := by
  induction h with
  | nil => rfl
  | cons hr _ ih => rw [List.filterMap_cons, hr.1, ih, List.map_cons]

/-- In each sura, the aya numbers of the lines are those of the records. -/
theorem ayas_of_carries {ls : List Str} {records : List Record} (h : List.Forall₂ Carries ls records) (s : Int) :
    (ls.filter (fun line => fieldNumber 0 line = some s)).filterMap (fieldNumber 1) =
      (records.filter (fun r => r.sura = s)).map (·.aya) := by
  induction h with
  | nil => rfl
  | @cons line r _ _ hr _ ih =>
    rw [List.filter_cons, List.filter_cons, hr.1]
    by_cases hs : r.sura = s
    · simp [hs, hr.2, ih]
    · simp [hs, ih]

/-- If every data line is well-formed, the reader returns. -/
theorem exists_records {raw : Str} (h : ∀ line ∈ dataLines raw, WellFormedLine line) :
    ∃ records, parseLines raw = .ok records := by
  cases hp : (splitlines raw).mapM parseLine with
  | ok rows => exact ⟨_, by rw [parseLines, hp]; rfl⟩
  | error e =>
    obtain ⟨line, hl, he⟩ := exists_of_mapM_eq_error hp
    by_cases hd : IsData line
    · obtain ⟨r, hr⟩ := (h line (List.mem_filter.mpr ⟨hl, by simpa using hd⟩)).exists_record hd
      rw [hr] at he; cases he
    · rw [parseLine_of_not_isData hd] at he; cases he

/-- **The grammar is the numbering of the records that are read.** -/
theorem grammar_iff {raw : Str} : Grammar raw ↔ ∃ records, parseLines raw = .ok records ∧ Numbered records := by
  constructor
  · intro h
    obtain ⟨records, hr⟩ := exists_records h.lines
    have hc := carries_of_parseLines hr
    refine ⟨records, hr, ⟨?_, fun s hs => ?_⟩⟩
    · rw [← suras_of_carries hc]
      exact h.suras
    · rw [← ayas_of_carries hc]
      exact h.ayas s (by rwa [suras_of_carries hc])
  · rintro ⟨records, hr, hn⟩
    have hc := carries_of_parseLines hr
    refine ⟨fun line hl => ?_, ?_, fun s hs => ?_⟩
    · obtain ⟨r, -, hlr⟩ := exists_of_forall₂ (parseLines_eq_ok_iff.mp hr) hl
      exact (parseLine_eq_some (isData_of_mem_dataLines hl) hlr).1
    · rw [suras_of_carries hc]
      exact hn.order
    · rw [ayas_of_carries hc]
      exact hn.rows s (by rwa [suras_of_carries hc] at hs)

end Lines

/-! ## Interleaving -/

/-- Sura by sura the same ayas and texts. -/
def SameSuras (records records' : List Record) : Prop :=
  ∀ s, (records.filter (fun r => r.sura = s)).map (fun r => (r.aya, r.text)) =
    (records'.filter (fun r => r.sura = s)).map fun r => (r.aya, r.text)

/-- The same suras occur. -/
theorem SameSuras.mem_sura_iff {records records' : List Record} (h : SameSuras records records') {s : Int} :
    s ∈ records.map (·.sura) ↔ s ∈ records'.map (·.sura) := by
  have hne : ∀ rs : List Record, s ∈ rs.map (·.sura) ↔
      (rs.filter (fun r => r.sura = s)).map (fun r => (r.aya, r.text)) ≠ [] := by
    intro rs
    simp [List.filter_eq_nil_iff]
  rw [hne, hne, h s]

/-- However the suras are interleaved, records that are the same sura by sura list the same mushaf. -/
theorem Lists.congr {records records' : List Record} {M M' : Mushaf} (h : Lists records M) (h' : Lists records' M')
    (hs : SameSuras records records') : Lists records' M := by
  have hlen : M'.suras.length = M.suras.length := by
    have hiff : ∀ s : Int, (1 ≤ s ∧ s ≤ M'.suras.length) ↔ 1 ≤ s ∧ s ≤ M.suras.length := by
      intro s
      rw [← h.mem_sura_iff, ← h'.mem_sura_iff, hs.mem_sura_iff]
    have h1 := hiff M.suras.length
    have h2 := hiff M'.suras.length
    have hpos := List.length_pos_iff.mpr M.ne_nil
    have hpos' := List.length_pos_iff.mpr M'.ne_nil
    omega
  refine ⟨by rw [h'.order, hlen], fun n vs hv => ?_⟩
  have hrows := congrArg (List.map fun p : Int × Str => (p.1, split p.2)) (hs ((n : Int) + 1))
  rw [List.map_map, List.map_map] at hrows
  rw [← h.rows n vs hv]
  exact hrows.symm

/-! ## The loader -/

/-- **The loader accepts exactly the grammar**, raises `ValueError` on everything else, and sees only the order inside
each sura. -/
theorem loadCorpus_grammar [Interpreter] {edition : Str} (hed : (editionFiles.lookup edition).isSome) :
    (∀ raw, (∃ c, loadCorpus edition raw = .ok c) ↔ Grammar raw) ∧
      (∀ raw, ¬ Grammar raw → IsValueError (loadCorpus edition raw)) ∧
      ∀ raw raw' records records' c c', parseLines raw = .ok records → parseLines raw' = .ok records' →
        SameSuras records records' → loadCorpus edition raw = .ok c → loadCorpus edition raw' = .ok c' → c = c' := by
  have haccept : ∀ raw, (∃ c, loadCorpus edition raw = .ok c) ↔ Grammar raw := by
    intro raw
    rw [grammar_iff]
    constructor
    · rintro ⟨c, hc⟩
      exact numbered_of_loadCorpus hc
    · rintro ⟨records, hp, hn⟩
      obtain ⟨M, hM⟩ := hn.exists_lists
      exact ⟨_, loadCorpus_of_lists hed hp hM⟩
  refine ⟨haccept, fun raw hg => ?_, fun raw raw' records records' c c' hp hp' hs hc hc' => ?_⟩
  · exact (onlyValueError_loadCorpus edition raw).isValueError fun h => hg ((haccept raw).mp h)
  · obtain ⟨_, M, hq, hM, rfl⟩ := lists_of_loadCorpus hc
    obtain ⟨_, M', hq', hM', rfl⟩ := lists_of_loadCorpus hc'
    rw [hp] at hq
    rw [hp'] at hq'
    cases hq
    cases hq'
    have hload := loadCorpus_of_lists hed hp' (hM.congr hM' hs)
    rw [hc'] at hload
    exact (Except.ok.inj hload).symm

/-- The small file follows the grammar. -/
theorem loadCorpus_grammar_sample : @Grammar defaultInterpreter sampleText :=
  ((@loadCorpus_grammar defaultInterpreter "uthmani".toList (by decide)).1 sampleText).mp ⟨_, loadUthmani_sample⟩

end QuranAnalysis
