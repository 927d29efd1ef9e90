import QuranAnalysis.Seq.Escape
import QuranAnalysis.Claims.Report

/-!
# The report can be read back

A reader of the table splits a line at the bars that do not follow a backslash, drops the outer empty pieces, trims
spaces and removes the backslashes in front of bars.

- `readRow_tableRow`: this gives back the texts of a row, with whitespace collapsed.
- `renderReport_eq_ok_iff`: the lines of a report, and when it is written.
- `renderReport_readable`: every report can be read back (`ReadsBack`), and one is written for every register with a
  result for each claim, as long as the integers can be written.
-/

namespace QuranAnalysis

open Py

/-! ## The reader -/

/-- The line between the head of the table and its body. -/
def separatorRow : Str := tableRow (columns.map fun _ => "---".toList)

/-- The lines of the table behind its head. -/
def tableBody (text : Str) : List Str := ((splitlines text).dropWhile fun l => l ≠ separatorRow).drop 1

/-- The cells of a line of the table. -/
def readRow (row : Str) : List Str :=
  (Seq.trim List.isEmpty (Seq.splitUnescaped '\\' '|' false row)).map fun piece =>
    Seq.unescape '\\' '|' (Seq.trim (· == ' ') piece)

/-- The value of a block of digits. -/
def readNumber (ds : Str) : Nat := ofDigits (ds.map fun c => c.toNat - 48)

/-- The numbers in a line. -/
def readNumbers (line : Str) : List Nat := (Seq.fields (fun c => !c.isDigit) line).map readNumber

/-- The numbers in the line of the summary. -/
def summaryNumbers (text : Str) : List Nat :=
  (((splitlines text).find? fun l => startswith l "**Summary:**".toList).map readNumbers).getD []

/-! ## Rows -/

/-- Whitespace is collapsed: no line break is left. -/
theorem noBreak_collapse (text : Str) : NoBreak (collapse text) := noBreak_join fun _ => isToken_of_mem_split

/-- No space is left at the ends. -/
theorem trimmed_collapse (text : Str) : Seq.Trimmed (· == ' ') (collapse text) := by
  have h : Seq.Trimmed isSpace (collapse text) := Seq.trimmed_intercalate [' '] fun _ => isToken_of_mem_split
  refine h.mono fun c hc => ?_
  rw [beq_eq_false_iff_ne]
  rintro rfl
  cases hc

theorem cell_eq_escape (text : Str) : cell text = Seq.escape '\\' '|' (collapse text) := rfl

theorem noBreak_cell (text : Str) : NoBreak (cell text) := by
  intro c hc
  rcases Seq.mem_escape (cell_eq_escape text ▸ hc) with rfl | h
  · decide
  · exact noBreak_collapse text c h

/-- A cell between its spaces reads as its text. -/
theorem unescape_trim_cell (text : Str) :
    Seq.unescape '\\' '|' (Seq.trim (· == ' ') (' ' :: cell text ++ [' '])) = collapse text := by
  have h : Seq.Trimmed (· == ' ') (cell text) := (trimmed_collapse text).escape (by decide)
  have htrim : Seq.trim (· == ' ') (' ' :: cell text ++ [' ']) = cell text :=
    Seq.trim_pad h (a := [' ']) (b := [' ']) (by simp) (by simp)
  rw [htrim, cell_eq_escape, Seq.unescape_escape (by decide)]

/-- A row is a bar, and then every cell with a space on both sides and a bar. -/
theorem tableRow_eq : ∀ {cells : List Str}, cells ≠ [] →
    tableRow cells = '|' :: (cells.map (' ' :: ·)).flatMap (· ++ [' ', '|'])
  | [c], _ => by simp [tableRow]
  | c :: d :: cells, _ => by
    have ih := @tableRow_eq (d :: cells) (by simp)
    simp only [tableRow, String.reduceToList, List.cons_append, List.nil_append, List.cons.injEq, true_and] at ih ⊢
    rw [List.intercalate_cons_of_ne_nil (by simp), List.map_cons, List.flatMap_cons, ← ih]
    simp

/-- **The cells of a row are read back.** -/
theorem readRow_tableRow {texts : List Str} (h : texts ≠ []) :
    readRow (tableRow (texts.map cell)) = texts.map collapse := by
  let bodies := (texts.map cell).map (' ' :: ·)
  have hesc : ∀ b ∈ bodies, Seq.SepsEscaped '\\' '|' false b := by
    intro b hb
    obtain ⟨_, ht, rfl⟩ := List.mem_map.mp hb
    obtain ⟨t, -, rfl⟩ := List.mem_map.mp ht
    exact ⟨fun e => absurd e (by decide), Seq.sepsEscaped_escape (by decide) _ _⟩
  have hsplit : Seq.splitUnescaped '\\' '|' false (tableRow (texts.map cell)) =
      [[]] ++ bodies.map (· ++ [' ']) ++ [[]] := by
    rw [tableRow_eq (by simpa using h), Seq.splitUnescaped, if_pos ⟨rfl, rfl⟩]
    exact congrArg _ (Seq.splitUnescaped_flatMap (by decide) (by decide) (by decide) hesc)
  have hne : ∀ p ∈ bodies.map (· ++ [' ']), List.isEmpty p = false := by
    intro p hp
    obtain ⟨b, -, rfl⟩ := List.mem_map.mp hp
    simp
  rw [readRow, hsplit, Seq.trim_pad (Seq.trimmed_of_no_sep hne) (by simp) (by simp)]
  simp only [bodies, List.map_map]
  exact List.map_congr_left fun t _ => unescape_trim_cell t

/-- The cells are on one line. -/
theorem noBreak_tableRow {cells : List Str} (h : ∀ c ∈ cells, NoBreak c) : NoBreak (tableRow cells) := by
  have hmid : NoBreak (" | ".toList.intercalate cells) := NoBreak.intercalate (by decide) h
  exact ((show NoBreak "| ".toList by decide).append hmid).append (by decide)

/-! ## Numbers -/

/-- The first number behind other characters is read. -/
theorem readNumbers_append {a : Str} (ha : a.all (fun c => !c.isDigit) = true) (n : Nat) {c : Char}
    (hc : c.isDigit = false) (l : Str) : readNumbers (a ++ (Nat.toDigits 10 n ++ c :: l)) = n :: readNumbers l := by
  have hfield : Seq.IsField (fun c : Char => !c.isDigit) (Nat.toDigits 10 n) :=
    ⟨Nat.toDigits_ne_nil, fun d hd => by simp [isDigit_of_mem_toDigits hd]⟩
  rw [readNumbers, Seq.fields_append_left (List.all_eq_true.mp ha), hfield.fields_append_sep (by simpa using hc),
    List.map_cons, readNumber, ofDigits_toDigits]
  rfl

/-- A line without digits has no numbers. -/
theorem readNumbers_of_noDigit {l : Str} (h : l.all (fun c => !c.isDigit) = true) : readNumbers l = [] := by
  rw [readNumbers, Seq.fields_eq_nil_iff.mpr (List.all_eq_true.mp h), List.map_nil]

/-- The verdicts in the order of the summary. -/
def verdicts : List Verdict := [.matched, .mismatch, .ambiguous]

/-- The number of results with a verdict. -/
def countOf (results : List ClaimResult) (v : Verdict) : Nat := results.countP fun r => r.verdict = v

/-- The texts between the numbers of the summary. -/
def summaryText (results : List ClaimResult) : Str :=
  " / ".toList.intercalate (verdicts.map fun v => Nat.toDigits 10 (countOf results v) ++ ' ' :: v.value)

/-- The summary, from its first number to its end. -/
theorem summaryLine_eq (a b c : Str) :
    summaryLine (" / ".toList.intercalate
      [a ++ ' ' :: Verdict.matched.value, b ++ ' ' :: Verdict.mismatch.value, c ++ ' ' :: Verdict.ambiguous.value]) =
    "**Summary:** ".toList ++ (a ++ ' ' :: ("match / ".toList ++ (b ++ ' ' :: ("mismatch / ".toList ++
      (c ++ ' ' :: "ambiguous.".toList))))) := by
  show "**Summary:** ".toList ++ " / ".toList.intercalate
    [a ++ ' ' :: "match".toList, b ++ ' ' :: "mismatch".toList, c ++ ' ' :: "ambiguous".toList] ++ ".".toList = _
  simp [List.intercalate]

/-- **The numbers of the summary are read back.** -/
theorem readNumbers_summaryLine (results : List ClaimResult) :
    readNumbers (summaryLine (summaryText results)) = verdicts.map (countOf results) := by
  rw [summaryText, verdicts, List.map_cons, List.map_cons, List.map_singleton, summaryLine_eq]
  rw [readNumbers_append (by decide) _ (by decide), readNumbers_append (by decide) _ (by decide),
    readNumbers_append (by decide) _ (by decide), readNumbers_of_noDigit (by decide)]
  rfl

/-- The text of a verdict determines it. -/
theorem value_injective : Function.Injective Verdict.value := by
  intro v w h
  cases v <;> cases w <;> first | rfl | exact absurd h (by decide)

/-- The counter holds the number of results with each verdict. -/
theorem lookup_counts (results : List ClaimResult) (v : Verdict) :
    ((Seq.tally (results.map (·.verdict.value))).lookup v.value).getD 0 = countOf results v := by
  have hcount : (results.map (·.verdict.value)).count v.value = countOf results v := by
    rw [List.count, List.countP_map]
    exact List.countP_congr fun r _ => by simp [value_injective.eq_iff]
  rw [← hcount]
  exact Seq.lookup_tally _ _

/-- Every result has one of the three verdicts. -/
theorem sum_countOf (results : List ClaimResult) : (verdicts.map (countOf results)).sum = results.length := by
  induction results with
  | nil => rfl
  | cons r results ih =>
    have hstep : ∀ v, countOf (r :: results) v = countOf results v + if r.verdict = v then 1 else 0 := fun v => by
      simp [countOf, List.countP_cons]
    simp only [verdicts, List.map_cons, List.map_nil, List.sum_cons, List.sum_nil, hstep, List.length_cons] at ih ⊢
    cases r.verdict <;> simp <;> omega

/-! ## The lines of a report -/

/-- The lines of a report. -/
def reportLines (results : List ClaimResult) (rows : List Str) : List Str :=
  headerText ++ [summaryLine (summaryText results), [], [], tableRow columns, separatorRow] ++ rows

/-- A line of the header stays on its line, and looks neither like a row nor like the summary. -/
theorem headerText_plain :
    ∀ l ∈ headerText, NoBreak l ∧ l.head? ≠ some '|' ∧ startswith l "**Summary:**".toList = false := by
  unfold headerText
  -- the literals become lists of characters before anything is computed with them
  repeat rw [String.toList_ofList]
  decide +kernel

theorem head?_separatorRow : separatorRow.head? = some '|' := rfl

/-- The body of the table is behind the separator. -/
theorem drop_reportLines (results : List ClaimResult) (rows : List Str) :
    ((reportLines results rows).dropWhile fun l => l ≠ separatorRow).drop 1 = rows := by
  have hsummary : summaryLine (summaryText results) ≠ separatorRow := fun e => by
    have hs : (summaryLine (summaryText results)).head? = some '*' := rfl
    rw [e, head?_separatorRow] at hs
    exact absurd hs (by decide)
  have hheader : ∀ l ∈ headerText, l ≠ separatorRow := fun l hl e =>
    (headerText_plain l hl).2.1 (e ▸ head?_separatorRow)
  have hhead : ∀ l ∈ [[], [], tableRow columns], l ≠ separatorRow := by decide +kernel
  have hpre : ∀ l ∈ headerText ++ [summaryLine (summaryText results), [], [], tableRow columns],
      decide (l ≠ separatorRow) = true := by
    intro l hl
    rw [decide_eq_true_eq]
    rcases List.mem_append.mp hl with hl | hl
    · exact hheader l hl
    · rcases List.mem_cons.mp hl with rfl | hl
      · exact hsummary
      · exact hhead l hl
  have hsplit : reportLines results rows =
      headerText ++ [summaryLine (summaryText results), [], [], tableRow columns] ++ separatorRow :: rows := by
    simp [reportLines]
  rw [hsplit, List.dropWhile_append_of_pos hpre, List.dropWhile_cons_of_neg (by simp), List.drop_one, List.tail_cons]

/-- The summary is the first line that starts as one. -/
theorem find?_reportLines (results : List ClaimResult) (rows : List Str) :
    ((reportLines results rows).find? fun l => startswith l "**Summary:**".toList) =
      some (summaryLine (summaryText results)) := by
  have hheader : (headerText.find? fun l => startswith l "**Summary:**".toList) = none :=
    List.find?_eq_none.mpr fun l hl => by rw [(headerText_plain l hl).2.2]; decide
  have hsummary : startswith (summaryLine (summaryText results)) "**Summary:**".toList = true := by
    rw [startswith, List.isPrefixOf_iff_prefix]
    exact ⟨' ' :: (summaryText results ++ ".".toList), rfl⟩
  rw [reportLines, List.append_assoc, List.find?_append, hheader, Option.none_or, List.cons_append]
  exact List.find?_cons_of_pos hsummary

/-! ## When a report is written -/

section Written

variable [Interpreter]

/-- The integers of a result list can be written. -/
structure Writable (results : List ClaimResult) : Prop where
  counts : ∀ v, ∃ t, str (countOf results v) = .ok t
  asserted : ∀ r ∈ results, ∃ t, r.asserted.toStr = .ok t
  measured : ∀ r ∈ results, ∃ t, formatMeasured r.measured = .ok t

/-- The header and its summary. -/
theorem header_eq_ok_iff {results : List ClaimResult} {text : Str} :
    header results = .ok text ↔ (∀ v, ∃ t, str (countOf results v) = .ok t) ∧
      text = unlines (headerText ++ [summaryLine (summaryText results)]) := by
  have hitem : ∀ (v : Verdict) (t : Str),
      summaryItem (Seq.tally (results.map (·.verdict.value))) v.value = .ok t ↔
        (∃ s, str (countOf results v) = .ok s) ∧ Nat.toDigits 10 (countOf results v) ++ ' ' :: v.value = t := by
    intro v t
    rw [summaryItem, bind_eq_ok_iff, lookup_counts]
    constructor
    · rintro ⟨n, hn, ht⟩
      obtain ⟨hw, rfl⟩ := str_natCast_eq_ok_iff.mp hn
      exact ⟨hw, Except.ok.inj ht⟩
    · rintro ⟨hw, rfl⟩
      exact ⟨_, str_natCast_eq_ok_iff.mpr ⟨hw, rfl⟩, rfl⟩
  have hitems : ∀ items : List Str,
      (verdicts.map Verdict.value).mapM (summaryItem (Seq.tally (results.map (·.verdict.value)))) = .ok items ↔
        (∀ v ∈ verdicts, ∃ s, str (countOf results v) = .ok s) ∧
          verdicts.map (fun v => Nat.toDigits 10 (countOf results v) ++ ' ' :: v.value) = items := by
    intro items
    rw [mapM_eq_ok_iff, List.forall₂_map_left_iff]
    simp only [hitem]
    rw [List.forall₂_and_left, ← List.forall₂_map_left_iff, List.forall₂_eq_eq_eq]
  have hall : (∀ v ∈ verdicts, ∃ s, str (countOf results v) = .ok s) ↔ ∀ v, ∃ s, str (countOf results v) = .ok s :=
    forall_congr' fun v => by cases v <;> simp [verdicts]
  rw [← hall]
  show ((verdicts.map Verdict.value).mapM _ >>= fun items => _) = _ ↔ _
  rw [bind_eq_ok_iff]
  simp only [hitems, Except.ok.injEq, and_assoc, exists_and_left, exists_eq_left']
  exact and_congr_right fun _ => eq_comm

/-- A row, from its texts. -/
theorem renderRow_eq_ok_iff {claim : Claim} {result : ClaimResult} {row : Str} :
    renderRow claim result = .ok row ↔ ∃ asserted measured, result.asserted.toStr = .ok asserted ∧
      formatMeasured result.measured = .ok measured ∧
      row = tableRow ([result.id, claim.description, asserted, measured, result.verdict.value,
        claim.operationalDefinition].map cell) := by
  simp only [renderRow, bind_eq_ok_iff, Except.ok.injEq, List.map_cons, List.map_nil, exists_and_left]
  exact exists_congr fun a => and_congr_right fun _ => exists_congr fun m => and_congr_right fun _ => eq_comm

/-- Only lists of the same length are zipped. -/
theorem renderRows_eq_ok_iff : ∀ {claims : List Claim} {results : List ClaimResult} {rows : List Str},
    renderRows claims results = .ok rows ↔ claims.length = results.length ∧
      (claims.zip results).mapM (fun cr => renderRow cr.1 cr.2) = .ok rows
  | [], [], rows => by simp [renderRows, pure, Except.pure]
  | _ :: _, [], rows => by simp [renderRows]
  | [], _ :: _, rows => by simp [renderRows]
  | claim :: claims, result :: results, rows => by
    rw [renderRows, List.zip_cons_cons, List.mapM_cons]
    simp only [bind_eq_ok_iff, renderRows_eq_ok_iff, List.length_cons, Nat.add_right_cancel_iff, pure, Except.pure]
    tauto

/-- **A report is made of its lines.** -/
theorem renderReport_eq_ok_iff {register : ClaimsRegister} {results : List ClaimResult} {text : Str} :
    renderReport register results = .ok text ↔ (∀ v, ∃ t, str (countOf results v) = .ok t) ∧
      ∃ rows, renderRows register.claims results = .ok rows ∧ text = unlines (reportLines results rows) := by
  have hlines : ∀ rows, ['\n'].intercalate ([unlines (headerText ++ [summaryLine (summaryText results)]), [],
      tableRow columns, separatorRow] ++ rows) ++ ['\n'] = unlines (reportLines results rows) := by
    intro rows
    rw [intercalate_lf (by simp), reportLines]
    simp only [List.cons_append, List.nil_append, unlines_append, unlines_cons, unlines_nil, List.append_assoc]
  simp only [renderReport, bind_eq_ok_iff, header_eq_ok_iff]
  constructor
  · rintro ⟨_, ⟨hw, rfl⟩, rows, hrows, ht⟩
    exact ⟨hw, rows, hrows, (Except.ok.inj ht).symm.trans (hlines rows)⟩
  · rintro ⟨hw, rows, hrows, rfl⟩
    exact ⟨_, ⟨hw, rfl⟩, rows, hrows, congrArg _ (hlines rows)⟩

/-- A report is written for lists of the same length whose integers can be written. -/
theorem renderReport_returns_iff {register : ClaimsRegister} {results : List ClaimResult} :
    (∃ text, renderReport register results = .ok text) ↔
      register.claims.length = results.length ∧ Writable results := by
  constructor
  · rintro ⟨text, h⟩
    obtain ⟨hw, rows, hrows, -⟩ := renderReport_eq_ok_iff.mp h
    obtain ⟨hlen, hrows⟩ := renderRows_eq_ok_iff.mp hrows
    have hrow : ∀ r ∈ results, (∃ t, r.asserted.toStr = .ok t) ∧ ∃ t, formatMeasured r.measured = .ok t := by
      intro r hr
      rw [← List.map_snd_zip hlen.ge] at hr
      obtain ⟨cr, hcr, rfl⟩ := List.mem_map.mp hr
      obtain ⟨row, hrow⟩ := exists_of_mapM_eq_ok hrows hcr
      obtain ⟨asserted, measured, ha, hm, -⟩ := renderRow_eq_ok_iff.mp hrow
      exact ⟨⟨asserted, ha⟩, measured, hm⟩
    exact ⟨hlen, hw, fun r hr => (hrow r hr).1, fun r hr => (hrow r hr).2⟩
  · rintro ⟨hlen, hw⟩
    obtain ⟨rows, hrows⟩ : ∃ rows, (register.claims.zip results).mapM (fun cr => renderRow cr.1 cr.2) = .ok rows := by
      refine mapM_returns_iff.mpr fun cr hcr => ?_
      have hr : cr.2 ∈ results := (List.of_mem_zip hcr).2
      obtain ⟨asserted, ha⟩ := hw.asserted _ hr
      obtain ⟨measured, hm⟩ := hw.measured _ hr
      exact ⟨_, renderRow_eq_ok_iff.mpr ⟨asserted, measured, ha, hm, rfl⟩⟩
    exact ⟨_, renderReport_eq_ok_iff.mpr ⟨hw.counts, rows, renderRows_eq_ok_iff.mpr ⟨hlen, hrows⟩, rfl⟩⟩

/-! ## Reading a report back -/

/-- A line of the table reads as the six cells of a claim and its result. -/
def ReadsAs (claim : Claim) (result : ClaimResult) (row : Str) : Prop :=
  ∃ asserted measured, result.asserted.toStr = .ok asserted ∧ formatMeasured result.measured = .ok measured ∧
    readRow row = [collapse result.id, collapse claim.description, collapse asserted, collapse measured,
      collapse result.verdict.value, collapse claim.operationalDefinition]

/-- The table of a report has a line for every claim, which reads as its cells, and the summary counts the verdicts
that are in the table. -/
structure ReadsBack (register : ClaimsRegister) (results : List ClaimResult) (text : Str) : Prop where
  one_line : (tableBody text).length = register.claims.length
  cells : List.Forall₂ (fun (cr : Claim × ClaimResult) row => ReadsAs cr.1 cr.2 row) (register.claims.zip results)
    (tableBody text)
  summary : summaryNumbers text = verdicts.map fun v =>
    (tableBody text).countP fun row => (readRow row)[4]? = some v.value
  total : (summaryNumbers text).sum = (tableBody text).length

/-- A row reads as its cells and stays on one line. -/
theorem readsAs_renderRow {claim : Claim} {result : ClaimResult} {row : Str} (h : renderRow claim result = .ok row) :
    ReadsAs claim result row ∧ NoBreak row := by
  obtain ⟨asserted, measured, ha, hm, rfl⟩ := renderRow_eq_ok_iff.mp h
  refine ⟨⟨asserted, measured, ha, hm, readRow_tableRow (by simp)⟩, noBreak_tableRow fun c hc => ?_⟩
  obtain ⟨t, -, rfl⟩ := List.mem_map.mp hc
  exact noBreak_cell t

/-- The fifth cell is the verdict. -/
theorem ReadsAs.verdict_iff {claim : Claim} {result : ClaimResult} {row : Str} (h : ReadsAs claim result row)
    (v : Verdict) : (readRow row)[4]? = some v.value ↔ result.verdict = v := by
  obtain ⟨asserted, measured, -, -, hrow⟩ := h
  have hcollapse : collapse result.verdict.value = result.verdict.value := by cases result.verdict <;> decide
  rw [hrow, hcollapse]
  exact ⟨fun e => value_injective (Option.some.inj e), fun e => congrArg _ (congrArg _ e)⟩

/-- The report stays on its lines. -/
theorem noBreak_reportLines {results : List ClaimResult} {rows : List Str}
    (hw : ∀ v, ∃ t, str (countOf results v) = .ok t) (hrows : ∀ row ∈ rows, NoBreak row) :
    ∀ l ∈ reportLines results rows, NoBreak l := by
  have htable : ∀ l ∈ [[], [], tableRow columns, separatorRow], NoBreak l := by decide +kernel
  have hsummary : NoBreak (summaryLine (summaryText results)) := by
    refine (NoBreak.append (by decide) (NoBreak.intercalate (by decide) fun l hl => ?_)).append (by decide)
    obtain ⟨v, -, rfl⟩ := List.mem_map.mp hl
    obtain ⟨t, ht⟩ := hw v
    obtain rfl := (str_natCast_eq_ok_iff.mp ht).2
    exact (noBreak_str ht).append (NoBreak.cons (by decide) (by cases v <;> decide))
  intro l hl
  simp only [reportLines, List.mem_append, List.mem_cons (b := summaryLine _)] at hl
  rcases hl with (hl | rfl | hl) | hl
  · exact (headerText_plain l hl).1
  · exact hsummary
  · exact htable l hl
  · exact hrows l hl

/-- A report whose rows read as their cells can be read back. -/
theorem readsBack_unlines {register : ClaimsRegister} {results : List ClaimResult} {rows : List Str}
    (hw : ∀ v, ∃ t, str (countOf results v) = .ok t) (hlen : register.claims.length = results.length)
    (hrows : List.Forall₂ (fun (cr : Claim × ClaimResult) row => ReadsAs cr.1 cr.2 row ∧ NoBreak row)
      (register.claims.zip results) rows) :
    ReadsBack register results (unlines (reportLines results rows)) := by
  have hbreak : ∀ row ∈ rows, NoBreak row := fun row hr => by
    obtain ⟨_, -, h⟩ := exists_of_forall₂ hrows.flip hr
    exact h.2
  have hlines := splitlines_unlines (noBreak_reportLines hw hbreak)
  have hbody : tableBody (unlines (reportLines results rows)) = rows := by
    rw [tableBody, hlines, drop_reportLines]
  have hsum : summaryNumbers (unlines (reportLines results rows)) = verdicts.map (countOf results) := by
    rw [summaryNumbers, hlines, find?_reportLines, Option.map_some, Option.getD_some, readNumbers_summaryLine]
  have hlength : rows.length = results.length := by
    rw [← hrows.length_eq, List.length_zip, hlen, Nat.min_self]
  refine ⟨?_, ?_, ?_, ?_⟩
  · rw [hbody, hlength, hlen]
  · rw [hbody]
    exact hrows.imp fun _ _ h => h.1
  · rw [hsum, hbody]
    refine List.map_congr_left fun v _ => ?_
    have hzip : (register.claims.zip results).countP (fun cr => decide (cr.2.verdict = v)) = countOf results v := by
      rw [countOf]
      conv_rhs => rw [← List.map_snd_zip hlen.ge, List.countP_map]
      rfl
    rw [← hzip]
    exact countP_eq_of_forall₂ (fun cr row h => decide_eq_decide.mpr (h.1.verdict_iff v).symm) hrows
  · rw [hsum, sum_countOf, hbody, hlength]

/-- Every report can be read back. -/
theorem readsBack_of_renderReport {register : ClaimsRegister} {results : List ClaimResult} {text : Str}
    (h : renderReport register results = .ok text) : ReadsBack register results text := by
  obtain ⟨hw, rows, hrows, rfl⟩ := renderReport_eq_ok_iff.mp h
  obtain ⟨hlen, hrows⟩ := renderRows_eq_ok_iff.mp hrows
  exact readsBack_unlines hw hlen ((mapM_eq_ok_iff.mp hrows).imp fun _ _ => readsAs_renderRow)

/-- **The report can be read back.** A report is written for every register with a result for each claim, when the
integers can be written; its table has one line for every claim, which reads as the collapsed texts of the claim and its
result, and the summary counts the verdicts in the table. -/
theorem renderReport_readable (register : ClaimsRegister) (results : List ClaimResult) :
    ((∃ text, renderReport register results = .ok text) ↔
      register.claims.length = results.length ∧ Writable results) ∧
    ∀ text, renderReport register results = .ok text → ReadsBack register results text :=
  ⟨renderReport_returns_iff, fun _ => readsBack_of_renderReport⟩

end Written

/-! ## A report with bars, backslashes, line breaks and blank text -/

/-- A claim with bars and backslashes in its description and a blank operational definition. -/
def barsClaim : Claim where
  id := "bars".toList
  description := "a|b \\\\| c\n|\\".toList
  source := "s".toList
  assertedValue := .str "|".toList
  operationalDefinition := "\t\u2028 ".toList
  expectedResult := "match".toList
  requiresMorphology := false
  ambiguityNote := none
  id_pattern := by decide
  description_ne_nil := by decide
  source_ne_nil := s_ne_nil
  operationalDefinition_ne_nil := by decide
  expectedResult_ne_nil := match_ne_nil
  ambiguityNote_ne_nil := none_ne_some_nil

/-- The register with this claim. -/
def barsRegister : ClaimsRegister := ⟨[barsClaim], by decide⟩

/-- Its result. -/
def barsResults : List ClaimResult := [⟨"bars".toList, .str "|".toList, .pair 1 2, .mismatch⟩]

/-- The report of the register is written and can be read back. -/
theorem renderReport_readable_bars :
    ∃ text, @renderReport defaultInterpreter barsRegister barsResults = .ok text ∧
      @ReadsBack defaultInterpreter barsRegister barsResults text := by
  have hw : @Writable defaultInterpreter barsResults := by
    refine @Writable.mk defaultInterpreter _ (fun v => ?_) (fun r hr => ?_) fun r hr => ?_
    · cases v <;> exact ⟨_, rfl⟩
    · rw [List.mem_singleton.mp hr]; exact ⟨_, rfl⟩
    · rw [List.mem_singleton.mp hr]; exact ⟨_, rfl⟩
  obtain ⟨hwritten, hread⟩ := @renderReport_readable defaultInterpreter barsRegister barsResults
  obtain ⟨text, ht⟩ := hwritten.mpr ⟨rfl, hw⟩
  exact ⟨text, ht, hread text ht⟩

end QuranAnalysis
