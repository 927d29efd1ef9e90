import QuranAnalysis.Claims.Runner

/-!
# The verification report (`claims/report.py`)

`renderReport` writes a header with a summary, and a table with one row for each claim and its result. Every cell goes
through `cell`: whitespace is collapsed and bars are escaped.
-/

namespace QuranAnalysis

open Py

/-- `_MISSING` -/
def missing : Str := "—".toList

/-- `_COLUMNS` -/
def columns : List Str :=
  ["id".toList, "claim".toList, "asserted".toList, "measured".toList, "verdict".toList,
    "operational definition".toList]

/-- Whitespace collapsed to single spaces. -/
def collapse (text : Str) : Str := join (split text)

/-- `_cell`: whitespace is collapsed, and bars are escaped. -/
def cell (text : Str) : Str := replace '|' ['\\', '|'] (collapse text)

/-- `"| " + " | ".join(cells) + " |"` -/
def tableRow (cells : List Str) : Str := "| ".toList ++ " | ".toList.intercalate cells ++ " |".toList

/-- The lines of the header above the summary. -/
def headerText : List Str :=
  ["# Quran claims — verification report".toList,
    "".toList,
    "Verifies or refutes quantifiable numerical/linguistic claims about the **Arabic**".toList,
    "text of the Quran. All analysis is performed against the original Arabic text,".toList,
    "never a translation.".toList,
    "".toList,
    "> **Generated file — do not edit by hand.** Regenerate (and re-commit) with".toList,
    "> `make report` after each analysis run.".toList,
    "".toList,
    "## Corpus editions".toList,
    "".toList,
    "- **Tanzil Simple-Clean** v1.1 (CC BY 3.0) — primary edition for surface-form".toList,
    "  (count / substring / letter-frequency / position) claims.".toList,
    "- **Quranic Arabic Corpus (QAC)** morphology v0.4 (GPL) — root/lemma counts for".toList,
    "  claims that surface forms cannot reproduce.".toList,
    "".toList,
    "See `agentdocs/corpus.md` and `agentdocs/morphology.md` for editions/licences.".toList,
    "".toList,
    "## Normalisation choices".toList,
    "".toList,
    "Surface-form counts use the canonical `normalize()` pipeline: **tatweel removed**,".toList,
    "**tashkeel (diacritics) stripped**, **hamza/alif folded**. Final-form folding".toList,
    "(ى→ي, ة→ه) is **not** applied in the canonical pipeline. Counts are only".toList,
    "meaningful relative to these choices — see `agentdocs/normalisation.md`.".toList,
    "".toList,
    "## Verdicts".toList,
    "".toList,
    "`match` — the measured value satisfies the asserted claim · `mismatch` — it does".toList,
    "not · `ambiguous` — the counting convention is undisclosed/non-deterministic, or".toList,
    "the claim needs morphology that is unavailable (never forced to match/mismatch).".toList,
    "".toList]

/-- The line of the summary. -/
def summaryLine (summary : Str) : Str := "**Summary:** ".toList ++ summary ++ ".".toList

section Report

variable [Interpreter]

/-- `_format_measured` -/
def formatMeasured : Measured → Result Str
  | .none => .ok missing
  | .pair a b => do
    let a ← str a
    let b ← str b
    .ok (a ++ " vs ".toList ++ b)
  | .int n => str n
  | .str s => .ok s

/-- `f"{counts.get(v, 0)} {v}"` -/
def summaryItem (counts : Seq.Dict Str Nat) (v : Str) : Result Str := do
  let n ← str ((counts.lookup v).getD 0 : Nat)
  .ok (n ++ ' ' :: v)

/-- `_header` -/
def header (results : List ClaimResult) : Result Str := do
  let counts := Seq.tally (results.map (·.verdict.value))
  let items ← ["match".toList, "mismatch".toList, "ambiguous".toList].mapM (summaryItem counts)
  let summary := " / ".toList.intercalate items
  .ok (unlines (headerText ++ [summaryLine summary]))

/-- The row of a claim and its result. -/
def renderRow (claim : Claim) (result : ClaimResult) : Result Str := do
  let asserted ← result.asserted.toStr
  let measured ← formatMeasured result.measured
  .ok (tableRow [cell result.id, cell claim.description, cell asserted, cell measured, cell result.verdict.value,
    cell claim.operationalDefinition])

/-- The rows of `zip(claims, results, strict=True)`. -/
def renderRows : List Claim → List ClaimResult → Result (List Str)
  | [], [] => .ok []
  | claim :: claims, result :: results => do
    let row ← renderRow claim result
    let rows ← renderRows claims results
    .ok (row :: rows)
  | _ :: _, [] => .error (.valueError [.text "zip() argument 2 is shorter than argument 1"])
  | [], _ :: _ => .error (.valueError [.text "zip() argument 2 is longer than argument 1"])

/-- `render_report` -/
def renderReport (register : ClaimsRegister) (results : List ClaimResult) : Result Str := do
  let head ← header results
  let rows ← renderRows register.claims results
  let lines := [head, [], tableRow columns, tableRow (columns.map fun _ => "---".toList)] ++ rows
  .ok (['\n'].intercalate lines ++ ['\n'])

/-- The text that `generate_report` writes. -/
def generateReport (register : ClaimsRegister) (ctx : CheckContext) (checks : Option (Seq.Dict Str CheckFn)) :
    Result Str := do
  let results ← runRegister register ctx checks
  renderReport register results

end Report

end QuranAnalysis
