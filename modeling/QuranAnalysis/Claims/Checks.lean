import QuranAnalysis.Primitives
import QuranAnalysis.Claims.Registry

/-!
# The built-in checks (`claims/checks/`)

Families of checks that differ only in their words are one definition each (`formCheck`, `lemmaCheck`, `lemmaPairCheck`,
`abjadCheck`, `letterCheck`); every check of the program is an instance under its own name, and `builtinChecks` lists
them in the order in which the package registers them.
-/

namespace QuranAnalysis

open Py

/-- `BASMALA` -/
def BASMALA : Str := "بسم الله الرحمن الرحيم".toList

def simpleClean : Str := "simple-clean".toList

/-- A count, matched if it is the asserted value. -/
def counted (claim : Claim) (n : Nat) : Measurement := ⟨.int n, .int n = claim.assertedValue⟩

/-- Two counts, matched if they are equal. -/
def countedPair (a b : Nat) : Measurement := ⟨.pair a b, a = b⟩

/-! ## Abjad values (`abjad.py`) -/

def abjadCheck (text : Str) : CheckFn := fun claim _ => .ok (counted claim (abjadValue text normalize))

def abjadAllah66 : CheckFn := abjadCheck "الله".toList

def abjadBasmala786 : CheckFn := abjadCheck BASMALA

/-! ## Constants (`constants.py`) -/

/-- The words with a lemma; nothing without a morphology. -/
def lemmaCheck (lem : Str) : CheckFn := fun claim ctx =>
  match ctx.morphology with
  | none => .ok ⟨.none, false⟩
  | some m => .ok (counted claim (countByLemma m lem))

/-- The words of the Simple-Clean edition with a form. -/
def formCheck (form : Str) : CheckFn := fun claim ctx => do
  let corpus ← ctx.corpus simpleClean
  .ok (counted claim (countByForm corpus form false normalize))

def yawmSingular365 : CheckFn := lemmaCheck "yawom".toList

def shahrMonth12 : CheckFn := lemmaCheck "$ahor".toList

def ayyamDays30 : CheckFn := lemmaCheck "yawom".toList

def sabSevenHeavens : CheckFn := formCheck "سبع".toList

def dunya115 : CheckFn := formCheck "الدنيا".toList

/-! ## Letter frequencies (`letter_freq.py`) -/

/-- The letters of a single sura, its separated basmala excluded. -/
def suraLetterFreq (corpus : Corpus) (sura : Int) : Result (Seq.Dict Char Nat) := do
  let s ← corpus.sura sura
  .ok (letterFrequency ⟨corpus.edition, [s]⟩ false normalize)

/-- The frequency of a letter in a sura. -/
def letterCheck (sura : Int) (letter : Char) : CheckFn := fun claim ctx => do
  let corpus ← ctx.corpus simpleClean
  let freq ← suraLetterFreq corpus sura
  .ok (counted claim ((freq.lookup letter).getD 0))

def qafSurah50Frequency : CheckFn := letterCheck 50 'ق'

def noonSurah68Frequency : CheckFn := letterCheck 68 'ن'

/-- The letters of the basmala. -/
def basmala19Letters : CheckFn := fun claim _ => .ok (counted claim (replace ' ' [] (normalize BASMALA)).length)

/-! ## Pairs (`pairs.py`) -/

def dunyaAkhiraEqual : CheckFn := fun _ ctx => do
  let corpus ← ctx.corpus simpleClean
  let dunya := countByForm corpus "الدنيا".toList false normalize
  let akhira := countByForm corpus "الآخرة".toList false normalize
  .ok (countedPair dunya akhira)

/-- The words with each of two lemmas; nothing without a morphology. -/
def lemmaPairCheck (lem lem' : Str) : CheckFn := fun _ ctx =>
  match ctx.morphology with
  | none => .ok ⟨.none, false⟩
  | some m => .ok (countedPair (countByLemma m lem) (countByLemma m lem'))

def hayatMawtEqual : CheckFn := lemmaPairCheck "Hayaw`p".toList "mawot".toList

def malaikaShayatinEqual : CheckFn := lemmaPairCheck "malak".toList "$ayoTa`n".toList

def rajulImraaEqual : CheckFn := lemmaPairCheck "rajul".toList "\x7bmora>at".toList

/-- The words with the root of "sea"; nothing without a morphology. -/
def bahrBarrWaterRatio : CheckFn := fun claim ctx =>
  match ctx.morphology with
  | none => .ok ⟨.none, false⟩
  | some m => .ok (counted claim (countByRoot m "bHr".toList))

/-! ## Position (`positional.py`) -/

section Position

variable [Interpreter]

/-- `str(value)` -/
def Asserted.toStr : Asserted → Result Str
  | .int n => Py.str n
  | .str s => .ok s

/-- `{value!r}` in a message. -/
def Asserted.piece : Asserted → Piece
  | .int n => .int n
  | .str s => .repr s

/-- `_parse_pos` -/
def parsePos (value : Asserted) : Result (Int × Int) := do
  let text ← value.toStr
  match text.splitOn ':' with
  | [sura, aya] => do
    let sura ← int sura
    let aya ← int aya
    .ok (sura, aya)
  | _ => .error (.valueError [.text "positional asserted_value must be \"sura:aya\", got ", value.piece])

/-- `sura:aya`, or nothing. -/
def renderPos : Option (Int × Int) → Result Measured
  | none => .ok .none
  | some (sura, aya) => do
    let sura ← str sura
    let aya ← str aya
    .ok (.str (sura ++ ':' :: aya))

/-- The first occurrence of the name, compared with the asserted position. -/
def allahFirstOccurrence11 : CheckFn := fun claim ctx => do
  let corpus ← ctx.corpus simpleClean
  let measured := firstOccurrencePosition corpus "الله".toList false normalize
  let asserted ← parsePos claim.assertedValue
  let rendered ← renderPos measured
  .ok ⟨rendered, measured = some asserted⟩

/-! ## The built-in table -/

/-- The checks in the order of their registration. -/
def builtinChecks : List (Str × CheckFn) :=
  [("abjad-allah-66".toList, abjadAllah66),
    ("abjad-basmala-786".toList, abjadBasmala786),
    ("yawm-singular-365".toList, yawmSingular365),
    ("shahr-month-12".toList, shahrMonth12),
    ("ayyam-days-30".toList, ayyamDays30),
    ("sab-seven-heavens".toList, sabSevenHeavens),
    ("dunya-115".toList, dunya115),
    ("qaf-surah50-frequency".toList, qafSurah50Frequency),
    ("noon-surah68-frequency".toList, noonSurah68Frequency),
    ("basmala-19-letters".toList, basmala19Letters),
    ("dunya-akhira-equal".toList, dunyaAkhiraEqual),
    ("hayat-mawt-equal".toList, hayatMawtEqual),
    ("malaika-shayatin-equal".toList, malaikaShayatinEqual),
    ("rajul-imraa-equal".toList, rajulImraaEqual),
    ("bahr-barr-water-ratio".toList, bahrBarrWaterRatio),
    ("allah-first-occurrence-1-1".toList, allahFirstOccurrence11)]

/-- `registry()` after the package is imported. -/
def registry : Result (Seq.Dict Str CheckFn) := registerAll [] builtinChecks

/-- The checks have different ids. -/
theorem nodup_keys_builtinChecks : (Seq.Dict.keys builtinChecks).Nodup := by
  simp only [Seq.Dict.keys, builtinChecks, List.map_cons, List.map_nil]
  decide

/-- **Importing the package registers them all.** -/
theorem registry_eq : registry = .ok builtinChecks := registerAll_of_nodup nodup_keys_builtinChecks

/-- A lookup finds exactly the registered checks. -/
theorem lookup_builtinChecks {id : Str} {fn : CheckFn} :
    builtinChecks.lookup id = some fn ↔ (id, fn) ∈ builtinChecks :=
  Seq.Dict.lookup_eq_some_iff_mem nodup_keys_builtinChecks

end Position

end QuranAnalysis
