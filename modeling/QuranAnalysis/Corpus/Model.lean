import QuranAnalysis.Seq.Dict
import QuranAnalysis.Py.Int
import QuranAnalysis.Py.Range

/-!
# The corpus model and its loader (`corpus.py`)

`Corpus → Sura → Aya → Word`, the selectors, and `loadCorpus` on the decoded text of an edition's file: `parseLines`
reads the records, `Seq.group` collects them by sura, `buildSura` splits the opening basmala off verse 1 and `validate`
checks the numbering.
-/

namespace QuranAnalysis

open Py

/-- The aya number of the words of a sura-opening basmala that is not a numbered verse. -/
def basmalaAya : Int := 0

/-- `_EDITION_FILES` -/
def editionFiles : List (Str × Str) :=
  [("uthmani".toList, "tanzil-uthmani.txt".toList), ("simple-clean".toList, "tanzil-simple-clean.txt".toList)]

/-- A whitespace-delimited token, with its address. -/
structure Word where
  text : Str
  sura : Int
  aya : Int
  position : Nat
deriving DecidableEq, Repr

/-- A numbered verse. -/
structure Aya where
  sura : Int
  number : Int
  words : List Word
deriving DecidableEq, Repr

/-- The verse text, words rejoined on a single space. -/
def Aya.text (a : Aya) : Str := join (a.words.map (·.text))

/-- A chapter: its verses, and the opening basmala where it was split off verse 1. -/
structure Sura where
  number : Int
  ayas : List Aya
  separatedBasmala : Option (List Word)
deriving DecidableEq, Repr

/-- The opening basmala words: those of aya 1 for sura 1, else the separated ones. -/
def Sura.basmala (s : Sura) : Result (Option (List Word)) :=
  if s.number = 1 then
    match s.ayas with
    | [] => .error (.indexError [.text "tuple index out of range"])
    | a :: _ => .ok (some a.words)
  else .ok s.separatedBasmala

/-- The verse words of the sura, behind the separated basmala on request. -/
def Sura.words (s : Sura) (includeBasmala : Bool) : List Word :=
  let verseWords := s.ayas.flatMap (·.words)
  match includeBasmala, s.separatedBasmala with
  | true, some b => b ++ verseWords
  | _, _ => verseWords

def Sura.text (s : Sura) (includeBasmala : Bool) : Str := join ((s.words includeBasmala).map (·.text))

/-- An edition: its ordered suras. -/
structure Corpus where
  edition : Str
  suras : List Sura
deriving DecidableEq, Repr

/-- The first sura with this number. -/
def Corpus.sura (c : Corpus) (number : Int) : Result Sura :=
  match c.suras.find? (·.number = number) with
  | some s => .ok s
  | none => .error (.keyError [.text "sura ", .int number, .text " not found"])

/-- The first aya with this number in the sura. -/
def Corpus.aya (c : Corpus) (sura aya : Int) : Result Aya := do
  let s ← c.sura sura
  match s.ayas.find? (·.number = aya) with
  | some a => .ok a
  | none => .error (.keyError [.text "aya ", .int sura, .text ":", .int aya, .text " not found"])

/-- The words of all suras, in order. -/
def Corpus.words (c : Corpus) (includeBasmala : Bool) : List Word := c.suras.flatMap (·.words includeBasmala)

def Corpus.text (c : Corpus) (includeBasmala : Bool) : Str := join ((c.words includeBasmala).map (·.text))

/-! ## Reading records -/

/-- A data line `sura|aya|text`. -/
structure Record where
  sura : Int
  aya : Int
  text : Str
deriving DecidableEq, Repr

/-- One line of the file: skipped, or a record. -/
def parseLine [Interpreter] (line : Str) : Result (Option Record) :=
  let stripped := strip line
  if stripped = [] ∨ startswith stripped ['#'] = true then .ok none
  else
    match Seq.splitMax '|' 2 line with
    | [suraStr, ayaStr, text] => do
      let sura ← int suraStr
      let aya ← int ayaStr
      .ok (some ⟨sura, aya, strip text⟩)
    | _ => .error (.valueError [.text "malformed corpus line (expected 'sura|aya|text'): ", .repr line])

/-- The records of a file's text. -/
def parseLines [Interpreter] (raw : Str) : Result (List Record) := do
  let rows ← (splitlines raw).mapM parseLine
  .ok rows.reduceOption

/-! ## Building suras -/

/-- The tokens as words of one aya, numbered from 0. -/
def enumWords (sura aya : Int) (tokens : List Str) : List Word :=
  tokens.mapIdx fun i tok => ⟨tok, sura, aya, i⟩

/-- One row of a sura: its aya is appended, and the opening basmala is split off a verse 1 that starts with it. -/
def buildRow (number : Int) (basmalaTokens : List Str) (st : Option (List Word) × List Aya) (row : Record) :
    Option (List Word) × List Aya :=
  let tokens := split row.text
  let basmalaLen := basmalaTokens.length
  let refTail := basmalaTokens.drop 1
  if row.aya = 1 ∧ (number ≠ 1 ∧ number ≠ 9) ∧ basmalaLen < tokens.length ∧
      (tokens.take basmalaLen).drop 1 = refTail then
    (some (enumWords number basmalaAya (tokens.take basmalaLen)),
      st.2 ++ [⟨row.sura, row.aya, enumWords number row.aya (tokens.drop basmalaLen)⟩])
  else (st.1, st.2 ++ [⟨row.sura, row.aya, enumWords number row.aya tokens⟩])

/-- A sura from its ordered rows. -/
def buildSura (number : Int) (rows : List Record) (basmalaRef : Str) : Sura :=
  let (separatedBasmala, ayas) := rows.foldl (buildRow number (split basmalaRef)) (none, [])
  ⟨number, ayas, separatedBasmala⟩

/-! ## Validation -/

/-- The ayas of a sura are numbered `1..k`. -/
def validateSura (s : Sura) : Result Unit :=
  let expected := oneTo s.ayas.length
  let actual := s.ayas.map (·.number)
  if actual ≠ expected then
    .error (.valueError [.text "sura ", .int s.number, .text " aya numbers not contiguous 1..k: ", .ints actual])
  else .ok ()

/-- The suras are numbered `1..N` and the ayas of each `1..k`. -/
def validate (suras : List Sura) : Result Unit :=
  let numbers := suras.map (·.number)
  if numbers ≠ oneTo suras.length then
    .error (.valueError [.text "sura numbers not contiguous 1..N: ", .ints numbers])
  else do
    let _ ← suras.mapM validateSura
    .ok ()

/-! ## Loading -/

/-- `grouped[n]` -/
def getRows (grouped : Seq.Dict Int (List Record)) (n : Int) : Result (List Record) :=
  match grouped.lookup n with
  | some rows => .ok rows
  | none => .error (.keyError [.int n])

/-- `load_corpus` on the decoded text of the edition's file. -/
def loadCorpus [Interpreter] (edition raw : Str) : Result Corpus :=
  match editionFiles.lookup edition with
  | none =>
    .error (.valueError [.text "unknown edition ", .repr edition, .text "; expected one of ",
      .strs ["simple-clean".toList, "uthmani".toList]])
  | some _ => do
    let records ← parseLines raw
    match records.find? (fun r => r.sura = 1 ∧ r.aya = 1) with
    | none => .error (.valueError [.text "corpus missing aya 1:1 (cannot determine basmala reference)"])
    | some ref =>
      let (grouped, order) := Seq.group Record.sura records
      let suras ← order.mapM fun n => do
        let rows ← getRows grouped n
        .ok (buildSura n rows ref.text)
      let _ ← validate suras
      .ok ⟨edition, suras⟩

def loadUthmani [Interpreter] (raw : Str) : Result Corpus := loadCorpus "uthmani".toList raw

def loadSimpleClean [Interpreter] (raw : Str) : Result Corpus := loadCorpus "simple-clean".toList raw

end QuranAnalysis
