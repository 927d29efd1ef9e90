import Mathlib.Data.Finset.Card
import QuranAnalysis.Corpus.Model

/-!
# The morphology model and its loader (`morphology.py`)

`Morphology → MorphologyWord`, keyed by `(sura, aya, word)`, and `loadMorphology` on the decoded text of the QAC file:
`readSegments` reads one segment from each data row, `buildWords` folds neighbouring segments of one word into a record
and `validate` guards the counts. `countByRoot` and `countByLemma` are the counts of the claims.
-/

namespace QuranAnalysis

open Py

/-- A word with its aggregated annotation (`lem` is the lemma). -/
structure MorphologyWord where
  sura : Int
  aya : Int
  word : Int
  form : Str
  root : Option Str
  lem : Option Str
  pos : Option Str
deriving DecidableEq, Repr

/-- One record per `(sura, aya, word)`, in file order. -/
structure Morphology where
  words : List MorphologyWord
deriving DecidableEq, Repr

namespace Morphology

/-- The key `(sura, aya, word)` of a word. -/
abbrev Key := Int × Int × Int

def wordKey (w : MorphologyWord) : Key := (w.sura, w.aya, w.word)

/-- The first record with this key. -/
def word (m : Morphology) (sura aya word : Int) : Result MorphologyWord :=
  match m.words.find? (fun w => w.sura = sura ∧ w.aya = aya ∧ w.word = word) with
  | some w => .ok w
  | none => .error (.keyError [.text "morphology word ", .int sura, .text ":", .int aya, .text ":", .int word,
      .text " not found"])

/-! ## Reading segments -/

def rootPrefix : Str := "ROOT:".toList
def lemmaPrefix : Str := "LEM:".toList
def posPrefix : Str := "POS:".toList

/-- A location `(sura:aya:word:segment)`. -/
structure Location where
  sura : Int
  aya : Int
  word : Int
  segment : Int
deriving DecidableEq, Repr

/-- A data row: its location, form and features. -/
structure Segment where
  location : Location
  form : Str
  features : Str
deriving DecidableEq, Repr

/-- The key of the word that a segment belongs to. -/
def Segment.key (s : Segment) : Key := (s.location.sura, s.location.aya, s.location.word)

/-- `_parse_location` -/
def parseLocation [Interpreter] (location : Str) : Result Location :=
  let inner := stripChars ['(', ')'] (strip location)
  match inner.splitOn ':' with
  | [sura, aya, word, segment] => do
    let sura ← int sura
    let aya ← int aya
    let word ← int word
    let segment ← int segment
    .ok ⟨sura, aya, word, segment⟩
  | _ => .error (.valueError [.text "malformed QAC location (expected 4 parts): ", .repr location])

/-- One feature: it replaces the root, the lemma or the part of speech if it has their prefix. -/
def featureStep (st : Option Str × Option Str × Option Str) (feature : Str) :
    Option Str × Option Str × Option Str :=
  if startswith feature rootPrefix then (some (feature.drop rootPrefix.length), st.2.1, st.2.2)
  else if startswith feature lemmaPrefix then (st.1, some (feature.drop lemmaPrefix.length), st.2.2)
  else if startswith feature posPrefix then (st.1, st.2.1, some (feature.drop posPrefix.length))
  else st

/-- `(root, lemma, pos)` of a FEATURES column. -/
def parseFeatures (features : Str) : Option Str × Option Str × Option Str :=
  (features.splitOn '|').foldl featureStep (none, none, none)

/-- One line of the file: skipped, or a segment. -/
def readLine [Interpreter] (line : Str) : Result (Option Segment) :=
  if line = [] ∨ startswith line ['#'] = true ∨ ¬ startswith line ['('] = true then .ok none
  else
    match line.splitOn '\t' with
    | location :: form :: _tag :: features :: _ => do
      let location ← parseLocation location
      .ok (some ⟨location, form, features⟩)
    | _ => .error (.valueError [.text "malformed QAC data line (expected 4 tab columns): ", .repr line])

/-- The segments of a file's text. -/
def readSegments [Interpreter] (raw : Str) : Result (List Segment) := do
  let rows ← (splitlines raw).mapM readLine
  .ok rows.reduceOption

/-! ## Building words -/

/-- The variables of the loop of `_build_words`. -/
structure Scan where
  words : List MorphologyWord
  currentKey : Option Key
  firstForm : Str
  stemForm : Option Str
  stemRoot : Option Str
  stemLemma : Option Str
  stemPos : Option Str

def Scan.start : Scan := ⟨[], none, [], none, none, none, none⟩

/-- The word that is being read, behind the words before it. -/
def Scan.flush (st : Scan) : List MorphologyWord :=
  match st.currentKey with
  | none => st.words
  | some (sura, aya, word) =>
    st.words ++ [⟨sura, aya, word, st.stemForm.getD st.firstForm, st.stemRoot, st.stemLemma, st.stemPos⟩]

/-- One segment: a new key starts a new word, and the first segment with features is the stem. -/
def Scan.step (st : Scan) (seg : Segment) : Scan :=
  let st := if some seg.key ≠ st.currentKey then ⟨st.flush, some seg.key, seg.form, none, none, none, none⟩ else st
  let (root, lem, pos) := parseFeatures seg.features
  if (root ≠ none ∨ lem ≠ none ∨ pos ≠ none) ∧ st.stemForm = none then
    { st with stemForm := some seg.form, stemRoot := root, stemLemma := lem, stemPos := pos }
  else st

/-- `_build_words` -/
def buildWords (segments : List Segment) : List MorphologyWord := (segments.foldl Scan.step .start).flush

/-! ## Loading -/

/-- 114 suras and 6236 pairs `(sura, aya)`. -/
def validate (words : List MorphologyWord) : Result Unit :=
  let suras := (words.map (·.sura)).toFinset
  if suras ≠ (oneTo 114).toFinset then
    .error (.valueError [.text "morphology suras not exactly 1..114: got ", .int suras.card, .text " distinct suras"])
  else
    let ayaPairs := (words.map fun w => (w.sura, w.aya)).toFinset
    if ayaPairs.card ≠ 6236 then
      .error (.valueError [.text "morphology (sura, aya) pairs != 6236: got ", .int ayaPairs.card])
    else .ok ()

/-- `load_morphology` on the decoded text of the file. -/
def loadMorphology [Interpreter] (raw : Str) : Result Morphology := do
  let segments ← readSegments raw
  let words := buildWords segments
  let _ ← validate words
  .ok ⟨words⟩

end Morphology

/-! ## Counts -/

/-- The words with `x` in a column; a blank query counts nothing. -/
def countByColumn (column : MorphologyWord → Option Str) (m : Morphology) (x : Str) : Nat :=
  if strip x = [] then 0 else m.words.countP fun w => column w = some x

def countByRoot (m : Morphology) (root : Str) : Nat := countByColumn (·.root) m root

def countByLemma (m : Morphology) (lem : Str) : Nat := countByColumn (·.lem) m lem

end QuranAnalysis
