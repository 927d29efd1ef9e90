import QuranAnalysis.Normalize
import QuranAnalysis.Corpus.Model

/-!
# Counting primitives (`primitives.py`)

Counts over the words of a corpus, each word's text and the query passed through a normaliser.
-/

namespace QuranAnalysis

open Py

/-- `_ABJAD_VALUES` -/
def abjadValues : Seq.Dict Char Nat :=
  [('ا', 1), ('ب', 2), ('ج', 3), ('د', 4), ('ه', 5), ('و', 6), ('ز', 7), ('ح', 8), ('ط', 9), ('ي', 10), ('ك', 20),
    ('ل', 30), ('م', 40), ('ن', 50), ('س', 60), ('ع', 70), ('ف', 80), ('ص', 90), ('ق', 100), ('ر', 200), ('ش', 300),
    ('ت', 400), ('ث', 500), ('خ', 600), ('ذ', 700), ('ض', 800), ('ظ', 900), ('غ', 1000), ('ء', 1), ('ى', 10), ('ة', 5)]

/-- The words whose normalised form is the normalised query; a blank query counts nothing. -/
def countByForm (corpus : Corpus) (form : Str) (includeBasmala : Bool) (normalizer : Str → Str) : Nat :=
  let target := normalizer form
  if strip target = [] then 0 else (corpus.words includeBasmala).countP fun w => normalizer w.text = target

/-- The occurrences of the normalised query inside the normalised words; a blank query counts nothing. -/
def countBySubstring (corpus : Corpus) (substring : Str) (includeBasmala : Bool) (normalizer : Str → Str) : Nat :=
  let needle := normalizer substring
  if strip needle = [] then 0 else ((corpus.words includeBasmala).map fun w => count (normalizer w.text) needle).sum

/-- The characters of the normalised words, counted in the order of first appearance. -/
def letterFrequency (corpus : Corpus) (includeBasmala : Bool) (normalizer : Str → Str) : Seq.Dict Char Nat :=
  (corpus.words includeBasmala).foldl (fun counter w => (normalizer w.text).foldl Seq.tallyStep counter) []

/-- `(sura, aya)` of the first word whose normalised form is the normalised query. -/
def firstOccurrencePosition (corpus : Corpus) (form : Str) (includeBasmala : Bool) (normalizer : Str → Str) :
    Option (Int × Int) :=
  let target := normalizer form
  if strip target = [] then none
  else ((corpus.words includeBasmala).find? fun w => normalizer w.text = target).map fun w => (w.sura, w.aya)

/-- The abjad values of the normalised text, added up. -/
def abjadValue (text : Str) (normalizer : Str → Str) : Nat :=
  ((normalizer text).map fun ch => (abjadValues.lookup ch).getD 0).sum

end QuranAnalysis
