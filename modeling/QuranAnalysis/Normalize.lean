import QuranAnalysis.Seq.Dict
import QuranAnalysis.Py.Str

/-!
# Text normalisation (`normalize.py`)

`translate` deletes or maps single code points; `normalize` is the canonical pipeline of tatweel, tashkeel and hamza
folding.
-/

namespace QuranAnalysis

open Py

/-- A translation table: code points to delete (`none`) or to map. -/
abbrev Table := Seq.Dict Nat (Option Nat)

/-- `text.translate(table)` -/
def translate (table : Table) (text : Str) : Str :=
  text.flatMap fun c =>
    match table.lookup c.toNat with
    | none => [c]
    | some none => []
    | some (some n) => [Char.ofNat n]

/-- `range(start, stop)` -/
def codepoints (start stop : Nat) : List Nat := List.range' start (stop - start)

/-- `_TASHKEEL_CODEPOINTS` -/
def tashkeelCodepoints : List Nat :=
  codepoints 0x064B 0x0660 ++ [0x0670] ++ codepoints 0x06D6 0x06DD ++ codepoints 0x06DF 0x06E9 ++
    codepoints 0x06EA 0x06EE

/-- `_TASHKEEL_DELETE` -/
def tashkeelDelete : Table := tashkeelCodepoints.map fun n => (n, none)

/-- `_TATWEEL` -/
def tatweel : Nat := 0x0640

/-- `_TATWEEL_DELETE` -/
def tatweelDelete : Table := [(tatweel, none)]

/-- `_HAMZA_MAP` -/
def hamzaMap : Table :=
  [(0x0623, some 0x0627), (0x0625, some 0x0627), (0x0622, some 0x0627), (0x0671, some 0x0627), (0x0624, some 0x0648),
    (0x0626, some 0x064A)]

/-- `_FINAL_FORMS_MAP` -/
def finalFormsMap : Table := [(0x0649, some 0x064A), (0x0629, some 0x0647)]

/-- Diacritics and annotation marks are deleted. -/
def stripTashkeel (text : Str) : Str := translate tashkeelDelete text

def removeTatweel (text : Str) : Str := translate tatweelDelete text

/-- Alef and hamza carriers become their base letters. -/
def normalizeHamza (text : Str) : Str := translate hamzaMap text

/-- Final alef maksura becomes yeh, teh marbuta heh; not part of `normalize`. -/
def normalizeFinalForms (text : Str) : Str := translate finalFormsMap text

/-- The whitespace-delimited tokens. -/
def tokenize (text : Str) : List Str := split text

/-- The normalised surface form. -/
def normalize (text : Str) : Str := normalizeHamza (stripTashkeel (removeTatweel text))

end QuranAnalysis
