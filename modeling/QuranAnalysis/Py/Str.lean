import QuranAnalysis.Seq.Fields
import QuranAnalysis.Seq.Occurrences

/-!
# Python strings

A `str` is the list of its code points. The methods are those of the standard library, with their documented
behaviour: `isSpace` and `isLineBreak` are the tables behind `str.isspace` and `str.splitlines`.

- `split` and `strip` are `Seq.fields` and `Seq.trim` at whitespace; `split_join` says that splitting undoes a join of
  tokens.
- `splitlines` undoes `unlines` (`splitlines_unlines`).
-/

namespace Py

/-- A `str`, as its code points. -/
abbrev Str := List Char

/-- `str.isspace` of one character. -/
def isSpace (c : Char) : Bool :=
  let n := c.toNat
  (0x09 ≤ n && n ≤ 0x0d) || (0x1c ≤ n && n ≤ 0x20) || n == 0x85 || n == 0xa0 || n == 0x1680 ||
    (0x2000 ≤ n && n ≤ 0x200a) || n == 0x2028 || n == 0x2029 || n == 0x202f || n == 0x205f || n == 0x3000

/-- The characters at which `str.splitlines` ends a line. -/
def isLineBreak (c : Char) : Bool :=
  let n := c.toNat
  (0x0a ≤ n && n ≤ 0x0d) || (0x1c ≤ n && n ≤ 0x1e) || n == 0x85 || n == 0x2028 || n == 0x2029

/-- `s.split()` -/
def split (s : Str) : List Str := Seq.fields isSpace s

/-- `s.strip()` -/
def strip (s : Str) : Str := Seq.trim isSpace s

/-- `s.strip(chars)` -/
def stripChars (chars : Str) (s : Str) : Str := Seq.trim (fun c => chars.contains c) s

/-- `" ".join(ts)` -/
def join (ts : List Str) : Str := [' '].intercalate ts

/-- `s.startswith(pre)` -/
def startswith (s pre : Str) : Bool := pre.isPrefixOf s

/-- `s.replace(c, new)` for a one-character pattern. -/
def replace (c : Char) (new : Str) (s : Str) : Str := s.flatMap fun d => if d = c then new else [d]

/-- `s.count(sub)`: non-overlapping occurrences, from left to right; `""` is found between any two characters. -/
def count (s sub : Str) : Nat := if sub = [] then s.length + 1 else Seq.occurrences sub s

/-- `s.splitlines()`. A carriage return before a line feed leaves the ending of the line to it. -/
def splitlines : Str → List Str
  | [] => []
  | c :: s =>
    if c = '\r' ∧ s.head? = some '\n' then splitlines s
    else if isLineBreak c then [] :: splitlines s
    else
      match splitlines s with
      | [] => [[c]]
      | l :: ls => (c :: l) :: ls

/-! ## Tokens -/

/-- A token: a nonempty string without whitespace. -/
abbrev IsToken (t : Str) : Prop := Seq.IsField isSpace t

/-- What `split` returns are tokens. -/
theorem isToken_of_mem_split {s t : Str} (h : t ∈ split s) : IsToken t := Seq.isField_of_mem_fields h

/-- Splitting undoes a join of tokens. -/
theorem split_join {ts : List Str} (h : ∀ t ∈ ts, IsToken t) : split (join ts) = ts :=
  Seq.fields_intercalate (by decide) h

/-- Stripping keeps the tokens. -/
theorem split_strip (s : Str) : split (strip s) = split s := Seq.fields_trim s

/-- A token has nothing to strip. -/
theorem strip_eq_of_isToken {t : Str} (h : IsToken t) : strip t = t := (Seq.trimmed_of_no_sep h.no_sep).trim_eq

/-- What does not strip to nothing is not empty. -/
theorem ne_nil_of_strip {s : Str} (h : strip s ≠ []) : s ≠ [] := by
  rintro rfl
  exact h rfl

/-- A join of tokens has nothing to strip. -/
theorem strip_join {ts : List Str} (h : ∀ t ∈ ts, IsToken t) : strip (join ts) = join ts :=
  (Seq.trimmed_intercalate [' '] h).trim_eq

/-- The characters of a join of tokens: characters of the tokens and single spaces. -/
theorem mem_join {ts : List Str} {c : Char} (h : c ∈ join ts) : c = ' ' ∨ ∃ t ∈ ts, c ∈ t :=
  (Seq.mem_intercalate h).imp_left fun h => by simpa using h

/-- Every line break is whitespace. -/
theorem isSpace_of_isLineBreak {c : Char} (h : isLineBreak c = true) : isSpace c = true := by
  simp only [isLineBreak, isSpace, Bool.or_eq_true, Bool.and_eq_true, decide_eq_true_eq, beq_iff_eq] at *
  omega

/-! ## Lines -/

/-- A line: no line break inside. -/
def NoBreak (l : Str) : Prop := ∀ c ∈ l, isLineBreak c = false

instance (l : Str) : Decidable (NoBreak l) := List.decidableBAll _ l

theorem NoBreak.append {l m : Str} (hl : NoBreak l) (hm : NoBreak m) : NoBreak (l ++ m) := fun c hc =>
  (List.mem_append.mp hc).elim (hl c) (hm c)

theorem NoBreak.cons {c : Char} {l : Str} (hc : isLineBreak c = false) (hl : NoBreak l) : NoBreak (c :: l) :=
  NoBreak.append (l := [c]) (by simpa [NoBreak] using hc) hl

theorem NoBreak.intercalate {sep : Str} (hs : NoBreak sep) {ls : List Str} (h : ∀ l ∈ ls, NoBreak l) :
    NoBreak (sep.intercalate ls) := fun c hc =>
  (Seq.mem_intercalate hc).elim (hs c) fun ⟨l, hl, hcl⟩ => h l hl c hcl

/-- A join of tokens stays on one line. -/
theorem noBreak_join {ts : List Str} (h : ∀ t ∈ ts, IsToken t) : NoBreak (join ts) := by
  intro c hc
  rcases mem_join hc with rfl | ⟨t, ht, hct⟩
  · decide
  · by_contra hb
    have := (h t ht).no_sep c hct
    rw [isSpace_of_isLineBreak (by simpa using hb)] at this
    cases this

/-- A line has no line break. -/
theorem noBreak_of_mem_splitlines {s l : Str} (h : l ∈ splitlines s) : NoBreak l := by
  induction s generalizing l with
  | nil => cases h
  | cons c s ih =>
    rw [splitlines] at h
    split at h
    · exact ih h
    · split at h
      · rcases List.mem_cons.mp h with rfl | h
        · exact fun d hd => by cases hd
        · exact ih h
      · next hc =>
        have hc : isLineBreak c = false := by simpa using hc
        cases hs : splitlines s with
        | nil =>
          rw [hs, List.mem_singleton] at h
          rw [h]
          exact NoBreak.cons hc fun d hd => by cases hd
        | cons m ms =>
          rw [hs] at h ih
          rcases List.mem_cons.mp h with rfl | h
          · exact NoBreak.cons hc (ih List.mem_cons_self)
          · exact ih (List.mem_cons_of_mem m h)

/-- The lines, each ended by a line feed. -/
def unlines (ls : List Str) : Str := ls.flatMap (· ++ ['\n'])

@[simp] theorem unlines_nil : unlines [] = [] := rfl

@[simp] theorem unlines_cons (l : Str) (ls : List Str) : unlines (l :: ls) = l ++ '\n' :: unlines ls := by
  simp [unlines]

theorem unlines_append (ls ms : List Str) : unlines (ls ++ ms) = unlines ls ++ unlines ms := by
  simp [unlines]

/-- Lines joined by line feeds, with one more at the end. -/
theorem intercalate_lf : ∀ {ls : List Str}, ls ≠ [] → ['\n'].intercalate ls ++ ['\n'] = unlines ls
  | [l], _ => by simp
  | l :: m :: ls, _ => by
    rw [List.intercalate_cons_of_ne_nil (by simp), List.append_assoc, List.append_assoc, intercalate_lf (by simp),
      List.singleton_append, ← unlines_cons]

/-- A line feed ends a line. -/
theorem splitlines_append_lf {l : Str} (hl : NoBreak l) (s : Str) :
    splitlines (l ++ '\n' :: s) = l :: splitlines s := by
  induction l with
  | nil => simp [splitlines, show isLineBreak '\n' = true from rfl]
  | cons c l ih =>
    have hc : isLineBreak c = false := hl c (by simp)
    have hr : c ≠ '\r' := by rintro rfl; cases hc
    rw [List.cons_append, splitlines, ih fun d hd => hl d (List.mem_cons_of_mem _ hd)]
    simp [hr, hc]

/-- **Splitting into lines undoes writing lines.** -/
theorem splitlines_unlines {ls : List Str} (h : ∀ l ∈ ls, NoBreak l) : splitlines (unlines ls) = ls := by
  induction ls with
  | nil => rfl
  | cons l ls ih =>
    rw [unlines_cons, splitlines_append_lf (h l (by simp)), ih fun m hm => h m (List.mem_cons_of_mem _ hm)]

end Py
