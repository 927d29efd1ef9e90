import Mathlib.Algebra.Order.Group.Nat
import Mathlib.Algebra.Order.Ring.Nat
import QuranAnalysis.Py.Exc

/-!
# `int()` and `str()` of integers

`int` reads an optional sign and decimal digits of any script, with single underscores between digits and whitespace
around; `str` writes decimal digits. Both raise `ValueError` past the interpreter's limit on the number of digits, and
versions of the interpreter differ in when `int` looks at it.

- `int_eq_ok_iff`: the texts that `int` reads.
- `int_str`: reading undoes writing.
- `str_of_int`: an integer that was read can be written.
- `isDecimal_of_str`: what is written is nonempty and made of digits and a sign.
-/

namespace Py

open List

/-- What `int` depends on: the setting `sys.get_int_max_str_digits()`, where `0` turns the limit off, and whether the
limit comes before the look at what follows the digits (in CPython 3.11) or after it (from 3.12 on). -/
class Interpreter where
  intMaxStrDigits : Nat
  limitFirst : Bool

/-- CPython 3.11 with its default setting. -/
@[reducible] def defaultInterpreter : Interpreter := ⟨4300, true⟩

/-- More digits than the interpreter converts. -/
def tooLong [Interpreter] (n : Nat) : Prop := Interpreter.intMaxStrDigits ≠ 0 ∧ Interpreter.intMaxStrDigits < n

instance [Interpreter] (n : Nat) : Decidable (tooLong n) := inferInstanceAs (Decidable (_ ∧ _))

/-- The zeros of the decimal scripts (category `Nd`); the other nine digits follow each. -/
def decimalZeros : List Nat :=
  [0x30, 0x660, 0x6f0, 0x7c0, 0x966, 0x9e6, 0xa66, 0xae6, 0xb66, 0xbe6, 0xc66, 0xce6, 0xd66, 0xde6, 0xe50, 0xed0,
    0xf20, 0x1040, 0x1090, 0x17e0, 0x1810, 0x1946, 0x19d0, 0x1a80, 0x1a90, 0x1b50, 0x1bb0, 0x1c40, 0x1c50, 0xa620,
    0xa8d0, 0xa900, 0xa9d0, 0xa9f0, 0xaa50, 0xabf0, 0xff10, 0x104a0, 0x10d30, 0x11066, 0x110f0, 0x11136, 0x111d0,
    0x112f0, 0x11450, 0x114d0, 0x11650, 0x116c0, 0x11730, 0x118e0, 0x11950, 0x11c50, 0x11d50, 0x11da0, 0x16a60,
    0x16ac0, 0x16b50, 0x1d7ce, 0x1d7d8, 0x1d7e2, 0x1d7ec, 0x1d7f6, 0x1e140, 0x1e2f0, 0x1e950, 0x1fbf0]

/-- The value of a decimal digit. -/
def digitValue (c : Char) : Option Nat :=
  (decimalZeros.find? fun z => z ≤ c.toNat && c.toNat < z + 10).map fun z => c.toNat - z

/-- The whitespace that `int()` skips: the information separators stay. -/
def isIntSpace (c : Char) : Bool := isSpace c && !(0x1c ≤ c.toNat && c.toNat ≤ 0x1f)

/-- The characters of a number. -/
def isIntChar (c : Char) : Bool := (digitValue c).isSome || c == '_'

/-- The digits of groups joined by single underscores. -/
def intDigits (number : Str) : Option (List Nat) :=
  let groups := number.splitOn '_'
  if groups.any (·.isEmpty) then none else some (groups.flatten.filterMap digitValue)

/-- The number with these decimal digits. -/
def ofDigits (ds : List Nat) : Nat := ds.foldl (fun v d => 10 * v + d) 0

/-- A leading sign (true for minus) and the rest. -/
def intSign : Str → Bool × Str
  | '-' :: body => (true, body)
  | '+' :: body => (false, body)
  | body => (false, body)

/-- Nothing but whitespace follows the digits, up to the end or a null character. -/
def endsHere (rest : Str) : Bool := (rest.dropWhile isIntSpace).head?.all (·.toNat == 0)

/-- The exception of `int(s)` at what is no number; it shows 200 characters of the representation of `s`. -/
def invalidLiteral (s : Str) : Exc := .valueError [.text "invalid literal for int() with base 10: ", .reprTo 200 s]

/-- `int(s)` -/
def int [Interpreter] (s : Str) : Result Int :=
  let (neg, body) := intSign (Seq.trim isIntSpace s)
  let rest := body.dropWhile isIntChar
  match intDigits (body.takeWhile isIntChar) with
  | none => .error (invalidLiteral s)
  | some ds =>
    if tooLong ds.length ∧ (Interpreter.limitFirst = true ∨ endsHere rest = true) then
      .error (.valueError [.text "Exceeds the limit (", .int Interpreter.intMaxStrDigits,
        .text " digits) for integer string conversion: value has ", .int ds.length,
        .text " digits; use sys.set_int_max_str_digits() to increase the limit"])
    else if rest = [] then .ok (if neg then -(ofDigits ds : Int) else ofDigits ds)
    else .error (invalidLiteral s)

/-- `str(n)` -/
def str [Interpreter] (n : Int) : Result Str :=
  let ds := Nat.toDigits 10 n.natAbs
  if tooLong ds.length then
    .error (.valueError [.text "Exceeds the limit (", .int Interpreter.intMaxStrDigits,
      .text " digits) for integer string conversion; use sys.set_int_max_str_digits() to increase the limit"])
  else .ok (if n < 0 then '-' :: ds else ds)

/-! ## Digits -/

/-- The value of an ASCII digit. -/
theorem digitValue_of_isDigit {c : Char} (h : c.isDigit = true) : digitValue c = some (c.toNat - 48) := by
  have h1 : 48 ≤ c.toNat ∧ c.toNat ≤ 57 := by
    simp only [Char.isDigit, Bool.and_eq_true, decide_eq_true_eq, UInt32.le_iff_toNat_le] at h
    exact h
  rw [digitValue, decimalZeros, find?_cons_of_pos (by simp; omega)]
  rfl

/-- The value of a digit is below ten. -/
theorem digitValue_lt {c : Char} {d : Nat} (h : digitValue c = some d) : d < 10 := by
  obtain ⟨z, hz, rfl⟩ := Option.map_eq_some_iff.mp h
  have := find?_some hz
  simp only [Bool.and_eq_true, decide_eq_true_eq] at this
  omega

theorem ofDigits_concat (ds : List Nat) (d : Nat) : ofDigits (ds ++ [d]) = 10 * ofDigits ds + d := by
  simp [ofDigits]

/-- A number with `k` digits is below `10 ^ k`. -/
theorem ofDigits_lt {ds : List Nat} (h : ∀ d ∈ ds, d < 10) : ofDigits ds < 10 ^ ds.length := by
  induction ds using List.reverseRecOn with
  | nil => simp [ofDigits]
  | append_singleton ds d ih =>
    have h1 := ih fun e he => h e (by simp [he])
    have h2 := h d (by simp)
    rw [ofDigits_concat, length_append, length_singleton, pow_succ]
    omega

/-- A block of ASCII digits is a number and nothing behind it. -/
theorem takeWhile_isIntChar {s : Str} (h : ∀ c ∈ s, c.isDigit = true) :
    s.takeWhile isIntChar = s ∧ s.dropWhile isIntChar = [] := by
  have hs : ∀ c ∈ s, isIntChar c = true := fun c hc => by simp [isIntChar, digitValue_of_isDigit (h c hc)]
  exact ⟨takeWhile_eq_self_iff.mpr hs, dropWhile_eq_nil_iff.mpr hs⟩

/-- The digits of a block of ASCII digits. -/
theorem intDigits_of_isDigit {s : Str} (hne : s ≠ []) (h : ∀ c ∈ s, c.isDigit = true) :
    intDigits s = some (s.map fun c => c.toNat - 48) := by
  have hu : '_' ∉ s := fun hm => by have := h _ hm; simp [Char.isDigit] at this
  have hmap : s.filterMap digitValue = s.map fun c => c.toNat - 48 := by
    rw [← filterMap_eq_map]
    exact filterMap_congr fun c hc => digitValue_of_isDigit (h c hc)
  rw [intDigits, splitOn_eq_singleton hu]
  simp [hne, hmap]

/-- The values of the digits are below ten. -/
theorem lt_of_mem_intDigits {s : Str} {ds : List Nat} (h : intDigits s = some ds) {d : Nat} (hd : d ∈ ds) :
    d < 10 := by
  rw [intDigits] at h
  split at h
  · cases h
  · cases h
    obtain ⟨c, _, hc⟩ := mem_filterMap.mp hd
    exact digitValue_lt hc

/-- The digits that `Nat.toDigits` writes have the number as value. -/
theorem ofDigits_toDigits (n : Nat) : ofDigits ((Nat.toDigits 10 n).map fun c => c.toNat - 48) = n := by
  have h := Nat.ofDigitChars_ten_toDigits (n := n)
  rw [Nat.ofDigitChars_eq_foldl] at h
  rw [ofDigits, foldl_map]
  exact h

theorem isDigit_of_mem_toDigits {n : Nat} {c : Char} (h : c ∈ Nat.toDigits 10 n) : c.isDigit = true :=
  Nat.isDigit_of_mem_toDigits (by decide) (by decide) h

/-- Digits and signs are not whitespace. -/
theorem not_isSpace_of_isDecimal {c : Char} (h : c.isDigit = true ∨ c = '-') : isSpace c = false := by
  rcases h with h | rfl
  · have h1 : 48 ≤ c.toNat ∧ c.toNat ≤ 57 := by
      simp only [Char.isDigit, Bool.and_eq_true, decide_eq_true_eq, UInt32.le_iff_toNat_le] at h
      exact h
    simp [isSpace]
    omega
  · decide

/-- Digits and signs are not trimmed. -/
theorem trim_of_isDecimal {t : Str} (h : ∀ c ∈ t, c.isDigit = true ∨ c = '-') : Seq.trim isIntSpace t = t := by
  refine (Seq.trimmed_of_no_sep fun c hc => ?_).trim_eq
  rw [isIntSpace, not_isSpace_of_isDecimal (h c hc), Bool.false_and]

/-- Digits have no sign in front. -/
theorem intSign_toDigits (n : Nat) : intSign (Nat.toDigits 10 n) = (false, Nat.toDigits 10 n) := by
  have hdigit : ∀ c ∈ Nat.toDigits 10 n, c.isDigit = true := fun c hc => isDigit_of_mem_toDigits hc
  unfold intSign
  split
  · next h => rw [h] at hdigit; exact absurd (hdigit '-' (by simp)) (by decide)
  · next h => rw [h] at hdigit; exact absurd (hdigit '+' (by simp)) (by decide)
  · rfl

section Conversions

variable [Interpreter]

/-- The integers whose decimal notation is within the limit. -/
theorem str_eq_ok_iff {n : Int} {t : Str} :
    str n = .ok t ↔ ¬ tooLong (Nat.toDigits 10 n.natAbs).length ∧
      t = if n < 0 then '-' :: Nat.toDigits 10 n.natAbs else Nat.toDigits 10 n.natAbs := by
  rw [str]
  split
  · next h => simp [h]
  · next h => simp [h, eq_comm]

/-- A natural number is written in digits alone. -/
theorem str_natCast_eq_ok_iff {n : Nat} {t : Str} :
    str (n : Int) = .ok t ↔ (∃ s, str (n : Int) = .ok s) ∧ Nat.toDigits 10 n = t := by
  have hn : ¬ (n : Int) < 0 := by omega
  simp only [str_eq_ok_iff, if_neg hn, Int.natAbs_natCast, exists_and_left, exists_eq, and_true]
  exact and_congr_right fun _ => eq_comm

/-- What is written is made of digits, behind a sign for a negative number. -/
theorem isDecimal_of_str {n : Int} {t : Str} (h : str n = .ok t) : t ≠ [] ∧ ∀ c ∈ t, c.isDigit = true ∨ c = '-' := by
  rw [str_eq_ok_iff] at h
  obtain ⟨-, rfl⟩ := h
  split
  · refine ⟨by simp, fun c hc => ?_⟩
    rcases mem_cons.mp hc with rfl | hc
    · exact Or.inr rfl
    · exact Or.inl (isDigit_of_mem_toDigits hc)
  · exact ⟨Nat.toDigits_ne_nil, fun c hc => Or.inl (isDigit_of_mem_toDigits hc)⟩

/-- What is written has no character other than digits and the sign. -/
theorem notMem_of_str {n : Int} {t : Str} (h : str n = .ok t) {c : Char} (hc : ¬ (c.isDigit = true ∨ c = '-')) :
    c ∉ t := fun hm => hc ((isDecimal_of_str h).2 c hm)

/-- What is written is a token. -/
theorem isToken_str {n : Int} {t : Str} (h : str n = .ok t) : IsToken t :=
  ⟨(isDecimal_of_str h).1, fun c hc => not_isSpace_of_isDecimal ((isDecimal_of_str h).2 c hc)⟩

/-- What is written stays on one line. -/
theorem noBreak_str {n : Int} {t : Str} (h : str n = .ok t) : NoBreak t := by
  have h1 : NoBreak (join [t]) := noBreak_join (by simpa using isToken_str h)
  simpa [join] using h1

/-! ## Reading and writing -/

/-- The texts that are read: digits behind a sign and nothing else, within the limit. -/
theorem int_eq_ok_iff {s : Str} {m : Int} : int s = .ok m ↔
    ∃ neg body ds, intSign (Seq.trim isIntSpace s) = (neg, body) ∧ body.dropWhile isIntChar = [] ∧
      intDigits (body.takeWhile isIntChar) = some ds ∧ ¬ tooLong ds.length ∧
        m = if neg then -(ofDigits ds : Int) else ofDigits ds := by
  obtain ⟨⟨neg, body⟩, hsign⟩ : ∃ p, intSign (Seq.trim isIntSpace s) = p := ⟨_, rfl⟩
  simp only [int, hsign, Prod.mk.injEq]
  cases hds : intDigits (body.takeWhile isIntChar) with
  | none =>
    refine iff_of_false (by simp) ?_
    rintro ⟨_, _, ds, ⟨rfl, rfl⟩, -, hds', -⟩
    rw [hds] at hds'
    cases hds'
  | some ds =>
    constructor
    · intro h
      dsimp only at h
      split at h
      · cases h
      · next hl =>
        split at h
        · next hrest =>
          refine ⟨neg, body, ds, ⟨rfl, rfl⟩, hrest, hds, fun htl => hl ⟨htl, .inr (by rw [hrest]; rfl)⟩, ?_⟩
          exact (Except.ok.inj h).symm
        · cases h
    · rintro ⟨_, _, _, ⟨rfl, rfl⟩, hrest, hds', hl, rfl⟩
      cases hds.symm.trans hds'
      dsimp only
      rw [if_neg fun h => hl h.1, if_pos hrest]

/-- Behind too many digits, the versions report different errors. -/
example : @int ⟨3, true⟩ "1111x".toList ≠ @int ⟨3, false⟩ "1111x".toList := by decide

/-- `int()` raises nothing but `ValueError`. -/
theorem onlyValueError_int (s : Str) : OnlyValueError (int s) := by
  obtain ⟨⟨neg, body⟩, hsign⟩ : ∃ p, intSign (Seq.trim isIntSpace s) = p := ⟨_, rfl⟩
  simp only [int, hsign]
  cases intDigits (body.takeWhile isIntChar) with
  | none => exact .valueError _
  | some ds =>
    dsimp only
    split
    · exact .valueError _
    · split
      · exact .ok _
      · exact .valueError _

/-- Writing raises nothing but `ValueError`. -/
theorem onlyValueError_str (n : Int) : OnlyValueError (str n) := by
  rw [str]
  split
  · exact .valueError _
  · exact .ok _

/-- What is read from digits behind a sign: the number, unless the digits are too many. -/
theorem int_eq_ok_iff_of_sign {t : Str} {neg : Bool} {n : Nat}
    (h : intSign (Seq.trim isIntSpace t) = (neg, Nat.toDigits 10 n)) {m : Int} :
    int t = .ok m ↔ ¬ tooLong (Nat.toDigits 10 n).length ∧ m = if neg then -(n : Int) else n := by
  have hdig : ∀ c ∈ Nat.toDigits 10 n, c.isDigit = true := fun c hc => isDigit_of_mem_toDigits hc
  obtain ⟨htake, hdrop⟩ := takeWhile_isIntChar hdig
  have hds := intDigits_of_isDigit Nat.toDigits_ne_nil hdig
  rw [int_eq_ok_iff, h]
  constructor
  · rintro ⟨_, _, ds, hsign, -, hds', hl, rfl⟩
    cases hsign
    rw [htake, hds] at hds'
    cases hds'
    rw [length_map] at hl
    exact ⟨hl, by rw [ofDigits_toDigits]⟩
  · rintro ⟨hl, rfl⟩
    refine ⟨neg, _, _, rfl, hdrop, by rw [htake, hds], by rwa [length_map], by rw [ofDigits_toDigits]⟩

/-- **Reading undoes writing.** -/
theorem int_str {n : Int} {t : Str} (h : str n = .ok t) : int t = .ok n := by
  have htrim := trim_of_isDecimal (isDecimal_of_str h).2
  obtain ⟨hl, ht⟩ := str_eq_ok_iff.mp h
  by_cases hn : n < 0
  · rw [if_pos hn] at ht
    have hsign : intSign (Seq.trim isIntSpace t) = (true, Nat.toDigits 10 n.natAbs) := by
      rw [htrim, ht]
      rfl
    exact (int_eq_ok_iff_of_sign hsign).mpr ⟨hl, by rw [if_pos rfl]; omega⟩
  · rw [if_neg hn] at ht
    have hsign : intSign (Seq.trim isIntSpace t) = (false, Nat.toDigits 10 n.natAbs) := by
      rw [htrim, ht, intSign_toDigits]
    refine (int_eq_ok_iff_of_sign hsign).mpr ⟨hl, ?_⟩
    rw [if_neg Bool.false_ne_true]
    omega

/-- The digits of a natural number are read exactly when it can be written, and as this number. -/
theorem int_toDigits_eq_ok_iff {n : Nat} {m : Int} :
    int (Nat.toDigits 10 n) = .ok m ↔ (∃ t, str (n : Int) = .ok t) ∧ m = n := by
  have hsign : intSign (Seq.trim isIntSpace (Nat.toDigits 10 n)) = (false, Nat.toDigits 10 n) := by
    rw [trim_of_isDecimal fun c hc => Or.inl (isDigit_of_mem_toDigits hc), intSign_toDigits]
  rw [int_eq_ok_iff_of_sign hsign]
  simp [str_eq_ok_iff]

/-- Different integers are written differently. -/
theorem str_injective {n k : Int} {t : Str} (hn : str n = .ok t) (hk : str k = .ok t) : n = k := by
  have := int_str hn
  rw [int_str hk] at this
  exact (Except.ok.inj this).symm

/-- One digit is within every limit. -/
theorem str_one : str 1 = .ok ['1'] := by
  have hl : ¬ tooLong (Nat.toDigits 10 (1 : Int).natAbs).length := by
    intro h
    have h1 : Interpreter.intMaxStrDigits < 1 := h.2
    have h0 := h.1
    omega
  exact str_eq_ok_iff.mpr ⟨hl, rfl⟩

/-- **An integer that was read can be written.** -/
theorem str_of_int {s : Str} {n : Int} (h : int s = .ok n) : ∃ t, str n = .ok t := by
  obtain ⟨neg, body, ds, -, -, hds, hl, hn⟩ := int_eq_ok_iff.mp h
  have habs : n.natAbs = ofDigits ds := by
    split at hn <;> omega
  refine ⟨_, str_eq_ok_iff.mpr ⟨fun ⟨h0, htl⟩ => ?_, rfl⟩⟩
  -- `n` is below `10 ^ k` for the number `k` of digits read, so it has at most `k` digits
  have hk : ds.length ≤ Interpreter.intMaxStrDigits := by
    by_contra hk
    exact hl ⟨h0, by omega⟩
  have hb : n.natAbs < 10 ^ Interpreter.intMaxStrDigits := by
    rw [habs]
    exact (ofDigits_lt fun d hm => lt_of_mem_intDigits hds hm).trans_le (Nat.pow_le_pow_right (by decide) hk)
  have := (Nat.length_toDigits_le_iff (by decide) (Nat.pos_of_ne_zero h0)).mpr hb
  omega

end Conversions

end Py
