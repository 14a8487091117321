import Mathlib.Algebra.GroupWithZero.Nat
import Arags.Lib.Text
import Arags.Lib.Utf8

/-!
# Wire

What a protocol of lines reads from a stream of bytes.

* `readExact n bytes`  — as many bytes, or an error.
* `readLine bytes`     — up to a newline or the end, as text.
* `fromStrRadix radix` — a number of 64 bits; `numeral` writes one.
* `readLine_text`, `fromStrRadix_numeral` — what was written is read.
-/

namespace Wire

open Text

/-! ## Bytes and lines -/

def readExact (n : Nat) (bytes : List UInt8) : Except String (List UInt8 × List UInt8) :=
  if n ≤ bytes.length then .ok (bytes.take n, bytes.drop n)
  else .error "failed to fill whole buffer"

/-- The text of which these are the bytes. -/
def fromUtf8 (bytes : List UInt8) : Option (List Char) :=
  let text := lossyChars bytes.length bytes
  if utf8Bytes text = bytes then some text else none

def splitLine : List UInt8 → List UInt8 × List UInt8
  | [] => ([], [])
  | b :: bytes =>
    if b = 10 then ([b], bytes)
    else
      let (line, rest) := splitLine bytes
      (b :: line, rest)

/-- `BufRead::read_line`; the newline is part of the line. -/
def readLine (bytes : List UInt8) : Except String (List Char × List UInt8) :=
  let (line, rest) := splitLine bytes
  match fromUtf8 line with
  | some text => .ok (text, rest)
  | none => .error "stream did not contain valid UTF-8"

theorem fromUtf8_utf8Bytes (text : List Char) : fromUtf8 (utf8Bytes text) = some text := by
  rw [fromUtf8, lossyChars_utf8Bytes text (length_le_utf8Bytes text)]
  exact if_pos rfl

theorem splitLine_newline {line : List UInt8} (h : 10 ∉ line) (rest : List UInt8) :
    splitLine (line ++ 10 :: rest) = (line ++ [10], rest) := by
  induction line with
  | nil => rfl
  | cons b line ih =>
    have hb : b ≠ 10 := fun heq => h (heq ▸ List.mem_cons_self)
    rw [List.cons_append, splitLine, if_neg hb, ih fun hmem => h (List.mem_cons_of_mem b hmem)]
    rfl

theorem splitLine_unended {bytes : List UInt8} (h : 10 ∉ bytes) :
    splitLine bytes = (bytes, []) := by
  induction bytes with
  | nil => rfl
  | cons b bytes ih =>
    have hb : b ≠ 10 := fun heq => h (heq ▸ List.mem_cons_self)
    rw [splitLine, if_neg hb, ih fun hmem => h (List.mem_cons_of_mem b hmem)]

theorem newline_not_mem_utf8Bytes {text : List Char} (h : '\n' ∉ text) : 10 ∉ utf8Bytes text := by
  rw [← List.count_eq_zero, count_utf8Bytes]
  exact List.count_eq_zero.mpr h

/-- A line of text is read as it was written. -/
theorem readLine_text {text : List Char} (h : '\n' ∉ text) (rest : List UInt8) :
    readLine (utf8Bytes (text ++ ['\n']) ++ rest) = .ok (text ++ ['\n'], rest) := by
  have hnewline : utf8Bytes ['\n'] = [10] := by decide
  have hsplit : splitLine (utf8Bytes (text ++ ['\n']) ++ rest) =
      (utf8Bytes (text ++ ['\n']), rest) := by
    rw [utf8Bytes_append, hnewline, List.append_assoc, List.singleton_append,
      splitLine_newline (newline_not_mem_utf8Bytes h)]
  rw [readLine, hsplit]
  simp only [fromUtf8_utf8Bytes]

/-- Nothing is left after a line that no newline ends. -/
theorem readLine_unended {bytes : List UInt8} (h : 10 ∉ bytes) {line : List Char}
    {rest : List UInt8} (hline : readLine bytes = .ok (line, rest)) : rest = [] := by
  rw [readLine, splitLine_unended h] at hline
  simp only at hline
  split at hline
  · exact (congrArg Prod.snd (Except.ok.inj hline)).symm
  · cases hline

theorem readExact_append (data rest : List UInt8) :
    readExact data.length (data ++ rest) = .ok (data, rest) := by
  rw [readExact, if_pos (by rw [List.length_append]; omega), List.take_left, List.drop_left]

theorem readExact_short {n : Nat} {bytes : List UInt8} (h : bytes.length < n) :
    readExact n bytes = .error "failed to fill whole buffer" :=
  if_neg (Nat.not_le.mpr h)

/-! ## Numbers -/

def digitChar (d : Nat) : Char :=
  if d < 10 then Char.ofNat ('0'.toNat + d) else Char.ofNat ('a'.toNat + (d - 10))

/-- `char::to_digit`. -/
def toDigit (radix : Nat) (c : Char) : Option Nat :=
  let n := c.toNat
  let digit :=
    if '0'.toNat ≤ n ∧ n ≤ '9'.toNat then some (n - '0'.toNat)
    else if 'a'.toNat ≤ n ∧ n ≤ 'z'.toNat then some (n - 'a'.toNat + 10)
    else if 'A'.toNat ≤ n ∧ n ≤ 'Z'.toNat then some (n - 'A'.toNat + 10)
    else none
  digit.filter (· < radix)

def addDigit (radix n : Nat) (c : Char) : Except String Nat :=
  match toDigit radix c with
  | none => .error "invalid digit found in string"
  | some d =>
    if n * radix + d < 2 ^ 64 then .ok (n * radix + d)
    else .error "number too large to fit in target type"

/-- `usize::from_str_radix`. -/
def fromStrRadix (radix : Nat) (src : List Char) : Except String Nat :=
  match src with
  | [] => .error "cannot parse integer from empty string"
  | ['+'] => .error "invalid digit found in string"
  | '+' :: digits => digits.foldlM (addDigit radix) 0
  | digits => digits.foldlM (addDigit radix) 0

/-- The digits of a number, to a base of at most sixteen. -/
def numeral (radix n : Nat) : List Char :=
  if n < radix ∨ radix < 2 then [digitChar n]
  else numeral radix (n / radix) ++ [digitChar (n % radix)]
termination_by n
decreasing_by exact Nat.div_lt_self (by omega) (by omega)

theorem toDigit_digitChar : ∀ radix ≤ 16, ∀ d < radix, toDigit radix (digitChar d) = some d := by
  decide

theorem digitChar_plain : ∀ d < 16, digitChar d ≠ '+' ∧ digitChar d ≠ ';' ∧ digitChar d ≠ '\n' ∧
    isWhiteSpace (digitChar d) = false := by decide

theorem numeral_ne_nil (radix n : Nat) : numeral radix n ≠ [] := by
  rw [numeral]
  split
  · exact List.cons_ne_nil _ _
  · exact List.append_ne_nil_of_right_ne_nil _ (List.cons_ne_nil _ _)

section Numerals

variable {radix : Nat}

theorem foldlM_numeral (hbase : 2 ≤ radix) (hmax : radix ≤ 16) (n : Nat) (h : n < 2 ^ 64) :
    (numeral radix n).foldlM (addDigit radix) 0 = .ok n := by
  fun_induction numeral radix n with
  | case1 n hn =>
    rw [List.foldlM_cons, addDigit, toDigit_digitChar radix hmax n (by omega)]
    simp only [Nat.zero_mul, Nat.zero_add, if_pos h]
    rfl
  | case2 n hn ih =>
    have hmod : n % radix < radix := Nat.mod_lt n (by omega)
    have hdiv : n / radix ≤ n := Nat.div_le_self n radix
    have hsum : n / radix * radix + n % radix = n := by
      rw [Nat.mul_comm]
      exact Nat.div_add_mod n radix
    rw [List.foldlM_append, ih (by omega)]
    change [digitChar (n % radix)].foldlM (addDigit radix) (n / radix) = _
    rw [List.foldlM_cons, addDigit, toDigit_digitChar radix hmax _ hmod]
    simp only [hsum, if_pos h]
    rfl

theorem mem_numeral (hbase : 2 ≤ radix) (hmax : radix ≤ 16) {c : Char} {n : Nat}
    (h : c ∈ numeral radix n) :
    ∃ d < 16, c = digitChar d := by
  fun_induction numeral radix n with
  | case1 n hn => exact ⟨n, by omega, List.mem_singleton.mp h⟩
  | case2 n hn ih =>
    rcases List.mem_append.mp h with hfront | hlast
    · exact ih hfront
    · exact ⟨n % radix, Nat.lt_of_lt_of_le (Nat.mod_lt n (by omega)) hmax,
        List.mem_singleton.mp hlast⟩

theorem fromStrRadix_numeral (hbase : 2 ≤ radix) (hmax : radix ≤ 16) {n : Nat}
    (h : n < 2 ^ 64) :
    fromStrRadix radix (numeral radix n) = .ok n := by
  obtain ⟨c, digits, hcons⟩ := List.exists_cons_of_ne_nil (numeral_ne_nil radix n)
  have hplus : c ≠ '+' := by
    obtain ⟨d, hd, rfl⟩ := mem_numeral hbase hmax (hcons ▸ List.mem_cons_self)
    exact (digitChar_plain d hd).1
  have hfold := foldlM_numeral hbase hmax n h
  rw [hcons] at hfold ⊢
  unfold fromStrRadix
  split
  · contradiction
  · rename_i heq
    exact absurd (List.cons.inj heq).1 hplus
  · rename_i heq
    exact absurd (List.cons.inj heq).1 hplus
  · exact hfold

end Numerals

end Wire
