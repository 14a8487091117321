import Mathlib.Data.List.Basic

/-!
# Text.Separators

Texts built from fields and separators, read back.

* `append_sep_inj` — a field that does not contain the separator ends at the first one.
* `append_sep_eq_iff` — in which ways a text can be read as two fields around a separator.
* `repr_int_inj`, `not_mem_repr_int` — the decimal form of an integer determines it and contains
  digits and a minus sign only.
* `parseInt64`, `trim`, `eqIgnoreAsciiCase` — functions of a standard library.
* `trim_sep_trim` — two trimmed texts around a separator are the texts themselves only when
  there was nothing to trim.
-/

namespace Text

theorem append_sep_inj {α : Type} {s : α} {a a' b b' : List α} (ha : s ∉ a) (ha' : s ∉ a')
    (h : a ++ s :: b = a' ++ s :: b') : a = a' ∧ b = b' := by
  induction a generalizing a' with
  | nil =>
    cases a' with
    | nil => simpa using h
    | cons x a' =>
      simp only [List.nil_append, List.cons_append, List.cons.injEq] at h
      exact absurd (h.1 ▸ List.mem_cons_self) ha'
  | cons x a ih =>
    cases a' with
    | nil =>
      simp only [List.nil_append, List.cons_append, List.cons.injEq] at h
      exact absurd (h.1 ▸ List.mem_cons_self) ha
    | cons y a' =>
      simp only [List.cons_append, List.cons.injEq] at h
      obtain ⟨rfl, h⟩ := h
      obtain ⟨rfl, rfl⟩ := ih (List.not_mem_of_not_mem_cons ha)
        (List.not_mem_of_not_mem_cons ha') h
      exact ⟨rfl, rfl⟩

/-- A field that does not contain the separator starts after the last one. -/
theorem sep_append_inj {α : Type} {s : α} {a a' b b' : List α} (hb : s ∉ b) (hb' : s ∉ b')
    (h : a ++ s :: b = a' ++ s :: b') : a = a' ∧ b = b' := by
  have hrev := congrArg List.reverse h
  simp only [List.reverse_append, List.reverse_cons, List.append_assoc, List.singleton_append]
    at hrev
  obtain ⟨hb, ha⟩ := append_sep_inj (mt List.mem_reverse.mp hb) (mt List.mem_reverse.mp hb') hrev
  exact ⟨List.reverse_inj.mp ha, List.reverse_inj.mp hb⟩

/-- Two readings of a text with one separator split it at the same place, or the field that one of
them puts first contains the other's separator. -/
theorem append_sep_eq_iff {α : Type} {s : α} {a a' b b' : List α} :
    a ++ s :: b = a' ++ s :: b' ↔ (a = a' ∧ b = b') ∨
      (∃ q, a' = a ++ s :: q ∧ b = q ++ s :: b') ∨ ∃ q, a = a' ++ s :: q ∧ b' = q ++ s :: b := by
  constructor
  · intro h
    obtain ⟨c, rfl, hc⟩ | ⟨c, rfl, hc⟩ := List.append_eq_append_iff.mp h
    · cases c with
      | nil => exact .inl ⟨(List.append_nil a).symm, (List.cons.inj hc).2⟩
      | cons x q =>
        obtain ⟨rfl, hb⟩ := List.cons.inj hc
        exact .inr (.inl ⟨q, rfl, hb⟩)
    · cases c with
      | nil => exact .inl ⟨List.append_nil a', (List.cons.inj hc).2.symm⟩
      | cons x q =>
        obtain ⟨rfl, hb⟩ := List.cons.inj hc
        exact .inr (.inr ⟨q, rfl, hb⟩)
  · rintro (⟨rfl, rfl⟩ | ⟨q, rfl, rfl⟩ | ⟨q, rfl, rfl⟩)
    · rfl
    · rw [List.append_assoc, List.cons_append]
    · rw [List.append_assoc, List.cons_append]

theorem not_mem_repr_nat {c : Char} (hc : c.isDigit = false) (n : Nat) :
    c ∉ n.repr.toList := by
  intro h
  rw [Nat.toList_repr] at h
  rw [Nat.isDigit_of_mem_toDigits (by decide) (by decide) h] at hc
  cases hc

theorem repr_nat_inj {m n : Nat} (h : m.repr = n.repr) : m = n := by
  have h' := congrArg String.toList h
  rw [Nat.toList_repr, Nat.toList_repr] at h'
  rw [← Nat.ofDigitChars_ten_toDigits (n := m), h', Nat.ofDigitChars_ten_toDigits]

theorem toList_repr_negSucc (n : Nat) :
    (Int.negSucc n).repr.toList = '-' :: (n + 1).repr.toList := by
  rw [Int.repr, String.toList_append]
  rfl

theorem not_mem_repr_int {c : Char} (hc : c.isDigit = false) (hm : c ≠ '-') (n : Int) :
    c ∉ n.repr.toList := by
  cases n with
  | ofNat n => exact not_mem_repr_nat hc n
  | negSucc n =>
    rw [toList_repr_negSucc, List.mem_cons]
    rintro (h | h)
    · exact hm h
    · exact not_mem_repr_nat hc _ h

theorem repr_int_inj {a b : Int} (h : a.repr = b.repr) : a = b := by
  have minus (n : Nat) : '-' ∉ n.repr.toList := not_mem_repr_nat (by decide) n
  cases a with
  | ofNat m =>
    cases b with
    | ofNat n => exact congrArg Int.ofNat (repr_nat_inj h)
    | negSucc n =>
      have h' : m.repr.toList = _ := congrArg String.toList h
      rw [toList_repr_negSucc] at h'
      exact absurd (h' ▸ List.mem_cons_self) (minus m)
  | negSucc m =>
    cases b with
    | ofNat n =>
      have h' : _ = n.repr.toList := congrArg String.toList h
      rw [toList_repr_negSucc] at h'
      exact absurd (h' ▸ List.mem_cons_self) (minus n)
    | negSucc n =>
      have h' := congrArg String.toList h
      rw [toList_repr_negSucc, toList_repr_negSucc, List.cons.injEq] at h'
      have := repr_nat_inj (String.toList_inj.mp h'.2)
      rw [Nat.succ.inj this]

/-! ## Reading and comparing -/

/-- Decimal digits with an optional sign, in the range of 64 bits. -/
def parseInt64 (s : String) : Option Int :=
  let (negative, digits) :=
    match s.toList with
    | '-' :: ds => (true, ds)
    | '+' :: ds => (false, ds)
    | ds => (false, ds)
  if digits.isEmpty || digits.any (fun c => !c.isDigit) then none
  else
    let n : Int := digits.foldl (fun n c => 10 * n + (c.toNat - '0'.toNat)) 0
    let v := if negative then -n else n
    if -9223372036854775808 ≤ v ∧ v ≤ 9223372036854775807 then some v else none

/-- The Unicode property `White_Space`. -/
def isWhiteSpace (c : Char) : Bool :=
  let n := c.toNat
  (9 ≤ n && n ≤ 13) || n == 0x20 || n == 0x85 || n == 0xA0 || n == 0x1680 ||
    (0x2000 ≤ n && n ≤ 0x200A) || n == 0x2028 || n == 0x2029 || n == 0x202F || n == 0x205F ||
    n == 0x3000

/-- Nothing is left after trimming. -/
def isBlank (s : String) : Bool := s.toList.all isWhiteSpace

/-- `str::split_whitespace`. -/
def splitWhitespace (s : String) : List String :=
  ((s.toList.splitBy fun a b => isWhiteSpace a == isWhiteSpace b).filter fun word =>
    !word.all isWhiteSpace).map String.ofList

/-- `str::trim`, on the characters. -/
def trimChars (l : List Char) : List Char :=
  ((l.dropWhile isWhiteSpace).reverse.dropWhile isWhiteSpace).reverse

def trim (s : String) : String := String.ofList (trimChars s.toList)

theorem trimChars_sublist (l : List Char) : (trimChars l).Sublist l := by
  have hfront : (l.dropWhile isWhiteSpace).Sublist l := List.dropWhile_sublist _
  have hback : ((l.dropWhile isWhiteSpace).reverse.dropWhile isWhiteSpace).Sublist
      (l.dropWhile isWhiteSpace).reverse := List.dropWhile_sublist _
  have := hback.reverse
  rw [List.reverse_reverse] at this
  exact this.trans hfront

theorem trim_sep_trim {a b sep : String} : trim a ++ sep ++ trim b = a ++ sep ++ b ↔
    trim a = a ∧ trim b = b := by
  constructor
  · intro h
    have hlist := congrArg String.toList h
    simp only [String.toList_append, trim, String.toList_ofList] at hlist
    have ha := trimChars_sublist a.toList
    have hb := trimChars_sublist b.toList
    have hlen := congrArg List.length hlist
    simp only [List.length_append] at hlen
    have hla := ha.length_le
    have hlb := hb.length_le
    have hea : trimChars a.toList = a.toList := ha.eq_of_length (by omega)
    have heb : trimChars b.toList = b.toList := hb.eq_of_length (by omega)
    unfold trim
    rw [hea, heb, String.ofList_toList, String.ofList_toList]
    exact ⟨rfl, rfl⟩
  · rintro ⟨ha, hb⟩
    rw [ha, hb]

def eqIgnoreAsciiCase (a b : String) : Bool :=
  a.toList.map Char.toLower == b.toList.map Char.toLower

/-! ## Numbers in decimal -/

theorem isDigit_toNat {c : Char} (h : c.isDigit = true) : '0'.toNat ≤ c.toNat := by
  simp only [Char.isDigit, Bool.and_eq_true, decide_eq_true_eq] at h
  exact h.1

theorem foldl_digits {digits : List Char} (h : ∀ c ∈ digits, c.isDigit = true) (n : Nat) :
    digits.foldl (fun (n : Int) c => 10 * n + (c.toNat - '0'.toNat)) (n : Int) =
      (Nat.ofDigitChars 10 digits n : Nat) := by
  induction digits generalizing n with
  | nil => rfl
  | cons c digits ih =>
    have hc := isDigit_toNat (h c List.mem_cons_self)
    rw [List.foldl_cons, Nat.ofDigitChars_cons, ← ih fun d hd => h d (List.mem_cons_of_mem c hd)]
    congr 1
    omega

/-- A number of 64 bits is read as it was written. -/
theorem parseInt64_repr {i : Int} (hlo : -9223372036854775808 ≤ i) (hhi : i ≤ 9223372036854775807) :
    parseInt64 i.repr = some i := by
  have hdigits (n : Nat) : ∀ c ∈ Nat.toDigits 10 n, c.isDigit = true :=
    fun c hc => Nat.isDigit_of_mem_toDigits (by decide) (by decide) hc
  have hnone (n : Nat) : ((Nat.toDigits 10 n).isEmpty ||
      (Nat.toDigits 10 n).any fun c => !c.isDigit) = false := by
    rw [Bool.or_eq_false_iff, List.isEmpty_eq_false_iff, List.any_eq_false]
    exact ⟨Nat.toDigits_ne_nil, fun c hc => by simp [hdigits n c hc]⟩
  have hvalue (n : Nat) : (Nat.toDigits 10 n).foldl
      (fun (n : Int) c => 10 * n + (c.toNat - '0'.toNat)) 0 = (n : Int) := by
    have := foldl_digits (hdigits n) 0
    rwa [Nat.ofDigitChars_ten_toDigits] at this
  cases i with
  | ofNat n =>
    have hlist : (Int.ofNat n).repr.toList = Nat.toDigits 10 n := Nat.toList_repr
    obtain ⟨c, digits, hcons⟩ := List.exists_cons_of_ne_nil (Nat.toDigits_ne_nil (b := 10) (n := n))
    have hc := hdigits n c (hcons ▸ List.mem_cons_self)
    have hminus : c ≠ '-' := fun h => absurd (h ▸ hc) (by decide)
    have hplus : c ≠ '+' := fun h => absurd (h ▸ hc) (by decide)
    have hread := hvalue n
    have hall := hnone n
    rw [hcons] at hread hall
    unfold parseInt64
    rw [hlist, hcons]
    split
    rename_i negative ds heq
    split at heq
    · rename_i h
      exact absurd (List.cons.inj h).1 hminus
    · rename_i h
      exact absurd (List.cons.inj h).1 hplus
    · cases heq
      simp only [hall, Bool.false_eq_true, if_false, hread]
      exact if_pos ⟨hlo, hhi⟩
  | negSucc n =>
    have hlist : (Int.negSucc n).repr.toList = '-' :: Nat.toDigits 10 (n + 1) := by
      rw [toList_repr_negSucc, Nat.toList_repr]
    unfold parseInt64
    simp only [hlist, hnone, Bool.false_eq_true, if_false, hvalue, if_true]
    rw [if_pos (by omega)]
    congr 1

end Text
