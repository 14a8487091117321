import Mathlib.Algebra.Order.Field.Rat
import Mathlib.Tactic.FieldSimp
import Mathlib.Tactic.Ring

/-!
# Floats

Binary interchange formats: a sign bit, an exponent and a mantissa, and the number they stand for.

* `Format.value bits`  — the number of a bit pattern; `value_pack` reads one from its fields.
* `Widens f g`         — `g` is wider than `f`; its rules give the fields that a number has in `g`.
* `Value.halved`       — half of a number: a normal one has it one exponent below, `valueOf_pred`.
-/

namespace Floats

inductive Value where
  | nan
  | infinite (negative : Bool)
  | finite (negative : Bool) (abs : ℚ)
  deriving DecidableEq

def Value.halved : Value → Value
  | .finite negative abs => .finite negative (abs / 2)
  | v => v

structure Format where
  expBits : Nat
  manBits : Nat

namespace Format

variable (f : Format)

def bias : Nat := 2 ^ (f.expBits - 1) - 1

def top : Nat := 2 ^ f.expBits - 1

def negative (bits : Nat) : Bool := bits / 2 ^ (f.expBits + f.manBits) % 2 == 1

def exponent (bits : Nat) : Nat := bits / 2 ^ f.manBits % 2 ^ f.expBits

def mantissa (bits : Nat) : Nat := bits % 2 ^ f.manBits

def pack (negative : Bool) (exp man : Nat) : Nat :=
  negative.toNat * 2 ^ (f.expBits + f.manBits) + (exp * 2 ^ f.manBits + man)

/-- The exponents are those of the least normal numbers, so that they are never negative. -/
def valueOf (negative : Bool) (exp man : Nat) : Value :=
  if exp = f.top then if man = 0 then .infinite negative else .nan
  else if exp = 0 then .finite negative (man * 2 / 2 ^ (f.bias + f.manBits))
  else .finite negative ((2 ^ f.manBits + man) * 2 ^ exp / 2 ^ (f.bias + f.manBits))

def value (bits : Nat) : Value :=
  f.valueOf (f.negative bits) (f.exponent bits) (f.mantissa bits)

theorem value_pack (negative : Bool) {exp man : Nat} (hexp : exp < 2 ^ f.expBits)
    (hman : man < 2 ^ f.manBits) :
    f.value (f.pack negative exp man) = f.valueOf negative exp man := by
  have hlow : exp * 2 ^ f.manBits + man < 2 ^ (f.expBits + f.manBits) := by
    rw [Nat.pow_add]
    calc exp * 2 ^ f.manBits + man < exp * 2 ^ f.manBits + 2 ^ f.manBits :=
          Nat.add_lt_add_left hman _
      _ = (exp + 1) * 2 ^ f.manBits := (Nat.succ_mul _ _).symm
      _ ≤ 2 ^ f.expBits * 2 ^ f.manBits := Nat.mul_le_mul_right _ hexp
  have hsign : f.negative (f.pack negative exp man) = negative := by
    rw [Format.negative, pack, Nat.mul_comm, Nat.mul_add_div (Nat.two_pow_pos _),
      Nat.div_eq_of_lt hlow]
    cases negative <;> rfl
  have hrest : f.pack negative exp man =
      2 ^ f.manBits * (2 ^ f.expBits * negative.toNat + exp) + man := by
    rw [pack, Nat.pow_add]
    ring
  have hexponent : f.exponent (f.pack negative exp man) = exp := by
    rw [exponent, hrest, Nat.mul_add_div (Nat.two_pow_pos _), Nat.div_eq_of_lt hman, Nat.add_zero,
      Nat.mul_add_mod, Nat.mod_eq_of_lt hexp]
  have hmantissa : f.mantissa (f.pack negative exp man) = man := by
    rw [mantissa, hrest, Nat.mul_add_mod, Nat.mod_eq_of_lt hman]
  rw [value, hsign, hexponent, hmantissa]

end Format

/-! ## A wider format -/

/-- `g` has `extra` more bits of mantissa than `f`, and a bias larger by `shift`. -/
structure Widens (f g : Format) (extra shift : Nat) : Prop where
  manBits : g.manBits = f.manBits + extra
  bias : g.bias = f.bias + shift
  top : f.top + shift < g.top
  positive : 0 < f.top

variable {f g : Format} {extra shift : Nat}

theorem valueOf_special (f g : Format) (extra : Nat) (negative : Bool) (man : Nat) :
    g.valueOf negative g.top (man * 2 ^ extra) = f.valueOf negative f.top man := by
  have hzero : man * 2 ^ extra = 0 ↔ man = 0 := by
    rw [Nat.mul_eq_zero, or_iff_left (Nat.two_pow_pos _).ne']
  simp only [Format.valueOf, if_true, hzero]

theorem Widens.zero (h : Widens f g extra shift) (negative : Bool) :
    g.valueOf negative 0 0 = f.valueOf negative 0 0 := by
  have hg : (0 : Nat) ≠ g.top := by have := h.top; omega
  simp only [Format.valueOf, if_neg h.positive.ne, if_neg hg, if_true, Nat.cast_zero, zero_mul,
    zero_div]

theorem Widens.normal (h : Widens f g extra shift) (negative : Bool) {exp : Nat} (man : Nat)
    (hpos : 0 < exp) (hexp : exp < f.top) :
    g.valueOf negative (exp + shift) (man * 2 ^ extra) = f.valueOf negative exp man := by
  have hg : exp + shift ≠ g.top := by have := h.top; omega
  rw [Format.valueOf, Format.valueOf, if_neg hg, if_neg (by omega), if_neg hexp.ne,
    if_neg hpos.ne', h.manBits, h.bias]
  congr 1
  push_cast
  field_simp
  ring

/-- A subnormal number is normal in the wider format: its mantissa, shifted to the hidden bit. -/
theorem Widens.subnormal (h : Widens f g extra shift) (negative : Bool) {man k rest : Nat}
    (hrest : man * 2 ^ k = 2 ^ f.manBits + rest) (hk : k ≤ shift) :
    g.valueOf negative (shift + 1 - k) (rest * 2 ^ extra) = f.valueOf negative 0 man := by
  have hg : shift + 1 - k ≠ g.top := by have := h.top; have := h.positive; omega
  rw [Format.valueOf, Format.valueOf, if_neg hg, if_neg (by omega), if_neg h.positive.ne,
    if_pos rfl, h.manBits, h.bias]
  congr 1
  have hcast : (man : ℚ) * 2 ^ k = 2 ^ f.manBits + rest := by exact_mod_cast hrest
  have hpow : (2 : ℚ) ^ (shift + 1 - k) * 2 ^ k = 2 ^ (shift + 1) := by
    rw [← pow_add, Nat.sub_add_cancel (by omega)]
  have hnumerator : ((2 : ℚ) ^ (f.manBits + extra) + rest * 2 ^ extra) * 2 ^ (shift + 1 - k) =
      man * 2 * 2 ^ extra * 2 ^ shift :=
    calc ((2 : ℚ) ^ (f.manBits + extra) + rest * 2 ^ extra) * 2 ^ (shift + 1 - k)
        = (2 ^ f.manBits + rest) * 2 ^ extra * 2 ^ (shift + 1 - k) := by ring
      _ = man * 2 ^ extra * (2 ^ (shift + 1 - k) * 2 ^ k) := by rw [← hcast]; ring
      _ = man * 2 * 2 ^ extra * 2 ^ shift := by rw [hpow]; ring
  push_cast
  rw [hnumerator]
  field_simp
  ring

/-- One exponent below is half the number, as long as it stays a normal one. -/
theorem valueOf_pred (f : Format) (negative : Bool) {exp : Nat} (man : Nat) (hpos : 0 < exp)
    (hexp : exp + 1 < f.top) :
    f.valueOf negative exp man = (f.valueOf negative (exp + 1) man).halved := by
  rw [Format.valueOf, Format.valueOf, if_neg (by omega), if_neg (by omega), if_neg (by omega),
    if_neg (by omega), Value.halved, pow_succ]
  congr 1
  ring

end Floats
