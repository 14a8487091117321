import Arags.Lib.Floats
import Mathlib.Tactic.NormNum

/-!
# Arags.Embedding.HalfFloats

The weights of a model: `half_to_f32` of `ops.rs` and `load_tensor` of `weights.rs`. A number is its
bit pattern.

* `halfToF32`         — 16 bits to 32; the subnormal numbers come out halved, `halfToF32_exact_iff`.
* `loadTensor_values` — the weights of a tensor, as the device is given them.
-/

namespace Arags.Embedding

open Floats

def half : Format := ⟨5, 10⟩

def single : Format := ⟨8, 23⟩

/-- `while (m & 0x400) == 0`; ten rounds bring any mantissa there. -/
def shiftUp : Nat → Nat → Nat → Nat × Nat
  | 0, m, e => (m, e)
  | rounds + 1, m, e => if m &&& 0x400 = 0 then shiftUp rounds (m <<< 1) (e + 1) else (m, e)

def halfToF32 (h : Nat) : Nat :=
  let sign := h >>> 15
  let exp := (h >>> 10) &&& 0x1F
  let mantissa := h &&& 0x3FF
  if exp = 0 then
    if mantissa = 0 then sign <<< 31
    else
      let (m, e) := shiftUp 10 mantissa 1
      (sign <<< 31) ||| ((127 - 15 + 1 - e) <<< 23) ||| ((m &&& 0x3FF) <<< 13)
  else if exp = 31 then (sign <<< 31) ||| 0x7F800000 ||| (mantissa <<< 13)
  else (sign <<< 31) ||| ((exp + 127 - 15) <<< 23) ||| (mantissa <<< 13)

/-! ## Fields -/

theorem or_eq_pack (negative : Bool) {exp man : Nat} (hexp : exp < 2 ^ 8) (hman : man < 2 ^ 10) :
    (negative.toNat <<< 31) ||| (exp <<< 23) ||| (man <<< 13) =
      single.pack negative exp (man * 2 ^ 13) := by
  have hshift : man <<< 13 < 2 ^ 23 := by
    rw [Nat.shiftLeft_eq]
    omega
  have hlow : exp <<< 23 + man <<< 13 < 2 ^ 31 :=
    calc exp <<< 23 + man <<< 13 < exp * 2 ^ 23 + 2 ^ 23 := by
          rw [Nat.shiftLeft_eq exp]
          exact Nat.add_lt_add_left hshift _
      _ = (exp + 1) * 2 ^ 23 := (Nat.succ_mul _ _).symm
      _ ≤ 2 ^ 8 * 2 ^ 23 := Nat.mul_le_mul_right _ hexp
      _ = 2 ^ 31 := (pow_add 2 8 23).symm
  rw [Nat.or_assoc, ← Nat.shiftLeft_add_eq_or_of_lt hshift, ← Nat.shiftLeft_add_eq_or_of_lt hlow]
  simp only [Nat.shiftLeft_eq, Format.pack, single]

theorem shiftRight_sign {h : Nat} (hh : h < 2 ^ 16) : h >>> 15 = (half.negative h).toNat := by
  have hle : h / 2 ^ 15 < 2 := by omega
  rw [Nat.shiftRight_eq_div_pow, Format.negative]
  change h / 2 ^ 15 = (h / 2 ^ 15 % 2 == 1).toNat
  obtain hz | ho : h / 2 ^ 15 = 0 ∨ h / 2 ^ 15 = 1 := by omega
  · rw [hz]
    rfl
  · rw [ho]
    rfl

theorem and_exponent (h : Nat) : (h >>> 10) &&& 0x1F = half.exponent h := by
  rw [Nat.shiftRight_eq_div_pow]
  exact Nat.and_two_pow_sub_one_eq_mod _ 5

theorem and_mantissa (h : Nat) : h &&& 0x3FF = half.mantissa h :=
  Nat.and_two_pow_sub_one_eq_mod h 10

theorem and_hidden_eq_zero {m : Nat} (h : m < 2 ^ 11) : m &&& 0x400 = 0 ↔ m < 2 ^ 10 := by
  have hbit (i : Nat) : (m &&& 0x400).testBit i = (m.testBit i && decide (10 = i)) := by
    change (m &&& 2 ^ 10).testBit i = _
    rw [Nat.testBit_and, Nat.testBit_two_pow]
  constructor
  · intro hzero
    have hten : m.testBit 10 = false := by
      have := hbit 10
      rwa [hzero, Nat.zero_testBit, decide_eq_true rfl, Bool.and_true, eq_comm] at this
    rw [Nat.testBit_eq_decide_div_mod_eq] at hten
    have := of_decide_eq_false hten
    omega
  · intro hlow
    refine Nat.eq_of_testBit_eq fun i => ?_
    rw [hbit, Nat.zero_testBit]
    by_cases hi : 10 = i
    · rw [← hi, Nat.testBit_lt_two_pow hlow, Bool.false_and]
    · rw [decide_eq_false hi, Bool.and_false]

/-- The loop stops when the mantissa has reached the hidden bit. -/
theorem shiftUp_spec {rounds m : Nat} (hm : m < 2 ^ 11) (henough : 2 ^ 10 ≤ m * 2 ^ rounds)
    (e : Nat) :
    ∃ k ≤ rounds, shiftUp rounds m e = (m * 2 ^ k, e + k) ∧
      2 ^ 10 ≤ m * 2 ^ k ∧ m * 2 ^ k < 2 ^ 11 := by
  induction rounds generalizing m e with
  | zero =>
    exact ⟨0, Nat.le_refl 0, by rw [shiftUp, pow_zero, mul_one, add_zero], henough, by omega⟩
  | succ rounds ih =>
    rw [shiftUp]
    by_cases hlow : m < 2 ^ 10
    · rw [if_pos ((and_hidden_eq_zero hm).mpr hlow), Nat.shiftLeft_eq, pow_one]
      have hnext : 2 ^ 10 ≤ m * 2 * 2 ^ rounds := by
        rwa [mul_assoc, ← pow_succ']
      obtain ⟨k, hk, hloop, hle, hlt⟩ := ih (m := m * 2) (by omega) hnext (e + 1)
      rw [mul_assoc, ← pow_succ'] at hle hlt hloop
      exact ⟨k + 1, Nat.succ_le_succ hk, by rw [hloop, add_assoc, add_comm 1], hle, hlt⟩
    · rw [if_neg (mt (and_hidden_eq_zero hm).mp hlow)]
      exact ⟨0, Nat.zero_le _, by rw [pow_zero, mul_one, add_zero], by omega, by omega⟩

/-! ## Values -/

def Subnormal (h : Nat) : Prop := half.exponent h = 0 ∧ half.mantissa h ≠ 0

instance (h : Nat) : Decidable (Subnormal h) := inferInstanceAs (Decidable (_ ∧ _))

theorem half_widens : Widens half single 13 112 := ⟨rfl, rfl, by decide, by decide⟩

theorem half_exponent_lt (h : Nat) : half.exponent h < 2 ^ 5 := Nat.mod_lt _ (Nat.two_pow_pos 5)

theorem half_mantissa_lt (h : Nat) : half.mantissa h < 2 ^ 10 := Nat.mod_lt _ (Nat.two_pow_pos 10)

/-- What the three fields of a result stand for. -/
theorem value_or (negative : Bool) {exp man : Nat} (hexp : exp < 2 ^ 8) (hman : man < 2 ^ 10) :
    single.value ((negative.toNat <<< 31) ||| (exp <<< 23) ||| (man <<< 13)) =
      single.valueOf negative exp (man * 2 ^ 13) := by
  rw [or_eq_pack negative hexp hman]
  refine single.value_pack negative hexp ?_
  calc man * 2 ^ 13 < 2 ^ 10 * 2 ^ 13 := Nat.mul_lt_mul_of_pos_right hman (Nat.two_pow_pos 13)
    _ = 2 ^ 23 := (pow_add 2 10 13).symm

/-- The loop counts from one, so the exponent of a subnormal number is one too small. -/
theorem halfToF32_subnormal {h : Nat} (hh : h < 2 ^ 16) (hs : Subnormal h) :
    single.value (halfToF32 h) = (half.value h).halved := by
  obtain ⟨hexp, hman⟩ := hs
  have hlt := half_mantissa_lt h
  obtain ⟨k, hk, hloop, hle, htop⟩ := shiftUp_spec (by omega : half.mantissa h < 2 ^ 11)
    (by omega : 2 ^ 10 ≤ half.mantissa h * 2 ^ 10) 1
  have hrest : half.mantissa h * 2 ^ k =
      2 ^ half.manBits + half.mantissa (half.mantissa h * 2 ^ k) := by
    change _ = 2 ^ 10 + _ % 2 ^ 10
    omega
  have hfields : halfToF32 h = ((half.negative h).toNat <<< 31) ||| ((112 - k) <<< 23) |||
      (half.mantissa (half.mantissa h * 2 ^ k) <<< 13) := by
    have hexponent : 127 - 15 + 1 - (1 + k) = 112 - k := by omega
    rw [halfToF32, and_exponent, and_mantissa, if_pos hexp, if_neg hman, hloop]
    simp only [hexponent, and_mantissa, shiftRight_sign hh]
  rw [hfields, value_or _ (by omega) (half_mantissa_lt _),
    valueOf_pred single _ _ (by omega) (by change _ < 255; omega), Format.value, hexp]
  congr 1
  rw [← half_widens.subnormal _ hrest (by omega)]
  congr 1
  omega

theorem halfToF32_exact {h : Nat} (hh : h < 2 ^ 16) (hs : ¬ Subnormal h) :
    single.value (halfToF32 h) = half.value h := by
  have hlt := half_mantissa_lt h
  have hexp := half_exponent_lt h
  rw [halfToF32, and_exponent, and_mantissa, shiftRight_sign hh]
  by_cases hzero : half.exponent h = 0
  · have hman : half.mantissa h = 0 := by
      by_contra hne
      exact hs ⟨hzero, hne⟩
    have hor := value_or (half.negative h) (by omega : 0 < 2 ^ 8) (by omega : 0 < 2 ^ 10)
    rw [Nat.zero_shiftLeft, Nat.zero_shiftLeft, Nat.or_zero, Nat.or_zero, zero_mul] at hor
    simp only [hzero, hman, if_true]
    rw [hor, half_widens.zero, Format.value, hzero, hman]
  · simp only [if_neg hzero]
    by_cases htop : half.exponent h = 31
    · have hvalue : half.value h = half.valueOf (half.negative h) half.top (half.mantissa h) :=
        congrArg (half.valueOf (half.negative h) · (half.mantissa h)) htop
      rw [if_pos htop, hvalue]
      exact (value_or _ (by omega : 255 < 2 ^ 8) hlt).trans
        (valueOf_special half single 13 _ _)
    · have hshifted : half.exponent h + 127 - 15 = half.exponent h + 112 := by omega
      rw [if_neg htop, hshifted, value_or _ (by omega) hlt]
      exact half_widens.normal _ _ (by omega) (by change _ < 31; omega)

/-- What a number comes out as: itself, or half of it when it is subnormal. -/
def loaded (h : Nat) : Value :=
  if Subnormal h then (half.value h).halved else half.value h

theorem halfToF32_value {h : Nat} (hh : h < 2 ^ 16) : single.value (halfToF32 h) = loaded h := by
  rw [loaded]
  split
  · rename_i hs
    exact halfToF32_subnormal hh hs
  · rename_i hs
    exact halfToF32_exact hh hs

/-- No subnormal number is half of itself. -/
theorem halfToF32_exact_iff (h : UInt16) :
    single.value (halfToF32 h.toNat) = half.value h.toNat ↔ ¬ Subnormal h.toNat := by
  refine ⟨fun heq hs => ?_, halfToF32_exact h.toNat_lt⟩
  have hvalue : half.value h.toNat = .finite (half.negative h.toNat)
      (half.mantissa h.toNat * 2 / 2 ^ (half.bias + half.manBits)) := by
    rw [Format.value, hs.1]
    rfl
  rw [halfToF32_subnormal h.toNat_lt hs, hvalue, Value.halved] at heq
  have hhalf := (Value.finite.inj heq).2
  have hman : (half.mantissa h.toNat : ℚ) ≠ 0 := Nat.cast_ne_zero.mpr hs.2
  field_simp at hhalf
  norm_num at hhalf

/-! ## Tensors -/

inductive Dtype where
  | f32
  | f16
  | other (name : String)
  deriving DecidableEq, Repr

structure TensorInfo where
  dtype : Dtype
  shape : List Nat
  data : List UInt8

inductive EmbeddingError where
  | modelNotLoaded (message : String)
  | candle (message : String)
  deriving DecidableEq, Repr

/-- `chunks_exact(2)` and `from_le_bytes`: a last byte on its own is no number. -/
def u16sLe : List UInt8 → List Nat
  | b₀ :: b₁ :: data => (b₀.toNat + 2 ^ 8 * b₁.toNat) :: u16sLe data
  | _ => []

/-- `chunks_exact(4)` and `from_le_bytes`. -/
def u32sLe : List UInt8 → List Nat
  | b₀ :: b₁ :: b₂ :: b₃ :: data =>
    (b₀.toNat + 2 ^ 8 * b₁.toNat + 2 ^ 16 * b₂.toNat + 2 ^ 24 * b₃.toNat) :: u32sLe data
  | _ => []

section Load

variable {τ : Type} (tensor : String → Except String TensorInfo)
  (fromVec : List Nat → List Nat → Except String τ)

def fromVecOrCandle (bits shape : List Nat) : Except EmbeddingError τ :=
  match fromVec bits shape with
  | .ok t => .ok t
  | .error e => .error (.candle e)

/-- A tensor of the file, which knows its names, as one of the device, which checks its shape. -/
def loadTensor (name : String) : Except EmbeddingError τ :=
  match tensor name with
  | .error e => .error (.modelNotLoaded ("tensor '" ++ name ++ "': " ++ e))
  | .ok info =>
    match info.dtype with
    | .f32 => fromVecOrCandle fromVec (u32sLe info.data) info.shape
    | .f16 => fromVecOrCandle fromVec ((u16sLe info.data).map halfToF32) info.shape
    | .other dtype =>
      .error (.modelNotLoaded ("unsupported dtype " ++ dtype ++ " for tensor '" ++ name ++ "'"))

theorem u16sLe_lt (data : List UInt8) : ∀ h ∈ u16sLe data, h < 2 ^ 16 := by
  fun_induction u16sLe data with
  | case1 b₀ b₁ data ih =>
    intro h hmem
    rcases List.mem_cons.mp hmem with rfl | htail
    · have h₀ : b₀.toNat < 2 ^ 8 := b₀.toNat_lt
      have h₁ : b₁.toNat < 2 ^ 8 := b₁.toNat_lt
      omega
    · exact ih h htail
  | case2 => exact fun _ hmem => nomatch hmem

theorem map_halfToF32 (data : List UInt8) :
    ((u16sLe data).map halfToF32).map single.value = (u16sLe data).map loaded := by
  rw [List.map_map]
  exact List.map_congr_left fun h hmem => halfToF32_value (u16sLe_lt data h hmem)

/-- The weights that the device is given are those of the file, in their order, as they are; of a
half tensor, the subnormal ones are halved. -/
theorem loadTensor_values (name : String) :
    (loadTensor tensor (fun bits shape => .ok (bits, shape)) name).map
        (fun t => (t.1.map single.value, t.2)) =
      match tensor name with
      | .error e => .error (.modelNotLoaded ("tensor '" ++ name ++ "': " ++ e))
      | .ok ⟨.f32, shape, data⟩ => .ok ((u32sLe data).map single.value, shape)
      | .ok ⟨.f16, shape, data⟩ => .ok ((u16sLe data).map loaded, shape)
      | .ok ⟨.other dtype, _, _⟩ =>
        .error (.modelNotLoaded
          ("unsupported dtype " ++ dtype ++ " for tensor '" ++ name ++ "'")) := by
  rw [loadTensor]
  cases tensor name with
  | error e => rfl
  | ok info =>
    obtain ⟨dtype, shape, data⟩ := info
    cases dtype with
    | f32 => rfl
    | f16 => exact congrArg (fun values => Except.ok (values, shape)) (map_halfToF32 data)
    | other dtype => rfl

end Load

end Arags.Embedding
