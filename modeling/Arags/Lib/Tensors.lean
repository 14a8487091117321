import Mathlib.Analysis.Real.Sqrt
import Mathlib.Analysis.SpecialFunctions.Log.ERealExp
import Mathlib.Analysis.SpecialFunctions.Pow.Real

/-!
# Tensors

The vectors of a tensor library over numbers of any kind, and padding.

* `Scalar`       — what the library computes with; `LawfulScalar` — where the arithmetic is exact.
* The extended reals are lawful.
* `softmax`      — as such libraries compute it, with the maximum taken off first.
* `total_pad`, `softmax_pad` — a vector with entries added that do not count.
-/

namespace Tensors

/-- The numbers, and the reductions of the library, which say in which order they go. -/
class Scalar (K : Type) extends Zero K, Add K, Sub K, Mul K, Div K where
  negInf : K
  ofNat : Nat → K
  lit : Rat → K
  /-- `1 / sqrt n`. -/
  recipSqrt : Nat → K
  powf : K → Rat → K
  sqrt : K → K
  exp : K → K
  tanh : K → K
  maximum : K → K → K
  sum : List K → K
  mean : List K → K
  max : List K → K

/-- A number times zero is zero, and what is added to pad a sum or a maximum does not change it. -/
class LawfulScalar (K : Type) [Scalar K] : Prop where
  mul_zero_add (x c : K) : x * 0 + c = c
  mul_zero (x : K) : x * 0 = 0
  zero_mul (x : K) : 0 * x = 0
  zero_div (x : K) : 0 / x = 0
  ofNat_zero : Scalar.ofNat 0 = (0 : K)
  sum_pad (xs : List K) (n : Nat) : Scalar.sum (xs ++ List.replicate n 0) = Scalar.sum xs
  max_pad (xs : List K) (n : Nat) (h : xs ≠ []) :
    Scalar.max (xs ++ List.replicate n Scalar.negInf) = Scalar.max xs
  exp_negInf (xs : List K) (x : K) (hx : x ∈ xs) (h : x ≠ Scalar.negInf) :
    Scalar.exp (Scalar.negInf - Scalar.max xs) = 0
  recipSqrt_ne (n : Nat) : Scalar.recipSqrt n ≠ (Scalar.negInf : K)

section Vectors

variable {K : Type} [Scalar K] {n m : Nat}

def total (x : Fin n → K) : K := Scalar.sum (List.ofFn x)

def mean (x : Fin n → K) : K := Scalar.mean (List.ofFn x)

def affine (x mul add : K) : K := x * mul + add

def softmax (x : Fin n → K) : Fin n → K :=
  let max := Scalar.max (List.ofFn x)
  let num := fun i => Scalar.exp (x i - max)
  fun i => num i / total num

/-! ## Padding -/

/-- The longer vector begins with the shorter one. -/
def Extends {α : Type} (h : n ≤ m) (x : Fin n → α) (y : Fin m → α) : Prop :=
  ∀ i, y (Fin.castLE h i) = x i

/-- And has nothing but the filling after it. -/
structure Pads {α : Type} (h : n ≤ m) (filling : α) (x : Fin n → α) (y : Fin m → α) : Prop where
  ext : Extends h x y
  filled : ∀ i : Fin m, n ≤ i → y i = filling

theorem Extends.map {α β : Type} {h : n ≤ m} {x : Fin n → α} {y : Fin m → α}
    (hx : Extends h x y) (f : α → β) : Extends h (fun i => f (x i)) fun i => f (y i) :=
  fun i => congrArg f (hx i)

theorem Pads.map {α β : Type} {h : n ≤ m} {a : α} {x : Fin n → α} {y : Fin m → α}
    (hp : Pads h a x y) (f : α → β) : Pads h (f a) (fun i => f (x i)) fun i => f (y i) :=
  ⟨hp.ext.map f, fun i hi => congrArg f (hp.filled i hi)⟩

theorem Pads.ofFn {α : Type} {h : n ≤ m} {a : α} {x : Fin n → α} {y : Fin m → α}
    (hp : Pads h a x y) : List.ofFn y = List.ofFn x ++ List.replicate (m - n) a := by
  refine List.ext_getElem (by simp; omega) fun i hi _ => ?_
  rw [List.length_ofFn] at hi
  by_cases hin : i < n
  · rw [List.getElem_append_left (by simpa using hin), List.getElem_ofFn, List.getElem_ofFn]
    exact hp.ext ⟨i, hin⟩
  · rw [List.getElem_append_right (by simpa using Nat.le_of_not_lt hin), List.getElem_ofFn,
      List.getElem_replicate]
    exact hp.filled ⟨i, hi⟩ (Nat.le_of_not_lt hin)

variable [LawfulScalar K]

theorem total_pad {h : n ≤ m} {x : Fin n → K} {y : Fin m → K} (hp : Pads h 0 x y) :
    total y = total x := by
  rw [total, hp.ofFn, LawfulScalar.sum_pad, total]

/-- A weighted total, where the weights of the padding are zero. -/
theorem total_mul_pad {h : n ≤ m} {w x : Fin n → K} {w' x' : Fin m → K} (hw : Pads h 0 w w')
    (hx : Extends h x x') : (total fun i => w' i * x' i) = total fun i => w i * x i := by
  refine total_pad (h := h) ⟨fun i => ?_, fun i hi => ?_⟩
  · rw [hw.ext i, hx i]
  · rw [hw.filled i hi, LawfulScalar.zero_mul]

/-- Scores padded with minus infinity have weights padded with zero. -/
theorem softmax_pad {h : n ≤ m} {x : Fin n → K} {y : Fin m → K}
    (hp : Pads h Scalar.negInf x y) {i : Fin n} (hi : x i ≠ Scalar.negInf) :
    Pads h 0 (softmax x) (softmax y) := by
  have hmem : x i ∈ List.ofFn x := List.mem_ofFn.mpr ⟨i, rfl⟩
  have hmax : Scalar.max (List.ofFn y) = Scalar.max (List.ofFn x) := by
    rw [hp.ofFn, LawfulScalar.max_pad _ _ (List.ne_nil_of_mem hmem)]
  have hnum : Pads h 0 (fun i => Scalar.exp (x i - Scalar.max (List.ofFn x)))
      (fun i => Scalar.exp (y i - Scalar.max (List.ofFn y))) := by
    rw [hmax]
    refine ⟨fun j => ?_, fun j hj => ?_⟩
    · rw [hp.ext j]
    · rw [hp.filled j hj]
      exact LawfulScalar.exp_negInf _ _ hmem hi
  refine ⟨fun j => ?_, fun j hj => ?_⟩
  · have hext := hnum.ext j
    simp only [softmax, total_pad hnum] at hext ⊢
    rw [hext]
  · have hfilled := hnum.filled j hj
    simp only [softmax] at hfilled ⊢
    rw [hfilled, LawfulScalar.zero_div]

end Vectors

/-! ## Exact arithmetic -/

section Exact

/-- A function of the reals is applied to the real part. -/
noncomputable instance : Scalar EReal where
  negInf := ⊥
  ofNat n := ((n : ℝ) : EReal)
  lit q := ((q : ℝ) : EReal)
  recipSqrt n := ((1 / Real.sqrt n : ℝ) : EReal)
  powf x p := ((x.toReal ^ (p : ℝ) : ℝ) : EReal)
  sqrt x := (Real.sqrt x.toReal : EReal)
  exp x := (EReal.exp x : EReal)
  tanh x := (Real.tanh x.toReal : EReal)
  maximum := max
  sum := List.sum
  mean xs := xs.sum / ((xs.length : ℝ) : EReal)
  max xs := xs.foldl max ⊥

theorem foldl_max_bot (n : Nat) (x : EReal) : (List.replicate n ⊥).foldl max x = x := by
  induction n with
  | zero => rfl
  | succ n ih => rw [List.replicate_succ, List.foldl_cons, max_bot_right, ih]

instance : LawfulScalar EReal where
  mul_zero_add x c := (congrArg (· + c) (mul_zero x)).trans (zero_add c)
  mul_zero := mul_zero
  zero_mul := zero_mul
  zero_div _ := EReal.zero_div
  ofNat_zero := by
    change (((0 : ℕ) : ℝ) : EReal) = 0
    rw [Nat.cast_zero, EReal.coe_zero]
  sum_pad xs n := by
    change (xs ++ List.replicate n (0 : EReal)).sum = xs.sum
    rw [List.sum_append, List.sum_replicate, smul_zero, add_zero]
  max_pad xs n _ := by
    change (xs ++ List.replicate n ⊥).foldl max ⊥ = xs.foldl max ⊥
    rw [List.foldl_append, foldl_max_bot]
  -- minus infinity stays so, whatever is taken off it
  exp_negInf xs _ _ _ := by
    change (EReal.exp (⊥ - xs.foldl max ⊥) : EReal) = 0
    rw [EReal.bot_sub, EReal.exp_bot, EReal.coe_ennreal_zero]
  recipSqrt_ne _ := EReal.coe_ne_bot _

end Exact

end Tensors
