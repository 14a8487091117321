import Mathlib.Data.List.Basic
import Mathlib.Order.Basic

/-!
# Autocommit

A list of statements on a connection that commits each one by itself: the first that fails stops
the list, and what came before it stays.

* `run`        — the state that is left and whether all statements went through.
* `failAt`     — the same list with one statement that fails for a reason of its own.
* `run_append`, `failAt_append` — both on a list in two parts.
* `FailsFirst` — the list stops before anything has changed.
* `run_failed_iff` — a list that fails leaves the state as it was only then, when statements only
  ever add to a measure.
-/

namespace Autocommit

variable {σ : Type}

/-- A failing statement gives no state. -/
abbrev SqlStatement (σ : Type) := σ → Option σ

def run : List (SqlStatement σ) → σ → σ × Bool
  | [], s => (s, true)
  | f :: fs, s =>
    match f s with
    | none => (s, false)
    | some s' => run fs s'

@[simp] theorem run_nil (s : σ) : run [] s = (s, true) := rfl

theorem run_cons_some {f : SqlStatement σ} {fs : List (SqlStatement σ)} {s s' : σ}
    (h : f s = some s') : run (f :: fs) s = run fs s' := by
  rw [run, h]

theorem run_cons_none {f : SqlStatement σ} {fs : List (SqlStatement σ)} {s : σ} (h : f s = none) :
    run (f :: fs) s = (s, false) := by
  rw [run, h]

theorem run_append (fs gs : List (SqlStatement σ)) (s : σ) : run (fs ++ gs) s =
    if (run fs s).2 then run gs (run fs s).1 else run fs s := by
  induction fs generalizing s with
  | nil => rfl
  | cons f fs ih =>
    rw [List.cons_append]
    cases hf : f s with
    | none =>
      rw [run_cons_none hf, run_cons_none hf]
      rfl
    | some s' =>
      rw [run_cons_some hf, run_cons_some hf]
      exact ih s'

/-- The statement at `k` fails; there is none when `k` is past the end. -/
def failAt (fault : Option Nat) (fs : List (SqlStatement σ)) : List (SqlStatement σ) :=
  match fault with
  | none => fs
  | some k => fs.set k fun _ => none

theorem failAt_past {fault : Option Nat} {fs : List (SqlStatement σ)}
    (h : ∀ k ∈ fault, fs.length ≤ k) : failAt fault fs = fs := by
  cases fault with
  | none => rfl
  | some k => exact List.set_eq_of_length_le (h k rfl)

theorem failAt_append (fault : Option Nat) (fs gs : List (SqlStatement σ)) :
    failAt fault (fs ++ gs) = failAt fault fs ++
      failAt (fault.bind fun k => if fs.length ≤ k then some (k - fs.length) else none) gs := by
  cases fault with
  | none => rfl
  | some k =>
    by_cases hlt : k < fs.length
    · simp only [failAt, Option.bind_some, if_neg (Nat.not_le.mpr hlt)]
      rw [List.set_append, if_pos hlt]
    · have hle := Nat.not_lt.mp hlt
      simp only [failAt, Option.bind_some, if_pos hle]
      rw [List.set_append, if_neg hlt, List.set_eq_of_length_le hle]

theorem run_set_none {fs : List (SqlStatement σ)} {k : Nat} (h : k < fs.length) (s : σ) :
    (run (fs.set k fun _ => none) s).2 = false := by
  induction fs generalizing k s with
  | nil => exact absurd h (Nat.not_lt_zero k)
  | cons f fs ih =>
    cases k with
    | zero => rfl
    | succ k =>
      rw [List.set_cons_succ]
      cases hf : f s with
      | none => rw [run_cons_none hf]
      | some s' =>
        rw [run_cons_some hf]
        exact ih (Nat.lt_of_succ_lt_succ h) s'

theorem run_failAt {fault : Option Nat} {fs : List (SqlStatement σ)} {s : σ} :
    (run (failAt fault fs) s).2 = true ↔
      (∀ k ∈ fault, fs.length ≤ k) ∧ (run fs s).2 = true := by
  constructor
  · intro h
    have hpast : ∀ k ∈ fault, fs.length ≤ k := by
      rintro k rfl
      by_contra hlt
      have hfail : (run (failAt (some k) fs) s).2 = false := run_set_none (Nat.not_le.mp hlt) s
      rw [hfail] at h
      exact Bool.false_ne_true h
    rw [failAt_past hpast] at h
    exact ⟨hpast, h⟩
  · rintro ⟨hpast, h⟩
    rw [failAt_past hpast]
    exact h

/-- Some statement fails, and the ones before it change nothing. -/
def FailsFirst (fs : List (SqlStatement σ)) (s : σ) : Prop :=
  ∃ before f after, fs = before ++ f :: after ∧ (∀ g ∈ before, g s = some s) ∧ f s = none

theorem FailsFirst.run_eq {fs : List (SqlStatement σ)} {s : σ} (h : FailsFirst fs s) :
    run fs s = (s, false) := by
  obtain ⟨before, f, after, rfl, hidle, hf⟩ := h
  induction before with
  | nil => exact run_cons_none hf
  | cons g before ih =>
    rw [List.cons_append, run_cons_some (hidle g List.mem_cons_self)]
    exact ih fun k hk => hidle k (List.mem_cons_of_mem g hk)

/-- What every statement keeps is kept by the list, wherever it stops. -/
theorem run_inv {I : σ → Prop} {fs : List (SqlStatement σ)}
    (hs : ∀ f ∈ fs, ∀ s s', I s → f s = some s' → I s') {s : σ} (h : I s) : I (run fs s).1 := by
  induction fs generalizing s with
  | nil => exact h
  | cons f fs ih =>
    have hrest : ∀ g ∈ fs, ∀ s s', I s → g s = some s' → I s' :=
      fun g hg => hs g (List.mem_cons_of_mem f hg)
    cases hf : f s with
    | none =>
      rw [run_cons_none hf]
      exact h
    | some s' =>
      rw [run_cons_some hf]
      exact ih hrest (hs f List.mem_cons_self s s' h hf)

section Measure

variable {μ : σ → Nat}

/-- The statement leaves the state as it is or adds to the measure. -/
def Adds (μ : σ → Nat) (f : SqlStatement σ) : Prop := ∀ s s', f s = some s' → s' = s ∨ μ s < μ s'

theorem Adds.failAt {fs : List (SqlStatement σ)} (h : ∀ f ∈ fs, Adds μ f) (fault : Option Nat) :
    ∀ f ∈ failAt fault fs, Adds μ f := by
  intro f hf
  cases fault with
  | none => exact h f hf
  | some k =>
    obtain hold | rfl := List.mem_or_eq_of_mem_set hf
    · exact h f hold
    · intro s s' hs
      cases hs

theorem run_adds {fs : List (SqlStatement σ)} (h : ∀ f ∈ fs, Adds μ f) (s : σ) :
    (run fs s).1 = s ∨ μ s < μ (run fs s).1 := by
  induction fs generalizing s with
  | nil => exact .inl rfl
  | cons f fs ih =>
    have hrest := ih fun g hg => h g (List.mem_cons_of_mem f hg)
    cases hf : f s with
    | none =>
      rw [run_cons_none hf]
      exact .inl rfl
    | some s' =>
      rw [run_cons_some hf]
      obtain rfl | hlt := h f List.mem_cons_self s s' hf
      · exact hrest s'
      · obtain heq | hlt' := hrest s'
        · rw [heq]
          exact .inr hlt
        · exact .inr (Nat.lt_trans hlt hlt')

/-- A list that fails and has added nothing has stopped before anything changed. -/
theorem run_failed_iff {fs : List (SqlStatement σ)} (h : ∀ f ∈ fs, Adds μ f) {s : σ}
    (hfail : (run fs s).2 = false) : μ (run fs s).1 ≤ μ s ↔ FailsFirst fs s := by
  constructor
  · intro hle
    induction fs with
    | nil => cases hfail
    | cons f fs ih =>
      cases hf : f s with
      | none => exact ⟨[], f, fs, rfl, by simp, hf⟩
      | some s' =>
        rw [run_cons_some hf] at hfail hle
        have hrest : ∀ g ∈ fs, Adds μ g := fun g hg => h g (List.mem_cons_of_mem f hg)
        have hsame : s' = s := by
          obtain heq | hlt := h f List.mem_cons_self s s' hf
          · exact heq
          · obtain heq | hlt' := run_adds hrest s'
            · rw [heq] at hle
              exact absurd hlt (Nat.not_lt.mpr hle)
            · exact absurd (Nat.lt_trans hlt hlt') (Nat.not_lt.mpr hle)
        subst hsame
        obtain ⟨before, g, after, rfl, hidle, hg⟩ := ih hrest hfail hle
        refine ⟨f :: before, g, after, rfl, ?_, hg⟩
        exact List.forall_mem_cons.mpr ⟨hf, hidle⟩
  · intro hfirst
    exact Nat.le_of_eq (congrArg (fun out => μ out.1) hfirst.run_eq)

end Measure

end Autocommit
