/-!
# Attempts

Operations that may fail, repeated and chained. An operation reads and changes its surroundings.

* `after op s n`, `reply op s n` — the surroundings after `n` calls, and what call `n` returns.
* `retry transient op n` — calls until the reply is not a transient error, `n` times more at most.
* `retry_spec` — the result is the first reply that is final, or the last one.
* `orElse`, `firstOk` — another operation in place of one that failed; `firstOk_spec`.
-/

namespace Attempts

variable {σ ε α : Type}

abbrev Op (σ ε α : Type) := σ → Except ε α × σ

def after (op : Op σ ε α) (s : σ) : Nat → σ
  | 0 => s
  | n + 1 => after op (op s).2 n

def reply (op : Op σ ε α) (s : σ) (n : Nat) : Except ε α := (op (after op s n)).1

theorem after_succ (op : Op σ ε α) (s : σ) (n : Nat) :
    after op s (n + 1) = (op (after op s n)).2 := by
  induction n generalizing s with
  | zero => rfl
  | succ n ih => exact ih (op s).2

/-- Not an error that is worth another call. -/
def Final (transient : ε → Bool) : Except ε α → Prop
  | .ok _ => True
  | .error e => transient e = false

structure Tried (σ ε α : Type) where
  result : Except ε α
  surroundings : σ
  /-- The errors that were followed by another call, in order. -/
  errors : List ε

def retry (transient : ε → Bool) (op : Op σ ε α) : Nat → σ → Tried σ ε α
  | 0, s => ⟨(op s).1, (op s).2, []⟩
  | n + 1, s =>
    match op s with
    | (.ok a, s') => ⟨.ok a, s', []⟩
    | (.error e, s') =>
      if transient e then
        let rest := retry transient op n s'
        { rest with errors := e :: rest.errors }
      else ⟨.error e, s', []⟩

theorem retry_final {transient : ε → Bool} {op : Op σ ε α} {s : σ}
    (h : Final transient (op s).1) (n : Nat) :
    retry transient op n s = ⟨(op s).1, (op s).2, []⟩ := by
  cases n with
  | zero => rfl
  | succ n =>
    rw [retry]
    cases hop : op s with
    | mk r s' =>
      cases r with
      | ok a => rfl
      | error e =>
        have he : transient e = false := by simpa only [Final, hop] using h
        simp only [he, Bool.false_eq_true, if_false]

theorem retry_again {transient : ε → Bool} {op : Op σ ε α} {s s' : σ} {e : ε}
    (hop : op s = (.error e, s')) (h : transient e = true) (n : Nat) :
    retry transient op (n + 1) s =
      { retry transient op n s' with errors := e :: (retry transient op n s').errors } := by
  simp only [retry, hop, h, if_true]

/-- The calls before the last one met transient errors; the last one is final, or there were no
more calls. -/
theorem retry_spec (transient : ε → Bool) (op : Op σ ε α) (n : Nat) (s : σ) :
    let t := retry transient op n s
    let k := t.errors.length
    k ≤ n ∧ (∀ i e, t.errors[i]? = some e → reply op s i = .error e ∧ transient e = true) ∧
      t.result = reply op s k ∧ t.surroundings = after op s (k + 1) ∧
      (k = n ∨ Final transient t.result) := by
  induction n generalizing s with
  | zero => exact ⟨Nat.le_refl 0, fun _ _ h => (nomatch h), rfl, rfl, .inl rfl⟩
  | succ n ih =>
    by_cases hf : Final transient (op s).1
    · rw [retry_final hf]
      exact ⟨Nat.zero_le _, fun _ _ h => (nomatch h), rfl, rfl, .inr hf⟩
    · obtain ⟨e, s', hop, he⟩ : ∃ e s', op s = (.error e, s') ∧ transient e = true := by
        cases hop : op s with
        | mk r s' =>
          rw [hop] at hf
          cases r with
          | ok a => exact absurd trivial hf
          | error e => exact ⟨e, s', rfl, by simpa [Final] using hf⟩
      have hs' : (op s).2 = s' := by rw [hop]
      obtain ⟨hle, herrors, hresult, hafter, hlast⟩ := ih s'
      rw [retry_again hop he]
      refine ⟨Nat.succ_le_succ hle, fun i e' hi => ?_, ?_, ?_, ?_⟩
      · cases i with
        | zero =>
          obtain rfl := Option.some_inj.mp hi
          exact ⟨by rw [reply, after, hop], he⟩
        | succ i =>
          rw [reply, after, hs']
          exact herrors i e' hi
      · rw [List.length_cons, reply, after, hs']
        exact hresult
      · rw [List.length_cons, after, hs']
        exact hafter
      · exact hlast.imp (congrArg Nat.succ) id

/-! ## In place of one that failed -/

def orElse (op alt : Op σ ε α) : Op σ ε α := fun s =>
  match op s with
  | (.ok a, s') => (.ok a, s')
  | (.error _, s') => alt s'

/-- The operations in turn, until one succeeds. -/
def firstOk (op : Op σ ε α) : List (Op σ ε α) → Op σ ε α
  | [] => op
  | alt :: alts => orElse op (firstOk alt alts)

/-- The surroundings in which each operation is called when those before it fail. -/
def stateAt (op : Op σ ε α) (alts : List (Op σ ε α)) (s : σ) : Nat → σ
  | 0 => s
  | n + 1 =>
    match alts with
    | [] => s
    | alt :: alts => stateAt alt alts (op s).2 n

/-- The result is that of the first operation that succeeds, or of the last one; those before it
failed, each called where the one before it left things. -/
theorem firstOk_spec (op : Op σ ε α) (alts : List (Op σ ε α)) (s : σ) :
    ∃ k f, (op :: alts)[k]? = some f ∧ firstOk op alts s = f (stateAt op alts s k) ∧
      (∀ i < k, ∀ g, (op :: alts)[i]? = some g → ∃ e, (g (stateAt op alts s i)).1 = .error e) ∧
      (k = alts.length ∨ ∃ a, (firstOk op alts s).1 = .ok a) := by
  induction alts generalizing op s with
  | nil => exact ⟨0, op, rfl, rfl, fun i hi => absurd hi (Nat.not_lt_zero i), .inl rfl⟩
  | cons alt alts ih =>
    rw [firstOk, orElse]
    cases hop : op s with
    | mk r s' =>
      cases r with
      | ok a =>
        exact ⟨0, op, rfl, hop.symm, fun i hi => absurd hi (Nat.not_lt_zero i), .inr ⟨a, rfl⟩⟩
      | error e =>
        obtain ⟨k, f, hf, hresult, hbefore, hlast⟩ := ih alt s'
        refine ⟨k + 1, f, hf, ?_, fun i hi g hg => ?_, hlast.imp (congrArg Nat.succ) id⟩
        · rw [stateAt, hop]
          exact hresult
        · cases i with
          | zero =>
            obtain rfl := Option.some_inj.mp hg
            exact ⟨e, by rw [stateAt, hop]⟩
          | succ i =>
            rw [stateAt, hop]
            exact hbefore i (Nat.lt_of_succ_lt_succ hi) g hg

end Attempts
