import Arags.Lib.Runs

/-!
# Threads

Calls that run one statement at a time on a shared state, in any order.

* `Program`  — where a call starts, and what a statement does; after it the call goes on or returns.
* `step`     — a caller starts a call, or runs the statement it is at.
* `history`  — the state of a run, with the record of what its statements did.
* `solo`     — the statements of one call with nothing between them; `history_solo`.
* `outline`  — a proof outline: an invariant of the shared state, and an assertion for each caller
  that its own statements establish and those of others keep.
-/

namespace Threads

structure Program (σ κ π χ ρ : Type) where
  start : κ → π
  /-- The argument of type `χ` is what the statement gets from outside: a clock, a failure. -/
  exec : σ → π → χ → σ × (π ⊕ ρ)

structure State (σ π : Type) where
  shared : σ
  /-- The statement each caller is at; `none` while it has no call in progress. -/
  calls : Nat → Option π

inductive Input (κ χ : Type) where
  | call (c : Nat) (k : κ)
  | run (c : Nat) (x : χ)

variable {σ κ π χ ρ ε : Type}

def Input.caller : Input κ χ → Nat
  | .call c _ => c
  | .run c _ => c

def State.idle (s : σ) : State σ π := ⟨s, fun _ => none⟩

def State.Quiet (s : State σ π) : Prop := ∀ c, s.calls c = none

def State.put (s : State σ π) (shared : σ) (c : Nat) (at_ : Option π) : State σ π :=
  ⟨shared, fun d => if d = c then at_ else s.calls d⟩

@[simp] theorem State.put_shared (s : State σ π) (shared : σ) (c : Nat) (at_ : Option π) :
    (s.put shared c at_).shared = shared := rfl

theorem State.put_calls (s : State σ π) (shared : σ) (c : Nat) (at_ : Option π) (d : Nat) :
    (s.put shared c at_).calls d = if d = c then at_ else s.calls d := rfl

variable (P : Program σ κ π χ ρ)

/-- A caller has one call at a time. -/
def step (s : State σ π) : Input κ χ → State σ π
  | .call c k => if (s.calls c).isNone then s.put s.shared c (some (P.start k)) else s
  | .run c x =>
    match s.calls c with
    | none => s
    | some p => s.put (P.exec s.shared p x).1 c (P.exec s.shared p x).2.getLeft?

variable (f : Nat → σ → π → χ → List ε)

/-- What the statement of a step records. -/
def recordOf (s : State σ π) : Input κ χ → List ε
  | .call _ _ => []
  | .run c x => ((s.calls c).map fun p => f c s.shared p x).getD []

/-- The record, newest first, and the state. -/
def history (s₀ : σ) (is : List (Input κ χ)) : List ε × State σ π :=
  Lts.after (Lts.recorded (step P) (recordOf f)) ([], .idle s₀) is

/-- The guard of the statement that a step runs, over the record so far and the shared state. -/
def Meets (G : List ε → σ → Nat → π → χ → Prop) (s : List ε × State σ π) : Input κ χ → Prop
  | .call _ _ => True
  | .run c x => ∀ p ∈ s.2.calls c, G s.1 s.2.shared c p x

instance decidableMeets (G : List ε → σ → Nat → π → χ → Prop)
    [∀ es s c p x, Decidable (G es s c p x)] (s : List ε × State σ π) :
    ∀ i : Input κ χ, Decidable (Meets G s i)
  | .call _ _ => inferInstanceAs (Decidable True)
  | .run c x => inferInstanceAs (Decidable (∀ p ∈ s.2.calls c, G s.1 s.2.shared c p x))

/-- Every statement of the run met the guard. -/
abbrev Guarded (G : List ε → σ → Nat → π → χ → Prop) (s₀ : σ) (is : List (Input κ χ)) : Prop :=
  Lts.Always (Lts.recorded (step P) (recordOf f)) ([], .idle s₀) (fun _ s i => Meets G s i) is

variable {P f}

theorem step_call_idle {s : State σ π} {c : Nat} (h : s.calls c = none) (k : κ) :
    step P s (.call c k) = s.put s.shared c (some (P.start k)) := by
  simp only [step, h, Option.isNone_none, if_true]

theorem step_call_busy {s : State σ π} {c : Nat} {p : π} (h : s.calls c = some p) (k : κ) :
    step P s (.call c k) = s := by
  simp only [step, h, Option.isNone_some, Bool.false_eq_true, if_false]

theorem step_run_idle {s : State σ π} {c : Nat} (h : s.calls c = none) (x : χ) :
    step P s (.run c x) = s := by
  simp only [step, h]

theorem step_run {s : State σ π} {c : Nat} {p : π} (h : s.calls c = some p) (x : χ) :
    step P s (.run c x) =
      s.put (P.exec s.shared p x).1 c (P.exec s.shared p x).2.getLeft? := by
  simp only [step, h]

theorem recordOf_idle {s : State σ π} {c : Nat} (h : s.calls c = none) (x : χ) :
    recordOf (κ := κ) f s (.run c x) = [] := by
  simp only [recordOf, h, Option.map_none, Option.getD_none]

theorem recordOf_run {s : State σ π} {c : Nat} {p : π} (h : s.calls c = some p) (x : χ) :
    recordOf (κ := κ) f s (.run c x) = f c s.shared p x := by
  simp only [recordOf, h, Option.map_some, Option.getD_some]

/-- The run of a program whose statements, under the guard, keep the invariant, establish the
assertion of their caller and keep those of the others. -/
theorem outline {G : List ε → σ → Nat → π → χ → Prop} {I : List ε → σ → Prop}
    {A : List ε → σ → Nat → Option π → Prop} {s₀ : σ} (h0 : I [] s₀) (hidle : ∀ c, A [] s₀ c none)
    (hstart : ∀ es s c k, I es s → A es s c none → A es s c (some (P.start k)))
    (hinv : ∀ es s c p x, I es s → A es s c (some p) → G es s c p x →
      I (f c s p x ++ es) (P.exec s p x).1)
    (hown : ∀ es s c p x, I es s → A es s c (some p) → G es s c p x →
      A (f c s p x ++ es) (P.exec s p x).1 c (P.exec s p x).2.getLeft?)
    (hothers : ∀ es s c p x d q, I es s → A es s c (some p) → G es s c p x → d ≠ c →
      A es s d q → A (f c s p x ++ es) (P.exec s p x).1 d q)
    {is : List (Input κ χ)} (hg : Guarded P f G s₀ is) :
    I (history P f s₀ is).1 (history P f s₀ is).2.shared ∧
      ∀ c, A (history P f s₀ is).1 (history P f s₀ is).2.shared c
        ((history P f s₀ is).2.calls c) := by
  refine Lts.recorded_guarded (I := fun es (s : State σ π) =>
    I es s.shared ∧ ∀ c, A es s.shared c (s.calls c)) ⟨h0, hidle⟩ ?_ is hg
  intro _ es s i hI hG
  obtain ⟨hshared, hcalls⟩ := hI
  cases i with
  | call c k =>
    cases hc : s.calls c with
    | some p =>
      rw [step_call_busy hc]
      exact ⟨hshared, hcalls⟩
    | none =>
      rw [step_call_idle hc]
      refine ⟨hshared, fun d => ?_⟩
      rw [State.put_calls]
      split
      · rename_i hd
        subst hd
        exact hstart es s.shared d k hshared (hc ▸ hcalls d)
      · exact hcalls d
  | run c x =>
    cases hc : s.calls c with
    | none =>
      rw [step_run_idle hc, recordOf_idle hc]
      exact ⟨hshared, hcalls⟩
    | some p =>
      have hA : A es s.shared c (some p) := hc ▸ hcalls c
      have hstmt : G es s.shared c p x := hG p hc
      rw [step_run hc, recordOf_run hc]
      refine ⟨hinv es s.shared c p x hshared hA hstmt, fun d => ?_⟩
      rw [State.put_calls]
      split
      · rename_i hd
        subst hd
        exact hown es s.shared d p x hshared hA hstmt
      · rename_i hd
        exact hothers es s.shared c p x d (s.calls d) hshared hA hstmt hd (hcalls d)

/-- Where no caller has anything to assert. -/
theorem outline_shared {G : List ε → σ → Nat → π → χ → Prop} {I : List ε → σ → Prop} {s₀ : σ}
    (h0 : I [] s₀)
    (hinv : ∀ es s c p x, I es s → G es s c p x → I (f c s p x ++ es) (P.exec s p x).1)
    {is : List (Input κ χ)} (hg : Guarded P f G s₀ is) :
    I (history P f s₀ is).1 (history P f s₀ is).2.shared :=
  (outline (A := fun _ _ _ _ => True) h0 (fun _ => trivial) (fun _ _ _ _ _ _ => trivial)
    (fun es s c p x hI _ hG => hinv es s c p x hI hG) (fun _ _ _ _ _ _ _ _ => trivial)
    (fun _ _ _ _ _ _ _ _ _ _ _ _ => trivial) hg).1

/-- What every statement keeps, over a further part of a run. -/
theorem history_mono {R : σ → σ → Prop} (hrefl : ∀ s, R s s)
    (htrans : ∀ {s t u}, R s t → R t u → R s u) (hexec : ∀ s p x, R s (P.exec s p x).1) (s₀ : σ)
    (is later : List (Input κ χ)) :
    R (history P f s₀ is).2.shared (history P f s₀ (later ++ is)).2.shared := by
  induction later with
  | nil => exact hrefl _
  | cons i later ih =>
    refine htrans ih ?_
    change R _ (step P (history P f s₀ (later ++ is)).2 i).shared
    generalize (history P f s₀ (later ++ is)).2 = s
    cases i with
    | call c k =>
      cases hc : s.calls c with
      | some p => rw [step_call_busy hc]; exact hrefl _
      | none => rw [step_call_idle hc]; exact hrefl _
    | run c x =>
      cases hc : s.calls c with
      | none => rw [step_run_idle hc]; exact hrefl _
      | some p => rw [step_run hc]; exact hexec _ p x

/-- A caller that is in no input has no call. -/
theorem history_calls {s₀ : σ} {is : List (Input κ χ)} {c : Nat} (h : ∀ i ∈ is, i.caller ≠ c) :
    (history P f s₀ is).2.calls c = none := by
  induction is with
  | nil => rfl
  | cons i is ih =>
    have hbefore := ih fun j hj => h j (List.mem_cons_of_mem _ hj)
    have hne := h i (by simp)
    change (step P (history P f s₀ is).2 i).calls c = none
    generalize (history P f s₀ is).2 = s at hbefore
    cases i with
    | call d k =>
      have hcd : c ≠ d := fun hcd => hne hcd.symm
      cases hd : s.calls d with
      | some p => rw [step_call_busy hd, hbefore]
      | none => rw [step_call_idle hd, State.put_calls, if_neg hcd, hbefore]
    | run d x =>
      have hcd : c ≠ d := fun hcd => hne hcd.symm
      cases hd : s.calls d with
      | none => rw [step_run_idle hd, hbefore]
      | some p => rw [step_run hd, State.put_calls, if_neg hcd, hbefore]

theorem quiet_of_callers {s₀ : σ} {is : List (Input κ χ)} (n : Nat) (h : ∀ i ∈ is, i.caller < n)
    (hn : ∀ c < n, (history P f s₀ is).2.calls c = none) : (history P f s₀ is).2.Quiet := by
  intro c
  by_cases hc : c < n
  · exact hn c hc
  · refine history_calls fun i hi hcaller => hc ?_
    exact hcaller ▸ h i hi

/-! ## A call that nothing comes between -/

/-- The statements of one call in a row. -/
def solo (P : Program σ κ π χ ρ) : List χ → σ → π → σ
  | [], s, _ => s
  | x :: xs, s, p =>
    match P.exec s p x with
    | (s', .inl q) => solo P xs s' q
    | (s', .inr _) => s'

theorem history_step (s₀ : σ) (i : Input κ χ) (is : List (Input κ χ)) :
    (history P f s₀ (i :: is)).2 = step P (history P f s₀ is).2 i := rfl

theorem history_idle {s₀ : σ} {is : List (Input κ χ)} {c : Nat}
    (h : (history P f s₀ is).2.calls c = none) (xs : List χ) :
    (history P f s₀ ((xs.map (.run c)).reverse ++ is)).2 = (history P f s₀ is).2 := by
  induction xs generalizing is with
  | nil => rfl
  | cons x xs ih =>
    rw [List.map_cons, List.reverse_cons, List.append_assoc, List.singleton_append]
    have hstep : (history P f s₀ (.run c x :: is)).2 = (history P f s₀ is).2 := by
      rw [history_step, step_run_idle h]
    rw [ih (hstep ▸ h), hstep]

theorem history_solo {s₀ : σ} {is : List (Input κ χ)} {c : Nat} {p : π}
    (h : (history P f s₀ is).2.calls c = some p) (xs : List χ) :
    (history P f s₀ ((xs.map (.run c)).reverse ++ is)).2.shared =
      solo P xs (history P f s₀ is).2.shared p := by
  induction xs generalizing is p with
  | nil => rfl
  | cons x xs ih =>
    rw [List.map_cons, List.reverse_cons, List.append_assoc, List.singleton_append, solo]
    have hstep := history_step (f := f) (P := P) s₀ (.run c x) is
    rw [step_run h] at hstep
    cases hexec : P.exec (history P f s₀ is).2.shared p x with
    | mk s' next =>
      rw [hexec] at hstep
      cases next with
      | inl q =>
        have hnext : (history P f s₀ (.run c x :: is)).2.calls c = some q := by
          rw [hstep, State.put_calls, if_pos rfl]
          rfl
        rw [ih hnext, hstep]
        rfl
      | inr r =>
        have hnext : (history P f s₀ (.run c x :: is)).2.calls c = none := by
          rw [hstep, State.put_calls, if_pos rfl]
          rfl
        rw [history_idle hnext, hstep]
        rfl

end Threads
