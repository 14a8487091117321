/-!
# Lts.Runs

Runs of a deterministic system: a step function and the list of inputs it was fed, newest first.
Every suffix of that list is an earlier moment of the same run, so a fact about the past of a
run is a recursion over the list.

* `after step s is`     — the state reached from `s` by the inputs `is`.
* `Always step s G is`  — every input of the run met the guard `G` when it was taken.
* `run_inv` / `guarded_inv` — the induction over a run, once for all systems.
* `always_iff`          — an invariant, and what each step must respect for it.
* `lastAt step s P is`  — the run up to the latest moment at which `P` held.
* `recorded step out`   — the system that also keeps a record of what its steps handed out.
-/

namespace Lts

variable {σ ι : Type}

/-- The state after the inputs `is`, newest first. -/
def after (step : σ → ι → σ) (s : σ) : List ι → σ
  | [] => s
  | i :: is => step (after step s is) i

@[simp] theorem after_nil (step : σ → ι → σ) (s : σ) : after step s [] = s := rfl

@[simp] theorem after_cons (step : σ → ι → σ) (s : σ) (i : ι) (is : List ι) :
    after step s (i :: is) = step (after step s is) i := rfl

theorem after_append (step : σ → ι → σ) (s : σ) (is js : List ι) :
    after step s (is ++ js) = after step (after step s js) is := by
  induction is with
  | nil => rfl
  | cons i is ih => simp only [List.cons_append, after_cons, ih]

/-- The inputs in the order in which they were fed. -/
theorem after_reverse (step : σ → ι → σ) (s : σ) (is : List ι) :
    after step s is.reverse = is.foldl step s := by
  induction is generalizing s with
  | nil => rfl
  | cons i is ih =>
    rw [List.reverse_cons, after_append, List.foldl_cons, ← ih, after_cons, after_nil]

/-- Each input met the guard `G`, given the inputs before it and the state it found. -/
def Always (step : σ → ι → σ) (s : σ) (G : List ι → σ → ι → Prop) : List ι → Prop
  | [] => True
  | i :: is => Always step s G is ∧ G is (after step s is) i

instance decidableAlways (step : σ → ι → σ) (s : σ) (G : List ι → σ → ι → Prop)
    [∀ is t i, Decidable (G is t i)] : ∀ is, Decidable (Always step s G is)
  | [] => inferInstanceAs (Decidable True)
  | _ :: is =>
    have := decidableAlways step s G is
    inferInstanceAs (Decidable (_ ∧ _))

/-- An invariant of the past and the present that every guarded step keeps holds of every
guarded run. -/
theorem guarded_inv {step : σ → ι → σ} {s : σ} {G : List ι → σ → ι → Prop}
    {I : List ι → σ → Prop} (h0 : I [] s)
    (hs : ∀ is t i, I is t → G is t i → I (i :: is) (step t i)) :
    ∀ is, Always step s G is → I is (after step s is) := by
  intro is
  induction is with
  | nil => intro _; exact h0
  | cons i is ih =>
    rintro ⟨hr, hg⟩
    exact hs is _ i (ih hr) hg

theorem Always.mono {step : σ → ι → σ} {s : σ} {G G' : List ι → σ → ι → Prop}
    (h : ∀ is t i, G is t i → G' is t i) : ∀ {is}, Always step s G is → Always step s G' is := by
  intro is
  induction is with
  | nil => exact id
  | cons i is ih =>
    rintro ⟨hr, hg⟩
    exact ⟨ih hr, h _ _ _ hg⟩

/-- The states that are reached have `I` exactly when each step, from such a state, met the
condition under which it keeps `I`. -/
theorem always_iff {step : σ → ι → σ} {s : σ} {I : σ → Prop} {K : σ → ι → Prop} (h0 : I s)
    (h : ∀ t i, I t → (I (step t i) ↔ K t i)) (is : List ι) :
    Always step s (fun _ t i => I (step t i)) is ↔ Always step s (fun _ t i => K t i) is := by
  have hreached : ∀ is, Always step s (fun _ t i => I (step t i)) is → I (after step s is) := by
    intro is his
    cases is with
    | nil => exact h0
    | cons i is => exact his.2
  induction is with
  | nil => exact Iff.rfl
  | cons i is ih =>
    constructor
    · rintro ⟨his, hi⟩
      exact ⟨ih.mp his, (h _ i (hreached is his)).mp hi⟩
    · rintro ⟨his, hi⟩
      have his := ih.mpr his
      exact ⟨his, (h _ i (hreached is his)).mpr hi⟩

theorem run_inv {step : σ → ι → σ} {s : σ} {I : List ι → σ → Prop} (h0 : I [] s)
    (hs : ∀ is t i, I is t → I (i :: is) (step t i)) : ∀ is, I is (after step s is) := by
  intro is
  induction is with
  | nil => exact h0
  | cons i is ih => exact hs is _ i ih

/-- The inputs up to the latest moment at which `P` holds; none when it never does. -/
def lastAt (step : σ → ι → σ) (s : σ) (P : σ → Bool) : List ι → List ι
  | [] => []
  | i :: is => if P (after step s (i :: is)) then i :: is else lastAt step s P is

/-- What that moment has to do with the present: it is the present, or `P` fails since. -/
theorem lastAt_run {step : σ → ι → σ} {s : σ} {P : σ → Bool} {I : σ → Prop} {R : σ → σ → Prop}
    (hI : ∀ is, I (after step s is)) (hs : R s s) (hnow : ∀ t, I t → P t = true → R t t)
    (hlater : ∀ e t i, I t → R e t → P (step t i) = false → R e (step t i)) :
    ∀ is, R (after step s (lastAt step s P is)) (after step s is) := by
  intro is
  induction is with
  | nil => exact hs
  | cons i is ih =>
    rw [lastAt]
    split
    · rename_i h
      exact hnow _ (hI _) h
    · rename_i h
      exact hlater _ _ _ (hI is) ih (by simpa using h)

variable {ε : Type}

/-- The system that keeps, newest first, what each step handed out. -/
def recorded (step : σ → ι → σ) (out : σ → ι → List ε) : List ε × σ → ι → List ε × σ :=
  fun s i => (out s.2 i ++ s.1, step s.2 i)

/-- An invariant of the record and the state. -/
theorem recorded_inv {step : σ → ι → σ} {out : σ → ι → List ε} {s : σ}
    {I : List ε → σ → Prop} (h0 : I [] s)
    (hs : ∀ es t i, I es t → I (out t i ++ es) (step t i)) (is : List ι) :
    I (after (recorded step out) ([], s) is).1 (after (recorded step out) ([], s) is).2 :=
  run_inv (I := fun _ (x : List ε × σ) => I x.1 x.2) h0 (fun _ x i hI => hs x.1 x.2 i hI) is

theorem recorded_guarded {step : σ → ι → σ} {out : σ → ι → List ε} {s : σ}
    {G : List ι → List ε × σ → ι → Prop} {I : List ε → σ → Prop} (h0 : I [] s)
    (hs : ∀ is es t i, I es t → G is (es, t) i → I (out t i ++ es) (step t i)) (is : List ι)
    (hg : Always (recorded step out) ([], s) G is) :
    I (after (recorded step out) ([], s) is).1 (after (recorded step out) ([], s) is).2 :=
  guarded_inv (I := fun _ (x : List ε × σ) => I x.1 x.2) h0
    (fun is x i hI hG => hs is x.1 x.2 i hI hG) is hg

end Lts
