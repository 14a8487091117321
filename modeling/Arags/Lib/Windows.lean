import Mathlib.Data.List.Pairwise

/-!
# Windows

A counter over windows of a fixed length. A window opens at the first call after the last one has
ended, and a call is allowed while its window has counted less than `m`.

* `replies w m o nows` — the calls at the times `nows`, in order, with the window `o` open.
* `hit_new`, `hit_open` — one call, where it opens a window and where it does not.
* `allowed_le`     — while no window opens, at most `m` calls are allowed.
* `interval_le`    — in an interval of the length of a window, at most `2 * m`.
* `denied_recent`  — before a denied call, `m` calls of its last `w` units were allowed.
* `replies_thins` — denied calls may as well not be made.
-/

namespace Windows

structure Window where
  start : Nat
  count : Nat

/-- A call: whether it ended an older window, and whether it was allowed. -/
structure Reply where
  now : Nat
  reset : Bool
  allowed : Bool
  deriving DecidableEq, Repr

section Counter

variable (w m : Nat)

/-- The window of an earlier call has ended. -/
def hasEnded (now : Nat) (o : Option Window) : Bool :=
  match o with
  | none => false
  | some v => decide (w ≤ now - v.start)

/-- The window of a call. -/
def windowAt (now : Nat) (o : Option Window) : Window :=
  match o with
  | none => ⟨now, 0⟩
  | some v => if w ≤ now - v.start then ⟨now, 0⟩ else v

def hit (now : Nat) (o : Option Window) : Reply × Window :=
  let v := windowAt w now o
  if v.count < m then (⟨now, hasEnded w now o, true⟩, { v with count := v.count + 1 })
  else (⟨now, hasEnded w now o, false⟩, v)

def replies : Option Window → List Nat → List Reply
  | _, [] => []
  | o, now :: nows => (hit w m now o).1 :: replies (some (hit w m now o).2) nows

end Counter

/-- Answers alone. -/
def answers (rs : List Reply) : List (Nat × Bool) := rs.map fun r => (r.now, r.allowed)

/-- Allowed and not before `t`, and before `t + w`. -/
def inInterval (w t : Nat) (r : Reply) : Bool :=
  r.allowed && (decide (t ≤ r.now) && decide (r.now < t + w))

/-- The second list is the first without some of the denied calls. -/
inductive Thins : List Reply → List Reply → Prop
  | nil : Thins [] []
  | keep (r : Reply) {rs kept : List Reply} : Thins rs kept → Thins (r :: rs) (r :: kept)
  | drop {r : Reply} {rs kept : List Reply} : r.allowed = false → Thins rs kept →
      Thins (r :: rs) kept

variable {w m now t : Nat} {nows : List Nat} {o : Option Window} {v : Window}

/-! ## One call -/

@[simp] theorem hit_now : (hit w m now o).1.now = now := by
  rw [hit]
  split <;> rfl

@[simp] theorem hit_reset : (hit w m now o).1.reset = hasEnded w now o := by
  rw [hit]
  split <;> rfl

/-- What a call counts for. -/
def weight (r : Reply) : Nat := if r.allowed then 1 else 0

theorem hit_eta : (hit w m now o).1 = ⟨now, hasEnded w now o, (hit w m now o).1.allowed⟩ := by
  rw [hit]
  split <;> rfl

theorem hit_start : (hit w m now o).2.start = (windowAt w now o).start := by
  rw [hit]
  split <;> rfl

theorem hit_count :
    (hit w m now o).2.count = (windowAt w now o).count + weight (hit w m now o).1 := by
  rw [hit]
  split <;> rfl

theorem hit_allowed : (hit w m now o).1.allowed = decide ((windowAt w now o).count < m) := by
  rw [hit]
  split
  next h => simp [h]
  next h => simp [h]

/-- A window is open: it started before and has not ended. -/
def Open (w now : Nat) (o : Option Window) : Prop := ∃ v, o = some v ∧ now - v.start < w

theorem windowAt_open (h : now - v.start < w) : windowAt w now (some v) = v :=
  if_neg (Nat.not_le_of_lt h)

theorem windowAt_new (h : ¬ Open w now o) : windowAt w now o = ⟨now, 0⟩ := by
  cases o with
  | none => rfl
  | some v => exact if_pos (Nat.le_of_not_lt fun hlt => h ⟨v, rfl, hlt⟩)

/-- A denied call that has a window changes nothing; without one, all calls are denied. -/
theorem hit_denied (h : (hit w m now o).1.allowed = false) :
    m = 0 ∨ ∃ v, o = some v ∧ now - v.start < w ∧ m ≤ v.count ∧ (hit w m now o).2 = v := by
  rw [hit_allowed, decide_eq_false_iff_not, Nat.not_lt] at h
  by_cases hopen : Open w now o
  · obtain ⟨v, rfl, hlt⟩ := hopen
    rw [windowAt_open hlt] at h
    refine .inr ⟨v, rfl, hlt, h, ?_⟩
    rw [hit, windowAt_open hlt]
    exact congrArg Prod.snd (if_neg (Nat.not_lt_of_le h))
  · rw [windowAt_new hopen] at h
    exact .inl (Nat.le_zero.mp h)

/-! ## Runs -/

theorem replies_now (o : Option Window) (nows : List Nat) :
    (replies w m o nows).map Reply.now = nows := by
  induction nows generalizing o with
  | nil => rfl
  | cons now nows ih => rw [replies, List.map_cons, hit_now, ih]

/-- The calls to come are not before the open window, which has allowed at most `m`. -/
def Ready (m : Nat) (o : Option Window) (nows : List Nat) : Prop :=
  ∀ v, o = some v → v.count ≤ m ∧ ∀ t ∈ nows, v.start ≤ t

theorem ready_none (nows : List Nat) : Ready m none nows := nofun

theorem Ready.windowAt (h : Ready m o (now :: nows)) :
    (windowAt w now o).count ≤ m ∧ (windowAt w now o).start ≤ now := by
  by_cases hopen : Open w now o
  · obtain ⟨v, rfl, hlt⟩ := hopen
    obtain ⟨hcount, hstart⟩ := h v rfl
    rw [windowAt_open hlt]
    exact ⟨hcount, hstart now List.mem_cons_self⟩
  · rw [windowAt_new hopen]
    exact ⟨Nat.zero_le m, Nat.le_refl now⟩

theorem Ready.next (h : Ready m o (now :: nows)) (hs : (now :: nows).Pairwise (· ≤ ·)) :
    Ready m (some (hit w m now o).2) nows := by
  rintro _ ⟨⟩
  obtain ⟨hcount, hstart⟩ := h.windowAt (w := w)
  constructor
  · rw [hit_count, weight, hit_allowed]
    split
    next hlt => exact of_decide_eq_true hlt
    next => exact hcount
  · intro t ht
    rw [hit_start]
    exact Nat.le_trans hstart ((List.pairwise_cons.mp hs).1 t ht)

/-- What the open window has allowed. -/
def held (o : Option Window) : Nat :=
  match o with
  | none => 0
  | some v => v.count

theorem windowAt_held (h : hasEnded w now o = false) : (windowAt w now o).count = held o := by
  cases o with
  | none => rfl
  | some v =>
    have hlt : now - v.start < w := Nat.lt_of_not_le (of_decide_eq_false h)
    rw [windowAt_open hlt]
    rfl

/-- While no window opens, at most `m` calls are allowed. -/
theorem allowed_le (hs : nows.Pairwise (· ≤ ·)) (h : Ready m o nows)
    (hreset : ∀ r ∈ replies w m o nows, r.reset = false) :
    held o + (replies w m o nows).countP Reply.allowed ≤ m := by
  induction nows generalizing o with
  | nil =>
    cases o with
    | none => exact Nat.zero_le m
    | some v => exact (h v rfl).1
  | cons now nows ih =>
    obtain ⟨hhead, htail⟩ := List.forall_mem_cons.mp hreset
    rw [hit_reset] at hhead
    have hcount := ih (List.pairwise_cons.mp hs).2 (h.next hs) htail
    rw [held, hit_count, windowAt_held hhead, weight] at hcount
    rw [replies, List.countP_cons]
    omega

/-- A part of a run is one from the window that the calls before it leave. -/
theorem replies_append {rs qs : List Reply} (hs : nows.Pairwise (· ≤ ·)) (h : Ready m o nows)
    (heq : replies w m o nows = rs ++ qs) :
    ∃ before after o', nows = before ++ after ∧ replies w m o before = rs ∧
      replies w m o' after = qs ∧ Ready m o' after := by
  induction nows generalizing o rs with
  | nil =>
    obtain ⟨rfl, rfl⟩ := List.append_eq_nil_iff.mp heq.symm
    exact ⟨[], [], o, rfl, rfl, rfl, h⟩
  | cons now nows ih =>
    cases rs with
    | nil => exact ⟨[], now :: nows, o, rfl, rfl, heq, h⟩
    | cons r rs =>
      obtain ⟨rfl, htail⟩ := List.cons.inj heq
      obtain ⟨before, after, o', rfl, rfl, hafter, hready⟩ :=
        ih (List.pairwise_cons.mp hs).2 (h.next hs) htail
      exact ⟨now :: before, after, o', rfl, rfl, hafter, hready⟩

/-- From any call on, until a window ends, at most `m` calls are allowed. -/
theorem stretch_le {pre mid post : List Reply} (hs : nows.Pairwise (· ≤ ·))
    (h : Ready m o nows) (heq : replies w m o nows = pre ++ (mid ++ post))
    (hreset : ∀ b ∈ mid.tail, b.reset = false) : mid.countP Reply.allowed ≤ m := by
  obtain ⟨before, rest, o', rfl, -, hrest, hready⟩ := replies_append hs h heq
  have hs' := (List.pairwise_append.mp hs).2.1
  cases mid with
  | nil => exact Nat.zero_le m
  | cons r mid =>
    cases rest with
    | nil => cases hrest
    | cons now rest =>
      obtain ⟨rfl, htail⟩ := List.cons.inj hrest
      have hnext : Ready m (some (hit w m now o').2) rest := hready.next hs'
      obtain ⟨nows', after, -, rfl, rfl, -, -⟩ :=
        replies_append (List.pairwise_cons.mp hs').2 hnext htail
      have hs'' := (List.pairwise_append.mp (List.pairwise_cons.mp hs').2).1
      have hcount := allowed_le hs'' (fun v hv => ⟨(hnext v hv).1, fun t ht =>
        (hnext v hv).2 t (List.mem_append_left _ ht)⟩) hreset
      rw [held, hit_count, weight] at hcount
      rw [List.countP_cons]
      omega

/-! ## Intervals -/

theorem inInterval_weight (r : Reply) : (if inInterval w t r then 1 else 0) ≤ weight r := by
  rw [weight, inInterval]
  cases r.allowed with
  | true => split <;> simp
  | false => simp

/-- No call is in an interval that is over. -/
theorem interval_over (h : ∀ x ∈ nows, t + w ≤ x) :
    (replies w m o nows).countP (inInterval w t) = 0 := by
  rw [List.countP_eq_zero]
  intro r hr hin
  have hnow : r.now ∈ nows := by
    rw [← replies_now (w := w) (m := m) o nows]
    exact List.mem_map_of_mem hr
  simp only [inInterval, Bool.and_eq_true, decide_eq_true_eq] at hin
  exact absurd (h r.now hnow) (by omega)

/-- Of a window that started in the interval no later window is in it. -/
theorem interval_last (hs : nows.Pairwise (· ≤ ·)) (h : Ready m (some v) nows)
    (ht : t ≤ v.start) :
    v.count + (replies w m (some v) nows).countP (inInterval w t) ≤ m := by
  induction nows generalizing v with
  | nil => exact (h v rfl).1
  | cons now nows ih =>
    by_cases hlt : now - v.start < w
    · have hstart : t ≤ (hit w m now (some v)).2.start := by
        rw [hit_start, windowAt_open hlt]
        exact ht
      have hcount := ih (List.pairwise_cons.mp hs).2 (h.next hs) hstart
      have hhead : (if inInterval w t (hit w m now (some v)).1 then 1 else 0) ≤
          weight (hit w m now (some v)).1 := inInterval_weight _
      rw [hit_count, windowAt_open hlt] at hcount
      rw [replies, List.countP_cons]
      omega
    · have hstart := (h v rfl).2 now List.mem_cons_self
      rw [interval_over]
      · exact (h v rfl).1
      · intro x hx
        have hx : now ≤ x := by
          rcases List.mem_cons.mp hx with rfl | hx
          · exact Nat.le_refl _
          · exact (List.pairwise_cons.mp hs).1 x hx
        omega

theorem held_le (h : Ready m o nows) : held o ≤ m := by
  cases o with
  | none => exact Nat.zero_le m
  | some v => exact (h v rfl).1

/-- `k` calls that the open window allowed are in the interval. -/
theorem interval_le {k : Nat} (hs : nows.Pairwise (· ≤ ·)) (h : Ready m o nows)
    (hk : k ≤ held o) (hafter : 0 < k → ∀ x ∈ nows, t ≤ x) :
    k + (replies w m o nows).countP (inInterval w t) ≤ 2 * m := by
  induction nows generalizing o k with
  | nil =>
    have hheld := held_le h
    rw [replies, List.countP_nil]
    omega
  | cons now nows ih =>
    obtain ⟨hfirst, hs'⟩ := List.pairwise_cons.mp hs
    have hnext : Ready m (some (hit w m now o).2) nows := h.next hs
    have hweight : (if inInterval w t (hit w m now o).1 then 1 else 0) ≤
        weight (hit w m now o).1 := inInterval_weight _
    rw [replies, List.countP_cons]
    by_cases hopen : Open w now o
    · obtain ⟨v, rfl, hlt⟩ := hopen
      have hheld : held (some (hit w m now (some v)).2) =
          v.count + weight (hit w m now (some v)).1 := by
        rw [held, hit_count, windowAt_open hlt]
      rw [held] at hk
      by_cases hin : inInterval w t (hit w m now (some v)).1
      · rw [if_pos hin] at hweight ⊢
        have ht : t ≤ now := by
          simp only [inInterval, hit_now, Bool.and_eq_true, decide_eq_true_eq] at hin
          exact hin.2.1
        have hrest := ih (k := k + 1) hs' hnext (by omega)
          fun _ x hx => Nat.le_trans ht (hfirst x hx)
        omega
      · rw [if_neg hin]
        exact ih hs' hnext (by omega) fun hpos x hx => hafter hpos x (List.mem_cons_of_mem _ hx)
    · have hheld := held_le h
      have hstart : (hit w m now o).2.start = now := by rw [hit_start, windowAt_new hopen]
      have hcount : (hit w m now o).2.count = weight (hit w m now o).1 := by
        rw [hit_count, windowAt_new hopen, Nat.zero_add]
      by_cases ht : t ≤ now
      · -- the window that opens here is the last one of the interval
        have hlast := interval_last (w := w) hs' hnext (hstart ▸ ht)
        omega
      · have hout : inInterval w t (hit w m now o).1 = false := by simp [inInterval, ht]
        have hzero : k = 0 := by
          by_contra hpos
          exact ht (hafter (Nat.pos_of_ne_zero hpos) now List.mem_cons_self)
        rw [hout, hzero]
        exact ih hs' hnext (Nat.zero_le _) fun hpos => absurd hpos (Nat.lt_irrefl 0)

/-! ## Denied calls -/

/-- Allowed, and less than `w` before `now`. -/
def recent (w now : Nat) (r : Reply) : Bool := r.allowed && decide (now < r.now + w)

/-- What the open window has allowed, if it has not ended. -/
def recentHeld (w now : Nat) (o : Option Window) : Nat :=
  match o with
  | none => 0
  | some v => if now < v.start + w then v.count else 0

theorem recentHeld_le (h : Ready m o (now :: nows)) (later : Nat) :
    recentHeld w later (some (hit w m now o).2) ≤
      (if recent w later (hit w m now o).1 then 1 else 0) + recentHeld w later o := by
  rw [recentHeld]
  split
  next hlt =>
    rw [hit_start] at hlt
    have hstart : (windowAt w now o).start ≤ now := h.windowAt.2
    have hrecent : recent w later (hit w m now o).1 = (hit w m now o).1.allowed := by
      rw [recent, hit_now, decide_eq_true (by omega), Bool.and_true]
    have hcount : (windowAt w now o).count ≤ recentHeld w later o := by
      by_cases hopen : Open w now o
      · obtain ⟨v, rfl, hv⟩ := hopen
        rw [windowAt_open hv] at hlt ⊢
        exact Nat.le_of_eq (if_pos hlt).symm
      · rw [windowAt_new hopen]
        exact Nat.zero_le _
    rw [hit_count, hrecent, weight]
    omega
  next => exact Nat.zero_le _

/-- A call is denied only where `m` calls of its last `w` units were allowed. -/
theorem denied_recent {pre post : List Reply} {r : Reply} (hs : nows.Pairwise (· ≤ ·))
    (h : Ready m o nows) (heq : replies w m o nows = pre ++ r :: post)
    (hr : r.allowed = false) :
    m ≤ pre.countP (recent w r.now) + recentHeld w r.now o := by
  induction nows generalizing o pre with
  | nil => exact absurd heq.symm (by simp [replies])
  | cons now nows ih =>
    rw [replies] at heq
    cases pre with
    | nil =>
      obtain ⟨rfl, -⟩ := List.cons.inj heq
      rcases hit_denied hr with rfl | ⟨v, rfl, hlt, hle, -⟩
      · exact Nat.zero_le _
      · rw [hit_now, recentHeld, if_pos (by omega)]
        exact Nat.le_trans hle (Nat.le_add_left _ _)
    | cons x pre =>
      obtain ⟨rfl, htail⟩ := List.cons.inj heq
      have hrest := ih (List.pairwise_cons.mp hs).2 (h.next hs) htail
      have hhead : recentHeld w r.now (some (hit w m now o).2) ≤ _ := recentHeld_le h r.now
      rw [List.countP_cons]
      omega

/-- Denied calls may as well not be made; where all are denied, the window does not matter. -/
theorem replies_thins {o' : Option Window} {kept : List Reply}
    (h : Thins (replies w m o nows) kept) (ho : m = 0 ∨ o = o') :
    answers (replies w m o' (kept.map Reply.now)) = answers kept := by
  induction nows generalizing o o' kept with
  | nil =>
    cases h
    rfl
  | cons now nows ih =>
    rw [replies] at h
    cases h with
    | keep _ h =>
      have hhead : (hit w m now o').1.allowed = (hit w m now o).1.allowed := by
        rcases ho with rfl | rfl
        · rw [hit_allowed, hit_allowed]
          simp
        · rfl
      have hnext : m = 0 ∨ some (hit w m now o).2 = some (hit w m now o').2 :=
        ho.imp_right fun heq => by rw [heq]
      have htail := ih h hnext
      simp only [answers, List.map_cons, hit_now, replies, List.cons.injEq, hhead, true_and]
      exact htail
    | drop hdenied h =>
      apply ih h
      rcases hit_denied hdenied with rfl | ⟨v, rfl, -, -, hv⟩
      · exact .inl rfl
      · rw [hv]
        exact ho

end Windows
