import Arags.Rlm.LeaseSafety

/-!
# Arags.Rlm.Statements

`complete_rlm_job` sends its `SELECT` and its `UPDATE` as two autocommitted statements; the other
operations here are one statement or one transaction each. A step is one statement, on any
connection.

* `Probe`       — a completion that passed its check and has not written yet.
* `Undisturbed` — no statement rewrites a row between the two statements of a completion, and the
  second one comes within the lease.
* `finish_still_claimed` — in such runs each row is marked done while its worker still owns it.
* `probe_finish` — the two statements back to back are `completeRlmJob`.
-/

namespace Arags

open Sql

structure Probe where
  conn : Nat
  jobId : Int
  worker : String
  generation : Int
  now : Int
  lease : Int
  deriving DecidableEq, Repr

structure StatementState where
  db : RlmDb
  inFlight : List Probe

inductive Statement where
  /-- `SELECT … WHERE id = ?1 AND status = 'claimed'`, then the check of its row. -/
  | probe (conn : Nat) (jobId : Int) (worker : String) (generation now : Int)
  /-- `UPDATE … SET status = 'done' … WHERE id = ?2`, executed at time `clock`. -/
  | finish (conn : Nat) (clock : Int)
  | claim (scan : ScanOrder RlmJob) (volunteer : String) (leaseMs : Int)
      (maxLevel : Option Int) (strikesLimit : Nat) (now : Int)
  | cancel (project : String) (subject : Int × String) (now : Int)
  | requeue (now : Int)
  | completeWithNode (scan : ScanOrder RlmNode) (jobId : Int) (worker : String)
      (generation : Int) (input : NewRlmNode) (freshNodeId : String) (now now' : Int)

/-- The completion of a connection that is between its two statements. -/
def probeOf (s : StatementState) (conn : Nat) : Option Probe := s.inFlight.find? (·.conn == conn)

def stepStatement (s : StatementState) : Statement → StatementState
  | .probe conn jobId worker gen now =>
    match probeOf s conn, probeClaimed s.db.rlmJobs jobId with
    | none, some r =>
      if completionValid r worker gen now then
        { s with inFlight :=
            ⟨conn, jobId, worker, gen, now, r.leaseExpiresAt.getD 0⟩ :: s.inFlight }
      else s
    | _, _ => s
  | .finish conn _ =>
    match probeOf s conn with
    | some p =>
      { db := { s.db with rlmJobs := markDone s.db.rlmJobs p.jobId p.now }
        inFlight := s.inFlight.filter (·.conn != conn) }
    | none => s
  | .claim scan v leaseMs maxLevel limit now =>
    { s with db := (claimRlmJob scan s.db v leaseMs maxLevel limit now).1 }
  | .cancel project subject now => { s with db := cancelSubject s.db project subject now }
  | .requeue now => { s with db := requeueExpiredRlmLeases s.db now }
  | .completeWithNode scan jobId worker gen input nodeId now now' =>
    { s with db := (completeRlmJobWithNode scan s.db jobId worker gen input nodeId now now').1 }

/-- A row at the moment a completion marks it done. -/
structure Finish where
  row : Option RlmJob
  worker : String
  generation : Int
  clock : Int
  deriving DecidableEq, Repr

/-- The row is claimed by that worker at that generation, with an unexpired lease. -/
def Finish.stillClaimed (f : Finish) : Bool :=
  f.row.any fun r => r.status == .claimed && completionValid r f.worker f.generation f.clock

def finishes (s : StatementState) : Statement → List Finish
  | .finish conn clock =>
    match probeOf s conn with
    | some p => [⟨s.db.rlmJobs.get? p.jobId, p.worker, p.generation, clock⟩]
    | none => []
  | .completeWithNode scan jobId worker gen input nodeId now now' =>
    match (completeRlmJobWithNode scan s.db jobId worker gen input nodeId now now').2 with
    | .ok (some _) => [⟨s.db.rlmJobs.get? jobId, worker, gen, now'⟩]
    | _ => []
  | _ => []

/-- The statement leaves alone the rows of the completions in flight on other connections, and a
row it marks done is marked within its lease. -/
def Undisturbed (s : StatementState) : Statement → Prop
  | .finish conn clock => ∀ p ∈ s.inFlight, p.conn = conn →
      clock ≤ p.lease ∧ ∀ q ∈ s.inFlight, q.jobId = p.jobId → q.conn = conn
  | .cancel project subject _ => ∀ p ∈ s.inFlight, ∀ r ∈ s.db.rlmJobs.get? p.jobId,
      (r.isAbout project subject.1 subject.2 && r.live) = false
  | .requeue now => ∀ p ∈ s.inFlight, ∀ r ∈ s.db.rlmJobs.get? p.jobId, r.leaseExpired now = false
  | .completeWithNode _ jobId worker gen _ _ now now' =>
    ∀ r ∈ probeClaimed s.db.rlmJobs jobId, completionValid r worker gen now = true →
      (∀ p ∈ s.inFlight, p.jobId ≠ jobId) ∧ ∀ l ∈ r.leaseExpiresAt, now' ≤ l
  | .probe .. => True
  | .claim .. => True

instance decidableUndisturbed (s : StatementState) : ∀ t, Decidable (Undisturbed s t)
  | .finish conn clock => inferInstanceAs (Decidable (∀ p ∈ s.inFlight, p.conn = conn →
      clock ≤ p.lease ∧ ∀ q ∈ s.inFlight, q.jobId = p.jobId → q.conn = conn))
  | .cancel project subject _ => inferInstanceAs (Decidable (∀ p ∈ s.inFlight,
      ∀ r ∈ s.db.rlmJobs.get? p.jobId, (r.isAbout project subject.1 subject.2 && r.live) = false))
  | .requeue now => inferInstanceAs (Decidable (∀ p ∈ s.inFlight,
      ∀ r ∈ s.db.rlmJobs.get? p.jobId, r.leaseExpired now = false))
  | .completeWithNode _ jobId worker gen _ _ now now' => inferInstanceAs (Decidable (
      ∀ r ∈ probeClaimed s.db.rlmJobs jobId, completionValid r worker gen now = true →
        (∀ p ∈ s.inFlight, p.jobId ≠ jobId) ∧ ∀ l ∈ r.leaseExpiresAt, now' ≤ l))
  | .probe .. => inferInstanceAs (Decidable True)
  | .claim .. => inferInstanceAs (Decidable True)

/-- A completion in flight still owns its row. -/
def Owns (t : Table RlmJob) (p : Probe) : Prop :=
  ∃ r, (p.jobId, r) ∈ t.rows ∧ r.status = .claimed ∧ r.claimedBy = some p.worker ∧
    r.generation = p.generation ∧ r.leaseExpiresAt = some p.lease

theorem Owns.of_update {t : Table RlmJob} {p : Probe} {w : Int → RlmJob → Bool}
    {f : Int → RlmJob → RlmJob} (h : Owns t p)
    (hw : ∀ r, (p.jobId, r) ∈ t.rows → r.status = .claimed → w p.jobId r = false) :
    Owns (t.update w f) p := by
  obtain ⟨r, hr, hs, hv, hg, hl⟩ := h
  refine ⟨r, Table.mem_update.mpr ⟨r, hr, ?_⟩, hs, hv, hg, hl⟩
  rw [hw r hr hs, if_neg Bool.false_ne_true]

theorem Owns.valid {t : Table RlmJob} {p : Probe} {clock : Int} (h : Owns t p)
    (hc : clock ≤ p.lease) :
    (Finish.mk (t.get? p.jobId) p.worker p.generation clock).stillClaimed = true := by
  obtain ⟨r, hr, hs, hv, hg, hl⟩ := h
  simp only [Finish.stillClaimed, Table.get?_eq_some.mpr hr, Option.any_some, Bool.and_eq_true,
    beq_iff_eq]
  exact ⟨hs, completionValid_iff.mpr ⟨hv, hg, _, hl, hc⟩⟩

theorem probeOf_mem {s : StatementState} {conn : Nat} {p : Probe}
    (h : probeOf s conn = some p) : p ∈ s.inFlight ∧ p.conn = conn :=
  ⟨List.mem_of_find?_eq_some h, by simpa using List.find?_some h⟩

theorem probe_cases (s : StatementState) (conn : Nat) (jobId : Int) (worker : String)
    (gen now : Int) :
    stepStatement s (.probe conn jobId worker gen now) = s ∨
    ∃ r, probeClaimed s.db.rlmJobs jobId = some r ∧ completionValid r worker gen now = true ∧
      stepStatement s (.probe conn jobId worker gen now) = { s with inFlight :=
        ⟨conn, jobId, worker, gen, now, r.leaseExpiresAt.getD 0⟩ :: s.inFlight } := by
  simp only [stepStatement]
  cases probeOf s conn with
  | some q => exact .inl rfl
  | none =>
    cases probeClaimed s.db.rlmJobs jobId with
    | none => exact .inl rfl
    | some r =>
      cases hv : completionValid r worker gen now with
      | false => exact .inl (by simp only [hv, Bool.false_eq_true, if_false])
      | true => exact .inr ⟨r, rfl, hv, by simp only [hv, if_true]⟩

/-- One undisturbed statement keeps every completion in flight in possession of its row. -/
theorem owns_step {s : StatementState} {t : Statement} (ho : ∀ p ∈ s.inFlight, Owns s.db.rlmJobs p)
    (hu : Undisturbed s t) :
    ∀ p ∈ (stepStatement s t).inFlight, Owns (stepStatement s t).db.rlmJobs p := by
  cases t with
  | probe conn jobId worker gen now =>
    rcases probe_cases s conn jobId worker gen now with h | ⟨r, hr, hv, h⟩
    · rw [h]; exact ho
    · obtain ⟨hm, hs⟩ := probeClaimed_eq_some.mp hr
      obtain ⟨hby, hg, l, hl, -⟩ := completionValid_iff.mp hv
      rw [h]
      intro p hp
      rcases List.mem_cons.mp hp with rfl | hp
      · exact ⟨r, hm, hs, hby, hg, by rw [hl, Option.getD_some]⟩
      · exact ho p hp
  | finish conn clock =>
    simp only [stepStatement]
    split
    · rename_i q hq
      obtain ⟨hqm, hqc⟩ := probeOf_mem hq
      intro p hp
      simp only [List.mem_filter, bne_iff_ne] at hp
      refine (ho p hp.1).of_update ?_
      intro r _ _
      rw [beq_eq_false_iff_ne]
      intro he
      exact hp.2 ((hu q hqm hqc).2 p hp.1 he)
    · exact ho
  | claim scan v leaseMs maxLevel limit now =>
    intro p hp
    simp only [stepStatement] at hp ⊢
    rcases claimRlmJob_cases s.db scan v leaseMs maxLevel limit now with h | ⟨i, r, -, -, h⟩
    · rw [h]; exact ho p hp
    · rw [h]
      refine (ho p hp).of_update ?_
      intro r' _ hs
      rw [hs]
      exact Bool.and_false _
  | cancel project subject now =>
    intro p hp
    refine (ho p hp).of_update ?_
    intro r hr _
    exact hu p hp r (Table.get?_eq_some.mpr hr)
  | requeue now =>
    intro p hp
    refine (ho p hp).of_update ?_
    intro r hr _
    exact hu p hp r (Table.get?_eq_some.mpr hr)
  | completeWithNode scan jobId worker gen input nodeId now now' =>
    intro p hp
    simp only [stepStatement] at hp ⊢
    rcases completeRlmJobWithNode_cases s.db scan jobId worker gen input nodeId now now' with
      ⟨o, h, -⟩ | ⟨r, nodes, pair, hr, hs, hv, -, h⟩
    · rw [h]; exact ho p hp
    · rw [h]
      refine (ho p hp).of_update ?_
      intro r' _ _
      rw [beq_eq_false_iff_ne]
      exact (hu r (probeClaimed_eq_some.mpr ⟨hr, hs⟩) hv).1 p hp

theorem finishes_step {s : StatementState} {t : Statement}
    (ho : ∀ p ∈ s.inFlight, Owns s.db.rlmJobs p) (hu : Undisturbed s t) :
    ∀ f ∈ finishes s t, f.stillClaimed = true := by
  intro f hf
  cases t with
  | finish conn clock =>
    simp only [finishes] at hf
    split at hf
    · rename_i p hp
      obtain ⟨hm, hc⟩ := probeOf_mem hp
      rw [List.mem_singleton.mp hf]
      exact (ho p hm).valid (hu p hm hc).1
    · cases hf
  | completeWithNode scan jobId worker gen input nodeId now now' =>
    rcases completeRlmJobWithNode_cases s.db scan jobId worker gen input nodeId now now' with
      ⟨o, h, hno⟩ | ⟨r, nodes, pair, hr, hs, hv, -, h⟩
    · have hnone : finishes s (.completeWithNode scan jobId worker gen input nodeId now now') =
          [] := by
        cases o with
        | error e => simp only [finishes, h]
        | ok p =>
          cases p with
          | none => simp only [finishes, h]
          | some pair => exact absurd rfl (hno pair)
      rw [hnone] at hf; cases hf
    · simp only [finishes, h] at hf
      rw [List.mem_singleton.mp hf]
      obtain ⟨hby, hg, l, hl, -⟩ := completionValid_iff.mp hv
      have hclock := (hu r (probeClaimed_eq_some.mpr ⟨hr, hs⟩) hv).2 l hl
      exact Owns.valid (p := ⟨0, jobId, worker, gen, now, l⟩) ⟨r, hr, hs, hby, hg, hl⟩ hclock
  | probe conn jobId worker gen now => cases hf
  | claim scan v leaseMs maxLevel limit now => cases hf
  | cancel project subject now => cases hf
  | requeue now => cases hf

/-- The finishes so far, newest first, and the state, from any tables with no completion in
flight. -/
def statements (db : RlmDb) (ts : List Statement) : List Finish × StatementState :=
  Lts.after (Lts.recorded stepStatement finishes) ([], ⟨db, []⟩) ts

structure StatementInv (fs : List Finish) (s : StatementState) : Prop where
  owned : ∀ p ∈ s.inFlight, Owns s.db.rlmJobs p
  finished : ∀ f ∈ fs, f.stillClaimed = true

/-- In every undisturbed interleaving a row is marked done while it is claimed by that worker, at
that generation, within its lease. -/
theorem finish_still_claimed (db : RlmDb) (ts : List Statement)
    (hu : Lts.Always (Lts.recorded stepStatement finishes) ([], ⟨db, []⟩)
      (fun _ s t => Undisturbed s.2 t) ts) :
    ∀ f ∈ (statements db ts).1, f.stillClaimed = true := by
  refine (Lts.recorded_guarded (I := StatementInv) ⟨by simp, by simp⟩ ?_ ts hu).finished
  intro _ fs s t hI hg
  refine ⟨owns_step hI.owned hg, ?_⟩
  intro f hf
  rcases List.mem_append.mp hf with hf | hf
  · exact finishes_step hI.owned hg f hf
  · exact hI.finished f hf

/-- The two statements with nothing between them are the operation. -/
theorem probe_finish (db : RlmDb) (conn : Nat) (jobId : Int) (worker : String)
    (gen now clock : Int) :
    (statements db [.finish conn clock, .probe conn jobId worker gen now]).2.db =
      (completeRlmJob db jobId worker gen now).1 := by
  simp only [statements, Lts.after_cons, Lts.after_nil, Lts.recorded]
  rcases completeRlmJob_cases db jobId worker gen now with h | ⟨r, hr, hs, hv, h⟩
  · have hprobe : stepStatement ⟨db, []⟩ (.probe conn jobId worker gen now) = ⟨db, []⟩ := by
      simp only [stepStatement, probeOf, List.find?_nil]
      cases hp : probeClaimed db.rlmJobs jobId with
      | none => rfl
      | some r =>
        cases hv : completionValid r worker gen now with
        | false => simp only [hv, Bool.false_eq_true, if_false]
        | true =>
          simp only [completeRlmJob, hp, hv, Bool.not_true, Bool.false_eq_true, if_false,
            Prod.mk.injEq, decide_eq_false_iff_not] at h
          have hm := (probeClaimed_eq_some.mp hp).1
          have hcount := Table.count_id (q := fun _ => true) hm rfl
          simp only [Bool.and_true] at hcount
          omega
    rw [hprobe, h]
    rfl
  · have hprobe : probeClaimed db.rlmJobs jobId = some r := probeClaimed_eq_some.mpr ⟨hr, hs⟩
    rw [h]
    simp only [stepStatement, probeOf, List.find?_nil, hprobe, hv, if_true, List.find?_cons,
      beq_self_eq_true]

/-! A claimed job whose completion has passed its check. -/

def claimedJob : RlmDb :=
  (queue [ .claim .rowid "v" 500000 none 3 1,
    .enqueue .rowid ⟨none, "p", 1, "a", "{}", PRIORITY_FRESH, 1⟩ [] 0 ]).2

/-- Statements of another row may come between. -/
theorem finish_still_claimed_apart :
    (statements claimedJob
      [.finish 7 4, .cancel "p" (1, "b") 3, .probe 7 1 "v" 0 2]).1.length = 1 ∧
    (statements claimedJob
      [.finish 7 4, .cancel "p" (1, "b") 3, .probe 7 1 "v" 0 2]).1.all Finish.stillClaimed = true :=
  ⟨by decide, List.all_eq_true.mpr (finish_still_claimed claimedJob
    [.finish 7 4, .cancel "p" (1, "b") 3, .probe 7 1 "v" 0 2] (by decide))⟩

/-- The cancellation comes between the two statements: the job is done at the new generation. -/
theorem finish_still_claimed_cancelled :
    ¬ ∀ db ts, ∀ f ∈ (statements db ts).1, f.stillClaimed = true := by
  intro h
  exact absurd (h claimedJob [.finish 7 4, .cancel "p" (1, "a") 3, .probe 7 1 "v" 0 2]) (by decide)

end Arags
