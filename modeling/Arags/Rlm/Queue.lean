import Arags.Rlm.Jobs
import Arags.Lib.Runs

/-!
# Arags.Rlm.Queue

The work queue as a system: one operation of `Arags.Rlm.Jobs` is one step, and a step records
what it handed out.

* `QueueOp`, `step`   — the operations, with their clocks and scan orders as data.
* `QueueEvent`, `events` — rows inserted, slots granted, completions accepted.
* `Move`              — the four things a step can do to `rlm_jobs`; `step_move` is the one case
  analysis of the operations that every invariant uses.
-/

namespace Arags

open Sql

inductive QueueOp where
  | enqueue (scan : ScanOrder RlmJob) (job : NewRlmJob) (exclude : List String) (now : Int)
  | claim (scan : ScanOrder RlmJob) (volunteer : String) (leaseMs : Int)
      (maxLevel : Option Int) (strikesLimit : Nat) (now : Int)
  | complete (jobId : Int) (worker : String) (generation now : Int)
  | completeWithNode (scan : ScanOrder RlmNode) (jobId : Int) (worker : String)
      (generation : Int) (input : NewRlmNode) (freshNodeId : String) (now now' : Int)
  | fail (jobId : Int) (worker error : String) (maxAttempts now : Int)
  | cancel (project : String) (subjects : List (Int × String)) (now : Int)
  | requeue (now : Int)
  | updatePayload (project : String) (level : Int) (subject payload : String) (now : Int)
  /-- The strike ledger is rewritten by the quorum. -/
  | trust (ledger : List VolunteerTrust)

def step (db : RlmDb) : QueueOp → RlmDb
  | .enqueue scan job exclude now => (enqueueRlmJob scan db job exclude now).1
  | .claim scan v leaseMs maxLevel limit now =>
    (claimRlmJob scan db v leaseMs maxLevel limit now).1
  | .complete jobId worker gen now => (completeRlmJob db jobId worker gen now).1
  | .completeWithNode scan jobId worker gen input nodeId now now' =>
    (completeRlmJobWithNode scan db jobId worker gen input nodeId now now').1
  | .fail jobId worker error maxAttempts now => failRlmJob db jobId worker error maxAttempts now
  | .cancel project subjects now => cancelRlmJobsForSubjects db project subjects now
  | .requeue now => requeueExpiredRlmLeases db now
  | .updatePayload project level subject payload now =>
    updateRlmJobPayload db project level subject payload now
  | .trust ledger => { db with volunteerTrust := ledger }

/-! ## What a step hands out -/

/-- The unit of work a row stands for. -/
structure SlotIdentity where
  project : String
  level : Int
  subject : String
  group : Option Int
  deriving DecidableEq, Repr

def RlmJob.ident (r : RlmJob) : SlotIdentity :=
  ⟨r.project, r.level, r.subject, r.generationGroupId⟩

/-- A slot in a volunteer's hands. -/
structure Grant where
  volunteer : String
  job : ClaimedRlmJob
  group : Option Int
  leaseExpiresAt : Int
  deriving DecidableEq, Repr

def Grant.ident (g : Grant) : SlotIdentity :=
  ⟨g.job.project, g.job.level, g.job.subject, g.group⟩

/-- An accepted completion; `checkedAt` is the clock its lease was checked against. -/
structure Completion where
  jobId : Int
  worker : String
  generation : Int
  group : Option Int
  checkedAt : Int
  deriving DecidableEq, Repr

inductive QueueEvent where
  | inserted (jobId : Int)
  | granted (g : Grant)
  | completed (c : Completion)
  deriving DecidableEq, Repr

def grants (es : List QueueEvent) : List Grant :=
  es.filterMap fun
    | .granted g => some g
    | _ => none

@[simp] theorem grants_inserted (ids : List Int) (es : List QueueEvent) :
    grants (ids.map .inserted ++ es) = grants es := by
  induction ids with
  | nil => rfl
  | cons i ids ih => simp [grants]

@[simp] theorem grants_granted (g : Grant) (es : List QueueEvent) :
    grants (.granted g :: es) = g :: grants es := rfl

@[simp] theorem grants_completed (c : Completion) (es : List QueueEvent) :
    grants (.completed c :: es) = grants es := rfl

def accepted (es : List QueueEvent) : List Completion :=
  es.filterMap fun
    | .completed c => some c
    | _ => none

@[simp] theorem accepted_inserted (ids : List Int) (es : List QueueEvent) :
    accepted (ids.map .inserted ++ es) = accepted es := by
  induction ids with
  | nil => rfl
  | cons i ids ih => simp [accepted]

@[simp] theorem accepted_granted (g : Grant) (es : List QueueEvent) :
    accepted (.granted g :: es) = accepted es := rfl

@[simp] theorem accepted_completed (c : Completion) (es : List QueueEvent) :
    accepted (.completed c :: es) = c :: accepted es := rfl

def groupOf (t : Table RlmJob) (jobId : Int) : Option Int :=
  (t.get? jobId).bind fun r => r.generationGroupId

/-- The rows an enqueue puts in: all rows of its subject, unless a live one stopped it. -/
def insertedIds (scan : ScanOrder RlmJob) (db : RlmDb) (job : NewRlmJob) (exclude : List String)
    (now : Int) : List Int :=
  if (existingSlots scan db.rlmJobs job).any (fun x => x.2.live) then []
  else
    ((enqueueRlmJob scan db job exclude now).1.rlmJobs.select
      fun _ r => r.isAbout job.project job.level job.subject).map Prod.fst

def events (db : RlmDb) : QueueOp → List QueueEvent
  | .enqueue scan job exclude now => (insertedIds scan db job exclude now).map .inserted
  | .claim scan v leaseMs maxLevel limit now =>
    match claimRlmJob scan db v leaseMs maxLevel limit now with
    | (db', .ok (some job)) =>
      [.granted ⟨v, job, groupOf db'.rlmJobs job.id, saturatingAdd now (max leaseMs 1000)⟩]
    | _ => []
  | .complete jobId worker gen now =>
    if (completeRlmJob db jobId worker gen now).2 then
      [.completed ⟨jobId, worker, gen, groupOf db.rlmJobs jobId, now⟩]
    else []
  | .completeWithNode scan jobId worker gen input nodeId now now' =>
    match (completeRlmJobWithNode scan db jobId worker gen input nodeId now now').2 with
    | .ok (some _) => [.completed ⟨jobId, worker, gen, groupOf db.rlmJobs jobId, now⟩]
    | _ => []
  | _ => []

/-! ## What an enqueue will write -/

/-- The group and the generation of the slots an enqueue inserts; nothing when a live slot stops
it. -/
def enqueueTarget (scan : ScanOrder RlmJob) (t : Table RlmJob) (job : NewRlmJob)
    (exclude : List String) : Option (Int × Int) :=
  match existingSlots scan t job with
  | first :: rest =>
    if (first :: rest).any (fun x => x.2.live) then none
    else some (if exclude.isEmpty then first.2.generationGroupId.getD first.1
      else nextGenerationGroup t, first.2.generation + 1)
  | [] => some (nextGenerationGroup t, if exclude.isEmpty then 0 else priorGeneration t job + 1)

def QueueOp.enqueued : QueueOp → Option (ScanOrder RlmJob × NewRlmJob × List String)
  | .enqueue scan job exclude _ => some (scan, job, exclude)
  | _ => none

/-- The rows of every other subject. -/
def otherRows (t : Table RlmJob) (job : NewRlmJob) : Table RlmJob :=
  t.delete fun _ r => r.isAbout job.project job.level job.subject

/-- The first `n` rows go in, with consecutive row ids; none does only when the key of the first
is taken. -/
theorem insertRlmSlots_rows (t : Table RlmJob) (rs : List RlmJob) (first : Int) :
    ∃ n ≤ rs.length, (n = 0 → ∀ r ∈ rs.head?, ∃ x ∈ t.rows, x.2.jobKey = r.jobKey) ∧
      ∀ i r, (i, r) ∈ (insertRlmSlots t rs first).1.rows ↔
        (i, r) ∈ t.rows ∨ ∃ k < n, i = t.maxId + 1 + k ∧ rs[k]? = some r := by
  induction rs generalizing t first with
  | nil => exact ⟨0, Nat.le_refl _, by simp, by simp [insertRlmSlots]⟩
  | cons r₀ rs ih =>
    simp only [insertRlmSlots]
    split
    · rename_i htaken
      refine ⟨0, Nat.zero_le _, ?_, by simp⟩
      intro _ r hr
      simp only [List.head?_cons, Option.mem_some] at hr
      subst hr
      simpa using List.any_eq_true.mp htaken
    · obtain ⟨n, hn, -, h⟩ := ih (t.insert r₀) (if first == 0 then t.nextId else first)
      refine ⟨n + 1, by simpa using hn, fun h0 => absurd h0 (Nat.succ_ne_zero n), ?_⟩
      intro i r
      rw [h, Table.mem_insert, Table.maxId_insert, or_assoc]
      refine or_congr_right ?_
      constructor
      · rintro (⟨rfl, rfl⟩ | ⟨k, hk, rfl, hr⟩)
        · exact ⟨0, by omega, by simp [Table.nextId], rfl⟩
        · exact ⟨k + 1, by omega, by push_cast; omega, by simpa using hr⟩
      · rintro ⟨k, hk, rfl, hr⟩
        cases k with
        | zero =>
          simp only [List.getElem?_cons_zero, Option.some.injEq] at hr
          exact .inl ⟨by simp [Table.nextId], hr.symm⟩
        | succ k =>
          simp only [List.getElem?_cons_succ] at hr
          exact .inr ⟨k, by omega, by push_cast; omega, hr⟩

theorem existingSlots_mem (scan : ScanOrder RlmJob) {t : Table RlmJob} {job : NewRlmJob}
    {x : Int × RlmJob} : x ∈ existingSlots scan t job ↔
      x ∈ t.rows ∧ x.2.isAbout job.project job.level job.subject = true := by
  rw [existingSlots, scan.mem_order]
  exact Table.mem_select

theorem isAbout_iff {r : RlmJob} {p : String} {l : Int} {s : String} :
    r.isAbout p l s = true ↔ r.project = p ∧ r.level = l ∧ r.subject = s := by
  simp [RlmJob.isAbout, and_assoc]

/-! ## One case analysis for each operation -/

section Operations

variable (db : RlmDb)

theorem claimRlmJob_cases (scan : ScanOrder RlmJob) (v : String) (leaseMs : Int)
    (maxLevel : Option Int) (limit : Nat) (now : Int) :
    claimRlmJob scan db v leaseMs maxLevel limit now = (db, .ok none) ∨
    ∃ i r, (i, r) ∈ db.rlmJobs.rows ∧ claimable db v maxLevel limit r = true ∧
      claimRlmJob scan db v leaseMs maxLevel limit now =
        ({ db with
            rlmJobs := markClaimed db.rlmJobs i v now (saturatingAdd now (max leaseMs 1000)) },
          .ok (some ⟨i, r.jobKey, r.project, r.level, r.subject, r.payload, r.generation,
            max leaseMs 1000⟩)) := by
  simp only [claimRlmJob]
  split
  · exact .inl rfl
  · rename_i i r hf
    have hm := firstBy_mem hf
    rw [scan.mem_order, Table.mem_select] at hm
    obtain ⟨hr, hc⟩ := hm
    have hp : r.status = .pending := by
      simp only [claimable, Bool.and_eq_true, beq_iff_eq] at hc
      exact hc.1.1.1.1
    have hcount := Table.count_id (q := fun r => r.status == .pending) hr (by simp [hp])
    right
    refine ⟨i, r, hr, hc, ?_⟩
    simp only [hcount, ne_eq, not_true_eq_false, if_false]
    have hg : (markClaimed db.rlmJobs i v now (saturatingAdd now (max leaseMs 1000))).get? i =
        some (r.claim v now (saturatingAdd now (max leaseMs 1000))) := by
      rw [Table.get?_eq_some, markClaimed, Table.mem_update]
      exact ⟨r, hr, by simp [hp]⟩
    simp only [hg, RlmJob.claim]

theorem probeClaimed_eq_some {t : Table RlmJob} {i : Int} {r : RlmJob} :
    probeClaimed t i = some r ↔ (i, r) ∈ t.rows ∧ r.status = .claimed := by
  simp only [probeClaimed, Option.filter_eq_some_iff, Table.get?_eq_some, beq_iff_eq]

theorem completionValid_iff {r : RlmJob} {worker : String} {gen now : Int} :
    completionValid r worker gen now = true ↔ r.claimedBy = some worker ∧ r.generation = gen ∧
      ∃ l, r.leaseExpiresAt = some l ∧ now ≤ l := by
  simp [completionValid, Option.any_eq_true, and_assoc]

theorem completeRlmJob_cases (jobId : Int) (worker : String) (gen now : Int) :
    completeRlmJob db jobId worker gen now = (db, false) ∨
    ∃ r, (jobId, r) ∈ db.rlmJobs.rows ∧ r.status = .claimed ∧
      completionValid r worker gen now = true ∧
      completeRlmJob db jobId worker gen now =
        ({ db with rlmJobs := markDone db.rlmJobs jobId now }, true) := by
  simp only [completeRlmJob]
  split
  · exact .inl rfl
  · rename_i r hp
    obtain ⟨hr, hs⟩ := probeClaimed_eq_some.mp hp
    cases hv : completionValid r worker gen now with
    | false => exact .inl rfl
    | true =>
      have hcount : db.rlmJobs.count (fun i _ => i == jobId) = 1 := by
        have := Table.count_id (q := fun _ => true) hr rfl
        simpa using this
      exact .inr ⟨r, hr, hs, hv, by simp [hcount]⟩

theorem completeRlmJobWithNode_cases (scan : ScanOrder RlmNode) (jobId : Int) (worker : String)
    (gen : Int) (input : NewRlmNode) (nodeId : String) (now now' : Int) :
    (∃ o, completeRlmJobWithNode scan db jobId worker gen input nodeId now now' = (db, o) ∧
      ∀ pair, o ≠ .ok (some pair)) ∨
    ∃ r nodes pair, (jobId, r) ∈ db.rlmJobs.rows ∧ r.status = .claimed ∧
      completionValid r worker gen now = true ∧
      upsertNodeStmt scan db.rlmNodes nodeId input now' = .ok (nodes, pair) ∧
      completeRlmJobWithNode scan db jobId worker gen input nodeId now now' =
        ({ db with rlmNodes := nodes, rlmJobs := markDone db.rlmJobs jobId now' },
          .ok (some pair)) := by
  simp only [completeRlmJobWithNode]
  split
  · exact .inl ⟨_, rfl, by simp⟩
  · rename_i r hp
    obtain ⟨hr, hs⟩ := probeClaimed_eq_some.mp hp
    cases hv : completionValid r worker gen now with
    | false => exact .inl ⟨_, rfl, by simp⟩
    | true =>
      simp only [Bool.not_true, Bool.false_eq_true, if_false]
      cases hu : upsertNodeStmt scan db.rlmNodes nodeId input now' with
      | error e => exact .inl ⟨_, rfl, by simp⟩
      | ok res => exact .inr ⟨r, res.1, res.2, hr, hs, hv, rfl, rfl⟩

end Operations

end Arags
