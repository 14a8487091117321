import Arags.Lib.Table
import Mathlib.Data.Rat.Defs

/-!
# Arags.Rlm.Jobs

The volunteer work queue of `arags-storage`: the tables `rlm_jobs`, `rlm_job_exclusions`,
`volunteer_trust` and `rlm_nodes`, and the operations of `sqlite/rlm/jobs.rs` and
`sqlite/rlm/complete.rs` on them.

* `enqueueRlmJob`, `claimRlmJob`, `completeRlmJob`, `completeRlmJobWithNode`, `failRlmJob`,
  `cancelRlmJobsForSubjects`, `requeueExpiredRlmLeases`, `updateRlmJobPayload`.
* An operation that can fail half way returns the tables with what it had committed by then.
* `now_ms` readings and the order in which a query without `ORDER BY` returns its rows are
  arguments.
-/

namespace Arags

open Sql

/-! ## Constants -/

/-- Front of the queue: the source of the job changed. -/
def PRIORITY_CANCELLED : Int := 0
def PRIORITY_RETRY : Int := 1
def PRIORITY_CASCADE : Int := 3
def PRIORITY_FRESH : Int := 5
/-- Back of the queue: `max_attempts` exhausted. -/
def PRIORITY_PARKED : Int := 9

def i64Max : Int := 9223372036854775807
def i64Min : Int := -9223372036854775808

/-- `i64::saturating_add`. -/
def saturatingAdd (a b : Int) : Int := max i64Min (min i64Max (a + b))

/-! ## Tables -/

/-- The values the `CHECK` on `rlm_jobs.status` admits. -/
inductive JobStatus where
  | pending | claimed | done | failed | cancelled
  deriving DecidableEq, Repr

/-- A row of `rlm_jobs`; its row id is the key of the table. -/
structure RlmJob where
  jobKey : String
  bufferId : Option Int
  project : String
  level : Int
  subject : String
  payload : String
  generation : Int
  generationGroupId : Option Int
  status : JobStatus
  priority : Int
  claimedBy : Option String
  claimedAt : Option Int
  leaseExpiresAt : Option Int
  attempts : Int
  lastError : Option String
  createdAt : Int
  updatedAt : Int
  deriving DecidableEq, Repr

/-- `pending` or `claimed`. -/
def RlmJob.live (r : RlmJob) : Bool := r.status == .pending || r.status == .claimed

/-- `project = ?1 AND level = ?2 AND subject = ?3`. -/
def RlmJob.isAbout (r : RlmJob) (project : String) (level : Int) (subject : String) : Bool :=
  r.project == project && r.level == level && r.subject == subject

structure NewRlmJob where
  bufferId : Option Int
  project : String
  level : Int
  subject : String
  payload : String
  priority : Int
  quorumSlots : Nat
  deriving DecidableEq, Repr

/-- A job handed to a volunteer. -/
structure ClaimedRlmJob where
  id : Int
  jobKey : String
  project : String
  level : Int
  subject : String
  payload : String
  generation : Int
  leaseMs : Int
  deriving DecidableEq, Repr

structure VolunteerTrust where
  username : String
  strikes : Int
  trustScore : Rat
  deriving DecidableEq, Repr

inductive ReviewStatus where
  | pending | approved | rejected
  deriving DecidableEq, Repr

/-- A row of `rlm_nodes`. The JSON array in `source_hashes` is kept as the list it encodes. -/
structure RlmNode where
  nodeId : String
  bufferId : Option Int
  project : String
  level : Int
  subject : String
  summaryText : String
  sourceHashes : List String
  model : Option String
  volunteerUsername : Option String
  templateVersion : Option String
  tokenCount : Int
  confidence : Rat
  reviewStatus : ReviewStatus
  reviewedBy : Option String
  reviewedAt : Option Int
  accessCount : Int
  createdAt : Int
  updatedAt : Int
  lastAccessedAt : Int
  stale : Bool
  createdBy : Option String
  isActive : Bool
  supersededBy : Option Int
  epoch : Int
  version : Int
  deriving DecidableEq, Repr

structure NewRlmNode where
  bufferId : Option Int
  project : String
  level : Int
  subject : String
  summaryText : String
  sourceHashes : List String
  model : Option String
  volunteerUsername : Option String
  createdBy : Option String
  templateVersion : Option String
  tokenCount : Int
  deriving DecidableEq, Repr

structure RlmDb where
  rlmJobs : Table RlmJob
  rlmJobExclusions : List (Int × String)
  volunteerTrust : List VolunteerTrust
  rlmNodes : Table RlmNode

def RlmDb.empty : RlmDb := ⟨Table.empty, [], [], Table.empty⟩

/-! ## Enqueue -/

/-- Deterministic job key so re-enqueues replace rather than duplicate. -/
def rlmJobKey (project : String) (level : Int) (subject : String) : String :=
  s!"L{level}:{project}:{subject}"

/-- The key of one slot: the bare logical key when the job has a single slot. -/
def slotKey (logical : String) (slots slot : Nat) : String :=
  if slots == 1 then logical else s!"{logical}#{slot}"

/-- The row that slot `slot` of a fanned-out job is inserted as. -/
def slotRow (job : NewRlmJob) (slots : Nat) (logical : String) (groupId generation now : Int)
    (slot : Nat) : RlmJob where
  jobKey := slotKey logical slots slot
  bufferId := job.bufferId
  project := job.project
  level := job.level
  subject := job.subject
  payload := job.payload
  generation := generation
  generationGroupId := some groupId
  status := .pending
  priority := job.priority
  claimedBy := none
  claimedAt := none
  leaseExpiresAt := none
  attempts := 0
  lastError := none
  createdAt := now
  updatedAt := now

/-- Insert the given rows one by one; a row whose `job_key` is taken stops the loop. Returns the
row id of the first row. -/
def insertRlmSlots (t : Table RlmJob) : List RlmJob → Int → Table RlmJob × Except String Int
  | [], firstId => (t, .ok firstId)
  | r :: rs, firstId =>
    if t.rows.any (fun x => x.2.jobKey == r.jobKey) then
      (t, .error "UNIQUE constraint failed: rlm_jobs.job_key")
    else
      insertRlmSlots (t.insert r) rs (if firstId == 0 then t.nextId else firstId)

/-- `ON CONFLICT(generation_group_id, volunteer) DO NOTHING`. -/
def insertRlmExclusions (exclusions : List (Int × String)) (groupId : Int) :
    List String → List (Int × String)
  | [] => exclusions
  | vol :: vols =>
    if vol == "" || exclusions.contains (groupId, vol) then
      insertRlmExclusions exclusions groupId vols
    else
      insertRlmExclusions (exclusions ++ [(groupId, vol)]) groupId vols

/-- `SELECT COALESCE(MAX(generation_group_id), 0) + 1 FROM rlm_jobs`. -/
def nextGenerationGroup (t : Table RlmJob) : Int :=
  ((t.rows.filterMap fun x => x.2.generationGroupId).max?).getD 0 + 1

/-- `SELECT COALESCE(MAX(generation), 0) FROM rlm_jobs WHERE …`. -/
def priorGeneration (t : Table RlmJob) (job : NewRlmJob) : Int :=
  (((t.select fun _ r => r.isAbout job.project job.level job.subject).map
    fun x => x.2.generation).max?).getD 0

/-- The slots of a subject, in the order the probe returns them. -/
def existingSlots (scan : ScanOrder RlmJob) (t : Table RlmJob) (job : NewRlmJob) :
    List (Int × RlmJob) :=
  scan.order (t.select fun _ r => r.isAbout job.project job.level job.subject)

/-- The exclusions and the slots of one group. -/
def createSlots (db : RlmDb) (job : NewRlmJob) (exclude : List String) (groupId generation : Int)
    (createdNew : Bool) (now : Int) : RlmDb × Except String (Int × Int × Bool) :=
  let slots := max job.quorumSlots 1
  let logical := rlmJobKey job.project job.level job.subject
  let exclusions := insertRlmExclusions db.rlmJobExclusions groupId exclude
  let inserted := insertRlmSlots db.rlmJobs
    ((List.range slots).map (slotRow job slots logical groupId generation now)) 0
  ({ db with rlmJobs := inserted.1, rlmJobExclusions := exclusions },
    inserted.2.map fun first => (first, generation, createdNew))

def enqueueRlmJob (scan : ScanOrder RlmJob) (db : RlmDb) (job : NewRlmJob)
    (exclude : List String) (now : Int) : RlmDb × Except String (Int × Int × Bool) :=
  match existingSlots scan db.rlmJobs job with
  | first :: rest =>
    if (first :: rest).any (fun x => x.2.live) then
      -- a live slot already owns the work
      (db, .ok (first.1, first.2.generation, false))
    else
      let oldGeneration := first.2.generation
      let groupId :=
        if exclude.isEmpty then first.2.generationGroupId.getD first.1
        else nextGenerationGroup db.rlmJobs
      let kept := db.rlmJobs.delete fun _ r => r.isAbout job.project job.level job.subject
      createSlots { db with rlmJobs := kept } job exclude groupId (oldGeneration + 1) false now
  | [] =>
    let groupId := nextGenerationGroup db.rlmJobs
    let generation := if exclude.isEmpty then 0 else priorGeneration db.rlmJobs job + 1
    createSlots db job exclude groupId generation true now

/-! ## Fail, cancel, requeue, refresh -/

/-- Parked once `max_attempts` is reached, retried soon before that. -/
def failVerdict (attempts maxAttempts : Int) : JobStatus × Int :=
  if attempts ≥ maxAttempts then (.failed, PRIORITY_PARKED) else (.pending, PRIORITY_RETRY)

def failRlmJob (db : RlmDb) (jobId : Int) (worker error : String) (maxAttempts now : Int) :
    RlmDb :=
  let attempts :=
    match db.rlmJobs.get? jobId with
    | some r => if r.claimedBy == some worker then r.attempts else 0
    | none => 0
  let verdict := failVerdict attempts maxAttempts
  let jobs := db.rlmJobs.update
    (fun i r => i == jobId && (r.claimedBy == some worker && r.status == .claimed))
    fun _ r => { r with
      status := verdict.1, priority := verdict.2, lastError := some error, claimedBy := none,
      claimedAt := none, leaseExpiresAt := none, updatedAt := now }
  { db with rlmJobs := jobs }

/-- The reset of one subject by `cancelRlmJobsForSubjects`. -/
def cancelSubject (db : RlmDb) (project : String) (subject : Int × String) (now : Int) : RlmDb :=
  let jobs := db.rlmJobs.update (fun _ r => r.isAbout project subject.1 subject.2 && r.live)
    fun _ r => { r with
      status := .pending, priority := PRIORITY_CANCELLED, generation := r.generation + 1,
      attempts := 0, lastError := some "source changed", claimedBy := none,
      claimedAt := none, leaseExpiresAt := none, updatedAt := now }
  { db with rlmJobs := jobs }

def cancelRlmJobsForSubjects (db : RlmDb) (project : String) (subjects : List (Int × String))
    (now : Int) : RlmDb :=
  subjects.foldl (fun db s => cancelSubject db project s now) db

/-- `status = 'claimed' AND lease_expires_at < ?1`; a `NULL` lease never compares. -/
def RlmJob.leaseExpired (r : RlmJob) (now : Int) : Bool :=
  r.status == .claimed && r.leaseExpiresAt.any (fun l => decide (l < now))

def requeueExpiredRlmLeases (db : RlmDb) (now : Int) : RlmDb :=
  let jobs := db.rlmJobs.update (fun _ r => r.leaseExpired now)
    fun _ r => { r with
      status := .pending, claimedBy := none, claimedAt := none, leaseExpiresAt := none,
      updatedAt := now }
  { db with rlmJobs := jobs }

def updateRlmJobPayload (db : RlmDb) (project : String) (level : Int) (subject payload : String)
    (now : Int) : RlmDb :=
  let jobs := db.rlmJobs.update
    (fun _ r => r.jobKey == rlmJobKey project level subject && r.live)
    fun _ r => { r with payload := payload, updatedAt := now }
  { db with rlmJobs := jobs }

/-! ## Complete -/

/-- The owner, the lease and the generation of a claimed job as its completion checks them. -/
def completionValid (r : RlmJob) (worker : String) (generation now : Int) : Bool :=
  r.claimedBy == some worker && r.generation == generation &&
    r.leaseExpiresAt.any (fun l => decide (now ≤ l))

/-- `SELECT … WHERE id = ?1 AND status = 'claimed'`. -/
def probeClaimed (t : Table RlmJob) (jobId : Int) : Option RlmJob :=
  (t.get? jobId).filter fun r => r.status == .claimed

def RlmJob.finish (r : RlmJob) (now : Int) : RlmJob := { r with status := .done, updatedAt := now }

/-- `UPDATE rlm_jobs SET status = 'done', updated_at = ?1 WHERE id = ?2`. -/
def markDone (t : Table RlmJob) (jobId now : Int) : Table RlmJob :=
  t.update (fun i _ => i == jobId) (fun _ r => r.finish now)

def completeRlmJob (db : RlmDb) (jobId : Int) (worker : String) (generation now : Int) :
    RlmDb × Bool :=
  match probeClaimed db.rlmJobs jobId with
  | none => (db, false)
  | some r =>
    if !completionValid r worker generation now then (db, false)
    else
      ({ db with rlmJobs := markDone db.rlmJobs jobId now },
        decide (db.rlmJobs.count (fun i _ => i == jobId) > 0))

/-- Superseding insert: retire the active revision of the subject, insert the new one, link the
two. -/
def upsertNodeStmt (scan : ScanOrder RlmNode) (t : Table RlmNode) (nodeId : String)
    (input : NewRlmNode) (now : Int) : Except String (Table RlmNode × Int × String) :=
  let isLive : RlmNode → Bool := fun n =>
    n.project == input.project && n.level == input.level && n.subject == input.subject &&
      n.isActive
  let existing := (scan.order (t.select fun _ n => isLive n)).head?
  let retired :=
    match existing with
    | some (oldId, _) =>
      t.update (fun i n => i == oldId && n.isActive) (fun _ n => { n with isActive := false })
    | none => t
  if retired.rows.any (fun x => x.2.nodeId == nodeId) then
    .error "UNIQUE constraint failed: rlm_nodes.node_id"
  else if retired.rows.any (fun x => isLive x.2) then
    .error "UNIQUE constraint failed: rlm_nodes.project, rlm_nodes.level, rlm_nodes.subject"
  else
    let newId := retired.nextId
    let inserted := retired.insert {
      nodeId := nodeId
      bufferId := input.bufferId
      project := input.project
      level := input.level
      subject := input.subject
      summaryText := input.summaryText
      sourceHashes := input.sourceHashes
      model := input.model
      volunteerUsername := input.volunteerUsername
      templateVersion := input.templateVersion
      tokenCount := input.tokenCount
      confidence := 1
      reviewStatus := .pending
      reviewedBy := none
      reviewedAt := none
      accessCount := 0
      createdAt := now
      updatedAt := now
      lastAccessedAt := now
      stale := false
      createdBy := input.createdBy
      isActive := true
      supersededBy := none
      epoch := 0
      version := (existing.map fun x => x.2.version + 1).getD 1 }
    let linked :=
      match existing with
      | some (oldId, _) =>
        inserted.update (fun i _ => i == oldId) (fun _ n => { n with supersededBy := some newId })
      | none => inserted
    .ok (linked, newId, nodeId)

/-- One transaction: a failed node insert rolls everything back. `now` is the clock of the lease
check, `now'` the one read for the two writes. -/
def completeRlmJobWithNode (scan : ScanOrder RlmNode) (db : RlmDb) (jobId : Int)
    (worker : String) (generation : Int) (input : NewRlmNode) (freshNodeId : String)
    (now now' : Int) : RlmDb × Except String (Option (Int × String)) :=
  match probeClaimed db.rlmJobs jobId with
  | none => (db, .ok none)
  | some r =>
    if !completionValid r worker generation now then (db, .ok none)
    else
      match upsertNodeStmt scan db.rlmNodes freshNodeId input now' with
      | .error e => (db, .error e)
      | .ok (nodes, pair) =>
        ({ db with rlmNodes := nodes, rlmJobs := markDone db.rlmJobs jobId now' },
          .ok (some pair))

/-! ## Claim -/

/-- `s.generation_group_id = rlm_jobs.generation_group_id AND s.claimed_by = ?2` for some row
`s`; two `NULL` groups are not equal. -/
def groupHolds (t : Table RlmJob) (group : Option Int) (volunteer : String) : Bool :=
  t.rows.any fun s => s.2.generationGroupId.isSome && s.2.generationGroupId == group &&
    s.2.claimedBy == some volunteer

def isBanned (trust : List VolunteerTrust) (volunteer : String) (strikesLimit : Nat) : Bool :=
  trust.any fun vt => vt.username == volunteer && decide (vt.strikes ≥ strikesLimit)

def isExcluded (exclusions : List (Int × String)) (group : Option Int) (volunteer : String) :
    Bool :=
  exclusions.any fun e => some e.1 == group && e.2 == volunteer

/-- The `WHERE` clause of the candidate query of `claimRlmJob`. -/
def claimable (db : RlmDb) (volunteer : String) (maxLevel : Option Int) (strikesLimit : Nat)
    (r : RlmJob) : Bool :=
  r.status == .pending && decide (r.level ≤ maxLevel.getD i64Max) &&
    !groupHolds db.rlmJobs r.generationGroupId volunteer &&
    !isBanned db.volunteerTrust volunteer strikesLimit &&
    !isExcluded db.rlmJobExclusions r.generationGroupId volunteer

/-- `ORDER BY priority ASC, level ASC, created_at ASC`. -/
def claimsBefore (x y : Int × RlmJob) : Bool :=
  decide (x.2.priority < y.2.priority) || (x.2.priority == y.2.priority &&
    (decide (x.2.level < y.2.level) || (x.2.level == y.2.level &&
      decide (x.2.createdAt < y.2.createdAt))))

def RlmJob.claim (r : RlmJob) (volunteer : String) (now expires : Int) : RlmJob := { r with
  status := .claimed, claimedBy := some volunteer, claimedAt := some now,
  leaseExpiresAt := some expires, attempts := r.attempts + 1, updatedAt := now }

/-- `UPDATE rlm_jobs SET status = 'claimed', … WHERE id = ?4 AND status = 'pending'`. -/
def markClaimed (t : Table RlmJob) (jobId : Int) (volunteer : String) (now expires : Int) :
    Table RlmJob :=
  t.update (fun i r => i == jobId && r.status == .pending)
    (fun _ r => r.claim volunteer now expires)

/-- One `IMMEDIATE` transaction: select the candidate, claim it, reload it. -/
def claimRlmJob (scan : ScanOrder RlmJob) (db : RlmDb) (volunteer : String) (leaseMs : Int)
    (maxLevel : Option Int) (strikesLimit : Nat) (now : Int) :
    RlmDb × Except String (Option ClaimedRlmJob) :=
  let expires := saturatingAdd now (max leaseMs 1000)
  let candidates := scan.order
    (db.rlmJobs.select fun _ r => claimable db volunteer maxLevel strikesLimit r)
  match firstBy claimsBefore candidates with
  | none => (db, .ok none)
  | some (jobId, _) =>
    let jobs := markClaimed db.rlmJobs jobId volunteer now expires
    let claimed := db.rlmJobs.count fun i r => i == jobId && r.status == .pending
    if claimed ≠ 1 then (db, .error s!"claim rlm_job affected {claimed} rows (expected 1)")
    else
      match jobs.get? jobId with
      | none => (db, .error "reload claimed rlm_job")
      | some job =>
        ({ db with rlmJobs := jobs }, .ok (some {
          id := jobId
          jobKey := job.jobKey
          project := job.project
          level := job.level
          subject := job.subject
          payload := job.payload
          generation := job.generation
          leaseMs := max leaseMs 1000 }))

end Arags
