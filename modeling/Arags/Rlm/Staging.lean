import Arags.Rlm.Publication

/-!
# Arags.Rlm.Staging

`decide_quorum_submission`: a volunteer's answer is attested, its slot is marked done, the answer
is filed as a candidate, the subject is decided. Each of these commits on its own, and a statement
that fails ends the request with what was committed by then.

* `decideQuorumSubmission` — the request with a failing statement.
* `finished_staged`        — a slot is marked done exactly if its candidate is filed, unless the
  `INSERT` of the candidate fails.
* `finished_staged_of_answer` — the volunteer is told of that failure.
-/

namespace Arags

open Sql

/-- A statement of the request that fails. -/
inductive StagingStep where
  /-- The `SELECT` of `complete_rlm_job`. -/
  | probe
  /-- Its `UPDATE`. -/
  | finish
  /-- The `INSERT` of `insert_submission`. -/
  | insert
  /-- `get_rlm_node_by_subject`, after the decision. -/
  | readNode
  deriving DecidableEq, Repr

/-- `job` is the row as the request read it when it came in. -/
structure QuorumSubmission where
  jobId : Int
  job : RlmJob
  ctxUsername : String
  rawToken : String
  generation : Int
  summaryText : String
  providedHmac : String
  deriving DecidableEq, Repr

inductive Status where
  | unauthenticated (message : String)
  | internal (message : String)
  deriving DecidableEq, Repr

structure CompleteRlmJobResponse where
  accepted : Bool
  reason : String
  nodeId : String
  autoApproved : Bool
  deriving DecidableEq, Repr

/-- A refusal; the other fields have their defaults. -/
def CompleteRlmJobResponse.refused (reason : String) : CompleteRlmJobResponse :=
  ⟨false, reason, "", false⟩

/-- The signature, the decision on a subject with whatever goes wrong in it, and the clocks. -/
structure StagingEnv where
  signRlmSubmission : String → Int → Int → String → String
  decideRlmQuorum : RlmStore → String → Int → String → RlmStore × Except String QuorumDecision
  nodeScan : ScanOrder RlmNode
  now : Int
  nowSecs : Int

/-- `staged` is the store when the decision begins, or at the end of a request that does not come
so far. -/
structure StagingResult where
  staged : RlmStore
  store : RlmStore
  response : Except Status CompleteRlmJobResponse

namespace StagingResult

/-- The request ends with nothing left to commit. -/
def ended (s : RlmStore) (response : Except Status CompleteRlmJobResponse) : StagingResult :=
  ⟨s, s, response⟩

end StagingResult

variable (env : StagingEnv) (fault : Option StagingStep)

def StagingEnv.hmacOk (q : QuorumSubmission) : Bool :=
  env.signRlmSubmission q.rawToken q.jobId q.generation q.summaryText == q.providedHmac

/-- `complete_rlm_job` with a failing statement; the `UPDATE` is not sent to a slot that is not
the worker's. -/
def completeOrFail (db : RlmDb) (jobId : Int) (worker : String) (generation now : Int) :
    RlmDb × Except String Bool :=
  if fault = some .probe then (db, .error "probe claimed rlm_job")
  else
    let completed := completeRlmJob db jobId worker generation now
    if completed.2 && fault == some .finish then (db, .error "complete rlm_job")
    else (completed.1, .ok completed.2)

/-- The answer of the request to a decision. -/
def answerDecision (after : RlmStore) (q : QuorumSubmission) :
    Except String QuorumDecision → Except Status CompleteRlmJobResponse
  | .ok (.accepted ..) =>
    if fault = some .readNode then .error (.internal "get_rlm_node_by_subject")
    else
      let node := getRlmNodeBySubject env.nodeScan after.db.rlmNodes q.job.project q.job.level
        q.job.subject
      .ok ⟨true, "", (node.map fun n => n.2.nodeId).getD "", false⟩
  | .ok (.rejected _) => .ok (.refused "quorum rejected: no consensus among volunteers")
  | .ok .pending => .ok (.refused "quorum pending: awaiting more volunteers")
  | .error _ => .ok (.refused "quorum decision error")

def decideQuorumSubmission (s : RlmStore) (q : QuorumSubmission) : StagingResult :=
  if !env.hmacOk q then
    .ended s (.error (.unauthenticated
      "submission attestation failed: invalid or missing HMAC"))
  else
    match completeOrFail fault s.db q.jobId q.ctxUsername q.generation env.now with
    | (db, .error e) => .ended { s with db := db } (.error (.internal e))
    | (db, .ok false) =>
      .ended { s with db := db }
        (.ok (.refused "stale lease, wrong worker or cancelled generation"))
    | (db, .ok true) =>
      if fault = some .insert then
        .ended { s with db := db } (.error (.internal "execute insert submission"))
      else
        let key := rlmJobKey q.job.project q.job.level q.job.subject
        let filed := insertSubmission s.submissions q.job.project "rlm_node" key q.summaryText
          q.ctxUsername env.nowSecs
        let staged : RlmStore := ⟨db, filed.1⟩
        let decided := env.decideRlmQuorum staged q.job.project q.job.level q.job.subject
        ⟨staged, decided.1, answerDecision env fault decided.1 q decided.2⟩

/-! ## A slot and its candidate -/

/-- The slot was not done and is now. -/
def SlotFinished (before after : RlmStore) (jobId : Int) : Prop :=
  (before.db.rlmJobs.get? jobId).any (fun r => r.status != .done) = true ∧
    (after.db.rlmJobs.get? jobId).any (fun r => r.status == .done) = true

/-- A row that was not there holds the answer as a candidate of the subject. -/
def CandidateStaged (before after : RlmStore) (q : QuorumSubmission) : Prop :=
  ∃ x ∈ after.submissions.rows, x ∉ before.submissions.rows ∧ x.2.project = q.job.project ∧
    x.2.subjectType = "rlm_node" ∧
    x.2.subjectKey = rlmJobKey q.job.project q.job.level q.job.subject ∧
    x.2.candidateText = q.summaryText ∧ x.2.candidateBy = q.ctxUsername ∧
    x.2.status = .candidate

instance (before after : RlmStore) (jobId : Int) : Decidable (SlotFinished before after jobId) :=
  inferInstanceAs (Decidable (_ ∧ _))

instance (before after : RlmStore) (q : QuorumSubmission) :
    Decidable (CandidateStaged before after q) :=
  inferInstanceAs (Decidable (∃ x ∈ after.submissions.rows, _))

/-- The request is signed, and the slot is claimed by its volunteer at its generation, within the
lease. -/
def Entitled (s : RlmStore) (q : QuorumSubmission) : Prop :=
  env.hmacOk q = true ∧ (probeClaimed s.db.rlmJobs q.jobId).any
    (fun r => completionValid r q.ctxUsername q.generation env.now) = true

instance (s : RlmStore) (q : QuorumSubmission) : Decidable (Entitled env s q) :=
  inferInstanceAs (Decidable (_ ∧ _))

section Requests

variable {env : StagingEnv} {fault : Option StagingStep} {s : RlmStore} {q : QuorumSubmission}

theorem not_slotFinished_same {after : RlmStore} {i : Int} (h : after.db = s.db) :
    ¬ SlotFinished s after i := by
  rintro ⟨hbefore, hafter⟩
  rw [h] at hafter
  cases hr : s.db.rlmJobs.get? i with
  | none =>
    rw [hr] at hafter
    cases hafter
  | some r =>
    rw [hr, Option.any_some] at hbefore hafter
    rw [beq_iff_eq] at hafter
    rw [hafter] at hbefore
    cases hbefore

theorem not_candidateStaged_same {after : RlmStore} (h : after.submissions = s.submissions) :
    ¬ CandidateStaged s after q := by
  rintro ⟨x, hx, hnew, -⟩
  rw [h] at hx
  exact hnew hx

theorem slotFinished_markDone {after : RlmStore} {r : RlmJob} {now : Int}
    (hr : (q.jobId, r) ∈ s.db.rlmJobs.rows) (hs : r.status = .claimed)
    (h : after.db.rlmJobs = markDone s.db.rlmJobs q.jobId now) : SlotFinished s after q.jobId := by
  have hdone : (q.jobId, r.finish now) ∈ (markDone s.db.rlmJobs q.jobId now).rows :=
    mem_markDone.mpr ⟨r, hr, (if_pos rfl).symm⟩
  constructor
  · rw [Table.get?_eq_some.mpr hr, Option.any_some, hs]
    rfl
  · rw [h, Table.get?_eq_some.mpr hdone]
    rfl

theorem candidateStaged_insert {db : RlmDb} {nowSecs : Int} :
    CandidateStaged s ⟨db, (insertSubmission s.submissions q.job.project "rlm_node"
      (rlmJobKey q.job.project q.job.level q.job.subject) q.summaryText q.ctxUsername
      nowSecs).1⟩ q := by
  refine ⟨_, List.mem_append_right _ (List.mem_singleton_self _), fun hold => ?_, rfl, rfl, rfl,
    rfl, rfl, rfl⟩
  exact absurd (Table.lt_nextId hold) (Int.lt_irrefl _)

theorem completeRlmJob_unowned {db : RlmDb} {jobId : Int} {worker : String}
    {generation now : Int} (h : (probeClaimed db.rlmJobs jobId).any
      (fun r => completionValid r worker generation now) = false) :
    completeRlmJob db jobId worker generation now = (db, false) := by
  unfold completeRlmJob
  cases hp : probeClaimed db.rlmJobs jobId with
  | none => rfl
  | some r =>
    rw [hp, Option.any_some] at h
    simp [h]

theorem completeRlmJob_owned {db : RlmDb} {jobId : Int} {worker : String} {generation now : Int}
    (h : (probeClaimed db.rlmJobs jobId).any
      (fun r => completionValid r worker generation now) = true) :
    ∃ r, (jobId, r) ∈ db.rlmJobs.rows ∧ r.status = .claimed ∧
      completeRlmJob db jobId worker generation now =
        ({ db with rlmJobs := markDone db.rlmJobs jobId now }, true) := by
  cases hp : probeClaimed db.rlmJobs jobId with
  | none =>
    rw [hp] at h
    cases h
  | some r =>
    rw [hp, Option.any_some] at h
    obtain ⟨hr, hs⟩ := probeClaimed_eq_some.mp hp
    have hcount : db.rlmJobs.count (fun i _ => i == jobId) = 1 := by
      have hone := Table.count_id (q := fun _ => true) hr rfl
      simpa using hone
    refine ⟨r, hr, hs, ?_⟩
    simp [completeRlmJob, hp, h, hcount]

/-- What a request has committed when it is decided or ends: nothing, the slot alone, or the slot
and its candidate. -/
theorem decideQuorumSubmission_cases (env : StagingEnv) (fault : Option StagingStep)
    (s : RlmStore) (q : QuorumSubmission) :
    let result := decideQuorumSubmission env fault s q
    (result.staged = s ∧ ¬ (fault = some .insert ∧ Entitled env s q)) ∨
    ∃ r, (q.jobId, r) ∈ s.db.rlmJobs.rows ∧ r.status = .claimed ∧ Entitled env s q ∧
      result.staged.db = { s.db with rlmJobs := markDone s.db.rlmJobs q.jobId env.now } ∧
      (fault = some .insert ∧ result.staged.submissions = s.submissions ∧
          result.response = .error (.internal "execute insert submission") ∨
        fault ≠ some .insert ∧ CandidateStaged s result.staged q) := by
  intro result
  have hresult : result = decideQuorumSubmission env fault s q := rfl
  unfold decideQuorumSubmission completeOrFail at hresult
  cases hhmac : env.hmacOk q with
  | false =>
    rw [hhmac] at hresult
    refine .inl ⟨by rw [hresult]; rfl, fun h => ?_⟩
    rw [Entitled, hhmac] at h
    exact Bool.false_ne_true h.2.1
  | true =>
    rw [hhmac] at hresult
    by_cases hprobe : fault = some .probe
    · subst hprobe
      refine .inl ⟨by rw [hresult]; rfl, fun h => ?_⟩
      cases h.1
    cases howned : (probeClaimed s.db.rlmJobs q.jobId).any
        (fun r => completionValid r q.ctxUsername q.generation env.now) with
    | false =>
      rw [completeRlmJob_unowned howned, if_neg hprobe] at hresult
      refine .inl ⟨by rw [hresult]; rfl, fun h => ?_⟩
      rw [Entitled, howned] at h
      exact Bool.false_ne_true h.2.2
    | true =>
      obtain ⟨r, hr, hs, hdone⟩ := completeRlmJob_owned howned
      rw [hdone, if_neg hprobe] at hresult
      by_cases hfinish : fault = some .finish
      · subst hfinish
        refine .inl ⟨by rw [hresult]; rfl, fun h => ?_⟩
        cases h.1
      have hgo : (true && fault == some .finish) = false := by simp [hfinish]
      simp only [Bool.not_true, Bool.false_eq_true, if_false, hgo] at hresult
      refine .inr ⟨r, hr, hs, ⟨hhmac, howned⟩, ?_⟩
      by_cases hinsert : fault = some .insert
      · rw [if_pos hinsert] at hresult
        rw [hresult]
        exact ⟨rfl, .inl ⟨hinsert, rfl, rfl⟩⟩
      · rw [if_neg hinsert] at hresult
        rw [hresult]
        exact ⟨rfl, .inr ⟨hinsert, candidateStaged_insert⟩⟩

/-- A request for a slot that is done commits nothing before it ends. -/
theorem staged_of_done {r : RlmJob} (hr : (q.jobId, r) ∈ s.db.rlmJobs.rows)
    (hdone : r.status = .done) : (decideQuorumSubmission env fault s q).staged = s := by
  obtain ⟨hsame, -⟩ | ⟨r', hr', hs', -⟩ := decideQuorumSubmission_cases env fault s q
  · exact hsame
  · rw [Table.eq_of_mem hr hr', hs'] at hdone
    cases hdone

/-- Where the two come apart, the volunteer is answered with an internal error. -/
theorem finished_staged_of_answer
    (h : ∀ m, (decideQuorumSubmission env fault s q).response ≠ .error (.internal m)) :
    SlotFinished s (decideQuorumSubmission env fault s q).staged q.jobId ↔
      CandidateStaged s (decideQuorumSubmission env fault s q).staged q := by
  obtain ⟨hsame, -⟩ | ⟨r, hr, hs, -, hdb, ⟨-, -, hresponse⟩ | ⟨-, hkept⟩⟩ :=
    decideQuorumSubmission_cases env fault s q
  · exact iff_of_false (not_slotFinished_same (congrArg RlmStore.db hsame))
      (not_candidateStaged_same (congrArg RlmStore.submissions hsame))
  · exact absurd hresponse (h _)
  · exact iff_of_true (slotFinished_markDone hr hs (congrArg RlmDb.rlmJobs hdb)) hkept

end Requests

/-- A request marks its slot done exactly if it files its candidate, unless the `INSERT` fails
when the slot is marked already; and no request can mark it again. -/
theorem finished_staged (env : StagingEnv) (fault : Option StagingStep) (s : RlmStore)
    (q : QuorumSubmission) :
    let staged := (decideQuorumSubmission env fault s q).staged
    ((SlotFinished s staged q.jobId ↔ CandidateStaged s staged q) ↔
      ¬ (fault = some .insert ∧ Entitled env s q)) ∧
    (SlotFinished s staged q.jobId → ∀ env' fault' q', q'.jobId = q.jobId →
      (decideQuorumSubmission env' fault' staged q').staged = staged) := by
  intro staged
  have hcases := decideQuorumSubmission_cases env fault s q
  constructor
  · obtain ⟨hsame, hno⟩ | ⟨r, hr, hs, hentitled, hdb, hfiled⟩ := hcases
    · refine iff_of_true (iff_of_false ?_ ?_) hno
      · exact not_slotFinished_same (congrArg RlmStore.db hsame)
      · exact not_candidateStaged_same (congrArg RlmStore.submissions hsame)
    · have hslot : SlotFinished s staged q.jobId :=
        slotFinished_markDone hr hs (congrArg RlmDb.rlmJobs hdb)
      obtain ⟨hinsert, hlost, -⟩ | ⟨hinsert, hkept⟩ := hfiled
      · refine iff_of_false (fun h => ?_) fun h => h ⟨hinsert, hentitled⟩
        exact not_candidateStaged_same hlost (h.mp hslot)
      · exact iff_of_true (iff_of_true hslot hkept) fun h => hinsert h.1
  · rintro ⟨-, hdone⟩ env' fault' q' hq'
    cases hget : staged.db.rlmJobs.get? q.jobId with
    | none =>
      rw [hget] at hdone
      cases hdone
    | some r =>
      rw [hget, Option.any_some, beq_iff_eq] at hdone
      rw [← hq'] at hget
      exact staged_of_done (Table.get?_eq_some.mp hget) hdone

/-! ## A claimed slot -/

/-- One of the three slots of a file, claimed by `v`. -/
def claimedSlot : RlmStore where
  db := (claimRlmJob .rowid (enqueueRlmJob .rowid RlmDb.empty
    ⟨none, "p", 1, "a", "\x7b\x7d", PRIORITY_FRESH, 3⟩ [] 0).1 "v" 500000 none 3 1).1
  submissions := Table.empty

def signedAnswer : QuorumSubmission where
  jobId := 1
  job := (claimedSlot.db.rlmJobs.get? 1).get (by decide +kernel)
  ctxUsername := "v"
  rawToken := "t"
  generation := 0
  summaryText := "summary"
  providedHmac := "t.summary"

def stagingEnv : StagingEnv where
  signRlmSubmission := fun token _ _ text => token ++ "." ++ text
  decideRlmQuorum := decideRlmQuorum pairConfig sampleEnv
  nodeScan := .rowid
  now := 2
  nowSecs := 0

/-- The candidate cannot be inserted: the slot is done, and the volunteer who sends the answer
again is told that the slot is not theirs. -/
theorem finished_staged_lost :
    let first := decideQuorumSubmission stagingEnv (some .insert) claimedSlot signedAnswer
    let again := decideQuorumSubmission stagingEnv none first.store signedAnswer
    first.store.db.rlmJobs.rows.map (fun x => (x.1, x.2.status)) =
        [(1, .done), (2, .pending), (3, .pending)] ∧
      first.store.submissions.rows = [] ∧
      again.response = .ok (.refused "stale lease, wrong worker or cancelled generation") ∧
      again.store.submissions.rows = [] ∧
      ¬ (SlotFinished claimedSlot first.staged 1 ↔
        CandidateStaged claimedSlot first.staged signedAnswer) := by
  decide +kernel

end Arags
