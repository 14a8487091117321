import Arags.Rlm.Cascade
import Arags.Rlm.Consensus

/-!
# Arags.Rlm.Decision

The quorum decision of `quorum.rs` on the stored candidates of a subject.

* `reassignRlmOnDivergence` — a new round of slots after a total divergence.
* `decideRlmQuorum`         — gather, compare, publish, settle the candidates, cascade.
* `cascadeAfter`            — the cascade as `handle_complete_rlm_job` runs it after a node.
-/

namespace Arags

open Sql

structure ServerConfig where
  quorum : QuorumConfig
  rlmEnabled : Bool
  l2Tolerance : Rat
  l3Tolerance : Rat
  deriving Repr

/-- What a decision takes from outside: scan orders, codec, model, a fresh node id, clocks. -/
structure DecisionEnv where
  submissionScan : ScanOrder Submission
  nodeScan : ScanOrder RlmNode
  jobScan : ScanOrder RlmJob
  codec : PayloadCodec
  embedder : Embedder
  freshNodeId : String
  now : Int
  nowSecs : Int

structure RlmStore where
  db : RlmDb
  submissions : Table Submission

inductive QuorumDecision where
  | pending
  | accepted (fusedText : String) (acceptedIds rejectedIds : List Int)
  | rejected (rejectedIds : List Int)
  deriving DecidableEq, Repr

variable (cfg : ServerConfig) (env : DecisionEnv)

/-! ## Reassignment -/

/-- `as u32`. -/
def asU32 (i : Int) : Nat := (i % 4294967296).toNat

/-- `SELECT COALESCE(MAX(generation), 0) FROM rlm_jobs WHERE …`. -/
def maxGeneration (t : Table RlmJob) (project : String) (level : Int) (subject : String) : Int :=
  (((t.select fun _ r => r.isAbout project level subject).map fun x => x.2.generation).max?).getD 0

/-- `SELECT buffer_id, payload … ORDER BY id DESC LIMIT 1`, or an empty payload. -/
def lastPayload (t : Table RlmJob) (project : String) (level : Int) (subject : String) :
    Option Int × String :=
  ((firstBy (fun x y => decide (y.1 < x.1)) (t.select fun _ r => r.isAbout project level
    subject)).map fun x => (x.2.bufferId, x.2.payload)).getD (none, "\x7b\x7d")

/-- The caps under which a diverged subject is left for human review. -/
def reassignExhausted (db : RlmDb) (project : String) (level : Int) (subject : String)
    (divergers : List String) : Bool :=
  let banned := (db.volunteerTrust.filter fun vt =>
    decide (cfg.quorum.strikesLimit ≤ asU32 vt.strikes)).map fun vt => vt.username
  let known := db.volunteerTrust.map fun vt => vt.username
  let available := known.filter fun v => !banned.contains v && !divergers.contains v
  decide (cfg.quorum.strikesLimit ≤ asU32 (maxGeneration db.rlmJobs project level subject)) ||
    (!divergers.isEmpty && decide (max cfg.quorum.n 1 ≤ known.length) && available.isEmpty)

def reassignRlmOnDivergence (db : RlmDb) (project : String) (level : Int) (subject : String)
    (divergers : List String) : RlmDb :=
  if reassignExhausted cfg db project level subject divergers then db
  else
    let last := lastPayload db.rlmJobs project level subject
    let job : NewRlmJob := {
      bufferId := last.1
      project := project
      level := level
      subject := subject
      payload := last.2
      priority := PRIORITY_RETRY
      quorumSlots := max cfg.quorum.n 1 }
    (enqueueRlmJob env.jobScan db job divergers env.now).1

/-! ## Verdicts -/

def acceptCandidate (s : RlmStore) (x : Int × Submission) (similarity : Option Rat) : RlmStore where
  db := { s.db with volunteerTrust := bumpTrustOnAccept s.db.volunteerTrust x.2.candidateBy }
  submissions := acceptSubmission s.submissions x.1 "quorum" similarity env.nowSecs

def rejectCandidate (s : RlmStore) (x : Int × Submission) (similarity : Option Rat) : RlmStore where
  db := { s.db with volunteerTrust := recordStrike s.db.volunteerTrust x.2.candidateBy }
  submissions := rejectSubmission s.submissions x.1 "quorum" similarity env.nowSecs

/-- Accept the members of the agreeing set, reject the others. -/
def settleCandidates (s : RlmStore) (agreeing : List Nat) (pending : List (Int × Submission))
    (sims : List Rat) : RlmStore :=
  pending.zipIdx.foldl (fun s x =>
    if agreeing.contains x.2 then acceptCandidate env s x.1 (some (sims.getD x.2 0))
    else rejectCandidate env s x.1 (some (sims.getD x.2 0))) s

def rejectAll (s : RlmStore) (pending : List (Int × Submission)) : RlmStore :=
  pending.foldl (fun s x => rejectCandidate env s x none) s

/-! ## Cascade -/

/-- The cascade that follows a node: below level 3, with the tolerance of the parent level. -/
def cascadeAfter (db : RlmDb) (bufferId : Int) (project : String) (level : Int)
    (subject : String) : RlmDb :=
  if cfg.rlmEnabled && decide (level < 3) then
    let tolerance := if level = 1 then cfg.l2Tolerance else cfg.l3Tolerance
    (cascadeRlm env.codec env.nodeScan env.jobScan db bufferId project level subject tolerance
      (max cfg.quorum.n 1) env.now).1
  else db

/-- The quorum takes the buffer from the node it has just published. -/
def cascadeDecided (db : RlmDb) (project : String) (level : Int) (subject : String) : RlmDb :=
  match (getRlmNodeBySubject env.nodeScan db.rlmNodes project level subject).bind
      fun x => x.2.bufferId with
  | some bufferId => cascadeAfter cfg env db bufferId project level subject
  | none => db

/-! ## Decision -/

/-- The node, then the verdict on each candidate. -/
def publishConsensus (s : RlmStore) (project : String) (level : Int) (subject : String)
    (pending : List (Int × Submission)) (vectors : List Embedding) (agreeing : List Nat)
    (winner : Submission) : Except String RlmStore :=
  match publishRlmNodeForSubject env.nodeScan s.db.rlmNodes project level subject
      winner.candidateText [] (some winner.candidateBy) none none "quorum" env.freshNodeId
      env.now with
  | .error e => .error e
  | .ok (nodes, _, _) =>
    let fused := centroid agreeing vectors
    let sims := vectors.map fun v => env.embedder.cosineSimilarity fused v
    .ok (settleCandidates env { s with db := { s.db with rlmNodes := nodes } } agreeing pending
      sims)

def decideGathered (s : RlmStore) (project : String) (level : Int) (subject : String)
    (pending : List (Int × Submission)) (vectors : List Embedding) :
    RlmStore × Except String QuorumDecision :=
  let agreeing := agreeingSet env.embedder cfg.quorum vectors
  if agreeing.isEmpty || decide (agreeing.length < minClique (max cfg.quorum.n 1)) then
    let rejected := rejectAll env s pending
    let divergers := (pending.map fun x => x.2.candidateBy).eraseDups
    let db := reassignRlmOnDivergence cfg env rejected.db project level subject divergers
    ({ rejected with db := db }, .ok (.rejected (pending.map Prod.fst)))
  else
    match pending[choosePublished env.embedder cfg.quorum agreeing pending vectors
        s.db.volunteerTrust]? with
    | none => (s, .error "index out of bounds")
    | some winner =>
      match publishConsensus env s project level subject pending vectors agreeing winner.2 with
      | .error e => (s, .error e)
      | .ok published =>
        let ids := fun keep => (pending.zipIdx.filter fun x => agreeing.contains x.2 == keep).map
          fun x => x.1.1
        ({ published with db := cascadeDecided cfg env published.db project level subject },
          .ok (.accepted winner.2.candidateText (ids true) (ids false)))

def decideRlmQuorum (s : RlmStore) (project : String) (level : Int) (subject : String) :
    RlmStore × Except String QuorumDecision :=
  let key := rlmJobKey project level subject
  let pending := listPending env.submissionScan s.submissions project "rlm_node" key
  if pending.isEmpty then
    match listByStatus .accepted env.submissionScan s.submissions project "rlm_node" key with
    | win :: _ => (s, .ok (.accepted win.2.candidateText [win.1] []))
    | [] => (s, .ok (.rejected []))
  else if pending.length < max cfg.quorum.n 1 then (s, .ok .pending)
  else
    match env.embedder.embedBatch (pending.map fun x => x.2.candidateText) with
    | none => (s, .ok .pending)
    | some vectors => decideGathered cfg env s project level subject pending vectors

end Arags
