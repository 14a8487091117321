import Arags.Rlm.Decision

/-!
# Arags.Rlm.Publication

Two ways a summary becomes the live node of its subject: a volunteer's own completion in
`grpc/rlm/complete.rs`, and the quorum decision.

* `PublishedAs`       — what a published summary owes to the job it answers: the node, the
  project's reads, its staleness and the cascade.
* `single_completion` — a completion by an administrator gives it.
* `quorum_publication` — no decision that publishes does.
-/

namespace Arags

open Sql

variable (cfg : ServerConfig) (env : DecisionEnv)

def payloadHashes (codec : PayloadCodec) (payload : String) : List String :=
  ((codec.decode payload).map fun p => p.hashes).getD []

/-! ## The single-volunteer path -/

/-- The node that a completion of `job` persists. -/
def completionNode (job : RlmJob) (username summaryText : String)
    (model templateVersion : Option String) (tokenCount : Int) : NewRlmNode where
  bufferId := job.bufferId
  project := job.project
  level := job.level
  subject := job.subject
  summaryText := summaryText
  sourceHashes := payloadHashes env.codec job.payload
  model := model
  volunteerUsername := some username
  createdBy := some username
  templateVersion := templateVersion
  tokenCount := max tokenCount 0

/-- Completion, approval of an administrator's node, cascade. -/
def completeSingle (db : RlmDb) (job : RlmJob) (jobId : Int) (username : String) (isAdmin : Bool)
    (generation : Int) (input : NewRlmNode) : RlmDb × Except String (Option String) :=
  match completeRlmJobWithNode env.nodeScan db jobId username generation input env.freshNodeId
      env.now env.now with
  | (db, .error e) => (db, .error e)
  | (db, .ok none) => (db, .ok none)
  | (db, .ok (some (_, nodeId))) =>
    let nodes :=
      if isAdmin then reviewRlmNode db.rlmNodes nodeId true username env.now else db.rlmNodes
    (cascadeAfter cfg env { db with rlmNodes := nodes } (job.bufferId.getD 0) job.project job.level
      job.subject, .ok (some nodeId))

/-! ## What a published summary owes to its job -/

/-- The rows of a subject that are active. -/
def liveNodes (t : Table RlmNode) (project : String) (level : Int) (subject : String) :
    List (Int × RlmNode) :=
  t.select fun _ n => n.isLive project level subject

/-- One active node, approved, with the buffer and the hashes of the job; the reads of the
project's buffer return it; a report of one of its hashes makes it stale; the cascade ran on
the tables `mid` as they were with the node in place. -/
structure PublishedAs (job : RlmJob) (projectBuffer : Int) (mid after : RlmDb) : Prop where
  node : ∃ i n, liveNodes after.rlmNodes job.project job.level job.subject = [(i, n)] ∧
    n.reviewStatus = .approved ∧ n.bufferId = job.bufferId ∧
    n.sourceHashes = payloadHashes env.codec job.payload ∧
    (i, n) ∈ getApprovedRlmNodes env.nodeScan after.rlmNodes [i] projectBuffer ∧
    (i, n) ∈ searchRlmFts env.nodeScan after.rlmNodes projectBuffer [i] ∧
    ∀ h ∈ payloadHashes env.codec job.payload, ∃ m,
      (i, m) ∈ (markRlmStaleByHashes after.rlmNodes projectBuffer [h]).rows ∧ m.stale = true
  cascade : after = cascadeAfter cfg env mid (job.bufferId.getD 0) job.project job.level job.subject

/-! ## The upsert -/

/-- The revision that an upsert replaces. -/
def priorNode (scan : ScanOrder RlmNode) (t : Table RlmNode) (input : NewRlmNode) :
    Option (Int × RlmNode) :=
  (scan.order (t.select fun _ n => n.isLive input.project input.level input.subject)).head?

def retirePrior (t : Table RlmNode) (prior : Option (Int × RlmNode)) : Table RlmNode :=
  match prior with
  | some (oldId, _) =>
    t.update (fun i n => i == oldId && n.isActive) (fun _ n => { n with isActive := false })
  | none => t

def linkPrior (t : Table RlmNode) (prior : Option (Int × RlmNode)) (newId : Int) : Table RlmNode :=
  match prior with
  | some (oldId, _) =>
    t.update (fun i _ => i == oldId) (fun _ n => { n with supersededBy := some newId })
  | none => t

/-- The row that an upsert inserts. -/
def nodeRow (input : NewRlmNode) (nodeId : String) (prior : Option (Int × RlmNode)) (now : Int) :
    RlmNode where
  nodeId := nodeId
  bufferId := input.bufferId
  project := input.project
  level := input.level
  subject := input.subject
  summaryText := input.summaryText
  sourceHashes := input.sourceHashes
  model := input.model
  volunteerUsername := input.volunteerUsername
  templateVersion := input.templateVersion
  tokenCount := input.tokenCount
  confidence := 1
  reviewStatus := .pending
  reviewedBy := none
  reviewedAt := none
  accessCount := 0
  createdAt := now
  updatedAt := now
  lastAccessedAt := now
  stale := false
  createdBy := input.createdBy
  isActive := true
  supersededBy := none
  epoch := 0
  version := (prior.map fun x => x.2.version + 1).getD 1

theorem upsertNodeStmt_eq (scan : ScanOrder RlmNode) (t : Table RlmNode) (nodeId : String)
    (input : NewRlmNode) (now : Int) :
    upsertNodeStmt scan t nodeId input now =
      let prior := priorNode scan t input
      let retired := retirePrior t prior
      if retired.rows.any (fun x => x.2.nodeId == nodeId) then
        .error "UNIQUE constraint failed: rlm_nodes.node_id"
      else if retired.rows.any
          (fun x => x.2.isLive input.project input.level input.subject) then
        .error "UNIQUE constraint failed: rlm_nodes.project, rlm_nodes.level, rlm_nodes.subject"
      else
        .ok (linkPrior (retired.insert (nodeRow input nodeId prior now)) prior retired.nextId,
          retired.nextId, nodeId) := by
  unfold upsertNodeStmt
  rfl

/-- The node that the upsert leaves as the live one of its subject. -/
structure Upserted (t : Table RlmNode) (nodeId : String) (input : NewRlmNode) (id : Int)
    (node : RlmNode) : Prop where
  live : liveNodes t input.project input.level input.subject = [(id, node)]
  bufferId : node.bufferId = input.bufferId
  sourceHashes : node.sourceHashes = input.sourceHashes
  active : node.isActive = true
  fresh : node.stale = false
  named : node.nodeId = nodeId

theorem liveNodes_update {t : Table RlmNode} {q : Int → RlmNode → Bool}
    {f : Int → RlmNode → RlmNode} {project : String} {level : Int} {subject : String} {i : Int}
    {n : RlmNode}
    (hf : ∀ i n, (f i n).isLive project level subject = n.isLive project level subject)
    (h : liveNodes t project level subject = [(i, n)]) :
    liveNodes (t.update q f) project level subject = [(i, if q i n then f i n else n)] := by
  have hs := Table.select_update_in (t := t) (p := fun _ n => n.isLive project level subject)
    (q := q) (f := f) hf
  unfold liveNodes at h ⊢
  rw [hs, h]
  by_cases hq : q i n = true
  · simp [hq]
  · simp [hq]

theorem liveNodes_insert {t : Table RlmNode} {n : RlmNode} {project : String} {level : Int}
    {subject : String} (ht : ∀ x ∈ t.rows, ¬ x.2.isLive project level subject = true)
    (hn : n.isLive project level subject = true) :
    liveNodes (t.insert n) project level subject = [(t.nextId, n)] := by
  have hs : t.select (fun _ n => n.isLive project level subject) = [] :=
    List.filter_eq_nil_iff.mpr ht
  unfold liveNodes
  rw [Table.select_insert, hs, if_pos hn]
  rfl

theorem upsertNodeStmt_ok {scan : ScanOrder RlmNode} {t t' : Table RlmNode} {nodeId name : String}
    {input : NewRlmNode} {now id : Int}
    (h : upsertNodeStmt scan t nodeId input now = .ok (t', id, name)) :
    name = nodeId ∧ ∃ node, Upserted t' nodeId input id node := by
  rw [upsertNodeStmt_eq] at h
  dsimp only at h
  split at h
  · cases h
  split at h
  · cases h
  rename_i hlive
  simp only [Except.ok.injEq, Prod.mk.injEq] at h
  obtain ⟨rfl, rfl, rfl⟩ := h
  refine ⟨rfl, ?_⟩
  have hidle : ∀ x ∈ (retirePrior t (priorNode scan t input)).rows,
      ¬ x.2.isLive input.project input.level input.subject = true := by
    intro x hx hl
    exact hlive (List.any_eq_true.mpr ⟨x, hx, hl⟩)
  have hins := liveNodes_insert (n := nodeRow input nodeId (priorNode scan t input) now) hidle
    (by simp [RlmNode.isLive, nodeRow])
  cases hp : priorNode scan t input with
  | none =>
    rw [hp] at hins
    exact ⟨_, hins, rfl, rfl, rfl, rfl, rfl⟩
  | some old =>
    rw [hp] at hins
    have hlinked := liveNodes_update (q := fun i _ => i == old.1)
      (f := fun _ n => { n with supersededBy := some (retirePrior t (some old)).nextId })
      (fun _ _ => rfl) hins
    refine ⟨_, hlinked, ?_, ?_, ?_, ?_, ?_⟩ <;> split <;> rfl

/-! ## The quorum's publication -/

theorem publishRlmNodeForSubject_ok {scan : ScanOrder RlmNode} {t t' : Table RlmNode}
    {project : String} {level : Int} {subject summaryText : String} {sourceHashes : List String}
    {volunteer model template : Option String} {decidedBy nodeId name : String} {now id : Int}
    (h : publishRlmNodeForSubject scan t project level subject summaryText sourceHashes volunteer
      model template decidedBy nodeId now = .ok (t', id, name)) :
    ∃ node, liveNodes t' project level subject = [(id, node)] ∧
      node.reviewStatus = .approved ∧ node.bufferId = none ∧ node.sourceHashes = sourceHashes := by
  unfold publishRlmNodeForSubject at h
  dsimp only at h
  split at h
  · cases h
  rename_i nodes rowid stable hup
  obtain ⟨-, node, hnode⟩ := upsertNodeStmt_ok hup
  simp only [Except.ok.injEq, Prod.mk.injEq] at h
  obtain ⟨rfl, rfl, -⟩ := h
  have hlive := liveNodes_update (q := fun i _ => i == rowid) (f := fun _ n => { n with
    reviewStatus := .approved, reviewedBy := some decidedBy, reviewedAt := some now })
    (fun _ _ => rfl) hnode.live
  rw [if_pos (by simp)] at hlive
  exact ⟨_, hlive, rfl, hnode.bufferId, hnode.sourceHashes⟩

/-- The verdicts write the submissions and the trust ledger only. -/
theorem settleCandidates_db (s : RlmStore) (agreeing : List Nat)
    (pending : List (Int × Submission)) (sims : List Rat) :
    (settleCandidates env s agreeing pending sims).db.rlmNodes = s.db.rlmNodes ∧
      (settleCandidates env s agreeing pending sims).db.rlmJobs = s.db.rlmJobs := by
  unfold settleCandidates
  generalize pending.zipIdx = l
  induction l generalizing s with
  | nil => exact ⟨rfl, rfl⟩
  | cons x l ih =>
    rw [List.foldl_cons]
    obtain ⟨hn, hj⟩ := ih (if agreeing.contains x.2 then
      acceptCandidate env s x.1 (some (sims.getD x.2 0))
      else rejectCandidate env s x.1 (some (sims.getD x.2 0)))
    rw [hn, hj]
    split <;> exact ⟨rfl, rfl⟩

theorem publishConsensus_ok {s s' : RlmStore} {project : String} {level : Int} {subject : String}
    {pending : List (Int × Submission)} {vectors : List Embedding} {agreeing : List Nat}
    {winner : Submission}
    (h : publishConsensus env s project level subject pending vectors agreeing winner = .ok s') :
    s'.db.rlmJobs = s.db.rlmJobs ∧
      ∃ id node, liveNodes s'.db.rlmNodes project level subject = [(id, node)] ∧
        node.reviewStatus = .approved ∧ node.bufferId = none ∧ node.sourceHashes = [] := by
  unfold publishConsensus at h
  split at h
  · cases h
  rename_i nodes id name hnode
  cases h
  obtain ⟨node, hlive, hfields⟩ := publishRlmNodeForSubject_ok hnode
  obtain ⟨hn, hj⟩ := settleCandidates_db env ⟨{ s.db with rlmNodes := nodes }, s.submissions⟩
    agreeing pending
    (vectors.map fun v => env.embedder.cosineSimilarity (centroid agreeing vectors) v)
  refine ⟨hj, id, node, ?_, hfields⟩
  rw [hn]
  exact hlive

theorem getRlmNodeBySubject_of_live {scan : ScanOrder RlmNode} {t : Table RlmNode}
    {project : String} {level : Int} {subject : String} {x : Int × RlmNode}
    (h : liveNodes t project level subject = [x]) :
    getRlmNodeBySubject scan t project level subject = some x := by
  unfold getRlmNodeBySubject
  unfold liveNodes at h
  rw [h, List.perm_singleton.mp (scan.perm [x])]
  rfl

/-- Without a buffer on the node there is no cascade. -/
theorem cascadeDecided_of_none {db : RlmDb} {project : String} {level : Int} {subject : String}
    {id : Int} {node : RlmNode} (h : liveNodes db.rlmNodes project level subject = [(id, node)])
    (hb : node.bufferId = none) : cascadeDecided cfg env db project level subject = db := by
  unfold cascadeDecided
  rw [getRlmNodeBySubject_of_live h, Option.bind_some, hb]

/-- A decision that publishes leaves an approved node without buffer and hashes, and runs no
cascade. -/
theorem decideRlmQuorum_accepted {s s' : RlmStore} {project : String} {level : Int}
    {subject text : String} {acceptedIds rejectedIds : List Int}
    (h : decideRlmQuorum cfg env s project level subject =
      (s', .ok (.accepted text acceptedIds rejectedIds)))
    (hpending : listPending env.submissionScan s.submissions project "rlm_node"
      (rlmJobKey project level subject) ≠ []) :
    s'.db.rlmJobs = s.db.rlmJobs ∧
      ∃ id node, liveNodes s'.db.rlmNodes project level subject = [(id, node)] ∧
        node.reviewStatus = .approved ∧ node.bufferId = none ∧ node.sourceHashes = [] := by
  unfold decideRlmQuorum at h
  dsimp only at h
  rw [if_neg (by simpa using hpending)] at h
  split at h
  · cases h
  split at h
  · cases h
  unfold decideGathered at h
  dsimp only at h
  split at h
  · cases h
  split at h
  · cases h
  split at h
  · cases h
  rename_i published hpub
  simp only [Prod.mk.injEq] at h
  obtain ⟨rfl, -⟩ := h
  obtain ⟨hj, id, node, hlive, happroved, hbuffer, hhashes⟩ := publishConsensus_ok env hpub
  dsimp only
  rw [cascadeDecided_of_none cfg env hlive hbuffer]
  exact ⟨hj, id, node, hlive, happroved, hbuffer, hhashes⟩

/-- No decision that publishes gives its subject what the completion of a job gives it. -/
theorem quorum_publication {s s' : RlmStore} {job : RlmJob} {text : String}
    {acceptedIds rejectedIds : List Int}
    (h : decideRlmQuorum cfg env s job.project job.level job.subject =
      (s', .ok (.accepted text acceptedIds rejectedIds)))
    (hpending : listPending env.submissionScan s.submissions job.project "rlm_node"
      (rlmJobKey job.project job.level job.subject) ≠ [])
    (projectBuffer : Int) (mid : RlmDb) : ¬ PublishedAs cfg env job projectBuffer mid s'.db := by
  intro hpub
  obtain ⟨-, id, node, hlive, -, hbuffer, -⟩ := decideRlmQuorum_accepted cfg env h hpending
  obtain ⟨i, n, hone, -, -, -, hread, -⟩ := hpub.node
  rw [hlive, List.singleton_inj] at hone
  cases hone
  have hserved := (Table.mem_select.mp (env.nodeScan.mem_order.mp hread)).2
  simp [RlmNode.servedBy, hbuffer] at hserved

/-- Two volunteers per subject, cascades on. -/
def pairConfig : ServerConfig where
  quorum :=
    { n := 2, quorumSimThreshold := 17 / 20, fusionStrategy := .consensus, strikesLimit := 3 }
  rlmEnabled := true
  l2Tolerance := 3 / 10
  l3Tolerance := 1 / 2

/-- Equal texts have equal vectors, and the cosine of equal vectors is one. -/
def sampleEmbedder : Embedder where
  embedBatch := fun texts => some (texts.map fun t => [t.length])
  cosineSimilarity := fun v w => if v = w then 1 else 0

def sampleEnv : DecisionEnv where
  submissionScan := .rowid
  nodeScan := .rowid
  jobScan := .rowid
  codec := themeCodec
  embedder := sampleEmbedder
  freshNodeId := "n2"
  now := 10
  nowSecs := 0

/-- The theme was fanned out to two volunteers, and both have answered it. -/
def twoCandidates : RlmStore :=
  let fanned :=
    (cascadeRlm themeCodec .rowid .rowid firstSummary 1 "p" 1 "src/a.rs" (3 / 10) 2 2).1
  let ann := (claimRlmJob .rowid fanned "ann" 60000 none 3 3).1
  let bob := (claimRlmJob .rowid ann "bob" 60000 none 3 4).1
  let done := (completeRlmJob (completeRlmJob bob 2 "ann" 0 5).1 3 "bob" 0 6).1
  let first := (insertSubmission .empty "p" "rlm_node" "L2:p:src" "reads files" "ann" 0).1
  ⟨done, (insertSubmission first "p" "rlm_node" "L2:p:src" "reads files" "bob" 0).1⟩

/-- The row of the slot that `ann` answered. -/
def themeSlot : RlmJob where
  jobKey := "L2:p:src#0"
  bufferId := some 1
  project := "p"
  level := 2
  subject := "src"
  payload := payloadJson (themePayload ["h1", "h2", "h3", "h4"] 1)
  generation := 0
  generationGroupId := some 2
  status := .done
  priority := PRIORITY_CASCADE
  claimedBy := some "ann"
  claimedAt := some 3
  leaseExpiresAt := some 60003
  attempts := 1
  lastError := none
  createdAt := 2
  updatedAt := 5

theorem quorum_publication_pair : ¬ PublishedAs pairConfig sampleEnv themeSlot 1 twoCandidates.db
    (decideRlmQuorum pairConfig sampleEnv twoCandidates "p" 2 "src").1.db := by
  have haccepted : decideRlmQuorum pairConfig sampleEnv twoCandidates themeSlot.project
      themeSlot.level themeSlot.subject =
        ((decideRlmQuorum pairConfig sampleEnv twoCandidates "p" 2 "src").1,
          .ok (.accepted "reads files" [1, 2] [])) := Prod.ext rfl (by decide +kernel)
  exact quorum_publication pairConfig sampleEnv haccepted (by decide +kernel) 1 twoCandidates.db

/-- Accepted: the node has neither the buffer nor the hashes of the slots, the project's buffer
does not serve it, and no level-3 work follows. -/
theorem quorum_publication_unserved :
    twoCandidates.db.rlmJobs.get? 2 = some themeSlot ∧
    payloadHashes themeCodec themeSlot.payload = ["h1", "h2", "h3", "h4"] ∧
    (decideRlmQuorum pairConfig sampleEnv twoCandidates "p" 2 "src").2 =
      .ok (.accepted "reads files" [1, 2] []) ∧
    (liveNodes (decideRlmQuorum pairConfig sampleEnv twoCandidates "p" 2 "src").1.db.rlmNodes "p" 2
      "src").map (fun x => (x.1, x.2.bufferId, x.2.sourceHashes)) = [(2, none, [])] ∧
    getApprovedRlmNodes .rowid (decideRlmQuorum pairConfig sampleEnv twoCandidates "p" 2
      "src").1.db.rlmNodes [2] 1 = [] ∧
    liveSlots (decideRlmQuorum pairConfig sampleEnv twoCandidates "p" 2 "src").1.db.rlmJobs "p"
      (3, "p") = [] := by
  decide +kernel

/-! ## The sibling path -/

theorem rebuildParent_nodes (codec : PayloadCodec) (jobScan : ScanOrder RlmJob) (db : RlmDb)
    (bufferId : Int) (project : String) (parent : Int × String)
    (children : List (Int × RlmNode)) (quorumN : Nat) (now : Int) :
    (rebuildParent codec jobScan db bufferId project parent children quorumN now).1.rlmNodes =
      db.rlmNodes := by
  unfold rebuildParent
  split
  · dsimp only
    split <;> rfl
  · exact enqueueRlmJob_nodes ..

theorem parentOf_level {project : String} {level : Int} {subject : String}
    {parent : Int × String} (h : parentOf project level subject = some parent) :
    parent.1 ≠ level := by
  unfold parentOf at h
  split at h
  · cases h
    omega
  split at h
  · cases h
    omega
  · cases h

theorem level_of_live {t : Table RlmNode} {project : String} {level : Int} {subject : String}
    {i : Int} {n : RlmNode} (h : liveNodes t project level subject = [(i, n)]) :
    (i, n) ∈ t.rows ∧ n.level = level := by
  have hm : (i, n) ∈ liveNodes t project level subject := by rw [h]; exact List.mem_singleton_self _
  obtain ⟨hr, hl⟩ := Table.mem_select.mp hm
  simp only [RlmNode.isLive, Bool.and_eq_true, beq_iff_eq] at hl
  exact ⟨hr, hl.1.1.2⟩

/-- A cascade marks a node of another level at most. -/
theorem cascadeAfter_live {db : RlmDb} {bufferId : Int} {project : String} {level : Int}
    {subject : String} {i : Int} {n : RlmNode}
    (h : liveNodes db.rlmNodes project level subject = [(i, n)]) :
    liveNodes (cascadeAfter cfg env db bufferId project level subject).rlmNodes project level
      subject = [(i, n)] := by
  unfold cascadeAfter
  split
  · dsimp only
    rw [cascadeRlm_eq]
    cases hd : dueParent env.nodeScan db.rlmNodes project level subject _ with
    | none => exact h
    | some due =>
      obtain ⟨parent, children⟩ := due
      have hne : parent.1 ≠ level := parentOf_level (parentOf_of_due hd)
      dsimp only
      rw [rebuildParent_nodes]
      dsimp only
      unfold markParent
      split
      · exact h
      split
      · exact h
      · have hl := (level_of_live h).2
        have hmarked := liveNodes_update (f := fun _ n => n.markStale)
          (q := fun _ n => n.bufferId == some bufferId && n.level == parent.1 &&
            n.subject == parent.2 && !n.stale) (fun _ _ => rfl) h
        rw [if_neg (by simp [hl, Ne.symm hne])] at hmarked
        exact hmarked
  · exact h

/-- The approved node of a buffer, before its cascade. -/
structure Approved (n : RlmNode) (bufferId : Int) : Prop where
  buffer : n.bufferId = some bufferId
  approved : n.reviewStatus = .approved
  active : n.isActive = true
  fresh : n.stale = false

theorem Approved.served {n : RlmNode} {bufferId : Int} (h : Approved n bufferId) :
    n.servedBy bufferId = true := by
  simp [RlmNode.servedBy, h.buffer, h.approved, h.active, h.fresh]

/-- A report of one of its hashes makes an approved node stale. -/
theorem Approved.marked {t : Table RlmNode} {i : Int} {n : RlmNode} {bufferId : Int} {hash : String}
    (h : Approved n bufferId) (hr : (i, n) ∈ t.rows) (hh : hash ∈ n.sourceHashes) :
    (i, n.markStale) ∈ (markRlmStaleByHashes t bufferId [hash]).rows := by
  have hit : n.hitBy bufferId [hash] = true := by
    simp [RlmNode.hitBy, h.buffer, h.fresh, hh]
  unfold markRlmStaleByHashes
  rw [if_neg (by simp)]
  exact Table.mem_update.mpr ⟨n, hr, by rw [if_pos hit]⟩

/-- An approved node with the job's buffer and hashes, and then the cascade. -/
theorem publishedAs_of_live {job : RlmJob} {mid : RlmDb} {i : Int} {n : RlmNode}
    {projectBuffer : Int} (hb : job.bufferId = some projectBuffer)
    (hlive : liveNodes mid.rlmNodes job.project job.level job.subject = [(i, n)])
    (hn : Approved n projectBuffer)
    (hh : n.sourceHashes = payloadHashes env.codec job.payload) :
    PublishedAs cfg env job projectBuffer mid
      (cascadeAfter cfg env mid (job.bufferId.getD 0) job.project job.level job.subject) := by
  have hafter : liveNodes (cascadeAfter cfg env mid (job.bufferId.getD 0) job.project job.level
      job.subject).rlmNodes job.project job.level job.subject = [(i, n)] :=
    cascadeAfter_live cfg env hlive
  have hrow := (level_of_live hafter).1
  refine ⟨⟨i, n, hafter, hn.approved, ?_, hh, ?_, ?_, ?_⟩, rfl⟩
  · rw [hn.buffer, hb]
  · exact env.nodeScan.mem_order.mpr (Table.mem_select.mpr ⟨hrow, by simp [hn.served]⟩)
  · exact env.nodeScan.mem_order.mpr (Table.mem_select.mpr ⟨hrow, by simp [hn.served]⟩)
  · intro hash hm
    exact ⟨_, hn.marked hrow (by rw [hh]; exact hm), rfl⟩

theorem Upserted.reviewed {t : Table RlmNode} {nodeId : String} {input : NewRlmNode}
    {id bufferId : Int} {node : RlmNode} (h : Upserted t nodeId input id node)
    (hb : input.bufferId = some bufferId) (reviewer : String) (now : Int) :
    ∃ n, liveNodes (reviewRlmNode t nodeId true reviewer now) input.project input.level
      input.subject = [(id, n)] ∧ Approved n bufferId ∧ n.sourceHashes = input.sourceHashes := by
  have hlive := liveNodes_update (q := fun _ n => n.nodeId == nodeId) (f := fun _ n => { n with
    reviewStatus := .approved, reviewedBy := some reviewer, reviewedAt := some now
    confidence := n.confidence }) (fun _ _ => rfl) h.live
  rw [if_pos (by simp [h.named])] at hlive
  exact ⟨_, hlive, ⟨h.bufferId.trans hb, rfl, h.active, h.fresh⟩, h.sourceHashes⟩

/-- The completion of an administrator gives its subject all of it. -/
theorem single_completion {db db' : RlmDb} {job : RlmJob} {jobId generation tokenCount : Int}
    {username summaryText nodeId : String} {model templateVersion : Option String}
    {projectBuffer : Int} (hb : job.bufferId = some projectBuffer)
    (h : completeSingle cfg env db job jobId username true generation
      (completionNode env job username summaryText model templateVersion tokenCount) =
        (db', .ok (some nodeId))) : ∃ mid, PublishedAs cfg env job projectBuffer mid db' := by
  unfold completeSingle at h
  split at h
  · cases h
  · cases h
  rename_i hdone
  simp only [Prod.mk.injEq, Except.ok.injEq, Option.some.injEq] at h
  obtain ⟨rfl, rfl⟩ := h
  unfold completeRlmJobWithNode at hdone
  split at hdone
  · cases hdone
  split at hdone
  · cases hdone
  split at hdone
  · cases hdone
  rename_i hup
  simp only [Prod.mk.injEq, Except.ok.injEq, Option.some.injEq] at hdone
  obtain ⟨rfl, rfl⟩ := hdone
  obtain ⟨rfl, node, hnode⟩ := upsertNodeStmt_ok hup
  obtain ⟨n, hlive, happroved, hh⟩ := hnode.reviewed hb username env.now
  exact ⟨_, publishedAs_of_live cfg env hb hlive happroved hh⟩

end Arags
