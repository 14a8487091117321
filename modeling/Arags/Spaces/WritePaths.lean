import Arags.Qa.NearHit
import Arags.Rlm.NodeCuts
import Arags.Spaces.EmbedTexts
import Arags.Spaces.PendingVectors

/-!
# Arags.Spaces.WritePaths

The four handlers that write an answer, a map or a node, with what they do about its vector. Each
has a fall-back of its own for an embedding that does not arrive.

* `VectorSide.hydrate` — embed, insert, and mark the row when the handler sees the step fail.
* `storeMarks`, `persistMarks`, `completeMarks`, `quorumMarks` — what each handler sees.
* `runRecordCall` — a handler call; its result is the row it wrote.
* `record_covered` — when that row has a vector or a mark.
-/

namespace Arags

open Sql

/-- What the embedding step comes to. An embedder may return a vector without components. -/
inductive EmbedOutcome (ε : Type) where
  | vector (v : ε) (insert : InsertOutcome)
  | empty
  | error
  | panicked

/-- The vector is in the space. -/
def EmbedOutcome.lands {ε : Type} : EmbedOutcome ε → Bool
  | .vector _ .inserted => true
  | _ => false

/-- An older vector under the row id is gone, and there is no new one. -/
def EmbedOutcome.drops {ε : Type} : EmbedOutcome ε → Bool
  | .vector _ .lost => true
  | _ => false

section Hydrate

variable {ε : Type}

/-- A new row is `indexed`. -/
def VectorSide.newRow (s : VectorSide ε) (id : Int) : VectorSide ε :=
  { s with pending := s.pending.filter fun i => i != id }

/-- The insert, and the mark if `marks`. A vector without components is refused by any space. -/
def VectorSide.hydrate (s : VectorSide ε) (id : Int) (out : EmbedOutcome ε) (marks : Bool)
    (mark : List Int → List Int) : VectorSide ε :=
  let tried := match out with
    | .vector v insert => s.insert id v insert
    | _ => s
  if marks then { tried with pending := mark tried.pending } else tried

/-- The row can be found by its vector, or a reconcile pass will see it. -/
def VectorSide.Covers (s : VectorSide ε) (id : Int) : Prop := id ∈ s.vectors ∨ id ∈ s.pending

instance (s : VectorSide ε) (id : Int) : Decidable (s.Covers id) :=
  inferInstanceAs (Decidable (id ∈ s.vectors ∨ id ∈ s.pending))

/-- `embed_query` keeps the vector whatever it is; its insert is the only failure that is seen. -/
def storeMarks : EmbedOutcome ε → Bool
  | .vector _ .inserted => false
  | .vector _ _ => true
  | .empty => true
  | .error => false
  | .panicked => false

/-- `embed_lenient` drops a vector without components. -/
def persistMarks : EmbedOutcome ε → Bool
  | .vector _ .inserted => false
  | .vector _ _ => true
  | .empty => false
  | .error => false
  | .panicked => false

def completeMarks : EmbedOutcome ε → Bool
  | .vector _ .inserted => false
  | .vector _ _ => true
  | .empty => true
  | .error => true
  | .panicked => true

/-- Every branch only logs. -/
def quorumMarks (_ : EmbedOutcome ε) : Bool := false

end Hydrate

/-! ## The handlers -/

/-- The records, and the three spaces beside them. -/
structure RecordDb (ε : Type) where
  index : IndexDb
  qa : Table QaCacheRow
  rlm : RlmStore
  maps : ExplorationDb
  questionSide : VectorSide ε
  nodeSide : VectorSide ε
  mapSide : VectorSide ε

structure RecordEnv where
  query : QueryEnv
  decision : DecisionEnv
  cfg : ServerConfig
  mapScan : ScanOrder ExplorationRow
  chunkScan : ScanOrder Chunk
  explorationsEnabled : Bool
  /-- Which spaces are open. -/
  opened : Space → Bool

section Handlers

variable {ε : Type} (env : RecordEnv)

/-- `Some(store)`, or nothing is done. -/
def hydrateIn (space : Space) (s : VectorSide ε) (id : Int) (out : EmbedOutcome ε) (marks : Bool)
    (mark : List Int → List Int) : VectorSide ε :=
  if env.opened space then (s.newRow id).hydrate id out marks mark else s.newRow id

def StoreAnswerRequest.input (req : StoreAnswerRequest) (buffers : SeqTable Buffer) :
    StoreAnswerInput where
  bufferId := resolveBuffer buffers req.project req.bufferId
  project := req.project
  questionText := req.question
  questionHash := questionHash env.query req.question
  answerText := req.answer
  sourceChunkIds := req.sourceChunkIds
  sourceHashes := req.sourceHashes

def storeAnswerCall (s : RecordDb ε) (req : StoreAnswerRequest) (cacheId : String) (now : Int)
    (out : EmbedOutcome ε) : RecordDb ε × Except String (Option Int) :=
  if Text.isBlank req.project then (s, .error "project is required")
  else if Text.isBlank req.question then (s, .error "question is required")
  else if Text.isBlank req.answer then (s, .error "answer is required")
  else
    let stored := storeAnswer env.query.scan s.qa (req.input env s.index.buffers) cacheId now
    let side := hydrateIn env .question s.questionSide stored.2 out (storeMarks out)
      fun marked => markQaCachePendingVector stored.1 marked [stored.2]
    ({ s with qa := stored.1, questionSide := side }, .ok (some stored.2))

/-- The buffer that the map is filed under. -/
def projectBuffer (index : IndexDb) (project : String) : Option Int :=
  ((index.buffers.select fun _ r => r.name == project).head?).map Prod.fst

def persistExplorationCall (s : RecordDb ε) (req : PersistExplorationRequest) (username : String)
    (gate : ReviewGate) (explorationId : String) (now : Int) (out : EmbedOutcome ε) :
    RecordDb ε × Except String (Option Int) :=
  match handlePersistExploration env.mapScan env.chunkScan env.explorationsEnabled s.index
      s.maps req username gate explorationId now with
  | (maps, .error e) => ({ s with maps := maps }, .error e)
  | (maps, .ok (id, _, _)) =>
    let bufferId := (projectBuffer s.index req.project).getD 0
    let side := hydrateIn env .map s.mapSide id out (persistMarks out)
      fun marked => markExplorationsPendingVector maps.explorations marked bufferId [id]
    ({ s with maps := maps, mapSide := side }, .ok (some id))

/-- The path of one volunteer, or of an administrator. -/
def completeCall (s : RecordDb ε) (jobId : Int) (username : String) (isAdmin : Bool)
    (generation : Int) (summaryText : String) (model templateVersion : Option String)
    (tokenCount : Int) (out : EmbedOutcome ε) : RecordDb ε × Except String (Option Int) :=
  if Text.isBlank summaryText then (s, .error "summary_text is required")
  else
    match s.rlm.db.rlmJobs.get? jobId with
    | none => (s, .error "unknown job_id")
    | some job =>
      let input := completionNode env.decision job username (Text.trim summaryText) model
        templateVersion tokenCount
      match completeRlmJobWithNode env.decision.nodeScan s.rlm.db jobId username generation input
          env.decision.freshNodeId env.decision.now env.decision.now with
      | (db, .error e) => ({ s with rlm := { s.rlm with db := db } }, .error e)
      | (db, .ok none) => ({ s with rlm := { s.rlm with db := db } }, .ok none)
      | (db, .ok (some (id, nodeId))) =>
        let nodes := if isAdmin then
          reviewRlmNode db.rlmNodes nodeId true username env.decision.now else db.rlmNodes
        let bufferId := job.bufferId.getD 0
        let side := hydrateIn env .node s.nodeSide id out (completeMarks out)
          fun marked => markRlmNodesPendingVector nodes marked bufferId [id]
        let cascaded := cascadeAfter env.cfg env.decision { db with rlmNodes := nodes } bufferId
          job.project job.level job.subject
        ({ s with rlm := { s.rlm with db := cascaded }, nodeSide := side }, .ok (some id))

/-- `decide_rlm_quorum` from the publication on: node, verdicts, vector, cascade. -/
def quorumPublishCall (s : RecordDb ε) (project : String) (level : Int) (subject : String)
    (pending : List (Int × Submission)) (vectors : List Embedding) (agreeing : List Nat)
    (winner : Submission) (out : EmbedOutcome ε) : RecordDb ε × Except String (Option Int) :=
  match publishRlmNodeForSubject env.decision.nodeScan s.rlm.db.rlmNodes project level subject
      winner.candidateText [] (some winner.candidateBy) none none "quorum"
      env.decision.freshNodeId env.decision.now with
  | .error e => (s, .error e)
  | .ok (nodes, id, _) =>
    let fused := centroid agreeing vectors
    let sims := vectors.map fun v => env.decision.embedder.cosineSimilarity fused v
    let settled := settleCandidates env.decision
      { s.rlm with db := { s.rlm.db with rlmNodes := nodes } } agreeing pending sims
    let side := hydrateIn env .node s.nodeSide id out (quorumMarks out) fun marked => marked
    let cascaded := cascadeDecided env.cfg env.decision settled.db project level subject
    ({ s with rlm := { settled with db := cascaded }, nodeSide := side }, .ok (some id))

inductive RecordCall where
  | storeAnswer (req : StoreAnswerRequest) (cacheId : String) (now : Int)
  | persistExploration (req : PersistExplorationRequest) (username : String) (gate : ReviewGate)
      (explorationId : String) (now : Int)
  | complete (jobId : Int) (username : String) (isAdmin : Bool) (generation : Int)
      (summaryText : String) (model templateVersion : Option String) (tokenCount : Int)
  | quorumPublish (project : String) (level : Int) (subject : String)
      (pending : List (Int × Submission)) (vectors : List Embedding) (agreeing : List Nat)
      (winner : Submission)

/-- The state after a call, and the id of the row it wrote. -/
def runRecordCall (s : RecordDb ε) (out : EmbedOutcome ε) :
    RecordCall → RecordDb ε × Except String (Option Int)
  | .storeAnswer req cacheId now => storeAnswerCall env s req cacheId now out
  | .persistExploration req username gate explorationId now =>
    persistExplorationCall env s req username gate explorationId now out
  | .complete jobId username isAdmin generation summaryText model templateVersion tokenCount =>
    completeCall env s jobId username isAdmin generation summaryText model templateVersion
      tokenCount out
  | .quorumPublish project level subject pending vectors agreeing winner =>
    quorumPublishCall env s project level subject pending vectors agreeing winner out

/-! ## Against the handlers without vectors -/

/-- The answers are those of `handleStoreAnswer`. -/
theorem storeAnswerCall_qa (space : QuestionSpace ε) (s : RecordDb ε) (req : StoreAnswerRequest)
    (cacheId : String) (now : Int) (out : EmbedOutcome ε) (inserted : Bool)
    (vectors : AList fun _ : Int => ε) :
    (storeAnswerCall env s req cacheId now out).1.qa =
      (handleStoreAnswer env.query space ⟨s.index, s.qa, vectors⟩ req cacheId now
        inserted).1.qa := by
  unfold storeAnswerCall handleStoreAnswer
  split
  · rfl
  split
  · rfl
  split <;> rfl

/-- The jobs and nodes are those of `completeSingle`. -/
theorem completeCall_db (s : RecordDb ε) {jobId : Int} {job : RlmJob} (username : String)
    (isAdmin : Bool) (generation : Int) {summaryText : String}
    (model templateVersion : Option String) (tokenCount : Int) (out : EmbedOutcome ε)
    (ht : Text.isBlank summaryText = false) (hjob : s.rlm.db.rlmJobs.get? jobId = some job) :
    (completeCall env s jobId username isAdmin generation summaryText model templateVersion
        tokenCount out).1.rlm.db =
      (completeSingle env.cfg env.decision s.rlm.db job jobId username isAdmin generation
        (completionNode env.decision job username (Text.trim summaryText) model templateVersion
          tokenCount)).1 := by
  unfold completeCall completeSingle
  rw [if_neg (by simp [ht]), hjob]
  dsimp only
  generalize completeRlmJobWithNode env.decision.nodeScan s.rlm.db jobId username generation
    _ _ _ _ = done
  obtain ⟨db, e | (_ | ⟨id, nodeId⟩)⟩ := done
  · rfl
  · rfl
  · rfl

/-- The store is that of `publishConsensus` and the cascade after it. -/
theorem quorumPublishCall_rlm (s : RecordDb ε) {published : RlmStore} {project : String}
    {level : Int} {subject : String} {pending : List (Int × Submission)}
    {vectors : List Embedding} {agreeing : List Nat} {winner : Submission} (out : EmbedOutcome ε)
    (h : publishConsensus env.decision s.rlm project level subject pending vectors agreeing winner =
      .ok published) :
    (quorumPublishCall env s project level subject pending vectors agreeing winner out).1.rlm =
      { published with
        db := cascadeDecided env.cfg env.decision published.db project level subject } := by
  unfold publishConsensus at h
  unfold quorumPublishCall
  generalize publishRlmNodeForSubject env.decision.nodeScan s.rlm.db.rlmNodes project level subject
    winner.candidateText [] (some winner.candidateBy) none none "quorum" env.decision.freshNodeId
    env.decision.now = done at h ⊢
  obtain e | ⟨nodes, id, nodeId⟩ := done
  · cases h
  · cases h
    rfl

end Handlers

/-! ## What a call leaves behind -/

section Covered

variable {ε : Type} {env : RecordEnv}

def RecordCall.space : RecordCall → Space
  | .storeAnswer .. => .question
  | .persistExploration .. => .map
  | .complete .. => .node
  | .quorumPublish .. => .node

/-- The row is there and active. -/
def RecordDb.HasActive (s : RecordDb ε) (id : Int) : RecordCall → Prop
  | .storeAnswer .. => ∃ r, (id, r) ∈ s.qa.rows ∧ r.isActive = true
  | .persistExploration .. => ∃ r, (id, r) ∈ s.maps.explorations.rows ∧ r.isActive = true
  | .complete .. => ∃ n, (id, n) ∈ s.rlm.db.rlmNodes.rows ∧ n.isActive = true
  | .quorumPublish .. => ∃ n, (id, n) ∈ s.rlm.db.rlmNodes.rows ∧ n.isActive = true

/-- The space of a record, with its marks. -/
def RecordDb.side (s : RecordDb ε) : RecordCall → VectorSide ε
  | .storeAnswer .. => s.questionSide
  | .persistExploration .. => s.mapSide
  | .complete .. => s.nodeSide
  | .quorumPublish .. => s.nodeSide

/-- The row id that the table of a call gives next. -/
def RecordDb.nextRow (s : RecordDb ε) : RecordCall → Int
  | .storeAnswer .. => s.qa.nextId
  | .persistExploration .. => s.maps.explorations.nextId
  | .complete .. => s.rlm.db.rlmNodes.nextId
  | .quorumPublish .. => s.rlm.db.rlmNodes.nextId

/-- The handler marks the row after such an embedding, and the mark finds it. A completion marks
the rows of the job's buffer, or of buffer 0, and a `NULL` buffer is neither. -/
def fallsBack (s : RecordDb ε) (out : EmbedOutcome ε) : RecordCall → Bool
  | .storeAnswer .. => storeMarks out
  | .persistExploration .. => persistMarks out
  | .complete jobId _ _ _ _ _ _ _ =>
    completeMarks out && (s.rlm.db.rlmJobs.get? jobId).any fun job => job.bufferId.isSome
  | .quorumPublish .. => false

/-- The space is open and the vector arrives or the handler falls back; or the space has a vector
under the next row id, which the call does not remove. -/
def Recovers (env : RecordEnv) (s : RecordDb ε) (out : EmbedOutcome ε) (call : RecordCall) : Prop :=
  (env.opened call.space = true ∧ (out.lands = true ∨ fallsBack s out call = true)) ∨
    (s.nextRow call ∈ (s.side call).vectors ∧
      ¬ (env.opened call.space = true ∧ out.drops = true))

theorem hydrateIn_covers (env : RecordEnv) (space : Space) (s : VectorSide ε) {id : Int}
    (out : EmbedOutcome ε) (marks : Bool) {mark : List Int → List Int} (hits : Prop)
    (hmark : ∀ l, id ∉ l → (id ∈ mark l ↔ hits)) :
    (hydrateIn env space s id out marks mark).Covers id ↔
      (env.opened space = true ∧ (out.lands = true ∨ (marks = true ∧ hits))) ∨
        (id ∈ s.vectors ∧ ¬ (env.opened space = true ∧ out.drops = true)) := by
  have hnew : id ∉ (s.newRow id).pending := by simp [VectorSide.newRow]
  have hvec : (s.newRow id).vectors = s.vectors := rfl
  unfold hydrateIn
  cases env.opened space with
  | false => simp [VectorSide.Covers, hnew, hvec]
  | true =>
    have hm := hmark _ hnew
    cases out with
    | vector v insert =>
      cases insert <;> cases marks <;>
        simp [VectorSide.hydrate, VectorSide.Covers, VectorSide.insert, EmbedOutcome.lands,
          EmbedOutcome.drops, hm, hnew, hvec, or_comm]
    | empty | error | panicked =>
      cases marks <;>
        simp [VectorSide.hydrate, VectorSide.Covers, EmbedOutcome.lands, EmbedOutcome.drops, hm,
          hnew, hvec, or_comm]

/-! ### The row of each call -/

theorem storeAnswer_new (scan : ScanOrder QaCacheRow) (t : Table QaCacheRow)
    (input : StoreAnswerInput) (cacheId : String) (now : Int) :
    (storeAnswer scan t input cacheId now).2 = t.nextId ∧
      ∃ r, (t.nextId, r) ∈ (storeAnswer scan t input cacheId now).1.rows ∧ r.isActive = true := by
  unfold storeAnswer
  split
  · rename_i oldId old _
    dsimp only
    rw [nextId_update]
    refine ⟨rfl, _, Table.mem_update.mpr ⟨_, Table.mem_insert.mpr (.inr ⟨?_, rfl⟩), rfl⟩, ?_⟩
    · rw [nextId_update]
    · split <;> rfl
  · exact ⟨rfl, _, Table.mem_insert.mpr (.inr ⟨rfl, rfl⟩), rfl⟩

theorem persistExploration_new {scan : ScanOrder ExplorationRow} {db db' : ExplorationDb}
    {input : PersistExplorationInput} {explorationId : String} {now id : Int}
    (h : persistExploration scan db input explorationId now = .ok (db', id)) :
    id = db.explorations.nextId ∧ ∃ m, (id, m) ∈ db'.explorations.rows ∧ m.isActive = true ∧
      m.bufferId = input.bufferId := by
  have hrow := (persistExploration_ok h).row id
  refine ⟨?_, _, (hrow _).mpr (.inl ⟨rfl, rfl⟩), rfl, rfl⟩
  unfold persistExploration at h
  dsimp only at h
  split at h
  · cases h
  split at h
  · cases h
  cases h
  exact nextId_update _ _ _

theorem handlePersistExploration_new {scan : ScanOrder ExplorationRow}
    {chunkScan : ScanOrder Chunk} {enabled : Bool} {index : IndexDb} {db db' : ExplorationDb}
    {req : PersistExplorationRequest} {username : String} {gate : ReviewGate}
    {explorationId text : String} {paths : List String} {now id : Int}
    (h : handlePersistExploration scan chunkScan enabled index db req username gate explorationId
      now = (db', .ok (id, text, paths))) :
    id = db.explorations.nextId ∧ ∃ m, (id, m) ∈ db'.explorations.rows ∧ m.isActive = true ∧
      m.bufferId = some ((projectBuffer index req.project).getD 0) := by
  obtain ⟨e, he⟩ | ⟨bufferId, _, stored, newId, hproject, hstored, he⟩ :=
    handlePersistExploration_cases scan chunkScan enabled index db req username gate explorationId
      now
  · rw [he] at h
    cases h
  rw [he] at h
  cases h
  obtain ⟨hid, m, hm, hactive, hbuffer⟩ := persistExploration_new hstored
  have hb : (projectBuffer index req.project).getD 0 = bufferId := by
    unfold projectBuffer
    rw [hproject]
    rfl
  rw [hb]
  refine ⟨hid, ?_⟩
  split
  · refine ⟨_, Table.mem_update.mpr ⟨m, hm, rfl⟩, ?_⟩
    split <;> exact ⟨hactive, hbuffer⟩
  · exact ⟨m, hm, hactive, hbuffer⟩

/-- The node of an upsert is under the next row id. -/
theorem upsertNodeStmt_id {scan : ScanOrder RlmNode} {t t' : Table RlmNode} {nodeId name : String}
    {input : NewRlmNode} {now id : Int}
    (h : upsertNodeStmt scan t nodeId input now = .ok (t', id, name)) : id = t.nextId := by
  rw [upsertNodeStmt_eq] at h
  dsimp only at h
  split at h
  · cases h
  split at h
  · cases h
  simp only [Except.ok.injEq, Prod.mk.injEq] at h
  rw [← h.2.1]
  exact retirePrior_nextId _

theorem live_row {t : Table RlmNode} {project : String} {level : Int} {subject : String} {id : Int}
    {n : RlmNode} (h : liveNodes t project level subject = [(id, n)]) :
    (id, n) ∈ t.rows ∧ n.isActive = true := by
  have hm : (id, n) ∈ liveNodes t project level subject := by
    rw [h]
    exact List.mem_singleton_self _
  obtain ⟨hr, hl⟩ := Table.mem_select.mp hm
  simp only [RlmNode.isLive, Bool.and_eq_true] at hl
  exact ⟨hr, hl.2⟩

/-! ### The calls -/

variable {s s' : RecordDb ε} {out : EmbedOutcome ε} {id : Int}

theorem storeAnswerCall_covers {req : StoreAnswerRequest} {cacheId : String} {now : Int}
    (h : storeAnswerCall env s req cacheId now out = (s', .ok (some id))) :
    s'.HasActive id (.storeAnswer req cacheId now) ∧
      ((s'.side (.storeAnswer req cacheId now)).Covers id ↔
        Recovers env s out (.storeAnswer req cacheId now)) := by
  unfold storeAnswerCall at h
  split at h
  · cases h
  split at h
  · cases h
  split at h
  · cases h
  simp only [Prod.mk.injEq, Except.ok.injEq, Option.some.injEq] at h
  obtain ⟨rfl, rfl⟩ := h
  obtain ⟨hid, r, hr, hactive⟩ := storeAnswer_new env.query.scan s.qa
    (req.input env s.index.buffers) cacheId now
  refine ⟨⟨r, ?_, hactive⟩, ?_⟩
  · rw [hid]
    exact hr
  · refine (hydrateIn_covers env .question s.questionSide out (storeMarks out) True
      fun l hl => ?_).trans ?_
    · show _ ∈ markPending _ l _ ↔ True
      rw [mem_markPending]
      refine iff_true_intro (.inr ⟨List.mem_singleton_self _, ?_⟩)
      rw [hid, isAnswer, Table.get?_eq_some.mpr hr]
      rfl
    · rw [hid, and_true]
      rfl

theorem persistExplorationCall_covers {req : PersistExplorationRequest} {username : String}
    {gate : ReviewGate} {explorationId : String} {now : Int}
    (h : persistExplorationCall env s req username gate explorationId now out =
      (s', .ok (some id))) :
    s'.HasActive id (.persistExploration req username gate explorationId now) ∧
      ((s'.side (.persistExploration req username gate explorationId now)).Covers id ↔
        Recovers env s out (.persistExploration req username gate explorationId now)) := by
  unfold persistExplorationCall at h
  split at h
  · cases h
  rename_i maps newId text paths hpersist
  simp only [Prod.mk.injEq, Except.ok.injEq, Option.some.injEq] at h
  obtain ⟨rfl, rfl⟩ := h
  obtain ⟨hid, m, hm, hactive, hbuffer⟩ := handlePersistExploration_new hpersist
  refine ⟨⟨m, hm, hactive⟩, ?_⟩
  refine (hydrateIn_covers env .map s.mapSide out (persistMarks out) True fun l hl => ?_).trans ?_
  · show _ ∈ markPending _ l _ ↔ True
    rw [mem_markPending]
    refine iff_true_intro (.inr ⟨List.mem_singleton_self _, ?_⟩)
    rw [mapInBuffer, Table.get?_eq_some.mpr hm, Option.any_some, hbuffer]
    exact beq_self_eq_true _
  · rw [hid, and_true]
    rfl

/-- The mark of a completion finds the row exactly when the job has a buffer. -/
theorem mem_completion_mark {t : Table RlmNode} {n : RlmNode} {job : RlmJob} {l : List Int}
    (hn : (id, n) ∈ t.rows) (hb : n.bufferId = job.bufferId) (hl : id ∉ l) :
    id ∈ markRlmNodesPendingVector t l (job.bufferId.getD 0) [id] ↔ job.bufferId.isSome = true := by
  rw [markRlmNodesPendingVector, mem_markPending, nodeInBuffer, Table.get?_eq_some.mpr hn,
    Option.any_some, hb]
  cases job.bufferId with
  | none => simp [hl]
  | some b => simp [hl]

theorem completeCall_covers {jobId : Int} {username : String} {isAdmin : Bool} {generation : Int}
    {summaryText : String} {model templateVersion : Option String} {tokenCount : Int}
    (h : completeCall env s jobId username isAdmin generation summaryText model templateVersion
      tokenCount out = (s', .ok (some id))) :
    let call := RecordCall.complete jobId username isAdmin generation summaryText model
      templateVersion tokenCount
    s'.HasActive id call ∧ ((s'.side call).Covers id ↔ Recovers env s out call) := by
  unfold completeCall at h
  split at h
  · cases h
  split at h
  · cases h
  rename_i job hjob
  dsimp only at h
  split at h
  · cases h
  · cases h
  rename_i db newId nodeId hdone
  simp only [Prod.mk.injEq, Except.ok.injEq, Option.some.injEq] at h
  obtain ⟨rfl, rfl⟩ := h
  unfold completeRlmJobWithNode at hdone
  split at hdone
  · cases hdone
  split at hdone
  · cases hdone
  split at hdone
  · cases hdone
  rename_i nodes pair hup
  simp only [Prod.mk.injEq, Except.ok.injEq, Option.some.injEq] at hdone
  obtain ⟨rfl, rfl⟩ := hdone
  have hid := upsertNodeStmt_id hup
  obtain ⟨rfl, node, hnode⟩ := upsertNodeStmt_ok hup
  -- the review changes no column that counts here
  have hreviewed : ∃ n, liveNodes (if isAdmin then reviewRlmNode nodes env.decision.freshNodeId
      true username env.decision.now else nodes) job.project job.level job.subject = [(newId, n)] ∧
      n.bufferId = job.bufferId := by
    cases isAdmin with
    | false => exact ⟨node, hnode.live, hnode.bufferId⟩
    | true =>
      have hlive := liveNodes_update (q := fun _ n => n.nodeId == env.decision.freshNodeId)
        (f := fun _ n => { n with
          reviewStatus := .approved, reviewedBy := some username
          reviewedAt := some env.decision.now, confidence := n.confidence })
        (fun _ _ => rfl) hnode.live
      rw [if_pos (by simp [hnode.named])] at hlive
      exact ⟨_, hlive, hnode.bufferId⟩
  obtain ⟨n, hlive, hbuffer⟩ := hreviewed
  intro call
  constructor
  · have hafter : liveNodes (cascadeAfter env.cfg env.decision { s.rlm.db with
        rlmNodes := if isAdmin then reviewRlmNode nodes env.decision.freshNodeId true username
          env.decision.now else nodes
        rlmJobs := markDone s.rlm.db.rlmJobs jobId env.decision.now } (job.bufferId.getD 0)
        job.project job.level job.subject).rlmNodes job.project job.level job.subject =
          [(newId, n)] :=
      cascadeAfter_live env.cfg env.decision hlive
    obtain ⟨hrow, hactive⟩ := live_row hafter
    exact ⟨n, hrow, hactive⟩
  · refine (hydrateIn_covers env .node s.nodeSide out (completeMarks out) _ fun l hl =>
      mem_completion_mark (live_row hlive).1 hbuffer hl).trans ?_
    have hback : fallsBack s out call = (completeMarks out && job.bufferId.isSome) := by
      show (completeMarks out && (s.rlm.db.rlmJobs.get? jobId).any _) = _
      rw [hjob, Option.any_some]
    rw [Recovers, hback, Bool.and_eq_true, hid]
    rfl

theorem quorumPublishCall_covers {project : String} {level : Int} {subject : String}
    {pending : List (Int × Submission)} {vectors : List Embedding} {agreeing : List Nat}
    {winner : Submission}
    (h : quorumPublishCall env s project level subject pending vectors agreeing winner out =
      (s', .ok (some id))) :
    let call := RecordCall.quorumPublish project level subject pending vectors agreeing winner
    s'.HasActive id call ∧ ((s'.side call).Covers id ↔ Recovers env s out call) := by
  unfold quorumPublishCall at h
  split at h
  · cases h
  rename_i nodes newId name hpub
  simp only [Prod.mk.injEq, Except.ok.injEq, Option.some.injEq] at h
  obtain ⟨rfl, rfl⟩ := h
  obtain ⟨node, hlive, -, hbuffer, -⟩ := publishRlmNodeForSubject_ok hpub
  have hid : newId = s.rlm.db.rlmNodes.nextId := by
    unfold publishRlmNodeForSubject at hpub
    dsimp only at hpub
    split at hpub
    · cases hpub
    rename_i hup
    simp only [Except.ok.injEq, Prod.mk.injEq] at hpub
    rw [← hpub.2.1]
    exact upsertNodeStmt_id hup
  obtain ⟨hsettled, -⟩ := settleCandidates_db env.decision
    ⟨{ s.rlm.db with rlmNodes := nodes }, s.rlm.submissions⟩ agreeing pending
    (vectors.map fun v => env.decision.embedder.cosineSimilarity (centroid agreeing vectors) v)
  have hkept : liveNodes (settleCandidates env.decision
      ⟨{ s.rlm.db with rlmNodes := nodes }, s.rlm.submissions⟩ agreeing pending
      (vectors.map fun v => env.decision.embedder.cosineSimilarity (centroid agreeing vectors)
        v)).db.rlmNodes project level subject = [(newId, node)] := by
    rw [hsettled]
    exact hlive
  intro call
  constructor
  · obtain ⟨hrow, hactive⟩ := live_row hkept
    refine ⟨node, ?_, hactive⟩
    show (newId, node) ∈ (cascadeDecided env.cfg env.decision _ project level subject).rlmNodes.rows
    rw [cascadeDecided_of_none env.cfg env.decision hkept hbuffer]
    exact hrow
  · refine (hydrateIn_covers env .node s.nodeSide out (quorumMarks out) False fun l hl => by
      simp [hl]).trans ?_
    rw [Recovers, hid]
    simp [fallsBack, RecordCall.space, RecordDb.nextRow, RecordDb.side, call]

/-- Whatever a call wrote is active; it has a vector or a mark exactly when the step succeeded, or
the handler falls back on this outcome and its mark finds the row. -/
theorem record_covered (env : RecordEnv) {s s' : RecordDb ε} {call : RecordCall}
    {out : EmbedOutcome ε} {id : Int} (h : runRecordCall env s out call = (s', .ok (some id))) :
    s'.HasActive id call ∧ ((s'.side call).Covers id ↔ Recovers env s out call) := by
  cases call with
  | storeAnswer req cacheId now => exact storeAnswerCall_covers h
  | persistExploration req username gate explorationId now =>
    exact persistExplorationCall_covers h
  | complete jobId username isAdmin generation summaryText model templateVersion tokenCount =>
    exact completeCall_covers h
  | quorumPublish project level subject pending vectors agreeing winner =>
    exact quorumPublishCall_covers h

end Covered

/-! ## A server with one project and two answered candidates -/

def recordEnv : RecordEnv where
  query := askEnv
  decision := sampleEnv
  cfg := pairConfig
  mapScan := .rowid
  chunkScan := .rowid
  explorationsEnabled := true
  opened := fun _ => true

def oneProject : RecordDb Unit where
  index := ⟨(ensureProject SeqTable.empty "p" "/p").1, SeqTable.empty⟩
  qa := Table.empty
  rlm := twoCandidates
  maps := .empty
  questionSide := .empty
  nodeSide := .empty
  mapSide := .empty

def askedStore : RecordCall :=
  .storeAnswer ⟨"p", 0, "what is a?", "a file", [], []⟩ "c1" 1

def mapPersist : RecordCall :=
  .persistExploration ⟨"p", "find a", "a is a file", "body", [], ""⟩ "u" .approved "e1" 1

/-- The consensus of the two candidates. -/
def themePublish : RecordCall :=
  let pending := listPending .rowid twoCandidates.submissions "p" "rlm_node" "L2:p:src"
  .quorumPublish "p" 2 "src" pending [[11], [11]] [0, 1]
    { project := "p", subjectType := "rlm_node", subjectKey := "L2:p:src"
      candidateText := "reads files", candidateBy := "ann", status := .candidate
      similarity := none, decidedBy := none, createdAt := 0, decidedAt := none }

/-- An answer whose vector the space refuses is marked. -/
theorem record_covered_refused :
    let r := runRecordCall recordEnv oneProject (.vector () .refused) askedStore
    r.1.HasActive 1 askedStore ∧ ((r.1.side askedStore).Covers 1 ↔
      Recovers recordEnv oneProject (.vector () .refused) askedStore) :=
  record_covered recordEnv (Prod.ext rfl (by decide +kernel))

/-- An answer and a map that cannot be embedded are active, and have neither a vector nor a mark;
nor has the node of the quorum. -/
theorem record_covered_lost :
    ((runRecordCall recordEnv oneProject .error askedStore).2 = .ok (some 1) ∧
      ¬ ((runRecordCall recordEnv oneProject .error askedStore).1.side askedStore).Covers 1) ∧
    ((runRecordCall recordEnv oneProject .error mapPersist).2 = .ok (some 1) ∧
      ¬ ((runRecordCall recordEnv oneProject .error mapPersist).1.side mapPersist).Covers 1) ∧
    ((runRecordCall recordEnv oneProject .error themePublish).2 = .ok (some 2) ∧
      ¬ ((runRecordCall recordEnv oneProject .error themePublish).1.side
        themePublish).Covers 2) := by
  decide +kernel

end Arags
