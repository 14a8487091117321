import Arags.Rlm.Publication
import Arags.Rlm.Quorum

/-!
# Arags.Rlm.DecisionCalls

Calls of `decide_rlm_quorum` that run at the same time. A call lists the pending candidates, embeds
and compares them, reads the trust ledger, publishes, and then writes its verdicts one by one;
between these the queue, the completions and the other calls go on.

* `stepDecisions`  — a step of the queue, of a completion or of a call.
* `DecidesAlone`   — a call starts only where no candidate is accepted and no other call is at work.
* `decided_stays`  — in such runs a decided subject stays decided.
* `call_alone_publishes`, `call_alone_rejects` — a call that nothing comes between does what
  `decideGathered` does at once.
-/

namespace Arags

open Sql

/-! ## Calls -/

structure CandidateVerdict where
  id : Int
  candidateBy : String
  accept : Bool
  similarity : Option Rat
  deriving DecidableEq, Repr

inductive CallStage where
  | gathered
  | agreed (vectors : List Embedding) (agreeing : List Nat)
  | chosen (vectors : List Embedding) (agreeing : List Nat) (winner : Submission)
  | settling (verdicts : List CandidateVerdict)
  deriving DecidableEq, Repr

/-- A call with what it has gathered. -/
structure DecisionCall where
  request : Nat
  project : String
  level : Int
  subject : String
  pending : List (Int × Submission)
  stage : CallStage
  deriving DecidableEq, Repr

def DecisionCall.key (c : DecisionCall) : String × Int × String := (c.project, c.level, c.subject)

/-- All but the last stage, with no verdict left. -/
def DecisionCall.busy (c : DecisionCall) : Bool := c.stage != .settling []

/-- `verdicts` is what the ledger was told, newest first; the program keeps no such record. -/
structure Decisions where
  quorum : QuorumState
  calls : List DecisionCall
  verdicts : List (Int × Bool)

def Decisions.empty : Decisions := ⟨QuorumState.empty, [], []⟩

inductive CallOp where
  /-- The embeddings have arrived. -/
  | compare
  /-- `read_trust`. -/
  | choose
  | publish (scan : ScanOrder RlmNode) (freshNodeId : String) (now : Int)
  /-- The next verdict. -/
  | settle (now : Int)
  /-- The client has gone. -/
  | drop

inductive DecisionOp where
  | queue (op : QueueOp)
  | load (request : Nat) (jobId : Int)
  | complete (request : Nat) (volunteer text : String) (generation now : Int)
  | file (request : Nat) (now : Int)
  /-- `list_pending`; when it is empty, `list_accepted` ends the call. -/
  | gather (request : Nat) (scan : ScanOrder Submission) (project : String) (level : Int)
      (subject : String)
  | call (request : Nat) (op : CallOp)

namespace Decisions

variable (s : Decisions)

def call (request : Nat) : Option DecisionCall := s.calls.find? fun c => c.request == request

def goTo (request : Nat) (stage : CallStage) : Decisions :=
  { s with calls := s.calls.map fun c => if c.request == request then { c with stage := stage }
      else c }

def finished (request : Nat) : Decisions :=
  { s with calls := s.calls.filter fun c => c.request != request }

def hasAccepted (key : String × Int × String) : Bool :=
  s.quorum.submissions.rows.any fun x => x.2.project == key.1 && x.2.subjectType == "rlm_node" &&
    x.2.subjectKey == rlmJobKey key.1 key.2.1 key.2.2 && x.2.status == .accepted

end Decisions

variable (cfg : QuorumConfig) (e : Embedder)

/-- One verdict for each candidate, with its similarity to the consensus. -/
def consensusVerdicts (pending : List (Int × Submission)) (vectors : List Embedding)
    (agreeing : List Nat) : List CandidateVerdict :=
  let fused := centroid agreeing vectors
  let sims := vectors.map fun v => e.cosineSimilarity fused v
  pending.zipIdx.map fun x =>
    ⟨x.1.1, x.1.2.candidateBy, agreeing.contains x.2, some (sims.getD x.2 0)⟩

def rejections (pending : List (Int × Submission)) : List CandidateVerdict :=
  pending.map fun x => ⟨x.1, x.2.candidateBy, false, none⟩

def publishWinner (c : DecisionCall) (winner : Submission) (scan : ScanOrder RlmNode)
    (nodes : Table RlmNode) (freshNodeId : String) (now : Int) :
    Except String (Table RlmNode × Int × String) :=
  publishRlmNodeForSubject scan nodes c.project c.level c.subject winner.candidateText []
    (some winner.candidateBy) none none "quorum" freshNodeId now

/-- `accept_submission` and `bump_trust_on_accept`, or `reject_submission` and `record_strike`. -/
def CandidateVerdict.file (v : CandidateVerdict) (q : QuorumState) (now : Int) : QuorumState :=
  if v.accept then
    { q with
      submissions := acceptSubmission q.submissions v.id "quorum" v.similarity now
      db := { q.db with volunteerTrust := bumpTrustOnAccept q.db.volunteerTrust v.candidateBy } }
  else
    { q with
      submissions := rejectSubmission q.submissions v.id "quorum" v.similarity now
      db := { q.db with volunteerTrust := recordStrike q.db.volunteerTrust v.candidateBy } }

/-- What a call does next. -/
def stepCall (s : Decisions) (c : DecisionCall) (op : CallOp) : Decisions :=
  match c.stage, op with
  | .gathered, .compare =>
    match e.embedBatch (c.pending.map fun x => x.2.candidateText) with
    | none => s.finished c.request
    | some vectors =>
      let agreeing := agreeingSet e cfg vectors
      if agreeing.isEmpty || decide (agreeing.length < minClique (max cfg.n 1)) then
        s.goTo c.request (.settling (rejections c.pending))
      else s.goTo c.request (.agreed vectors agreeing)
  | .agreed vectors agreeing, .choose =>
    match c.pending[choosePublished e cfg agreeing c.pending vectors
        s.quorum.db.volunteerTrust]? with
    | none => s.finished c.request
    | some winner => s.goTo c.request (.chosen vectors agreeing winner.2)
  | .chosen vectors agreeing winner, .publish scan freshNodeId now =>
    match publishWinner c winner scan s.quorum.db.rlmNodes freshNodeId now with
    | .error _ => s.finished c.request
    | .ok (nodes, _, _) =>
      let quorum := { s.quorum with db := { s.quorum.db with rlmNodes := nodes } }
      { s with quorum := quorum }.goTo c.request
        (.settling (consensusVerdicts e c.pending vectors agreeing))
  | .settling (v :: rest), .settle now =>
    { s with quorum := v.file s.quorum now, verdicts := (v.id, v.accept) :: s.verdicts }.goTo
      c.request (.settling rest)
  | _, .drop => s.finished c.request
  | _, _ => s

def stepDecisions (s : Decisions) : DecisionOp → Decisions
  | .queue op => { s with quorum := stepQuorum cfg.n s.quorum (.queue op) }
  | .load request jobId => { s with quorum := stepQuorum cfg.n s.quorum (.load request jobId) }
  | .complete request volunteer text generation now =>
    let op := QuorumOp.complete request volunteer text generation now
    { s with quorum := stepQuorum cfg.n s.quorum op }
  | .file request now => { s with quorum := stepQuorum cfg.n s.quorum (.file request now) }
  | .gather request scan project level subject =>
    match gatherRlmQuorum cfg.n scan s.quorum.submissions project level subject with
    | some pending =>
      if (s.call request).isSome then s
      else { s with calls := ⟨request, project, level, subject, pending, .gathered⟩ :: s.calls }
    | none => s
  | .call request op =>
    match s.call request with
    | some c => stepCall cfg e s c op
    | none => s

/-! ## What a run keeps -/

/-- A call that finds enough candidates finds none of the subject accepted, and no other call at
work on it. -/
def DecidesAlone (s : Decisions) : DecisionOp → Prop
  | .gather _ scan project level subject =>
    gatherRlmQuorum cfg.n scan s.quorum.submissions project level subject ≠ none →
    s.hasAccepted (project, level, subject) = false ∧
      ∀ c ∈ s.calls, c.key = (project, level, subject) → c.busy = false
  | _ => True

instance decidableDecidesAlone (s : Decisions) : ∀ op, Decidable (DecidesAlone cfg s op)
  | .gather _ scan project level subject => inferInstanceAs (Decidable
      (gatherRlmQuorum cfg.n scan s.quorum.submissions project level subject ≠ none →
      s.hasAccepted (project, level, subject) = false ∧
        ∀ c ∈ s.calls, c.key = (project, level, subject) → c.busy = false))
  | .queue _ | .load .. | .complete .. | .file .. | .call .. => inferInstanceAs (Decidable True)

/-- The subject a step publishes a node for. -/
def publishes (s : Decisions) : DecisionOp → Option (String × Int × String)
  | .call request (.publish scan freshNodeId now) =>
    match s.call request with
    | some c =>
      match c.stage with
      | .chosen _ _ winner =>
        match publishWinner c winner scan s.quorum.db.rlmNodes freshNodeId now with
        | .ok _ => some c.key
        | .error _ => none
      | _ => none
    | none => none
  | _ => none

/-- No node for a subject with an accepted candidate, and every verdict stands. -/
structure StaysDecided (s : Decisions) (op : DecisionOp) : Prop where
  nodes : ∀ key ∈ publishes s op, s.hasAccepted key = false
  verdicts : ∀ x ∈ s.quorum.submissions.rows, x.2.status ≠ .candidate →
    x ∈ (stepDecisions cfg e s op).quorum.submissions.rows

/-! ## The calls at work -/

def IsCandidateOf (t : Table Submission) (key : String × Int × String) (i : Int) : Prop :=
  ∃ r, (i, r) ∈ t.rows ∧ r.project = key.1 ∧ r.subjectType = "rlm_node" ∧
    r.subjectKey = rlmJobKey key.1 key.2.1 key.2.2 ∧ r.status = .candidate

/-- The candidates a call has no verdict on yet. -/
def DecisionCall.undecided (c : DecisionCall) : List Int :=
  match c.stage with
  | .settling verdicts => verdicts.map CandidateVerdict.id
  | _ => c.pending.map Prod.fst

def DecisionCall.unpublished (c : DecisionCall) : Bool :=
  match c.stage with
  | .settling _ => false
  | _ => true

structure CallsInv (s : Decisions) : Prop where
  requests : (s.calls.map DecisionCall.request).Nodup
  candidates : ∀ c ∈ s.calls, ∀ i ∈ c.undecided, IsCandidateOf s.quorum.submissions c.key i
  distinct : ∀ c ∈ s.calls, c.undecided.Nodup
  alone : ∀ c ∈ s.calls, ∀ d ∈ s.calls, c.key = d.key → c.busy = true → d.busy = true → c = d
  ahead : ∀ c ∈ s.calls, c.unpublished = true → s.hasAccepted c.key = false
  filed : ∀ v ∈ s.verdicts, ∃ r, (v.1, r) ∈ s.quorum.submissions.rows ∧ r.status ≠ .candidate
  once : (s.verdicts.map Prod.fst).Nodup

theorem IsCandidateOf.key_eq {t : Table Submission} {key key' : String × Int × String} {i : Int}
    (h : IsCandidateOf t key i) (h' : IsCandidateOf t key' i) : key = key' := by
  obtain ⟨r, hr, hp, -, hk, -⟩ := h
  obtain ⟨r', hr', hp', -, hk', -⟩ := h'
  obtain rfl := Table.eq_of_mem hr hr'
  have hproject : key.1 = key'.1 := hp.symm.trans hp'
  rw [hk, hproject] at hk'
  obtain ⟨hl, hs⟩ := rlmJobKey_inj hk'
  exact Prod.ext hproject (Prod.ext hl hs)

namespace DecisionCall

variable {c : DecisionCall}

theorem busy_of_undecided {i : Int} (h : i ∈ c.undecided) : c.busy = true := by
  unfold busy
  rw [bne_iff_ne]
  intro hs
  unfold undecided at h
  rw [hs] at h
  cases h

theorem busy_of_unpublished (h : c.unpublished = true) : c.busy = true := by
  unfold busy
  rw [bne_iff_ne]
  intro hs
  unfold unpublished at h
  rw [hs] at h
  cases h

end DecisionCall

/-- Rows are added, and they are candidates. -/
structure Grown (t t' : Table Submission) : Prop where
  kept : ∀ x ∈ t.rows, x ∈ t'.rows
  new : ∀ x ∈ t'.rows, x ∈ t.rows ∨ x.2.status = .candidate

theorem Grown.refl (t : Table Submission) : Grown t t := ⟨fun _ => id, fun _ => .inl⟩

/-- The requests before a decision file candidates, and leave those on file alone. -/
theorem stepQuorum_grown (n : Nat) (q : QuorumState) (op : QuorumOp)
    (hop : ∀ id accept similarity now, op ≠ .verdict id accept similarity now) :
    Grown q.submissions (stepQuorum n q op).submissions := by
  cases op with
  | queue op => exact .refl _
  | load request jobId =>
    unfold stepQuorum
    dsimp only
    split
    · split <;> exact .refl _
    · exact .refl _
  | complete request volunteer text generation now =>
    unfold stepQuorum
    dsimp only
    split
    · split <;> exact .refl _
    · exact .refl _
  | file request now =>
    unfold stepQuorum
    dsimp only
    split
    · refine ⟨fun x hx => Table.mem_insert.mpr (.inl hx), fun x hx => ?_⟩
      rcases Table.mem_insert.mp hx with hm | ⟨-, hr⟩
      · exact .inl hm
      · exact .inr (by rw [hr])
    · exact .refl _
  | gather scan project level subject =>
    unfold stepQuorum
    dsimp only
    split <;> exact .refl _
  | verdict id accept similarity now => exact absurd rfl (hop id accept similarity now)

theorem listPending_ids_nodup (scan : ScanOrder Submission) (t : Table Submission)
    (project subjectType subjectKey : String) :
    ((listPending scan t project subjectType subjectKey).map Prod.fst).Nodup := by
  have hperm := ((List.perm_insertionSort (fun x y : Int × Submission =>
    x.2.createdAt ≤ y.2.createdAt) _).trans (scan.perm (t.select fun _ r =>
      r.project == project && r.subjectType == subjectType && r.subjectKey == subjectKey &&
        r.status == .candidate))).map Prod.fst
  exact hperm.nodup_iff.mpr (t.nodup.sublist (List.filter_sublist.map _))

section File

variable {v : CandidateVerdict} {q : QuorumState} {now : Int}

theorem file_submissions : (v.file q now).submissions =
    decideSubmission (if v.accept then .accepted else .rejected) q.submissions v.id "quorum"
      v.similarity now := by
  unfold CandidateVerdict.file
  cases v.accept <;> rfl

theorem file_other {i : Int} {r : Submission} (hr : (i, r) ∈ q.submissions.rows)
    (hi : i ≠ v.id) : (i, r) ∈ (v.file q now).submissions.rows := by
  rw [file_submissions]
  exact Table.mem_update.mpr ⟨r, hr, by rw [if_neg (by simpa using hi)]⟩

theorem file_decided (v : CandidateVerdict) (now : Int) {r : Submission}
    (hr : (v.id, r) ∈ q.submissions.rows) :
    ∃ r', (v.id, r') ∈ (v.file q now).submissions.rows ∧ r'.status ≠ .candidate := by
  rw [file_submissions]
  refine ⟨_, Table.mem_update.mpr ⟨r, hr, rfl⟩, ?_⟩
  rw [if_pos (beq_self_eq_true _)]
  cases v.accept <;> simp

theorem file_cases {x : Int × Submission} (hx : x ∈ (v.file q now).submissions.rows) :
    x ∈ q.submissions.rows ∨ x.1 = v.id ∧ ∃ r, (v.id, r) ∈ q.submissions.rows ∧
      x.2.project = r.project ∧ x.2.subjectType = r.subjectType ∧
      x.2.subjectKey = r.subjectKey := by
  rw [file_submissions] at hx
  obtain ⟨r, hr, he⟩ := Table.mem_update.mp hx
  by_cases hi : x.1 = v.id
  · rw [if_pos (by simpa using hi)] at he
    exact .inr ⟨hi, r, hi ▸ hr, by rw [he]; exact ⟨rfl, rfl, rfl⟩⟩
  · rw [if_neg (by simpa using hi)] at he
    exact .inl (by rw [← he] at hr; exact hr)

end File

theorem rejections_ids (pending : List (Int × Submission)) :
    (rejections pending).map CandidateVerdict.id = pending.map Prod.fst := by
  unfold rejections
  rw [List.map_map]
  rfl

theorem consensusVerdicts_ids (e : Embedder) (pending : List (Int × Submission))
    (vectors : List Embedding) (agreeing : List Nat) :
    (consensusVerdicts e pending vectors agreeing).map CandidateVerdict.id =
      pending.map Prod.fst := by
  have hfst : pending.zipIdx.map Prod.fst = pending := List.zipIdx_map_fst 0 pending
  have hids := congrArg (List.map Prod.fst) hfst
  rw [List.map_map] at hids
  unfold consensusVerdicts
  rw [List.map_map]
  exact hids

namespace Decisions

variable {s : Decisions} {c d : DecisionCall}

theorem goTo_requests (s : Decisions) (request : Nat) (stage : CallStage) :
    (s.goTo request stage).calls.map DecisionCall.request =
      s.calls.map DecisionCall.request := by
  unfold goTo
  rw [List.map_map]
  refine List.map_congr_left fun d _ => ?_
  dsimp only [Function.comp_apply]
  split <;> rfl

/-- The other calls stay, the call itself is at its new stage. -/
theorem mem_goTo (h : (s.calls.map DecisionCall.request).Nodup) (hc : c ∈ s.calls)
    {stage : CallStage} (hd : d ∈ (s.goTo c.request stage).calls) :
    d = { c with stage := stage } ∨ d ∈ s.calls ∧ d.request ≠ c.request := by
  obtain ⟨d₀, hd₀, rfl⟩ := List.mem_map.mp hd
  by_cases hr : d₀.request = c.request
  · obtain rfl := List.inj_on_of_nodup_map h hd₀ hc hr
    rw [if_pos (beq_self_eq_true _)]
    exact .inl rfl
  · rw [if_neg (by simpa using hr)]
    exact .inr ⟨hd₀, hr⟩

end Decisions

namespace CallsInv

variable {cfg : QuorumConfig} {e : Embedder} {s : Decisions} {c d : DecisionCall}

theorem empty : CallsInv Decisions.empty where
  requests := .nil
  candidates _ hc := nomatch hc
  distinct _ hc := nomatch hc
  alone _ hc := nomatch hc
  ahead _ hc := nomatch hc
  filed _ hv := nomatch hv
  once := .nil

theorem mem_goTo (h : CallsInv s) (hc : c ∈ s.calls) {stage : CallStage} :
    d ∈ (s.goTo c.request stage).calls →
      d = { c with stage := stage } ∨ d ∈ s.calls ∧ d.request ≠ c.request :=
  Decisions.mem_goTo h.requests hc

/-- Fewer calls. -/
theorem finished (h : CallsInv s) (request : Nat) : CallsInv (s.finished request) := by
  have hsub : (s.finished request).calls.Sublist s.calls := List.filter_sublist
  exact {
    requests := h.requests.sublist (hsub.map _)
    candidates := fun c hc => h.candidates c (hsub.subset hc)
    distinct := fun c hc => h.distinct c (hsub.subset hc)
    alone := fun c hc d hd => h.alone c (hsub.subset hc) d (hsub.subset hd)
    ahead := fun c hc => h.ahead c (hsub.subset hc)
    filed := h.filed
    once := h.once }

/-- A call goes on with some of its candidates. -/
theorem goTo (h : CallsInv s) (hc : c ∈ s.calls) {stage : CallStage} (hbusy : c.busy = true)
    (hless : ({ c with stage := stage } : DecisionCall).undecided.Sublist c.undecided)
    (hpub : ({ c with stage := stage } : DecisionCall).unpublished = true →
      c.unpublished = true) : CallsInv (s.goTo c.request stage) where
  requests := by
    rw [s.goTo_requests]
    exact h.requests
  candidates d hd i hi := by
    rcases h.mem_goTo hc hd with rfl | ⟨hm, -⟩
    · exact h.candidates c hc i (hless.subset hi)
    · exact h.candidates d hm i hi
  distinct d hd := by
    rcases h.mem_goTo hc hd with rfl | ⟨hm, -⟩
    · exact (h.distinct c hc).sublist hless
    · exact h.distinct d hm
  alone d hd d' hd' hk hb hb' := by
    rcases h.mem_goTo hc hd with rfl | ⟨hm, hr⟩ <;> rcases h.mem_goTo hc hd' with rfl | ⟨hm', hr'⟩
    · rfl
    · exact absurd (congrArg _ (h.alone c hc d' hm' hk hbusy hb')).symm hr'
    · exact absurd (congrArg _ (h.alone d hm c hc hk hb hbusy)) hr
    · exact h.alone d hm d' hm' hk hb hb'
  ahead d hd hu := by
    rcases h.mem_goTo hc hd with rfl | ⟨hm, -⟩
    · exact h.ahead c hc (hpub hu)
    · exact h.ahead d hm hu
  filed := h.filed
  once := h.once

/-- New candidates are filed. -/
theorem grown (h : CallsInv s) {q : QuorumState} (hg : Grown s.quorum.submissions q.submissions) :
    CallsInv { s with quorum := q } where
  requests := h.requests
  candidates c hc i hi := by
    obtain ⟨r, hr, hrest⟩ := h.candidates c hc i hi
    exact ⟨r, hg.kept _ hr, hrest⟩
  distinct := h.distinct
  alone := h.alone
  ahead c hc hu := by
    have hold := h.ahead c hc hu
    unfold Decisions.hasAccepted at hold ⊢
    rw [List.any_eq_false] at hold ⊢
    intro x hx
    rcases hg.new x hx with hm | hs
    · exact hold x hm
    · simp [hs]
  filed v hv := by
    obtain ⟨r, hr, hrest⟩ := h.filed v hv
    exact ⟨r, hg.kept _ hr, hrest⟩
  once := h.once

/-- A call starts. -/
theorem gather (h : CallsInv s) {request : Nat} {scan : ScanOrder Submission} {project subject}
    {level : Int} {pending : List (Int × Submission)}
    (hgather : gatherRlmQuorum cfg.n scan s.quorum.submissions project level subject =
      some pending)
    (hfree : s.call request = none)
    (hnone : s.hasAccepted (project, level, subject) = false)
    (halone : ∀ c ∈ s.calls, c.key = (project, level, subject) → c.busy = false) :
    CallsInv { s with calls := ⟨request, project, level, subject, pending, .gathered⟩ ::
      s.calls } := by
  obtain ⟨rfl, -⟩ := gatherRlmQuorum_eq_some.mp hgather
  have hnew : ∀ c ∈ s.calls, c.request ≠ request := by
    intro c hc he
    exact List.find?_eq_none.mp hfree c hc (by simpa using he)
  refine ⟨?_, ?_, ?_, ?_, ?_, h.filed, h.once⟩
  · rw [List.map_cons, List.nodup_cons]
    refine ⟨fun hm => ?_, h.requests⟩
    obtain ⟨c, hc, he⟩ := List.mem_map.mp hm
    exact hnew c hc he
  · rw [List.forall_mem_cons]
    refine ⟨fun i hi => ?_, h.candidates⟩
    obtain ⟨x, hx, rfl⟩ := List.mem_map.mp hi
    obtain ⟨hm, hp, ht, hk, hs⟩ := mem_listPending.mp hx
    exact ⟨x.2, hm, hp, ht, hk, hs⟩
  · rw [List.forall_mem_cons]
    exact ⟨listPending_ids_nodup scan _ _ _ _, h.distinct⟩
  · intro c hc d hd hk hb hb'
    rcases List.mem_cons.mp hc with rfl | hc <;> rcases List.mem_cons.mp hd with rfl | hd
    · rfl
    · exact absurd hb' (by simp [halone d hd hk.symm])
    · exact absurd hb (by simp [halone c hc hk])
    · exact h.alone c hc d hd hk hb hb'
  · rw [List.forall_mem_cons]
    exact ⟨fun _ => hnone, h.ahead⟩

/-- A verdict on a candidate that no call has before it any more. -/
theorem verdict (h : CallsInv s) {v : CandidateVerdict} {now : Int}
    {key : String × Int × String} (hv : IsCandidateOf s.quorum.submissions key v.id)
    (hnone : ∀ c ∈ s.calls, v.id ∉ c.undecided)
    (hpub : ∀ c ∈ s.calls, c.key = key → c.unpublished = false) :
    CallsInv { s with
      quorum := v.file s.quorum now, verdicts := (v.id, v.accept) :: s.verdicts } := by
  obtain ⟨r, hr, hp, ht, hk, hs⟩ := hv
  refine ⟨h.requests, ?_, h.distinct, h.alone, ?_, ?_, ?_⟩
  · intro c hc i hi
    obtain ⟨r', hr', hrest⟩ := h.candidates c hc i hi
    have hne : i ≠ v.id := fun he => hnone c hc (he ▸ hi)
    exact ⟨r', file_other hr' hne, hrest⟩
  · intro c hc hu
    have hold := h.ahead c hc hu
    unfold Decisions.hasAccepted at hold ⊢
    rw [List.any_eq_false] at hold ⊢
    intro x hx
    rcases file_cases hx with hm | ⟨hi, r', hr', hsame⟩
    · exact hold x hm
    · obtain rfl := Table.eq_of_mem hr hr'
      intro hacc
      simp only [Bool.and_eq_true, beq_iff_eq] at hacc
      obtain ⟨⟨⟨hp', ht'⟩, hk'⟩, -⟩ := hacc
      have hcand : IsCandidateOf s.quorum.submissions c.key v.id :=
        ⟨r, hr, hsame.1.symm.trans hp', hsame.2.1.symm.trans ht', hsame.2.2.symm.trans hk', hs⟩
      have hkey := hcand.key_eq ⟨r, hr, hp, ht, hk, hs⟩
      rw [hpub c hc hkey] at hu
      cases hu
  · rw [List.forall_mem_cons]
    refine ⟨?_, fun w hw => ?_⟩
    · obtain ⟨r', hr', hs'⟩ := file_decided v now hr
      exact ⟨r', hr', hs'⟩
    · obtain ⟨r', hr', hs'⟩ := h.filed w hw
      have hne : w.1 ≠ v.id := by
        intro he
        obtain rfl := Table.eq_of_mem hr (he ▸ hr')
        exact hs' hs
      exact ⟨r', file_other hr' hne, hs'⟩
  · rw [List.map_cons, List.nodup_cons]
    refine ⟨fun hm => ?_, h.once⟩
    obtain ⟨w, hw, he⟩ := List.mem_map.mp hm
    obtain ⟨r', hr', hs'⟩ := h.filed w hw
    obtain rfl := Table.eq_of_mem hr (he ▸ hr')
    exact hs' hs

/-- A call that has not published yet goes on, with all of its candidates. -/
theorem advance (h : CallsInv s) (hc : c ∈ s.calls) (stage : CallStage)
    (hu : c.unpublished = true)
    (hsame : ({ c with stage := stage } : DecisionCall).undecided = c.pending.map Prod.fst) :
    CallsInv (s.goTo c.request stage) := by
  have hold : c.undecided = c.pending.map Prod.fst := by
    unfold DecisionCall.undecided
    unfold DecisionCall.unpublished at hu
    split
    · rename_i hst
      rw [hst] at hu
      cases hu
    · rfl
  refine h.goTo hc (DecisionCall.busy_of_unpublished hu) ?_ fun _ => hu
  rw [hsame, hold]

/-- The next step of a call. -/
theorem stepCall (h : CallsInv s) (hc : c ∈ s.calls) (op : CallOp) :
    CallsInv (stepCall cfg e s c op) := by
  have hunpublished : ∀ stage, c.stage = stage → (∀ verdicts, stage ≠ .settling verdicts) →
      c.unpublished = true := by
    intro stage hst hne
    unfold DecisionCall.unpublished
    split
    · rename_i verdicts hs
      exact absurd (hst.symm.trans hs) (hne verdicts)
    · rfl
  unfold Arags.stepCall
  split
  · rename_i hst
    have hu := hunpublished _ hst nofun
    split
    · exact h.finished _
    · dsimp only
      split
      · exact h.advance hc _ hu (rejections_ids _)
      · exact h.advance hc _ hu rfl
  · rename_i hst
    split
    · exact h.finished _
    · exact h.advance hc _ (hunpublished _ hst nofun) rfl
  · rename_i vectors agreeing winner scan freshNodeId now hst
    split
    · exact h.finished _
    · rename_i nodes _ _ _
      have hids := consensusVerdicts_ids e c.pending vectors agreeing
      have hnodes := h.grown (q := { s.quorum with
        db := { s.quorum.db with rlmNodes := nodes } }) (.refl _)
      exact hnodes.advance hc (.settling (consensusVerdicts e c.pending vectors agreeing))
        (hunpublished _ hst nofun) hids
  · rename_i v rest now hst
    have hids : c.undecided = v.id :: rest.map CandidateVerdict.id := by
      unfold DecisionCall.undecided
      rw [hst]
      rfl
    have hbusy : c.busy = true :=
      DecisionCall.busy_of_undecided (i := v.id) (hids ▸ List.mem_cons_self)
    have hv := h.candidates c hc v.id (hids ▸ List.mem_cons_self)
    have hnext : CallsInv (s.goTo c.request (.settling rest)) := by
      refine h.goTo hc hbusy ?_ nofun
      rw [hids]
      exact List.sublist_cons_self _ _
    refine hnext.verdict hv (fun d hd hi => ?_) fun d hd hk => ?_
    · rcases h.mem_goTo hc hd with rfl | ⟨hm, hr⟩
      · have hnodup := h.distinct c hc
        rw [hids, List.nodup_cons] at hnodup
        exact hnodup.1 hi
      · have hkey := hv.key_eq (h.candidates d hm v.id hi)
        have he := h.alone c hc d hm hkey hbusy (DecisionCall.busy_of_undecided hi)
        exact hr (congrArg DecisionCall.request he).symm
    · rcases h.mem_goTo hc hd with rfl | ⟨hm, hr⟩
      · rfl
      · rw [Bool.eq_false_iff]
        intro hu
        have he := h.alone c hc d hm hk.symm hbusy (DecisionCall.busy_of_unpublished hu)
        exact hr (congrArg DecisionCall.request he).symm
  · exact h.finished _
  · exact h

/-- One step of the system. -/
theorem step (h : CallsInv s) (op : DecisionOp) (hop : DecidesAlone cfg s op) :
    CallsInv (stepDecisions cfg e s op) := by
  cases op with
  | queue op => exact h.grown (stepQuorum_grown _ _ _ nofun)
  | load request jobId => exact h.grown (stepQuorum_grown _ _ _ nofun)
  | complete request volunteer text generation now => exact h.grown (stepQuorum_grown _ _ _ nofun)
  | file request now => exact h.grown (stepQuorum_grown _ _ _ nofun)
  | gather request scan project level subject =>
    unfold stepDecisions
    dsimp only
    split
    · rename_i pending hgather
      split
      · exact h
      · rename_i hfree
        obtain ⟨hnone, halone⟩ := hop (by rw [hgather]; exact Option.some_ne_none _)
        exact h.gather hgather (by simpa using hfree) hnone halone
    · exact h
  | call request op =>
    unfold stepDecisions
    dsimp only
    split
    · rename_i c hc
      exact h.stepCall (List.mem_of_find?_eq_some hc) op
    · exact h

/-- A call leaves the verdicts of others alone. -/
theorem stepCall_decided (h : CallsInv s) (hc : c ∈ s.calls) (op : CallOp)
    {x : Int × Submission} (hx : x ∈ s.quorum.submissions.rows) (hs : x.2.status ≠ .candidate) :
    x ∈ (Arags.stepCall cfg e s c op).quorum.submissions.rows := by
  unfold Arags.stepCall
  split
  · split
    · exact hx
    · dsimp only
      split <;> exact hx
  · split <;> exact hx
  · split <;> exact hx
  · rename_i v rest now hst
    have hids : c.undecided = v.id :: rest.map CandidateVerdict.id := by
      unfold DecisionCall.undecided
      rw [hst]
      rfl
    obtain ⟨r, hr, -, -, -, hcand⟩ := h.candidates c hc v.id (hids ▸ List.mem_cons_self)
    refine file_other hx fun he => hs ?_
    have hsame : x.2 = r := Table.eq_of_mem (he ▸ hx) hr
    rw [hsame]
    exact hcand
  · exact hx
  · exact hx

/-- The node of a call, and its verdict on a candidate, are the first of their kind. -/
theorem staysDecided (h : CallsInv s) (op : DecisionOp) : StaysDecided cfg e s op := by
  refine ⟨fun key hkey => ?_, fun x hx hs => ?_⟩
  · unfold publishes at hkey
    split at hkey
    · split at hkey
      · rename_i c hc
        split at hkey
        · rename_i hst
          split at hkey
          · obtain rfl := Option.some.inj hkey
            refine h.ahead c (List.mem_of_find?_eq_some hc) ?_
            unfold DecisionCall.unpublished
            rw [hst]
          · cases hkey
        · cases hkey
      · cases hkey
    · cases hkey
  · cases op with
    | queue op => exact (stepQuorum_grown cfg.n s.quorum (.queue op) nofun).kept x hx
    | load request jobId =>
      exact (stepQuorum_grown cfg.n s.quorum (.load request jobId) nofun).kept x hx
    | complete request volunteer text generation now =>
      exact (stepQuorum_grown cfg.n s.quorum
        (.complete request volunteer text generation now) nofun).kept x hx
    | file request now =>
      exact (stepQuorum_grown cfg.n s.quorum (.file request now) nofun).kept x hx
    | gather request scan project level subject =>
      unfold stepDecisions
      dsimp only
      split
      · split <;> exact hx
      · exact hx
    | call request op =>
      unfold stepDecisions
      dsimp only
      split
      · rename_i c hc
        exact h.stepCall_decided (List.mem_of_find?_eq_some hc) op hx hs
      · exact hx

end CallsInv

/-! ## A call by itself -/

section Alone

variable {scfg : ServerConfig} {env : DecisionEnv} {s : Decisions} {c : DecisionCall}
  {rest : List DecisionCall}

def QuorumState.store (q : QuorumState) : RlmStore := ⟨q.db, q.submissions⟩

theorem file_store (v : CandidateVerdict) (q : QuorumState) (i : Int) (r : Submission)
    (hi : v.id = i) (hr : v.candidateBy = r.candidateBy) :
    (v.file q env.nowSecs).store = if v.accept then acceptCandidate env q.store (i, r) v.similarity
      else rejectCandidate env q.store (i, r) v.similarity := by
  subst hi
  unfold CandidateVerdict.file acceptCandidate rejectCandidate QuorumState.store
  rw [hr]
  cases v.accept <;> rfl

theorem file_rejections (pending : List (Int × Submission)) (q : QuorumState) :
    ((rejections pending).foldl (fun q v => v.file q env.nowSecs) q).store =
      rejectAll env q.store pending := by
  unfold rejections rejectAll
  induction pending generalizing q with
  | nil => rfl
  | cons x pending ih =>
    rw [List.map_cons, List.foldl_cons, List.foldl_cons, ih, file_store _ q x.1 x.2 rfl rfl]
    rfl

theorem file_verdicts (pending : List (Int × Submission)) (vectors : List Embedding)
    (agreeing : List Nat) (q : QuorumState) :
    ((consensusVerdicts env.embedder pending vectors agreeing).foldl
        (fun q v => v.file q env.nowSecs) q).store =
      settleCandidates env q.store agreeing pending
        (vectors.map fun v => env.embedder.cosineSimilarity (centroid agreeing vectors) v) := by
  unfold consensusVerdicts settleCandidates
  dsimp only
  generalize pending.zipIdx = indexed
  induction indexed generalizing q with
  | nil => rfl
  | cons x indexed ih =>
    rw [List.map_cons, List.foldl_cons, List.foldl_cons, ih, file_store _ q x.1.1 x.1.2 rfl rfl]

/-- The steps of one call, while the rest of the system waits. -/
theorem step_first (hs : s.calls = c :: rest) (op : CallOp) :
    stepDecisions scfg.quorum env.embedder s (.call c.request op) =
      stepCall scfg.quorum env.embedder s c op := by
  have hfind : s.call c.request = some c := by
    unfold Decisions.call
    rw [hs]
    exact List.find?_cons_of_pos (beq_self_eq_true _)
  dsimp only [stepDecisions]
  rw [hfind]

theorem goTo_first (hs : s.calls = c :: rest) (stage : CallStage) :
    ∃ rest', (s.goTo c.request stage).calls = { c with stage := stage } :: rest' := by
  unfold Decisions.goTo
  rw [hs, List.map_cons, if_pos (beq_self_eq_true _)]
  exact ⟨_, rfl⟩

theorem settle_all (scfg : ServerConfig) (env : DecisionEnv)
    (verdicts : List CandidateVerdict) (hs : s.calls = c :: rest)
    (hc : c.stage = .settling verdicts) :
    (Lts.after (stepDecisions scfg.quorum env.embedder) s
        (List.replicate verdicts.length (.call c.request (.settle env.nowSecs)))).quorum =
      verdicts.foldl (fun q v => v.file q env.nowSecs) s.quorum := by
  induction verdicts generalizing s c rest with
  | nil => rfl
  | cons v verdicts ih =>
    rw [List.length_cons, List.replicate_succ', Lts.after_append, Lts.after_cons, Lts.after_nil,
      step_first hs, List.foldl_cons]
    unfold stepCall
    rw [hc]
    dsimp only
    obtain ⟨rest', hs'⟩ := goTo_first (s := { s with
      quorum := v.file s.quorum env.nowSecs, verdicts := (v.id, v.accept) :: s.verdicts }) hs
      (.settling verdicts)
    exact ih (c := { c with stage := .settling verdicts }) hs' rfl

/-- Without a consensus: all candidates are rejected. -/
theorem call_alone_rejects (hs : s.calls = c :: rest) (hc : c.stage = .gathered)
    {vectors : List Embedding}
    (hembed : env.embedder.embedBatch (c.pending.map fun x => x.2.candidateText) = some vectors)
    (hnone : ((agreeingSet env.embedder scfg.quorum vectors).isEmpty ||
      decide ((agreeingSet env.embedder scfg.quorum vectors).length <
        minClique (max scfg.quorum.n 1))) = true) :
    (Lts.after (stepDecisions scfg.quorum env.embedder) s
        (List.replicate c.pending.length (.call c.request (.settle env.nowSecs)) ++
          [.call c.request .compare])).quorum.store =
      rejectAll env s.quorum.store c.pending := by
  obtain ⟨rest', hs'⟩ := goTo_first hs (.settling (rejections c.pending))
  have hlen : c.pending.length = (rejections c.pending).length := (List.length_map _).symm
  rw [Lts.after_append, Lts.after_cons, Lts.after_nil, step_first hs]
  unfold stepCall
  rw [hc]
  dsimp only
  rw [hembed]
  dsimp only
  rw [if_pos hnone, hlen]
  have hall := settle_all scfg env (rejections c.pending) hs' rfl
  dsimp only at hall
  rw [hall]
  exact file_rejections c.pending s.quorum

/-- With a consensus: what `publishConsensus` does in one go. -/
theorem call_alone_publishes (hs : s.calls = c :: rest) (hc : c.stage = .gathered)
    {vectors : List Embedding} {winner : Int × Submission} {store : RlmStore}
    (hembed : env.embedder.embedBatch (c.pending.map fun x => x.2.candidateText) = some vectors)
    (hsome : ((agreeingSet env.embedder scfg.quorum vectors).isEmpty ||
      decide ((agreeingSet env.embedder scfg.quorum vectors).length <
        minClique (max scfg.quorum.n 1))) = false)
    (hwinner : c.pending[choosePublished env.embedder scfg.quorum
      (agreeingSet env.embedder scfg.quorum vectors) c.pending vectors
      s.quorum.db.volunteerTrust]? = some winner)
    (hpublish : publishConsensus env s.quorum.store c.project c.level c.subject c.pending vectors
      (agreeingSet env.embedder scfg.quorum vectors) winner.2 = .ok store) :
    (Lts.after (stepDecisions scfg.quorum env.embedder) s
        (List.replicate c.pending.length (.call c.request (.settle env.nowSecs)) ++
          [.call c.request (.publish env.nodeScan env.freshNodeId env.now),
            .call c.request .choose, .call c.request .compare])).quorum.store = store := by
  set agreeing := agreeingSet env.embedder scfg.quorum vectors with hagreeing
  unfold publishConsensus at hpublish
  split at hpublish
  · cases hpublish
  rename_i nodes id nodeId hnode
  obtain ⟨rest₁, hs₁⟩ := goTo_first hs (.agreed vectors agreeing)
  obtain ⟨rest₂, hs₂⟩ := goTo_first hs₁ (.chosen vectors agreeing winner.2)
  -- compare
  have hcompare : stepDecisions scfg.quorum env.embedder s (.call c.request .compare) =
      s.goTo c.request (.agreed vectors agreeing) := by
    rw [step_first hs]
    unfold stepCall
    rw [hc]
    dsimp only
    rw [hembed]
    dsimp only
    rw [hsome]
    rfl
  -- read the ledger
  have hchoose : stepDecisions scfg.quorum env.embedder (s.goTo c.request
      (.agreed vectors agreeing)) (.call c.request .choose) = (s.goTo c.request
        (.agreed vectors agreeing)).goTo c.request (.chosen vectors agreeing winner.2) := by
    refine (step_first hs₁ .choose).trans ?_
    unfold stepCall
    dsimp only [Decisions.goTo]
    rw [hwinner]
  set s₂ := (s.goTo c.request (.agreed vectors agreeing)).goTo c.request
    (.chosen vectors agreeing winner.2) with hs₂def
  set published : Decisions := { s₂ with
    quorum := { s₂.quorum with db := { s₂.quorum.db with rlmNodes := nodes } } } with hpublished
  have hpub : stepDecisions scfg.quorum env.embedder s₂
      (.call c.request (.publish env.nodeScan env.freshNodeId env.now)) =
        published.goTo c.request
          (.settling (consensusVerdicts env.embedder c.pending vectors agreeing)) := by
    refine (step_first hs₂ (.publish env.nodeScan env.freshNodeId env.now)).trans ?_
    have hwin : publishWinner { c with stage := .chosen vectors agreeing winner.2 } winner.2
        env.nodeScan s₂.quorum.db.rlmNodes env.freshNodeId env.now =
          .ok (nodes, id, nodeId) := hnode
    unfold stepCall
    dsimp only
    rw [hwin]
  obtain ⟨rest₃, hs₃⟩ := goTo_first (s := published) hs₂
    (.settling (consensusVerdicts env.embedder c.pending vectors agreeing))
  have hlen : c.pending.length =
      (consensusVerdicts env.embedder c.pending vectors agreeing).length := by
    simp [consensusVerdicts]
  rw [Lts.after_append, Lts.after_cons, Lts.after_cons, Lts.after_cons, Lts.after_nil, hcompare,
    hchoose, hpub, hlen]
  have hall := settle_all scfg env
    (consensusVerdicts env.embedder c.pending vectors agreeing) hs₃ rfl
  dsimp only at hall
  rw [hall, file_verdicts]
  exact Except.ok.inj hpublish

end Alone

/-! ## Runs -/

/-- Where calls on a subject do not overlap, and none starts after a candidate was accepted, no
node is published for a decided subject, every verdict stands, and none is told to the ledger
twice. -/
theorem decided_stays (ops : List DecisionOp)
    (hops : Lts.Always (stepDecisions cfg e) Decisions.empty
      (fun _ s op => DecidesAlone cfg s op) ops) :
    Lts.Always (stepDecisions cfg e) Decisions.empty (fun _ s op => StaysDecided cfg e s op) ops ∧
      ((Lts.after (stepDecisions cfg e) Decisions.empty ops).verdicts.map Prod.fst).Nodup := by
  have hinv : ∀ ops, Lts.Always (stepDecisions cfg e) Decisions.empty
      (fun _ s op => DecidesAlone cfg s op) ops →
      CallsInv (Lts.after (stepDecisions cfg e) Decisions.empty ops) :=
    Lts.guarded_inv (I := fun _ s => CallsInv s) .empty fun _ _ op hI hop => hI.step op hop
  refine ⟨?_, (hinv ops hops).once⟩
  induction ops with
  | nil => trivial
  | cons op ops ih =>
    obtain ⟨hrun, -⟩ := hops
    exact ⟨ih hrun, (hinv ops hrun).staysDecided op⟩

/-- Both slots are answered; the first call finds both candidates. -/
def bothAnswered : List DecisionOp :=
  [ .file 2 8,
    .file 1 7,
    .complete 2 "w" "second" 0 6,
    .complete 1 "v" "first!" 0 5,
    .load 2 2,
    .load 1 1,
    .queue (.claim .rowid "w" 500000 none 2 4),
    .queue (.claim .rowid "v" 500000 none 2 3),
    .queue (.enqueue .rowid ⟨none, "p", 1, "a", "\x7b\x7d", PRIORITY_FRESH, 2⟩ [] 2) ]

def callSteps (request : Nat) (freshNodeId : String) : List DecisionOp :=
  [ .call request (.settle 11),
    .call request (.settle 10),
    .call request (.publish .rowid freshNodeId 9),
    .call request .choose,
    .call request .compare ]

/-- The calls of the two requests come one after the other. -/
theorem decided_stays_in_turn :
    Lts.Always (stepDecisions pairConfig.quorum sampleEmbedder) Decisions.empty
        (fun _ s op => StaysDecided pairConfig.quorum sampleEmbedder s op)
        (.gather 2 .rowid "p" 1 "a" :: callSteps 1 "n1" ++
          .gather 1 .rowid "p" 1 "a" :: bothAnswered) ∧
      ((Lts.after (stepDecisions pairConfig.quorum sampleEmbedder) Decisions.empty
        (.gather 2 .rowid "p" 1 "a" :: callSteps 1 "n1" ++
          .gather 1 .rowid "p" 1 "a" :: bothAnswered)).verdicts.map Prod.fst).Nodup :=
  decided_stays pairConfig.quorum sampleEmbedder _ (by decide +kernel)

/-- Both calls find both candidates before either has decided: the node is published twice and the
authors' trust goes up twice. -/
def decidedTwice : List DecisionOp :=
  callSteps 2 "n2" ++ callSteps 1 "n1" ++
    .gather 2 .rowid "p" 1 "a" :: .gather 1 .rowid "p" 1 "a" :: bothAnswered

theorem decided_stays_twice :
    (Lts.after (stepDecisions pairConfig.quorum sampleEmbedder) Decisions.empty
      decidedTwice).verdicts = [(2, true), (1, true), (2, true), (1, true)] ∧
    ¬ Lts.Always (stepDecisions pairConfig.quorum sampleEmbedder) Decisions.empty
        (fun _ s op => StaysDecided pairConfig.quorum sampleEmbedder s op) decidedTwice := by
  refine ⟨by decide +kernel, fun h => ?_⟩
  have hpublish : publishes (Lts.after (stepDecisions pairConfig.quorum sampleEmbedder)
      Decisions.empty (decidedTwice.drop 3)) (.call 2 (.publish .rowid "n2" 9)) =
        some ("p", 1, "a") := by decide +kernel
  have haccepted : (Lts.after (stepDecisions pairConfig.quorum sampleEmbedder)
      Decisions.empty (decidedTwice.drop 3)).hasAccepted ("p", 1, "a") = true := by
    decide +kernel
  have hnode := h.1.1.2.nodes ("p", 1, "a") hpublish
  exact absurd (haccepted.symm.trans hnode) (by decide)

end Arags
