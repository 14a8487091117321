import Arags.Rlm.DecisionCalls
import Mathlib.Tactic.NormNum

/-!
# Arags.Rlm.Ledger

The strikes and the trust of the volunteers against the verdicts on their submissions. A call of
`decide_rlm_quorum` writes a verdict and tells the ledger in statements of their own; when one of
them fails, the rest of the pair is skipped, the failure is logged, and the call goes on.

* `LedgerOp`, `stepLedger` — the statements, between which the calls and the queue go on.
* `toldOf`, `ledgerOf` — what was told about a submission, and the ledger that it leaves.
* `LedgerAgrees`   — a verdict is on a submission that is still a candidate, and what follows it
  is written.
* `ledger_matches` — in such runs each decided submission is told to the ledger once.
-/

namespace Arags

open Sql

/-! ## Statements -/

/-- The statement of `record_strike` or `bump_trust_on_accept` that fails. -/
inductive LedgerFault where
  | none
  | seed
  | update
  /-- The final `SELECT` of `record_strike`. -/
  | read
  deriving DecidableEq, Repr

/-- `owed` has the verdicts that are written and not told yet, each with its call. `told` is what
the ledger was told, newest first; the program keeps no such record. -/
structure LedgerState where
  decisions : Decisions
  owed : List (Nat × CandidateVerdict)
  told : List CandidateVerdict

def LedgerState.empty : LedgerState := ⟨Decisions.empty, [], []⟩

inductive LedgerOp where
  /-- A step of the queue, of a completion or of a call that writes no verdict. -/
  | decision (op : DecisionOp)
  /-- `accept_submission` or `reject_submission`, which may fail. -/
  | verdict (request : Nat) (now : Int) (written : Bool)
  /-- `bump_trust_on_accept` or `record_strike`. -/
  | ledger (request : Nat) (fault : LedgerFault)

def CandidateVerdict.status (v : CandidateVerdict) : SubmissionStatus :=
  if v.accept then .accepted else .rejected

def tellLedger (ledger : List VolunteerTrust) (v : CandidateVerdict) : List VolunteerTrust :=
  if v.accept then bumpTrustOnAccept ledger v.candidateBy else recordStrike ledger v.candidateBy

namespace LedgerState

variable (s : LedgerState)

def submissions : Table Submission := s.decisions.quorum.submissions

def ledger : List VolunteerTrust := s.decisions.quorum.db.volunteerTrust

def owes (request : Nat) : Option (Nat × CandidateVerdict) :=
  s.owed.find? fun o => o.1 == request

/-- The verdict a call writes next, and those after it; none while it owes one. -/
def nextVerdict (request : Nat) : Option (CandidateVerdict × List CandidateVerdict) :=
  if (s.owes request).isSome then none
  else
    match (s.decisions.call request).map DecisionCall.stage with
    | some (.settling (v :: rest)) => some (v, rest)
    | _ => none

def withLedger (ledger : List VolunteerTrust) : LedgerState :=
  let quorum := s.decisions.quorum
  { s with decisions := { s.decisions with
      quorum := { quorum with db := { quorum.db with volunteerTrust := ledger } } } }

def withVerdict (v : CandidateVerdict) (now : Int) : LedgerState :=
  let quorum := s.decisions.quorum
  { s with decisions := { s.decisions with quorum := { quorum with
      submissions := decideSubmission v.status quorum.submissions v.id "quorum" v.similarity
        now } } }

end LedgerState

variable (cfg : QuorumConfig) (e : Embedder)

def stepLedger (s : LedgerState) : LedgerOp → LedgerState
  -- verdicts go through the two other statements, and nothing else writes the ledger
  | .decision (.call _ (.settle _)) => s
  | .decision (.queue (.trust _)) => s
  | .decision op => { s with decisions := stepDecisions cfg e s.decisions op }
  | .verdict request now written =>
    match s.nextVerdict request with
    | none => s
    | some (v, rest) =>
      let next : LedgerState := { s with decisions := s.decisions.goTo request (.settling rest) }
      if written then { next.withVerdict v now with owed := (request, v) :: s.owed } else next
  | .ledger request fault =>
    match s.owes request with
    | none => s
    | some (_, v) =>
      let next : LedgerState := { s with owed := s.owed.eraseP fun o => o.1 == request }
      match fault with
      | .seed => next
      | .update => next.withLedger (seedTrust s.ledger v.candidateBy)
      | .none | .read => { next.withLedger (tellLedger s.ledger v) with told := v :: s.told }

/-! ## What the ledger was told -/

/-- The ledger that the verdicts leave, the last one first. -/
def ledgerOf : List CandidateVerdict → List VolunteerTrust
  | [] => []
  | v :: told => tellLedger (ledgerOf told) v

/-- What the ledger was told about a submission: the author, and whether it was a bump. -/
def toldOf (told : List CandidateVerdict) (id : Int) : List (String × Bool) :=
  (told.filter fun v => v.id == id).map fun v => (v.candidateBy, v.accept)

/-- What it should have been told. -/
def Submission.entries (r : Submission) : List (String × Bool) :=
  match r.status with
  | .candidate => []
  | .accepted => [(r.candidateBy, true)]
  | .rejected => [(r.candidateBy, false)]

/-- Each submission that no call is in the middle of has its one entry, or none while it is a
candidate, and the ledger is what the entries leave. -/
structure LedgerMatches (s : LedgerState) : Prop where
  entries : ∀ x ∈ s.submissions.rows, x.1 ∉ s.owed.map (fun o => o.2.id) →
    toldOf s.told x.1 = x.2.entries
  ledger : s.ledger = ledgerOf s.told

instance (s : LedgerState) : Decidable (LedgerMatches s) :=
  decidable_of_iff ((∀ x ∈ s.submissions.rows, x.1 ∉ s.owed.map (fun o => o.2.id) →
      toldOf s.told x.1 = x.2.entries) ∧ s.ledger = ledgerOf s.told)
    ⟨fun h => ⟨h.1, h.2⟩, fun h => ⟨h.entries, h.ledger⟩⟩

/-- A verdict that is written finds its submission a candidate still, and the ledger is told of
it. -/
def LedgerAgrees (s : LedgerState) : LedgerOp → Prop
  | .decision _ => True
  | .verdict request _ written => written = true → ∀ next ∈ s.nextVerdict request,
      ∀ r ∈ s.submissions.get? next.1.id, r.status = .candidate
  | .ledger request fault => (s.owes request).isSome = true → fault = .none ∨ fault = .read

instance decidableLedgerAgrees (s : LedgerState) : ∀ op, Decidable (LedgerAgrees s op)
  | .decision _ => inferInstanceAs (Decidable True)
  | .verdict request _ written => inferInstanceAs (Decidable (written = true →
      ∀ next ∈ s.nextVerdict request, ∀ r ∈ s.submissions.get? next.1.id, r.status = .candidate))
  | .ledger request fault => inferInstanceAs (Decidable
      ((s.owes request).isSome = true → fault = .none ∨ fault = .read))

/-- Where nothing fails or comes between, the two statements are `CandidateVerdict.file`. -/
theorem verdict_then_ledger {s : LedgerState} {request : Nat} {v : CandidateVerdict}
    {rest : List CandidateVerdict} (h : s.nextVerdict request = some (v, rest)) (now : Int) :
    (stepLedger cfg e (stepLedger cfg e s (.verdict request now true))
      (.ledger request .none)).decisions.quorum = v.file s.decisions.quorum now := by
  have howes : ∀ s' : LedgerState, s'.owed = (request, v) :: s.owed →
      s'.owes request = some (request, v) := by
    intro s' hs'
    simp [LedgerState.owes, hs']
  simp only [stepLedger, h, if_true]
  rw [howes _ rfl]
  unfold CandidateVerdict.file tellLedger
  cases hv : v.accept <;>
    simp [LedgerState.withLedger, LedgerState.withVerdict, LedgerState.ledger, Decisions.goTo,
      acceptSubmission, rejectSubmission, CandidateVerdict.status, hv]

/-! ## Bounds -/

/-- No strikes below zero, and trust between zero and one. -/
def LedgerBounded (ledger : List VolunteerTrust) : Prop :=
  ∀ vt ∈ ledger, 0 ≤ vt.strikes ∧ 0 ≤ vt.trustScore ∧ vt.trustScore ≤ 1

theorem LedgerBounded.seedTrust {ledger : List VolunteerTrust} (h : LedgerBounded ledger)
    (volunteer : String) : LedgerBounded (seedTrust ledger volunteer) := by
  unfold Arags.seedTrust
  split
  · exact h
  · intro vt hvt
    rcases List.mem_append.mp hvt with hold | hnew
    · exact h vt hold
    · obtain rfl := List.mem_singleton.mp hnew
      exact ⟨Int.le_refl _, by norm_num, le_refl _⟩

theorem LedgerBounded.tellLedger {ledger : List VolunteerTrust} (h : LedgerBounded ledger)
    (v : CandidateVerdict) : LedgerBounded (tellLedger ledger v) := by
  have hseed := h.seedTrust v.candidateBy
  unfold Arags.tellLedger
  split
  · intro vt hvt
    obtain ⟨old, hold, rfl⟩ := List.mem_map.mp hvt
    obtain ⟨hs, h0, h1⟩ := hseed old hold
    split
    · refine ⟨le_max_left _ _, le_min (by norm_num) ?_, min_le_left _ _⟩
      exact h0.trans (le_add_of_nonneg_right (by norm_num))
    · exact ⟨hs, h0, h1⟩
  · intro vt hvt
    obtain ⟨old, hold, rfl⟩ := List.mem_map.mp hvt
    obtain ⟨hs, h0, h1⟩ := hseed old hold
    split
    · refine ⟨Int.le_trans hs (Int.le_add_of_nonneg_right (by decide)), le_max_left _ _, ?_⟩
      exact max_le (by norm_num) ((sub_le_self _ (by norm_num)).trans h1)
    · exact ⟨hs, h0, h1⟩

/-! ## Who writes the ledger -/

theorem step_trust {db : RlmDb} {op : QueueOp} (hop : ∀ ledger, op ≠ .trust ledger) :
    (step db op).volunteerTrust = db.volunteerTrust := by
  cases op with
  | enqueue scan job exclude now =>
    unfold step enqueueRlmJob
    dsimp only
    split
    · split <;> rfl
    · rfl
  | claim scan v leaseMs maxLevel limit now =>
    rcases claimRlmJob_cases db scan v leaseMs maxLevel limit now with h | ⟨i, r, -, -, h⟩
    · rw [step, h]
    · rw [step, h]
  | complete jobId worker gen now =>
    rcases completeRlmJob_cases db jobId worker gen now with h | ⟨r, -, -, -, h⟩
    · rw [step, h]
    · rw [step, h]
  | completeWithNode scan jobId worker gen input nodeId now now' =>
    rcases completeRlmJobWithNode_cases db scan jobId worker gen input nodeId now now' with
      ⟨o, h, -⟩ | ⟨r, nodes, pair, -, -, -, -, h⟩
    · rw [step, h]
    · rw [step, h]
  | fail jobId worker error maxAttempts now => rfl
  | cancel project subjects now =>
    clear hop
    unfold step cancelRlmJobsForSubjects
    dsimp only
    induction subjects generalizing db with
    | nil => rfl
    | cons subject subjects ih => exact @ih (cancelSubject db project subject now)
  | requeue now => rfl
  | updatePayload project level subject payload now => rfl
  | trust ledger => exact absurd rfl (hop ledger)

/-- A step that writes no verdict adds candidates at most, and leaves the ledger alone. -/
theorem stepDecisions_ledger {s : Decisions} {op : DecisionOp}
    (hsettle : ∀ request now, op ≠ .call request (.settle now))
    (htrust : ∀ ledger, op ≠ .queue (.trust ledger)) :
    Grown s.quorum.submissions (stepDecisions cfg e s op).quorum.submissions ∧
      (stepDecisions cfg e s op).quorum.db.volunteerTrust = s.quorum.db.volunteerTrust := by
  cases op with
  | queue op =>
    refine ⟨.refl _, step_trust fun ledger he => htrust ledger (congrArg _ he)⟩
  | load request jobId =>
    refine ⟨stepQuorum_grown _ _ _ nofun, ?_⟩
    unfold stepDecisions stepQuorum
    dsimp only
    split
    · split <;> rfl
    · rfl
  | complete request volunteer text generation now =>
    refine ⟨stepQuorum_grown _ _ _ nofun, ?_⟩
    unfold stepDecisions stepQuorum
    dsimp only
    split
    · split
      · exact step_trust nofun
      · rfl
    · rfl
  | file request now =>
    refine ⟨stepQuorum_grown _ _ _ nofun, ?_⟩
    unfold stepDecisions stepQuorum
    dsimp only
    split <;> rfl
  | gather request scan project level subject =>
    unfold stepDecisions
    dsimp only
    split
    · split <;> exact ⟨.refl _, rfl⟩
    · exact ⟨.refl _, rfl⟩
  | call request op =>
    unfold stepDecisions
    dsimp only
    split
    · rename_i c hc
      unfold stepCall
      split
      · split
        · exact ⟨.refl _, rfl⟩
        · dsimp only
          split <;> exact ⟨.refl _, rfl⟩
      · split <;> exact ⟨.refl _, rfl⟩
      · split <;> exact ⟨.refl _, rfl⟩
      · exact absurd rfl (hsettle request _)
      · exact ⟨.refl _, rfl⟩
      · exact ⟨.refl _, rfl⟩
    · exact ⟨.refl _, rfl⟩

/-! ## The authors a call has noted -/

def WrittenBy (t : Table Submission) (i : Int) (volunteer : String) : Prop :=
  ∃ r, (i, r) ∈ t.rows ∧ r.candidateBy = volunteer

/-- A call strikes and lifts the authors of the submissions themselves. -/
structure NotesAuthors (t : Table Submission) (c : DecisionCall) : Prop where
  pending : ∀ x ∈ c.pending, WrittenBy t x.1 x.2.candidateBy
  settling : ∀ verdicts, c.stage = .settling verdicts →
    ∀ v ∈ verdicts, WrittenBy t v.id v.candidateBy

/-- No submission goes or changes hands. -/
def KeepsAuthors (t t' : Table Submission) : Prop :=
  ∀ i volunteer, WrittenBy t i volunteer → WrittenBy t' i volunteer

theorem Grown.keepsAuthors {t t' : Table Submission} (h : Grown t t') : KeepsAuthors t t' :=
  fun _ _ ⟨r, hr, hby⟩ => ⟨r, h.kept _ hr, hby⟩

theorem keepsAuthors_decide (status : SubmissionStatus) (t : Table Submission) (id : Int)
    (decidedBy : String) (similarity : Option Rat) (now : Int) :
    KeepsAuthors t (decideSubmission status t id decidedBy similarity now) := by
  rintro i volunteer ⟨r, hr, hby⟩
  refine ⟨_, Table.mem_update.mpr ⟨r, hr, rfl⟩, ?_⟩
  split
  · exact hby
  · exact hby

theorem NotesAuthors.mono {t t' : Table Submission} {c : DecisionCall} (h : NotesAuthors t c)
    (hkeep : KeepsAuthors t t') : NotesAuthors t' c where
  pending x hx := hkeep _ _ (h.pending x hx)
  settling verdicts hstage v hv := hkeep _ _ (h.settling verdicts hstage v hv)

theorem mem_rejections {pending : List (Int × Submission)} {v : CandidateVerdict}
    (hv : v ∈ rejections pending) :
    ∃ x ∈ pending, v.id = x.1 ∧ v.candidateBy = x.2.candidateBy := by
  obtain ⟨x, hx, rfl⟩ := List.mem_map.mp hv
  exact ⟨x, hx, rfl, rfl⟩

theorem mem_consensusVerdicts {pending : List (Int × Submission)} {vectors : List Embedding}
    {agreeing : List Nat} {v : CandidateVerdict}
    (hv : v ∈ consensusVerdicts e pending vectors agreeing) :
    ∃ x ∈ pending, v.id = x.1 ∧ v.candidateBy = x.2.candidateBy := by
  obtain ⟨x, hx, rfl⟩ := List.mem_map.mp hv
  exact ⟨x.1, List.fst_mem_of_mem_zipIdx hx, rfl, rfl⟩

/-- A call goes on with verdicts on what it has gathered, or without any. -/
theorem NotesAuthors.advance {t : Table Submission} {c : DecisionCall} (h : NotesAuthors t c)
    {stage : CallStage} (hstage : ∀ verdicts, stage = .settling verdicts → ∀ v ∈ verdicts,
      ∃ x ∈ c.pending, v.id = x.1 ∧ v.candidateBy = x.2.candidateBy) :
    NotesAuthors t { c with stage := stage } where
  pending := h.pending
  settling verdicts hs v hv := by
    obtain ⟨x, hx, hid, hby⟩ := hstage verdicts hs v hv
    rw [hid, hby]
    exact h.pending x hx

/-- The requests of the calls differ, and each call has noted its authors. -/
structure CallsNamed (s : Decisions) : Prop where
  requests : (s.calls.map DecisionCall.request).Nodup
  authors : ∀ c ∈ s.calls, NotesAuthors s.quorum.submissions c

namespace CallsNamed

variable {cfg : QuorumConfig} {e : Embedder} {s : Decisions} {c : DecisionCall}

theorem empty : CallsNamed Decisions.empty where
  requests := .nil
  authors _ hc := nomatch hc

theorem finished (h : CallsNamed s) (request : Nat) : CallsNamed (s.finished request) := by
  have hsub : (s.finished request).calls.Sublist s.calls := List.filter_sublist
  exact ⟨h.requests.sublist (hsub.map _), fun c hc => h.authors c (hsub.subset hc)⟩

theorem goTo (h : CallsNamed s) (hc : c ∈ s.calls) {stage : CallStage}
    (hnext : NotesAuthors s.quorum.submissions { c with stage := stage }) :
    CallsNamed (s.goTo c.request stage) where
  requests := by
    rw [s.goTo_requests]
    exact h.requests
  authors d hd := by
    rcases Decisions.mem_goTo h.requests hc hd with rfl | ⟨hm, -⟩
    · exact hnext
    · exact h.authors d hm

theorem keeps (h : CallsNamed s) {q : QuorumState}
    (hq : KeepsAuthors s.quorum.submissions q.submissions) :
    CallsNamed { s with quorum := q } where
  requests := h.requests
  authors c hc := (h.authors c hc).mono hq

/-- What is listed has the authors of its rows. -/
theorem gather (h : CallsNamed s) {request : Nat} {scan : ScanOrder Submission}
    {project subject : String} {level : Int} {pending : List (Int × Submission)}
    (hgather : gatherRlmQuorum cfg.n scan s.quorum.submissions project level subject =
      some pending)
    (hfree : s.call request = none) :
    CallsNamed { s with calls := ⟨request, project, level, subject, pending, .gathered⟩ ::
      s.calls } := by
  obtain ⟨rfl, -⟩ := gatherRlmQuorum_eq_some.mp hgather
  constructor
  · rw [List.map_cons, List.nodup_cons]
    refine ⟨fun hm => ?_, h.requests⟩
    obtain ⟨c, hc, he⟩ := List.mem_map.mp hm
    exact List.find?_eq_none.mp hfree c hc (by simpa using he)
  · rw [List.forall_mem_cons]
    exact ⟨⟨fun x hx => ⟨x.2, (mem_listPending.mp hx).1, rfl⟩, nofun⟩, h.authors⟩

theorem stepCall (h : CallsNamed s) (hc : c ∈ s.calls) {op : CallOp}
    (hop : ∀ now, op ≠ .settle now) : CallsNamed (stepCall cfg e s c op) := by
  have hauthors := h.authors c hc
  unfold Arags.stepCall
  split
  · split
    · exact h.finished _
    · dsimp only
      split
      · refine h.goTo hc (hauthors.advance fun verdicts hs v hv => ?_)
        obtain rfl := CallStage.settling.inj hs
        exact mem_rejections hv
      · exact h.goTo hc (hauthors.advance nofun)
  · split
    · exact h.finished _
    · exact h.goTo hc (hauthors.advance nofun)
  · split
    · exact h.finished _
    · rename_i vectors agreeing _ _ _ _ _ _ nodes _ _ _
      have hnodes : CallsNamed { s with
          quorum := { s.quorum with db := { s.quorum.db with rlmNodes := nodes } } } :=
        h.keeps fun _ _ hby => hby
      refine hnodes.goTo hc (hauthors.advance fun verdicts hs v hv => ?_)
      obtain rfl := CallStage.settling.inj hs
      exact mem_consensusVerdicts e hv
  · exact absurd rfl (hop _)
  · exact h.finished _
  · exact h

theorem step (h : CallsNamed s) {op : DecisionOp}
    (hsettle : ∀ request now, op ≠ .call request (.settle now)) :
    CallsNamed (stepDecisions cfg e s op) := by
  cases op with
  | queue op => exact h.keeps (stepQuorum_grown cfg.n s.quorum (.queue op) nofun).keepsAuthors
  | load request jobId =>
    exact h.keeps (stepQuorum_grown cfg.n s.quorum (.load request jobId) nofun).keepsAuthors
  | complete request volunteer text generation now =>
    exact h.keeps (stepQuorum_grown cfg.n s.quorum
      (.complete request volunteer text generation now) nofun).keepsAuthors
  | file request now =>
    exact h.keeps (stepQuorum_grown cfg.n s.quorum (.file request now) nofun).keepsAuthors
  | gather request scan project level subject =>
    unfold stepDecisions
    dsimp only
    split
    · rename_i pending hgather
      split
      · exact h
      · rename_i hfree
        exact h.gather hgather (by simpa using hfree)
    · exact h
  | call request op =>
    unfold stepDecisions
    dsimp only
    split
    · rename_i c hc
      exact h.stepCall (List.mem_of_find?_eq_some hc) fun now he =>
        hsettle request now (congrArg _ he)
    · exact h

end CallsNamed

/-! ## The ledger in a run -/

/-- An owed verdict is the status of its submission; a submission that is not owed has its
entries. -/
structure LedgerInv (s : LedgerState) : Prop where
  calls : CallsNamed s.decisions
  owed : ∀ o ∈ s.owed, ∃ r, (o.2.id, r) ∈ s.submissions.rows ∧
    r.candidateBy = o.2.candidateBy ∧ r.status = o.2.status
  once : (s.owed.map fun o => o.2.id).Nodup
  told : ∀ v ∈ s.told, ∃ r, (v.id, r) ∈ s.submissions.rows
  entries : ∀ x ∈ s.submissions.rows, toldOf s.told x.1 =
    if x.1 ∈ s.owed.map (fun o => o.2.id) then [] else x.2.entries
  ledger : s.ledger = ledgerOf s.told

theorem LedgerInv.matches {s : LedgerState} (h : LedgerInv s) : LedgerMatches s where
  entries x hx hfree := by
    rw [h.entries x hx, if_neg hfree]
  ledger := h.ledger

theorem toldOf_cons_ne {told : List CandidateVerdict} {v : CandidateVerdict} {i : Int}
    (h : i ≠ v.id) : toldOf (v :: told) i = toldOf told i := by
  unfold toldOf
  rw [List.filter_cons_of_neg (by simpa using Ne.symm h)]

theorem toldOf_cons_self {told : List CandidateVerdict} {v : CandidateVerdict} :
    toldOf (v :: told) v.id = (v.candidateBy, v.accept) :: toldOf told v.id := by
  simp [toldOf]

/-- The entry of a verdict is what its status asks for. -/
theorem entries_of_status {r : Submission} {v : CandidateVerdict}
    (hby : r.candidateBy = v.candidateBy) (hs : r.status = v.status) :
    r.entries = [(v.candidateBy, v.accept)] := by
  unfold Submission.entries
  rw [hs, hby]
  unfold CandidateVerdict.status
  cases v.accept <;> rfl

/-- Nothing was told about a row that is new. -/
theorem toldOf_new {t : Table Submission} {told : List CandidateVerdict} {i : Int}
    (htold : ∀ v ∈ told, ∃ r, (v.id, r) ∈ t.rows) (hnew : ∀ r, (i, r) ∉ t.rows) :
    toldOf told i = [] := by
  unfold toldOf
  rw [List.map_eq_nil_iff, List.filter_eq_nil_iff]
  intro v hv hid
  obtain ⟨r, hr⟩ := htold v hv
  exact hnew r (beq_iff_eq.mp hid ▸ hr)

namespace LedgerInv

variable {cfg : QuorumConfig} {e : Embedder} {s : LedgerState}

theorem empty : LedgerInv LedgerState.empty where
  calls := .empty
  owed _ ho := nomatch ho
  once := .nil
  told _ hv := nomatch hv
  entries _ hx := nomatch hx
  ledger := rfl

/-- The queue, the completions and the calls go on. -/
theorem decision (h : LedgerInv s) {op : DecisionOp}
    (hsettle : ∀ request now, op ≠ .call request (.settle now))
    (htrust : ∀ ledger, op ≠ .queue (.trust ledger)) :
    LedgerInv { s with decisions := stepDecisions cfg e s.decisions op } := by
  obtain ⟨hgrown, hledger⟩ := stepDecisions_ledger cfg e hsettle htrust
    (s := s.decisions)
  refine ⟨h.calls.step hsettle, ?_, h.once, ?_, ?_, hledger.trans h.ledger⟩
  · intro o ho
    obtain ⟨r, hr, hrest⟩ := h.owed o ho
    exact ⟨r, hgrown.kept _ hr, hrest⟩
  · intro v hv
    obtain ⟨r, hr⟩ := h.told v hv
    exact ⟨r, hgrown.kept _ hr⟩
  · rintro ⟨i, r⟩ hx
    by_cases hold : (i, r) ∈ s.submissions.rows
    · exact h.entries _ hold
    · have hnew : ∀ r', (i, r') ∉ s.submissions.rows := by
        intro r' hr'
        obtain rfl : r' = r := Table.eq_of_mem (hgrown.kept _ hr') hx
        exact hold hr'
      have hcandidate : r.status = .candidate := (hgrown.new _ hx).resolve_left hold
      have hfree : i ∉ s.owed.map fun o => o.2.id := by
        intro hm
        obtain ⟨o, ho, rfl⟩ := List.mem_map.mp hm
        obtain ⟨r', hr', -⟩ := h.owed o ho
        exact hnew r' hr'
      rw [toldOf_new h.told hnew, if_neg hfree, Submission.entries, hcandidate]

/-- A call passes on to the verdicts that are left. -/
theorem passes (h : LedgerInv s) {request : Nat} {v : CandidateVerdict}
    {rest : List CandidateVerdict} (hnext : s.nextVerdict request = some (v, rest)) :
    WrittenBy s.submissions v.id v.candidateBy ∧
      LedgerInv { s with decisions := s.decisions.goTo request (.settling rest) } := by
  obtain ⟨c, hc, hstage⟩ : ∃ c, s.decisions.call request = some c ∧
      c.stage = .settling (v :: rest) := by
    unfold LedgerState.nextVerdict at hnext
    split at hnext
    · cases hnext
    · split at hnext
      · rename_i v' rest' hcall
        obtain ⟨c, hc, hstage⟩ := Option.map_eq_some_iff.mp hcall
        cases hnext
        exact ⟨c, hc, hstage⟩
      · cases hnext
  have hmem : c ∈ s.decisions.calls := List.mem_of_find?_eq_some hc
  obtain rfl : c.request = request := by simpa using List.find?_some hc
  have hauthors := (h.calls.authors c hmem).settling _ hstage
  have hcalls : CallsNamed (s.decisions.goTo c.request (.settling rest)) := by
    refine h.calls.goTo hmem ⟨(h.calls.authors c hmem).pending, fun verdicts hs w hw => ?_⟩
    obtain rfl := CallStage.settling.inj hs
    exact hauthors w (List.mem_cons_of_mem v hw)
  exact ⟨hauthors v List.mem_cons_self,
    ⟨hcalls, h.owed, h.once, h.told, h.entries, h.ledger⟩⟩

theorem mem_decide_ne {t : Table Submission} {status : SubmissionStatus} {id i : Int}
    {decidedBy : String} {similarity : Option Rat} {now : Int} {r : Submission} (hi : i ≠ id) :
    (i, r) ∈ (decideSubmission status t id decidedBy similarity now).rows ↔ (i, r) ∈ t.rows := by
  unfold decideSubmission
  rw [Table.mem_update]
  constructor
  · rintro ⟨r', hr', rfl⟩
    rw [if_neg (by simpa using hi)]
    exact hr'
  · intro hr
    exact ⟨r, hr, by rw [if_neg (by simpa using hi)]⟩

theorem mem_decide_self {t : Table Submission} {status : SubmissionStatus} {id : Int}
    {decidedBy : String} {similarity : Option Rat} {now : Int} {r : Submission}
    (hr : (id, r) ∈ t.rows) : ∃ r', (id, r') ∈ (decideSubmission status t id decidedBy similarity
      now).rows ∧ r'.candidateBy = r.candidateBy ∧ r'.status = status := by
  unfold decideSubmission
  refine ⟨_, Table.mem_update.mpr ⟨r, hr, rfl⟩, ?_⟩
  rw [if_pos (beq_self_eq_true _)]
  exact ⟨rfl, rfl⟩

/-- A verdict on a candidate is owed. -/
theorem verdict (h : LedgerInv s) {v : CandidateVerdict}
    (hby : WrittenBy s.submissions v.id v.candidateBy)
    (hcandidate : ∀ r ∈ s.submissions.get? v.id, r.status = .candidate)
    (request : Nat) (now : Int) :
    LedgerInv { s.withVerdict v now with owed := (request, v) :: s.owed } := by
  obtain ⟨r, hr, hauthor⟩ := hby
  have hcand : r.status = .candidate := hcandidate r (Table.get?_eq_some.mpr hr)
  have hfree : v.id ∉ s.owed.map fun o => o.2.id := by
    intro hm
    obtain ⟨o, ho, he⟩ := List.mem_map.mp hm
    obtain ⟨r', hr', -, hs'⟩ := h.owed o ho
    obtain rfl : r' = r := Table.eq_of_mem (he ▸ hr') hr
    rw [hcand, CandidateVerdict.status] at hs'
    split at hs' <;> cases hs'
  have hkeep := keepsAuthors_decide v.status s.submissions v.id "quorum" v.similarity now
  refine ⟨h.calls.keeps hkeep, ?_, ?_, ?_, ?_, h.ledger⟩
  · intro o ho
    rcases List.mem_cons.mp ho with rfl | ho
    · obtain ⟨r', hr', hby', hs'⟩ := mem_decide_self hr
      exact ⟨r', hr', hby'.trans hauthor, hs'⟩
    · obtain ⟨r', hr', hrest⟩ := h.owed o ho
      have hne : o.2.id ≠ v.id := fun he => hfree (he ▸ List.mem_map_of_mem ho)
      exact ⟨r', (mem_decide_ne hne).mpr hr', hrest⟩
  · rw [List.map_cons, List.nodup_cons]
    exact ⟨hfree, h.once⟩
  · intro w hw
    obtain ⟨r', hr'⟩ := h.told w hw
    obtain ⟨r'', hr'', -⟩ := hkeep w.id _ ⟨r', hr', rfl⟩
    exact ⟨r'', hr''⟩
  · rintro ⟨i, r'⟩ hx
    show toldOf s.told i = if i ∈ v.id :: s.owed.map (fun o => o.2.id) then [] else r'.entries
    by_cases hi : i = v.id
    · subst hi
      rw [if_pos List.mem_cons_self, h.entries _ hr, if_neg hfree, Submission.entries, hcand]
    · rw [h.entries (i, r') ((mem_decide_ne hi).mp hx)]
      refine if_congr ?_ rfl rfl
      rw [List.mem_cons, or_iff_right hi]

/-- The ledger is told of a verdict that is owed. -/
theorem tell (h : LedgerInv s) {request : Nat} {o : Nat × CandidateVerdict}
    (howes : s.owes request = some o) :
    LedgerInv { ({ s with owed := s.owed.eraseP fun o => o.1 == request } :
      LedgerState).withLedger (tellLedger s.ledger o.2) with told := o.2 :: s.told } := by
  obtain ⟨l₁, l₂, hsplit, herase⟩ := eraseP_of_find? howes
  have hmem : o ∈ s.owed := by
    rw [hsplit]
    exact List.mem_append_right _ List.mem_cons_self
  obtain ⟨r, hr, hauthor, hstatus⟩ := h.owed o hmem
  have hids : s.owed.map (fun o => o.2.id) =
      l₁.map (fun o => o.2.id) ++ o.2.id :: l₂.map fun o => o.2.id := by
    rw [hsplit, List.map_append, List.map_cons]
  have hrest : (s.owed.eraseP fun o => o.1 == request).map (fun o => o.2.id) =
      l₁.map (fun o => o.2.id) ++ l₂.map fun o => o.2.id := by
    rw [herase, List.map_append]
  have hperm : List.Perm (s.owed.map fun o => o.2.id)
      (o.2.id :: (s.owed.eraseP fun o => o.1 == request).map fun o => o.2.id) := by
    rw [hids, hrest]
    exact List.perm_middle
  have hnodup := hperm.nodup_iff.mp h.once
  rw [List.nodup_cons] at hnodup
  refine ⟨h.calls.keeps fun _ _ hby => hby, fun o' ho' => h.owed o' (List.mem_of_mem_eraseP ho'),
    hnodup.2, ?_, ?_, ?_⟩
  · intro w hw
    rcases List.mem_cons.mp hw with rfl | hw
    · exact ⟨r, hr⟩
    · exact h.told w hw
  · rintro ⟨i, r'⟩ hx
    show toldOf (o.2 :: s.told) i =
      if i ∈ (s.owed.eraseP fun o => o.1 == request).map (fun o => o.2.id) then []
      else r'.entries
    by_cases hi : i = o.2.id
    · subst hi
      obtain rfl : r' = r := Table.eq_of_mem hx hr
      rw [toldOf_cons_self, h.entries _ hr, if_pos (List.mem_map_of_mem hmem),
        if_neg hnodup.1, entries_of_status hauthor hstatus]
    · rw [toldOf_cons_ne hi, h.entries (i, r') hx]
      refine if_congr ?_ rfl rfl
      rw [hperm.mem_iff, List.mem_cons, or_iff_right hi]
  · show tellLedger s.ledger o.2 = ledgerOf (o.2 :: s.told)
    rw [h.ledger]
    rfl

theorem step (h : LedgerInv s) (op : LedgerOp) (hop : LedgerAgrees s op) :
    LedgerInv (stepLedger cfg e s op) := by
  cases op with
  | decision op =>
    unfold stepLedger
    split
    · exact h
    · exact h
    · rename_i hsettle htrust he
      cases he
      exact h.decision hsettle htrust
    · rename_i he
      cases he
    · rename_i he
      cases he
  | verdict request now written =>
    unfold stepLedger
    dsimp only
    split
    · exact h
    · rename_i v rest hnext
      obtain ⟨hby, hpassed⟩ := h.passes hnext
      cases written with
      | false => exact hpassed
      | true => exact hpassed.verdict hby (hop rfl _ hnext) request now
  | ledger request fault =>
    unfold stepLedger
    dsimp only
    split
    · exact h
    · rename_i request' v howes
      rcases hop (by rw [howes]; rfl) with rfl | rfl
      · exact h.tell howes
      · exact h.tell howes

end LedgerInv

/-- The ledger stays within its bounds whatever fails. -/
theorem stepLedger_bounded {s : LedgerState} (h : LedgerBounded s.ledger) (op : LedgerOp) :
    LedgerBounded (stepLedger cfg e s op).ledger := by
  cases op with
  | decision op =>
    unfold stepLedger
    split
    · exact h
    · exact h
    · rename_i hsettle htrust he
      cases he
      have hsame := (stepDecisions_ledger cfg e hsettle htrust (s := s.decisions)).2
      show LedgerBounded (stepDecisions cfg e s.decisions op).quorum.db.volunteerTrust
      rw [hsame]
      exact h
    · rename_i he
      cases he
    · rename_i he
      cases he
  | verdict request now written =>
    unfold stepLedger
    dsimp only
    split
    · exact h
    · split <;> exact h
  | ledger request fault =>
    unfold stepLedger
    dsimp only
    split
    · exact h
    · rename_i request' v _
      cases fault with
      | none => exact h.tellLedger v
      | seed => exact h
      | update => exact h.seedTrust v.candidateBy
      | read => exact h.tellLedger v

/-- In every run strikes and trust stay in their bounds. Where each verdict that is written finds a
candidate and is told to the ledger, each decided submission is told once, as its status says,
and the ledger is what was told. -/
theorem ledger_matches (ops : List LedgerOp) :
    LedgerBounded (Lts.after (stepLedger cfg e) LedgerState.empty ops).ledger ∧
      (Lts.Always (stepLedger cfg e) LedgerState.empty (fun _ s op => LedgerAgrees s op) ops →
        LedgerMatches (Lts.after (stepLedger cfg e) LedgerState.empty ops)) := by
  constructor
  · refine Lts.run_inv (I := fun _ (s : LedgerState) => LedgerBounded s.ledger) ?_ ?_ ops
    · intro vt hvt
      cases hvt
    · exact fun _ s op h => stepLedger_bounded cfg e h op
  · intro hops
    have hinv : LedgerInv (Lts.after (stepLedger cfg e) LedgerState.empty ops) :=
      Lts.guarded_inv (I := fun _ s => LedgerInv s) .empty
        (fun _ _ op h hop => h.step op hop) ops hops
    exact hinv.matches

/-! ## Verdicts that are told wrongly -/

/-- A call on two candidates that agree, up to its verdicts. -/
def agreedCall (request : Nat) (freshNodeId : String) : List DecisionOp :=
  [ .call request (.publish .rowid freshNodeId 9),
    .call request .choose,
    .call request .compare ]

/-- The first verdict is not written; the second one is told, and the read after it fails. -/
def toldOnce : List LedgerOp :=
  .ledger 1 .read :: .verdict 1 11 true :: .verdict 1 10 false ::
    (agreedCall 1 "n1" ++ .gather 1 .rowid "p" 1 "a" :: bothAnswered).map .decision

theorem ledger_matches_once :
    LedgerMatches (Lts.after (stepLedger pairConfig.quorum sampleEmbedder) LedgerState.empty
      toldOnce) :=
  (ledger_matches pairConfig.quorum sampleEmbedder toldOnce).2 (by decide +kernel)

/-- The two answers differ. -/
def answeredApart : List DecisionOp :=
  bothAnswered.map fun
    | .complete 2 volunteer _ generation now => .complete 2 volunteer "another" generation now
    | op => op

/-- Both are rejected, and the first strike fails. -/
def strikeLost : List LedgerOp :=
  .ledger 1 .none :: .verdict 1 11 true :: .ledger 1 .update :: .verdict 1 10 true ::
    (.call 1 .compare :: .gather 1 .rowid "p" 1 "a" :: answeredApart).map .decision

/-- Two calls list the first candidate before either has decided it. -/
def toldTwice : List LedgerOp :=
  .ledger 2 .none :: .verdict 2 11 true :: .ledger 1 .none :: .verdict 1 10 true ::
    (agreedCall 2 "n2" ++ agreedCall 1 "n1" ++
      .gather 2 .rowid "p" 1 "a" :: .gather 1 .rowid "p" 1 "a" :: bothAnswered).map .decision

/-- A rejected submission has no strike; an accepted one has two bumps. -/
theorem ledger_matches_wrong :
    let lost := Lts.after (stepLedger pairConfig.quorum sampleEmbedder) LedgerState.empty strikeLost
    let twice := Lts.after (stepLedger pairConfig.quorum sampleEmbedder) LedgerState.empty toldTwice
    (lost.owed = [] ∧
      lost.submissions.rows.map (fun x => (x.1, x.2.candidateBy, x.2.status)) =
        [(1, "v", .rejected), (2, "w", .rejected)] ∧
      toldOf lost.told 1 = [] ∧ toldOf lost.told 2 = [("w", false)] ∧
      lost.ledger.map (fun vt => (vt.username, vt.strikes)) = [("v", 0), ("w", 1)] ∧
      ¬ LedgerMatches lost) ∧
    (twice.owed = [] ∧
      (twice.submissions.get? 1).map Submission.status = some .accepted ∧
      toldOf twice.told 1 = [("v", true), ("v", true)] ∧
      ¬ LedgerMatches twice) := by
  decide +kernel

end Arags
