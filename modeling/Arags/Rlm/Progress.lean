import Arags.Rlm.Quorum
import Arags.Rlm.Staleness
import Arags.Rlm.Supply

/-!
# Arags.Rlm.Progress

Whether a subject with candidates can still be decided. The server enqueues through
`enqueue_rlm_l1_work`, `cascade_rlm` and the reassignment of a decision; volunteers claim, fail,
load, complete and file; an administrator completes with a node. A step is one of their requests to
the store, on any connection.

* `VolunteerOp`, `stepVolunteer` — the steps.
* `undecided`, `supply` — the answers of a subject without a verdict; these and its live slots.
* `KeepsSupply`     — the step does not leave the subject between nothing and a quorum.
* `no_stuck_quorum` — in such runs an undecided answer has a quorum within reach.
-/

namespace Arags

open Sql

/-- An answer that a completion accepted and that is not filed yet. -/
structure Staged where
  request : Nat
  subject : SubjectId
  candidateText : String
  candidateBy : String
  deriving DecidableEq, Repr

structure VolunteerState where
  store : RlmStore
  loaded : List Loaded
  staged : List Staged

namespace VolunteerState

def empty : VolunteerState := ⟨⟨RlmDb.empty, Table.empty⟩, [], []⟩

def withDb (s : VolunteerState) (db : RlmDb) : VolunteerState :=
  { s with store := { s.store with db := db } }

end VolunteerState

inductive VolunteerOp where
  /-- One file of `enqueue_rlm_l1_work`. -/
  | enqueueFile (codec : PayloadCodec) (scan : ScanOrder RlmNode) (jobScan : ScanOrder RlmJob)
      (chunks : SeqTable Chunk) (bufferId : Int) (project file : String) (now : Int)
  | cascade (env : DecisionEnv) (bufferId : Int) (project : String) (level : Int)
      (subject : String)
  | claim (scan : ScanOrder RlmJob) (volunteer : String) (leaseMs : Int)
      (maxLevel : Option Int) (strikesLimit : Nat) (now : Int)
  | fail (jobId : Int) (worker error : String) (maxAttempts now : Int)
  | cancel (project : String) (subjects : List (Int × String)) (now : Int)
  | requeue (now : Int)
  | completeWithNode (scan : ScanOrder RlmNode) (jobId : Int) (worker : String)
      (generation : Int) (input : NewRlmNode) (freshNodeId : String) (now now' : Int)
  /-- `get_rlm_job`. -/
  | load (request : Nat) (jobId : Int)
  /-- `complete_rlm_job`. -/
  | complete (request : Nat) (volunteer text : String) (generation now : Int)
  /-- `insert_submission`. -/
  | file (request : Nat) (now : Int)
  /-- The request ends before its next statement. -/
  | abandon (request : Nat)
  | decide (env : DecisionEnv) (project : String) (level : Int) (subject : String)

variable (cfg : ServerConfig)

def stepVolunteer (s : VolunteerState) : VolunteerOp → VolunteerState
  | .enqueueFile codec scan jobScan chunks bufferId project file now =>
    s.withDb (enqueueL1File codec scan jobScan chunks bufferId project now s.store.db file).1
  | .cascade env bufferId project level subject =>
    s.withDb (cascadeAfter cfg env s.store.db bufferId project level subject)
  | .claim scan v leaseMs maxLevel limit now =>
    s.withDb (claimRlmJob scan s.store.db v leaseMs maxLevel limit now).1
  | .fail jobId worker error maxAttempts now =>
    s.withDb (failRlmJob s.store.db jobId worker error maxAttempts now)
  | .cancel project subjects now =>
    s.withDb (cancelRlmJobsForSubjects s.store.db project subjects now)
  | .requeue now => s.withDb (requeueExpiredRlmLeases s.store.db now)
  | .completeWithNode scan jobId worker generation input nodeId now now' =>
    s.withDb (completeRlmJobWithNode scan s.store.db jobId worker generation input nodeId now
      now').1
  | .load request jobId =>
    match s.store.db.rlmJobs.get? jobId with
    | some job =>
      if s.loaded.any (·.request == request) || s.staged.any (·.request == request) then s
      else { s with loaded := ⟨request, jobId, job⟩ :: s.loaded }
    | none => s
  | .complete request volunteer text generation now =>
    match s.loaded.find? (·.request == request) with
    | some l =>
      let done := completeRlmJob s.store.db l.jobId volunteer generation now
      let rest := s.loaded.eraseP (·.request == request)
      if done.2 then
        { s.withDb done.1 with
          loaded := rest
          staged := ⟨request, l.job.subjectId, text, volunteer⟩ :: s.staged }
      else { s with loaded := rest }
    | none => s
  | .file request now =>
    match s.staged.find? (·.request == request) with
    | some a =>
      let filed := insertSubmission s.store.submissions a.subject.project "rlm_node" a.subject.key
        a.candidateText a.candidateBy now
      { s with
        store := { s.store with submissions := filed.1 }
        staged := s.staged.eraseP (·.request == request) }
    | none => s
  | .abandon request =>
    { s with
      loaded := s.loaded.eraseP (·.request == request)
      staged := s.staged.eraseP (·.request == request) }
  | .decide env project level subject =>
    { s with store := (decideRlmQuorum cfg env s.store project level subject).1 }

def volunteers (ops : List VolunteerOp) : VolunteerState :=
  Lts.after (stepVolunteer cfg) VolunteerState.empty ops

/-! ## Answers within reach -/

/-- Accepted answers without a verdict: the candidates, and what is staged. -/
def undecided (s : VolunteerState) (σ : SubjectId) : Nat :=
  candidatesOf s.store.submissions σ + s.staged.countP fun a => a.subject == σ

/-- The undecided answers, and the slots that can still give one. -/
def supply (s : VolunteerState) (σ : SubjectId) : Nat :=
  undecided s σ + slotsOf s.store.db.rlmJobs σ

/-- Nothing is under way for the subject, or a quorum is. -/
def Supplied (s : VolunteerState) (σ : SubjectId) : Prop :=
  supply s σ = 0 ∨ max cfg.quorum.n 1 ≤ supply s σ

/-- One slot or answer less leaves nothing, or a quorum. -/
def Spares (s : VolunteerState) (σ : SubjectId) : Prop :=
  supply s σ ≤ 1 ∨ max cfg.quorum.n 1 < supply s σ

instance (s : VolunteerState) (σ : SubjectId) : Decidable (Spares cfg s σ) :=
  inferInstanceAs (Decidable (_ ∨ _))

/-- The pass finds work for the file: it has rows, and no fresh node with their hashes. -/
def enqueuesFile (scan : ScanOrder RlmNode) (chunks : SeqTable Chunk) (bufferId : Int)
    (project : String) (nodes : Table RlmNode) (file : String) : Bool :=
  let snapshot := rlmChunksSnapshot chunks bufferId file
  !snapshot.isEmpty && (getRlmNodeBySubject scan nodes project 1 file).all fun x =>
    x.2.stale || !sameHashes x.2.sourceHashes (snapshotHashes snapshot)

/-- The step leaves the subject with nothing or with a quorum. -/
def KeepsSupply (σ : SubjectId) (s : VolunteerState) : VolunteerOp → Prop
  | .enqueueFile _ scan _ chunks bufferId project file _ =>
    σ = ⟨project, 1, file⟩ →
      enqueuesFile scan chunks bufferId project s.store.db.rlmNodes file = true →
      slotsOf s.store.db.rlmJobs σ = 0 →
      max cfg.quorum.n 1 ≤ undecided s σ + 1 ∧ KeysFree s.store.db.rlmJobs σ 1
  | .cascade _ _ project level subject =>
    (parentOf project level subject).map (fun x => SubjectId.mk project x.1 x.2) = some σ →
      slotsOf s.store.db.rlmJobs σ = 0 → KeysFree s.store.db.rlmJobs σ (max cfg.quorum.n 1)
  | .fail jobId worker _ maxAttempts _ =>
    ∀ r ∈ parkedRow s.store.db jobId worker maxAttempts, r.subjectId = σ → Spares cfg s σ
  | .completeWithNode _ jobId worker generation _ _ now _ =>
    ∀ r ∈ probeClaimed s.store.db.rlmJobs jobId, completionValid r worker generation now = true →
      r.subjectId = σ → Spares cfg s σ
  | .complete request volunteer _ generation now =>
    ∀ l ∈ s.loaded.find? (·.request == request), ∀ r ∈ probeClaimed s.store.db.rlmJobs l.jobId,
      completionValid r volunteer generation now = true →
      (r.subjectId = σ ↔ l.job.subjectId = σ)
  | .abandon request =>
    ∀ a ∈ s.staged.find? (·.request == request), a.subject = σ → Spares cfg s σ
  | .decide _ project level subject =>
    σ = ⟨project, level, subject⟩ →
      max cfg.quorum.n 1 ≤ candidatesOf s.store.submissions σ →
      (supply s σ = candidatesOf s.store.submissions σ ∨
        max cfg.quorum.n 1 ≤ supply s σ - candidatesOf s.store.submissions σ) ∧
      (slotsOf s.store.db.rlmJobs σ = 0 → KeysFree s.store.db.rlmJobs σ (max cfg.quorum.n 1))
  | .claim .. | .cancel .. | .requeue .. | .load .. | .file .. => True

instance decidableKeepsSupply (σ : SubjectId) (s : VolunteerState) :
    ∀ op, Decidable (KeepsSupply cfg σ s op) := by
  intro op
  cases op <;> unfold KeepsSupply <;> exact inferInstance

variable {cfg}

namespace Supplied

variable {s : VolunteerState} {σ τ : SubjectId} {db : RlmDb}

theorem empty (σ : SubjectId) : Supplied cfg VolunteerState.empty σ := .inl rfl

theorem of_supply {s' : VolunteerState} (hI : Supplied cfg s σ) (h : supply s' σ = supply s σ) :
    Supplied cfg s' σ := by
  unfold Supplied at hI ⊢
  rw [h]
  exact hI

theorem same (hI : Supplied cfg s σ)
    (h : slotsOf db.rlmJobs σ = slotsOf s.store.db.rlmJobs σ) : Supplied cfg (s.withDb db) σ :=
  hI.of_supply (congrArg (undecided s σ + ·) h)

theorem spared {s' : VolunteerState} (hs : Spares cfg s σ) (h : supply s' σ + 1 = supply s σ) :
    Supplied cfg s' σ := by
  unfold Spares at hs
  unfold Supplied
  omega

theorem loses (hI : Supplied cfg s σ) (h : Loses s.store.db.rlmJobs db.rlmJobs τ)
    (hs : τ = σ → Spares cfg s σ) : Supplied cfg (s.withDb db) σ := by
  have hcount := h σ
  by_cases he : τ = σ
  · rw [if_pos he] at hcount
    refine spared (hs he) ?_
    show undecided s σ + slotsOf db.rlmJobs σ + 1 =
      undecided s σ + slotsOf s.store.db.rlmJobs σ
    omega
  · rw [if_neg he, Nat.add_zero] at hcount
    exact hI.same hcount.symm

theorem refills {n : Nat} (hI : Supplied cfg s σ)
    (h : Refills s.store.db.rlmJobs db.rlmJobs τ n)
    (hfull : τ = σ → slotsOf s.store.db.rlmJobs σ = 0 →
      max cfg.quorum.n 1 ≤ undecided s σ + n ∧ KeysFree s.store.db.rlmJobs σ n) :
    Supplied cfg (s.withDb db) σ := by
  by_cases he : τ = σ
  · subst he
    rcases h.own fun h0 => (hfull rfl h0).2 with hsame | ⟨hidle, hnew⟩
    · exact hI.same hsame
    · right
      show max cfg.quorum.n 1 ≤ undecided s τ + slotsOf db.rlmJobs τ
      rw [hnew]
      exact (hfull rfl hidle).1
  · exact hI.same (h.others σ he)

end Supplied

/-! ## The steps -/

/-- The jobs after one file are those that its enqueue leaves, if it comes to that. -/
theorem enqueueL1File_jobs (codec : PayloadCodec) (scan : ScanOrder RlmNode)
    (jobScan : ScanOrder RlmJob) (chunks : SeqTable Chunk) (bufferId : Int) (project : String)
    (now : Int) (db : RlmDb) (file : String) :
    (enqueueL1File codec scan jobScan chunks bufferId project now db file).1.rlmJobs =
      if enqueuesFile scan chunks bufferId project db.rlmNodes file then
        (enqueueRlmJob jobScan db (fileL1Job codec bufferId project file
          (rlmChunksSnapshot chunks bufferId file)) [] now).1.rlmJobs
      else db.rlmJobs := by
  have hmarked : ∀ (nodes : Table RlmNode) (job : NewRlmJob),
      (enqueueRlmJob jobScan { db with rlmNodes := nodes } job [] now).1.rlmJobs =
        (enqueueRlmJob jobScan db job [] now).1.rlmJobs := by
    intro nodes job
    unfold enqueueRlmJob
    cases existingSlots jobScan db.rlmJobs job with
    | nil => rfl
    | cons first rest =>
      dsimp only
      split <;> rfl
  unfold enqueuesFile enqueueL1File enqueueL1Job
  dsimp only
  by_cases hs : (rlmChunksSnapshot chunks bufferId file).isEmpty = true
  · simp [hs]
  · simp only [hs, Bool.not_false, Bool.true_and, Bool.false_eq_true, if_false]
    cases getRlmNodeBySubject scan db.rlmNodes project 1 file with
    | none => rfl
    | some x =>
      obtain ⟨id, node⟩ := x
      rw [Option.all_some]
      dsimp only
      cases node.stale <;> cases sameHashes node.sourceHashes
        (snapshotHashes (rlmChunksSnapshot chunks bufferId file)) <;>
        simp [hmarked]

/-- A file without work keeps the queue; otherwise its subject gets one slot. -/
theorem enqueueL1File_refills (codec : PayloadCodec) (scan : ScanOrder RlmNode)
    (jobScan : ScanOrder RlmJob) (chunks : SeqTable Chunk) (bufferId : Int) (project : String)
    (now : Int) (db : RlmDb) (file : String) :
    if enqueuesFile scan chunks bufferId project db.rlmNodes file then
      Refills db.rlmJobs (enqueueL1File codec scan jobScan chunks bufferId project now db
        file).1.rlmJobs ⟨project, 1, file⟩ 1
    else (enqueueL1File codec scan jobScan chunks bufferId project now db file).1.rlmJobs =
      db.rlmJobs := by
  rw [enqueueL1File_jobs]
  split
  · exact enqueueRlmJob_refills jobScan db _ [] now
  · rfl

/-- A pass over files is a run of its steps, up to the file that fails. -/
theorem enqueueRlmL1Work_steps (codec : PayloadCodec) (scan : ScanOrder RlmNode)
    (jobScan : ScanOrder RlmJob) (chunks : SeqTable Chunk) (bufferId : Int) (project : String)
    (now : Int) (files : List String) (s : VolunteerState) :
    ∃ done, done <+: files ∧
      s.withDb (enqueueRlmL1Work codec scan jobScan chunks bufferId project now s.store.db
        files).1 = Lts.after (stepVolunteer cfg) s ((done.map fun file =>
          .enqueueFile codec scan jobScan chunks bufferId project file now).reverse) := by
  induction files generalizing s with
  | nil => exact ⟨[], List.nil_prefix, rfl⟩
  | cons file files ih =>
    rw [enqueueRlmL1Work]
    cases hf : enqueueL1File codec scan jobScan chunks bufferId project now s.store.db file with
    | mk db res =>
      cases res with
      | error e =>
        refine ⟨[file], ⟨files, rfl⟩, ?_⟩
        simp [stepVolunteer, hf]
      | ok r =>
        obtain ⟨done, hpre, he⟩ := ih (s.withDb db)
        refine ⟨file :: done, (List.prefix_cons_inj file).mpr hpre, ?_⟩
        have hstep : stepVolunteer cfg s (.enqueueFile codec scan jobScan chunks bufferId project
            file now) = s.withDb db := by
          simp only [stepVolunteer, hf]
        rw [List.map_cons, List.reverse_cons, Lts.after_append, Lts.after_cons, Lts.after_nil,
          hstep, ← he]
        rfl

theorem countP_staged {s : VolunteerState} {request : Nat} {a : Staged} (σ : SubjectId)
    (h : s.staged.find? (·.request == request) = some a) :
    s.staged.countP (fun a => a.subject == σ) =
      (s.staged.eraseP (·.request == request)).countP (fun a => a.subject == σ) +
        if a.subject = σ then 1 else 0 := by
  obtain ⟨l₁, l₂, hl, he⟩ := eraseP_of_find? h
  rw [he, hl, List.countP_append, List.countP_append, List.countP_cons]
  simp only [beq_iff_eq]
  omega

/-- Filing keeps the answer: it is staged before and a candidate afterwards. -/
theorem file_supply (s : VolunteerState) (request : Nat) (now : Int) (σ : SubjectId) :
    supply (stepVolunteer cfg s (.file request now)) σ = supply s σ := by
  simp only [stepVolunteer]
  split
  · rename_i a ha
    have hstaged := countP_staged σ ha
    have hcand : (Submission.mk a.subject.project "rlm_node" a.subject.key a.candidateText
        a.candidateBy none .candidate now none none).isCandidateFor a.subject = true :=
      isCandidateFor_iff.mpr ⟨rfl, rfl, rfl, rfl⟩
    have hnew : candidatesOf (insertSubmission s.store.submissions a.subject.project "rlm_node"
        a.subject.key a.candidateText a.candidateBy now).1 σ =
          candidatesOf s.store.submissions σ + if a.subject = σ then 1 else 0 := by
      refine (Table.count_insert ..).trans (congrArg _ ?_)
      refine if_congr ⟨isCandidateFor_unique hcand, ?_⟩ rfl rfl
      rintro rfl
      exact hcand
    simp only [supply, undecided, hnew]
    omega
  · rfl

theorem complete_supplied {s : VolunteerState} {σ : SubjectId} (hI : Supplied cfg s σ)
    (request : Nat) (volunteer text : String) (generation now : Int)
    (hop : KeepsSupply cfg σ s (.complete request volunteer text generation now)) :
    Supplied cfg (stepVolunteer cfg s (.complete request volunteer text generation now)) σ := by
  simp only [stepVolunteer]
  split
  · rename_i l hl
    rcases completeRlmJob_cases s.store.db l.jobId volunteer generation now with
      h | ⟨r, hr, hs, hv, h⟩
    · rw [h]
      exact hI.of_supply rfl
    · rw [h]
      have hsame := hop l (Option.mem_def.mpr hl) r
        (Option.mem_def.mpr (probeClaimed_eq_some.mpr ⟨hr, hs⟩)) hv
      have hlost := markDone_slots now hr hs σ
      -- the slot becomes a staged answer of its own subject
      refine hI.of_supply ?_
      simp only [if_true, supply, undecided, VolunteerState.withDb, List.countP_cons, beq_iff_eq]
      rw [hlost]
      by_cases hr : r.subjectId = σ
      · rw [if_pos hr, if_pos (hsame.mp hr)]
        omega
      · rw [if_neg hr, if_neg fun hc => hr (hsame.mpr hc)]
        omega
  · exact hI

theorem abandon_supplied {s : VolunteerState} {σ : SubjectId} (hI : Supplied cfg s σ)
    (request : Nat) (hop : KeepsSupply cfg σ s (.abandon request)) :
    Supplied cfg (stepVolunteer cfg s (.abandon request)) σ := by
  simp only [stepVolunteer]
  cases ha : s.staged.find? (·.request == request) with
  | none =>
    rw [List.eraseP_of_forall_not (List.find?_eq_none.mp ha)]
    exact hI.of_supply rfl
  | some a =>
    have hstaged := countP_staged σ ha
    by_cases he : a.subject = σ
    · rw [if_pos he] at hstaged
      refine .spared (hop a ha he) ?_
      simp only [supply, undecided]
      omega
    · rw [if_neg he, Nat.add_zero] at hstaged
      refine hI.of_supply ?_
      simp only [supply, undecided, hstaged]

/-- A decision takes the candidates: what remains is nothing, a quorum, or a new round. -/
theorem decide_supplied {s : VolunteerState} {σ : SubjectId} (hI : Supplied cfg s σ)
    (env : DecisionEnv) (project : String) (level : Int) (subject : String)
    (hop : KeepsSupply cfg σ s (.decide env project level subject)) :
    Supplied cfg (stepVolunteer cfg s (.decide env project level subject)) σ := by
  simp only [stepVolunteer]
  rcases decideRlmQuorum_supply cfg env s.store ⟨project, level, subject⟩ with
    hsame | ⟨hmany, hsettled, hrefills⟩
  · rw [hsame]
    exact hI
  generalize (decideRlmQuorum cfg env s.store project level subject).1 = store at *
  by_cases he : SubjectId.mk project level subject = σ
  · subst he
    obtain ⟨hrest, hfree⟩ := hop rfl hmany
    have hcand := hsettled.1
    unfold Supplied
    simp only [supply, undecided, hcand, Nat.zero_add] at hrest ⊢
    rcases hrefills.own hfree with hslots | ⟨-, hslots⟩ <;> rw [hslots] <;> omega
  · refine hI.of_supply ?_
    simp only [supply, undecided, hsettled.2 σ he, hrefills.others σ he]

theorem Supplied.step {s : VolunteerState} {σ : SubjectId} (hI : Supplied cfg s σ)
    (op : VolunteerOp) (hop : KeepsSupply cfg σ s op) :
    Supplied cfg (stepVolunteer cfg s op) σ := by
  cases op with
  | enqueueFile codec scan jobScan chunks bufferId project file now =>
    have h := enqueueL1File_refills codec scan jobScan chunks bufferId project now s.store.db file
    split at h
    · rename_i hwork
      exact hI.refills h fun he => hop he.symm hwork
    · exact hI.same (congrArg (slotsOf · σ) h)
  | cascade env bufferId project level subject =>
    rcases cascadeAfter_refills cfg env s.store.db bufferId project level subject with
      h | ⟨parent, hparent, h⟩
    · exact hI.same (h σ)
    · refine hI.refills h fun he hidle => ⟨by omega, hop ?_ hidle⟩
      rw [hparent, Option.map_some, he]
  | claim scan v leaseMs maxLevel limit now =>
    refine hI.same ?_
    rcases claimRlmJob_cases s.store.db scan v leaseMs maxLevel limit now with
      h | ⟨i, r, -, -, h⟩
    · rw [h]
    · rw [h]
      exact markClaimed_slots ..
  | fail jobId worker error maxAttempts now =>
    have h := failRlmJob_slots s.store.db jobId worker error maxAttempts now
    cases hp : parkedRow s.store.db jobId worker maxAttempts with
    | none =>
      rw [hp] at h
      exact hI.same (h σ)
    | some r =>
      rw [hp] at h
      exact hI.loses h (hop r hp)
  | cancel project subjects now => exact hI.same (cancelRlmJobsForSubjects_slots ..)
  | requeue now => exact hI.same (requeueExpiredRlmLeases_slots ..)
  | completeWithNode scan jobId worker generation input nodeId now now' =>
    rcases completeRlmJobWithNode_cases s.store.db scan jobId worker generation input nodeId now
      now' with ⟨o, h, -⟩ | ⟨r, nodes, pair, hr, hs, hv, -, h⟩
    · exact hI.same (by rw [h])
    · simp only [stepVolunteer, h]
      exact hI.loses (markDone_slots now' hr hs)
        (hop r (Option.mem_def.mpr (probeClaimed_eq_some.mpr ⟨hr, hs⟩)) hv)
  | load request jobId =>
    simp only [stepVolunteer]
    split
    · split
      · exact hI
      · exact hI.of_supply rfl
    · exact hI
  | complete request volunteer text generation now =>
    exact complete_supplied hI request volunteer text generation now hop
  | file request now => exact hI.of_supply (file_supply s request now σ)
  | abandon request => exact abandon_supplied hI request hop
  | decide env project level subject => exact decide_supplied hI env project level subject hop

/-- Where no step leaves the subject between nothing and a quorum, a subject with an undecided
answer has a quorum of undecided answers and live slots. -/
theorem no_stuck_quorum (ops : List VolunteerOp) (σ : SubjectId)
    (hops : Lts.Always (stepVolunteer cfg) VolunteerState.empty
      (fun _ s op => KeepsSupply cfg σ s op) ops)
    (h : 0 < undecided (volunteers cfg ops) σ) :
    max cfg.quorum.n 1 ≤ undecided (volunteers cfg ops) σ +
      slotsOf (volunteers cfg ops).store.db.rlmJobs σ := by
  have hI : Supplied cfg (volunteers cfg ops) σ :=
    Lts.guarded_inv (I := fun _ s => Supplied cfg s σ) (.empty σ)
      (fun _ _ op hI hop => hI.step op hop) ops hops
  rcases hI with h0 | hn
  · unfold supply at h0
    omega
  · exact hn

/-- A theme is fanned out to two volunteers, and the first one answers. -/
def fannedOut : List VolunteerOp :=
  [ .decide sampleEnv "p" 2 "(root)",
    .file 1 9,
    .complete 1 "ann" "reads files" 0 8,
    .load 1 2,
    .claim .rowid "ann" 60000 none 3 7,
    .cascade sampleEnv 1 "p" 1 "a.rs",
    .completeWithNode .rowid 1 "root" 0 { fileSummary ["h1"] with subject := "a.rs" } "n1" 3 3,
    .claim .rowid "root" 60000 none 3 2,
    .enqueueFile themeCodec .rowid .rowid indexedFiles.chunks 1 "p" "a.rs" 1 ]

theorem no_stuck_quorum_fanned_out :
    max pairConfig.quorum.n 1 ≤ undecided (volunteers pairConfig fannedOut) ⟨"p", 2, "(root)"⟩ +
      slotsOf (volunteers pairConfig fannedOut).store.db.rlmJobs ⟨"p", 2, "(root)"⟩ :=
  no_stuck_quorum fannedOut ⟨"p", 2, "(root)"⟩ (by decide +kernel) (by decide +kernel)

/-- The decision has its candidates, and a divergence would leave the subject for review. -/
def leavesForReview (cfg : ServerConfig) (s : VolunteerState) : VolunteerOp → Bool
  | .decide env project level subject =>
    let pending := listPending env.submissionScan s.store.submissions project "rlm_node"
      (rlmJobKey project level subject)
    decide (max cfg.quorum.n 1 ≤ pending.length) && reassignExhausted cfg
      (rejectAll env s.store pending).db project level subject
      (pending.map fun x => x.2.candidateBy).eraseDups
  | _ => false

/-- The one slot of a file is answered. -/
def singleSlot : List VolunteerOp :=
  [ .decide sampleEnv "p" 1 "a.rs",
    .file 1 5,
    .complete 1 "ann" "reads a file" 0 4,
    .load 1 1,
    .claim .rowid "ann" 60000 none 3 2,
    .enqueueFile themeCodec .rowid .rowid indexedFiles.chunks 1 "p" "a.rs" 1 ]

/-- A file gets one slot whatever the quorum is: its one candidate waits for a second answer that
no volunteer can give. -/
theorem no_stuck_quorum_single_slot :
    ¬ ∀ cfg ops σ, Lts.Always (stepVolunteer cfg) VolunteerState.empty
        (fun _ s op => leavesForReview cfg s op = false) ops →
      (volunteers cfg ops).staged = [] →
      0 < candidatesOf (volunteers cfg ops).store.submissions σ →
      cfg.quorum.n ≤ candidatesOf (volunteers cfg ops).store.submissions σ +
        slotsOf (volunteers cfg ops).store.db.rlmJobs σ := by
  intro h
  have := h pairConfig singleSlot ⟨"p", 1, "a.rs"⟩ (by decide +kernel) (by decide +kernel)
    (by decide +kernel)
  revert this
  decide +kernel

end Arags
