import Arags.Rlm.QuorumRows
import Arags.Rlm.Submissions
import Mathlib.Data.List.Pairwise

/-!
# Arags.Rlm.Quorum

The quorum path of a completion as a system. A request loads its job, completes it, files its
answer as a candidate submission, and gathers the pending candidates of the subject; each of these
is a step of its own, between which the queue and other requests go on.

* `QuorumOp`, `stepQuorum` — the steps; `gatherRlmQuorum` is the gathering of `decide_rlm_quorum`.
* `openGrants`      — the work whose answer was accepted and is not decided yet.
* `KeepsQuestion`   — a step leaves the slots of an open candidate alone, and an answer is filed
  under the subject its row is a slot of.
* `gathered_same_question` — in such runs all candidates decided together answer one question and
  come from different volunteers.
-/

namespace Arags

open Sql

/-- A request that read its job and has not completed it. -/
structure Loaded where
  request : Nat
  jobId : Int
  job : RlmJob
  deriving DecidableEq, Repr

/-- An accepted answer that is not filed yet; `work` is the grant it completes. -/
structure Unfiled where
  request : Nat
  project : String
  subjectKey : String
  candidateText : String
  candidateBy : String
  work : Option Grant
  deriving DecidableEq, Repr

/-- `origins` says which work a filed candidate was produced for; the program keeps no such
record. -/
structure QuorumState where
  events : List QueueEvent
  db : RlmDb
  submissions : Table Submission
  loaded : List Loaded
  unfiled : List Unfiled
  origins : List (Int × Grant)
  gathered : List (Int × Submission)

def QuorumState.empty : QuorumState := ⟨[], RlmDb.empty, Table.empty, [], [], [], []⟩

inductive QuorumOp where
  | queue (op : QueueOp)
  /-- `get_rlm_job`. -/
  | load (request : Nat) (jobId : Int)
  /-- `complete_rlm_job`. -/
  | complete (request : Nat) (volunteer text : String) (generation now : Int)
  /-- `insert_submission`. -/
  | file (request : Nat) (now : Int)
  /-- `list_pending`. -/
  | gather (scan : ScanOrder Submission) (project : String) (level : Int) (subject : String)
  /-- The verdict on one gathered candidate, and the trust of its author. -/
  | verdict (id : Int) (accept : Bool) (similarity : Option Rat) (now : Int)

/-- The candidates `decide_rlm_quorum` decides: none while fewer than `n` are pending. -/
def gatherRlmQuorum (n : Nat) (scan : ScanOrder Submission) (t : Table Submission)
    (project : String) (level : Int) (subject : String) : Option (List (Int × Submission)) :=
  let pending := listPending scan t project "rlm_node" (rlmJobKey project level subject)
  if pending.isEmpty then none else if pending.length < max n 1 then none else some pending

def stepQuorum (n : Nat) (s : QuorumState) : QuorumOp → QuorumState
  | .queue op => { s with events := events s.db op ++ s.events, db := step s.db op }
  | .load request jobId =>
    match s.db.rlmJobs.get? jobId with
    | some job =>
      if s.loaded.any (·.request == request) || s.unfiled.any (·.request == request) then s
      else { s with loaded := ⟨request, jobId, job⟩ :: s.loaded }
    | none => s
  | .complete request volunteer text generation now =>
    match s.loaded.find? (·.request == request) with
    | some l =>
      let op := QueueOp.complete l.jobId volunteer generation now
      let rest := s.loaded.eraseP (·.request == request)
      if (completeRlmJob s.db l.jobId volunteer generation now).2 then
        { s with
          events := events s.db op ++ s.events
          db := step s.db op
          loaded := rest
          unfiled := ⟨request, l.job.project, rlmJobKey l.job.project l.job.level l.job.subject,
            text, volunteer, lastGrant l.jobId s.events⟩ :: s.unfiled }
      else { s with loaded := rest }
    | none => s
  | .file request now =>
    match s.unfiled.find? (·.request == request) with
    | some u =>
      let filed := insertSubmission s.submissions u.project "rlm_node" u.subjectKey
        u.candidateText u.candidateBy now
      { s with
        submissions := filed.1
        unfiled := s.unfiled.eraseP (·.request == request)
        origins := (u.work.toList.map fun g => (filed.2, g)) ++ s.origins }
    | none => s
  | .gather scan project level subject =>
    match gatherRlmQuorum n scan s.submissions project level subject with
    | some pending => { s with gathered := pending ++ s.gathered }
    | none => s
  | .verdict id accept similarity now =>
    match s.gathered.find? (·.1 == id) with
    | some (_, sub) =>
      if accept then
        { s with
          submissions := acceptSubmission s.submissions id "quorum" similarity now
          db := { s.db with
            volunteerTrust := bumpTrustOnAccept s.db.volunteerTrust sub.candidateBy } }
      else
        { s with
          submissions := rejectSubmission s.submissions id "quorum" similarity now
          db := { s.db with volunteerTrust := recordStrike s.db.volunteerTrust sub.candidateBy } }
    | none => s

def quorum (n : Nat) (ops : List QuorumOp) : QuorumState :=
  Lts.after (stepQuorum n) QuorumState.empty ops

/-- The grant a candidate submission answers, while it is undecided. -/
def openGrant (origins : List (Int × Grant)) (x : Int × Submission) : Option Grant :=
  if x.2.status = .candidate then origins.lookup x.1 else none

def openGrants (s : QuorumState) : List Grant :=
  s.unfiled.filterMap Unfiled.work ++ s.submissions.rows.filterMap (openGrant s.origins)

def KeepsQuestion (s : QuorumState) : QuorumOp → Prop
  | .queue op => LeavesOpen s.db (openGrants s) op
  | .complete request volunteer _ generation now =>
    ∀ l ∈ s.loaded.find? (·.request == request), ∀ r ∈ probeClaimed s.db.rlmJobs l.jobId,
      completionValid r volunteer generation now = true →
      r.isAbout l.job.project l.job.level l.job.subject = true
  | .load .. | .file .. | .gather .. | .verdict .. => True

instance decidableKeepsQuestion (s : QuorumState) : ∀ op, Decidable (KeepsQuestion s op)
  | .queue op => decidableLeavesOpen s.db (openGrants s) op
  | .complete request volunteer _ generation now => inferInstanceAs (Decidable (
      ∀ l ∈ s.loaded.find? (·.request == request), ∀ r ∈ probeClaimed s.db.rlmJobs l.jobId,
        completionValid r volunteer generation now = true →
        r.isAbout l.job.project l.job.level l.job.subject = true))
  | .load .. | .file .. | .gather .. | .verdict .. => inferInstanceAs (Decidable True)

/-! ## Gathered candidates -/

/-- The generation and the payload a candidate was produced for. -/
def questionOf (origins : List (Int × Grant)) (x : Int × Submission) : Option (Int × String) :=
  (origins.lookup x.1).map fun g => (g.job.generation, g.job.payload)

/-- One question, known, and pairwise different authors. -/
def SameQuestion (origins : List (Int × Grant)) (pending : List (Int × Submission)) : Prop :=
  (∃ q, ∀ x ∈ pending, questionOf origins x = some q) ∧
    (pending.map fun x => x.2.candidateBy).Nodup

theorem gatherRlmQuorum_eq_some {n : Nat} {scan : ScanOrder Submission} {t : Table Submission}
    {project : String} {level : Int} {subject : String} {pending : List (Int × Submission)} :
    gatherRlmQuorum n scan t project level subject = some pending ↔
      pending = listPending scan t project "rlm_node" (rlmJobKey project level subject) ∧
        max n 1 ≤ pending.length := by
  simp only [gatherRlmQuorum]
  split
  · rename_i he
    rw [List.isEmpty_iff] at he
    rw [he]
    constructor
    · intro h; cases h
    · rintro ⟨rfl, h⟩
      simp only [List.length_nil] at h
      omega
  · split
    · rename_i hlt
      constructor
      · intro h; cases h
      · rintro ⟨rfl, h⟩; omega
    · rename_i hlt
      rw [Option.some.injEq]
      constructor
      · rintro rfl; exact ⟨rfl, by omega⟩
      · rintro ⟨rfl, -⟩; rfl

theorem listPending_nodup (scan : ScanOrder Submission) (t : Table Submission)
    (project subjectType subjectKey : String) :
    (listPending scan t project subjectType subjectKey).Nodup := by
  rw [listPending, listByStatus, (List.perm_insertionSort _ _).nodup_iff, (scan.perm _).nodup_iff]
  exact (List.Nodup.of_map _ t.nodup).filter _

/-! ## The invariant -/

/-- The candidate is filed under the subject of the work it answers, in its worker's name. -/
def Answers (project subjectKey candidateBy : String) (g : Grant) : Prop :=
  project = g.job.project ∧
    subjectKey = rlmJobKey g.job.project g.job.level g.job.subject ∧ candidateBy = g.volunteer

structure QuorumInv (s : QuorumState) : Prop where
  lease : LeaseInv s.events s.db
  shape : GroupShape s.db
  slots : SlotInv s.events s.db (openGrants s)
  unfiled : ∀ u ∈ s.unfiled, ∃ g, u.work = some g ∧
    Answers u.project u.subjectKey u.candidateBy g
  filed : ∀ x ∈ s.submissions.rows, ∃ g, s.origins.lookup x.1 = some g ∧
    Answers x.2.project x.2.subjectKey x.2.candidateBy g

theorem mem_openGrants {s : QuorumState} {x : Int × Submission} {g : Grant}
    (hx : x ∈ s.submissions.rows) (hs : x.2.status = .candidate)
    (hg : s.origins.lookup x.1 = some g) : g ∈ openGrants s := by
  refine List.mem_append_right _ (List.mem_filterMap.mpr ⟨x, hx, ?_⟩)
  rw [openGrant, if_pos hs, hg]

theorem eraseP_of_find? {α : Type} {p : α → Bool} {l : List α} {a : α} (h : l.find? p = some a) :
    ∃ l₁ l₂, l = l₁ ++ a :: l₂ ∧ l.eraseP p = l₁ ++ l₂ := by
  obtain ⟨hp, l₁, l₂, rfl, hl⟩ := List.find?_eq_some_iff_append.mp h
  refine ⟨l₁, l₂, rfl, ?_⟩
  have hl' : ∀ b ∈ l₁, ¬ p b = true := by
    intro b hb
    simpa using hl b hb
  rw [List.eraseP_append_right _ hl', List.eraseP_cons_of_pos hp]

theorem filterMap_map_sublist {α β : Type} {f : α → Option β} {m : α → α} {l : List α}
    (h : ∀ x ∈ l, f (m x) = f x ∨ f (m x) = none) :
    ((l.map m).filterMap f).Sublist (l.filterMap f) := by
  induction l with
  | nil => exact .slnil
  | cons x l ih =>
    have ih := ih fun y hy => h y (List.mem_cons_of_mem x hy)
    rw [List.map_cons, List.filterMap_cons, List.filterMap_cons]
    rcases h x List.mem_cons_self with hx | hx
    · rw [hx]
      split
      · exact ih
      · exact ih.cons_cons _
    · rw [hx]
      dsimp only
      split
      · exact ih
      · exact ih.cons _

namespace QuorumInv

variable {n : Nat} {s : QuorumState}

theorem empty : QuorumInv QuorumState.empty where
  lease := .empty
  shape := .empty
  slots := .empty
  unfiled := by intro u hu; cases hu
  filed := by intro x hx; cases hx

theorem queue (hI : QuorumInv s) (op : QueueOp) (hop : LeavesOpen s.db (openGrants s) op) :
    QuorumInv (stepQuorum n s (.queue op)) where
  lease := hI.lease.move (step_move s.db op)
  shape := hI.shape.move (step_move s.db op)
  slots := hI.slots.step op hop
  unfiled := hI.unfiled
  filed := hI.filed

theorem complete (hI : QuorumInv s) (request : Nat) (volunteer text : String)
    (generation now : Int)
    (hop : KeepsQuestion s (.complete request volunteer text generation now)) :
    QuorumInv (stepQuorum n s (.complete request volunteer text generation now)) := by
  simp only [stepQuorum]
  split
  · rename_i l hl
    split
    · rename_i hacc
      rcases completeRlmJob_cases s.db l.jobId volunteer generation now with
        h | ⟨r, hr, hs, hv, h⟩
      · rw [h] at hacc; cases hacc
      obtain ⟨hby, hgen, -⟩ := completionValid_iff.mp hv
      obtain ⟨g, hlast, hvol, -, hgg, hid, hident⟩ := hI.lease.held l.jobId r hr hs
      rw [hby, Option.some.injEq] at hvol
      have habout := hop l (Option.mem_def.mpr hl) r
        (Option.mem_def.mpr (probeClaimed_eq_some.mpr ⟨hr, hs⟩)) hv
      obtain ⟨hp, hlv, hsub⟩ := isAbout_iff.mp habout
      simp only [Grant.ident, RlmJob.ident, SlotIdentity.mk.injEq] at hident
      have hmove := step_move s.db (.complete l.jobId volunteer generation now)
      refine ⟨hI.lease.move hmove, hI.shape.move hmove, ?_, ?_, hI.filed⟩
      · simp only [openGrants, List.filterMap_cons, hlast, List.cons_append]
        simp only [events, step, h, if_true, List.singleton_append]
        refine hI.slots.opened hr hs hlast hid ?_ (hby.trans (congrArg some hvol)) hgg rfl
        simp only [Grant.ident, RlmJob.ident, hident]
      · intro u hu
        rcases List.mem_cons.mp hu with rfl | hu
        · refine ⟨g, hlast, ?_, ?_, hvol⟩
          · exact hp.symm.trans hident.1.symm
          · rw [hident.1, hident.2.1, hident.2.2.1, hp, hlv, hsub]
        · exact hI.unfiled u hu
    · exact ⟨hI.lease, hI.shape, hI.slots, hI.unfiled, hI.filed⟩
  · exact hI

/-- Filing moves an open grant from the requests to the table. -/
theorem file (hI : QuorumInv s) (request : Nat) (now : Int) :
    QuorumInv (stepQuorum n s (.file request now)) := by
  simp only [stepQuorum]
  split
  · rename_i u hu
    obtain ⟨l₁, l₂, hl, he⟩ := eraseP_of_find? hu
    obtain ⟨g, hw, hans⟩ := hI.unfiled u (hl ▸ List.mem_append_right _ List.mem_cons_self)
    have hold : ∀ x ∈ s.submissions.rows,
        ((s.submissions.nextId, g) :: s.origins).lookup x.1 = s.origins.lookup x.1 := by
      intro x hx
      have hlt : x.1 < s.submissions.nextId := Table.lt_nextId (r := x.2) hx
      rw [List.lookup_cons, beq_eq_false_iff_ne.mpr (by omega)]
    simp only [insertSubmission, hw, Option.toList_some, List.map_cons, List.map_nil,
      List.singleton_append]
    refine ⟨hI.lease, hI.shape, hI.slots.perm ?_, ?_, ?_⟩
    · have hrows : s.submissions.rows.filterMap (openGrant ((s.submissions.nextId, g) :: s.origins))
          = s.submissions.rows.filterMap (openGrant s.origins) := by
        refine List.filterMap_congr fun x hx => ?_
        simp only [openGrant, hold x hx]
      have hnew : openGrant ((s.submissions.nextId, g) :: s.origins) (s.submissions.nextId,
          ⟨u.project, "rlm_node", u.subjectKey, u.candidateText, u.candidateBy, none, .candidate,
            now, none, none⟩) = some g := by
        simp [openGrant]
      simp only [openGrants, Table.insert, he]
      simp only [hl, List.filterMap_append, hrows, List.filterMap_cons, hnew, hw,
        List.filterMap_nil, List.append_assoc, List.cons_append]
      refine (List.Perm.append_left _ ?_)
      rw [← List.append_assoc]
      exact List.perm_append_singleton g _
    · intro v hv
      dsimp only at hv
      rw [he] at hv
      refine hI.unfiled v ?_
      rw [hl]
      rcases List.mem_append.mp hv with hv | hv
      · exact List.mem_append_left _ hv
      · exact List.mem_append_right _ (List.mem_cons_of_mem u hv)
    · rintro ⟨i, sub⟩ hx
      rcases Table.mem_insert.mp hx with hx | ⟨hi, rfl⟩
      · dsimp only
        rw [hold _ hx]
        exact hI.filed _ hx
      · refine ⟨g, ?_, hans⟩
        subst hi
        simp
  · exact hI

theorem decided (hI : QuorumInv s) {s' : QuorumState} (status : SubmissionStatus)
    (hst : status ≠ .candidate) (id : Int) (similarity : Option Rat) (now : Int)
    (ledger : List VolunteerTrust)
    (h : s' = { s with
      submissions := decideSubmission status s.submissions id "quorum" similarity now
      db := { s.db with volunteerTrust := ledger } }) : QuorumInv s' := by
  subst h
  refine ⟨?_, ?_, ?_, hI.unfiled, ?_⟩
  · exact hI.lease.quiet (.refl _)
  · exact hI.shape.sameHands (QuietTable.refl _).sameHands
  · have hslots : SlotInv s.events { s.db with volunteerTrust := ledger } (openGrants s) :=
      hI.slots.calm (.refl _) fun _ => rfl
    refine hslots.closed (List.Sublist.append_left (filterMap_map_sublist fun x _ => ?_) _)
    dsimp only
    split
    · exact .inr (by rw [openGrant, if_neg hst])
    · exact .inl rfl
  · rintro ⟨i, sub⟩ hx
    obtain ⟨sub', hx', rfl⟩ := Table.mem_update.mp hx
    obtain ⟨g, hg, hans⟩ := hI.filed (i, sub') hx'
    refine ⟨g, hg, ?_⟩
    dsimp only
    split <;> exact hans

theorem step (hI : QuorumInv s) (op : QuorumOp) (hop : KeepsQuestion s op) :
    QuorumInv (stepQuorum n s op) := by
  cases op with
  | queue op => exact hI.queue op hop
  | complete request volunteer text generation now =>
    exact hI.complete request volunteer text generation now hop
  | file request now => exact hI.file request now
  | load request jobId =>
    simp only [stepQuorum]
    split
    · split
      · exact hI
      · exact ⟨hI.lease, hI.shape, hI.slots, hI.unfiled, hI.filed⟩
    · exact hI
  | gather scan project level subject =>
    simp only [stepQuorum]
    split
    · exact ⟨hI.lease, hI.shape, hI.slots, hI.unfiled, hI.filed⟩
    · exact hI
  | verdict id accept similarity now =>
    simp only [stepQuorum]
    split
    · split
      · exact hI.decided .accepted (by decide) id similarity now _ rfl
      · exact hI.decided .rejected (by decide) id similarity now _ rfl
    · exact hI

/-- The work of a pending candidate is open, and about the subject it was gathered for. -/
theorem pending_open (hI : QuorumInv s) {scan : ScanOrder Submission} {project : String}
    {level : Int} {subject : String} {x : Int × Submission}
    (hx : x ∈ listPending scan s.submissions project "rlm_node"
      (rlmJobKey project level subject)) :
    ∃ g, s.origins.lookup x.1 = some g ∧ g ∈ openGrants s ∧ x.2.candidateBy = g.volunteer ∧
      g.job.project = project ∧ g.job.level = level ∧ g.job.subject = subject := by
  obtain ⟨hrow, hp, -, hkey, hcand⟩ := mem_listPending.mp hx
  obtain ⟨g, hg, hp', hkey', hby⟩ := hI.filed x hrow
  have hproject : g.job.project = project := hp'.symm.trans hp
  rw [hkey, hproject] at hkey'
  obtain ⟨hl, hs⟩ := rlmJobKey_inj hkey'
  exact ⟨g, hg, mem_openGrants hrow hcand hg, hby, hproject, hl.symm, hs.symm⟩

/-- Two candidates of one subject are work on two rows of one group. -/
theorem author_ne (hI : QuorumInv s) {x y : Int × Submission} {g g' : Grant}
    (hx : x ∈ s.submissions.rows) (hxc : x.2.status = .candidate)
    (hg : s.origins.lookup x.1 = some g) (hy : y ∈ s.submissions.rows)
    (hyc : y.2.status = .candidate) (hg' : s.origins.lookup y.1 = some g') (hne : x ≠ y)
    (hp : g'.job.project = g.job.project) (hl : g'.job.level = g.job.level)
    (hs : g'.job.subject = g.job.subject) : g.volunteer ≠ g'.volunteer := by
  intro hv
  obtain ⟨r, hr, -, hby, ha⟩ := hI.slots.done g (mem_openGrants hx hxc hg)
  obtain ⟨r', hr', -, hby', ha'⟩ := hI.slots.done g' (mem_openGrants hy hyc hg')
  obtain ⟨h1, h2, h3⟩ := isAbout_iff.mp ha
  obtain ⟨h1', h2', h3'⟩ := isAbout_iff.mp ha'
  have hgroup : r.generationGroupId = r'.generationGroupId :=
    (hI.shape.subject _ hr _ hr').mpr (isAbout_iff.mpr ⟨h1'.trans (hp.trans h1.symm),
      h2'.trans (hl.trans h2.symm), h3'.trans (hs.trans h3.symm)⟩)
  have hid : g.job.id = g'.job.id := hI.shape.one _ hr _ hr' hgroup g.volunteer hby (hv ▸ hby')
  -- but each row is the work of one open candidate
  have hdistinct : (s.submissions.rows.filterMap (openGrant s.origins)).Pairwise
      fun g g' => g.job.id ≠ g'.job.id :=
    (List.pairwise_map.mp hI.slots.distinct).sublist (List.sublist_append_right _ _)
  rw [List.pairwise_filterMap] at hdistinct
  have : Std.Symm fun a a' => ∀ b, openGrant s.origins a = some b →
      ∀ b', openGrant s.origins a' = some b' → b.job.id ≠ b'.job.id :=
    ⟨fun a b h u hu v hv' => (h v hv' u hu).symm⟩
  refine hdistinct.forall hx hy hne g ?_ g' ?_ hid
  · simp only [openGrant, if_pos hxc, hg]
  · simp only [openGrant, if_pos hyc, hg']

end QuorumInv

theorem quorumInv_quorum (n : Nat) (ops : List QuorumOp)
    (hops : Lts.Always (stepQuorum n) QuorumState.empty (fun _ s op => KeepsQuestion s op) ops) :
    QuorumInv (quorum n ops) :=
  Lts.guarded_inv (I := fun _ s => QuorumInv s) QuorumInv.empty
    (fun _ _ op hI hop => hI.step op hop) ops hops

/-- Where no step changes the question of an open candidate, all candidates that are decided
together answer one question, and they come from different volunteers. -/
theorem gathered_same_question (n : Nat) (ops : List QuorumOp)
    (hops : Lts.Always (stepQuorum n) QuorumState.empty (fun _ s op => KeepsQuestion s op) ops)
    (scan : ScanOrder Submission) (project : String) (level : Int) (subject : String)
    (pending : List (Int × Submission))
    (h : gatherRlmQuorum n scan (quorum n ops).submissions project level subject = some pending) :
    SameQuestion (quorum n ops).origins pending := by
  have hI := quorumInv_quorum n ops hops
  obtain ⟨rfl, hlen⟩ := gatherRlmQuorum_eq_some.mp h
  refine ⟨?_, ?_⟩
  · obtain ⟨x₀, hx₀⟩ := List.exists_mem_of_length_pos
      (Nat.lt_of_lt_of_le (show 0 < max n 1 by omega) hlen)
    obtain ⟨g₀, hg₀, hopen₀, -, hp₀, hl₀, hs₀⟩ := hI.pending_open hx₀
    refine ⟨(g₀.job.generation, g₀.job.payload), fun x hx => ?_⟩
    obtain ⟨g, hg, hopen, -, hp, hl, hs⟩ := hI.pending_open hx
    obtain ⟨hgen, hpay⟩ := hI.slots.same g₀ hopen₀ g hopen (hp.trans hp₀.symm)
      (hl.trans hl₀.symm) (hs.trans hs₀.symm)
    rw [questionOf, hg, Option.map_some, hgen, hpay]
  · refine (listPending_nodup scan _ _ _ _).map_on fun x hx y hy hby => ?_
    obtain ⟨g, hg, -, hv, hp, hl, hs⟩ := hI.pending_open hx
    obtain ⟨g', hg', -, hv', hp', hl', hs'⟩ := hI.pending_open hy
    obtain ⟨hxr, -, -, -, hxc⟩ := mem_listPending.mp hx
    obtain ⟨hyr, -, -, -, hyc⟩ := mem_listPending.mp hy
    by_contra hne
    refine hI.author_ne hxr hxc hg hyr hyc hg' hne (hp'.trans hp.symm) (hl'.trans hl.symm)
      (hs'.trans hs.symm) ?_
    rw [← hv, ← hv', hby]

/-- Two slots at one generation; another subject is reset before the second candidate is filed. -/
def twoAnswers : List QuorumOp :=
  [ .file 2 9,
    .queue (.cancel "p" [(1, "b")] 8),
    .complete 2 "w" "second" 0 7,
    .load 2 2,
    .file 1 6,
    .complete 1 "v" "first" 0 5,
    .load 1 1,
    .queue (.claim .rowid "w" 500000 none 3 4),
    .queue (.claim .rowid "v" 500000 none 3 3),
    .queue (.enqueue .rowid ⟨none, "p", 1, "b", "{}", PRIORITY_FRESH, 1⟩ [] 2),
    .queue (.enqueue .rowid ⟨none, "p", 1, "a", "{}", PRIORITY_FRESH, 2⟩ [] 1) ]

theorem gathered_same_question_two : ∃ pending,
    gatherRlmQuorum 2 .rowid (quorum 2 twoAnswers).submissions "p" 1 "a" = some pending ∧
      pending.length = 2 ∧ SameQuestion (quorum 2 twoAnswers).origins pending :=
  ⟨_, rfl, by decide, gathered_same_question 2 twoAnswers (by decide) .rowid "p" 1 "a" _ rfl⟩

/-- `v` answers one slot; the source changes and the other slot goes to generation 1, where `w`
answers it. -/
def acrossReset : List QuorumOp :=
  [ .file 2 9,
    .complete 2 "w" "second" 1 8,
    .load 2 2,
    .queue (.claim .rowid "w" 500000 none 3 7),
    .queue (.cancel "p" [(1, "a")] 6),
    .file 1 5,
    .complete 1 "v" "first" 0 4,
    .load 1 1,
    .queue (.claim .rowid "v" 500000 none 3 3),
    .queue (.enqueue .rowid ⟨none, "p", 1, "a", "{}", PRIORITY_FRESH, 2⟩ [] 1) ]

theorem gathered_same_question_across_reset :
    ¬ ∀ n ops scan project level subject pending,
      gatherRlmQuorum n scan (quorum n ops).submissions project level subject = some pending →
      SameQuestion (quorum n ops).origins pending := by
  intro h
  obtain ⟨⟨q, hq⟩, -⟩ := h 2 acrossReset .rowid "p" 1 "a" _ rfl
  have h₁ := hq (1, ⟨"p", "rlm_node", "L1:p:a", "first", "v", none, .candidate, 5, none, none⟩)
    (by decide)
  have h₂ := hq (2, ⟨"p", "rlm_node", "L1:p:a", "second", "w", none, .candidate, 9, none, none⟩)
    (by decide)
  exact absurd (h₁.trans h₂.symm) (by decide)

end Arags
