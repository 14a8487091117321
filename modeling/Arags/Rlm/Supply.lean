import Arags.Rlm.Publication

/-!
# Arags.Rlm.Supply

How many answers a subject can still get: its live slots and its undecided candidates, and what
each operation of the queue and each verdict does to the two numbers.

* `slotsOf`, `candidatesOf` — the counts.
* `Loses`         — one slot of a subject is gone, the slots of the others are as before.
* `enqueueRlmJob_slots` — an enqueue that finds no live slot and no taken key fans out in full.
* `decideRlmQuorum_supply` — a decision takes all candidates of its subject or none, and leaves
  its live slots or a new round of them.
-/

namespace Arags

open Sql

structure SubjectId where
  project : String
  level : Int
  subject : String
  deriving DecidableEq, Repr

def SubjectId.key (σ : SubjectId) : String := rlmJobKey σ.project σ.level σ.subject

def RlmJob.subjectId (r : RlmJob) : SubjectId := ⟨r.project, r.level, r.subject⟩

def NewRlmJob.subjectId (job : NewRlmJob) : SubjectId := ⟨job.project, job.level, job.subject⟩

/-- The live slots of a subject. -/
def slotsOf (t : Table RlmJob) (σ : SubjectId) : Nat :=
  t.count fun _ r => r.isAbout σ.project σ.level σ.subject && r.live

/-- A pending candidate for the node of the subject. -/
def Submission.isCandidateFor (x : Submission) (σ : SubjectId) : Bool :=
  x.project == σ.project && x.subjectType == "rlm_node" && x.subjectKey == σ.key &&
    x.status == .candidate

def candidatesOf (t : Table Submission) (σ : SubjectId) : Nat :=
  t.count fun _ x => x.isCandidateFor σ

theorem length_listPending (scan : ScanOrder Submission) (t : Table Submission) (σ : SubjectId) :
    (listPending scan t σ.project "rlm_node" σ.key).length = candidatesOf t σ := by
  rw [listPending, listByStatus, List.length_insertionSort, (scan.perm _).length_eq]
  rfl

theorem isAbout_eq (r : RlmJob) (σ : SubjectId) :
    r.isAbout σ.project σ.level σ.subject = decide (r.subjectId = σ) := by
  rw [Bool.eq_iff_iff, isAbout_iff, decide_eq_true_eq, RlmJob.subjectId, SubjectId.mk.injEq]

theorem isCandidateFor_iff {x : Submission} {σ : SubjectId} :
    x.isCandidateFor σ = true ↔ x.project = σ.project ∧ x.subjectType = "rlm_node" ∧
      x.subjectKey = σ.key ∧ x.status = .candidate := by
  simp [Submission.isCandidateFor, and_assoc]

/-- A candidate is filed under one subject. -/
theorem isCandidateFor_unique {x : Submission} {σ τ : SubjectId}
    (h : x.isCandidateFor σ = true) (h' : x.isCandidateFor τ = true) : σ = τ := by
  obtain ⟨hp, -, hk, -⟩ := isCandidateFor_iff.mp h
  obtain ⟨hp', -, hk', -⟩ := isCandidateFor_iff.mp h'
  have hproject : σ.project = τ.project := hp.symm.trans hp'
  have hkey : rlmJobKey σ.project σ.level σ.subject = rlmJobKey τ.project τ.level τ.subject :=
    hk.symm.trans hk'
  rw [hproject] at hkey
  obtain ⟨hl, hs⟩ := rlmJobKey_inj hkey
  cases σ; cases τ
  simp only [SubjectId.mk.injEq]
  exact ⟨hproject, hl, hs⟩

/-! ## Slots -/

/-- One live slot of `σ` is gone. -/
def Loses (t t' : Table RlmJob) (σ : SubjectId) : Prop :=
  ∀ τ, slotsOf t τ = slotsOf t' τ + if σ = τ then 1 else 0

theorem slotsOf_update_same {t : Table RlmJob} {p : Int → RlmJob → Bool}
    {f : Int → RlmJob → RlmJob} (h : ∀ i r, (i, r) ∈ t.rows → p i r = true →
      (f i r).subjectId = r.subjectId ∧ (f i r).live = r.live) (σ : SubjectId) :
    slotsOf (t.update p f) σ = slotsOf t σ := by
  unfold slotsOf
  rw [Table.count_update]
  refine Table.count_congr fun i r hr => ?_
  split
  · rename_i hp
    obtain ⟨hid, hl⟩ := h i r hr hp
    rw [isAbout_eq, isAbout_eq, hid, hl]
  · rfl

theorem slotsOf_update_one {t : Table RlmJob} {p : Int → RlmJob → Bool}
    {f : Int → RlmJob → RlmJob} {i : Int} {r : RlmJob} (hr : (i, r) ∈ t.rows)
    (hl : r.live = true) (hp : p i r = true) (hone : ∀ j s, p j s = true → j = i)
    (hf : (f i r).live = false) : Loses t (t.update p f) r.subjectId := by
  intro τ
  unfold slotsOf
  have hold := Table.count_except hr
    fun _ s => s.isAbout τ.project τ.level τ.subject && s.live
  rw [Table.count_update]
  have hnew := Table.count_except hr fun j s =>
    (if p j s then f j s else s).isAbout τ.project τ.level τ.subject &&
      (if p j s then f j s else s).live
  have hrest : t.count (fun j s => j != i && ((if p j s then f j s else s).isAbout τ.project τ.level
        τ.subject && (if p j s then f j s else s).live)) =
      t.count fun j s => j != i && (s.isAbout τ.project τ.level τ.subject && s.live) := by
    refine Table.count_congr fun j s _ => ?_
    by_cases hj : j = i
    · simp [hj]
    · rw [if_neg fun hc => hj (hone j s hc)]
  have hgone : ((if p i r then f i r else r).isAbout τ.project τ.level τ.subject &&
      (if p i r then f i r else r).live) = false := by
    rw [if_pos hp, hf, Bool.and_false]
  rw [hold, hnew, hrest, hgone, hl, Bool.and_true, isAbout_eq]
  simp

theorem markClaimed_slots (t : Table RlmJob) (jobId : Int) (v : String) (now expires : Int)
    (σ : SubjectId) : slotsOf (markClaimed t jobId v now expires) σ = slotsOf t σ := by
  refine slotsOf_update_same ?_ σ
  intro i r _ hp
  simp only [Bool.and_eq_true, beq_iff_eq] at hp
  exact ⟨rfl, by simp [RlmJob.live, RlmJob.claim, hp.2]⟩

theorem markDone_slots {t : Table RlmJob} {jobId : Int} {r : RlmJob} (now : Int)
    (hr : (jobId, r) ∈ t.rows) (hs : r.status = .claimed) :
    Loses t (markDone t jobId now) r.subjectId := by
  refine slotsOf_update_one hr (Quiet.live_claimed hs) (by simp) ?_ rfl
  intro j s hj
  exact beq_iff_eq.mp hj

theorem cancelSubject_slots (db : RlmDb) (project : String) (subject : Int × String) (now : Int)
    (σ : SubjectId) : slotsOf (cancelSubject db project subject now).rlmJobs σ =
      slotsOf db.rlmJobs σ := by
  refine slotsOf_update_same ?_ σ
  intro i r _ hp
  simp only [Bool.and_eq_true] at hp
  exact ⟨rfl, by rw [hp.2]; rfl⟩

theorem cancelRlmJobsForSubjects_slots (project : String) (subjects : List (Int × String))
    (now : Int) (db : RlmDb) (σ : SubjectId) :
    slotsOf (cancelRlmJobsForSubjects db project subjects now).rlmJobs σ =
      slotsOf db.rlmJobs σ := by
  induction subjects generalizing db with
  | nil => rfl
  | cons x xs ih => exact (ih (cancelSubject db project x now)).trans (cancelSubject_slots ..)

theorem requeueExpiredRlmLeases_slots (db : RlmDb) (now : Int) (σ : SubjectId) :
    slotsOf (requeueExpiredRlmLeases db now).rlmJobs σ = slotsOf db.rlmJobs σ := by
  refine slotsOf_update_same ?_ σ
  intro i r _ hp
  simp only [RlmJob.leaseExpired, Bool.and_eq_true, beq_iff_eq] at hp
  exact ⟨rfl, by rw [Quiet.live_claimed hp.1]; rfl⟩

theorem updateRlmJobPayload_slots (db : RlmDb) (project : String) (level : Int)
    (subject payload : String) (now : Int) (σ : SubjectId) :
    slotsOf (updateRlmJobPayload db project level subject payload now).rlmJobs σ =
      slotsOf db.rlmJobs σ := by
  refine slotsOf_update_same ?_ σ
  intro i r _ _
  exact ⟨rfl, rfl⟩

/-- The row that a failure parks. -/
def parkedRow (db : RlmDb) (jobId : Int) (worker : String) (maxAttempts : Int) : Option RlmJob :=
  (probeClaimed db.rlmJobs jobId).filter fun r =>
    r.claimedBy == some worker && decide (maxAttempts ≤ r.attempts)

/-- A failure keeps the slot for another try, or parks it. -/
theorem failRlmJob_slots (db : RlmDb) (jobId : Int) (worker error : String)
    (maxAttempts now : Int) :
    match parkedRow db jobId worker maxAttempts with
    | some r => Loses db.rlmJobs (failRlmJob db jobId worker error maxAttempts now).rlmJobs
        r.subjectId
    | none => ∀ σ, slotsOf (failRlmJob db jobId worker error maxAttempts now).rlmJobs σ =
        slotsOf db.rlmJobs σ := by
  cases hp : parkedRow db jobId worker maxAttempts with
  | some r =>
    simp only [parkedRow, Option.filter_eq_some_iff, probeClaimed_eq_some, Bool.and_eq_true,
      beq_iff_eq, decide_eq_true_eq] at hp
    obtain ⟨⟨hr, hs⟩, hv, hmax⟩ := hp
    have hg : db.rlmJobs.get? jobId = some r := Table.get?_eq_some.mpr hr
    refine slotsOf_update_one hr (Quiet.live_claimed hs) (by simp [hv, hs]) ?_ ?_
    · intro j s hj
      simp only [Bool.and_eq_true, beq_iff_eq] at hj
      exact hj.1
    · simp [hg, hv, failVerdict, hmax, RlmJob.live]
  | none =>
    intro σ
    refine slotsOf_update_same ?_ σ
    intro i r hr hq
    simp only [Bool.and_eq_true, beq_iff_eq] at hq
    obtain ⟨rfl, hv, hs⟩ := hq
    have hg : db.rlmJobs.get? i = some r := Table.get?_eq_some.mpr hr
    have hlt : ¬ maxAttempts ≤ r.attempts := by
      intro hmax
      have : parkedRow db i worker maxAttempts = some r := by
        simp [parkedRow, Option.filter_eq_some_iff, probeClaimed_eq_some, hr, hs, hv, hmax]
      rw [hp] at this; cases this
    refine ⟨rfl, ?_⟩
    simp [hg, hv, failVerdict, hlt, RlmJob.live, hs]

/-! ## New slots -/

/-- No row of another subject has a key that the subject's slots take. -/
def KeysFree (t : Table RlmJob) (σ : SubjectId) (slots : Nat) : Prop :=
  ∀ x ∈ t.rows, x.2.subjectId ≠ σ → ∀ k < slots, x.2.jobKey ≠ slotKey σ.key slots k

instance (t : Table RlmJob) (σ : SubjectId) (slots : Nat) : Decidable (KeysFree t σ slots) :=
  inferInstanceAs (Decidable (∀ x ∈ t.rows, _ → ∀ k < slots, _))

theorem slotKey_inj {logical : String} {slots j k : Nat} (hj : j < slots) (hk : k < slots)
    (h : slotKey logical slots j = slotKey logical slots k) : j = k := by
  unfold slotKey at h
  split at h
  · rename_i h1
    rw [beq_iff_eq] at h1
    omega
  · have h' := congrArg String.toList h
    simp only [toString, String.toList_append, List.append_assoc] at h'
    have h'' := List.append_cancel_left (List.append_cancel_left h')
    exact Text.repr_nat_inj (String.toList_inj.mp h'')

theorem insertRlmSlots_slots {t : Table RlmJob} {rs : List RlmJob}
    (hfree : ∀ r ∈ rs, ∀ x ∈ t.rows, x.2.jobKey ≠ r.jobKey)
    (hnodup : (rs.map fun r => r.jobKey).Nodup) (first : Int) (σ : SubjectId) :
    slotsOf (insertRlmSlots t rs first).1 σ = slotsOf t σ +
      rs.countP fun r => r.isAbout σ.project σ.level σ.subject && r.live := by
  induction rs generalizing t first with
  | nil => rfl
  | cons r rs ih =>
    rw [List.map_cons, List.nodup_cons] at hnodup
    have hopen : t.rows.any (fun x => x.2.jobKey == r.jobKey) = false := by
      rw [List.any_eq_false]
      intro x hx
      simpa using hfree r List.mem_cons_self x hx
    have hrest : ∀ s ∈ rs, ∀ x ∈ (t.insert r).rows, x.2.jobKey ≠ s.jobKey := by
      intro s hs x hx
      rcases Table.mem_insert.mp hx with hx | ⟨-, he⟩
      · exact hfree s (List.mem_cons_of_mem r hs) x hx
      · intro hk
        refine hnodup.1 ?_
        rw [← he, hk]
        exact List.mem_map_of_mem (f := fun r => r.jobKey) hs
    have hins : slotsOf (t.insert r) σ = slotsOf t σ +
        if r.isAbout σ.project σ.level σ.subject && r.live then 1 else 0 :=
      Table.count_insert ..
    rw [insertRlmSlots, if_neg (by rw [hopen]; exact Bool.false_ne_true), ih hrest hnodup.2, hins,
      List.countP_cons]
    omega

/-- An insertion that stops half way is still an insertion of slots of one subject. -/
theorem insertRlmSlots_other {t : Table RlmJob} {rs : List RlmJob} {σ : SubjectId}
    (hne : ∀ r ∈ rs, r.subjectId ≠ σ) (first : Int) :
    slotsOf (insertRlmSlots t rs first).1 σ = slotsOf t σ := by
  induction rs generalizing t first with
  | nil => rfl
  | cons r rs ih =>
    rw [insertRlmSlots]
    split
    · rfl
    · have hins : slotsOf (t.insert r) σ = slotsOf t σ +
          if r.isAbout σ.project σ.level σ.subject && r.live then 1 else 0 :=
        Table.count_insert ..
      rw [ih fun s hs => hne s (List.mem_cons_of_mem r hs), hins, isAbout_eq]
      simp [hne r List.mem_cons_self]

/-- The rows that an enqueue inserts. -/
def newRows (job : NewRlmJob) (groupId generation now : Int) : List RlmJob :=
  (List.range (max job.quorumSlots 1)).map (slotRow job (max job.quorumSlots 1)
    job.subjectId.key groupId generation now)

theorem newRows_subject {job : NewRlmJob} {groupId generation now : Int} {r : RlmJob}
    (hr : r ∈ newRows job groupId generation now) :
    r.subjectId = job.subjectId ∧ r.live = true := by
  obtain ⟨k, -, rfl⟩ := List.mem_map.mp hr
  exact ⟨rfl, rfl⟩

theorem newRows_keys (job : NewRlmJob) (groupId generation now : Int) :
    (newRows job groupId generation now).map (fun r => r.jobKey) =
      (List.range (max job.quorumSlots 1)).map
        (slotKey job.subjectId.key (max job.quorumSlots 1)) := by
  unfold newRows
  rw [List.map_map]
  rfl

theorem newRows_nodup (job : NewRlmJob) (groupId generation now : Int) :
    ((newRows job groupId generation now).map fun r => r.jobKey).Nodup := by
  rw [newRows_keys]
  refine List.nodup_range.map_on fun j hj k hk he => ?_
  exact slotKey_inj (List.mem_range.mp hj) (List.mem_range.mp hk) he

theorem createSlots_slots (db : RlmDb) {job : NewRlmJob} (exclude : List String)
    (groupId generation : Int) (createdNew : Bool) (now : Int)
    (hnone : ∀ x ∈ db.rlmJobs.rows, x.2.subjectId ≠ job.subjectId)
    (hfree : KeysFree db.rlmJobs job.subjectId (max job.quorumSlots 1)) :
    slotsOf (createSlots db job exclude groupId generation createdNew now).1.rlmJobs
      job.subjectId = slotsOf db.rlmJobs job.subjectId + max job.quorumSlots 1 := by
  have hkeys : ∀ r ∈ newRows job groupId generation now, ∀ x ∈ db.rlmJobs.rows,
      x.2.jobKey ≠ r.jobKey := by
    intro r hr x hx
    obtain ⟨k, hk, rfl⟩ := List.mem_map.mp hr
    exact hfree x hx (hnone x hx) k (List.mem_range.mp hk)
  have hall : (newRows job groupId generation now).countP (fun r => r.isAbout
      job.subjectId.project job.subjectId.level job.subjectId.subject && r.live) =
        max job.quorumSlots 1 := by
    rw [List.countP_eq_length.mpr]
    · simp [newRows]
    · intro r hr
      obtain ⟨hsub, hlive⟩ := newRows_subject hr
      simp [isAbout_eq, hsub, hlive]
  have hadded := insertRlmSlots_slots hkeys (newRows_nodup job groupId generation now) 0
    job.subjectId
  rw [hall] at hadded
  exact hadded

theorem createSlots_other (db : RlmDb) {job : NewRlmJob} (exclude : List String)
    (groupId generation : Int) (createdNew : Bool) (now : Int) {σ : SubjectId}
    (hne : job.subjectId ≠ σ) :
    slotsOf (createSlots db job exclude groupId generation createdNew now).1.rlmJobs σ =
      slotsOf db.rlmJobs σ := by
  have hrows : ∀ r ∈ newRows job groupId generation now, r.subjectId ≠ σ := by
    intro r hr he
    exact hne ((newRows_subject hr).1.symm.trans he)
  exact insertRlmSlots_other hrows 0

/-- The rows of an idle subject count for nothing. -/
theorem otherRows_slots {t : Table RlmJob} {job : NewRlmJob}
    (hidle : slotsOf t job.subjectId = 0) (σ : SubjectId) :
    slotsOf (otherRows t job) σ = slotsOf t σ := by
  unfold slotsOf otherRows
  rw [Table.count_delete]
  refine Table.count_congr fun i r hr => ?_
  have hdead := Table.count_eq_zero.mp hidle i r hr
  have hsame : r.isAbout job.subjectId.project job.subjectId.level job.subjectId.subject =
    r.isAbout job.project job.level job.subject := rfl
  rw [hsame] at hdead
  cases ha : r.isAbout job.project job.level job.subject with
  | false => simp
  | true =>
    rw [ha, Bool.true_and] at hdead
    simp [hdead]

theorem otherRows_subject {t : Table RlmJob} {job : NewRlmJob} {x : Int × RlmJob}
    (hx : x ∈ (otherRows t job).rows) : x.2.subjectId ≠ job.subjectId := by
  intro he
  have ha : x.2.isAbout job.subjectId.project job.subjectId.level job.subjectId.subject = false :=
    (Table.mem_delete.mp hx).2
  rw [isAbout_eq, he] at ha
  simp at ha

theorem mem_otherRows {t : Table RlmJob} {job : NewRlmJob} {x : Int × RlmJob} :
    x ∈ (otherRows t job).rows ↔ x ∈ t.rows ∧ x.2.subjectId ≠ job.subjectId := by
  constructor
  · exact fun h => ⟨(Table.mem_delete.mp h).1, otherRows_subject h⟩
  · rintro ⟨hx, hne⟩
    refine Table.mem_delete.mpr ⟨hx, ?_⟩
    have ha := isAbout_eq x.2 job.subjectId
    rw [decide_eq_false hne] at ha
    exact ha

theorem existingSlots_live {scan : ScanOrder RlmJob} {t : Table RlmJob} {job : NewRlmJob} :
    (existingSlots scan t job).any (fun x => x.2.live) = false ↔
      slotsOf t job.subjectId = 0 := by
  rw [List.any_eq_false]
  unfold slotsOf
  rw [Table.count_eq_zero]
  constructor
  · intro h i r hr
    cases ha : r.isAbout job.subjectId.project job.subjectId.level job.subjectId.subject with
    | false => rfl
    | true => simpa using h (i, r) ((existingSlots_mem scan).mpr ⟨hr, ha⟩)
  · intro h x hx
    obtain ⟨hr, ha⟩ := (existingSlots_mem scan).mp hx
    have hdead := h x.1 x.2 hr
    rw [show x.2.isAbout job.subjectId.project job.subjectId.level job.subjectId.subject = true
      from ha, Bool.true_and] at hdead
    rw [hdead]
    exact Bool.false_ne_true

theorem enqueueRlmJob_busy {scan : ScanOrder RlmJob} {db : RlmDb} {job : NewRlmJob}
    (exclude : List String) (now : Int) (hbusy : slotsOf db.rlmJobs job.subjectId ≠ 0) :
    (enqueueRlmJob scan db job exclude now).1 = db := by
  rcases enqueueRlmJob_cases db scan job exclude now with ⟨-, h⟩ | ⟨hidle, -⟩
  · exact h
  · exact absurd (existingSlots_live.mp hidle) hbusy

/-- `enqueueRlmJob_creates`, for an idle subject. -/
theorem enqueueRlmJob_idle (scan : ScanOrder RlmJob) {db : RlmDb} {job : NewRlmJob}
    (exclude : List String) (now : Int) (hidle : slotsOf db.rlmJobs job.subjectId = 0) :
    ∃ group generation new, enqueueRlmJob scan db job exclude now =
      createSlots { db with rlmJobs := otherRows db.rlmJobs job } job exclude group generation new
        now := by
  obtain ⟨group, generation, new, -, h⟩ := @enqueueRlmJob_creates scan _ _ exclude now
    (existingSlots_live.mpr hidle)
  exact ⟨group, generation, new, h⟩

/-- An enqueue that no live slot stops gives its subject all its slots. -/
theorem enqueueRlmJob_slots {scan : ScanOrder RlmJob} {db : RlmDb} {job : NewRlmJob}
    (exclude : List String) (now : Int) (hidle : slotsOf db.rlmJobs job.subjectId = 0)
    (hfree : KeysFree db.rlmJobs job.subjectId (max job.quorumSlots 1)) :
    slotsOf (enqueueRlmJob scan db job exclude now).1.rlmJobs job.subjectId =
      max job.quorumSlots 1 := by
  obtain ⟨group, generation, new, hcreate⟩ := enqueueRlmJob_idle scan exclude now hidle
  have hnew := createSlots_slots { db with rlmJobs := otherRows db.rlmJobs job } exclude group
    generation new now (fun x hx => otherRows_subject hx)
    fun x hx => hfree x (mem_otherRows.mp hx).1
  rw [otherRows_slots hidle, hidle, Nat.zero_add] at hnew
  rw [hcreate]
  exact hnew

/-- No row of another subject has the key of the first slot. -/
def FirstKeyFree (t : Table RlmJob) (σ : SubjectId) (slots : Nat) : Prop :=
  ∀ x ∈ t.rows, x.2.subjectId ≠ σ → x.2.jobKey ≠ slotKey σ.key slots 0

instance (t : Table RlmJob) (σ : SubjectId) (slots : Nat) : Decidable (FirstKeyFree t σ slots) :=
  inferInstanceAs (Decidable (∀ x ∈ t.rows, _ → _))

/-- An insertion that stops half way keeps what it has inserted. -/
theorem insertRlmSlots_le (t : Table RlmJob) (rs : List RlmJob) (first : Int) (σ : SubjectId) :
    slotsOf t σ ≤ slotsOf (insertRlmSlots t rs first).1 σ := by
  induction rs generalizing t first with
  | nil => exact Nat.le_refl _
  | cons r rs ih =>
    rw [insertRlmSlots]
    split
    · exact Nat.le_refl _
    · have hins : slotsOf (t.insert r) σ = slotsOf t σ +
          if r.isAbout σ.project σ.level σ.subject && r.live then 1 else 0 :=
        Table.count_insert ..
      have hrest := ih (t.insert r) (if first == 0 then t.nextId else first)
      omega

/-- Slots are created unless the first key is taken. -/
theorem createSlots_live (db : RlmDb) {job : NewRlmJob} (exclude : List String)
    (groupId generation : Int) (createdNew : Bool) (now : Int)
    (hnone : ∀ x ∈ db.rlmJobs.rows, x.2.subjectId ≠ job.subjectId) :
    slotsOf (createSlots db job exclude groupId generation createdNew now).1.rlmJobs
      job.subjectId ≠ 0 ↔ FirstKeyFree db.rlmJobs job.subjectId (max job.quorumSlots 1) := by
  have hzero : slotsOf db.rlmJobs job.subjectId = 0 := by
    refine Table.count_eq_zero.mpr fun i r hr => ?_
    rw [isAbout_eq, decide_eq_false (hnone (i, r) hr), Bool.false_and]
  obtain ⟨n, hn⟩ : ∃ n, max job.quorumSlots 1 = n + 1 := ⟨max job.quorumSlots 1 - 1, by omega⟩
  have hrows : newRows job groupId generation now =
      slotRow job (max job.quorumSlots 1) job.subjectId.key groupId generation now 0 ::
        (List.range n).map fun k => slotRow job (max job.quorumSlots 1) job.subjectId.key groupId
          generation now (k + 1) := by
    unfold newRows
    rw [hn, List.range_succ_eq_map, List.map_cons, List.map_map]
    rfl
  show slotsOf (insertRlmSlots db.rlmJobs (newRows job groupId generation now) 0).1
    job.subjectId ≠ 0 ↔ _
  rw [hrows, insertRlmSlots]
  split
  · rename_i htaken
    obtain ⟨x, hx, hkey⟩ := List.any_eq_true.mp htaken
    refine iff_of_false (fun h => h hzero) fun hfree => ?_
    exact hfree x hx (hnone x hx) (beq_iff_eq.mp hkey)
  · rename_i hopen
    refine iff_of_true (fun h => ?_) fun x hx _ hkey => ?_
    · have hle := insertRlmSlots_le (db.rlmJobs.insert (slotRow job (max job.quorumSlots 1)
        job.subjectId.key groupId generation now 0)) ((List.range n).map fun k => slotRow job
        (max job.quorumSlots 1) job.subjectId.key groupId generation now (k + 1))
        (if (0 : Int) == 0 then db.rlmJobs.nextId else 0) job.subjectId
      have hins : slotsOf (db.rlmJobs.insert (slotRow job (max job.quorumSlots 1)
          job.subjectId.key groupId generation now 0)) job.subjectId =
            slotsOf db.rlmJobs job.subjectId + _ := Table.count_insert ..
      have hnew := newRows_subject (r := slotRow job (max job.quorumSlots 1) job.subjectId.key
        groupId generation now 0) (hrows ▸ List.mem_cons_self)
      rw [isAbout_eq, hnew.1, hnew.2] at hins
      simp only [decide_true, Bool.and_self, if_true] at hins
      omega
    · exact hopen (List.any_eq_true.mpr ⟨x, hx, beq_iff_eq.mpr hkey⟩)

theorem otherRows_firstKey {t : Table RlmJob} {job : NewRlmJob} {slots : Nat} :
    FirstKeyFree (otherRows t job) job.subjectId slots ↔ FirstKeyFree t job.subjectId slots := by
  constructor
  · exact fun h x hx hne => h x (mem_otherRows.mpr ⟨hx, hne⟩) hne
  · exact fun h x hx => h x (mem_otherRows.mp hx).1

/-- An enqueue leaves a live slot, unless there was none and the first key is taken. -/
theorem enqueueRlmJob_live {scan : ScanOrder RlmJob} {db : RlmDb} {job : NewRlmJob}
    (exclude : List String) (now : Int) :
    slotsOf (enqueueRlmJob scan db job exclude now).1.rlmJobs job.subjectId ≠ 0 ↔
      slotsOf db.rlmJobs job.subjectId ≠ 0 ∨
        FirstKeyFree db.rlmJobs job.subjectId (max job.quorumSlots 1) := by
  by_cases hidle : slotsOf db.rlmJobs job.subjectId = 0
  · obtain ⟨group, generation, new, hcreate⟩ := enqueueRlmJob_idle scan exclude now hidle
    rw [hcreate, createSlots_live _ _ _ _ _ _ fun x hx => otherRows_subject hx,
      otherRows_firstKey, hidle]
    simp
  · rw [enqueueRlmJob_busy exclude now hidle]
    exact iff_of_true hidle (.inl hidle)

theorem enqueueRlmJob_other {scan : ScanOrder RlmJob} {db : RlmDb} {job : NewRlmJob}
    (exclude : List String) (now : Int) {σ : SubjectId} (hne : job.subjectId ≠ σ) :
    slotsOf (enqueueRlmJob scan db job exclude now).1.rlmJobs σ = slotsOf db.rlmJobs σ := by
  by_cases hidle : slotsOf db.rlmJobs job.subjectId = 0
  · obtain ⟨group, generation, new, hcreate⟩ := enqueueRlmJob_idle scan exclude now hidle
    rw [hcreate, ← otherRows_slots hidle σ]
    exact createSlots_other { db with rlmJobs := otherRows db.rlmJobs job } _ _ _ _ _ hne
  · rw [enqueueRlmJob_busy exclude now hidle]

/-- The other subjects have the slots they had. The subject has its slots, or had none and has `n`
new ones. -/
structure Refills (t t' : Table RlmJob) (σ : SubjectId) (n : Nat) : Prop where
  others : ∀ τ, σ ≠ τ → slotsOf t' τ = slotsOf t τ
  own : (slotsOf t σ = 0 → KeysFree t σ n) →
    slotsOf t' σ = slotsOf t σ ∨ slotsOf t σ = 0 ∧ slotsOf t' σ = n

theorem Refills.of_same {t t' : Table RlmJob} (h : ∀ τ, slotsOf t' τ = slotsOf t τ)
    (σ : SubjectId) (n : Nat) : Refills t t' σ n :=
  ⟨fun τ _ => h τ, fun _ => .inl (h σ)⟩

theorem enqueueRlmJob_refills (scan : ScanOrder RlmJob) (db : RlmDb) (job : NewRlmJob)
    (exclude : List String) (now : Int) :
    Refills db.rlmJobs (enqueueRlmJob scan db job exclude now).1.rlmJobs job.subjectId
      (max job.quorumSlots 1) := by
  refine ⟨fun τ hne => enqueueRlmJob_other exclude now hne, ?_⟩
  intro hfree
  by_cases hidle : slotsOf db.rlmJobs job.subjectId = 0
  · exact .inr ⟨hidle, enqueueRlmJob_slots exclude now hidle (hfree hidle)⟩
  · rw [enqueueRlmJob_busy exclude now hidle]
    exact .inl rfl

section Server

variable (cfg : ServerConfig) (env : DecisionEnv)

theorem reassignRlmOnDivergence_refills (db : RlmDb) (σ : SubjectId) (divergers : List String) :
    Refills db.rlmJobs (reassignRlmOnDivergence cfg env db σ.project σ.level σ.subject
      divergers).rlmJobs σ (max cfg.quorum.n 1) := by
  have hmax : max (max cfg.quorum.n 1) 1 = max cfg.quorum.n 1 := by omega
  unfold reassignRlmOnDivergence
  split
  · exact .of_same (fun _ => rfl) ..
  · have hnew := enqueueRlmJob_refills env.jobScan db {
      bufferId := (lastPayload db.rlmJobs σ.project σ.level σ.subject).1
      project := σ.project
      level := σ.level
      subject := σ.subject
      payload := (lastPayload db.rlmJobs σ.project σ.level σ.subject).2
      priority := PRIORITY_RETRY
      quorumSlots := max cfg.quorum.n 1 } divergers env.now
    rw [hmax] at hnew
    exact hnew

theorem rebuildParent_refills (codec : PayloadCodec) (jobScan : ScanOrder RlmJob) (db : RlmDb)
    (bufferId : Int) (project : String) (parent : Int × String)
    (children : List (Int × RlmNode)) (quorumN : Nat) (now : Int) :
    Refills db.rlmJobs (rebuildParent codec jobScan db bufferId project parent children quorumN
      now).1.rlmJobs ⟨project, parent.1, parent.2⟩ (max quorumN 1) := by
  unfold rebuildParent
  dsimp only
  split
  · split
    · exact .of_same (fun _ => rfl) ..
    · -- a reset and a new payload keep the slots live
      refine .of_same (fun τ => ?_) ..
      exact (updateRlmJobPayload_slots ..).trans (cancelRlmJobsForSubjects_slots ..)
  · exact enqueueRlmJob_refills jobScan db _ [] now

/-- A cascade touches the slots of the parent only. -/
theorem cascadeRlm_refills (codec : PayloadCodec) (scan : ScanOrder RlmNode)
    (jobScan : ScanOrder RlmJob) (db : RlmDb) (bufferId : Int) (project : String) (level : Int)
    (subject : String) (tolerance : Rat) (quorumN : Nat) (now : Int) :
    (∀ τ, slotsOf (cascadeRlm codec scan jobScan db bufferId project level subject tolerance
        quorumN now).1.rlmJobs τ = slotsOf db.rlmJobs τ) ∨
    ∃ parent, parentOf project level subject = some parent ∧
      Refills db.rlmJobs (cascadeRlm codec scan jobScan db bufferId project level subject
        tolerance quorumN now).1.rlmJobs ⟨project, parent.1, parent.2⟩ (max quorumN 1) := by
  rw [cascadeRlm_eq]
  split
  · exact .inl fun _ => rfl
  · rename_i parent children hdue
    refine .inr ⟨parent, parentOf_of_due hdue, ?_⟩
    dsimp only
    generalize markParent db.rlmNodes _ bufferId parent.1 parent.2 = marked
    exact rebuildParent_refills codec jobScan { db with rlmNodes := marked } bufferId project
      parent children quorumN now

theorem cascadeAfter_refills (db : RlmDb) (bufferId : Int) (project : String) (level : Int)
    (subject : String) :
    (∀ τ, slotsOf (cascadeAfter cfg env db bufferId project level subject).rlmJobs τ =
      slotsOf db.rlmJobs τ) ∨
    ∃ parent, parentOf project level subject = some parent ∧
      Refills db.rlmJobs (cascadeAfter cfg env db bufferId project level subject).rlmJobs
        ⟨project, parent.1, parent.2⟩ (max cfg.quorum.n 1) := by
  have hmax : max (max cfg.quorum.n 1) 1 = max cfg.quorum.n 1 := by omega
  unfold cascadeAfter
  split
  · have h := cascadeRlm_refills env.codec env.nodeScan env.jobScan db bufferId project level
      subject (if level = 1 then cfg.l2Tolerance else cfg.l3Tolerance) (max cfg.quorum.n 1) env.now
    rw [hmax] at h
    exact h
  · exact .inl fun _ => rfl

/-! ## Verdicts -/

theorem decideSubmission_count {status : SubmissionStatus} (hst : status ≠ .candidate)
    (t : Table Submission) (id : Int) (decidedBy : String) (similarity : Option Rat) (now : Int)
    (p : Int → Bool) (σ : SubjectId) :
    (decideSubmission status t id decidedBy similarity now).count
        (fun i x => p i && x.isCandidateFor σ) =
      t.count fun i x => (i != id && p i) && x.isCandidateFor σ := by
  unfold decideSubmission
  rw [Table.count_update]
  refine Table.count_congr fun i x _ => ?_
  by_cases hi : i = id
  · simp [hi, Submission.isCandidateFor, hst]
  · have hne : (i != id) = true := bne_iff_ne.mpr hi
    rw [if_neg (by simpa using hi), hne, Bool.true_and]

/-- Verdicts on a list of submissions take them out of the candidates. -/
theorem foldl_verdicts {α : Type} {f : RlmStore → α → RlmStore} {id : α → Int}
    (hf : ∀ s a, (f s a).db.rlmJobs = s.db.rlmJobs ∧ ∃ status ≠ SubmissionStatus.candidate,
      ∃ decidedBy similarity now, (f s a).submissions =
        decideSubmission status s.submissions (id a) decidedBy similarity now)
    (l : List α) (s : RlmStore) :
    (l.foldl f s).db.rlmJobs = s.db.rlmJobs ∧ ∀ σ, candidatesOf (l.foldl f s).submissions σ =
      s.submissions.count fun i x => !(l.map id).contains i && x.isCandidateFor σ := by
  induction l generalizing s with
  | nil => exact ⟨rfl, fun σ => Table.count_congr fun _ _ _ => by simp⟩
  | cons a l ih =>
    obtain ⟨hdb, status, hst, decidedBy, similarity, now, hsub⟩ := hf s a
    obtain ⟨hjobs, hcount⟩ := ih (f s a)
    rw [List.foldl_cons]
    refine ⟨hjobs.trans hdb, fun σ => ?_⟩
    rw [hcount σ, hsub, decideSubmission_count hst]
    refine Table.count_congr fun i x _ => ?_
    rw [List.map_cons, List.contains_cons, Bool.not_or]
    rfl

theorem rejectAll_count (s : RlmStore) (pending : List (Int × Submission)) :
    (rejectAll env s pending).db.rlmJobs = s.db.rlmJobs ∧
      ∀ σ, candidatesOf (rejectAll env s pending).submissions σ =
        s.submissions.count fun i x =>
          !(pending.map Prod.fst).contains i && x.isCandidateFor σ :=
  foldl_verdicts (f := fun s x => rejectCandidate env s x none)
    (fun _ _ => ⟨rfl, .rejected, by decide, "quorum", none, env.nowSecs, rfl⟩) pending s

theorem settleCandidates_count (s : RlmStore) (agreeing : List Nat)
    (pending : List (Int × Submission)) (sims : List Rat) (σ : SubjectId) :
    candidatesOf (settleCandidates env s agreeing pending sims).submissions σ =
      s.submissions.count fun i x =>
        !(pending.map Prod.fst).contains i && x.isCandidateFor σ := by
  have hids : pending.zipIdx.map (fun x => x.1.1) = pending.map Prod.fst := by
    calc pending.zipIdx.map (fun x => x.1.1)
      _ = (pending.zipIdx.map Prod.fst).map Prod.fst := by rw [List.map_map]; rfl
      _ = pending.map Prod.fst := by rw [List.zipIdx_map_fst]
  unfold settleCandidates
  rw [(foldl_verdicts ?_ pending.zipIdx s).2 σ, hids]
  intro s x
  split
  · exact ⟨rfl, .accepted, by decide, "quorum", _, env.nowSecs, rfl⟩
  · exact ⟨rfl, .rejected, by decide, "quorum", _, env.nowSecs, rfl⟩

/-- The candidates of one subject are decided, and no other. -/
def Settled (t t' : Table Submission) (σ : SubjectId) : Prop :=
  candidatesOf t' σ = 0 ∧ ∀ τ, σ ≠ τ → candidatesOf t' τ = candidatesOf t τ

theorem settled_of_pending {scan : ScanOrder Submission} {t t' : Table Submission} {σ : SubjectId}
    (h : ∀ τ, candidatesOf t' τ = t.count fun i x =>
      !((listPending scan t σ.project "rlm_node" σ.key).map Prod.fst).contains i &&
        x.isCandidateFor τ) : Settled t t' σ := by
  refine ⟨?_, ?_⟩
  · rw [h, Table.count_eq_zero]
    intro i x hx
    cases hc : x.isCandidateFor σ with
    | false => exact Bool.and_false _
    | true =>
      have hp : (i, x) ∈ listPending scan t σ.project "rlm_node" σ.key :=
        mem_listPending.mpr ⟨hx, isCandidateFor_iff.mp hc⟩
      have hi := List.mem_map_of_mem (f := Prod.fst) hp
      simp only [List.contains_eq_mem, hi, decide_true, Bool.not_true, Bool.false_and]
  · intro τ hne
    rw [h]
    refine Table.count_congr fun i x hx => ?_
    cases hc : x.isCandidateFor τ with
    | false => exact Bool.and_false _
    | true =>
      rw [Bool.and_true, Bool.not_eq_true', List.contains_eq_mem, decide_eq_false_iff_not]
      intro hi
      obtain ⟨⟨j, y⟩, hy, rfl⟩ := List.mem_map.mp hi
      obtain ⟨hrow, hcand⟩ := mem_listPending.mp hy
      obtain rfl := Table.eq_of_mem hx hrow
      exact hne (isCandidateFor_unique (isCandidateFor_iff.mpr hcand) hc)

/-! ## A decision -/

/-- A decision changes nothing, or takes every candidate of its subject. -/
theorem decideRlmQuorum_supply (s : RlmStore) (σ : SubjectId) :
    (decideRlmQuorum cfg env s σ.project σ.level σ.subject).1 = s ∨
    (max cfg.quorum.n 1 ≤ candidatesOf s.submissions σ ∧
      Settled s.submissions
        (decideRlmQuorum cfg env s σ.project σ.level σ.subject).1.submissions σ ∧
      Refills s.db.rlmJobs (decideRlmQuorum cfg env s σ.project σ.level σ.subject).1.db.rlmJobs σ
        (max cfg.quorum.n 1)) := by
  have hlen := length_listPending env.submissionScan s.submissions σ
  unfold SubjectId.key at hlen
  unfold decideRlmQuorum
  dsimp only
  split
  · left
    split <;> rfl
  split
  · exact .inl rfl
  rename_i hmany
  split
  · exact .inl rfl
  have hn : max cfg.quorum.n 1 ≤ candidatesOf s.submissions σ := by omega
  unfold decideGathered
  dsimp only
  split
  · -- a total divergence: every candidate is rejected, then the subject is reassigned
    obtain ⟨hjobs, hcount⟩ := rejectAll_count env s
      (listPending env.submissionScan s.submissions σ.project "rlm_node"
        (rlmJobKey σ.project σ.level σ.subject))
    refine .inr ⟨hn, settled_of_pending hcount, ?_⟩
    rw [← hjobs]
    exact reassignRlmOnDivergence_refills cfg env _ σ _
  split
  · exact .inl rfl
  split
  · exact .inl rfl
  rename_i published hpub
  obtain ⟨hjobs, id, node, hlive, -, hbuffer, -⟩ := publishConsensus_ok env hpub
  refine .inr ⟨hn, ?_, ?_⟩
  · unfold publishConsensus at hpub
    split at hpub
    · cases hpub
    cases hpub
    exact settled_of_pending (settleCandidates_count env _ _ _ _)
  · dsimp only
    rw [cascadeDecided_of_none cfg env hlive hbuffer, hjobs]
    exact .of_same (fun _ => rfl) ..

end Server

end Arags
