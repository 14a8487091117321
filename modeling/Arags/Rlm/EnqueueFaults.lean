import Arags.Lib.Autocommit
import Arags.Rlm.JobKeys

/-!
# Arags.Rlm.EnqueueFaults

`enqueue_rlm_job` sends its `DELETE` and its `INSERT`s as autocommitted statements, and any of them
can fail. Here it is such a list of statements.

* `enqueueRlmJobWith` — the enqueue with one statement that fails for a reason of the storage.
* `enqueueRlmJobWith_none` — without such a failure it is `enqueueRlmJob`.
* `enqueue_all_or_nothing` — when a call leaves everything or nothing, and whether the generation
  of the new slots is above all generations its subject has had.
-/

namespace Arags

open Sql Autocommit

/-- What fails for another reason than a key that is taken. -/
inductive StorageFault where
  | none
  /-- One of the queries, all of which come before the first write. -/
  | read
  /-- The write number `k`. -/
  | write (k : Nat)
  deriving DecidableEq, Repr

def StorageFault.failing : StorageFault → Option Nat
  | .none => Option.none
  | .read => Option.none
  | .write k => some k

/-! ## The statements -/

/-- `DELETE FROM rlm_jobs WHERE project = ?1 AND level = ?2 AND subject = ?3`. The second component
of a state is the `first_id` of the loop over the slots. -/
def deleteSlots (job : NewRlmJob) : SqlStatement (RlmDb × Int) := fun s =>
  some ({ s.1 with rlmJobs := otherRows s.1.rlmJobs job }, s.2)

/-- `INSERT INTO rlm_job_exclusions … ON CONFLICT … DO NOTHING`. -/
def insertExclusion (groupId : Int) (vol : String) : SqlStatement (RlmDb × Int) := fun s =>
  some ({ s.1 with
    rlmJobExclusions :=
      if s.1.rlmJobExclusions.contains (groupId, vol) then s.1.rlmJobExclusions
      else s.1.rlmJobExclusions ++ [(groupId, vol)] }, s.2)

/-- `INSERT INTO rlm_jobs … RETURNING id`. -/
def insertSlot (r : RlmJob) : SqlStatement (RlmDb × Int) := fun s =>
  if s.1.rlmJobs.rows.any (fun x => x.2.jobKey == r.jobKey) then none
  else
    some ({ s.1 with rlmJobs := s.1.rlmJobs.insert r },
      if s.2 == 0 then s.1.rlmJobs.nextId else s.2)

def createStatements (job : NewRlmJob) (exclude : List String) (groupId generation now : Int) :
    List (SqlStatement (RlmDb × Int)) :=
  (exclude.filter fun vol => !(vol == "")).map (insertExclusion groupId) ++
    (newRows job groupId generation now).map insertSlot

/-- The writes of an enqueue that no live slot stops. -/
structure EnqueuePlan where
  writes : List (SqlStatement (RlmDb × Int))
  generation : Int
  createdNew : Bool

def planEnqueue (scan : ScanOrder RlmJob) (db : RlmDb) (job : NewRlmJob) (exclude : List String)
    (now : Int) : EnqueuePlan :=
  match existingSlots scan db.rlmJobs job with
  | first :: _ =>
    let groupId :=
      if exclude.isEmpty then first.2.generationGroupId.getD first.1
      else nextGenerationGroup db.rlmJobs
    let generation := first.2.generation + 1
    ⟨deleteSlots job :: createStatements job exclude groupId generation now, generation, false⟩
  | [] =>
    let groupId := nextGenerationGroup db.rlmJobs
    let generation := if exclude.isEmpty then 0 else priorGeneration db.rlmJobs job + 1
    ⟨createStatements job exclude groupId generation now, generation, true⟩

/-- The enqueue statement by statement; no result is `Err`. -/
def enqueueRlmJobWith (fault : StorageFault) (scan : ScanOrder RlmJob) (db : RlmDb)
    (job : NewRlmJob) (exclude : List String) (now : Int) : RlmDb × Option (Int × Int × Bool) :=
  let existing := existingSlots scan db.rlmJobs job
  if fault = .read then (db, none)
  else if existing.any (fun x => x.2.live) then
    (db, existing.head?.map fun first => (first.1, first.2.generation, false))
  else
    let plan := planEnqueue scan db job exclude now
    let left := run (failAt fault.failing plan.writes) (db, 0)
    (left.1.1, if left.2 then some (left.1.2, plan.generation, plan.createdNew) else none)

/-! ## Without a failure of the storage -/

theorem run_exclusions (groupId : Int) (exclude : List String)
    (fs : List (SqlStatement (RlmDb × Int))) (db : RlmDb) (first : Int) :
    run ((exclude.filter fun vol => !(vol == "")).map (insertExclusion groupId) ++ fs) (db, first) =
      run fs ({ db with
        rlmJobExclusions := insertRlmExclusions db.rlmJobExclusions groupId exclude }, first) := by
  induction exclude generalizing db with
  | nil => rfl
  | cons vol vols ih =>
    rw [insertRlmExclusions, List.filter_cons]
    cases hv : vol == "" with
    | true =>
      rw [Bool.true_or, if_pos rfl, Bool.not_true, if_neg Bool.false_ne_true]
      exact ih db
    | false =>
      have hgo : insertExclusion groupId vol (db, first) = some _ := rfl
      rw [Bool.false_or, Bool.not_false, if_pos rfl, List.map_cons, List.cons_append,
        run_cons_some hgo, ih]
      dsimp only
      split
      · rfl
      · rfl

theorem run_slots (rs : List RlmJob) (db : RlmDb) (first : Int) :
    (run (rs.map insertSlot) (db, first)).1.1 =
        { db with rlmJobs := (insertRlmSlots db.rlmJobs rs first).1 } ∧
      (if (run (rs.map insertSlot) (db, first)).2 then
        some (run (rs.map insertSlot) (db, first)).1.2 else none) =
          (insertRlmSlots db.rlmJobs rs first).2.toOption := by
  induction rs generalizing db first with
  | nil => exact ⟨rfl, rfl⟩
  | cons r rs ih =>
    rw [List.map_cons, insertRlmSlots]
    cases ht : db.rlmJobs.rows.any fun x => x.2.jobKey == r.jobKey with
    | true =>
      have hfail : insertSlot r (db, first) = none := if_pos ht
      rw [run_cons_none hfail]
      exact ⟨rfl, rfl⟩
    | false =>
      have hgo : insertSlot r (db, first) = some _ := if_neg (by rw [ht]; exact Bool.false_ne_true)
      rw [run_cons_some hgo, if_neg Bool.false_ne_true]
      exact ih _ _

theorem run_create (job : NewRlmJob) (exclude : List String) (groupId generation : Int)
    (createdNew : Bool) (now : Int) (db : RlmDb) :
    let left := run (createStatements job exclude groupId generation now) (db, 0)
    (left.1.1, if left.2 then some (left.1.2, generation, createdNew) else none) =
      ((createSlots db job exclude groupId generation createdNew now).1,
        (createSlots db job exclude groupId generation createdNew now).2.toOption) := by
  dsimp only
  unfold createStatements
  rw [run_exclusions]
  obtain ⟨htables, hresult⟩ := run_slots (newRows job groupId generation now)
    { db with rlmJobExclusions := insertRlmExclusions db.rlmJobExclusions groupId exclude } 0
  refine Prod.ext htables ?_
  have hcreate : (createSlots db job exclude groupId generation createdNew now).2 =
      (insertRlmSlots db.rlmJobs (newRows job groupId generation now) 0).2.map
        fun first => (first, generation, createdNew) := rfl
  rw [hcreate]
  dsimp only at hresult ⊢
  cases hi : (insertRlmSlots db.rlmJobs (newRows job groupId generation now) 0).2 with
  | error e =>
    rw [hi] at hresult
    split
    · rename_i hrun
      rw [if_pos hrun] at hresult
      cases hresult
    · rfl
  | ok first =>
    rw [hi] at hresult
    split
    · rename_i hrun
      rw [if_pos hrun] at hresult
      rw [Option.some.inj hresult]
      rfl
    · rename_i hrun
      rw [if_neg hrun] at hresult
      cases hresult

theorem enqueueRlmJobWith_none (scan : ScanOrder RlmJob) (db : RlmDb) (job : NewRlmJob)
    (exclude : List String) (now : Int) :
    enqueueRlmJobWith .none scan db job exclude now =
      ((enqueueRlmJob scan db job exclude now).1,
        (enqueueRlmJob scan db job exclude now).2.toOption) := by
  unfold enqueueRlmJobWith enqueueRlmJob planEnqueue
  dsimp only
  rw [if_neg (by decide)]
  cases he : existingSlots scan db.rlmJobs job with
  | nil =>
    dsimp only
    rw [if_neg (by simp)]
    exact run_create ..
  | cons first rest =>
    dsimp only
    split
    · rfl
    · exact run_create ..

/-! ## All or nothing -/

/-- The generations that the rows of a subject have. -/
def generationsOf (t : Table RlmJob) (σ : SubjectId) (g : Int) : Prop :=
  ∃ x ∈ t.rows, x.2.subjectId = σ ∧ x.2.generation = g

/-- What an enqueue from `db` should leave, `earlier` being the generations its subject has had. -/
structure AllOrNothing (earlier : Int → Prop) (db : RlmDb) (job : NewRlmJob)
    (res : RlmDb × Option (Int × Int × Bool)) : Prop where
  failed : res.2 = none → res.1 = db
  live : slotsOf db.rlmJobs job.subjectId ≠ 0 → res.1 = db
  created : slotsOf db.rlmJobs job.subjectId = 0 → res.2 ≠ none →
    slotsOf res.1.rlmJobs job.subjectId = max job.quorumSlots 1 ∧
      ∃ group generation, (∀ x ∈ res.1.rlmJobs.rows, x.2.subjectId = job.subjectId →
        x.2.live = true → x.2.generationGroupId = some group ∧ x.2.generation = generation) ∧
        ∀ g, earlier g → g < generation

/-- The slot that the probe returns first has the highest generation. -/
def FirstIsLatest (scan : ScanOrder RlmJob) (t : Table RlmJob) (job : NewRlmJob) : Prop :=
  ∀ first ∈ (existingSlots scan t job).head?, ∀ x ∈ existingSlots scan t job,
    x.2.generation ≤ first.2.generation

/-- There is a live slot, or no query and no write fails and the first slot is the latest, or what
fails comes before anything has changed. -/
def EnqueueSafe (fault : StorageFault) (scan : ScanOrder RlmJob) (db : RlmDb) (job : NewRlmJob)
    (exclude : List String) (now : Int) : Prop :=
  let writes := (planEnqueue scan db job exclude now).writes
  slotsOf db.rlmJobs job.subjectId ≠ 0 ∨ fault = .read ∨
    ((∀ k ∈ fault.failing, writes.length ≤ k) ∧
        KeysFree db.rlmJobs job.subjectId (max job.quorumSlots 1) ∧
        FirstIsLatest scan db.rlmJobs job) ∨
      FailsFirst (failAt fault.failing writes) (db, 0)

section Call

variable {fault : StorageFault} {scan : ScanOrder RlmJob} {db : RlmDb} {job : NewRlmJob}
  {exclude : List String} {now : Int}

theorem enqueueRlmJobWith_read :
    enqueueRlmJobWith .read scan db job exclude now = (db, none) := by
  unfold enqueueRlmJobWith
  dsimp only
  rw [if_pos rfl]

theorem enqueueRlmJobWith_live (hlive : slotsOf db.rlmJobs job.subjectId ≠ 0) :
    (enqueueRlmJobWith fault scan db job exclude now).1 = db := by
  have hany : (existingSlots scan db.rlmJobs job).any (fun x => x.2.live) = true := by
    rw [← Bool.not_eq_false]
    exact mt existingSlots_live.mp hlive
  unfold enqueueRlmJobWith
  dsimp only
  split
  · rfl
  · rfl

theorem enqueueRlmJobWith_idle (hidle : slotsOf db.rlmJobs job.subjectId = 0)
    (hread : fault ≠ .read) :
    enqueueRlmJobWith fault scan db job exclude now =
      (let plan := planEnqueue scan db job exclude now
      let left := run (failAt fault.failing plan.writes) (db, 0)
      (left.1.1, if left.2 then some (left.1.2, plan.generation, plan.createdNew) else none)) := by
  unfold enqueueRlmJobWith
  dsimp only
  rw [if_neg hread, existingSlots_live.mpr hidle, if_neg Bool.false_ne_true]

theorem enqueueRlmJob_of_run (scan : ScanOrder RlmJob) (exclude : List String) (now : Int)
    (hidle : slotsOf db.rlmJobs job.subjectId = 0) :
    let plan := planEnqueue scan db job exclude now
    let left := run plan.writes (db, 0)
    left.1.1 = (enqueueRlmJob scan db job exclude now).1 ∧
      (if left.2 then some (left.1.2, plan.generation, plan.createdNew) else none) =
        (enqueueRlmJob scan db job exclude now).2.toOption := by
  have hplain := enqueueRlmJobWith_none scan db job exclude now
  rw [enqueueRlmJobWith_idle hidle (by decide)] at hplain
  exact Prod.mk.inj hplain

/-- No write fails only where no storage failure comes in time and the keys are free. -/
theorem writes_pass_iff (hidle : slotsOf db.rlmJobs job.subjectId = 0) :
    (run (failAt fault.failing (planEnqueue scan db job exclude now).writes) (db, 0)).2 = true ↔
      (∀ k ∈ fault.failing, (planEnqueue scan db job exclude now).writes.length ≤ k) ∧
        KeysFree db.rlmJobs job.subjectId (max job.quorumSlots 1) := by
  rw [run_failAt]
  refine and_congr_right fun _ => ?_
  obtain ⟨-, hresult⟩ := enqueueRlmJob_of_run scan exclude now hidle
  have hok : (enqueueRlmJob scan db job exclude now).2.isOk = true ↔ _ :=
    enqueueRlmJob_isOk exclude now
  rw [hidle] at hok
  simp only [ne_eq, not_true_eq_false, false_or] at hok
  rw [← hok]
  cases hr : (enqueueRlmJob scan db job exclude now).2 with
  | error e =>
    rw [hr] at hresult
    refine iff_of_false (fun h => ?_) Bool.false_ne_true
    rw [if_pos h] at hresult
    cases hresult
  | ok v =>
    rw [hr] at hresult
    refine iff_of_true ?_ rfl
    by_contra h
    rw [if_neg h] at hresult
    cases hresult

/-! ### Nothing fails -/

theorem isAbout_subject {r : RlmJob} {job : NewRlmJob} :
    r.isAbout job.project job.level job.subject = true ↔ r.subjectId = job.subjectId := by
  have h := isAbout_eq r job.subjectId
  rw [show r.isAbout job.project job.level job.subject = decide (r.subjectId = job.subjectId)
    from h, decide_eq_true_eq]

/-- The target generation is above those of the rows exactly when the first of them is the
latest. -/
theorem target_above_iff {t : Table RlmJob} {group generation : Int}
    (h : enqueueTarget scan t job exclude = some (group, generation)) :
    (∀ g, generationsOf t job.subjectId g → g < generation) ↔ FirstIsLatest scan t job := by
  have hrows : ∀ x, x ∈ existingSlots scan t job ↔ x ∈ t.rows ∧ x.2.subjectId = job.subjectId :=
    fun x => (existingSlots_mem scan).trans (and_congr_right fun _ => isAbout_subject)
  have habove : (∀ g, generationsOf t job.subjectId g → g < generation) ↔
      ∀ x ∈ existingSlots scan t job, x.2.generation < generation := by
    constructor
    · intro hall x hx
      obtain ⟨hmem, hsub⟩ := (hrows x).mp hx
      exact hall _ ⟨x, hmem, hsub, rfl⟩
    · rintro hall g ⟨x, hmem, hsub, rfl⟩
      exact hall x ((hrows x).mpr ⟨hmem, hsub⟩)
  rw [habove]
  unfold FirstIsLatest
  unfold enqueueTarget at h
  cases he : existingSlots scan t job with
  | nil =>
    refine iff_of_true (fun x hx => absurd hx List.not_mem_nil) fun first hf => ?_
    cases hf
  | cons first rest =>
    rw [he] at h
    dsimp only at h
    split at h
    · cases h
    · obtain ⟨-, hgen⟩ := Prod.mk.inj (Option.some.inj h)
      simp only [List.head?_cons, Option.mem_some_iff, forall_eq', ← hgen]
      exact forall₂_congr fun x _ => Int.lt_add_one_iff

theorem enqueueRlmJob_created (scan : ScanOrder RlmJob) (exclude : List String) (now : Int)
    (hidle : slotsOf db.rlmJobs job.subjectId = 0)
    (hfree : KeysFree db.rlmJobs job.subjectId (max job.quorumSlots 1)) :
    slotsOf (enqueueRlmJob scan db job exclude now).1.rlmJobs job.subjectId =
        max job.quorumSlots 1 ∧
      ∃ group generation, enqueueTarget scan db.rlmJobs job exclude = some (group, generation) ∧
        ∀ x ∈ (enqueueRlmJob scan db job exclude now).1.rlmJobs.rows,
          x.2.subjectId = job.subjectId →
            x.2.generationGroupId = some group ∧ x.2.generation = generation := by
  refine ⟨enqueueRlmJob_slots exclude now hidle hfree, ?_⟩
  obtain ⟨hbusy, -⟩ | ⟨-, group, generation, n, hins⟩ :=
    enqueueRlmJob_cases db scan job exclude now
  · rw [existingSlots_live.mpr hidle] at hbusy
    exact absurd hbusy Bool.false_ne_true
  · refine ⟨group, generation, hins.target, fun x hx hsub => ?_⟩
    obtain hold | ⟨k, -, rfl⟩ := hins.row hx
    · exact absurd hsub (otherRows_subject hold)
    · exact ⟨rfl, rfl⟩

/-- A slot that is counted is there. -/
theorem exists_of_slotsOf {t : Table RlmJob} {σ : SubjectId} (h : slotsOf t σ ≠ 0) :
    ∃ x ∈ t.rows, x.2.subjectId = σ ∧ x.2.live = true := by
  by_contra hno
  refine h (Table.count_eq_zero.mpr fun i r hr => ?_)
  rw [isAbout_eq]
  by_contra hlive
  rw [Bool.not_eq_false, Bool.and_eq_true, decide_eq_true_eq] at hlive
  exact hno ⟨(i, r), hr, hlive⟩

/-! ### Something fails -/

theorem createStatements_adds (groupId generation : Int) :
    ∀ f ∈ createStatements job exclude groupId generation now,
      Adds (fun s => s.1.rlmJobExclusions.length + s.1.rlmJobs.rows.length) f := by
  intro f hf
  obtain hf | hf := List.mem_append.mp hf
  · obtain ⟨vol, -, rfl⟩ := List.mem_map.mp hf
    rintro ⟨db, first⟩ s' hs
    obtain rfl := Option.some.inj hs
    dsimp only
    split
    · exact .inl rfl
    · refine .inr ?_
      rw [List.length_append]
      exact Nat.add_lt_add_right (Nat.lt_succ_self _) _
  · obtain ⟨r, -, rfl⟩ := List.mem_map.mp hf
    rintro ⟨db, first⟩ s' hs
    unfold insertSlot at hs
    split at hs
    · cases hs
    · obtain rfl := Option.some.inj hs
      refine .inr ?_
      dsimp only [Table.insert]
      rw [List.length_append]
      exact Nat.add_lt_add_left (Nat.lt_succ_self _) _

/-- After the `DELETE` the subject has no row but new slots. -/
theorem createStatements_live (groupId generation : Int) :
    ∀ f ∈ createStatements job exclude groupId generation now, ∀ s s' : RlmDb × Int,
      (∀ x ∈ s.1.rlmJobs.rows, x.2.subjectId = job.subjectId → x.2.live = true) →
        f s = some s' → ∀ x ∈ s'.1.rlmJobs.rows, x.2.subjectId = job.subjectId →
          x.2.live = true := by
  intro f hf s s' hs hrun
  obtain hf | hf := List.mem_append.mp hf
  · obtain ⟨vol, -, rfl⟩ := List.mem_map.mp hf
    obtain rfl := Option.some.inj hrun
    exact hs
  · obtain ⟨r, hr, rfl⟩ := List.mem_map.mp hf
    unfold insertSlot at hrun
    split at hrun
    · cases hrun
    · obtain rfl := Option.some.inj hrun
      rintro ⟨i, x⟩ hx hsub
      obtain hold | ⟨-, rfl⟩ := Table.mem_insert.mp hx
      · exact hs (i, x) hold hsub
      · exact (newRows_subject hr).2

/-- Writes that fail leave the tables as they were only when nothing had been changed before. -/
theorem failed_unchanged (hidle : slotsOf db.rlmJobs job.subjectId = 0)
    (hfail : (run (failAt fault.failing (planEnqueue scan db job exclude now).writes)
      (db, 0)).2 = false)
    (hsame : (run (failAt fault.failing (planEnqueue scan db job exclude now).writes)
      (db, 0)).1.1 = db) :
    FailsFirst (failAt fault.failing (planEnqueue scan db job exclude now).writes) (db, 0) := by
  unfold planEnqueue at hfail hsame ⊢
  cases he : existingSlots scan db.rlmJobs job with
  | nil =>
    rw [he] at hfail hsame
    dsimp only at hfail hsame ⊢
    refine (run_failed_iff (Adds.failAt (createStatements_adds _ _) _) hfail).mp ?_
    rw [hsame]
  | cons first rest =>
    rw [he] at hfail hsame
    dsimp only at hfail hsame ⊢
    have hfirst : first ∈ existingSlots scan db.rlmJobs job := by
      rw [he]
      exact List.mem_cons_self
    obtain ⟨hmem, habout⟩ := (existingSlots_mem scan).mp hfirst
    have hdead : first.2.live = false := by
      have hany : (existingSlots scan db.rlmJobs job).any (fun x => x.2.live) = false :=
        existingSlots_live.mpr hidle
      exact Bool.eq_false_iff.mpr (List.any_eq_false.mp hany first hfirst)
    generalize hc : createStatements job exclude _ _ now = create at *
    have hclean : ∀ fs : List (SqlStatement (RlmDb × Int)),
        (∀ f ∈ fs, f ∈ create ∨ f = fun _ => none) →
          (run (deleteSlots job :: fs) (db, 0)).1.1 ≠ db := by
      intro fs hfs heq
      have hgo : deleteSlots job (db, 0) = some _ := rfl
      rw [run_cons_some hgo] at heq
      have hlive : ∀ x ∈
          (run fs ({ db with rlmJobs := otherRows db.rlmJobs job }, 0)).1.1.rlmJobs.rows,
            x.2.subjectId = job.subjectId → x.2.live = true := by
        refine run_inv (I := fun s : RlmDb × Int => ∀ x ∈ s.1.rlmJobs.rows,
          x.2.subjectId = job.subjectId → x.2.live = true) (fun f hf s s' hs hrun => ?_)
            fun x hx hsub => absurd hsub (otherRows_subject hx)
        obtain hf | rfl := hfs f hf
        · exact createStatements_live _ _ f (hc ▸ hf) s s' hs hrun
        · cases hrun
      have hbad := hlive first (by rw [heq]; exact hmem) (isAbout_subject.mp habout)
      rw [hdead] at hbad
      exact Bool.false_ne_true hbad
    cases hk : fault.failing with
    | none =>
      rw [hk] at hsame
      exact absurd hsame (hclean create fun f hf => .inl hf)
    | some k =>
      rw [hk] at hsame
      cases k with
      | zero => exact ⟨[], _, create, rfl, by simp, rfl⟩
      | succ k =>
        exact absurd hsame (hclean (create.set k fun _ => none) fun f hf =>
          List.mem_or_eq_of_mem_set hf)

/-! ### One call -/

theorem allOrNothing_unchanged {earlier : Int → Prop} {res : RlmDb × Option (Int × Int × Bool)}
    (hsame : res.1 = db)
    (hres : slotsOf db.rlmJobs job.subjectId ≠ 0 ∨ res.2 = none) :
    AllOrNothing earlier db job res where
  failed _ := hsame
  live _ := hsame
  created hidle hok := (hres.elim (· hidle) hok).elim

/-- Where all writes pass, the new slots are as they should be for every set of earlier
generations below their own. -/
theorem allOrNothing_created {earlier : Int → Prop}
    (hidle : slotsOf db.rlmJobs job.subjectId = 0) (hread : fault ≠ .read)
    (hpast : ∀ k ∈ fault.failing, (planEnqueue scan db job exclude now).writes.length ≤ k)
    (hfree : KeysFree db.rlmJobs job.subjectId (max job.quorumSlots 1))
    (hearlier : ∀ group generation,
      enqueueTarget scan db.rlmJobs job exclude = some (group, generation) →
        ∀ g, earlier g → g < generation) :
    AllOrNothing earlier db job (enqueueRlmJobWith fault scan db job exclude now) := by
  have hpass : (run (failAt fault.failing (planEnqueue scan db job exclude now).writes)
      (db, 0)).2 = true := (writes_pass_iff hidle).mpr ⟨hpast, hfree⟩
  obtain ⟨htables, -⟩ := enqueueRlmJob_of_run scan exclude now hidle
  obtain ⟨hslots, group, generation, htarget, hrows⟩ :=
    enqueueRlmJob_created scan exclude now hidle hfree
  rw [enqueueRlmJobWith_idle hidle hread]
  dsimp only
  rw [hpass, if_pos rfl, failAt_past hpast, htables]
  refine ⟨nofun, fun hlive => absurd hidle hlive, fun _ _ => ⟨hslots, group, generation, ?_, ?_⟩⟩
  · exact fun x hx hsub _ => hrows x hx hsub
  · exact hearlier group generation htarget

theorem allOrNothing_iff : AllOrNothing (generationsOf db.rlmJobs job.subjectId) db job
      (enqueueRlmJobWith fault scan db job exclude now) ↔
    EnqueueSafe fault scan db job exclude now := by
  by_cases hlive : slotsOf db.rlmJobs job.subjectId ≠ 0
  · exact iff_of_true (allOrNothing_unchanged (enqueueRlmJobWith_live hlive) (.inl hlive))
      (.inl hlive)
  have hidle := not_not.mp hlive
  by_cases hread : fault = .read
  · subst hread
    rw [enqueueRlmJobWith_read]
    exact iff_of_true (allOrNothing_unchanged rfl (.inr rfl)) (.inr (.inl rfl))
  constructor
  · intro h
    refine .inr (.inr ?_)
    cases hpass : (run (failAt fault.failing (planEnqueue scan db job exclude now).writes)
        (db, 0)).2 with
    | false =>
      refine .inr (failed_unchanged hidle hpass ?_)
      have hfailed := h.failed
      rw [enqueueRlmJobWith_idle hidle hread] at hfailed
      dsimp only at hfailed
      rw [hpass, if_neg Bool.false_ne_true] at hfailed
      exact hfailed rfl
    | true =>
      obtain ⟨hpast, hfree⟩ := (writes_pass_iff hidle).mp hpass
      refine .inl ⟨hpast, hfree, ?_⟩
      obtain ⟨htables, -⟩ := enqueueRlmJob_of_run scan exclude now hidle
      obtain ⟨-, group, generation, htarget, hrows⟩ :=
        enqueueRlmJob_created scan exclude now hidle hfree
      have hcreated := h.created hidle
      rw [enqueueRlmJobWith_idle hidle hread] at hcreated
      dsimp only at hcreated
      rw [hpass, if_pos rfl, failAt_past hpast, htables] at hcreated
      obtain ⟨hslots, group', generation', hnew, habove⟩ := hcreated (by simp)
      obtain ⟨x, hx, hsub, hxlive⟩ := exists_of_slotsOf (hslots.trans_ne (by omega))
      have hgen : generation' = generation :=
        (hnew x hx hsub hxlive).2.symm.trans (hrows x hx hsub).2
      exact (target_above_iff htarget).mp (hgen ▸ habove)
  · rintro (hl | hr | ⟨hpast, hfree, hlatest⟩ | hfirst)
    · exact absurd hl hlive
    · exact absurd hr hread
    · refine allOrNothing_created hidle hread hpast hfree fun group generation htarget => ?_
      exact (target_above_iff htarget).mpr hlatest
    · have hrun := hfirst.run_eq
      refine allOrNothing_unchanged ?_ (.inr ?_)
      · rw [enqueueRlmJobWith_idle hidle hread]
        dsimp only
        rw [hrun]
      · rw [enqueueRlmJobWith_idle hidle hread]
        dsimp only
        rw [hrun, if_neg Bool.false_ne_true]

end Call

/-! ## Runs -/

/-- An operation of the queue, and what fails in it when it is an enqueue. -/
structure QueueCall where
  op : QueueOp
  fault : StorageFault

def stepQueueCall (db : RlmDb) (c : QueueCall) : RlmDb :=
  match c.op with
  | .enqueue scan job exclude now => (enqueueRlmJobWith c.fault scan db job exclude now).1
  | op => step db op

def EnqueueCallSafe (db : RlmDb) (c : QueueCall) : Prop :=
  match c.op with
  | .enqueue scan job exclude now => EnqueueSafe c.fault scan db job exclude now
  | _ => True

/-- The generations of all subjects. -/
def generations (t : Table RlmJob) : List (SubjectId × Int) :=
  t.rows.map fun x => (x.2.subjectId, x.2.generation)

/-- The queue together with all generations that any subject has had. -/
def afterCalls (calls : List QueueCall) : List (SubjectId × Int) × RlmDb :=
  Lts.after (Lts.recorded stepQueueCall fun db c => generations (stepQueueCall db c).rlmJobs)
    ([], RlmDb.empty) calls

/-- Every call met the condition when it was made. -/
def SafeCalls (calls : List QueueCall) : Prop :=
  Lts.Always (Lts.recorded stepQueueCall fun db c => generations (stepQueueCall db c).rlmJobs)
    ([], RlmDb.empty) (fun _ s c => EnqueueCallSafe s.2 c) calls

/-- For every row there is one of its subject with no lower generation. -/
def GenerationsKept (t t' : Table RlmJob) : Prop :=
  ∀ x ∈ t.rows, ∃ y ∈ t'.rows, y.2.subjectId = x.2.subjectId ∧ x.2.generation ≤ y.2.generation

theorem GenerationsKept.refl (t : Table RlmJob) : GenerationsKept t t :=
  fun x hx => ⟨x, hx, rfl, Int.le_refl _⟩

theorem GenerationsKept.of_update {t : Table RlmJob} {p : Int → RlmJob → Bool}
    {f : Int → RlmJob → RlmJob} (h : ∀ i r, (f i r).subjectId = r.subjectId ∧
      r.generation ≤ (f i r).generation) : GenerationsKept t (t.update p f) := by
  rintro ⟨i, r⟩ hx
  refine ⟨(i, if p i r then f i r else r), Table.mem_update.mpr ⟨r, hx, rfl⟩, ?_⟩
  dsimp only
  split
  · exact h i r
  · exact ⟨rfl, Int.le_refl _⟩

theorem QuietTable.generationsKept {t t' : Table RlmJob} (h : QuietTable t t') :
    GenerationsKept t t' := by
  obtain ⟨f, hf, hrows⟩ := h
  rintro ⟨i, r⟩ hx
  have hquiet := hf i r hx
  refine ⟨(i, f i r), (hrows i _).mpr ⟨r, hx, rfl⟩, ?_, hquiet.generation_le⟩
  obtain ⟨hp, hl, hs, -⟩ := SlotIdentity.mk.inj hquiet.ident_eq
  simp only [RlmJob.subjectId, hp, hl, hs]

section Enqueue

variable {fault : StorageFault} {scan : ScanOrder RlmJob} {db : RlmDb} {job : NewRlmJob}
  {exclude : List String} {now : Int}

/-- A row of another subject stays, whatever fails. -/
theorem enqueueRlmJobWith_other {x : Int × RlmJob} (hx : x ∈ db.rlmJobs.rows)
    (hne : x.2.subjectId ≠ job.subjectId) :
    x ∈ (enqueueRlmJobWith fault scan db job exclude now).1.rlmJobs.rows := by
  have hcreate : ∀ groupId generation, ∀ f ∈ createStatements job exclude groupId generation now,
      ∀ s s' : RlmDb × Int, x ∈ s.1.rlmJobs.rows → f s = some s' → x ∈ s'.1.rlmJobs.rows := by
    intro groupId generation f hf s s' hs hrun
    obtain hf | hf := List.mem_append.mp hf
    · obtain ⟨vol, -, rfl⟩ := List.mem_map.mp hf
      obtain rfl := Option.some.inj hrun
      exact hs
    · obtain ⟨r, -, rfl⟩ := List.mem_map.mp hf
      unfold insertSlot at hrun
      split at hrun
      · cases hrun
      · obtain rfl := Option.some.inj hrun
        exact Table.mem_insert.mpr (.inl hs)
  have hplan : ∀ f ∈ (planEnqueue scan db job exclude now).writes, ∀ s s' : RlmDb × Int,
      x ∈ s.1.rlmJobs.rows → f s = some s' → x ∈ s'.1.rlmJobs.rows := by
    unfold planEnqueue
    split
    · refine List.forall_mem_cons.mpr ⟨fun s s' hs hrun => ?_, hcreate _ _⟩
      obtain rfl := Option.some.inj hrun
      refine Table.mem_delete.mpr ⟨hs, ?_⟩
      exact Bool.eq_false_iff.mpr (mt isAbout_subject.mp hne)
    · exact hcreate _ _
  by_cases hread : fault = .read
  · rw [hread, enqueueRlmJobWith_read]
    exact hx
  by_cases hidle : slotsOf db.rlmJobs job.subjectId = 0
  · rw [enqueueRlmJobWith_idle hidle hread]
    refine run_inv (I := fun s : RlmDb × Int => x ∈ s.1.rlmJobs.rows) (fun f hf s s' hs hrun => ?_)
      hx
    cases hk : fault.failing with
    | none =>
      rw [hk] at hf
      exact hplan f hf s s' hs hrun
    | some k =>
      rw [hk] at hf
      obtain hf | rfl := List.mem_or_eq_of_mem_set hf
      · exact hplan f hf s s' hs hrun
      · cases hrun
  · rw [enqueueRlmJobWith_live hidle]
    exact hx

theorem enqueueRlmJobWith_kept (h : EnqueueSafe fault scan db job exclude now) :
    GenerationsKept db.rlmJobs (enqueueRlmJobWith fault scan db job exclude now).1.rlmJobs := by
  have hall := allOrNothing_iff.mpr h
  by_cases hsame : (enqueueRlmJobWith fault scan db job exclude now).1 = db
  · rw [hsame]
    exact .refl _
  · have hidle : slotsOf db.rlmJobs job.subjectId = 0 := by
      by_contra hlive
      exact hsame (hall.live hlive)
    obtain ⟨hslots, group, generation, hnew, habove⟩ := hall.created hidle (mt hall.failed hsame)
    intro x hx
    by_cases hsub : x.2.subjectId = job.subjectId
    · obtain ⟨y, hy, hysub, hylive⟩ := exists_of_slotsOf (hslots.trans_ne (by omega))
      refine ⟨y, hy, hysub.trans hsub.symm, ?_⟩
      rw [(hnew y hy hysub hylive).2]
      exact Int.le_of_lt (habove _ ⟨x, hx, hsub, rfl⟩)
    · exact ⟨x, enqueueRlmJobWith_other hx hsub, rfl, Int.le_refl _⟩

end Enqueue

theorem stepQueueCall_kept {db : RlmDb} {c : QueueCall} (h : EnqueueCallSafe db c) :
    GenerationsKept db.rlmJobs (stepQueueCall db c).rlmJobs := by
  obtain ⟨op, fault⟩ := c
  have hother : (∀ scan job exclude now, op ≠ .enqueue scan job exclude now) →
      GenerationsKept db.rlmJobs (step db op).rlmJobs := by
    intro hne
    have hmove := step_move db op
    generalize events db op = new at hmove
    cases hmove with
    | quiet hq => exact hq.generationsKept
    | inserts _ _ => exact (hne _ _ _ _ rfl).elim
    | grants _ _ _ _ _ _ heq =>
      rw [heq]
      exact .of_update fun _ r => ⟨rfl, Int.le_refl _⟩
    | completes _ _ _ _ heq =>
      rw [heq]
      exact .of_update fun _ r => ⟨rfl, Int.le_refl _⟩
  cases op with
  | enqueue scan job exclude now => exact enqueueRlmJobWith_kept h
  | claim => exact hother (by simp)
  | complete => exact hother (by simp)
  | completeWithNode => exact hother (by simp)
  | fail => exact hother (by simp)
  | cancel => exact hother (by simp)
  | requeue => exact hother (by simp)
  | updatePayload => exact hother (by simp)
  | trust => exact hother (by simp)

/-- No generation that a subject has had is above all those its rows have. -/
theorem afterCalls_kept (calls : List QueueCall) (h : SafeCalls calls) :
    ∀ e ∈ (afterCalls calls).1, ∃ x ∈ (afterCalls calls).2.rlmJobs.rows,
      x.2.subjectId = e.1 ∧ e.2 ≤ x.2.generation := by
  refine Lts.recorded_guarded (I := fun es db => ∀ e ∈ es, ∃ x ∈ db.rlmJobs.rows,
    x.2.subjectId = e.1 ∧ e.2 ≤ x.2.generation) nofun ?_ calls h
  intro _ es db c hI hsafe e he
  obtain he | he := List.mem_append.mp he
  · obtain ⟨x, hx, rfl⟩ := List.mem_map.mp he
    exact ⟨x, hx, rfl, Int.le_refl _⟩
  · obtain ⟨x, hx, hsub, hle⟩ := hI e he
    obtain ⟨y, hy, hysub, hyle⟩ := stepQueueCall_kept hsafe x hx
    exact ⟨y, hy, hysub.trans hsub, Int.le_trans hle hyle⟩

/-- A call leaves all or nothing, with a generation above those of the subject's rows, exactly
under the condition; in runs of such calls the generation is above all the subject has had. -/
theorem enqueue_all_or_nothing (fault : StorageFault) (scan : ScanOrder RlmJob) (job : NewRlmJob)
    (exclude : List String) (now : Int) :
    (∀ db, AllOrNothing (generationsOf db.rlmJobs job.subjectId) db job
        (enqueueRlmJobWith fault scan db job exclude now) ↔
      EnqueueSafe fault scan db job exclude now) ∧
    ∀ calls, SafeCalls calls → EnqueueSafe fault scan (afterCalls calls).2 job exclude now →
      AllOrNothing (fun g => (job.subjectId, g) ∈ (afterCalls calls).1) (afterCalls calls).2 job
        (enqueueRlmJobWith fault scan (afterCalls calls).2 job exclude now) := by
  refine ⟨fun _ => allOrNothing_iff, ?_⟩
  intro calls hcalls hsafe
  have hkept := afterCalls_kept calls hcalls
  have hall := allOrNothing_iff.mpr hsafe
  refine ⟨hall.failed, hall.live, fun hidle hok => ?_⟩
  obtain ⟨hslots, group, generation, hnew, habove⟩ := hall.created hidle hok
  refine ⟨hslots, group, generation, hnew, fun g hg => ?_⟩
  obtain ⟨x, hx, hsub, hle⟩ := hkept _ hg
  exact Int.lt_of_le_of_lt hle (habove _ ⟨x, hx, hsub, rfl⟩)

def namedJob (subject : String) (slots : Nat) : NewRlmJob :=
  ⟨none, "p", 1, subject, "{}", PRIORITY_FRESH, slots⟩

/-- `a` is done, and there is a file `a#1`. -/
def doneThenSuffixed : List QueueOp :=
  [.enqueue .rowid (namedJob "a" 1) [] 0, .claim .rowid "alice" 1000 none 3 1,
    .complete 1 "alice" 0 2, .enqueue .rowid (namedJob "a#1" 1) [] 3]

/-- The rows of `a` are deleted, slot 0 is stored and slot 1 is not. -/
theorem enqueue_stops_half_way :
    ¬ ∀ (ops : List QueueOp) (job : NewRlmJob), let db := ops.foldl step RlmDb.empty
      AllOrNothing (generationsOf db.rlmJobs job.subjectId) db job
        (enqueueRlmJobWith .none .rowid db job [] 4) := by
  intro h
  have hfacts : (enqueueRlmJobWith .none .rowid (doneThenSuffixed.foldl step RlmDb.empty)
        (namedJob "a" 3) [] 4).2 = none ∧
      (enqueueRlmJobWith .none .rowid (doneThenSuffixed.foldl step RlmDb.empty)
        (namedJob "a" 3) [] 4).1.rlmJobs.rows.map (fun x => (x.2.jobKey, x.2.status)) ≠
          (doneThenSuffixed.foldl step RlmDb.empty).rlmJobs.rows.map
            fun x => (x.2.jobKey, x.2.status) := by
    decide +kernel
  exact hfacts.2 (by rw [(h doneThenSuffixed (namedJob "a" 3)).failed hfacts.1])

end Arags
