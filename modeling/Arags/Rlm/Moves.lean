import Arags.Rlm.Queue

/-!
# Arags.Rlm.Moves

What a step of the queue does to `rlm_jobs`, said once.

* `Quiet r r'` — fail, cancel, requeue and payload refreshes on one row.
* `Move`       — a step is quiet, inserts the slots of a subject, grants one row or finishes one
  row, and the events it records are those of that case.
* `step_move`  — every operation is one of the four.
-/

namespace Arags

open Sql

/-- What a step that hands nothing out may do to a row. -/
inductive Quiet (r r' : RlmJob) : Prop where
  | kept (hid : r'.ident = r.ident) (hs : r'.status = r.status)
      (hc : r'.claimedBy = r.claimedBy) (hl : r'.leaseExpiresAt = r.leaseExpiresAt)
      (hg : r'.generation = r.generation)
  | released (hid : r'.ident = r.ident) (hs : r.status = .claimed)
      (hs' : r'.status = .pending ∨ r'.status = .failed) (hc : r'.claimedBy = none)
      (hg : r'.generation = r.generation)
  | reset (hid : r'.ident = r.ident) (hs : r.live = true) (hs' : r'.status = .pending)
      (hc : r'.claimedBy = none) (hg : r.generation < r'.generation)

namespace Quiet

variable {r r' r'' : RlmJob}

theorem rfl' : Quiet r r := .kept rfl rfl rfl rfl rfl

theorem ident_eq (h : Quiet r r') : r'.ident = r.ident := by
  cases h <;> assumption

theorem generation_le (h : Quiet r r') : r.generation ≤ r'.generation := by
  cases h <;> omega

/-- A row that is claimed afterwards was not touched. -/
theorem of_claimed (h : Quiet r r') (hs' : r'.status = .claimed) :
    r.status = .claimed ∧ r'.claimedBy = r.claimedBy ∧ r'.leaseExpiresAt = r.leaseExpiresAt ∧
      r'.generation = r.generation := by
  cases h with
  | kept hid hs hc hl hg => exact ⟨hs ▸ hs', hc, hl, hg⟩
  | released _ _ hp _ _ => rcases hp with hp | hp <;> rw [hp] at hs' <;> cases hs'
  | reset _ _ hp _ _ => rw [hp] at hs'; cases hs'

/-- A finished row stays finished. -/
theorem of_done (h : Quiet r r') (hs : r.status = .done) :
    r'.status = .done ∧ r'.claimedBy = r.claimedBy ∧ r'.generation = r.generation := by
  cases h with
  | kept hid hs' hc hl hg => exact ⟨hs' ▸ hs, hc, hg⟩
  | released _ hc _ _ _ => rw [hs] at hc; cases hc
  | reset _ hl _ _ _ => simp [RlmJob.live, hs] at hl

theorem claimedBy_sub (h : Quiet r r') {v : String} (hv : r'.claimedBy = some v) :
    r.claimedBy = some v := by
  cases h with
  | kept _ _ hc _ _ => exact hc ▸ hv
  | released _ _ _ hc _ => rw [hc] at hv; cases hv
  | reset _ _ _ hc _ => rw [hc] at hv; cases hv

theorem live_pending (hs : r.status = .pending) : r.live = true := by simp [RlmJob.live, hs]

theorem live_claimed (hs : r.status = .claimed) : r.live = true := by simp [RlmJob.live, hs]

theorem live_sub (h : Quiet r r') (hl : r'.live = true) : r.live = true := by
  cases h with
  | kept _ hs _ _ _ => simpa [RlmJob.live, hs] using hl
  | released _ hs _ _ _ => exact live_claimed hs
  | reset _ hl₀ _ _ _ => exact hl₀

theorem trans (h : Quiet r r') (h' : Quiet r' r'') : Quiet r r'' := by
  have hid : r''.ident = r.ident := h'.ident_eq.trans h.ident_eq
  have hle := h.generation_le
  cases h' with
  | kept _ hs hc hl hg =>
    cases h with
    | kept _ hs₀ hc₀ hl₀ hg₀ =>
      exact .kept hid (hs.trans hs₀) (hc.trans hc₀) (hl.trans hl₀) (hg.trans hg₀)
    | released _ hs₀ hp hc₀ hg₀ =>
      exact .released hid hs₀ (hs ▸ hp) (hc.trans hc₀) (hg.trans hg₀)
    | reset _ hl₀ hp hc₀ hg₀ => exact .reset hid hl₀ (hs.trans hp) (hc.trans hc₀) (hg ▸ hg₀)
  | released _ hs hp hc hg =>
    have hcl := h.of_claimed hs
    exact .released hid hcl.1 hp hc (hg.trans hcl.2.2.2)
  | reset _ hl hp hc hg => exact .reset hid (h.live_sub hl) hp hc (by omega)

end Quiet

/-- Every row of `t'` is the row of `t` with its id, changed by a quiet step, and none is lost. -/
def QuietTable (t t' : Table RlmJob) : Prop :=
  ∃ f : Int → RlmJob → RlmJob, (∀ i r, (i, r) ∈ t.rows → Quiet r (f i r)) ∧
    ∀ i r', (i, r') ∈ t'.rows ↔ ∃ r, (i, r) ∈ t.rows ∧ r' = f i r

theorem QuietTable.refl (t : Table RlmJob) : QuietTable t t :=
  ⟨fun _ r => r, fun _ _ _ => .rfl', by simp⟩

theorem QuietTable.trans {t t' t'' : Table RlmJob} (h : QuietTable t t')
    (h' : QuietTable t' t'') : QuietTable t t'' := by
  obtain ⟨f, hf, hr⟩ := h
  obtain ⟨f', hf', hr'⟩ := h'
  refine ⟨fun i r => f' i (f i r), ?_, ?_⟩
  · intro i r hm
    exact (hf i r hm).trans (hf' i _ ((hr i _).mpr ⟨r, hm, rfl⟩))
  · intro i r''
    rw [hr']
    constructor
    · rintro ⟨r', hm', rfl⟩
      obtain ⟨r, hm, rfl⟩ := (hr i r').mp hm'
      exact ⟨r, hm, rfl⟩
    · rintro ⟨r, hm, rfl⟩
      exact ⟨f i r, (hr i _).mpr ⟨r, hm, rfl⟩, rfl⟩

theorem QuietTable.of_update {t : Table RlmJob} {p : Int → RlmJob → Bool}
    {f : Int → RlmJob → RlmJob}
    (h : ∀ i r, (i, r) ∈ t.rows → p i r = true → Quiet r (f i r)) :
    QuietTable t (t.update p f) := by
  refine ⟨fun i r => if p i r then f i r else r, ?_, fun i r' => Table.mem_update⟩
  intro i r hm
  dsimp only
  split
  · exact h i r hm ‹_›
  · exact .rfl'

/-! ## The quiet operations -/

theorem failVerdict_status (attempts maxAttempts : Int) :
    (failVerdict attempts maxAttempts).1 = .pending ∨
      (failVerdict attempts maxAttempts).1 = .failed := by
  unfold failVerdict
  split
  · exact .inr rfl
  · exact .inl rfl

section QuietOperations

variable (db : RlmDb)

theorem failRlmJob_quiet (jobId : Int) (worker error : String) (maxAttempts now : Int) :
    QuietTable db.rlmJobs (failRlmJob db jobId worker error maxAttempts now).rlmJobs := by
  refine .of_update ?_
  intro i r _ hp
  simp only [Bool.and_eq_true, beq_iff_eq] at hp
  exact .released rfl hp.2.2 (failVerdict_status _ _) rfl rfl

theorem cancelSubject_quiet (project : String) (subject : Int × String) (now : Int) :
    QuietTable db.rlmJobs (cancelSubject db project subject now).rlmJobs := by
  refine .of_update ?_
  intro i r _ hp
  simp only [Bool.and_eq_true] at hp
  exact .reset rfl hp.2 rfl rfl (Int.lt_succ _)

theorem requeueExpiredRlmLeases_quiet (now : Int) :
    QuietTable db.rlmJobs (requeueExpiredRlmLeases db now).rlmJobs := by
  refine .of_update ?_
  intro i r _ hp
  simp only [RlmJob.leaseExpired, Bool.and_eq_true, beq_iff_eq] at hp
  exact .released rfl hp.1 (.inl rfl) rfl rfl

theorem updateRlmJobPayload_quiet (project : String) (level : Int) (subject payload : String)
    (now : Int) :
    QuietTable db.rlmJobs (updateRlmJobPayload db project level subject payload now).rlmJobs := by
  refine .of_update ?_
  intro i r _ _
  exact .kept rfl rfl rfl rfl rfl

end QuietOperations

theorem cancelRlmJobsForSubjects_quiet (project : String) (subjects : List (Int × String))
    (now : Int) (db : RlmDb) :
    QuietTable db.rlmJobs (cancelRlmJobsForSubjects db project subjects now).rlmJobs ∧
      (cancelRlmJobsForSubjects db project subjects now).rlmNodes = db.rlmNodes := by
  induction subjects generalizing db with
  | nil => exact ⟨.refl _, rfl⟩
  | cons s ss ih =>
    obtain ⟨hq, hn⟩ := ih (cancelSubject db project s now)
    exact ⟨(cancelSubject_quiet db project s now).trans hq, hn⟩

/-! ## The enqueue -/

/-- An enqueue that found no live slot of its subject: the rows of the other subjects stay, and
`n` slots follow them. -/
structure Inserts (db db' : RlmDb) (scan : ScanOrder RlmJob) (job : NewRlmJob)
    (exclude : List String) (now group generation : Int) (n : Nat) : Prop where
  idle : ∀ i r, (i, r) ∈ db.rlmJobs.rows →
    r.isAbout job.project job.level job.subject = true → r.live = false
  target : enqueueTarget scan db.rlmJobs job exclude = some (group, generation)
  count_le : n ≤ max job.quorumSlots 1
  none_taken : n = 0 → ∃ x ∈ (otherRows db.rlmJobs job).rows, x.2.jobKey =
    slotKey (rlmJobKey job.project job.level job.subject) (max job.quorumSlots 1) 0
  rows : ∀ i r, (i, r) ∈ db'.rlmJobs.rows ↔ (i, r) ∈ (otherRows db.rlmJobs job).rows ∨
    ∃ k < n, i = (otherRows db.rlmJobs job).maxId + 1 + k ∧
      r = slotRow job (max job.quorumSlots 1) (rlmJobKey job.project job.level job.subject)
        group generation now k

theorem createSlots_rows (db : RlmDb) (job : NewRlmJob) (exclude : List String)
    (group generation : Int) (createdNew : Bool) (now : Int) :
    ∃ n ≤ max job.quorumSlots 1, (n = 0 → ∃ x ∈ db.rlmJobs.rows, x.2.jobKey =
      slotKey (rlmJobKey job.project job.level job.subject) (max job.quorumSlots 1) 0) ∧ ∀ i r,
      (i, r) ∈ (createSlots db job exclude group generation createdNew now).1.rlmJobs.rows ↔
        (i, r) ∈ db.rlmJobs.rows ∨ ∃ k < n, i = db.rlmJobs.maxId + 1 + k ∧
          r = slotRow job (max job.quorumSlots 1) (rlmJobKey job.project job.level job.subject)
            group generation now k := by
  obtain ⟨n, hn, h0, h⟩ := insertRlmSlots_rows db.rlmJobs
    ((List.range (max job.quorumSlots 1)).map (slotRow job (max job.quorumSlots 1)
      (rlmJobKey job.project job.level job.subject) group generation now)) 0
  rw [List.length_map, List.length_range] at hn
  refine ⟨n, hn, ?_, ?_⟩
  · intro hz
    refine h0 hz (slotRow job (max job.quorumSlots 1)
      (rlmJobKey job.project job.level job.subject) group generation now 0) ?_
    rw [List.head?_map, List.head?_range, if_neg (by omega)]
    rfl
  intro i r
  refine (h i r).trans (or_congr_right (exists_congr fun k => and_congr_right fun hk =>
    and_congr_right fun _ => ?_))
  rw [List.getElem?_map, List.getElem?_range (by omega), Option.map_some, Option.some.injEq,
    eq_comm]

theorem otherRows_of_fresh {scan : ScanOrder RlmJob} {t : Table RlmJob} {job : NewRlmJob}
    (h : existingSlots scan t job = []) : otherRows t job = t := by
  have hn : ∀ x ∈ t.rows, (!x.2.isAbout job.project job.level job.subject) = true := by
    intro x hx
    cases ha : x.2.isAbout job.project job.level job.subject with
    | false => rfl
    | true =>
      have := (existingSlots_mem scan).mpr ⟨hx, ha⟩
      rw [h] at this; cases this
  have : (otherRows t job).rows = t.rows := List.filter_eq_self.mpr hn
  cases t; simp only [otherRows, Table.delete, Table.mk.injEq]; exact this

theorem enqueueRlmJob_nodes (scan : ScanOrder RlmJob) (db : RlmDb) (job : NewRlmJob)
    (exclude : List String) (now : Int) :
    (enqueueRlmJob scan db job exclude now).1.rlmNodes = db.rlmNodes := by
  unfold enqueueRlmJob
  split
  · split <;> rfl
  · rfl

/-- Without a live slot, an enqueue creates its slots beside the rows of the other subjects. -/
theorem enqueueRlmJob_creates {scan : ScanOrder RlmJob} {db : RlmDb} {job : NewRlmJob}
    (exclude : List String) (now : Int)
    (hidle : (existingSlots scan db.rlmJobs job).any (fun x => x.2.live) = false) :
    ∃ group generation new, enqueueTarget scan db.rlmJobs job exclude = some (group, generation) ∧
      enqueueRlmJob scan db job exclude now =
        createSlots { db with rlmJobs := otherRows db.rlmJobs job } job exclude group generation new
          now := by
  cases he : existingSlots scan db.rlmJobs job with
  | nil =>
    refine ⟨nextGenerationGroup db.rlmJobs,
      if exclude.isEmpty then 0 else priorGeneration db.rlmJobs job + 1, true, ?_, ?_⟩
    · simp only [enqueueTarget, he]
    · rw [otherRows_of_fresh he]
      simp only [enqueueRlmJob, he]
  | cons first rest =>
    rw [he] at hidle
    refine ⟨if exclude.isEmpty then first.2.generationGroupId.getD first.1
      else nextGenerationGroup db.rlmJobs, first.2.generation + 1, false, ?_, ?_⟩
    · simp only [enqueueTarget, he, hidle, Bool.false_eq_true, if_false]
    · simp only [enqueueRlmJob, he, hidle, Bool.false_eq_true, if_false]
      rfl

theorem enqueueRlmJob_cases (db : RlmDb) (scan : ScanOrder RlmJob) (job : NewRlmJob)
    (exclude : List String) (now : Int) :
    ((existingSlots scan db.rlmJobs job).any (fun x => x.2.live) = true ∧
      (enqueueRlmJob scan db job exclude now).1 = db) ∨
    ((existingSlots scan db.rlmJobs job).any (fun x => x.2.live) = false ∧
      ∃ group generation n, Inserts db (enqueueRlmJob scan db job exclude now).1 scan job exclude
        now group generation n) := by
  cases hl : (existingSlots scan db.rlmJobs job).any (fun x => x.2.live) with
  | true =>
    refine .inl ⟨rfl, ?_⟩
    cases he : existingSlots scan db.rlmJobs job with
    | nil => simp [he] at hl
    | cons first rest =>
      rw [he] at hl
      simp only [enqueueRlmJob, he, hl, if_true]
  | false =>
    obtain ⟨group, generation, new, htarget, hcreate⟩ := enqueueRlmJob_creates exclude now hl
    obtain ⟨n, hn, h0, hrows⟩ := createSlots_rows
      { db with rlmJobs := otherRows db.rlmJobs job } job exclude group generation new now
    rw [hcreate]
    refine .inr ⟨rfl, group, generation, n, ?_, htarget, hn, h0, hrows⟩
    intro i r hr ha
    simpa using List.any_eq_false.mp hl _ ((existingSlots_mem scan).mpr ⟨hr, ha⟩)

namespace Inserts

variable {db db' : RlmDb} {scan : ScanOrder RlmJob} {job : NewRlmJob} {exclude : List String}
  {now group generation : Int} {n : Nat}

/-- A row of the other subjects is an old row whose id no new row has. -/
theorem of_other {i : Int} {r : RlmJob} (hr : (i, r) ∈ (otherRows db.rlmJobs job).rows) :
    (i, r) ∈ db.rlmJobs.rows ∧ r.isAbout job.project job.level job.subject = false ∧
      ∀ k : Nat, i ≠ (otherRows db.rlmJobs job).maxId + 1 + k := by
  have hle := Table.le_maxId hr
  rw [otherRows, Table.mem_delete] at hr
  exact ⟨hr.1, hr.2, by intro k; simp only [otherRows] at hle ⊢; omega⟩

theorem idle_slots (h : Inserts db db' scan job exclude now group generation n) :
    ∀ s ∈ existingSlots scan db.rlmJobs job, s.2.live = false := by
  intro s hs
  obtain ⟨hm, ha⟩ := (existingSlots_mem _).mp hs
  exact h.idle s.1 s.2 hm ha

theorem row (h : Inserts db db' scan job exclude now group generation n) {x : Int × RlmJob}
    (hx : x ∈ db'.rlmJobs.rows) : x ∈ (otherRows db.rlmJobs job).rows ∨
      ∃ k < n, x = ((otherRows db.rlmJobs job).maxId + 1 + k,
        slotRow job (max job.quorumSlots 1) (rlmJobKey job.project job.level job.subject)
          group generation now k) := by
  rcases (h.rows x.1 x.2).mp hx with hx | ⟨k, hk, hi, he⟩
  · exact .inl hx
  · exact .inr ⟨k, hk, Prod.ext hi he⟩

end Inserts

/-! ## The four kinds of step -/

inductive Move (db db' : RlmDb) : QueueOp → List QueueEvent → Prop where
  | quiet {op : QueueOp} (h : QuietTable db.rlmJobs db'.rlmJobs) : Move db db' op []
  | inserts {scan : ScanOrder RlmJob} {job : NewRlmJob} {exclude : List String}
      {now group generation : Int} {n : Nat} {ids : List Int}
      (h : Inserts db db' scan job exclude now group generation n)
      (hids : ∀ i, i ∈ ids ↔ ∃ k < n, i = (otherRows db.rlmJobs job).maxId + 1 + k) :
      Move db db' (.enqueue scan job exclude now) (ids.map .inserted)
  | grants {op : QueueOp} {g : Grant} {r : RlmJob} {now : Int}
      (hr : (g.job.id, r) ∈ db.rlmJobs.rows) (hp : r.status = .pending)
      (hfree : groupHolds db.rlmJobs r.generationGroupId g.volunteer = false)
      (hid : g.ident = r.ident) (hg : g.job.generation = r.generation)
      (hpay : g.job.payload = r.payload)
      (h : db'.rlmJobs =
        markClaimed db.rlmJobs g.job.id g.volunteer now g.leaseExpiresAt) :
      Move db db' op [.granted g]
  | completes {op : QueueOp} {c : Completion} {r : RlmJob} {now : Int}
      (hr : (c.jobId, r) ∈ db.rlmJobs.rows) (hs : r.status = .claimed)
      (hv : completionValid r c.worker c.generation c.checkedAt = true)
      (hid : c.group = r.generationGroupId)
      (h : db'.rlmJobs = markDone db.rlmJobs c.jobId now) : Move db db' op [.completed c]

theorem groupOf_of_mem {t : Table RlmJob} {i : Int} {r : RlmJob} (h : (i, r) ∈ t.rows) :
    groupOf t i = r.generationGroupId := by
  rw [groupOf, Table.get?_eq_some.mpr h, Option.bind_some]

theorem mem_markClaimed {t : Table RlmJob} {i j : Int} {s' : RlmJob} {v : String}
    {now expires : Int} : (j, s') ∈ (markClaimed t i v now expires).rows ↔
      ∃ s, (j, s) ∈ t.rows ∧
        s' = if j = i ∧ s.status = .pending then s.claim v now expires else s := by
  rw [markClaimed, Table.mem_update]
  simp only [Bool.and_eq_true, beq_iff_eq]

theorem mem_markDone {t : Table RlmJob} {i j : Int} {s' : RlmJob} {now : Int} :
    (j, s') ∈ (markDone t i now).rows ↔
      ∃ s, (j, s) ∈ t.rows ∧ s' = if j = i then s.finish now else s := by
  rw [markDone, Table.mem_update]
  simp only [beq_iff_eq]

theorem insertedIds_mem {db : RlmDb} {scan : ScanOrder RlmJob} {job : NewRlmJob}
    {exclude : List String} {now group generation : Int} {n : Nat}
    (hl : (existingSlots scan db.rlmJobs job).any (fun x => x.2.live) = false)
    (h : Inserts db (enqueueRlmJob scan db job exclude now).1 scan job exclude now group
      generation n) (i : Int) :
    i ∈ insertedIds scan db job exclude now ↔
      ∃ k < n, i = (otherRows db.rlmJobs job).maxId + 1 + k := by
  rw [insertedIds, hl, if_neg Bool.false_ne_true]
  simp only [List.mem_map, Prod.exists, exists_and_right, exists_eq_right, Table.mem_select,
    h.rows]
  constructor
  · rintro ⟨r, hr | ⟨k, hk, rfl, -⟩, ha⟩
    · rw [otherRows, Table.mem_delete] at hr
      rw [hr.2] at ha; cases ha
    · exact ⟨k, hk, rfl⟩
  · rintro ⟨k, hk, rfl⟩
    exact ⟨_, .inr ⟨k, hk, rfl, rfl⟩, by simp [isAbout_iff, slotRow]⟩

theorem step_move (db : RlmDb) (op : QueueOp) : Move db (step db op) op (events db op) := by
  cases op with
  | enqueue scan job exclude now =>
    rcases enqueueRlmJob_cases db scan job exclude now with ⟨hl, hdb⟩ | ⟨hl, g, gen, n, h⟩
    · have : insertedIds scan db job exclude now = [] := by rw [insertedIds, hl, if_pos rfl]
      simp only [events, this, List.map_nil, step, hdb]
      exact .quiet (.refl _)
    · exact .inserts h (insertedIds_mem hl h)
  | claim scan v leaseMs maxLevel limit now =>
    rcases claimRlmJob_cases db scan v leaseMs maxLevel limit now with h | ⟨i, r, hr, hc, h⟩
    · simp only [events, step, h]
      exact .quiet (.refl _)
    · simp only [claimable, Bool.and_eq_true, beq_iff_eq, Bool.not_eq_true'] at hc
      obtain ⟨⟨⟨⟨hp, -⟩, hfree⟩, -⟩, -⟩ := hc
      have hm : (i, r.claim v now (saturatingAdd now (max leaseMs 1000))) ∈
          (markClaimed db.rlmJobs i v now (saturatingAdd now (max leaseMs 1000))).rows :=
        mem_markClaimed.mpr ⟨r, hr, by simp [hp]⟩
      simp only [events, step, h]
      refine .grants hr hp hfree ?_ rfl rfl rfl
      simp only [Grant.ident, RlmJob.ident, groupOf_of_mem hm, RlmJob.claim]
  | complete jobId worker gen now =>
    rcases completeRlmJob_cases db jobId worker gen now with h | ⟨r, hr, hs, hv, h⟩
    · simp only [events, step, h, Bool.false_eq_true, if_false]
      exact .quiet (.refl _)
    · simp only [events, step, h, if_true]
      exact .completes hr hs hv (groupOf_of_mem hr) rfl
  | completeWithNode scan jobId worker gen input nodeId now now' =>
    rcases completeRlmJobWithNode_cases db scan jobId worker gen input nodeId now now' with
      ⟨o, h, ho⟩ | ⟨r, nodes, pair, hr, hs, hv, -, h⟩
    · have he : events db (.completeWithNode scan jobId worker gen input nodeId now now') = [] := by
        cases o with
        | error e => simp only [events, h]
        | ok p =>
          cases p with
          | none => simp only [events, h]
          | some pair => exact absurd rfl (ho pair)
      rw [he]
      simp only [step, h]
      exact .quiet (.refl _)
    · simp only [events, step, h]
      exact .completes hr hs hv (groupOf_of_mem hr) rfl
  | fail jobId worker error maxAttempts now => exact .quiet (failRlmJob_quiet ..)
  | cancel project subjects now => exact .quiet (cancelRlmJobsForSubjects_quiet ..).1
  | requeue now => exact .quiet (requeueExpiredRlmLeases_quiet ..)
  | updatePayload project level subject payload now =>
    exact .quiet (updateRlmJobPayload_quiet ..)
  | trust ledger => exact .quiet (.refl _)

end Arags
