import Arags.Rlm.Groups
import Arags.Rlm.Supply

/-!
# Arags.Rlm.Reassign

`reassign_rlm_on_divergence`: what a new round of slots excludes, and how many rounds there are.

* `reassignStatus`  — what the function logs.
* `InExcludingGroup` — a slot is in a full group that is closed to the divergers.
* `RoundOp`, `roundsOf` — the rounds of a subject in a run of the queue and of reassignments.
* `reassigned_rounds` — a round that is logged excludes the divergers, and the generation of the
  subject counts the rounds together with every other reset.
-/

namespace Arags

open Sql

inductive ReassignStatus where
  | exhausted
  | reassigned (firstId newGeneration : Int)
  | failed (error : String)
  deriving DecidableEq, Repr

def ReassignStatus.isReassigned : ReassignStatus → Bool
  | .reassigned .. => true
  | .exhausted | .failed _ => false

variable (cfg : ServerConfig)

def reassignJob (db : RlmDb) (σ : SubjectId) : NewRlmJob :=
  let last := lastPayload db.rlmJobs σ.project σ.level σ.subject
  { bufferId := last.1
    project := σ.project
    level := σ.level
    subject := σ.subject
    payload := last.2
    priority := PRIORITY_RETRY
    quorumSlots := max cfg.quorum.n 1 }

def reassignStatus (env : DecisionEnv) (db : RlmDb) (σ : SubjectId) (divergers : List String) :
    ReassignStatus :=
  if reassignExhausted cfg db σ.project σ.level σ.subject divergers then .exhausted
  else
    match (enqueueRlmJob env.jobScan db (reassignJob cfg db σ) divergers env.now).2 with
    | .ok (firstId, newGeneration, _) => .reassigned firstId newGeneration
    | .error e => .failed e

theorem reassignRlmOnDivergence_eq (env : DecisionEnv) (db : RlmDb) (σ : SubjectId)
    (divergers : List String) :
    reassignRlmOnDivergence cfg env db σ.project σ.level σ.subject divergers =
      if reassignExhausted cfg db σ.project σ.level σ.subject divergers then db
      else step db (.enqueue env.jobScan (reassignJob cfg db σ) divergers env.now) := rfl

/-! ## The slots of a round -/

/-- The group of the slot has `n` slots, and no diverger may claim one. -/
def InExcludingGroup (db : RlmDb) (n : Nat) (divergers : List String) (r : RlmJob) : Prop :=
  ∃ group ∈ r.generationGroupId,
    db.rlmJobs.count (fun _ s => s.generationGroupId == some group) = n ∧
      ∀ v ∈ divergers, v ≠ "" → (group, v) ∈ db.rlmJobExclusions

instance (db : RlmDb) (n : Nat) (divergers : List String) (r : RlmJob) :
    Decidable (InExcludingGroup db n divergers r) :=
  inferInstanceAs (Decidable (∃ group ∈ r.generationGroupId, _))

theorem mem_insertRlmExclusions {exclusions : List (Int × String)} {group : Int}
    {vols : List String} :
    (∀ e ∈ exclusions, e ∈ insertRlmExclusions exclusions group vols) ∧
      ∀ v ∈ vols, v ≠ "" → (group, v) ∈ insertRlmExclusions exclusions group vols := by
  induction vols generalizing exclusions with
  | nil => exact ⟨fun e he => he, fun v hv => by cases hv⟩
  | cons vol vols ih =>
    rw [insertRlmExclusions]
    split
    · rename_i hskip
      obtain ⟨hkept, hnew⟩ := @ih exclusions
      refine ⟨hkept, fun v hv hne => ?_⟩
      obtain rfl | hv := List.mem_cons.mp hv
      · simp only [Bool.or_eq_true, beq_iff_eq, hne, false_or, List.contains_iff_mem] at hskip
        exact hkept _ hskip
      · exact hnew v hv hne
    · obtain ⟨hkept, hnew⟩ := @ih (exclusions ++ [(group, vol)])
      refine ⟨fun e he => hkept e (List.mem_append_left _ he), fun v hv hne => ?_⟩
      obtain rfl | hv := List.mem_cons.mp hv
      · exact hkept _ (List.mem_append_right _ List.mem_cons_self)
      · exact hnew v hv hne

/-- An insertion that reports a row id has inserted all its rows. -/
theorem insertRlmSlots_ok {t : Table RlmJob} {rs : List RlmJob} {first id : Int}
    (h : (insertRlmSlots t rs first).2 = .ok id) :
    (insertRlmSlots t rs first).1.rows.map Prod.snd = t.rows.map Prod.snd ++ rs := by
  induction rs generalizing t first with
  | nil => rw [insertRlmSlots, List.append_nil]
  | cons r rs ih =>
    rw [insertRlmSlots] at h ⊢
    split at h
    · cases h
    · rename_i hfree
      rw [if_neg hfree, ih h]
      simp [Table.insert]

theorem createSlots_ok {db : RlmDb} {job : NewRlmJob} {exclude : List String}
    {group generation now : Int} {createdNew : Bool} {res : Int × Int × Bool}
    (h : (createSlots db job exclude group generation createdNew now).2 = .ok res) :
    (createSlots db job exclude group generation createdNew now).1.rlmJobs.rows.map Prod.snd =
      db.rlmJobs.rows.map Prod.snd ++ newRows job group generation now := by
  unfold createSlots at h ⊢
  dsimp only at h ⊢
  cases hins : (insertRlmSlots db.rlmJobs ((List.range (max job.quorumSlots 1)).map
      (slotRow job (max job.quorumSlots 1) (rlmJobKey job.project job.level job.subject) group
        generation now)) 0).2 with
  | error e =>
    rw [hins] at h
    cases h
  | ok first => exact insertRlmSlots_ok hins

/-- A group that no row had becomes the group of the new slots alone. -/
theorem createSlots_excludes {db : RlmDb} {job : NewRlmJob} {exclude : List String}
    {group generation now : Int} {createdNew : Bool} {res : Int × Int × Bool}
    (hnone : ∀ x ∈ db.rlmJobs.rows, x.2.subjectId ≠ job.subjectId)
    (hfresh : ∀ x ∈ db.rlmJobs.rows, x.2.generationGroupId ≠ some group)
    (h : (createSlots db job exclude group generation createdNew now).2 = .ok res) :
    let after := (createSlots db job exclude group generation createdNew now).1
    slotsOf after.rlmJobs job.subjectId = max job.quorumSlots 1 ∧
      ∀ x ∈ after.rlmJobs.rows, x.2.subjectId = job.subjectId →
        InExcludingGroup after (max job.quorumSlots 1) exclude x.2 := by
  intro after
  have hrows := createSlots_ok h
  have hcount : ∀ q : RlmJob → Bool, after.rlmJobs.count (fun _ r => q r) =
      (db.rlmJobs.rows.map Prod.snd).countP q + (newRows job group generation now).countP q := by
    intro q
    rw [← List.countP_append, ← hrows, List.countP_map]
    exact List.countP_eq_length_filter.symm
  have hlen : (newRows job group generation now).length = max job.quorumSlots 1 := by
    simp [newRows]
  have hgroup : ∀ r ∈ newRows job group generation now, r.generationGroupId = some group := by
    intro r hr
    obtain ⟨k, -, rfl⟩ := List.mem_map.mp hr
    rfl
  constructor
  · unfold slotsOf
    rw [hcount fun r => r.isAbout _ _ _ && r.live, List.countP_eq_zero.mpr, Nat.zero_add,
      List.countP_eq_length.mpr, hlen]
    · intro r hr
      obtain ⟨hsubject, hlive⟩ := newRows_subject hr
      rw [isAbout_eq, hsubject, hlive]
      simp
    · intro r hr
      obtain ⟨x, hx, rfl⟩ := List.mem_map.mp hr
      rw [isAbout_eq, decide_eq_false (hnone x hx)]
      simp
  · intro x hx hσ
    have hmem : x.2 ∈ db.rlmJobs.rows.map Prod.snd ++ newRows job group generation now := by
      rw [← hrows]
      exact List.mem_map_of_mem hx
    obtain hold | hnew := List.mem_append.mp hmem
    · obtain ⟨y, hy, he⟩ := List.mem_map.mp hold
      rw [← he] at hσ
      exact absurd hσ (hnone y hy)
    · refine ⟨group, hgroup _ hnew, ?_, mem_insertRlmExclusions.2⟩
      rw [hcount fun r => r.generationGroupId == some group, List.countP_eq_zero.mpr,
        Nat.zero_add, List.countP_eq_length.mpr, hlen]
      · intro r hr
        exact beq_iff_eq.mpr (hgroup r hr)
      · intro r hr
        obtain ⟨y, hy, rfl⟩ := List.mem_map.mp hr
        simpa using hfresh y hy

section Reassignment

variable {cfg : ServerConfig} {env : DecisionEnv} {db : RlmDb} {σ : SubjectId}
  {divergers : List String}

/-- A reassignment goes into the queue like any other job. -/
theorem enqueue_of_reassigned (h : (reassignStatus cfg env db σ divergers).isReassigned = true) :
    reassignExhausted cfg db σ.project σ.level σ.subject divergers = false ∧
      reassignRlmOnDivergence cfg env db σ.project σ.level σ.subject divergers =
        (enqueueRlmJob env.jobScan db (reassignJob cfg db σ) divergers env.now).1 ∧
      ∃ res, (enqueueRlmJob env.jobScan db (reassignJob cfg db σ) divergers env.now).2 =
        .ok res := by
  rw [reassignRlmOnDivergence_eq]
  unfold reassignStatus at h
  cases hcap : reassignExhausted cfg db σ.project σ.level σ.subject divergers with
  | true =>
    rw [hcap, if_pos rfl] at h
    cases h
  | false =>
    rw [hcap, if_neg Bool.false_ne_true] at h
    refine ⟨rfl, rfl, ?_⟩
    cases hres : (enqueueRlmJob env.jobScan db (reassignJob cfg db σ) divergers env.now).2 with
    | error e =>
      rw [hres] at h
      cases h
    | ok res => exact ⟨res, rfl⟩

theorem reassigned_excludes (hsome : divergers ≠ [])
    (hidle : slotsOf db.rlmJobs σ = 0)
    (h : (reassignStatus cfg env db σ divergers).isReassigned = true) :
    let after := reassignRlmOnDivergence cfg env db σ.project σ.level σ.subject divergers
    slotsOf after.rlmJobs σ = max cfg.quorum.n 1 ∧
      ∀ x ∈ after.rlmJobs.rows, x.2.subjectId = σ →
        InExcludingGroup after (max cfg.quorum.n 1) divergers x.2 := by
  obtain ⟨-, hafter, res, hres⟩ := enqueue_of_reassigned h
  have hslots : max (reassignJob cfg db σ).quorumSlots 1 = max cfg.quorum.n 1 := by
    show max (max cfg.quorum.n 1) 1 = max cfg.quorum.n 1
    omega
  have hfresh : ∀ x ∈ db.rlmJobs.rows,
      x.2.generationGroupId ≠ some (nextGenerationGroup db.rlmJobs) := fun x hx he =>
    absurd (lt_nextGenerationGroup hx he) (Int.lt_irrefl _)
  rw [hafter, ← hslots]
  obtain ⟨group, generation, new, htarget, hcreate⟩ := @enqueueRlmJob_creates env.jobScan db
    (reassignJob cfg db σ) divergers env.now (existingSlots_live.mpr hidle)
  rcases enqueueTarget_cases htarget with rfl | ⟨hnil, -⟩
  · rw [hcreate] at hres ⊢
    refine createSlots_excludes (fun x hx => otherRows_subject hx) (fun x hx => ?_) hres
    exact hfresh x (mem_otherRows.mp hx).1
  · exact absurd hnil hsome

end Reassignment

/-! ## Rounds in a run -/

inductive RoundOp where
  | queue (op : QueueOp)
  | reassign (env : DecisionEnv) (σ : SubjectId) (divergers : List String)

def stepRound (db : RlmDb) : RoundOp → RlmDb
  | .queue op => step db op
  | .reassign env σ divergers =>
    reassignRlmOnDivergence cfg env db σ.project σ.level σ.subject divergers

/-- A reassignment is about at least one diverger, and reads a generation that an `u32` holds. -/
def RoundFits (db : RlmDb) : RoundOp → Prop
  | .queue _ => True
  | .reassign _ σ divergers =>
    divergers ≠ [] ∧ maxGeneration db.rlmJobs σ.project σ.level σ.subject < 4294967296

instance decidableRoundFits (db : RlmDb) : ∀ op, Decidable (RoundFits db op)
  | .queue _ => inferInstanceAs (Decidable True)
  | .reassign .. => inferInstanceAs (Decidable (_ ∧ _))

/-- The step logs a new round of the subject, and finds no live slot of it. -/
def reassigns (σ : SubjectId) (db : RlmDb) : RoundOp → Bool
  | .queue _ => false
  | .reassign env τ divergers => decide (τ = σ) && slotsOf db.rlmJobs σ == 0 &&
    (reassignStatus cfg env db τ divergers).isReassigned

def hasJobs (t : Table RlmJob) (σ : SubjectId) : Bool := t.rows.any fun x => x.2.subjectId == σ

/-- The rounds of a subject since it last had no row. -/
def roundsOf (σ : SubjectId) : List RoundOp → Nat
  | [] => 0
  | op :: ops =>
    let db := Lts.after (stepRound cfg) RlmDb.empty ops
    if hasJobs (stepRound cfg db op).rlmJobs σ then
      roundsOf σ ops + if reassigns cfg σ db op then 1 else 0
    else 0

section Rounds

variable {cfg : ServerConfig} {db : RlmDb} {σ : SubjectId}

theorem hasJobs_false {t : Table RlmJob} :
    hasJobs t σ = false ↔ ∀ x ∈ t.rows, x.2.subjectId ≠ σ := by
  simp [hasJobs]

/-- The rows that a maximum of generations is taken over. -/
theorem mem_generations {t : Table RlmJob} {g : Int} :
    g ∈ (t.select fun _ r => r.isAbout σ.project σ.level σ.subject).map (fun x => x.2.generation) ↔
      ∃ x ∈ t.rows, x.2.subjectId = σ ∧ x.2.generation = g := by
  simp [Table.select, isAbout_eq, and_assoc]

theorem le_maxGeneration {t : Table RlmJob} {x : Int × RlmJob} (hx : x ∈ t.rows)
    (hσ : x.2.subjectId = σ) :
    x.2.generation ≤ maxGeneration t σ.project σ.level σ.subject := by
  have hm := mem_generations.mpr ⟨x, hx, hσ, rfl⟩
  unfold maxGeneration
  cases hmax : ((t.select fun _ r => r.isAbout σ.project σ.level σ.subject).map
      fun x => x.2.generation).max? with
  | none =>
    rw [List.max?_eq_none_iff] at hmax
    rw [hmax] at hm
    cases hm
  | some m => exact (List.max?_eq_some_iff.mp hmax).2 _ hm

theorem maxGeneration_none {t : Table RlmJob} (h : ∀ x ∈ t.rows, x.2.subjectId ≠ σ) :
    maxGeneration t σ.project σ.level σ.subject = 0 := by
  have hnil : (t.select fun _ r => r.isAbout σ.project σ.level σ.subject).map
      (fun x => x.2.generation) = [] := by
    refine List.eq_nil_iff_forall_not_mem.mpr fun g hg => ?_
    obtain ⟨x, hx, hσ, -⟩ := mem_generations.mp hg
    exact h x hx hσ
  unfold maxGeneration
  rw [hnil]
  rfl

/-- The generation an enqueue writes: one more than that of a row of the subject, or that of a
subject without rows. -/
theorem enqueueTarget_generation {scan : ScanOrder RlmJob} {t : Table RlmJob} {job : NewRlmJob}
    {exclude : List String} {group generation : Int}
    (h : enqueueTarget scan t job exclude = some (group, generation)) :
    (∃ x ∈ t.rows, x.2.subjectId = job.subjectId ∧ generation = x.2.generation + 1) ∨
      (∀ x ∈ t.rows, x.2.subjectId ≠ job.subjectId) ∧
        generation = if exclude.isEmpty then 0 else 1 := by
  unfold enqueueTarget at h
  cases he : existingSlots scan t job with
  | nil =>
    have hnone : ∀ x ∈ t.rows, x.2.subjectId ≠ job.subjectId := by
      have hother := otherRows_of_fresh he
      exact fun x hx => otherRows_subject (hother ▸ hx)
    simp only [he, Option.some.injEq, Prod.mk.injEq] at h
    refine .inr ⟨hnone, ?_⟩
    have hprior : priorGeneration t job = 0 := maxGeneration_none hnone
    rw [← h.2, hprior]
    rfl
  | cons first rest =>
    simp only [he] at h
    split at h
    · cases h
    · obtain ⟨hx, ha⟩ := (existingSlots_mem scan (x := first)).mp (he ▸ List.mem_cons_self)
      simp only [Option.some.injEq, Prod.mk.injEq] at h
      have hσ := isAbout_eq first.2 job.subjectId
      exact .inl ⟨first, hx, of_decide_eq_true (hσ.symm.trans ha), h.2.symm⟩

/-- A row comes from a row of its subject with no higher generation, or its subject had none. -/
theorem step_generation {op : QueueOp} {x : Int × RlmJob}
    (hx : x ∈ (step db op).rlmJobs.rows) (hσ : x.2.subjectId = σ) :
    (∃ y ∈ db.rlmJobs.rows, y.2.subjectId = σ ∧ y.2.generation ≤ x.2.generation) ∨
      (∀ y ∈ db.rlmJobs.rows, y.2.subjectId ≠ σ) ∧ 0 ≤ x.2.generation := by
  have hmove := step_move db op
  generalize events db op = new at hmove
  cases hmove with
  | quiet h =>
    obtain ⟨f, hf, hrows⟩ := h
    obtain ⟨r, hr, he⟩ := (hrows x.1 x.2).mp hx
    have hquiet := hf x.1 r hr
    rw [← he] at hquiet
    have hident := hquiet.ident_eq
    simp only [RlmJob.ident, SlotIdentity.mk.injEq] at hident
    refine .inl ⟨(x.1, r), hr, ?_, hquiet.generation_le⟩
    rw [← hσ, RlmJob.subjectId, RlmJob.subjectId, hident.1, hident.2.1, hident.2.2.1]
  | @inserts _ _ _ _ _ generation _ _ h =>
    obtain hold | ⟨k, -, he⟩ := h.row hx
    · exact .inl ⟨x, (Inserts.of_other hold).1, hσ, Int.le_refl _⟩
    · rw [he] at hσ ⊢
      subst hσ
      obtain ⟨y, hy, hyσ, hgen⟩ | ⟨hnone, hgen⟩ := enqueueTarget_generation h.target
      · refine .inl ⟨y, hy, hyσ, ?_⟩
        show y.2.generation ≤ generation
        omega
      · refine .inr ⟨hnone, ?_⟩
        show 0 ≤ generation
        rw [hgen]
        split <;> decide
  | grants hr hp hfree hid hg hpay h =>
    rw [h] at hx
    obtain ⟨r, hr', he⟩ := mem_markClaimed.mp hx
    refine .inl ⟨(x.1, r), hr', ?_⟩
    rw [he] at hσ ⊢
    split at hσ <;> rename_i hclaimed
    · rw [if_pos hclaimed]
      exact ⟨hσ, Int.le_refl _⟩
    · rw [if_neg hclaimed]
      exact ⟨hσ, Int.le_refl _⟩
  | completes hr hs hv hid h =>
    rw [h] at hx
    obtain ⟨r, hr', he⟩ := mem_markDone.mp hx
    refine .inl ⟨(x.1, r), hr', ?_⟩
    rw [he] at hσ ⊢
    split at hσ <;> rename_i hdone
    · rw [if_pos hdone]
      exact ⟨hσ, Int.le_refl _⟩
    · rw [if_neg hdone]
      exact ⟨hσ, Int.le_refl _⟩

/-- An enqueue that finds no live slot leaves rows of one generation. -/
theorem enqueueRlmJob_generation {scan : ScanOrder RlmJob} {job : NewRlmJob}
    {exclude : List String} {now : Int} (hidle : slotsOf db.rlmJobs job.subjectId = 0)
    {x : Int × RlmJob} (hx : x ∈ (enqueueRlmJob scan db job exclude now).1.rlmJobs.rows)
    (hσ : x.2.subjectId = job.subjectId) :
    (∃ y ∈ db.rlmJobs.rows, y.2.subjectId = job.subjectId ∧
        x.2.generation = y.2.generation + 1) ∨
      (∀ y ∈ db.rlmJobs.rows, y.2.subjectId ≠ job.subjectId) ∧
        x.2.generation = if exclude.isEmpty then 0 else 1 := by
  obtain ⟨hlive, -⟩ | ⟨-, group, generation, n, h⟩ := enqueueRlmJob_cases db scan job exclude now
  · rw [existingSlots_live.mpr hidle] at hlive
    cases hlive
  · obtain hold | ⟨k, -, he⟩ := h.row hx
    · exact absurd hσ (otherRows_subject hold)
    · rw [he]
      exact enqueueTarget_generation h.target

/-- The rounds of a subject are within the limit and within the generation of each of its rows. -/
structure RoundsInv (cfg : ServerConfig) (σ : SubjectId) (ops : List RoundOp) (db : RlmDb) :
    Prop where
  run : db = Lts.after (stepRound cfg) RlmDb.empty ops
  limit : roundsOf cfg σ ops ≤ cfg.quorum.strikesLimit
  generation : ∀ x ∈ db.rlmJobs.rows, x.2.subjectId = σ →
    (roundsOf cfg σ ops : Int) ≤ x.2.generation
  none : hasJobs db.rlmJobs σ = false → roundsOf cfg σ ops = 0

namespace RoundsInv

variable {ops : List RoundOp}

theorem empty : RoundsInv cfg σ [] RlmDb.empty where
  run := rfl
  limit := Nat.zero_le _
  generation := by intro x hx; cases hx
  none := fun _ => rfl

theorem none_of_rows (h : RoundsInv cfg σ ops db)
    (hnone : ∀ x ∈ db.rlmJobs.rows, x.2.subjectId ≠ σ) : roundsOf cfg σ ops = 0 :=
  h.none (hasJobs_false.mpr hnone)

/-- A step after which the subject has no row starts anew. -/
theorem gone (h : RoundsInv cfg σ ops db) {op : RoundOp}
    (hgone : hasJobs (stepRound cfg db op).rlmJobs σ = false) :
    RoundsInv cfg σ (op :: ops) (stepRound cfg db op) := by
  have hzero : roundsOf cfg σ (op :: ops) = 0 := by
    rw [roundsOf, ← h.run, hgone]
    rfl
  refine ⟨by rw [h.run]; rfl, ?_, ?_, fun _ => hzero⟩
  · rw [hzero]
    exact Nat.zero_le _
  · exact fun x hx hσ => absurd hσ (hasJobs_false.mp hgone x hx)

/-- A step that is no round of the subject, and brings no row below the others. -/
theorem other (h : RoundsInv cfg σ ops db) {op : RoundOp}
    (hop : reassigns cfg σ db op = false)
    (hrows : ∀ x ∈ (stepRound cfg db op).rlmJobs.rows, x.2.subjectId = σ →
      (∃ y ∈ db.rlmJobs.rows, y.2.subjectId = σ ∧ y.2.generation ≤ x.2.generation) ∨
        (∀ y ∈ db.rlmJobs.rows, y.2.subjectId ≠ σ) ∧ 0 ≤ x.2.generation) :
    RoundsInv cfg σ (op :: ops) (stepRound cfg db op) := by
  cases hjobs : hasJobs (stepRound cfg db op).rlmJobs σ with
  | false => exact h.gone hjobs
  | true =>
    have hsame : roundsOf cfg σ (op :: ops) = roundsOf cfg σ ops := by
      simp [roundsOf, ← h.run, hjobs, hop]
    refine ⟨by rw [h.run]; rfl, ?_, ?_, fun hnone => absurd hnone (by simp [hjobs])⟩
    · rw [hsame]
      exact h.limit
    · intro x hx hσ
      rw [hsame]
      obtain ⟨y, hy, hyσ, hle⟩ | ⟨hnone, hle⟩ := hrows x hx hσ
      · exact Int.le_trans (h.generation y hy hyσ) hle
      · rw [h.none_of_rows hnone]
        exact hle

/-- A new round: the generation of the subject goes up with it, from below the limit. -/
theorem round (h : RoundsInv cfg σ ops db) {env : DecisionEnv} {divergers : List String}
    (hfits : RoundFits db (.reassign env σ divergers)) (hidle : slotsOf db.rlmJobs σ = 0)
    (hdone : (reassignStatus cfg env db σ divergers).isReassigned = true) :
    RoundsInv cfg σ (.reassign env σ divergers :: ops)
      (stepRound cfg db (.reassign env σ divergers)) := by
  obtain ⟨hsome, hu32⟩ := hfits
  obtain ⟨hcap, hafter, -⟩ := enqueue_of_reassigned hdone
  have hbelow : asU32 (maxGeneration db.rlmJobs σ.project σ.level σ.subject) <
      cfg.quorum.strikesLimit := by
    simp only [reassignExhausted, Bool.or_eq_false_iff, decide_eq_false_iff_not] at hcap
    omega
  have hempty : divergers.isEmpty = false := by
    cases divergers with
    | nil => exact absurd rfl hsome
    | cons v vs => rfl
  have hrounds : roundsOf cfg σ (.reassign env σ divergers :: ops) ≤ roundsOf cfg σ ops + 1 := by
    rw [roundsOf]
    split
    · split <;> omega
    · omega
  cases hjobs : hasJobs (stepRound cfg db (.reassign env σ divergers)).rlmJobs σ with
  | false => exact h.gone hjobs
  | true =>
    refine ⟨by rw [h.run]; rfl, ?_, ?_, fun hnone => absurd hnone (by simp [hjobs])⟩
    · cases hold : hasJobs db.rlmJobs σ with
      | false =>
        have hzero := h.none hold
        omega
      | true =>
        obtain ⟨y, hy, hyσ⟩ := List.any_eq_true.mp hold
        have hgen := h.generation y hy (beq_iff_eq.mp hyσ)
        have hmax := le_maxGeneration hy (beq_iff_eq.mp hyσ)
        unfold asU32 at hbelow
        rw [Int.emod_eq_of_lt (by omega) hu32] at hbelow
        omega
    · intro x hx hσ
      have hx' : x ∈ (enqueueRlmJob env.jobScan db (reassignJob cfg db σ) divergers
          env.now).1.rlmJobs.rows := by
        rw [← hafter]
        exact hx
      obtain ⟨y, hy, hyσ, hgen⟩ | ⟨hnone, hgen⟩ :=
        @enqueueRlmJob_generation _ _ (reassignJob cfg db σ) _ _ hidle x hx' hσ
      · have hle := h.generation y hy hyσ
        omega
      · have hzero := h.none_of_rows hnone
        rw [hempty] at hgen
        simp only [Bool.false_eq_true, if_false] at hgen
        omega

theorem step (h : RoundsInv cfg σ ops db) (op : RoundOp) (hfits : RoundFits db op) :
    RoundsInv cfg σ (op :: ops) (stepRound cfg db op) := by
  cases op with
  | queue op => exact h.other rfl fun x hx hσ => step_generation hx hσ
  | reassign env τ divergers =>
    cases hround : reassigns cfg σ db (.reassign env τ divergers) with
    | true =>
      simp only [reassigns, Bool.and_eq_true, decide_eq_true_eq, beq_iff_eq] at hround
      obtain ⟨⟨rfl, hidle⟩, hdone⟩ := hround
      exact h.round hfits hidle hdone
    | false =>
      refine h.other hround fun x hx hσ => ?_
      rw [stepRound, reassignRlmOnDivergence_eq] at hx
      split at hx
      · exact .inl ⟨x, hx, hσ, Int.le_refl _⟩
      · exact step_generation hx hσ

end RoundsInv

end Rounds

/-- A round that is logged and finds no live slot gives the subject `n` slots that are closed to
the divergers; since the subject last had no row, it has had no more rounds than the limit, nor
than the generation of each of its rows, which every other reset raises too. -/
theorem reassigned_rounds (cfg : ServerConfig) (σ : SubjectId) :
    (∀ (env : DecisionEnv) (db : RlmDb) (divergers : List String), divergers ≠ [] →
      slotsOf db.rlmJobs σ = 0 → (reassignStatus cfg env db σ divergers).isReassigned = true →
      let after := reassignRlmOnDivergence cfg env db σ.project σ.level σ.subject divergers
      slotsOf after.rlmJobs σ = max cfg.quorum.n 1 ∧
        ∀ x ∈ after.rlmJobs.rows, x.2.subjectId = σ →
          InExcludingGroup after (max cfg.quorum.n 1) divergers x.2) ∧
    ∀ ops, Lts.Always (stepRound cfg) RlmDb.empty (fun _ db op => RoundFits db op) ops →
      roundsOf cfg σ ops ≤ cfg.quorum.strikesLimit ∧
        ∀ x ∈ (Lts.after (stepRound cfg) RlmDb.empty ops).rlmJobs.rows, x.2.subjectId = σ →
          (roundsOf cfg σ ops : Int) ≤ x.2.generation := by
  refine ⟨fun env db divergers hsome hidle h => reassigned_excludes hsome hidle h, ?_⟩
  intro ops hrun
  have hinv : RoundsInv cfg σ ops (Lts.after (stepRound cfg) RlmDb.empty ops) :=
    Lts.guarded_inv RoundsInv.empty (fun _ _ op h hfits => h.step op hfits) ops hrun
  exact ⟨hinv.limit, hinv.generation⟩

/-! ## Rounds that the limit does not see -/

def slotsJob (σ : SubjectId) (slots : Nat) : NewRlmJob :=
  ⟨none, σ.project, σ.level, σ.subject, "\x7b\x7d", PRIORITY_FRESH, slots⟩

/-- A file fanned out to two volunteers. -/
def pairFanned : RlmDb := (enqueueRlmJob .rowid RlmDb.empty (slotsJob ⟨"p", 1, "a"⟩ 2) [] 0).1

/-- Its source changes three times, then both volunteers give up. -/
def cancelledOften : List RoundOp :=
  [ .queue (.fail 2 "w" "busy" 0 6),
    .queue (.fail 1 "v" "busy" 0 5),
    .queue (.claim .rowid "w" 500000 none 3 4),
    .queue (.claim .rowid "v" 500000 none 3 3),
    .queue (.cancel "p" [(1, "a"), (1, "a"), (1, "a")] 2),
    .queue (.enqueue .rowid (slotsJob ⟨"p", 1, "a"⟩ 2) [] 1) ]

def oneRound : ServerConfig :=
  { pairConfig with quorum := { pairConfig.quorum with strikesLimit := 1 } }

/-- `y` of `p:x` holds the key of `x:y` of `p`. The latter has its round, and when it is enqueued
again with one slot, its rows are deleted and the new one is not inserted. -/
def lostRows : List RoundOp :=
  [ .queue (.enqueue .rowid (slotsJob ⟨"p", 1, "x:y"⟩ 1) [] 7),
    .queue (.fail 3 "ann" "busy" 0 6),
    .queue (.fail 2 "bob" "busy" 0 5),
    .queue (.claim .rowid "ann" 500000 none 3 4),
    .queue (.claim .rowid "bob" 500000 none 3 3),
    .reassign sampleEnv ⟨"p", 1, "x:y"⟩ ["v", "w"],
    .queue (.enqueue .rowid (slotsJob ⟨"p:x", 1, "y"⟩ 1) [] 1) ]

theorem reassigned_rounds_twice :
    let run := RoundOp.reassign sampleEnv ⟨"p", 1, "a"⟩ ["v", "w"] :: cancelledOften
    roundsOf pairConfig ⟨"p", 1, "a"⟩ run ≤ 3 :=
  ((reassigned_rounds pairConfig ⟨"p", 1, "a"⟩).2 _ (by decide +kernel)).1

/-- A live slot stays where it is, in a group that excludes nobody, and the round is logged; a
name that is empty is not excluded; cancellations use up the limit before the first round; a
subject that loses its rows has its rounds again; and so has one whose generation an `u32` does
not hold. -/
theorem reassigned_rounds_shared :
    reassignStatus pairConfig sampleEnv pairFanned ⟨"p", 1, "a"⟩ ["v", "w"] = .reassigned 1 0 ∧
      (∃ x ∈ (reassignRlmOnDivergence pairConfig sampleEnv pairFanned "p" 1 "a"
          ["v", "w"]).rlmJobs.rows, x.2.subjectId = ⟨"p", 1, "a"⟩ ∧ x.2.live = true ∧
        ¬ InExcludingGroup (reassignRlmOnDivergence pairConfig sampleEnv pairFanned "p" 1 "a"
          ["v", "w"]) 2 ["v", "w"] x.2) ∧
      (reassignRlmOnDivergence pairConfig sampleEnv RlmDb.empty "p" 1 "a"
        ["", "v"]).rlmJobExclusions = [(1, "v")] ∧
      (roundsOf pairConfig ⟨"p", 1, "a"⟩ cancelledOften = 0 ∧
        reassignStatus pairConfig sampleEnv
          (Lts.after (stepRound pairConfig) RlmDb.empty cancelledOften) ⟨"p", 1, "a"⟩
          ["v", "w"] = .exhausted) ∧
      (oneRound.quorum.strikesLimit = 1 ∧
        reassigns oneRound ⟨"p", 1, "x:y"⟩
          (Lts.after (stepRound oneRound) RlmDb.empty (lostRows.drop 6))
          (.reassign sampleEnv ⟨"p", 1, "x:y"⟩ ["v", "w"]) = true ∧
        reassigns oneRound ⟨"p", 1, "x:y"⟩
          (Lts.after (stepRound oneRound) RlmDb.empty lostRows)
          (.reassign sampleEnv ⟨"p", 1, "x:y"⟩ ["v", "w"]) = true) ∧
      reassignExhausted pairConfig { pairFanned with
        rlmJobs := pairFanned.rlmJobs.update (fun _ _ => true) fun _ r =>
          { r with status := .done, generation := 4294967296 } } "p" 1 "a" ["v", "w"] = false := by
  decide +kernel

end Arags
