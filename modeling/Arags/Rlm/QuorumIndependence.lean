import Arags.Rlm.Groups

/-!
# Arags.Rlm.QuorumIndependence

The slots of a group are meant for distinct volunteers. `claimRlmJob` looks at the rows a
volunteer holds or has finished in the group, which a reset deletes; what is left of the past is
the generation the reset writes.

* `holding`, `finished`  — the slots of a group at a generation in a volunteer's hands, and those
  it has completed.
* `ResetPasses`          — a reset writes a generation past every finished slot it deletes, and
  does not lose the largest group id.
* `GroupInv`             — a completed slot is still there, or the whole group is past it.
* `quorum_independence`  — one slot for each volunteer, group and generation.
-/

namespace Arags

open Sql

/-- Slots of the group at the generation that the volunteer holds. -/
def holding (v : String) (group gen : Int) (db : RlmDb) : Nat :=
  db.rlmJobs.count fun _ r => r.status == .claimed && r.claimedBy == some v &&
    r.generationGroupId == some group && r.generation == gen

/-- Slots of the group at the generation that the volunteer has completed. -/
def finished (v : String) (group gen : Int) (es : List QueueEvent) : Nat :=
  (accepted es).countP fun c => c.worker == v && c.group == some group && c.generation == gen

/-- What a reset has to do for the past of its group to stay behind it. -/
def ResetPasses (db : RlmDb) (op : QueueOp) : Prop :=
  ∀ x ∈ op.enqueued, ∀ first ∈ (existingSlots x.1 db.rlmJobs x.2.1).head?,
    (∀ s ∈ existingSlots x.1 db.rlmJobs x.2.1, s.2.live = false) →
    (x.2.2 = [] → ∀ s ∈ existingSlots x.1 db.rlmJobs x.2.1, s.2.status = .done →
      s.2.generation ≤ first.2.generation) ∧
    ((∀ y ∈ (otherRows db.rlmJobs x.2.1).rows, y.2.jobKey ≠
        slotKey (rlmJobKey x.2.1.project x.2.1.level x.2.1.subject) (max x.2.1.quorumSlots 1) 0) ∨
      ∃ y ∈ (otherRows db.rlmJobs x.2.1).rows, ∀ z ∈ db.rlmJobs.rows,
        z.2.generationGroupId.getD 0 ≤ y.2.generationGroupId.getD 0)

instance (db : RlmDb) (op : QueueOp) : Decidable (ResetPasses db op) :=
  inferInstanceAs (Decidable (∀ x ∈ op.enqueued,
    ∀ first ∈ (existingSlots x.1 db.rlmJobs x.2.1).head?, _ → _ ∧ (_ ∨ _)))

/-- Completed slots are still there, or the whole group is past them. -/
structure GroupInv (es : List QueueEvent) (db : RlmDb) : Prop where
  shape : GroupShape db
  below : ∀ c ∈ accepted es, ∃ g, c.group = some g ∧
    ∃ x ∈ db.rlmJobs.rows, ∃ g', x.2.generationGroupId = some g' ∧ g ≤ g'
  past : ∀ c ∈ accepted es,
    (∃ x ∈ db.rlmJobs.rows, x.2.status = .done ∧ x.2.claimedBy = some c.worker ∧
      x.2.generationGroupId = c.group ∧ x.2.generation = c.generation) ∨
    (∀ x ∈ db.rlmJobs.rows, x.2.generationGroupId = c.group → c.generation < x.2.generation)
  once : ∀ v group gen, finished v group gen es ≤ 1

/-- What the rows of `t'` are to the rows of `t` when finished rows stay as they are. -/
structure KeepsDone (t t' : Table RlmJob) : Prop where
  old : ∀ x ∈ t'.rows, ∃ r, (x.1, r) ∈ t.rows ∧ x.2.generationGroupId = r.generationGroupId ∧
    r.generation ≤ x.2.generation
  new : ∀ x ∈ t.rows, ∃ r', (x.1, r') ∈ t'.rows ∧ r'.generationGroupId = x.2.generationGroupId ∧
    (x.2.status = .done → r'.status = .done ∧ r'.claimedBy = x.2.claimedBy ∧
      r'.generation = x.2.generation)

theorem QuietTable.keepsDone {t t' : Table RlmJob} (h : QuietTable t t') : KeepsDone t t' := by
  obtain ⟨f, hf, hrows⟩ := h
  refine ⟨?_, ?_⟩
  · rintro ⟨i, r'⟩ hx
    obtain ⟨r, hr, rfl⟩ := (hrows i r').mp hx
    exact ⟨r, hr, ident_group (hf i r hr).ident_eq, (hf i r hr).generation_le⟩
  · intro x hx
    exact ⟨_, (hrows _ _).mpr ⟨x.2, hx, rfl⟩, ident_group (hf _ _ hx).ident_eq,
      (hf _ _ hx).of_done⟩

theorem keepsDone_markClaimed (t : Table RlmJob) (i : Int) (v : String) (now expires : Int) :
    KeepsDone t (markClaimed t i v now expires) := by
  refine ⟨?_, ?_⟩
  · rintro ⟨j, s'⟩ hx
    obtain ⟨s, hs, rfl⟩ := mem_markClaimed.mp hx
    refine ⟨s, hs, ?_⟩
    dsimp only
    split <;> exact ⟨rfl, Int.le_refl _⟩
  · intro x hx
    refine ⟨_, mem_markClaimed.mpr ⟨x.2, hx, rfl⟩, ?_⟩
    split
    · rename_i hc
      exact ⟨rfl, fun hd => absurd (hc.2.symm.trans hd) (by decide)⟩
    · exact ⟨rfl, fun hd => ⟨hd, rfl, rfl⟩⟩

theorem keepsDone_markDone (t : Table RlmJob) (i now : Int) : KeepsDone t (markDone t i now) := by
  refine ⟨?_, ?_⟩
  · rintro ⟨j, s'⟩ hx
    obtain ⟨s, hs, rfl⟩ := mem_markDone.mp hx
    refine ⟨s, hs, ?_⟩
    dsimp only
    split <;> exact ⟨rfl, Int.le_refl _⟩
  · intro x hx
    refine ⟨_, mem_markDone.mpr ⟨x.2, hx, rfl⟩, ?_⟩
    split
    · exact ⟨rfl, fun _ => ⟨rfl, rfl, rfl⟩⟩
    · exact ⟨rfl, fun hd => ⟨hd, rfl, rfl⟩⟩

namespace GroupInv

variable {es : List QueueEvent} {db db' : RlmDb}

theorem empty : GroupInv [] RlmDb.empty where
  shape := .empty
  below := by intro c hc; cases hc
  past := by intro c hc; cases hc
  once := by intro v group gen; exact Nat.zero_le _

theorem below_kept (hI : GroupInv es db) (h : KeepsDone db.rlmJobs db'.rlmJobs) :
    ∀ c ∈ accepted es, ∃ g, c.group = some g ∧
      ∃ x ∈ db'.rlmJobs.rows, ∃ g', x.2.generationGroupId = some g' ∧ g ≤ g' := by
  intro c hc
  obtain ⟨g, hg, x, hx, g', hg', hle⟩ := hI.below c hc
  obtain ⟨r', hm, hid, -⟩ := h.new x hx
  exact ⟨g, hg, _, hm, g', hid.trans hg', hle⟩

theorem past_kept (hI : GroupInv es db) (h : KeepsDone db.rlmJobs db'.rlmJobs) :
    ∀ c ∈ accepted es,
      (∃ x ∈ db'.rlmJobs.rows, x.2.status = .done ∧ x.2.claimedBy = some c.worker ∧
        x.2.generationGroupId = c.group ∧ x.2.generation = c.generation) ∨
      (∀ x ∈ db'.rlmJobs.rows, x.2.generationGroupId = c.group →
        c.generation < x.2.generation) := by
  intro c hc
  rcases hI.past c hc with ⟨x, hx, hd, hv, hg, hgen⟩ | hlt
  · obtain ⟨r', hm, hid, hdone⟩ := h.new x hx
    obtain ⟨hd', hv', hgen'⟩ := hdone hd
    exact .inl ⟨_, hm, hd', hv'.trans hv, hid.trans hg, hgen'.trans hgen⟩
  · right
    intro x hx hg
    obtain ⟨r, hr, hid, hle⟩ := h.old x hx
    have : c.generation < r.generation := hlt _ hr (hid.symm.trans hg)
    omega

/-! ### Enqueue -/

section Enqueue

variable {scan : ScanOrder RlmJob} {job : NewRlmJob} {exclude : List String}
  {now group generation : Int} {n : Nat}

theorem accepted_lt (hI : GroupInv es db) (hpass : ResetPasses db (.enqueue scan job exclude now))
    (h : Inserts db db' scan job exclude now group generation n) :
    ∀ c ∈ accepted es, c.group = some group → c.generation < generation := by
  intro c hc hg
  rcases enqueueTarget_cases h.target with rfl | ⟨hex, first, hf, rfl, rfl⟩
  · obtain ⟨g, hg', x, hx, g', hxg, hle⟩ := hI.below c hc
    have hlt := lt_nextGenerationGroup hx hxg
    rw [hg, Option.some.injEq] at hg'
    omega
  · rw [← hI.shape.first_group hf] at hg
    rcases hI.past c hc with ⟨x, hx, hd, -, hxg, hxgen⟩ | hlt
    · have hxa := (hI.shape.group_iff_about hf hx).mp (hg.symm.trans hxg.symm)
      have hle : x.2.generation ≤ first.2.generation :=
        (hpass _ rfl first hf h.idle_slots).1 hex x ((existingSlots_mem _).mpr ⟨hx, hxa⟩) hd
      omega
    · have := hlt first (GroupShape.first_mem hf).1 hg.symm
      omega

/-- No group id of the table is lost. -/
theorem group_kept (hI : GroupInv es db) (hpass : ResetPasses db (.enqueue scan job exclude now))
    (h : Inserts db db' scan job exclude now group generation n) :
    ∀ x ∈ db.rlmJobs.rows, ∃ y ∈ db'.rlmJobs.rows,
      x.2.generationGroupId.getD 0 ≤ y.2.generationGroupId.getD 0 := by
  intro x hx
  have hstay : ∀ y ∈ (otherRows db.rlmJobs job).rows, y ∈ db'.rlmJobs.rows := by
    intro y hy
    exact (h.rows y.1 y.2).mpr (.inl hy)
  cases ha : x.2.isAbout job.project job.level job.subject with
  | false => exact ⟨x, hstay x (Table.mem_delete.mpr ⟨hx, ha⟩), Int.le_refl _⟩
  | true =>
    obtain ⟨first, hf⟩ : ∃ first, (existingSlots scan db.rlmJobs job).head? = some first := by
      have hne := (existingSlots_mem scan).mpr ⟨hx, ha⟩
      cases he : existingSlots scan db.rlmJobs job with
      | nil => rw [he] at hne; cases hne
      | cons first rest => exact ⟨first, rfl⟩
    rcases Nat.eq_zero_or_pos n with hn | hn
    · rcases (hpass _ rfl first hf h.idle_slots).2 with hfree | ⟨y, hy, hle⟩
      · obtain ⟨y, hy, hkey⟩ := h.none_taken hn
        exact absurd hkey (hfree y hy)
      · exact ⟨y, hstay y hy, hle x hx⟩
    · refine ⟨_, (h.rows _ _).mpr (.inr ⟨0, hn, rfl, rfl⟩), ?_⟩
      obtain ⟨g, hg⟩ := hI.shape.grouped x hx
      simp only [slotRow, Option.getD_some, hg]
      rcases enqueueTarget_cases h.target with rfl | ⟨-, first', hf', rfl, -⟩
      · exact Int.le_of_lt (lt_nextGenerationGroup hx hg)
      · rw [hf, Option.some.injEq] at hf'
        subst hf'
        have := (hI.shape.group_iff_about hf hx).mpr ha
        exact Int.le_of_eq (by rw [this, hg, Option.getD_some])

theorem inserts (hI : GroupInv es db) (ids : List Int)
    (hpass : ResetPasses db (.enqueue scan job exclude now))
    (h : Inserts db db' scan job exclude now group generation n) :
    GroupInv (ids.map .inserted ++ es) db' := by
  have hshape := hI.shape.inserts h
  refine ⟨hshape, ?_, ?_, ?_⟩
  · intro c hc
    rw [accepted_inserted] at hc
    obtain ⟨g, hg, x, hx, g', hxg, hle⟩ := hI.below c hc
    obtain ⟨y, hy, hley⟩ := hI.group_kept hpass h x hx
    obtain ⟨g'', hyg⟩ := hshape.grouped y hy
    rw [hxg, hyg, Option.getD_some, Option.getD_some] at hley
    exact ⟨g, hg, y, hy, g'', hyg, by omega⟩
  · intro c hc
    rw [accepted_inserted] at hc
    -- a finished slot that was deleted leaves a group whose rows are all past it
    have hgone : (∀ x ∈ (otherRows db.rlmJobs job).rows, x.2.generationGroupId = c.group →
        c.generation < x.2.generation) →
        ∀ x ∈ db'.rlmJobs.rows, x.2.generationGroupId = c.group →
          c.generation < x.2.generation := by
      intro hother x hx hg
      rcases h.row hx with hx | ⟨k, hk, rfl⟩
      · exact hother x hx hg
      · exact hI.accepted_lt hpass h c hc hg.symm
    rcases hI.past c hc with ⟨x, hx, hd, hv, hg, hgen⟩ | hlt
    · cases ha : x.2.isAbout job.project job.level job.subject with
      | false =>
        exact .inl ⟨x, (h.rows _ _).mpr (.inl (Table.mem_delete.mpr ⟨hx, ha⟩)), hd, hv, hg, hgen⟩
      | true =>
        refine .inr (hgone fun y hy hyg => ?_)
        obtain ⟨hym, hya, -⟩ := Inserts.of_other hy
        obtain ⟨hp, hl, hs⟩ := isAbout_iff.mp ha
        have := (hI.shape.subject x hx y hym).mp (hg.trans hyg.symm)
        rw [hp, hl, hs, hya] at this
        cases this
    · exact .inr (hgone fun y hy hyg => hlt y (Inserts.of_other hy).1 hyg)
  · intro v group gen
    simp only [finished, accepted_inserted]
    exact hI.once v group gen

end Enqueue

/-! ### Completion -/

theorem finished_of_mem {v : String} {group gen : Int} (h : 0 < finished v group gen es) :
    ∃ c ∈ accepted es, c.worker = v ∧ c.group = some group ∧ c.generation = gen := by
  obtain ⟨c, hc, hp⟩ := List.countP_pos_iff.mp h
  simp only [Bool.and_eq_true, beq_iff_eq] at hp
  exact ⟨c, hc, hp.1.1, hp.1.2, hp.2⟩

/-- A volunteer with a slot in its hands has finished none of the group at that generation. -/
theorem finished_eq_zero (hI : GroupInv es db) {x : Int × RlmJob} {v : String} {group : Int}
    (hx : x ∈ db.rlmJobs.rows) (hs : x.2.status = .claimed) (hv : x.2.claimedBy = some v)
    (hg : x.2.generationGroupId = some group) : finished v group x.2.generation es = 0 := by
  rcases Nat.eq_zero_or_pos (finished v group x.2.generation es) with h0 | hpos
  · exact h0
  · obtain ⟨c, hc, rfl, hcg, hcgen⟩ := finished_of_mem hpos
    rcases hI.past c hc with ⟨y, hy, hd, hyv, hyg, -⟩ | hlt
    · have hid := hI.shape.one x hx y hy (hg.trans (hyg.trans hcg).symm) _ hv hyv
      have : x.2 = y.2 := Table.eq_of_mem (i := x.1) (r := x.2) hx (hid ▸ hy)
      rw [this, hd] at hs; cases hs
    · have := hlt x hx (hg.trans hcg.symm)
      omega

theorem completes (hI : GroupInv es db) {c : Completion} {r : RlmJob} {now : Int}
    (hr : (c.jobId, r) ∈ db.rlmJobs.rows) (hs : r.status = .claimed)
    (hv : completionValid r c.worker c.generation c.checkedAt = true)
    (hid : c.group = r.generationGroupId)
    (h : db'.rlmJobs = markDone db.rlmJobs c.jobId now) :
    GroupInv (.completed c :: es) db' := by
  obtain ⟨hby, hgen, -⟩ := completionValid_iff.mp hv
  have hkeep : KeepsDone db.rlmJobs db'.rlmJobs := h ▸ keepsDone_markDone _ _ _
  have hdone : (c.jobId, r.finish now) ∈ db'.rlmJobs.rows := by
    rw [h]; exact mem_markDone.mpr ⟨r, hr, by rw [if_pos rfl]⟩
  obtain ⟨gr, hgr⟩ := hI.shape.grouped (c.jobId, r) hr
  refine ⟨hI.shape.sameHands (h ▸ sameHands_markDone _ _ _), ?_, ?_, ?_⟩
  · intro c' hc'
    rw [accepted_completed] at hc'
    rcases List.mem_cons.mp hc' with rfl | hc'
    · exact ⟨gr, hid.trans hgr, _, hdone, gr, hgr, Int.le_refl _⟩
    · exact hI.below_kept hkeep c' hc'
  · intro c' hc'
    rw [accepted_completed] at hc'
    rcases List.mem_cons.mp hc' with rfl | hc'
    · exact .inl ⟨_, hdone, rfl, hby, hid.symm, hgen⟩
    · exact hI.past_kept hkeep c' hc'
  · intro v group gen
    simp only [finished, accepted_completed, List.countP_cons]
    split
    · rename_i hc
      simp only [Bool.and_eq_true, beq_iff_eq] at hc
      obtain ⟨⟨rfl, hcg⟩, rfl⟩ := hc
      have hz := hI.finished_eq_zero (x := (c.jobId, r)) hr hs hby (hid.symm.trans hcg)
      rw [hgen] at hz
      have : finished c.worker group c.generation es = 0 := hz
      simp only [finished] at this
      omega
    · exact hI.once v group gen

theorem move (hI : GroupInv es db) {op : QueueOp} {new : List QueueEvent}
    (hpass : ResetPasses db op) (h : Move db db' op new) : GroupInv (new ++ es) db' := by
  cases h with
  | quiet h =>
    exact ⟨hI.shape.sameHands h.sameHands, hI.below_kept h.keepsDone, hI.past_kept h.keepsDone,
      hI.once⟩
  | inserts h _ => exact hI.inserts _ hpass h
  | grants hr _ hfree _ _ _ h =>
    have hkeep : KeepsDone db.rlmJobs db'.rlmJobs := h ▸ keepsDone_markClaimed _ _ _ _ _
    exact ⟨hI.shape.grants hr hfree h, hI.below_kept hkeep, hI.past_kept hkeep, hI.once⟩
  | completes hr hs hv hid h => exact hI.completes hr hs hv hid h

theorem held_le_one (hI : GroupInv es db) (v : String) (group gen : Int) :
    finished v group gen es + holding v group gen db ≤ 1 := by
  have hone := hI.once v group gen
  have hall : ∀ x ∈ db.rlmJobs.select fun _ r => r.status == .claimed && r.claimedBy == some v &&
      r.generationGroupId == some group && r.generation == gen,
      x ∈ db.rlmJobs.rows ∧ x.2.status = .claimed ∧ x.2.claimedBy = some v ∧
        x.2.generationGroupId = some group ∧ x.2.generation = gen := by
    intro x hx
    have := Table.mem_select.mp hx
    simp only [Bool.and_eq_true, beq_iff_eq] at this
    exact ⟨this.1, this.2.1.1.1, this.2.1.1.2, this.2.1.2, this.2.2⟩
  have hle : holding v group gen db ≤ 1 := by
    refine Table.count_le_one fun x hx y hy => ?_
    obtain ⟨hx, -, hxv, hxg, -⟩ := hall x hx
    obtain ⟨hy, -, hyv, hyg, -⟩ := hall y hy
    exact hI.shape.one x hx y hy (hxg.trans hyg.symm) v hxv hyv
  rcases Nat.eq_zero_or_pos (holding v group gen db) with h0 | hpos
  · omega
  · obtain ⟨x, hx⟩ := List.exists_mem_of_length_pos hpos
    obtain ⟨hm, hs, hv, hg, rfl⟩ := hall x hx
    have := hI.finished_eq_zero hm hs hv hg
    omega

end GroupInv

/-- Where resets pass the generations they delete, a volunteer has at most one slot of a group at
a generation, held or completed; and no claim is granted to a banned or an excluded volunteer. -/
theorem quorum_independence (ops : List QueueOp)
    (hpass : Lts.Always (Lts.recorded step events) ([], RlmDb.empty)
      (fun _ s op => ResetPasses s.2 op) ops) :
    (∀ v group gen, finished v group gen (queue ops).1 + holding v group gen (queue ops).2 ≤ 1) ∧
    (∀ scan v leaseMs maxLevel limit now g,
      QueueEvent.granted g ∈ events (queue ops).2 (.claim scan v leaseMs maxLevel limit now) →
      g.volunteer = v ∧ isBanned (queue ops).2.volunteerTrust v limit = false ∧
        isExcluded (queue ops).2.rlmJobExclusions g.group v = false) := by
  have hI : GroupInv (queue ops).1 (queue ops).2 :=
    Lts.recorded_guarded GroupInv.empty
      (fun _ _ db op hI hg => hI.move hg (step_move db op)) ops hpass
  refine ⟨hI.held_le_one, ?_⟩
  intro scan v leaseMs maxLevel limit now g hg
  rcases claimRlmJob_cases (queue ops).2 scan v leaseMs maxLevel limit now with
    h | ⟨i, r, hr, hc, h⟩
  · simp only [events, h] at hg; cases hg
  · simp only [events, h, List.mem_singleton, QueueEvent.granted.injEq] at hg
    simp only [claimable, Bool.and_eq_true, Bool.not_eq_true', beq_iff_eq] at hc
    obtain ⟨⟨⟨⟨hp, -⟩, -⟩, hban⟩, hex⟩ := hc
    have hm : (i, r.claim v now (saturatingAdd now (max leaseMs 1000))) ∈
        (markClaimed (queue ops).2.rlmJobs i v now (saturatingAdd now (max leaseMs 1000))).rows :=
      mem_markClaimed.mpr ⟨r, hr, by simp [hp]⟩
    subst hg
    exact ⟨rfl, hban, by rw [groupOf_of_mem hm]; exact hex⟩

/-- Two slots, both completed, and the subject enqueued again: the reset goes one generation up. -/
def passedReset : List QueueOp :=
  [ .claim .rowid "w" 500000 none 3 6,
    .enqueue .rowid ⟨none, "p", 1, "a", "{}", PRIORITY_FRESH, 2⟩ [] 5,
    .complete 2 "w" 0 4,
    .complete 1 "v" 0 3,
    .claim .rowid "w" 500000 none 3 2,
    .claim .rowid "v" 500000 none 3 1,
    .enqueue .rowid ⟨none, "p", 1, "a", "{}", PRIORITY_FRESH, 2⟩ [] 0 ]

theorem quorum_independence_passed :
    finished "w" 1 0 (queue passedReset).1 = 1 ∧ holding "w" 1 1 (queue passedReset).2 = 1 ∧
      finished "w" 1 1 (queue passedReset).1 + holding "w" 1 1 (queue passedReset).2 ≤ 1 :=
  ⟨by decide, by decide, (quorum_independence passedReset (by decide)).1 "w" 1 1⟩

/-- `v` completes one slot; the source changes and moves the other slot to generation 1, where `w`
completes it; the reset reads generation 0 from the first slot and writes generation 1 again. -/
def laggingReset : List QueueOp :=
  [ .claim .rowid "w" 500000 none 3 8,
    .enqueue .rowid ⟨none, "p", 1, "a", "{}", PRIORITY_FRESH, 2⟩ [] 7,
    .complete 2 "w" 1 6,
    .claim .rowid "w" 500000 none 3 5,
    .cancel "p" [(1, "a")] 4,
    .complete 1 "v" 0 3,
    .claim .rowid "w" 500000 none 3 2,
    .claim .rowid "v" 500000 none 3 1,
    .enqueue .rowid ⟨none, "p", 1, "a", "{}", PRIORITY_FRESH, 2⟩ [] 0 ]

theorem quorum_independence_lagging :
    ¬ ∀ ops v group gen,
      finished v group gen (queue ops).1 + holding v group gen (queue ops).2 ≤ 1 := by
  intro h
  exact absurd (h laggingReset "w" 1 1) (by decide)

end Arags
