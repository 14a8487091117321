import Arags.Rlm.LeaseSafety

/-!
# Arags.Rlm.Groups

The slot groups of `rlm_jobs`, in every run: a group id belongs to one subject, and no volunteer
has its name on two rows of a group.

* `enqueueTarget_cases` — the group an enqueue writes.
* `GroupShape`          — the invariant; `GroupShape.move` is its step lemma.
-/

namespace Arags

open Sql

theorem lt_nextGenerationGroup {t : Table RlmJob} {i : Int} {r : RlmJob} {g : Int}
    (h : (i, r) ∈ t.rows) (hg : r.generationGroupId = some g) : g < nextGenerationGroup t := by
  have hm : g ∈ t.rows.filterMap fun x => x.2.generationGroupId :=
    List.mem_filterMap.mpr ⟨(i, r), h, hg⟩
  unfold nextGenerationGroup
  cases hmax : (t.rows.filterMap fun x => x.2.generationGroupId).max? with
  | none =>
    rw [List.max?_eq_none_iff] at hmax
    rw [hmax] at hm; cases hm
  | some m =>
    have := (List.max?_eq_some_iff.mp hmax).2 g hm
    simp only [Option.getD_some]
    omega

/-- The group an enqueue writes is a new one, or the one of the slots it resets. -/
theorem enqueueTarget_cases {scan : ScanOrder RlmJob} {t : Table RlmJob} {job : NewRlmJob}
    {exclude : List String} {group generation : Int}
    (h : enqueueTarget scan t job exclude = some (group, generation)) :
    group = nextGenerationGroup t ∨ (exclude = [] ∧ ∃ first,
      (existingSlots scan t job).head? = some first ∧
      group = first.2.generationGroupId.getD first.1 ∧
      generation = first.2.generation + 1) := by
  unfold enqueueTarget at h
  cases he : existingSlots scan t job with
  | nil =>
    simp only [he, Option.some.injEq, Prod.mk.injEq] at h
    exact .inl h.1.symm
  | cons first rest =>
    simp only [he] at h
    split at h
    · cases h
    · simp only [Option.some.injEq, Prod.mk.injEq] at h
      cases exclude with
      | nil => exact .inr ⟨rfl, first, rfl, h.1.symm, h.2.symm⟩
      | cons v vs => exact .inl h.1.symm

structure GroupShape (db : RlmDb) : Prop where
  grouped : ∀ x ∈ db.rlmJobs.rows, ∃ g, x.2.generationGroupId = some g
  subject : ∀ x ∈ db.rlmJobs.rows, ∀ y ∈ db.rlmJobs.rows,
    x.2.generationGroupId = y.2.generationGroupId ↔
      y.2.isAbout x.2.project x.2.level x.2.subject = true
  one : ∀ x ∈ db.rlmJobs.rows, ∀ y ∈ db.rlmJobs.rows,
    x.2.generationGroupId = y.2.generationGroupId →
    ∀ v, x.2.claimedBy = some v → y.2.claimedBy = some v → x.1 = y.1

theorem ident_group {r r' : RlmJob} (h : r'.ident = r.ident) :
    r'.generationGroupId = r.generationGroupId :=
  congrArg SlotIdentity.group h

theorem ident_isAbout {r r' s s' : RlmJob} (hr : r'.ident = r.ident) (hs : s'.ident = s.ident) :
    s'.isAbout r'.project r'.level r'.subject = s.isAbout r.project r.level r.subject := by
  simp only [RlmJob.ident, SlotIdentity.mk.injEq] at hr hs
  simp only [RlmJob.isAbout, hr.1, hr.2.1, hr.2.2.1, hs.1, hs.2.1, hs.2.2.1]

/-- What the rows of `t'` are to the rows of `t` when no identity changes and nobody takes a row. -/
def SameHands (t t' : Table RlmJob) : Prop :=
  ∀ x ∈ t'.rows, ∃ r, (x.1, r) ∈ t.rows ∧ x.2.ident = r.ident ∧
    ∀ v, x.2.claimedBy = some v → r.claimedBy = some v

theorem QuietTable.sameHands {t t' : Table RlmJob} (h : QuietTable t t') : SameHands t t' := by
  obtain ⟨f, hf, hrows⟩ := h
  rintro ⟨i, r'⟩ hx
  obtain ⟨r, hr, rfl⟩ := (hrows i r').mp hx
  exact ⟨r, hr, (hf i r hr).ident_eq, fun v hv => (hf i r hr).claimedBy_sub hv⟩

theorem sameHands_markDone (t : Table RlmJob) (i now : Int) : SameHands t (markDone t i now) := by
  rintro ⟨j, s'⟩ hx
  obtain ⟨s, hs, rfl⟩ := mem_markDone.mp hx
  refine ⟨s, hs, ?_⟩
  dsimp only
  split <;> exact ⟨rfl, fun v hv => hv⟩

namespace GroupShape

variable {db db' : RlmDb}

theorem empty : GroupShape RlmDb.empty where
  grouped := by intro x hx; cases hx
  subject := by intro x hx; cases hx
  one := by intro x hx; cases hx

theorem sameHands (hI : GroupShape db) (h : SameHands db.rlmJobs db'.rlmJobs) :
    GroupShape db' := by
  refine ⟨?_, ?_, ?_⟩
  · intro x hx
    obtain ⟨r, hr, hid, -⟩ := h x hx
    rw [ident_group hid]
    exact hI.grouped _ hr
  · intro x hx y hy
    obtain ⟨r, hr, hid, -⟩ := h x hx
    obtain ⟨s, hs, hid', -⟩ := h y hy
    rw [ident_group hid, ident_group hid', ident_isAbout hid hid']
    exact hI.subject _ hr _ hs
  · intro x hx y hy hg v hv hv'
    obtain ⟨r, hr, hid, hc⟩ := h x hx
    obtain ⟨s, hs, hid', hc'⟩ := h y hy
    rw [ident_group hid, ident_group hid'] at hg
    exact hI.one (x.1, r) hr (y.1, s) hs hg v (hc v hv) (hc' v hv')

section Enqueue

variable {scan : ScanOrder RlmJob} {job : NewRlmJob} {exclude : List String}
  {now group generation : Int} {n : Nat}

theorem first_mem {first : Int × RlmJob}
    (hf : (existingSlots scan db.rlmJobs job).head? = some first) :
    first ∈ db.rlmJobs.rows ∧ first.2.isAbout job.project job.level job.subject = true :=
  (existingSlots_mem _).mp (List.mem_of_head? hf)

/-- The group of the reset rows is the one written. -/
theorem first_group (hI : GroupShape db) {first : Int × RlmJob}
    (hf : (existingSlots scan db.rlmJobs job).head? = some first) :
    first.2.generationGroupId = some (first.2.generationGroupId.getD first.1) := by
  obtain ⟨g, hg⟩ := hI.grouped first (first_mem hf).1
  rw [hg, Option.getD_some]

theorem group_iff_about (hI : GroupShape db) {first x : Int × RlmJob}
    (hf : (existingSlots scan db.rlmJobs job).head? = some first) (hx : x ∈ db.rlmJobs.rows) :
    first.2.generationGroupId = x.2.generationGroupId ↔
      x.2.isAbout job.project job.level job.subject = true := by
  obtain ⟨hm, ha⟩ := first_mem hf
  obtain ⟨hp, hl, hs⟩ := isAbout_iff.mp ha
  rw [hI.subject first hm x hx, hp, hl, hs]

theorem other_group_ne (hI : GroupShape db)
    (h : Inserts db db' scan job exclude now group generation n) :
    ∀ y ∈ (otherRows db.rlmJobs job).rows, y.2.generationGroupId ≠ some group := by
  intro y hy hg
  obtain ⟨hm, ha, -⟩ := Inserts.of_other hy
  rcases enqueueTarget_cases h.target with rfl | ⟨-, first, hf, rfl, -⟩
  · exact absurd (lt_nextGenerationGroup hm hg) (Int.lt_irrefl _)
  · rw [← hI.first_group hf] at hg
    rw [(hI.group_iff_about hf hm).mp hg.symm] at ha
    cases ha

theorem inserts (hI : GroupShape db)
    (h : Inserts db db' scan job exclude now group generation n) : GroupShape db' := by
  have hsep := hI.other_group_ne h
  refine ⟨?_, ?_, ?_⟩
  · intro x hx
    rcases h.row hx with hx | ⟨k, -, he⟩
    · exact hI.grouped x (Inserts.of_other hx).1
    · exact ⟨group, by rw [he]; rfl⟩
  · intro x hx y hy
    rcases h.row hx with hx | ⟨k, hk, he⟩ <;> rcases h.row hy with hy | ⟨k', hk', he'⟩
    · exact hI.subject x (Inserts.of_other hx).1 y (Inserts.of_other hy).1
    · rw [he']
      constructor
      · intro hg; exact absurd hg (hsep x hx)
      · intro ha
        obtain ⟨hp, hl, hs⟩ := isAbout_iff.mp ha
        have hxt : x.2.isAbout job.project job.level job.subject = true :=
          isAbout_iff.mpr ⟨hp.symm, hl.symm, hs.symm⟩
        rw [(Inserts.of_other hx).2.1] at hxt
        cases hxt
    · rw [he]
      constructor
      · intro hg; exact absurd hg.symm (hsep y hy)
      · intro ha
        have hya := (Inserts.of_other hy).2.1
        rw [show y.2.isAbout job.project job.level job.subject = true from ha] at hya
        cases hya
    · rw [he, he']
      simp [slotRow, isAbout_iff]
  · intro x hx y hy hg v hv hv'
    rcases h.row hx with hx | ⟨k, hk, he⟩
    · rcases h.row hy with hy | ⟨k', hk', he'⟩
      · exact hI.one x (Inserts.of_other hx).1 y (Inserts.of_other hy).1 hg v hv hv'
      · rw [he'] at hv'; cases hv'
    · rw [he] at hv; cases hv

end Enqueue

/-- A claim puts a name on a row of a group in which it stood nowhere. -/
theorem grants (hI : GroupShape db) {i : Int} {r : RlmJob} {v : String} {now expires : Int}
    (hr : (i, r) ∈ db.rlmJobs.rows)
    (hfree : groupHolds db.rlmJobs r.generationGroupId v = false)
    (h : db'.rlmJobs = markClaimed db.rlmJobs i v now expires) : GroupShape db' := by
  have hold : ∀ x ∈ db'.rlmJobs.rows, ∃ s, (x.1, s) ∈ db.rlmJobs.rows ∧ x.2.ident = s.ident ∧
      (x.2 = s ∨ (x.1 = i ∧ s = r ∧ x.2.claimedBy = some v)) := by
    rintro ⟨j, s'⟩ hx
    rw [h, mem_markClaimed] at hx
    obtain ⟨s, hs, rfl⟩ := hx
    refine ⟨s, hs, ?_⟩
    dsimp only
    split
    · rename_i hc
      obtain ⟨rfl, -⟩ := hc
      exact ⟨rfl, .inr ⟨rfl, Table.eq_of_mem hs hr, rfl⟩⟩
    · exact ⟨rfl, .inl rfl⟩
  have hfresh : ∀ s ∈ db.rlmJobs.rows, s.2.generationGroupId = r.generationGroupId →
      s.2.claimedBy ≠ some v := by
    intro s hs hg hv
    obtain ⟨gr, hgr⟩ := hI.grouped s hs
    have := List.any_eq_false.mp hfree s hs
    simp [← hg, hgr, hv] at this
  refine ⟨?_, ?_, ?_⟩
  · intro x hx
    obtain ⟨s, hs, hid, -⟩ := hold x hx
    rw [ident_group hid]
    exact hI.grouped _ hs
  · intro x hx y hy
    obtain ⟨s, hs, hid, -⟩ := hold x hx
    obtain ⟨t, ht, hid', -⟩ := hold y hy
    rw [ident_group hid, ident_group hid', ident_isAbout hid hid']
    exact hI.subject _ hs _ ht
  · intro x hx y hy hg w hw hw'
    obtain ⟨s, hs, hid, hcx⟩ := hold x hx
    obtain ⟨t, ht, hid', hcy⟩ := hold y hy
    rw [ident_group hid, ident_group hid'] at hg
    rcases hcx with rfl | ⟨hxi, rfl, hxv⟩ <;> rcases hcy with rfl | ⟨hyi, rfl, hyv⟩
    · exact hI.one x hs y ht hg w hw hw'
    · rw [hyv, Option.some.injEq] at hw'
      subst hw'
      exact absurd hw (hfresh x hs hg)
    · rw [hxv, Option.some.injEq] at hw
      subst hw
      exact absurd hw' (hfresh y ht hg.symm)
    · exact hxi.trans hyi.symm

theorem move (hI : GroupShape db) {op : QueueOp} {new : List QueueEvent}
    (h : Move db db' op new) : GroupShape db' := by
  cases h with
  | quiet h => exact hI.sameHands h.sameHands
  | inserts h _ => exact hI.inserts h
  | grants hr _ hfree _ _ _ h => exact hI.grants hr hfree h
  | completes _ _ _ _ h => exact hI.sameHands (h ▸ sameHands_markDone _ _ _)

end GroupShape

end Arags
