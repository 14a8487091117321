import Arags.Rlm.LeaseSafety

/-!
# Arags.Rlm.JobIdentity

A volunteer answers with a row id and a generation. `rlm_jobs.id` is not `AUTOINCREMENT`, so the
id of a deleted row is given out again when it was the largest.

* `FreshIds`     — an enqueue takes no row id that was handed out for other work at the
  generation it writes or a later one.
* `job_identity` — in runs of such enqueues a row id and a generation name one unit of work.
-/

namespace Arags

open Sql

/-- Row ids from `base + 1` to `base + slots` were handed out before only for the same unit of
work, or at earlier generations. -/
def FreshIds (es : List QueueEvent) (db : RlmDb) (op : QueueOp) : Prop :=
  ∀ x ∈ op.enqueued, ∀ target ∈ enqueueTarget x.1 db.rlmJobs x.2.1 x.2.2, ∀ g ∈ grants es,
    (otherRows db.rlmJobs x.2.1).maxId < g.job.id →
    g.job.id ≤ (otherRows db.rlmJobs x.2.1).maxId + max x.2.1.quorumSlots 1 →
    target.2 ≤ g.job.generation →
    g.ident = ⟨x.2.1.project, x.2.1.level, x.2.1.subject, some target.1⟩

instance (es : List QueueEvent) (db : RlmDb) (op : QueueOp) : Decidable (FreshIds es db op) :=
  inferInstanceAs (Decidable (∀ x ∈ op.enqueued, ∀ target ∈ _, ∀ g ∈ grants es, _ → _ → _ → _))

structure IdentityInv (es : List QueueEvent) (db : RlmDb) : Prop where
  rows : ∀ g ∈ grants es, ∀ r, (g.job.id, r) ∈ db.rlmJobs.rows →
    r.ident = g.ident ∨ g.job.generation < r.generation
  pairs : ∀ g ∈ grants es, ∀ g' ∈ grants es, g.job.id = g'.job.id →
    g.job.generation = g'.job.generation → g.ident = g'.ident

namespace IdentityInv

variable {es : List QueueEvent} {db db' : RlmDb}

theorem empty : IdentityInv [] RlmDb.empty where
  rows := by intro g hg; cases hg
  pairs := by intro g hg; cases hg

theorem quiet (hI : IdentityInv es db) (h : QuietTable db.rlmJobs db'.rlmJobs) :
    IdentityInv es db' := by
  obtain ⟨f, hf, hrows⟩ := h
  refine ⟨?_, hI.pairs⟩
  intro g hg r' hr'
  obtain ⟨r, hr, rfl⟩ := (hrows _ r').mp hr'
  have hq := hf _ r hr
  rcases hI.rows g hg r hr with hid | hlt
  · exact .inl (hq.ident_eq.trans hid)
  · have := hq.generation_le
    exact .inr (by omega)

theorem inserts (hI : IdentityInv es db) {scan : ScanOrder RlmJob} {job : NewRlmJob}
    {exclude : List String} {now group generation : Int} {n : Nat} (ids : List Int)
    (hfresh : FreshIds es db (.enqueue scan job exclude now))
    (h : Inserts db db' scan job exclude now group generation n) :
    IdentityInv (ids.map .inserted ++ es) db' := by
  refine ⟨?_, ?_⟩
  · intro g hg r hr
    rw [grants_inserted] at hg
    rcases (h.rows _ r).mp hr with hr | ⟨k, hk, hid, rfl⟩
    · exact hI.rows g hg r (Inserts.of_other hr).1
    · by_cases hlt : g.job.generation < generation
      · exact .inr hlt
      · have hn := h.count_le
        have := hfresh _ rfl _ h.target g hg (by dsimp only; omega) (by dsimp only; omega)
          (by dsimp only; omega)
        exact .inl this.symm
  · simp only [grants_inserted]
    exact hI.pairs

theorem grants (hI : IdentityInv es db) {g : Grant} {r : RlmJob} {now : Int}
    (hr : (g.job.id, r) ∈ db.rlmJobs.rows) (hid : g.ident = r.ident)
    (hg : g.job.generation = r.generation)
    (h : db'.rlmJobs = markClaimed db.rlmJobs g.job.id g.volunteer now g.leaseExpiresAt) :
    IdentityInv (.granted g :: es) db' := by
  have hnew : ∀ g' ∈ Arags.grants es, g'.job.id = g.job.id →
      g'.job.generation = g.job.generation → g'.ident = g.ident := by
    intro g' hg' hi hgen
    rcases hI.rows g' hg' r (hi ▸ hr) with he | hlt
    · rw [hid, he]
    · omega
  refine ⟨?_, ?_⟩
  · intro g' hg' s' hs'
    rw [h, mem_markClaimed] at hs'
    obtain ⟨s, hs, rfl⟩ := hs'
    have hsame : (if g'.job.id = g.job.id ∧ s.status = .pending then
        s.claim g.volunteer now g.leaseExpiresAt else s).ident = s.ident ∧
        (if g'.job.id = g.job.id ∧ s.status = .pending then
          s.claim g.volunteer now g.leaseExpiresAt else s).generation = s.generation := by
      split <;> exact ⟨rfl, rfl⟩
    rw [hsame.1, hsame.2]
    rcases List.mem_cons.mp hg' with rfl | hg'
    · obtain rfl := Table.eq_of_mem hr hs
      exact .inl hid.symm
    · exact hI.rows g' hg' s hs
  · intro g₁ h₁ g₂ h₂ hi hgen
    rcases List.mem_cons.mp h₁ with e₁ | m₁ <;> rcases List.mem_cons.mp h₂ with e₂ | m₂
    · rw [e₁, e₂]
    · subst e₁; exact (hnew g₂ m₂ hi.symm hgen.symm).symm
    · subst e₂; exact hnew g₁ m₁ hi hgen
    · exact hI.pairs g₁ m₁ g₂ m₂ hi hgen

theorem completes (hI : IdentityInv es db) {c : Completion} {now : Int}
    (h : db'.rlmJobs = markDone db.rlmJobs c.jobId now) :
    IdentityInv (.completed c :: es) db' := by
  refine ⟨?_, hI.pairs⟩
  intro g hg s' hs'
  rw [h, mem_markDone] at hs'
  obtain ⟨s, hs, rfl⟩ := hs'
  have := hI.rows g hg s hs
  split
  · exact this
  · exact this

theorem move (hI : IdentityInv es db) {op : QueueOp} {new : List QueueEvent}
    (hfresh : FreshIds es db op) (h : Move db db' op new) : IdentityInv (new ++ es) db' := by
  cases h with
  | quiet h => exact hI.quiet h
  | inserts h _ => exact hI.inserts _ hfresh h
  | grants hr _ _ hid hg _ h => exact hI.grants hr hid hg h
  | completes _ _ _ _ h => exact hI.completes h

end IdentityInv

/-- Where every enqueue takes fresh row ids, two grants of one row id at one generation are grants
of one unit of work, and an accepted completion finishes the unit of work that its row id and
generation were handed out for. -/
theorem job_identity (ops : List QueueOp)
    (hfresh : Lts.Always (Lts.recorded step events) ([], RlmDb.empty)
      (fun _ s op => FreshIds s.1 s.2 op) ops) :
    (∀ g ∈ grants (queue ops).1, ∀ g' ∈ grants (queue ops).1, g.job.id = g'.job.id →
      g.job.generation = g'.job.generation → g.ident = g'.ident) ∧
    (∀ op c, QueueEvent.completed c ∈ events (queue ops).2 op → ∀ g ∈ grants (queue ops).1,
      g.job.id = c.jobId → g.job.generation = c.generation →
      ∀ r, (c.jobId, r) ∈ (queue ops).2.rlmJobs.rows → r.ident = g.ident) := by
  have hI : IdentityInv (queue ops).1 (queue ops).2 :=
    Lts.recorded_guarded IdentityInv.empty
      (fun _ _ db op hI hg => hI.move hg (step_move db op)) ops hfresh
  refine ⟨hI.pairs, ?_⟩
  intro op c hc g hg hid hgen r hr
  have hm := step_move (queue ops).2 op
  generalize events (queue ops).2 op = new at hc hm
  cases hm with
  | quiet _ => cases hc
  | inserts _ _ => simp at hc
  | grants _ _ _ _ _ _ _ => simp at hc
  | completes hr' hs hv _ _ =>
    simp only [List.mem_singleton, QueueEvent.completed.injEq] at hc
    subst hc
    obtain rfl := Table.eq_of_mem hr hr'
    obtain ⟨-, hg', -⟩ := completionValid_iff.mp hv
    rcases hI.rows g hg r (hid ▸ hr) with he | hlt
    · exact he
    · omega

/-- A failed slot is taken by a second volunteer: one row id, one generation, one unit of work. -/
def retriedSlot : List QueueOp :=
  [ .claim .rowid "w" 500000 none 3 3,
    .fail 1 "v" "timeout" 5 2,
    .claim .rowid "v" 500000 none 3 1,
    .enqueue .rowid ⟨none, "p", 1, "a", "{}", PRIORITY_FRESH, 2⟩ [] 0 ]

theorem job_identity_retried :
    (Grant.mk "v" ⟨1, "L1:p:a#0", "p", 1, "a", "{}", 0, 500000⟩ (some 1) 500001).ident =
      (Grant.mk "w" ⟨1, "L1:p:a#0", "p", 1, "a", "{}", 0, 500000⟩ (some 1) 500003).ident :=
  (job_identity retriedSlot (by decide)).1 _ (by decide) _ (by decide) rfl rfl

/-- A finished subject of two slots is enqueued again with one. Row id 2 is free then, and the
next subject takes it at generation 0, at which it was handed out before. -/
def shrunkReset : List QueueOp :=
  [ .claim .rowid "w" 500000 none 3 8,
    .claim .rowid "v" 500000 none 3 7,
    .enqueue .rowid ⟨none, "p", 1, "b", "{}", PRIORITY_FRESH, 1⟩ [] 6,
    .enqueue .rowid ⟨none, "p", 1, "a", "{}", PRIORITY_FRESH, 1⟩ [] 5,
    .complete 2 "w" 0 4,
    .complete 1 "v" 0 3,
    .claim .rowid "w" 500000 none 3 2,
    .claim .rowid "v" 500000 none 3 1,
    .enqueue .rowid ⟨none, "p", 1, "a", "{}", PRIORITY_FRESH, 2⟩ [] 0 ]

/-- Both parts fail without the guard: `w` holds row 2 at generation 0 for `a` and for `b`, and
its answer for `a` is accepted as `b`. -/
theorem job_identity_shrunk_reset :
    (¬ ∀ ops, ∀ g ∈ grants (queue ops).1, ∀ g' ∈ grants (queue ops).1, g.job.id = g'.job.id →
      g.job.generation = g'.job.generation → g.ident = g'.ident) ∧
    (completeRlmJob (queue shrunkReset).2 2 "w" 0 9).2 = true := by
  refine ⟨fun h => absurd (h shrunkReset) ?_, by decide⟩
  decide

end Arags
