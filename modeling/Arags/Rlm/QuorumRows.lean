import Arags.Rlm.Groups

/-!
# Arags.Rlm.QuorumRows

What the rows of a subject have in common while some of its candidates are open. `opens` are the
grants whose answers were accepted and are not decided yet.

* `SlotInv` — live slots of a subject agree in generation and payload; an open candidate has its
  own finished row, and agrees with the other open candidates and with the live slots.
* `SlotInv.calm`, `.grants`, `.cancelSubject`, `.updatePayload`, `.inserts`, `.opened` — one lemma
  for each way a row changes.
* `LeavesOpen` — the operation does not change the question under an open candidate;
  `SlotInv.step` is the step lemma.
-/

namespace Arags

open Sql

/-- The row is a slot of the subject the grant is about. -/
def RlmJob.answers (r : RlmJob) (g : Grant) : Bool :=
  r.isAbout g.job.project g.job.level g.job.subject

structure SlotInv (es : List QueueEvent) (db : RlmDb) (opens : List Grant) : Prop where
  live : ∀ x ∈ db.rlmJobs.rows, ∀ y ∈ db.rlmJobs.rows, x.2.live = true → y.2.live = true →
    y.2.isAbout x.2.project x.2.level x.2.subject = true →
    y.2.generation = x.2.generation ∧ y.2.payload = x.2.payload
  handed : ∀ x ∈ db.rlmJobs.rows, x.2.status = .claimed → ∀ g, lastGrant x.1 es = some g →
    g.job.payload = x.2.payload ∨ ∀ y ∈ db.rlmJobs.rows, y.2.live = true →
      y.2.isAbout x.2.project x.2.level x.2.subject = true → y.1 = x.1
  done : ∀ g ∈ opens, ∃ r, (g.job.id, r) ∈ db.rlmJobs.rows ∧ r.status = .done ∧
    r.claimedBy = some g.volunteer ∧ r.answers g = true
  distinct : (opens.map fun g => g.job.id).Nodup
  same : ∀ g ∈ opens, ∀ g' ∈ opens, g'.job.project = g.job.project → g'.job.level = g.job.level →
    g'.job.subject = g.job.subject →
    g'.job.generation = g.job.generation ∧ g'.job.payload = g.job.payload
  ahead : ∀ g ∈ opens, ∀ x ∈ db.rlmJobs.rows, x.2.live = true → x.2.answers g = true →
    x.2.generation = g.job.generation ∧ x.2.payload = g.job.payload ∧
      (x.2.status = .claimed → ∀ g', lastGrant x.1 es = some g' → g'.job.payload = g.job.payload)

/-- No row appears, changes its work or goes live, and finished rows stay. -/
structure Calm (t t' : Table RlmJob) : Prop where
  old : ∀ x ∈ t'.rows, ∃ r, (x.1, r) ∈ t.rows ∧ x.2.ident = r.ident ∧
    x.2.generation = r.generation ∧ x.2.payload = r.payload ∧
    (x.2.live = true → r.live = true) ∧ (x.2.status = .claimed → r.status = .claimed)
  done : ∀ x ∈ t.rows, x.2.status = .done →
    ∃ r', (x.1, r') ∈ t'.rows ∧ r'.status = .done ∧ r'.claimedBy = x.2.claimedBy ∧
      r'.ident = x.2.ident

theorem isAbout_of_ident {r r' : RlmJob} (h : r'.ident = r.ident) (p : String) (l : Int)
    (s : String) : r'.isAbout p l s = r.isAbout p l s := by
  simp only [RlmJob.ident, SlotIdentity.mk.injEq] at h
  simp only [RlmJob.isAbout, h.1, h.2.1, h.2.2.1]

theorem Calm.refl (t : Table RlmJob) : Calm t t :=
  ⟨fun x hx => ⟨x.2, hx, rfl, rfl, rfl, id, id⟩, fun x hx hd => ⟨x.2, hx, hd, rfl, rfl⟩⟩

/-- An update that takes claimed rows out of their workers' hands, or finishes them. -/
theorem Calm.of_update {t : Table RlmJob} {p : Int → RlmJob → Bool} {f : Int → RlmJob → RlmJob}
    (hp : ∀ i r, (i, r) ∈ t.rows → p i r = true → r.status = .claimed)
    (hf : ∀ i r, (f i r).ident = r.ident ∧ (f i r).generation = r.generation ∧
      (f i r).payload = r.payload) (hs : ∀ i r, (f i r).status ≠ .claimed) :
    Calm t (t.update p f) := by
  refine ⟨?_, ?_⟩
  · rintro ⟨i, r'⟩ hx
    obtain ⟨r, hr, rfl⟩ := Table.mem_update.mp hx
    refine ⟨r, hr, ?_⟩
    obtain ⟨hid, hg, hpay⟩ := hf i r
    dsimp only
    split
    · rename_i hc
      exact ⟨hid, hg, hpay, fun _ => Quiet.live_claimed (hp i r hr hc),
        fun hc' => absurd hc' (hs i r)⟩
    · exact ⟨rfl, rfl, rfl, id, id⟩
  · rintro ⟨i, r⟩ hr hd
    refine ⟨r, Table.mem_update.mpr ⟨r, hr, ?_⟩, hd, rfl, rfl⟩
    rw [if_neg]
    intro hc
    rw [hp i r hr hc] at hd; cases hd

theorem failRlmJob_calm (db : RlmDb) (jobId : Int) (worker error : String)
    (maxAttempts now : Int) :
    Calm db.rlmJobs (failRlmJob db jobId worker error maxAttempts now).rlmJobs := by
  dsimp only [failRlmJob]
  refine .of_update ?_ ?_ ?_
  · intro i r _ hp
    simp only [Bool.and_eq_true, beq_iff_eq] at hp
    exact hp.2.2
  · intro i r
    exact ⟨rfl, rfl, rfl⟩
  · intro i r hc
    dsimp only at hc
    rcases failVerdict_status _ _ with h | h <;> rw [h] at hc <;> cases hc

theorem requeueExpiredRlmLeases_calm (db : RlmDb) (now : Int) :
    Calm db.rlmJobs (requeueExpiredRlmLeases db now).rlmJobs := by
  dsimp only [requeueExpiredRlmLeases]
  refine .of_update ?_ ?_ ?_
  · intro i r _ hp
    simp only [RlmJob.leaseExpired, Bool.and_eq_true, beq_iff_eq] at hp
    exact hp.1
  · intro i r
    exact ⟨rfl, rfl, rfl⟩
  · intro i r hc
    cases hc

theorem markDone_calm {t : Table RlmJob} {jobId : Int} {r : RlmJob} (now : Int)
    (hr : (jobId, r) ∈ t.rows) (hs : r.status = .claimed) : Calm t (markDone t jobId now) := by
  unfold markDone
  refine .of_update ?_ ?_ ?_
  · intro i r' hr' hp
    rw [beq_iff_eq] at hp
    subst hp
    rw [Table.eq_of_mem hr' hr]
    exact hs
  · intro i r
    exact ⟨rfl, rfl, rfl⟩
  · intro i r hc
    cases hc

namespace SlotInv

variable {es es' : List QueueEvent} {db db' : RlmDb} {opens : List Grant}

theorem empty : SlotInv [] RlmDb.empty [] where
  live := by intro x hx; cases hx
  handed := by intro x hx; cases hx
  done := by intro g hg; cases hg
  distinct := List.nodup_nil
  same := by intro g hg; cases hg
  ahead := by intro g hg; cases hg

theorem calm (hI : SlotInv es db opens) (h : Calm db.rlmJobs db'.rlmJobs)
    (hlast : ∀ i, lastGrant i es' = lastGrant i es) : SlotInv es' db' opens := by
  refine ⟨?_, ?_, ?_, hI.distinct, hI.same, ?_⟩
  · intro x hx y hy hxl hyl ha
    obtain ⟨r, hr, hid, hg, hp, hl, -⟩ := h.old x hx
    obtain ⟨s, hs, hid', hg', hp', hl', -⟩ := h.old y hy
    rw [ident_isAbout hid hid'] at ha
    rw [hg, hg', hp, hp']
    exact hI.live _ hr _ hs (hl hxl) (hl' hyl) ha
  · intro x hx hc g hg
    obtain ⟨r, hr, hid, -, hp, -, hcl⟩ := h.old x hx
    rw [hlast] at hg
    rcases hI.handed _ hr (hcl hc) g hg with hpay | honly
    · exact .inl (hpay.trans hp.symm)
    · right
      intro y hy hyl ha
      obtain ⟨s, hs, hid', -, -, hl', -⟩ := h.old y hy
      rw [ident_isAbout hid hid'] at ha
      exact honly (y.1, s) hs (hl' hyl) ha
  · intro g hg
    obtain ⟨r, hr, hd, hv, ha⟩ := hI.done g hg
    obtain ⟨r', hr', hd', hv', hid⟩ := h.done _ hr hd
    refine ⟨r', hr', hd', hv'.trans hv, ?_⟩
    rw [RlmJob.answers, isAbout_of_ident hid]
    exact ha
  · intro g hg x hx hl ha
    obtain ⟨r, hr, hid, hgen, hp, hl', hcl⟩ := h.old x hx
    rw [RlmJob.answers, isAbout_of_ident hid] at ha
    obtain ⟨h1, h2, h3⟩ := hI.ahead g hg _ hr (hl' hl) ha
    refine ⟨hgen.trans h1, hp.trans h2, ?_⟩
    intro hc g' hg'
    rw [hlast] at hg'
    exact h3 (hcl hc) g' hg'

/-- The grant carries the payload of its row. -/
theorem grants (hI : SlotInv es db opens) {g : Grant} {r : RlmJob} {now : Int}
    (hr : (g.job.id, r) ∈ db.rlmJobs.rows) (hp : r.status = .pending)
    (hpay : g.job.payload = r.payload)
    (h : db'.rlmJobs = markClaimed db.rlmJobs g.job.id g.volunteer now g.leaseExpiresAt) :
    SlotInv (.granted g :: es) db' opens := by
  have hold : ∀ x ∈ db'.rlmJobs.rows, ∃ s, (x.1, s) ∈ db.rlmJobs.rows ∧ x.2.ident = s.ident ∧
      x.2.generation = s.generation ∧ x.2.payload = s.payload ∧
      (x.2.live = true → s.live = true) ∧
      ((x.1 ≠ g.job.id ∧ x.2 = s) ∨ (x.1 = g.job.id ∧ s = r)) := by
    rintro ⟨i, s'⟩ hx
    rw [h, mem_markClaimed] at hx
    obtain ⟨s, hs, rfl⟩ := hx
    refine ⟨s, hs, ?_⟩
    by_cases hi : i = g.job.id
    · subst hi
      obtain rfl := Table.eq_of_mem hr hs
      dsimp only
      rw [if_pos ⟨rfl, hp⟩]
      exact ⟨rfl, rfl, rfl, fun _ => Quiet.live_pending hp, .inr ⟨rfl, rfl⟩⟩
    · dsimp only
      rw [if_neg fun hc => hi hc.1]
      exact ⟨rfl, rfl, rfl, id, .inl ⟨hi, rfl⟩⟩
  have hlast : ∀ i, i ≠ g.job.id → lastGrant i (.granted g :: es) = lastGrant i es := by
    intro i hi
    simp only [lastGrant, if_neg (Ne.symm hi)]
  have hself : lastGrant g.job.id (.granted g :: es) = some g := by
    simp only [lastGrant, if_true]
  refine ⟨?_, ?_, ?_, hI.distinct, hI.same, ?_⟩
  · intro x hx y hy hxl hyl ha
    obtain ⟨s, hs, hid, hg, hp, hl, -⟩ := hold x hx
    obtain ⟨t, ht, hid', hg', hp', hl', -⟩ := hold y hy
    rw [ident_isAbout hid hid'] at ha
    rw [hg, hg', hp, hp']
    exact hI.live _ hs _ ht (hl hxl) (hl' hyl) ha
  · intro x hx hc g' hg'
    obtain ⟨s, hs, hid, -, hpx, -, hcase⟩ := hold x hx
    rcases hcase with ⟨hne, rfl⟩ | ⟨he, rfl⟩
    · rw [hlast _ hne] at hg'
      rcases hI.handed x hs hc g' hg' with hpay' | honly
      · exact .inl hpay'
      · right
        intro y hy hyl ha
        obtain ⟨t, ht, hid', -, -, hl', -⟩ := hold y hy
        rw [ident_isAbout rfl hid'] at ha
        exact honly (y.1, t) ht (hl' hyl) ha
    · rw [he, hself, Option.some.injEq] at hg'
      exact .inl (hg' ▸ hpay.trans hpx.symm)
  · intro g' hg'
    obtain ⟨s, hs, hd, hv, ha⟩ := hI.done g' hg'
    refine ⟨s, ?_, hd, hv, ha⟩
    rw [h, mem_markClaimed]
    refine ⟨s, hs, ?_⟩
    rw [if_neg]
    intro hc
    rw [hc.2] at hd; cases hd
  · intro g' hg' x hx hl ha
    obtain ⟨s, hs, hid, hgen, hpx, hl', hcase⟩ := hold x hx
    rw [RlmJob.answers, isAbout_of_ident hid] at ha
    obtain ⟨h1, h2, h3⟩ := hI.ahead g' hg' _ hs (hl' hl) ha
    refine ⟨hgen.trans h1, hpx.trans h2, ?_⟩
    intro hc g'' hg''
    rcases hcase with ⟨hne, rfl⟩ | ⟨he, rfl⟩
    · rw [hlast _ hne] at hg''
      exact h3 hc g'' hg''
    · rw [he, hself, Option.some.injEq] at hg''
      subst hg''
      exact hpay.trans h2

/-- Two slots of one subject are slots of the same subjects. -/
theorem isAbout_trans {r s : RlmJob} {p : String} {l : Int} {j : String}
    (h : s.isAbout r.project r.level r.subject = true) :
    s.isAbout p l j = r.isAbout p l j := by
  obtain ⟨h1, h2, h3⟩ := isAbout_iff.mp h
  simp only [RlmJob.isAbout, h1, h2, h3]

/-- The reset of a subject without open candidates moves all its live slots to the next
generation together. -/
theorem cancelSubject (hI : SlotInv es db opens) (project : String) (subject : Int × String)
    (now : Int) (hclosed : ∀ g ∈ opens, ¬ (g.job.project = project ∧ g.job.level = subject.1 ∧
      g.job.subject = subject.2)) :
    SlotInv es (cancelSubject db project subject now) opens := by
  have hold : ∀ x ∈ (Arags.cancelSubject db project subject now).rlmJobs.rows, ∃ r,
      (x.1, r) ∈ db.rlmJobs.rows ∧ x.2.ident = r.ident ∧ x.2.payload = r.payload ∧
      (x.2.live = true → r.live = true) ∧
      ((r.isAbout project subject.1 subject.2 = true ∧ x.2.generation = r.generation + 1 ∧
        x.2.status = .pending) ∨
       ((r.isAbout project subject.1 subject.2 && r.live) = false ∧ x.2 = r)) := by
    rintro ⟨i, r'⟩ hx
    obtain ⟨r, hr, rfl⟩ := Table.mem_update.mp hx
    refine ⟨r, hr, ?_⟩
    dsimp only
    split
    · rename_i hc
      rw [Bool.and_eq_true] at hc
      exact ⟨rfl, rfl, fun _ => hc.2, .inl ⟨hc.1, rfl, rfl⟩⟩
    · rename_i hc
      exact ⟨rfl, rfl, id, .inr ⟨Bool.not_eq_true _ ▸ hc, rfl⟩⟩
  refine ⟨?_, ?_, ?_, hI.distinct, hI.same, ?_⟩
  · intro x hx y hy hxl hyl ha
    obtain ⟨r, hr, hid, hp, hl, hc⟩ := hold x hx
    obtain ⟨s, hs, hid', hp', hl', hc'⟩ := hold y hy
    rw [ident_isAbout hid hid'] at ha
    obtain ⟨hgen, hpay⟩ := hI.live _ hr _ hs (hl hxl) (hl' hyl) ha
    have hgen : s.generation = r.generation := hgen
    refine ⟨?_, hp'.trans (hpay.trans hp.symm)⟩
    have hab := isAbout_trans (p := project) (l := subject.1) (j := subject.2) ha
    -- either both slots belong to the subject that is reset, or neither does
    rcases hc with ⟨h1, h2, -⟩ | ⟨h1, h2⟩ <;> rcases hc' with ⟨h1', h2', -⟩ | ⟨h1', h2'⟩
    · omega
    · rw [hab, h1, Bool.true_and, hl' hyl] at h1'; cases h1'
    · rw [← hab, h1', Bool.true_and, hl hxl] at h1; cases h1
    · rw [h2, h2']; exact hgen
  · intro x hx hc g hg
    obtain ⟨r, hr, -, -, -, hcase⟩ := hold x hx
    rcases hcase with ⟨-, -, hpend⟩ | ⟨-, rfl⟩
    · rw [hpend] at hc; cases hc
    · rcases hI.handed x hr hc g hg with hpay | honly
      · exact .inl hpay
      · right
        intro y hy hyl ha
        obtain ⟨s, hs, hid', -, hl', -⟩ := hold y hy
        rw [ident_isAbout rfl hid'] at ha
        exact honly (y.1, s) hs (hl' hyl) ha
  · intro g hg
    obtain ⟨r, hr, hd, hv, ha⟩ := hI.done g hg
    refine ⟨r, Table.mem_update.mpr ⟨r, hr, ?_⟩, hd, hv, ha⟩
    rw [if_neg]
    simp [RlmJob.live, hd]
  · intro g hg x hx hl ha
    obtain ⟨r, hr, hid, -, hl', hcase⟩ := hold x hx
    rcases hcase with ⟨hab, -, -⟩ | ⟨-, rfl⟩
    · rw [RlmJob.answers, isAbout_of_ident hid] at ha
      obtain ⟨h1, h2, h3⟩ := isAbout_iff.mp ha
      obtain ⟨h1', h2', h3'⟩ := isAbout_iff.mp hab
      exact absurd ⟨h1.symm.trans h1', h2.symm.trans h2', h3.symm.trans h3'⟩ (hclosed g hg)
    · exact hI.ahead g hg x hr hl ha

/-- A payload refresh that changes a live row changes the only live slot of a subject without open
candidates. -/
theorem updatePayload (hI : SlotInv es db opens) (project : String) (level : Int)
    (subject payload : String) (now : Int)
    (hlone : ∀ x ∈ db.rlmJobs.rows, x.2.jobKey = rlmJobKey project level subject →
      x.2.live = true → x.2.payload ≠ payload → (∀ g ∈ opens, x.2.answers g = false) ∧
        ∀ y ∈ db.rlmJobs.rows, y.2.live = true →
          y.2.isAbout x.2.project x.2.level x.2.subject = true → y.1 = x.1) :
    SlotInv es (updateRlmJobPayload db project level subject payload now) opens := by
  have hold : ∀ x ∈ (updateRlmJobPayload db project level subject payload now).rlmJobs.rows, ∃ r,
      (x.1, r) ∈ db.rlmJobs.rows ∧ x.2.ident = r.ident ∧ x.2.generation = r.generation ∧
      x.2.live = r.live ∧ x.2.status = r.status ∧
      (x.2.payload = r.payload ∨ ((∀ g ∈ opens, r.answers g = false) ∧
        ∀ y ∈ db.rlmJobs.rows, y.2.live = true →
          y.2.isAbout r.project r.level r.subject = true → y.1 = x.1)) := by
    rintro ⟨i, r'⟩ hx
    obtain ⟨r, hr, rfl⟩ := Table.mem_update.mp hx
    refine ⟨r, hr, ?_⟩
    dsimp only
    split
    · rename_i hc
      rw [Bool.and_eq_true, beq_iff_eq] at hc
      refine ⟨rfl, rfl, rfl, rfl, ?_⟩
      by_cases hpay : r.payload = payload
      · exact .inl hpay.symm
      · exact .inr (hlone (i, r) hr hc.1 hc.2 hpay)
    · exact ⟨rfl, rfl, rfl, rfl, .inl rfl⟩
  refine ⟨?_, ?_, ?_, hI.distinct, hI.same, ?_⟩
  · intro x hx y hy hxl hyl ha
    obtain ⟨r, hr, hid, hg, hl, -, hc⟩ := hold x hx
    obtain ⟨s, hs, hid', hg', hl', -, hc'⟩ := hold y hy
    have hab := ha
    rw [ident_isAbout hid hid'] at hab
    obtain ⟨hgen, hpay⟩ := hI.live _ hr _ hs (hl ▸ hxl) (hl' ▸ hyl) hab
    refine ⟨by rw [hg, hg']; exact hgen, ?_⟩
    rcases hc with hpx | ⟨-, honly⟩
    · rcases hc' with hpy | ⟨-, honly⟩
      · rw [hpx, hpy]; exact hpay
      · have hba : r.isAbout s.project s.level s.subject = true := by
          obtain ⟨h1, h2, h3⟩ := isAbout_iff.mp hab
          exact isAbout_iff.mpr ⟨h1.symm, h2.symm, h3.symm⟩
        have hi : x.1 = y.1 := honly (x.1, r) hr (hl ▸ hxl) hba
        have he : (x.1, y.2) = y := by rw [hi]
        rw [Table.eq_of_mem hx (he ▸ hy)]
    · have hi : y.1 = x.1 := honly (y.1, s) hs (hl' ▸ hyl) hab
      have he : (y.1, x.2) = x := by rw [hi]
      rw [Table.eq_of_mem hy (he ▸ hx)]
  · intro x hx hc g hg
    obtain ⟨r, hr, hid, -, hl, hs, hcase⟩ := hold x hx
    have hstay : (∀ y ∈ db.rlmJobs.rows, y.2.live = true →
        y.2.isAbout r.project r.level r.subject = true → y.1 = x.1) →
        ∀ y ∈ (updateRlmJobPayload db project level subject payload now).rlmJobs.rows,
          y.2.live = true → y.2.isAbout x.2.project x.2.level x.2.subject = true → y.1 = x.1 := by
      intro honly y hy hyl ha
      obtain ⟨s, hs', hid', -, hl', -⟩ := hold y hy
      rw [ident_isAbout hid hid'] at ha
      exact honly (y.1, s) hs' (hl' ▸ hyl) ha
    rcases hcase with hpx | ⟨-, honly⟩
    · rcases hI.handed _ hr (hs ▸ hc) g hg with hpay | honly
      · exact .inl (hpay.trans hpx.symm)
      · exact .inr (hstay honly)
    · exact .inr (hstay honly)
  · intro g hg
    obtain ⟨r, hr, hd, hv, ha⟩ := hI.done g hg
    refine ⟨r, Table.mem_update.mpr ⟨r, hr, ?_⟩, hd, hv, ha⟩
    rw [if_neg]
    simp [RlmJob.live, hd]
  · intro g hg x hx hl ha
    obtain ⟨r, hr, hid, hgen, hl', hs, hcase⟩ := hold x hx
    rw [RlmJob.answers, isAbout_of_ident hid] at ha
    rcases hcase with hpx | ⟨hnone, -⟩
    · obtain ⟨h1, h2, h3⟩ := hI.ahead g hg _ hr (hl' ▸ hl) ha
      exact ⟨hgen.trans h1, hpx.trans h2, fun hc => h3 (hs ▸ hc)⟩
    · have : r.answers g = true := ha
      rw [hnone g hg] at this; cases this

theorem inserts (hI : SlotInv es db opens) {scan : ScanOrder RlmJob} {job : NewRlmJob}
    {exclude : List String} {now group generation : Int} {n : Nat} {ids : List Int}
    (h : Inserts db db' scan job exclude now group generation n)
    (hids : ∀ i, i ∈ ids ↔ ∃ k < n, i = (otherRows db.rlmJobs job).maxId + 1 + k)
    (hclosed : ∀ g ∈ opens, ¬ (g.job.project = job.project ∧ g.job.level = job.level ∧
      g.job.subject = job.subject)) :
    SlotInv (ids.map .inserted ++ es) db' opens := by
  have hlast : ∀ x ∈ (otherRows db.rlmJobs job).rows,
      lastGrant x.1 (ids.map .inserted ++ es) = lastGrant x.1 es := by
    intro x hx
    refine lastGrant_inserted_of_not_mem ?_
    intro hi
    obtain ⟨k, -, he⟩ := (hids x.1).mp hi
    exact (Inserts.of_other hx).2.2 k he
  -- a new slot and a row of another subject are never about one subject
  have hapart : ∀ x ∈ (otherRows db.rlmJobs job).rows, ∀ k,
      (slotRow job (max job.quorumSlots 1) (rlmJobKey job.project job.level job.subject)
        group generation now k).isAbout x.2.project x.2.level x.2.subject = false := by
    intro x hx k
    refine Bool.eq_false_iff.mpr fun ha => ?_
    obtain ⟨h1, h2, h3⟩ := isAbout_iff.mp ha
    have hxa : x.2.isAbout job.project job.level job.subject = true :=
      isAbout_iff.mpr ⟨h1.symm, h2.symm, h3.symm⟩
    rw [(Inserts.of_other hx).2.1] at hxa; cases hxa
  refine ⟨?_, ?_, ?_, hI.distinct, hI.same, ?_⟩
  · intro x hx y hy hxl hyl ha
    rcases h.row hx with hx | ⟨k, hk, rfl⟩ <;> rcases h.row hy with hy | ⟨k', hk', rfl⟩
    · exact hI.live x (Inserts.of_other hx).1 y (Inserts.of_other hy).1 hxl hyl ha
    · rw [hapart x hx k'] at ha; cases ha
    · have hya : y.2.isAbout job.project job.level job.subject = true := ha
      rw [(Inserts.of_other hy).2.1] at hya; cases hya
    · exact ⟨rfl, rfl⟩
  · intro x hx hc g hg
    rcases h.row hx with hx | ⟨k, hk, rfl⟩
    · rw [hlast x hx] at hg
      rcases hI.handed x (Inserts.of_other hx).1 hc g hg with hpay | honly
      · exact .inl hpay
      · right
        intro y hy hyl ha
        rcases h.row hy with hy | ⟨k', hk', rfl⟩
        · exact honly y (Inserts.of_other hy).1 hyl ha
        · rw [hapart x hx k'] at ha; cases ha
    · cases hc
  · intro g hg
    obtain ⟨r, hr, hd, hv, ha⟩ := hI.done g hg
    refine ⟨r, (h.rows _ _).mpr (.inl (Table.mem_delete.mpr ⟨hr, ?_⟩)), hd, hv, ha⟩
    refine Bool.eq_false_iff.mpr fun hj => hclosed g hg ?_
    obtain ⟨h1, h2, h3⟩ := isAbout_iff.mp ha
    obtain ⟨h1', h2', h3'⟩ := isAbout_iff.mp hj
    exact ⟨h1.symm.trans h1', h2.symm.trans h2', h3.symm.trans h3'⟩
  · intro g hg x hx hl ha
    rcases h.row hx with hx | ⟨k, hk, rfl⟩
    · obtain ⟨h1, h2, h3⟩ := hI.ahead g hg x (Inserts.of_other hx).1 hl ha
      refine ⟨h1, h2, ?_⟩
      intro hc g' hg'
      rw [hlast x hx] at hg'
      exact h3 hc g' hg'
    · obtain ⟨h1, h2, h3⟩ := isAbout_iff.mp ha
      exact absurd ⟨h1.symm, h2.symm, h3.symm⟩ (hclosed g hg)

/-- An accepted completion opens one more candidate. -/
theorem opened (hI : SlotInv es db opens) {c : Completion} {r : RlmJob} {g : Grant} {now : Int}
    (hr : (c.jobId, r) ∈ db.rlmJobs.rows) (hs : r.status = .claimed)
    (hlast : lastGrant c.jobId es = some g) (hid : g.job.id = c.jobId) (hident : g.ident = r.ident)
    (hby : r.claimedBy = some g.volunteer) (hgen : r.generation = g.job.generation)
    (h : db'.rlmJobs = markDone db.rlmJobs c.jobId now) :
    SlotInv (.completed c :: es) db' (g :: opens) := by
  have hcalm : SlotInv (.completed c :: es) db' opens :=
    hI.calm (h ▸ markDone_calm now hr hs) fun _ => rfl
  have hrl : r.live = true := Quiet.live_claimed hs
  have hrg : r.answers g = true := by
    simp only [Grant.ident, RlmJob.ident, SlotIdentity.mk.injEq] at hident
    exact isAbout_iff.mpr ⟨hident.1.symm, hident.2.1.symm, hident.2.2.1.symm⟩
  obtain ⟨hp1, hp2, hp3⟩ := isAbout_iff.mp hrg
  -- the open candidates of the subject agree with the row, and so with the new one
  have hagree : ∀ g' ∈ opens, g'.job.project = g.job.project → g'.job.level = g.job.level →
      g'.job.subject = g.job.subject →
      g'.job.generation = g.job.generation ∧ g'.job.payload = g.job.payload := by
    intro g' hg' h1 h2 h3
    obtain ⟨h4, -, h6⟩ := hI.ahead g' hg' (c.jobId, r) hr hrl
      (isAbout_iff.mpr ⟨hp1.trans h1.symm, hp2.trans h2.symm, hp3.trans h3.symm⟩)
    exact ⟨h4.symm.trans hgen, (h6 hs g hlast).symm⟩
  refine ⟨hcalm.live, hcalm.handed, ?_, ?_, ?_, ?_⟩
  · intro g' hg'
    rcases List.mem_cons.mp hg' with rfl | hg'
    · refine ⟨r.finish now, ?_, rfl, hby, hrg⟩
      rw [h, mem_markDone]
      exact ⟨r, hid ▸ hr, by rw [if_pos hid]⟩
    · exact hcalm.done g' hg'
  · rw [List.map_cons, List.nodup_cons]
    refine ⟨?_, hI.distinct⟩
    intro hm
    obtain ⟨g', hg', he⟩ := List.mem_map.mp hm
    obtain ⟨r', hr', hd, -⟩ := hI.done g' hg'
    rw [he, hid] at hr'
    rw [Table.eq_of_mem hr' hr, hs] at hd; cases hd
  · intro g₁ h₁ g₂ h₂ e1 e2 e3
    rcases List.mem_cons.mp h₁ with m₁ | m₁ <;> rcases List.mem_cons.mp h₂ with m₂ | m₂
    · rw [m₁, m₂]; exact ⟨rfl, rfl⟩
    · subst m₁; exact hagree g₂ m₂ e1 e2 e3
    · subst m₂
      obtain ⟨h4, h5⟩ := hagree g₁ m₁ e1.symm e2.symm e3.symm
      exact ⟨h4.symm, h5.symm⟩
    · exact hI.same g₁ m₁ g₂ m₂ e1 e2 e3
  · intro g' hg' x hx hl ha
    rcases List.mem_cons.mp hg' with rfl | hg'
    · rw [h] at hx
      obtain ⟨s, hsm, he⟩ := mem_markDone.mp hx
      have hne : x.1 ≠ c.jobId := by
        intro hi
        rw [he, if_pos hi] at hl; cases hl
      rw [if_neg hne] at he
      rw [he] at hl ha ⊢
      have hab : s.isAbout r.project r.level r.subject = true := by
        rw [hp1, hp2, hp3]; exact ha
      have hba : r.isAbout s.project s.level s.subject = true := by
        obtain ⟨h1, h2, h3⟩ := isAbout_iff.mp hab
        exact isAbout_iff.mpr ⟨h1.symm, h2.symm, h3.symm⟩
      obtain ⟨h4, h5⟩ := hI.live (c.jobId, r) hr (x.1, s) hsm hrl hl hab
      have hpay : g'.job.payload = r.payload := by
        rcases hI.handed (c.jobId, r) hr hs g' hlast with hpay | honly
        · exact hpay
        · exact absurd (honly (x.1, s) hsm hl hab) hne
      refine ⟨h4.trans hgen, h5.trans hpay.symm, ?_⟩
      intro hc g'' hg''
      rcases hI.handed (x.1, s) hsm hc g'' hg'' with hpay' | honly
      · exact hpay'.trans (h5.trans hpay.symm)
      · exact absurd (honly (c.jobId, r) hr hrl hba).symm hne
    · exact hcalm.ahead g' hg' x hx hl ha

/-- A decision closes candidates. -/
theorem closed (hI : SlotInv es db opens) {opens' : List Grant} (h : opens'.Sublist opens) :
    SlotInv es db opens' where
  live := hI.live
  handed := hI.handed
  done := fun g hg => hI.done g (h.subset hg)
  distinct := hI.distinct.sublist (h.map _)
  same := fun g hg g' hg' => hI.same g (h.subset hg) g' (h.subset hg')
  ahead := fun g hg => hI.ahead g (h.subset hg)

theorem perm (hI : SlotInv es db opens) {opens' : List Grant} (h : opens'.Perm opens) :
    SlotInv es db opens' where
  live := hI.live
  handed := hI.handed
  done := fun g hg => hI.done g (h.mem_iff.mp hg)
  distinct := ((h.map _).nodup_iff).mpr hI.distinct
  same := fun g hg g' hg' => hI.same g (h.mem_iff.mp hg) g' (h.mem_iff.mp hg')
  ahead := fun g hg => hI.ahead g (h.mem_iff.mp hg)

/-! ## A step of the queue -/

theorem cancelSubject_of_idle (db : RlmDb) (project : String) (subject : Int × String) (now : Int)
    (h : ∀ x ∈ db.rlmJobs.rows, x.2.isAbout project subject.1 subject.2 = true →
      x.2.live = false) : Arags.cancelSubject db project subject now = db := by
  have hnone : ∀ i r, (i, r) ∈ db.rlmJobs.rows →
      (r.isAbout project subject.1 subject.2 && r.live) = false := by
    intro i r hr
    cases ha : r.isAbout project subject.1 subject.2 with
    | false => rfl
    | true => exact h (i, r) hr ha
  rw [Arags.cancelSubject, Table.update_of_none hnone]

theorem cancel (subjects : List (Int × String)) (project : String) (now : Int) (db : RlmDb)
    (hI : SlotInv es db opens)
    (h : ∀ x ∈ subjects, (∀ g ∈ opens, ¬ (g.job.project = project ∧ g.job.level = x.1 ∧
        g.job.subject = x.2)) ∨
      ∀ y ∈ db.rlmJobs.rows, y.2.isAbout project x.1 x.2 = true → y.2.live = false) :
    SlotInv es (cancelRlmJobsForSubjects db project subjects now) opens := by
  induction subjects generalizing db with
  | nil => exact hI
  | cons x xs ih =>
    have hx : SlotInv es (Arags.cancelSubject db project x now) opens := by
      rcases h x List.mem_cons_self with hclosed | hidle
      · exact hI.cancelSubject project x now hclosed
      · rw [cancelSubject_of_idle db project x now hidle]
        exact hI
    refine ih _ hx fun y hy => ?_
    rcases h y (List.mem_cons_of_mem x hy) with hclosed | hidle
    · exact .inl hclosed
    · right
      -- the reset of `x` makes no row live
      intro z hz ha
      obtain ⟨f, hf, hrows⟩ := cancelSubject_quiet db project x now
      obtain ⟨r, hr, he⟩ := (hrows z.1 z.2).mp hz
      have hq := hf z.1 r hr
      rw [← he] at hq
      rw [isAbout_of_ident hq.ident_eq] at ha
      refine Bool.eq_false_iff.mpr fun hl => ?_
      have := hidle (z.1, r) hr ha
      rw [hq.live_sub hl] at this; cases this

end SlotInv

/-- The operation leaves the rows alone that an open candidate shares its question with: no reset
of live slots and no new slots of its subject, and a changed payload only where one live slot is
all there is. -/
def LeavesOpen (db : RlmDb) (opens : List Grant) : QueueOp → Prop
  | .enqueue _ job _ _ =>
    (∀ x ∈ db.rlmJobs.rows, x.2.isAbout job.project job.level job.subject = true →
      x.2.live = false) →
    ∀ g ∈ opens, ¬ (g.job.project = job.project ∧ g.job.level = job.level ∧
      g.job.subject = job.subject)
  | .cancel project subjects _ => ∀ x ∈ subjects,
    (∀ g ∈ opens, ¬ (g.job.project = project ∧ g.job.level = x.1 ∧ g.job.subject = x.2)) ∨
    ∀ y ∈ db.rlmJobs.rows, y.2.isAbout project x.1 x.2 = true → y.2.live = false
  | .updatePayload project level subject payload _ =>
    ∀ x ∈ db.rlmJobs.rows, x.2.jobKey = rlmJobKey project level subject → x.2.live = true →
      x.2.payload ≠ payload → (∀ g ∈ opens, x.2.answers g = false) ∧
        ∀ y ∈ db.rlmJobs.rows, y.2.live = true →
          y.2.isAbout x.2.project x.2.level x.2.subject = true → y.1 = x.1
  | .claim .. | .complete .. | .completeWithNode .. | .fail .. | .requeue .. | .trust .. => True

instance decidableLeavesOpen (db : RlmDb) (opens : List Grant) :
    ∀ op, Decidable (LeavesOpen db opens op)
  | .enqueue _ job _ _ => inferInstanceAs (Decidable (
      (∀ x ∈ db.rlmJobs.rows, x.2.isAbout job.project job.level job.subject = true →
        x.2.live = false) →
      ∀ g ∈ opens, ¬ (g.job.project = job.project ∧ g.job.level = job.level ∧
        g.job.subject = job.subject)))
  | .cancel project subjects _ => inferInstanceAs (Decidable (∀ x ∈ subjects,
      (∀ g ∈ opens, ¬ (g.job.project = project ∧ g.job.level = x.1 ∧ g.job.subject = x.2)) ∨
      ∀ y ∈ db.rlmJobs.rows, y.2.isAbout project x.1 x.2 = true → y.2.live = false))
  | .updatePayload project level subject payload _ => inferInstanceAs (Decidable (
      ∀ x ∈ db.rlmJobs.rows, x.2.jobKey = rlmJobKey project level subject → x.2.live = true →
        x.2.payload ≠ payload → (∀ g ∈ opens, x.2.answers g = false) ∧
          ∀ y ∈ db.rlmJobs.rows, y.2.live = true →
            y.2.isAbout x.2.project x.2.level x.2.subject = true → y.1 = x.1))
  | .claim .. | .complete .. | .completeWithNode .. | .fail .. | .requeue .. | .trust .. =>
    inferInstanceAs (Decidable True)

theorem SlotInv.step {es : List QueueEvent} {db : RlmDb} {opens : List Grant}
    (hI : SlotInv es db opens) (op : QueueOp) (hop : LeavesOpen db opens op) :
    SlotInv (events db op ++ es) (step db op) opens := by
  cases op with
  | enqueue scan job exclude now =>
    rcases enqueueRlmJob_cases db scan job exclude now with ⟨hl, hdb⟩ | ⟨hl, g, gen, n, h⟩
    · have : insertedIds scan db job exclude now = [] := by rw [insertedIds, hl, if_pos rfl]
      simp only [events, this, List.map_nil, List.nil_append, Arags.step, hdb]
      exact hI
    · exact hI.inserts h (insertedIds_mem hl h) (hop fun x hx => h.idle x.1 x.2 hx)
  | cancel project subjects now => exact hI.cancel subjects project now db hop
  | updatePayload project level subject payload now =>
    exact hI.updatePayload project level subject payload now hop
  | fail jobId worker error maxAttempts now =>
    exact hI.calm (failRlmJob_calm ..) fun _ => rfl
  | requeue now => exact hI.calm (requeueExpiredRlmLeases_calm ..) fun _ => rfl
  | trust ledger => exact hI.calm (.refl _) fun _ => rfl
  | claim scan v leaseMs maxLevel limit now =>
    rcases claimRlmJob_cases db scan v leaseMs maxLevel limit now with h | ⟨i, r, hr, hc, h⟩
    · simp only [events, Arags.step, h, List.nil_append]
      exact hI
    · simp only [claimable, Bool.and_eq_true, beq_iff_eq] at hc
      simp only [events, Arags.step, h, List.singleton_append]
      exact hI.grants hr hc.1.1.1.1 rfl rfl
  | complete jobId worker gen now =>
    rcases completeRlmJob_cases db jobId worker gen now with h | ⟨r, hr, hs, -, h⟩
    · simp only [events, Arags.step, h, Bool.false_eq_true, if_false, List.nil_append]
      exact hI
    · simp only [events, Arags.step, h, if_true, List.singleton_append]
      exact hI.calm (markDone_calm now hr hs) fun _ => rfl
  | completeWithNode scan jobId worker gen input nodeId now now' =>
    have hlast : ∀ i, lastGrant i (events db (.completeWithNode scan jobId worker gen input nodeId
        now now') ++ es) = lastGrant i es := by
      intro i
      simp only [events]
      split <;> rfl
    rcases completeRlmJobWithNode_cases db scan jobId worker gen input nodeId now now' with
      ⟨o, h, -⟩ | ⟨r, nodes, pair, hr, hs, -, -, h⟩
    · refine hI.calm ?_ hlast
      simp only [Arags.step, h]
      exact .refl _
    · refine hI.calm ?_ hlast
      simp only [Arags.step, h]
      exact markDone_calm now' hr hs

end Arags
