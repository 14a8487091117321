import Arags.Rlm.Moves

/-!
# Arags.Rlm.LeaseSafety

Leases and generations over whole runs of the queue.

* `completions i g` — how often row `i` was completed at generation `g` since it was inserted.
* `lastGrant i`     — who took row `i` last since it was inserted.
* `LeaseInv`        — a claimed row is in the hands of its last taker; a row completed at a
  generation is done at it or past it.
* `completion_safety` — the safety of completions in every run.
-/

namespace Arags

open Sql

/-- The events so far, newest first, and the tables. -/
def queue (ops : List QueueOp) : List QueueEvent × RlmDb :=
  Lts.after (Lts.recorded step events) ([], RlmDb.empty) ops

def completions (i gen : Int) : List QueueEvent → Nat
  | [] => 0
  | .inserted j :: es => if j = i then 0 else completions i gen es
  | .granted _ :: es => completions i gen es
  | .completed c :: es =>
    (if c.jobId = i ∧ c.generation = gen then 1 else 0) + completions i gen es

def lastGrant (i : Int) : List QueueEvent → Option Grant
  | [] => none
  | .inserted j :: es => if j = i then none else lastGrant i es
  | .granted g :: es => if g.job.id = i then some g else lastGrant i es
  | .completed _ :: es => lastGrant i es

theorem completions_inserted_of_mem {i gen : Int} {ids : List Int} {es : List QueueEvent}
    (h : i ∈ ids) : completions i gen (ids.map .inserted ++ es) = 0 := by
  induction ids with
  | nil => cases h
  | cons j ids ih =>
    simp only [List.map_cons, List.cons_append, completions]
    split
    · rfl
    · rename_i hj
      rcases List.mem_cons.mp h with rfl | h
      · exact absurd rfl hj
      · exact ih h

theorem completions_inserted_of_not_mem {i gen : Int} {ids : List Int} {es : List QueueEvent}
    (h : i ∉ ids) : completions i gen (ids.map .inserted ++ es) = completions i gen es := by
  induction ids with
  | nil => rfl
  | cons j ids ih =>
    have hj := List.ne_of_not_mem_cons h
    have h := List.not_mem_of_not_mem_cons h
    simp only [List.map_cons, List.cons_append, completions, if_neg (Ne.symm hj)]
    exact ih h

theorem lastGrant_inserted_of_not_mem {i : Int} {ids : List Int} {es : List QueueEvent}
    (h : i ∉ ids) : lastGrant i (ids.map .inserted ++ es) = lastGrant i es := by
  induction ids with
  | nil => rfl
  | cons j ids ih =>
    have hj := List.ne_of_not_mem_cons h
    have h := List.not_mem_of_not_mem_cons h
    simp only [List.map_cons, List.cons_append, lastGrant, if_neg (Ne.symm hj)]
    exact ih h

structure LeaseInv (es : List QueueEvent) (db : RlmDb) : Prop where
  held : ∀ i r, (i, r) ∈ db.rlmJobs.rows → r.status = .claimed → ∃ g, lastGrant i es = some g ∧
    r.claimedBy = some g.volunteer ∧ r.leaseExpiresAt = some g.leaseExpiresAt ∧
    r.generation = g.job.generation ∧ g.job.id = i ∧ g.ident = r.ident
  once : ∀ i gen, completions i gen es ≤ 1
  settled : ∀ i r gen, (i, r) ∈ db.rlmJobs.rows → 0 < completions i gen es →
    gen < r.generation ∨ (gen = r.generation ∧ r.status = .done)

namespace LeaseInv

variable {es : List QueueEvent} {db db' : RlmDb}

theorem empty : LeaseInv [] RlmDb.empty where
  held := by intro i r h; cases h
  once := by intro i gen; exact Nat.zero_le _
  settled := by intro i r gen h; cases h

theorem quiet (hI : LeaseInv es db) (h : QuietTable db.rlmJobs db'.rlmJobs) :
    LeaseInv es db' := by
  obtain ⟨f, hf, hrows⟩ := h
  refine ⟨?_, hI.once, ?_⟩
  · intro i r' hr' hs'
    obtain ⟨r, hr, rfl⟩ := (hrows i r').mp hr'
    obtain ⟨hs, hc, hl, hg⟩ := (hf i r hr).of_claimed hs'
    obtain ⟨g, h1, h2, h3, h4, h5, h6⟩ := hI.held i r hr hs
    exact ⟨g, h1, hc.trans h2, hl.trans h3, hg.trans h4, h5,
      h6.trans (hf i r hr).ident_eq.symm⟩
  · intro i r' gen hr' hpos
    obtain ⟨r, hr, rfl⟩ := (hrows i r').mp hr'
    rcases hI.settled i r gen hr hpos with hlt | ⟨heq, hd⟩
    · have := (hf i r hr).generation_le
      exact .inl (by omega)
    · obtain ⟨hd', -, hg⟩ := (hf i r hr).of_done hd
      exact .inr ⟨heq.trans hg.symm, hd'⟩


theorem inserts (hI : LeaseInv es db) {scan : ScanOrder RlmJob} {job : NewRlmJob}
    {exclude : List String} {now group generation : Int} {n : Nat} {ids : List Int}
    (h : Inserts db db' scan job exclude now group generation n)
    (hids : ∀ i, i ∈ ids ↔ ∃ k < n, i = (otherRows db.rlmJobs job).maxId + 1 + k) :
    LeaseInv (ids.map .inserted ++ es) db' := by
  have hother : ∀ i r, (i, r) ∈ (otherRows db.rlmJobs job).rows →
      (i, r) ∈ db.rlmJobs.rows ∧ i ∉ ids := by
    intro i r hr
    obtain ⟨hm, -, hne⟩ := Inserts.of_other hr
    refine ⟨hm, fun hi => ?_⟩
    obtain ⟨k, -, he⟩ := (hids i).mp hi
    exact hne k he
  refine ⟨?_, ?_, ?_⟩
  · intro i r hr hs
    rcases (h.rows i r).mp hr with hr | ⟨k, hk, rfl, rfl⟩
    · obtain ⟨hm, hi⟩ := hother i r hr
      rw [lastGrant_inserted_of_not_mem hi]
      exact hI.held i r hm hs
    · simp only [slotRow] at hs; cases hs
  · intro i gen
    by_cases hi : i ∈ ids
    · rw [completions_inserted_of_mem hi]; exact Nat.zero_le _
    · rw [completions_inserted_of_not_mem hi]; exact hI.once i gen
  · intro i r gen hr hpos
    rcases (h.rows i r).mp hr with hr | ⟨k, hk, rfl, rfl⟩
    · obtain ⟨hm, hi⟩ := hother i r hr
      rw [completions_inserted_of_not_mem hi] at hpos
      exact hI.settled i r gen hm hpos
    · rw [completions_inserted_of_mem ((hids _).mpr ⟨k, hk, rfl⟩)] at hpos
      exact absurd hpos (Nat.lt_irrefl _)

theorem grants (hI : LeaseInv es db) {g : Grant} {r : RlmJob} {now : Int}
    (hr : (g.job.id, r) ∈ db.rlmJobs.rows) (hp : r.status = .pending)
    (hid : g.ident = r.ident) (hg : g.job.generation = r.generation)
    (h : db'.rlmJobs = markClaimed db.rlmJobs g.job.id g.volunteer now g.leaseExpiresAt) :
    LeaseInv (.granted g :: es) db' := by
  refine ⟨?_, hI.once, ?_⟩
  · intro i s' hs' hc
    rw [h, mem_markClaimed] at hs'
    obtain ⟨s, hs, rfl⟩ := hs'
    by_cases hi : i = g.job.id
    · subst hi
      obtain rfl := Table.eq_of_mem hr hs
      rw [if_pos ⟨rfl, hp⟩]
      exact ⟨g, by simp only [lastGrant, if_true], rfl, rfl, hg.symm, rfl, hid⟩
    · rw [if_neg fun hx => hi hx.1] at hc ⊢
      obtain ⟨g', hl, hrest⟩ := hI.held i s hs hc
      exact ⟨g', by simp only [lastGrant, if_neg (Ne.symm hi), hl], hrest⟩
  · intro i s' gen hs' hpos
    rw [h, mem_markClaimed] at hs'
    obtain ⟨s, hs, rfl⟩ := hs'
    have hset := hI.settled i s gen hs hpos
    split
    · rename_i hc
      rcases hset with hlt | ⟨-, hd⟩
      · exact .inl hlt
      · rw [hc.2] at hd; cases hd
    · exact hset

theorem completes (hI : LeaseInv es db) {c : Completion} {r : RlmJob} {now : Int}
    (hr : (c.jobId, r) ∈ db.rlmJobs.rows) (hs : r.status = .claimed)
    (hv : completionValid r c.worker c.generation c.checkedAt = true)
    (h : db'.rlmJobs = markDone db.rlmJobs c.jobId now) :
    LeaseInv (.completed c :: es) db' := by
  obtain ⟨-, hgen, -⟩ := completionValid_iff.mp hv
  have hzero : completions c.jobId c.generation es = 0 := by
    rcases Nat.eq_zero_or_pos (completions c.jobId c.generation es) with h0 | hpos
    · exact h0
    · rcases hI.settled c.jobId r c.generation hr hpos with hlt | ⟨-, hd⟩
      · omega
      · rw [hs] at hd; cases hd
  refine ⟨?_, ?_, ?_⟩
  · intro i s' hs' hc
    rw [h, mem_markDone] at hs'
    obtain ⟨s, hs, rfl⟩ := hs'
    by_cases hi : i = c.jobId
    · rw [if_pos hi] at hc; simp only [RlmJob.finish] at hc; cases hc
    · rw [if_neg hi] at hc ⊢
      exact hI.held i s hs hc
  · intro i gen
    simp only [completions]
    split
    · rename_i hc
      obtain ⟨rfl, rfl⟩ := hc
      rw [hzero]
    · simpa using hI.once i gen
  · intro i s' gen hs' hpos
    rw [h, mem_markDone] at hs'
    obtain ⟨s, hs, rfl⟩ := hs'
    simp only [completions] at hpos
    by_cases hi : i = c.jobId
    · subst hi
      obtain rfl := Table.eq_of_mem hr hs
      rw [if_pos rfl]
      by_cases hg : c.generation = gen
      · exact .inr ⟨by rw [← hg, ← hgen]; rfl, rfl⟩
      · rw [if_neg fun hx => hg hx.2, Nat.zero_add] at hpos
        rcases hI.settled _ r gen hr hpos with hlt | ⟨heq, -⟩
        · exact .inl hlt
        · omega
    · rw [if_neg fun hx => hi hx.1.symm, Nat.zero_add] at hpos
      rw [if_neg hi]
      exact hI.settled i s gen hs hpos

theorem move (hI : LeaseInv es db) {op : QueueOp} {new : List QueueEvent}
    (h : Move db db' op new) : LeaseInv (new ++ es) db' := by
  cases h with
  | quiet h => exact hI.quiet h
  | inserts h hids => exact hI.inserts h hids
  | grants hr hp _ hid hg _ h => exact hI.grants hr hp hid hg h
  | completes hr hs hv _ h => exact hI.completes hr hs hv h

end LeaseInv

theorem leaseInv_queue (ops : List QueueOp) : LeaseInv (queue ops).1 (queue ops).2 :=
  Lts.recorded_inv LeaseInv.empty (fun _ db op hI => hI.move (step_move db op)) ops

/-- A completion is accepted from the last taker of the row, at the generation it was handed out
at and within its lease, at most once for a row and a generation; a completion that is not
accepted changes nothing. -/
theorem completion_safety (ops : List QueueOp) :
    (∀ i gen, completions i gen (queue ops).1 ≤ 1) ∧
    (∀ op c, QueueEvent.completed c ∈ events (queue ops).2 op →
      ∃ g, lastGrant c.jobId (queue ops).1 = some g ∧ g.volunteer = c.worker ∧
        g.job.generation = c.generation ∧ c.checkedAt ≤ g.leaseExpiresAt) ∧
    (∀ jobId worker gen now,
      (completeRlmJob (queue ops).2 jobId worker gen now).2 = false →
      (completeRlmJob (queue ops).2 jobId worker gen now).1 = (queue ops).2) ∧
    (∀ scan jobId worker gen input nodeId now now',
      (∀ pair, (completeRlmJobWithNode scan (queue ops).2 jobId worker gen input nodeId now
        now').2 ≠ .ok (some pair)) →
      (completeRlmJobWithNode scan (queue ops).2 jobId worker gen input nodeId now now').1 =
        (queue ops).2) := by
  have hI := leaseInv_queue ops
  refine ⟨hI.once, ?_, ?_, ?_⟩
  · intro op c hc
    have hm := step_move (queue ops).2 op
    generalize events (queue ops).2 op = es at hc hm
    cases hm with
    | quiet _ => cases hc
    | inserts _ _ => simp at hc
    | grants _ _ _ _ _ _ _ => simp at hc
    | completes hr hs hv _ _ =>
      simp only [List.mem_singleton, QueueEvent.completed.injEq] at hc
      subst hc
      obtain ⟨hby, hgen, l, hl, hle⟩ := completionValid_iff.mp hv
      obtain ⟨g, hlast, hvol, hlease, hgg, -⟩ := hI.held _ _ hr hs
      rw [hby, Option.some.injEq] at hvol
      rw [hl, Option.some.injEq] at hlease
      exact ⟨g, hlast, hvol.symm, hgg.symm.trans hgen, hlease ▸ hle⟩
  · intro jobId worker gen now hrej
    rcases completeRlmJob_cases (queue ops).2 jobId worker gen now with h | ⟨r, -, -, -, h⟩
    · rw [h]
    · rw [h] at hrej; cases hrej
  · intro scan jobId worker gen input nodeId now now' hrej
    rcases completeRlmJobWithNode_cases (queue ops).2 scan jobId worker gen input nodeId now now'
      with ⟨o, h, -⟩ | ⟨r, nodes, pair, -, -, -, -, h⟩
    · rw [h]
    · exact absurd (by rw [h]) (hrej pair)

/-- An expired lease is requeued and taken over: only the second volunteer can complete. -/
def takenOver : List QueueOp :=
  [ .claim .rowid "w" 1000 none 3 2001,
    .requeue 2000,
    .claim .rowid "v" 1000 none 3 0,
    .enqueue .rowid ⟨none, "p", 1, "a", "{}", PRIORITY_FRESH, 1⟩ [] 0 ]

theorem completion_safety_taken_over :
    (completeRlmJob (queue takenOver).2 1 "v" 0 2002).1.rlmJobs.rows =
        (queue takenOver).2.rlmJobs.rows ∧
      ∃ g, lastGrant 1 (queue takenOver).1 = some g ∧ g.volunteer = "w" ∧
        g.job.generation = 0 ∧ 2002 ≤ g.leaseExpiresAt :=
  ⟨by rw [(completion_safety takenOver).2.2.1 1 "v" 0 2002 (by decide)],
    (completion_safety takenOver).2.1 (.complete 1 "w" 0 2002) ⟨1, "w", 0, some 1, 2002⟩
      (by decide)⟩

end Arags
