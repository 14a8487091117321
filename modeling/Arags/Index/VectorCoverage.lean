import Arags.Index.Embeds
import Arags.Index.Reindex

/-!
# Arags.Index.VectorCoverage

Which active chunks have a vector or are marked `pending_vector` while a stream runs.

* `Coverage` — all of them; `Tracked` — all but those that a task in flight will serve.
* `TaskSafe`, `DrainSafe`, `StepSafe` — the ends of tasks and messages that lose no chunk.
* `vector_coverage` — a run of such steps ends with `Coverage`.
-/

namespace Arags

open Sql

section Coverage

variable {ε : Type}

def VectorStream.Covered (s : VectorStream ε) (i : Int) : Prop :=
  i ∈ s.vectors ∨ i ∈ s.pendingVector

def VectorStream.Flying (s : VectorStream ε) (i : Int) : Prop := ∃ t ∈ s.inFlight, i ∈ t.ids

/-- Every active chunk has a vector or is marked. -/
def Coverage (s : VectorStream ε) : Prop := ∀ i ∈ activeIds s.db.chunks, s.Covered i

def Tracked (s : VectorStream ε) : Prop :=
  ∀ i ∈ activeIds s.db.chunks, s.Covered i ∨ s.Flying i

/-- Nothing active depends on a task in flight. -/
def AbortSafe (s : VectorStream ε) : Prop :=
  ∀ i ∈ activeIds s.db.chunks, s.Flying i → s.Covered i

instance (s : VectorStream ε) (i : Int) : Decidable (s.Covered i) :=
  inferInstanceAs (Decidable (_ ∨ _))

instance (s : VectorStream ε) (i : Int) : Decidable (s.Flying i) :=
  inferInstanceAs (Decidable (∃ t ∈ s.inFlight, i ∈ t.ids))

instance (s : VectorStream ε) : Decidable (Coverage s) :=
  inferInstanceAs (Decidable (∀ i ∈ activeIds s.db.chunks, s.Covered i))

instance (s : VectorStream ε) : Decidable (AbortSafe s) :=
  inferInstanceAs (Decidable (∀ i ∈ activeIds s.db.chunks, s.Flying i → s.Covered i))

theorem Tracked.coverage {s : VectorStream ε} (h : Tracked s) (hs : AbortSafe s) : Coverage s := by
  intro i hi
  rcases h i hi with hc | hf
  · exact hc
  · exact hs i hi hf

/-- The ids that get a vector, and those that lose one. -/
def BatchOutcome.storedIds (t : EmbedTask) : BatchOutcome ε → List Int
  | .embedded _ => t.ids
  | .insertFailed _ stored _ => t.ids.take stored
  | _ => []

def BatchOutcome.lostIds (t : EmbedTask) : BatchOutcome ε → List Int
  | .insertFailed _ stored removed => t.removedIds stored removed
  | _ => []

/-- A task that fails without a panic has only chunks that the mark reaches, that another task
still serves, or that have a vector anyway. A panic ends the stream. -/
def TaskSafe (s : VectorStream ε) (bufferId : Int) (t : EmbedTask) : BatchOutcome ε → Prop
  | .panicked => ∀ i ∈ activeIds s.db.chunks, i ∈ t.ids ∨ s.Flying i → s.Covered i
  | o => ∀ i ∈ activeIds s.db.chunks, i ∈ t.ids →
    i ∈ s.pendingVector ∨ inBuffer s.db.chunks bufferId i = true ∨ s.Flying i ∨
      ((i ∈ s.vectors ∨ i ∈ o.storedIds t) ∧ i ∉ o.lostIds t)

instance (s : VectorStream ε) (bufferId : Int) (t : EmbedTask) :
    ∀ o, Decidable (TaskSafe s bufferId t o)
  | .panicked => inferInstanceAs (Decidable (∀ i ∈ activeIds s.db.chunks, _ → _))
  | .embedded _ => inferInstanceAs (Decidable (∀ i ∈ activeIds s.db.chunks, _ → _))
  | .embedFailed => inferInstanceAs (Decidable (∀ i ∈ activeIds s.db.chunks, _ → _))
  | .insertFailed _ _ _ => inferInstanceAs (Decidable (∀ i ∈ activeIds s.db.chunks, _ → _))

theorem TaskSafe.of_ne {s : VectorStream ε} {bufferId : Int} {t : EmbedTask} {o : BatchOutcome ε}
    (h : TaskSafe s bufferId t o) (hne : o ≠ .panicked) : ∀ i ∈ activeIds s.db.chunks, i ∈ t.ids →
      i ∈ s.pendingVector ∨ inBuffer s.db.chunks bufferId i = true ∨ s.Flying i ∨
        ((i ∈ s.vectors ∨ i ∈ o.storedIds t) ∧ i ∉ o.lostIds t) := by
  cases o with
  | panicked => exact absurd rfl hne
  | embedded embed => exact h
  | embedFailed => exact h
  | insertFailed embed stored removed => exact h

variable (outcome : Nat → BatchOutcome ε)

/-- Each of the next `k` tasks ends so. -/
def DrainSafe (bufferId : Int) : Nat → VectorStream ε → Prop
  | 0, _ => True
  | k + 1, s =>
    match s.inFlight with
    | [] => True
    | t :: ts =>
      let r := drainEmbedHandle outcome { s with inFlight := ts } bufferId t
      TaskSafe { s with inFlight := ts } bufferId t (outcome s.drained) ∧
        (r.2 = .ok () → DrainSafe bufferId k r.1)

instance decidableDrainSafe (bufferId : Int) :
    ∀ k s, Decidable (DrainSafe outcome bufferId k s)
  | 0, _ => inferInstanceAs (Decidable True)
  | k + 1, s => by
    unfold DrainSafe
    have := decidableDrainSafe bufferId k
    exact match s.inFlight with
      | [] => inferInstance
      | t :: ts => inferInstanceAs (Decidable (_ ∧ (_ → _)))

variable (ix : Indexer) (cfg : EmbedConfig)

/-- A message that fails finds nothing in flight that is needed; after any other the tasks over
the cap end safely. -/
def InsertSafe (s : VectorStream ε) (m : IndexMsg) : Except String (IndexDb × LoopState) → Prop
  | .error _ => AbortSafe s
  | .ok (db, loop) =>
    let r := inserted ix cfg s db loop m
    ∀ bid ∈ r.2, DrainSafe outcome bid (overCap cfg r.1) r.1

def StepSafe (s : VectorStream ε) : Option IndexMsg → Prop
  | none => DrainSafe outcome (s.loop.bufferId.getD 0) s.inFlight.length s
  | some m => InsertSafe outcome ix cfg s m (stepMsg ix s.db s.loop m)

instance (s : VectorStream ε) (m : IndexMsg) : ∀ r, Decidable (InsertSafe outcome ix cfg s m r)
  | .error _ => inferInstanceAs (Decidable (AbortSafe s))
  | .ok (db, loop) => inferInstanceAs (Decidable (∀ bid ∈ (inserted ix cfg s db loop m).2, _))

instance (s : VectorStream ε) : ∀ input, Decidable (StepSafe outcome ix cfg s input)
  | none => inferInstanceAs (Decidable (DrainSafe _ _ _ _))
  | some _ => inferInstanceAs (Decidable (InsertSafe _ _ _ _ _ _))

end Coverage

/-! ## Draining -/

section Drain

variable {ε : Type} (outcome : Nat → BatchOutcome ε)

theorem entries_ids (t : EmbedTask) (embed : String → ε) :
    (t.entries embed).map VectorEntry.chunkId = t.ids := by
  simp [EmbedTask.entries, EmbedTask.ids]

theorem drainEmbedHandle_inFlight (s : VectorStream ε) (bid : Int) (t : EmbedTask) :
    (drainEmbedHandle outcome s bid t).1.inFlight = s.inFlight := by
  unfold drainEmbedHandle
  dsimp only
  split <;> rfl

variable {outcome}

/-- What a task that did not panic leaves. -/
structure Drained (s : VectorStream ε) (bid : Int) (t : EmbedTask) (o : BatchOutcome ε)
    (s' : VectorStream ε) : Prop where
  db : s'.db = s.db
  inFlight : s'.inFlight = s.inFlight
  vectors : ∀ i, i ∈ s'.vectors ↔ (i ∈ s.vectors ∨ i ∈ o.storedIds t) ∧ i ∉ o.lostIds t
  pending : ∀ i ∈ s.pendingVector, i ∈ s'.pendingVector
  marked : ∀ i ∈ t.ids, inBuffer s.db.chunks bid i = true → i ∈ s'.vectors ∨ i ∈ s'.pendingVector

theorem lostIds_sub (t : EmbedTask) (o : BatchOutcome ε) : ∀ i ∈ o.lostIds t, i ∈ t.ids := by
  intro i hi
  cases o with
  | insertFailed embed stored removed =>
    cases removed with
    | true => exact List.mem_of_mem_drop (List.mem_of_mem_take hi)
    | false => cases hi
  | embedded embed => cases hi
  | embedFailed => cases hi
  | panicked => cases hi

theorem storedIds_sub (t : EmbedTask) (o : BatchOutcome ε) : ∀ i ∈ o.storedIds t, i ∈ t.ids := by
  intro i hi
  cases o with
  | embedded embed => exact hi
  | insertFailed embed stored removed => exact List.mem_of_mem_take hi
  | embedFailed => cases hi
  | panicked => cases hi

theorem drainEmbedHandle_drained {s : VectorStream ε} {bid : Int} {t : EmbedTask}
    {o : BatchOutcome ε} (ho : outcome s.drained = o) (hne : o ≠ .panicked) :
    (drainEmbedHandle outcome s bid t).2 = .ok () ∧
      Drained s bid t o (drainEmbedHandle outcome s bid t).1 := by
  have hmark : ∀ i ∈ s.pendingVector,
      i ∈ markChunksPendingVector s.db.chunks s.pendingVector bid t.ids :=
    fun i hp => mem_markChunksPendingVector.mpr (.inl hp)
  have hmarked : ∀ i ∈ t.ids, inBuffer s.db.chunks bid i = true →
      i ∈ markChunksPendingVector s.db.chunks s.pendingVector bid t.ids :=
    fun i hi hb => mem_markChunksPendingVector.mpr (.inr ⟨hi, hb⟩)
  unfold drainEmbedHandle
  rw [ho]
  cases o with
  | panicked => exact absurd rfl hne
  | embedded embed =>
    have hids := entries_ids t embed
    refine ⟨rfl, rfl, rfl, fun i => ?_, fun i hp => hp, fun i hi _ => .inl ?_⟩
    · simp [hids, BatchOutcome.storedIds, BatchOutcome.lostIds]
    · exact mem_insertVectors.mpr (.inr (by rw [hids]; exact hi))
  | embedFailed =>
    refine ⟨rfl, rfl, rfl, fun i => ?_, hmark, fun i hi hb => .inr (hmarked i hi hb)⟩
    simp [BatchOutcome.storedIds, BatchOutcome.lostIds]
  | insertFailed embed stored removed =>
    have hstored : ((t.entries embed).take stored).map VectorEntry.chunkId = t.ids.take stored := by
      rw [List.map_take, entries_ids]
    refine ⟨rfl, rfl, rfl, fun i => ?_, hmark, fun i hi hb => .inr (hmarked i hi hb)⟩
    rw [mem_deleteChunkIds, mem_insertVectors, hstored]
    rfl

/-- What the end of one task leaves. -/
theorem drainEmbedHandle_safe {s : VectorStream ε} {bid : Int} {t : EmbedTask}
    (h : Tracked { s with inFlight := t :: s.inFlight })
    (hs : TaskSafe s bid t (outcome s.drained)) :
    match drainEmbedHandle outcome s bid t with
    | (s', .ok ()) => Tracked s'
    | (s', .error _) => Coverage s' := by
  have hkept : ∀ i ∈ activeIds s.db.chunks, s.Covered i ∨ i ∈ t.ids ∨ s.Flying i := by
    intro i hi
    rcases h i hi with hc | ⟨t', ht', hid⟩
    · exact .inl hc
    · rcases List.mem_cons.mp ht' with rfl | ht'
      · exact .inr (.inl hid)
      · exact .inr (.inr ⟨t', ht', hid⟩)
  by_cases hpanic : outcome s.drained = .panicked
  · unfold drainEmbedHandle
    rw [hpanic] at hs ⊢
    intro i hi
    rcases hkept i hi with hc | hid | hf
    · exact hc
    · exact hs i hi (.inl hid)
    · exact hs i hi (.inr hf)
  · obtain ⟨hok, hd⟩ : (drainEmbedHandle outcome s bid t).2 = .ok () ∧
        Drained s bid t (outcome s.drained) (drainEmbedHandle outcome s bid t).1 :=
      drainEmbedHandle_drained rfl hpanic
    have hsafe := hs.of_ne hpanic
    generalize drainEmbedHandle outcome s bid t = r at hok hd ⊢
    obtain ⟨s', res⟩ := r
    subst hok
    have hflying : ∀ i, s.Flying i → s'.Flying i := by
      rintro i ⟨t', ht', hid⟩
      exact ⟨t', by rw [hd.inFlight]; exact ht', hid⟩
    intro i hi
    rw [hd.db] at hi
    by_cases hid : i ∈ t.ids
    · rcases hsafe i hi hid with hp | hb | hf | hv
      · exact .inl (.inr (hd.pending i hp))
      · exact .inl (hd.marked i hid hb)
      · exact .inr (hflying i hf)
      · exact .inl (.inl ((hd.vectors i).mpr hv))
    · have hl : i ∉ (outcome s.drained).lostIds t := fun hm => hid (lostIds_sub t _ i hm)
      rcases hkept i hi with (hv | hp) | hid' | hf
      · exact .inl (.inl ((hd.vectors i).mpr ⟨.inl hv, hl⟩))
      · exact .inl (.inr (hd.pending i hp))
      · exact absurd hid' hid
      · exact .inr (hflying i hf)

theorem drainTasks_safe {bid : Int} {k : Nat} {s : VectorStream ε} (h : Tracked s)
    (hs : DrainSafe outcome bid k s) :
    match drainTasks outcome bid k s with
    | (s', .ok ()) => Tracked s' ∧ s'.inFlight = s.inFlight.drop k
    | (s', .error _) => Coverage s' := by
  induction k generalizing s with
  | zero => exact ⟨h, rfl⟩
  | succ k ih =>
    unfold drainTasks
    unfold DrainSafe at hs
    cases hf : s.inFlight with
    | nil => exact ⟨h, by rw [hf]; rfl⟩
    | cons t ts =>
      rw [hf] at hs
      have hpop : { s with inFlight := t :: ts } = s := by rw [← hf]
      have hone := drainEmbedHandle_safe (by rw [hpop]; exact h) hs.1
      have hq := drainEmbedHandle_inFlight outcome { s with inFlight := ts } bid t
      have hrest := hs.2
      dsimp only at hrest ⊢
      generalize drainEmbedHandle outcome { s with inFlight := ts } bid t = r at hone hq hrest ⊢
      obtain ⟨s', e | ⟨⟩⟩ := r
      · exact hone
      · have := ih hone (hrest rfl)
        dsimp only at hq ⊢
        rw [hq] at this
        exact this

end Drain

/-! ## Messages -/

section Message

variable {ε : Type} {ix : Indexer} {cfg : EmbedConfig}

theorem insertChunksBatched_reports (t : SeqTable Chunk) (bid : Int)
    (items : List (String × IndexedChunk)) (snap : Snapshot) :
    Reports t (insertChunksBatched ix.scan t bid items ix.maxBatchSize snap) := by
  rw [insertChunksBatched_eq]
  refine persistAll_reports ix.scan bid snap ⟨?_, ?_, ?_⟩ items
  · intro x hx ha
    exact .inl ⟨x.2, hx, ha⟩
  · intro x hx ha
    exact .inl ⟨x.2, hx, ha⟩
  · intro i hi
    cases hi

theorem flying_spawned {persisted : List (Int × String)} {bid i : Int}
    (h : i ∈ persisted.map Prod.fst) : ∃ t ∈ spawnEmbeds cfg bid persisted, i ∈ t.ids := by
  obtain ⟨x, hx, rfl⟩ := List.mem_map.mp h
  rw [← batches_flatten cfg.batchSize persisted] at hx
  obtain ⟨items, hitems, hmem⟩ := List.mem_flatten.mp hx
  refine ⟨⟨bid, items⟩, ?_, List.mem_map_of_mem hmem⟩
  unfold spawnEmbeds
  exact List.mem_reverse.mpr (List.mem_map_of_mem hitems)

/-- The new active rows are in flight, and the rows whose vectors are purged are not active. -/
theorem afterInsert_tracked {s : VectorStream ε} {db : IndexDb} {loop : LoopState} {bid : Int}
    {res : BatchedInsert} (h : Tracked s) (hr : Reports s.db.chunks (db.chunks, res)) :
    Tracked (afterInsert cfg s db loop bid res) := by
  intro i hi
  obtain ⟨r, hrow, ha⟩ := mem_activeIds.mp hi
  rcases hr.persisted (i, r) hrow ha with ⟨r', hrow', ha'⟩ | hnew
  · rcases h i (mem_activeIds.mpr ⟨r', hrow', ha'⟩) with (hv | hp) | ⟨t, ht, hid⟩
    · have hnot : i ∉ res.retiredIds := by
        intro hret
        have := (hr.retired i hret).2 r hrow
        rw [ha] at this
        cases this
      exact .inl (.inl (mem_deleteChunkIds.mpr ⟨hv, hnot⟩))
    · exact .inl (.inr hp)
    · exact .inr ⟨t, List.mem_append_right _ ht, hid⟩
  · obtain ⟨t, ht, hid⟩ := flying_spawned hnew
    exact .inr ⟨t, List.mem_append_left _ ht, hid⟩

/-- A message inserts the chunks of a file, or leaves the chunks as they are. -/
theorem inserted_keeps {P : VectorStream ε → Prop} {s : VectorStream ε} {db : IndexDb}
    {loop : LoopState} {m : IndexMsg} (hm : stepMsg ix s.db s.loop m = .ok (db, loop))
    (hsame : db.chunks = s.db.chunks → P { s with db := db, loop := loop })
    (hinsert : ∀ bid res, Reports s.db.chunks (db.chunks, res) →
      P (afterInsert cfg s db loop bid res)) : P (inserted ix cfg s db loop m).1 := by
  rcases stepMsg_cases hm with ⟨_, _, rfl, rfl, -⟩ | ⟨path, text, b, rfl, hb, rfl, -⟩ |
    ⟨rfl, rfl, -⟩
  · exact hsame rfl
  · unfold inserted
    rw [hb]
    dsimp only
    refine hinsert _ _ ?_
    rw [phase1_fileInsert]
    exact insertChunksBatched_reports _ _ _ _
  · exact hsame rfl

theorem inserted_tracked {s : VectorStream ε} {db : IndexDb} {loop : LoopState} {m : IndexMsg}
    (h : Tracked s) (hm : stepMsg ix s.db s.loop m = .ok (db, loop)) :
    Tracked (inserted ix cfg s db loop m).1 := by
  refine inserted_keeps hm (fun hc i hi => ?_) fun _ _ hr => afterInsert_tracked h hr
  dsimp only at hi
  rw [hc] at hi
  exact h i hi

theorem orphanPass_retireAll (chunks : SeqTable Chunk) (st : LoopState) :
    orphanPass chunks st = retireAll chunks (orphanIds st) := by
  unfold orphanPass orphanIds
  cases st.snapshot <;> rfl

theorem finish_chunks (db : IndexDb) (st : LoopState) :
    (finish db st).1.chunks = orphanPass db.chunks st := by
  unfold finish
  dsimp only
  split <;> rfl

/-- The orphan pass purges the vectors of what it retires, and no others. -/
theorem coverage_orphans {s : VectorStream ε} (h : Coverage s) :
    ∀ i ∈ activeIds (orphanPass s.db.chunks s.loop),
      i ∈ deleteChunkIds s.vectors (orphanIds s.loop) ∨ i ∈ s.pendingVector := by
  intro i hi
  obtain ⟨r, hrow, ha⟩ := mem_activeIds.mp hi
  rw [orphanPass_retireAll] at hrow
  obtain ⟨hold, hnot⟩ := mem_retireAll hrow ha
  rcases h i (mem_activeIds.mpr ⟨r, hold, ha⟩) with hv | hp
  · exact .inl (mem_deleteChunkIds.mpr ⟨hv, hnot⟩)
  · exact .inr hp

/-- The invariant of a stream. -/
def StreamTracked : StreamState ε → Prop
  | (s, none) => Tracked s
  | (s, some _) => Coverage s

theorem StreamTracked.coverage {s : StreamState ε} (h : StreamTracked s) (hs : s.2 ≠ none) :
    Coverage s.1 := by
  obtain ⟨s, _ | res⟩ := s
  · exact absurd rfl hs
  · exact h

theorem stepEmbeds_tracked {outcome : Nat → BatchOutcome ε} {s : VectorStream ε}
    {input : Option IndexMsg} (h : Tracked s) (hs : StepSafe outcome ix cfg s input) :
    StreamTracked (stepEmbeds ix cfg outcome (s, none) input) := by
  cases input with
  | none =>
    have hd := drainTasks_safe h hs
    dsimp only [stepEmbeds, close]
    generalize drainTasks outcome (s.loop.bufferId.getD 0) s.inFlight.length s = r at hd ⊢
    obtain ⟨s', e | ⟨⟩⟩ := r
    · exact hd
    · obtain ⟨ht, hq⟩ := hd
      rw [List.drop_length] at hq
      have hcov : Coverage s' := ht.coverage fun i _ hf => by
        obtain ⟨t, hm, -⟩ := hf
        rw [hq] at hm
        cases hm
      intro i hi
      dsimp only at hi
      rw [finish_chunks] at hi
      exact coverage_orphans hcov i hi
  | some m =>
    dsimp only [stepEmbeds, receive]
    dsimp only [StepSafe] at hs
    cases hm : stepMsg ix s.db s.loop m with
    | error e =>
      rw [hm] at hs
      exact h.coverage hs
    | ok r =>
      obtain ⟨db, loop⟩ := r
      rw [hm] at hs
      have ht : Tracked (inserted ix cfg s db loop m).1 := inserted_tracked h hm
      dsimp only [InsertSafe] at hs ⊢
      generalize inserted ix cfg s db loop m = q at hs ht ⊢
      obtain ⟨s', none | bid⟩ := q
      · exact ht
      · have hd := drainTasks_safe ht (hs bid rfl)
        dsimp only
        generalize drainTasks outcome bid (overCap cfg s') s' = r at hd ⊢
        obtain ⟨s'', e | ⟨⟩⟩ := r
        · exact hd
        · exact hd.1

end Message

/-! ## The stream -/

section Stream

variable {ε : Type} (ix : Indexer) (cfg : EmbedConfig) (outcome : Nat → BatchOutcome ε)

/-- A stream whose steps are safe leaves every active chunk with a vector or a mark. -/
theorem vector_coverage {db : IndexDb} {pendingVector : List Int} {vectors : VectorStore ε}
    (h0 : Coverage (VectorStream.start db pendingVector vectors))
    {inputs : List (Option IndexMsg)}
    (hsafe : Lts.Always (stepEmbeds ix cfg outcome) (.start db pendingVector vectors, none)
      (fun _ s input => s.2 = none → StepSafe outcome ix cfg s.1 input) inputs) :
    let s := Lts.after (stepEmbeds ix cfg outcome) (.start db pendingVector vectors, none) inputs
    s.2 ≠ none → Coverage s.1 := by
  have hstart : StreamTracked (.start db pendingVector vectors, none) := fun i hi => .inl (h0 i hi)
  have hinv := Lts.guarded_inv (I := fun _ => StreamTracked) hstart ?_ inputs hsafe
  · exact hinv.coverage
  · rintro is ⟨s, _ | res⟩ input hI hG
    · exact stepEmbeds_tracked hI (hG rfl)
    · exact hI

def embedConfig : EmbedConfig := ⟨2, 8⟩

/-- The task that is drained first fails. -/
def oneEmbedFails (n : Nat) : BatchOutcome Nat :=
  if n = 0 then .embedFailed else .embedded String.length

theorem vector_coverage_closed :
    Coverage (Lts.after (stepEmbeds sampleIndexer embedConfig oneEmbedFails)
      (.start IndexDb.empty [] ∅, none) [none, some (.file "b.txt" (some "b")),
        some (.file "a.txt" (some "a")), some (.init "p" "/p")]).1 :=
  vector_coverage sampleIndexer embedConfig oneEmbedFails (by decide) (by decide +kernel)
    (by decide +kernel)

/-- The client breaks off after a file: its chunk is active, has no vector and no mark. -/
theorem vector_coverage_aborted :
    Coverage (VectorStream.start (ε := Nat) IndexDb.empty [] ∅) ∧
    (Lts.after (stepEmbeds sampleIndexer embedConfig oneEmbedFails)
      (.start IndexDb.empty [] ∅, none) [some (.error "reset"), some (.file "a.txt" (some "a")),
        some (.init "p" "/p")]).2 = some (.error "reset") ∧
    ¬ Coverage (Lts.after (stepEmbeds sampleIndexer embedConfig oneEmbedFails)
      (.start IndexDb.empty [] ∅, none) [some (.error "reset"), some (.file "a.txt" (some "a")),
        some (.init "p" "/p")]).1 := by
  decide +kernel

end Stream

end Arags
