import Arags.Index.ActiveRows
import Arags.Index.OnlineSafety

/-!
# Arags.Index.Resurrection

Vectors that come back. A stream purges the vector of a chunk as soon as it retires the chunk,
while a batch that carries the chunk may still be in flight and store it afterwards.

* `NoRetired`  — the vector store holds no key of a retired chunk.
* `BatchCurrent`, `DrainCurrent`, `StepCurrent` — the batches that a step drains store no chunk
  that was retired since they were spawned.
* `stream_no_retired` — a run of such steps keeps `NoRetired`.
-/

namespace Arags

open Sql

section Current

variable {ε : Type}

def NoRetired (s : VectorStream ε) : Prop := ∀ i ∈ retiredIds s.db.chunks, i ∉ s.vectors

instance (s : VectorStream ε) : Decidable (NoRetired s) :=
  inferInstanceAs (Decidable (∀ i ∈ retiredIds s.db.chunks, i ∉ s.vectors))

/-- No chunk of the batch that gets a vector and keeps it is retired by now. -/
def BatchCurrent (s : VectorStream ε) (t : EmbedTask) (o : BatchOutcome ε) : Prop :=
  ∀ i ∈ o.storedIds t, i ∈ retiredIds s.db.chunks → i ∈ o.lostIds t

instance (s : VectorStream ε) (t : EmbedTask) (o : BatchOutcome ε) :
    Decidable (BatchCurrent s t o) :=
  inferInstanceAs (Decidable (∀ i ∈ o.storedIds t, _ → _))

variable (outcome : Nat → BatchOutcome ε)

/-- Each of the next `k` batches is current when it is drained. -/
def DrainCurrent (bufferId : Int) : Nat → VectorStream ε → Prop
  | 0, _ => True
  | k + 1, s =>
    match s.inFlight with
    | [] => True
    | t :: ts =>
      let r := drainEmbedHandle outcome { s with inFlight := ts } bufferId t
      BatchCurrent s t (outcome s.drained) ∧ (r.2 = .ok () → DrainCurrent bufferId k r.1)

instance decidableDrainCurrent (bufferId : Int) :
    ∀ k s, Decidable (DrainCurrent outcome bufferId k s)
  | 0, _ => inferInstanceAs (Decidable True)
  | k + 1, s => by
    unfold DrainCurrent
    have := decidableDrainCurrent bufferId k
    exact match s.inFlight with
      | [] => inferInstance
      | t :: ts => inferInstanceAs (Decidable (_ ∧ (_ → _)))

variable (ix : Indexer) (cfg : EmbedConfig)

/-- A message that fails drains nothing. -/
def InsertCurrent (s : VectorStream ε) (m : IndexMsg) :
    Except String (IndexDb × LoopState) → Prop
  | .error _ => True
  | .ok (db, loop) =>
    let r := inserted ix cfg s db loop m
    ∀ bid ∈ r.2, DrainCurrent outcome bid (overCap cfg r.1) r.1

def StepCurrent (s : VectorStream ε) : Option IndexMsg → Prop
  | none => DrainCurrent outcome (s.loop.bufferId.getD 0) s.inFlight.length s
  | some m => InsertCurrent outcome ix cfg s m (stepMsg ix s.db s.loop m)

instance (s : VectorStream ε) (m : IndexMsg) : ∀ r, Decidable (InsertCurrent outcome ix cfg s m r)
  | .error _ => inferInstanceAs (Decidable True)
  | .ok (db, loop) => inferInstanceAs (Decidable (∀ bid ∈ (inserted ix cfg s db loop m).2, _))

instance (s : VectorStream ε) : ∀ input, Decidable (StepCurrent outcome ix cfg s input)
  | none => inferInstanceAs (Decidable (DrainCurrent _ _ _ _))
  | some _ => inferInstanceAs (Decidable (InsertCurrent _ _ _ _ _ _))

end Current

/-! ## Draining -/

section Drain

variable {ε : Type} {outcome : Nat → BatchOutcome ε}

theorem drainEmbedHandle_current {s : VectorStream ε} {bid : Int} {t : EmbedTask}
    (h : NoRetired s) (hc : BatchCurrent s t (outcome s.drained)) :
    NoRetired (drainEmbedHandle outcome s bid t).1 := by
  by_cases hpanic : outcome s.drained = .panicked
  · unfold drainEmbedHandle
    rw [hpanic]
    exact h
  · obtain ⟨-, hd⟩ : (drainEmbedHandle outcome s bid t).2 = .ok () ∧
        Drained s bid t (outcome s.drained) (drainEmbedHandle outcome s bid t).1 :=
      drainEmbedHandle_drained rfl hpanic
    intro i hi hv
    rw [hd.db] at hi
    obtain ⟨hv | hst, hnot⟩ := (hd.vectors i).mp hv
    · exact h i hi hv
    · exact hnot (hc i hst hi)

theorem drainTasks_current {bid : Int} {k : Nat} {s : VectorStream ε} (h : NoRetired s)
    (hc : DrainCurrent outcome bid k s) : NoRetired (drainTasks outcome bid k s).1 := by
  induction k generalizing s with
  | zero => exact h
  | succ k ih =>
    unfold drainTasks
    unfold DrainCurrent at hc
    cases hf : s.inFlight with
    | nil => exact h
    | cons t ts =>
      rw [hf] at hc
      have hone : NoRetired (drainEmbedHandle outcome { s with inFlight := ts } bid t).1 :=
        drainEmbedHandle_current h hc.1
      have hrest := hc.2
      dsimp only at hrest ⊢
      generalize drainEmbedHandle outcome { s with inFlight := ts } bid t = r at hone hrest ⊢
      obtain ⟨s', e | ⟨⟩⟩ := r
      · exact hone
      · exact ih hone (hrest rfl)

end Drain

/-! ## Messages -/

section Message

variable {ε : Type} {ix : Indexer} {cfg : EmbedConfig}

/-- What an insert retires is purged at once. -/
theorem afterInsert_noRetired {s : VectorStream ε} {db : IndexDb} {loop : LoopState} {bid : Int}
    {res : BatchedInsert} (h : NoRetired s) (hr : Reports s.db.chunks (db.chunks, res)) :
    NoRetired (afterInsert cfg s db loop bid res) := by
  intro i hi hv
  obtain ⟨r, hrow, hin⟩ := mem_retiredIds.mp hi
  obtain ⟨hv, hnot⟩ := mem_deleteChunkIds.mp hv
  rcases hr.inactive (i, r) hrow hin with hold | hnew
  · exact h i (mem_retiredIds.mpr hold) hv
  · exact hnot hnew

theorem inserted_noRetired {s : VectorStream ε} {db : IndexDb} {loop : LoopState} {m : IndexMsg}
    (h : NoRetired s) (hm : stepMsg ix s.db s.loop m = .ok (db, loop)) :
    NoRetired (inserted ix cfg s db loop m).1 := by
  refine inserted_keeps hm (fun hc i hi => ?_) fun _ _ hr => afterInsert_noRetired h hr
  dsimp only at hi
  rw [hc] at hi
  exact h i hi

theorem mem_retiredIds_retireAll {t : SeqTable Chunk} {ids : List Int} {i : Int}
    (hi : i ∈ retiredIds (retireAll t ids)) : i ∈ retiredIds t ∨ i ∈ ids := by
  obtain ⟨r, hr, hin⟩ := mem_retiredIds.mp hi
  induction ids generalizing t with
  | nil => exact .inl hi
  | cons j ids ih =>
    rcases ih hi hr with hold | hids
    · obtain ⟨r', hr', hin'⟩ := mem_retiredIds.mp hold
      obtain ⟨r₀, hr₀, he⟩ := SeqTable.mem_update.mp hr'
      by_cases hij : i = j
      · exact .inr (hij ▸ List.mem_cons_self)
      · rw [if_neg (by simp [hij])] at he
        exact .inl (mem_retiredIds.mpr ⟨r₀, hr₀, he ▸ hin'⟩)
    · exact .inr (List.mem_cons_of_mem j hids)

theorem close_noRetired {outcome : Nat → BatchOutcome ε} {s : VectorStream ε} (h : NoRetired s)
    (hc : DrainCurrent outcome (s.loop.bufferId.getD 0) s.inFlight.length s) :
    NoRetired (close outcome s).1 := by
  have hd := drainTasks_current h hc
  unfold close
  generalize drainTasks outcome (s.loop.bufferId.getD 0) s.inFlight.length s = r at hd ⊢
  obtain ⟨s', e | ⟨⟩⟩ := r
  · exact hd
  · intro i hi hv
    dsimp only at hi hv
    rw [finish_chunks, orphanPass_retireAll] at hi
    obtain ⟨hv, hnot⟩ := mem_deleteChunkIds.mp hv
    rcases mem_retiredIds_retireAll hi with hold | horphan
    · exact hd i hold hv
    · exact hnot horphan

theorem stepEmbeds_noRetired {outcome : Nat → BatchOutcome ε} {s : VectorStream ε}
    {input : Option IndexMsg} (h : NoRetired s) (hc : StepCurrent outcome ix cfg s input) :
    NoRetired (stepEmbeds ix cfg outcome (s, none) input).1 := by
  cases input with
  | none => exact close_noRetired h hc
  | some m =>
    dsimp only [stepEmbeds, receive]
    dsimp only [StepCurrent] at hc
    cases hm : stepMsg ix s.db s.loop m with
    | error e => exact h
    | ok r =>
      obtain ⟨db, loop⟩ := r
      rw [hm] at hc
      have hi : NoRetired (inserted ix cfg s db loop m).1 := inserted_noRetired h hm
      dsimp only [InsertCurrent] at hc ⊢
      generalize inserted ix cfg s db loop m = q at hc hi ⊢
      obtain ⟨s', none | bid⟩ := q
      · exact hi
      · have hd := drainTasks_current hi (hc bid rfl)
        dsimp only
        generalize drainTasks outcome bid (overCap cfg s') s' = r at hd ⊢
        obtain ⟨s'', e | ⟨⟩⟩ := r
        · exact hd
        · exact hd

end Message

/-! ## The stream -/

section Stream

variable {ε : Type} (ix : Indexer) (cfg : EmbedConfig) (outcome : Nat → BatchOutcome ε)

/-- A stream whose batches are current when they are drained brings no vector back, whether it
is open, completed or broken off. -/
theorem stream_no_retired {db : IndexDb} {pendingVector : List Int} {vectors : VectorStore ε}
    (h0 : NoRetired (VectorStream.start db pendingVector vectors))
    {inputs : List (Option IndexMsg)}
    (hcurrent : Lts.Always (stepEmbeds ix cfg outcome) (.start db pendingVector vectors, none)
      (fun _ s input => s.2 = none → StepCurrent outcome ix cfg s.1 input) inputs) :
    NoRetired (Lts.after (stepEmbeds ix cfg outcome)
      (.start db pendingVector vectors, none) inputs).1 := by
  refine Lts.guarded_inv (I := fun _ (s : StreamState ε) => NoRetired s.1) h0 ?_ inputs hcurrent
  rintro is ⟨s, _ | res⟩ input hI hG
  · exact stepEmbeds_noRetired hI (hG rfl)
  · exact hI

/-- A file that was indexed once, with its vector. -/
def indexedOnce : StreamState Nat :=
  Lts.after (stepEmbeds sampleIndexer embedConfig fun _ => .embedded String.length)
    (.start IndexDb.empty [] ∅, none)
    [none, some (.file "m.rs" (some "a")), some (.init "p" "/p")]

/-- The file is delivered changed. -/
theorem stream_no_retired_changed :
    NoRetired (Lts.after (stepEmbeds sampleIndexer embedConfig fun _ => .embedded String.length)
      (.start indexedOnce.1.db [] indexedOnce.1.vectors, none)
      [none, some (.file "m.rs" (some "b")), some (.init "p" "/p")]).1 :=
  stream_no_retired sampleIndexer embedConfig (fun _ => .embedded String.length)
    (by decide +kernel) (by decide +kernel)

/-- The file is delivered as it was and then changed. The second delivery retires the chunk and
purges its vector; the batch of the first one, drained after it, stores the vector again. -/
theorem stream_no_retired_twice :
    NoRetired (VectorStream.start indexedOnce.1.db [] indexedOnce.1.vectors) ∧
    (Lts.after (stepEmbeds sampleIndexer embedConfig fun _ => .embedded String.length)
      (.start indexedOnce.1.db [] indexedOnce.1.vectors, none)
      [none, some (.file "m.rs" (some "b")), some (.file "m.rs" (some "a")),
        some (.init "p" "/p")]).2 = some (.ok ⟨2, 2⟩) ∧
    ¬ NoRetired (Lts.after (stepEmbeds sampleIndexer embedConfig fun _ => .embedded String.length)
      (.start indexedOnce.1.db [] indexedOnce.1.vectors, none)
      [none, some (.file "m.rs" (some "b")), some (.file "m.rs" (some "a")),
        some (.init "p" "/p")]).1 := by
  decide +kernel

end Stream

end Arags
