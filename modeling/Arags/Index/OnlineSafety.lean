import Arags.Index.Online
import Arags.Index.VectorCoverage

/-!
# Arags.Index.OnlineSafety

When an online rebuild is safe: which chunks are served and which vectors are about to be purged,
over all orders of the steps of bootstrap, reconcile and index streams.

* `serving`, `purging`, `coming` — what a writer holds for or against a chunk.
* `Online.Covered`, `Online.Clean` — the property, with what is still under way.
* `Online.Safe`     — the invariant; `step_safe` is its preservation.
* `OnlineGuard`     — the steps that keep it.
* `online_rebuild`  — a run of such steps ends with every active chunk served and no retired
  chunk in the store.
-/

namespace Arags

open Sql

/-! ## What the writers hold -/

def retiredIds (chunks : SeqTable Chunk) : List Int :=
  (chunks.select fun _ r => !r.isActive).map Prod.fst

theorem mem_retiredIds {chunks : SeqTable Chunk} {i : Int} :
    i ∈ retiredIds chunks ↔ ∃ r, (i, r) ∈ chunks.rows ∧ r.isActive = false := by
  unfold retiredIds
  simp [Table.select]

/-- The chunks that a stream will still give a vector or a mark. -/
def StreamWorker.serving (w : StreamWorker) : List Int :=
  let flying := w.inFlight.flatMap EmbedTask.ids
  match w.phase with
  | .inserting _ _ _ res => res.persisted.map Prod.fst ++ flying
  | .retiring _ _ | .ended _ => []
  | _ => flying

/-- The chunks that a stream has retired and whose vectors it has not purged. -/
def StreamWorker.purging (w : StreamWorker) : List Int :=
  match w.phase with
  | .inserting _ _ _ res => res.retiredIds
  | .retiring retired _ => retired
  | _ => []

/-- The row ids that a stream works with. -/
def StreamWorker.known (w : StreamWorker) : List Int :=
  (w.loop.snapshot.getD []).map Prod.snd ++
    match w.phase with
    | .retiring _ left => left
    | _ => []

section Holds

variable {ε : Type} {k : Nat}

/-- The chunks that the bootstrap will still insert. -/
def BootPhase.coming : BootPhase ε → List Int
  | .embedding entries left => entries.map VectorEntry.chunkId ++ left.flatten.map Prod.fst
  | .inserting entries _ => entries.map VectorEntry.chunkId
  | _ => []

/-- The store has been judged in sync, or cleared. -/
def BootPhase.decided : BootPhase ε → Bool
  | .embedding _ _ | .inserting _ _ | .finished _ => true
  | _ => false

def BootPhase.failed : BootPhase ε → Bool
  | .inserting _ ok | .finished ok => !ok
  | _ => false

def StreamPhase.failed : StreamPhase → Bool
  | .ended (.error _) => true
  | _ => false

abbrev Online.chunks (s : Online ε k) : SeqTable Chunk := s.stores.db.chunks

def Online.Served (s : Online ε k) (i : Int) : Prop :=
  i ∈ s.stores.vectors ∨ i ∈ s.stores.pendingVector ∨ i ∈ s.boot.coming ∨
    ∃ j, i ∈ (s.streams j).serving

def Online.Purged (s : Online ε k) (i : Int) : Prop := ∃ j, i ∈ (s.streams j).purging

def Online.Covered (s : Online ε k) : Prop := ∀ i ∈ activeIds s.chunks, s.Served i

def Online.Clean (s : Online ε k) : Prop :=
  ∀ i ∈ retiredIds s.chunks, i ∈ s.stores.vectors → s.Purged i

instance (s : Online ε k) (i : Int) : Decidable (s.Served i) :=
  inferInstanceAs (Decidable (_ ∨ _ ∨ _ ∨ ∃ j, i ∈ (s.streams j).serving))

instance (s : Online ε k) (i : Int) : Decidable (s.Purged i) :=
  inferInstanceAs (Decidable (∃ j, i ∈ (s.streams j).purging))

instance (s : Online ε k) : Decidable s.Covered :=
  inferInstanceAs (Decidable (∀ i ∈ activeIds s.chunks, s.Served i))

instance (s : Online ε k) : Decidable s.Clean :=
  inferInstanceAs (Decidable (∀ i ∈ retiredIds s.chunks, i ∈ s.stores.vectors → s.Purged i))

/-- The invariant of a server on which nothing has failed. -/
structure Online.Safe (s : Online ε k) : Prop where
  purging : ∀ j, ∀ i ∈ (s.streams j).purging, i ∉ activeIds s.chunks ∧ i ≤ s.chunks.seq
  known : ∀ j, ∀ i ∈ (s.streams j).known, i ≤ s.chunks.seq
  covered : s.boot.decided = true → s.Covered
  clean : s.boot.decided = true → s.Clean

def Online.Failed (s : Online ε k) : Prop :=
  s.boot.failed = true ∨ ∃ j, (s.streams j).phase.failed = true

instance (s : Online ε k) : Decidable s.Failed :=
  inferInstanceAs (Decidable (_ ∨ ∃ j, (s.streams j).phase.failed = true))

/-! ## The guard -/

/-- The stream with a task taken off. -/
def Online.pop (s : Online ε k) (j : Fin k) (ts : List EmbedTask) : Online ε k :=
  { s with streams := Function.update s.streams j { s.streams j with inFlight := ts } }

/-- The task that the next step of a stream awaits, and the buffer it is drained under. -/
def StreamWorker.awaited (cfg : EmbedConfig) (w : StreamWorker) :
    Option (Int × EmbedTask × List EmbedTask) :=
  match w.phase, w.inFlight with
  | .draining bid, t :: ts => if cfg.embedCap ≤ w.inFlight.length then some (bid, t, ts) else none
  | .closing, t :: ts => some (w.loop.bufferId.getD 0, t, ts)
  | _, _ => none

/-- The vectors that a task stores are of chunks that nobody has retired and purged, and a chunk
it leaves without one is marked or served otherwise. -/
def TaskKept (s : Online ε k) (bufferId : Int) (t : EmbedTask) : BatchOutcome ε → Prop
  | .panicked => True
  | o => ∀ i ∈ t.ids,
    (i ∈ o.storedIds t → i ∈ retiredIds s.chunks → s.Purged i) ∧
    (i ∈ activeIds s.chunks →
      i ∈ s.stores.pendingVector ∨ inBuffer s.chunks bufferId i = true ∨
        ((i ∈ s.stores.vectors ∨ i ∈ o.storedIds t) ∧ i ∉ o.lostIds t) ∨
        i ∈ s.boot.coming ∨ ∃ j, i ∈ (s.streams j).serving)

instance (s : Online ε k) (bufferId : Int) (t : EmbedTask) :
    ∀ o, Decidable (TaskKept s bufferId t o)
  | .panicked => inferInstanceAs (Decidable True)
  | .embedded _ => inferInstanceAs (Decidable (∀ i ∈ t.ids, _ ∧ _))
  | .embedFailed => inferInstanceAs (Decidable (∀ i ∈ t.ids, _ ∧ _))
  | .insertFailed _ _ _ => inferInstanceAs (Decidable (∀ i ∈ t.ids, _ ∧ _))

def BootGuard (s : Online ε k) : Prop :=
  match s.boot with
  | .read inputs => inputs.length = vectorCount s.stores.vectors → s.Covered ∧ s.Clean
  | .diverged inputs => ∀ i ∈ activeIds s.chunks, i ∈ inputs.map Prod.fst ∨
      i ∈ s.stores.pendingVector ∨ ∃ j, i ∈ (s.streams j).serving
  | .inserting entries _ =>
    ∀ i ∈ entries.map VectorEntry.chunkId, i ∈ retiredIds s.chunks → s.Purged i
  | _ => True

def ReconcileGuard (s : Online ε k) : Prop :=
  match s.reconcile with
  | .inserting _ (e :: _) _ _ => e.chunkId ∈ retiredIds s.chunks → s.Purged e.chunkId
  | .inserting bid [] inserted _ => ∀ i ∈ inserted, i ∈ activeIds s.chunks →
      inBuffer s.chunks bid i = true →
        i ∈ s.stores.vectors ∨ i ∈ s.boot.coming ∨ ∃ j, i ∈ (s.streams j).serving
  | _ => True

instance (s : Online ε k) : Decidable (BootGuard s) := by
  unfold BootGuard
  exact match s.boot with
    | .read _ | .diverged _ | .inserting _ _ => inferInstance
    | .idle | .embedding _ _ | .finished _ => inferInstanceAs (Decidable True)

instance (s : Online ε k) : Decidable (ReconcileGuard s) := by
  unfold ReconcileGuard
  exact match s.reconcile with
    | .inserting _ (_ :: _) _ _ | .inserting _ [] _ _ => inferInstance
    | .idle | .paging _ _ | .read _ _ _ => inferInstanceAs (Decidable True)

variable (cfg : EmbedConfig) (outcome : Fin k → Nat → BatchOutcome ε)

/-- What holds before a step that loses no chunk and brings none back. -/
def OnlineGuard (s : Online ε k) : OnlineMove k → Prop
  | .boot => BootGuard s
  | .reconcile _ => s.boot.decided = true → ReconcileGuard s
  | .stream j => s.boot.decided = true →
    ∀ x ∈ (s.streams j).awaited cfg,
      TaskKept (s.pop j x.2.2) x.1 x.2.1 (outcome j (s.streams j).drained)

instance (s : Online ε k) : ∀ m, Decidable (OnlineGuard cfg outcome s m)
  | .boot => inferInstanceAs (Decidable (BootGuard s))
  | .reconcile _ => inferInstanceAs (Decidable (_ → ReconcileGuard s))
  | .stream j => inferInstanceAs (Decidable (_ → ∀ x ∈ (s.streams j).awaited cfg, _))

end Holds

/-! ## One stream moves -/

section Moves

variable {ε : Type} {k : Nat} {s : Online ε k}

theorem Later.not_active {t t' : SeqTable Chunk} (h : Later t t') {i : Int}
    (hi : i ∉ activeIds t ∧ i ≤ t.seq) : i ∉ activeIds t' ∧ i ≤ t'.seq := by
  refine ⟨fun hm => ?_, Int.le_trans hi.2 h.seq⟩
  obtain ⟨r, hr, ha⟩ := mem_activeIds.mp hm
  obtain ⟨r', hr', -, -, -, hact⟩ := h.old (i, r) hr hi.2
  exact hi.1 (mem_activeIds.mpr ⟨r', hr', hact ha⟩)

section Update

variable (held : StreamWorker → List Int) {f : Fin k → StreamWorker} {j : Fin k} {w : StreamWorker}

/-- What some stream holds, after one of them moved. -/
theorem exists_update {i : Int} (h : ∃ j, i ∈ held (f j)) (hj : i ∈ held (f j) → i ∈ held w) :
    ∃ j', i ∈ held (Function.update f j w j') := by
  obtain ⟨j', hm⟩ := h
  refine ⟨j', ?_⟩
  by_cases he : j' = j
  · subst he
    rw [Function.update_self]
    exact hj hm
  · rw [Function.update_of_ne he]
    exact hm

theorem forall_update {Q : Int → Prop} (h : ∀ j, ∀ i ∈ held (f j), Q i) (hw : ∀ i ∈ held w, Q i) :
    ∀ j', ∀ i ∈ held (Function.update f j w j'), Q i := by
  intro j'
  by_cases he : j' = j
  · subst he
    rw [Function.update_self]
    exact hw
  · rw [Function.update_of_ne he]
    exact h j'

end Update

/-- The stores and one stream after a step of the stream. -/
def Online.put (s : Online ε k) (j : Fin k) (r : Stores ε × StreamWorker) : Online ε k :=
  { s with stores := r.1, streams := Function.update s.streams j r.2 }

/-- A stream touches rows only. -/
theorem Online.Safe.worker (h : s.Safe) {j : Fin k} {db : IndexDb} {w : StreamWorker}
    (hl : Later s.chunks db.chunks)
    (hserving : ∀ i ∈ (s.streams j).serving, i ∈ w.serving)
    (hactive : ∀ i ∈ activeIds db.chunks, i ∈ activeIds s.chunks ∨ i ∈ w.serving)
    (hpurging : ∀ i ∈ (s.streams j).purging, i ∈ w.purging)
    (hretired : ∀ i ∈ retiredIds db.chunks, i ∈ retiredIds s.chunks ∨ i ∈ w.purging)
    (hpurged : ∀ i ∈ w.purging, i ∉ activeIds db.chunks ∧ i ≤ db.chunks.seq)
    (hknown : ∀ i ∈ w.known, i ≤ db.chunks.seq) :
    (s.put j ({ s.stores with db := db }, w)).Safe where
  purging := by
    refine forall_update StreamWorker.purging (fun j' i hi => ?_) hpurged
    exact hl.not_active (h.purging j' i hi)
  known := by
    refine forall_update StreamWorker.known (fun j' i hi => ?_) hknown
    exact Int.le_trans (h.known j' i hi) hl.seq
  covered := by
    intro hd i hi
    rcases hactive i hi with hold | hnew
    · rcases h.covered hd i hold with hv | hp | hc | hs
      · exact .inl hv
      · exact .inr (.inl hp)
      · exact .inr (.inr (.inl hc))
      · exact .inr (.inr (.inr (exists_update StreamWorker.serving hs (hserving i))))
    · exact .inr (.inr (.inr ⟨j, by simpa [Online.put] using hnew⟩))
  clean := by
    intro hd i hi hv
    rcases hretired i hi with hold | hnew
    · exact exists_update StreamWorker.purging (h.clean hd i hold hv) (hpurging i)
    · exact ⟨j, by simpa [Online.put] using hnew⟩

/-- A stream purges the vectors of what it retired. -/
theorem Online.Safe.purge (h : s.Safe) {j : Fin k} {db : IndexDb} {w : StreamWorker}
    (hdb : db.chunks = s.chunks)
    (hserving : ∀ i ∈ (s.streams j).serving, i ∈ w.serving) (hpurging : w.purging = [])
    (hknown : ∀ i ∈ w.known, i ∈ (s.streams j).known) :
    (s.put j ({ s.stores with
      db := db, vectors := deleteChunkIds s.stores.vectors (s.streams j).purging }, w)).Safe where
  purging := by
    unfold Online.put Online.chunks
    dsimp only
    rw [hdb]
    exact forall_update StreamWorker.purging h.purging (by rw [hpurging]; simp)
  known := by
    unfold Online.put Online.chunks
    dsimp only
    rw [hdb]
    exact forall_update StreamWorker.known h.known (fun i hi => h.known j i (hknown i hi))
  covered := by
    intro hd i hi
    have hi : i ∈ activeIds s.chunks := by rw [← hdb]; exact hi
    rcases h.covered hd i hi with hv | hp | hc | hs
    · have hnot : i ∉ (s.streams j).purging := fun hm => (h.purging j i hm).1 hi
      exact .inl (mem_deleteChunkIds.mpr ⟨hv, hnot⟩)
    · exact .inr (.inl hp)
    · exact .inr (.inr (.inl hc))
    · exact .inr (.inr (.inr (exists_update StreamWorker.serving hs (hserving i))))
  clean := by
    intro hd i hi hv
    have hi : i ∈ retiredIds s.chunks := by rw [← hdb]; exact hi
    obtain ⟨hv, hnot⟩ := mem_deleteChunkIds.mp hv
    obtain ⟨j', hm⟩ := h.clean hd i hi hv
    exact exists_update StreamWorker.purging ⟨j', hm⟩ fun hm => absurd hm hnot

theorem TaskKept.of_ne {bid : Int} {t : EmbedTask} {o : BatchOutcome ε}
    (h : TaskKept s bid t o) (hne : o ≠ .panicked) : ∀ i ∈ t.ids,
    (i ∈ o.storedIds t → i ∈ retiredIds s.chunks → s.Purged i) ∧
    (i ∈ activeIds s.chunks →
      i ∈ s.stores.pendingVector ∨ inBuffer s.chunks bid i = true ∨
        ((i ∈ s.stores.vectors ∨ i ∈ o.storedIds t) ∧ i ∉ o.lostIds t) ∨
        i ∈ s.boot.coming ∨ ∃ j, i ∈ (s.streams j).serving) := by
  cases o with
  | panicked => exact absurd rfl hne
  | embedded embed => exact h
  | embedFailed => exact h
  | insertFailed embed stored removed => exact h

@[simp] theorem pop_self (s : Online ε k) (j : Fin k) (ts : List EmbedTask) :
    (s.pop j ts).streams j = { s.streams j with inFlight := ts } := Function.update_self ..

@[simp] theorem update_pop (s : Online ε k) (j : Fin k) (ts : List EmbedTask) (w : StreamWorker) :
    Function.update (s.pop j ts).streams j w = Function.update s.streams j w :=
  Function.update_idem ..

/-- A worker that waits for its tasks holds nothing else. -/
def StreamPhase.awaits : StreamPhase → Bool
  | .draining _ | .closing => true
  | _ => false

theorem serving_of_awaits {w : StreamWorker} (h : w.phase.awaits = true) :
    w.serving = w.inFlight.flatMap EmbedTask.ids := by
  unfold StreamWorker.serving
  cases hp : w.phase <;> simp_all [StreamPhase.awaits]

theorem purging_of_awaits {w : StreamWorker} (h : w.phase.awaits = true) : w.purging = [] := by
  unfold StreamWorker.purging
  cases hp : w.phase <;> simp_all [StreamPhase.awaits]

variable {outcome : Fin k → Nat → BatchOutcome ε}

/-- A task of a stream ends. -/
theorem Online.Safe.drain (h : s.Safe) {j : Fin k} {bid : Int} {t : EmbedTask}
    {ts : List EmbedTask} (hq : (s.streams j).inFlight = t :: ts)
    (hphase : (s.streams j).phase.awaits = true)
    (hg : s.boot.decided = true →
      TaskKept (s.pop j ts) bid t (outcome j (s.streams j).drained)) :
    (s.put j ((s.streams j).drain (outcome j) s.stores bid t ts)).Failed ∨
      (s.put j ((s.streams j).drain (outcome j) s.stores bid t ts)).Safe := by
  by_cases hpanic : outcome j (s.streams j).drained = .panicked
  · refine .inl (.inr ⟨j, ?_⟩)
    simp [Online.put, StreamWorker.drain, drainEmbedHandle, hpanic, StreamPhase.failed]
  refine .inr ?_
  unfold StreamWorker.drain
  dsimp only
  set v : VectorStream ε := ⟨s.stores.db, (s.streams j).loop, s.stores.pendingVector,
    s.stores.vectors, ts, (s.streams j).drained⟩ with hv
  obtain ⟨hok, hd⟩ : (drainEmbedHandle (outcome j) v bid t).2 = .ok () ∧
      Drained v bid t (outcome j (s.streams j).drained)
        (drainEmbedHandle (outcome j) v bid t).1 := drainEmbedHandle_drained rfl hpanic
  rw [hok]
  dsimp only
  set w : StreamWorker := { s.streams j with
    inFlight := ts, drained := (drainEmbedHandle (outcome j) v bid t).1.drained } with hw
  have hawait : w.phase.awaits = true := hphase
  have hserving := serving_of_awaits hphase
  have hserving' := serving_of_awaits hawait
  rw [hq, List.flatMap_cons] at hserving
  have hpop : ({ s.streams j with inFlight := ts } : StreamWorker).serving =
      ts.flatMap EmbedTask.ids := serving_of_awaits hphase
  have hpopped : ∀ i, (∃ j', i ∈ ((s.pop j ts).streams j').serving) →
      ∃ j', i ∈ (Function.update s.streams j w j').serving := by
    intro i hi
    rw [← update_pop s j ts w]
    refine exists_update StreamWorker.serving hi fun hm => ?_
    rw [pop_self, hpop] at hm
    rw [hserving']
    exact hm
  refine ⟨?_, ?_, fun hdec i hi => ?_, fun hdec i hi hmem => ?_⟩
  · refine forall_update StreamWorker.purging h.purging ?_
    rw [purging_of_awaits hawait]
    simp
  · exact forall_update StreamWorker.known h.known (h.known j)
  · have hkept := fun hid => ((hg hdec).of_ne hpanic i hid).2 hi
    by_cases hid : i ∈ t.ids
    · rcases hkept hid with hp | hb | hst | hc | hs
      · exact .inr (.inl (hd.pending i hp))
      · exact (hd.marked i hid hb).imp id .inl
      · exact .inl ((hd.vectors i).mpr hst)
      · exact .inr (.inr (.inl hc))
      · exact .inr (.inr (.inr (hpopped i hs)))
    · have hl : i ∉ (outcome j (s.streams j).drained).lostIds t :=
        fun hm => hid (lostIds_sub t _ i hm)
      rcases h.covered hdec i hi with hm | hp | hc | hs
      · exact .inl ((hd.vectors i).mpr ⟨.inl hm, hl⟩)
      · exact .inr (.inl (hd.pending i hp))
      · exact .inr (.inr (.inl hc))
      · refine .inr (.inr (.inr (exists_update StreamWorker.serving hs fun hm => ?_)))
        rw [hserving, List.mem_append] at hm
        rw [hserving']
        exact hm.resolve_left hid
  · have hpurged : s.Purged i := by
      rcases ((hd.vectors i).mp hmem).1 with hold | hst
      · exact h.clean hdec i hi hold
      · have hid : i ∈ t.ids := storedIds_sub t _ i hst
        obtain ⟨j', hm⟩ := ((hg hdec).of_ne hpanic i hid).1 hst hi
        have he : Function.update (s.pop j ts).streams j (s.streams j) = s.streams := by
          rw [update_pop, Function.update_eq_self]
        unfold Online.Purged
        rw [← he]
        refine exists_update StreamWorker.purging ⟨j', hm⟩ fun hm => ?_
        rw [pop_self] at hm
        exact hm
    exact exists_update StreamWorker.purging hpurged fun hm => hm

variable {ix : Indexer} {cfg : EmbedConfig}

/-- A stream that has nothing to purge moves without touching a row. -/
theorem Online.Safe.rest (h : s.Safe) {j : Fin k} {db : IndexDb} {w : StreamWorker}
    (hdb : db.chunks = s.chunks) (hserving : ∀ i ∈ (s.streams j).serving, i ∈ w.serving)
    (hpurg : (s.streams j).purging = []) (hpurging : w.purging = [])
    (hknown : ∀ i ∈ w.known, i ≤ s.chunks.seq) :
    (s.put j ({ s.stores with db := db }, w)).Safe := by
  refine h.worker ?_ hserving ?_ ?_ ?_ ?_ ?_
  · rw [hdb]
    exact .refl _
  · intro i hi
    exact .inl (by rw [← hdb]; exact hi)
  · intro i hi
    rw [hpurg] at hi
    cases hi
  · intro i hi
    exact .inl (by rw [← hdb]; exact hi)
  · intro i hi
    rw [hpurging] at hi
    cases hi
  · rw [hdb]
    exact hknown

theorem stepMsg_chunks {db db' : IndexDb} {st st' : LoopState} {m : IndexMsg}
    (hm : stepMsg ix db st m = .ok (db', st'))
    (hfile : ∀ path text, m = .file path (some text) → st.bufferId = none) :
    db'.chunks = db.chunks ∧ st'.snapshot = st.snapshot := by
  rcases stepMsg_cases hm with ⟨_, _, -, rfl, rfl⟩ | ⟨path, text, b, he, hb, -, -⟩ | ⟨-, rfl, rfl⟩
  · exact ⟨rfl, rfl⟩
  · rw [hfile path text he] at hb
    cases hb
  · exact ⟨rfl, rfl⟩

theorem phase0_snapshot_le {chunks : SeqTable Chunk} {bid : Int} {st : LoopState} {i : Int}
    (hst : st.snapshot = none)
    (hi : i ∈ ((phase0 ix chunks bid st).snapshot.getD []).map Prod.snd) :
    i ≤ chunks.seq := by
  simp only [phase0, hst, Option.getD_some, snapshotActiveChunks, List.map_reverse, List.map_map,
    List.mem_reverse, List.mem_map] at hi
  obtain ⟨x, hx, rfl⟩ := hi
  exact chunks.le_seq x (Table.mem_select.mp (ix.scan.mem_order.mp hx)).1

/-- A stream reads its next message. -/
theorem Online.Safe.read (h : s.Safe) {j : Fin k} (hp : (s.streams j).phase = .reading) :
    (s.put j ((s.streams j).read ix s.stores)).Failed ∨
      (s.put j ((s.streams j).read ix s.stores)).Safe := by
  have hserv : (s.streams j).serving = (s.streams j).inFlight.flatMap EmbedTask.ids := by
    unfold StreamWorker.serving
    rw [hp]
  have hpurg : (s.streams j).purging = [] := by
    unfold StreamWorker.purging
    rw [hp]
  have hknow : (s.streams j).known = ((s.streams j).loop.snapshot.getD []).map Prod.snd := by
    unfold StreamWorker.known
    rw [hp, List.append_nil]
  have hsnap : ∀ i ∈ ((s.streams j).loop.snapshot.getD []).map Prod.snd, i ≤ s.chunks.seq := by
    rw [← hknow]
    exact h.known j
  unfold StreamWorker.read
  split
  · refine .inr (h.rest rfl ?_ hpurg rfl ?_)
    · rw [hserv]
      exact fun i hi => hi
    · simpa [StreamWorker.known] using hsnap
  · rename_i m ms htodo
    split
    · rename_i hb hs
      refine .inr (h.rest rfl ?_ hpurg ?_ ?_)
      · simp [StreamWorker.serving, hp]
      · simp [StreamWorker.purging, hp]
      · intro i hi
        simp only [StreamWorker.known, hp, List.append_nil] at hi
        exact phase0_snapshot_le hs hi
    · dsimp only
      split
      · refine .inr (h.rest rfl ?_ hpurg rfl ?_)
        · rw [hserv]
          exact fun i hi => hi
        · simpa [StreamWorker.known] using hsnap
      · refine .inr (h.rest rfl ?_ hpurg rfl ?_)
        · rw [hserv]
          exact fun i hi => hi
        · simpa [StreamWorker.known] using hsnap
    · rename_i hfirst hnext
      split
      · refine .inl (.inr ⟨j, ?_⟩)
        simp [Online.put, StreamPhase.failed]
      · rename_i db loop hm
        obtain ⟨hdb, hsame⟩ := stepMsg_chunks hm fun path text he => by
          subst he
          cases hb : (s.streams j).loop.bufferId with
          | none => rfl
          | some bid =>
            cases hs : (s.streams j).loop.snapshot with
            | none => exact (hfirst _ _ _ rfl hb hs).elim
            | some snap => exact (hnext _ _ _ _ rfl hb hs).elim
        refine .inr (h.rest hdb ?_ hpurg ?_ ?_)
        · simp [StreamWorker.serving, hp]
        · simp [StreamWorker.purging, hp]
        · simpa [StreamWorker.known, hp, hsame] using hsnap

/-- A group of a file is committed. -/
theorem Online.Safe.group (h : s.Safe) {j : Fin k} {bid : Int} {count : Nat}
    {group : List (String × IndexedChunk)} {groups : List (List (String × IndexedChunk))}
    {res : BatchedInsert} (hp : (s.streams j).phase = .inserting bid count (group :: groups) res) :
    (s.put j ((s.streams j).step ix cfg (outcome j) s.stores)).Safe := by
  unfold StreamWorker.step
  rw [hp]
  dsimp only
  set snap := (s.streams j).loop.snapshot.getD []
  have hstart : Reports s.chunks (s.chunks, res) := by
    refine ⟨fun x hx ha => .inl ⟨x.2, hx, ha⟩, fun x hx ha => .inl ⟨x.2, hx, ha⟩, ?_⟩
    intro i hi
    have hm : i ∈ (s.streams j).purging := by
      unfold StreamWorker.purging
      rw [hp]
      exact hi
    obtain ⟨hnot, hle⟩ := h.purging j i hm
    refine ⟨hle, fun r hr => ?_⟩
    cases ha : r.isActive with
    | false => rfl
    | true => exact absurd (mem_activeIds.mpr ⟨r, hr, ha⟩) hnot
  have hr := persistAll_reports ix.scan bid snap hstart group
  have hl : Later s.chunks _ := persistAll_later ix.scan bid snap (s.chunks, res) group
  obtain ⟨hpersisted, hretired⟩ := persistAll_grows ix.scan bid snap (s.chunks, res) group
  change Later s.chunks (group.foldl (persistChunk ix.scan bid snap) (s.chunks, res)).1 at hl
  change Reports s.chunks (group.foldl (persistChunk ix.scan bid snap) (s.chunks, res)) at hr
  change _ <+: (group.foldl (persistChunk ix.scan bid snap) (s.chunks, res)).2.persisted
    at hpersisted
  change _ <+: (group.foldl (persistChunk ix.scan bid snap) (s.chunks, res)).2.retiredIds
    at hretired
  generalize group.foldl (persistChunk ix.scan bid snap) (s.chunks, res) = r at *
  have hserv : (s.streams j).serving =
      res.persisted.map Prod.fst ++ (s.streams j).inFlight.flatMap EmbedTask.ids := by
    unfold StreamWorker.serving
    rw [hp]
  have hpurg : (s.streams j).purging = res.retiredIds := by
    unfold StreamWorker.purging
    rw [hp]
  have hknow : (s.streams j).known = snap.map Prod.snd := by
    unfold StreamWorker.known
    rw [hp, List.append_nil]
  refine h.worker hl ?_ ?_ ?_ ?_ ?_ ?_
  · intro i hi
    rw [hserv] at hi
    exact List.mem_append.mpr
      ((List.mem_append.mp hi).imp (fun hm => (hpersisted.map _).subset hm) id)
  · intro i hi
    obtain ⟨row, hrow, ha⟩ := mem_activeIds.mp hi
    rcases hr.persisted (i, row) hrow ha with ⟨old, hold, ha⟩ | hnew
    · exact .inl (mem_activeIds.mpr ⟨old, hold, ha⟩)
    · exact .inr (List.mem_append_left _ hnew)
  · intro i hi
    rw [hpurg] at hi
    exact hretired.subset hi
  · intro i hi
    obtain ⟨row, hrow, ha⟩ := mem_retiredIds.mp hi
    rcases hr.inactive (i, row) hrow ha with ⟨old, hold, ha⟩ | hnew
    · exact .inl (mem_retiredIds.mpr ⟨old, hold, ha⟩)
    · exact .inr hnew
  · intro i hi
    obtain ⟨hle, hrow⟩ := hr.retired i hi
    refine ⟨fun hm => ?_, hle⟩
    obtain ⟨row, hmem, ha⟩ := mem_activeIds.mp hm
    rw [hrow row hmem] at ha
    cases ha
  · intro i hi
    refine Int.le_trans (h.known j i ?_) hl.seq
    rw [hknow]
    simpa [StreamWorker.known] using hi

/-- The vectors of a file's retired chunks are purged and its batches spawned. -/
theorem Online.Safe.spawn (h : s.Safe) {j : Fin k} {bid : Int} {count : Nat} {res : BatchedInsert}
    (hp : (s.streams j).phase = .inserting bid count [] res) :
    (s.put j ((s.streams j).step ix cfg (outcome j) s.stores)).Safe := by
  unfold StreamWorker.step
  rw [hp]
  dsimp only
  have hpurg : (s.streams j).purging = res.retiredIds := by
    unfold StreamWorker.purging
    rw [hp]
  rw [← hpurg]
  refine h.purge rfl ?_ rfl ?_
  · intro i hi
    unfold StreamWorker.serving at hi ⊢
    rw [hp] at hi
    dsimp only at hi ⊢
    rw [List.flatMap_append]
    rcases List.mem_append.mp hi with hm | hm
    · obtain ⟨t, ht, hid⟩ : ∃ t ∈ spawnEmbeds cfg bid res.persisted, i ∈ t.ids :=
        flying_spawned hm
      exact List.mem_append_left _ (List.mem_flatMap.mpr ⟨t, ht, hid⟩)
    · exact List.mem_append_right _ hm
  · intro i hi
    unfold StreamWorker.known at hi ⊢
    rw [hp]
    exact hi

/-- One orphan is retired. -/
theorem Online.Safe.retire (h : s.Safe) {j : Fin k} {retired left : List Int} {i : Int}
    (hp : (s.streams j).phase = .retiring retired (i :: left)) :
    (s.put j ((s.streams j).step ix cfg (outcome j) s.stores)).Safe := by
  unfold StreamWorker.step
  rw [hp]
  dsimp only
  have hserv : (s.streams j).serving = [] := by
    unfold StreamWorker.serving
    rw [hp]
  have hpurg : (s.streams j).purging = retired := by
    unfold StreamWorker.purging
    rw [hp]
  have hknown : ∀ x ∈ i :: left, x ≤ s.chunks.seq := by
    intro x hx
    refine h.known j x ?_
    unfold StreamWorker.known
    rw [hp]
    exact List.mem_append_right _ hx
  have hl : Later s.chunks (retireChunk s.chunks i none) := .retireRow _ _ _
  refine h.worker hl ?_ ?_ ?_ ?_ ?_ ?_
  · intro x hx
    rw [hserv] at hx
    cases hx
  · intro x hx
    obtain ⟨row, hrow, ha⟩ := mem_activeIds.mp hx
    exact .inl (mem_activeIds.mpr ⟨row, (mem_retireRow hrow ha).1, ha⟩)
  · intro x hx
    rw [hpurg] at hx
    exact List.mem_append_left _ hx
  · intro x hx
    obtain ⟨row, hrow, ha⟩ := mem_retiredIds.mp hx
    obtain ⟨old, hold, he⟩ := SeqTable.mem_update.mp hrow
    by_cases hxi : x = i
    · exact .inr (List.mem_append_right _ (by simp [hxi]))
    · rw [if_neg (by simp [hxi])] at he
      subst he
      exact .inl (mem_retiredIds.mpr ⟨_, hold, ha⟩)
  · intro x hx
    rcases List.mem_append.mp hx with hold | hnew
    · exact hl.not_active (h.purging j x (by rw [hpurg]; exact hold))
    · rw [List.mem_singleton.mp hnew]
      refine ⟨fun hm => ?_, hknown i List.mem_cons_self⟩
      obtain ⟨row, hrow, ha⟩ := mem_activeIds.mp hm
      exact (mem_retireRow hrow ha).2 rfl
  · intro x hx
    rcases List.mem_append.mp hx with hsnap | hleft
    · exact h.known j x (List.mem_append_left _ hsnap)
    · exact hknown x (List.mem_cons_of_mem _ hleft)

theorem closeCounts_chunks (db : IndexDb) (st : LoopState) :
    (closeCounts db st).1.chunks = db.chunks := by
  unfold closeCounts
  split <;> rfl

/-- The vectors of the orphans are purged. -/
theorem Online.Safe.close (h : s.Safe) {j : Fin k} {retired : List Int}
    (hp : (s.streams j).phase = .retiring retired []) :
    (s.put j ((s.streams j).step ix cfg (outcome j) s.stores)).Safe := by
  unfold StreamWorker.step
  rw [hp]
  dsimp only
  have hserv : (s.streams j).serving = [] := by
    unfold StreamWorker.serving
    rw [hp]
  have hpurg : (s.streams j).purging = retired := by
    unfold StreamWorker.purging
    rw [hp]
  rw [← hpurg]
  refine h.purge (closeCounts_chunks _ _) ?_ rfl ?_
  · intro i hi
    rw [hserv] at hi
    cases hi
  · intro i hi
    unfold StreamWorker.known at hi ⊢
    rw [hp]
    exact hi

theorem orphanIds_sub {st : LoopState} {i : Int} (hi : i ∈ orphanIds st) :
    i ∈ (st.snapshot.getD []).map Prod.snd := by
  unfold orphanIds at hi
  cases hs : st.snapshot with
  | none => rw [hs] at hi; cases hi
  | some snap =>
    rw [hs] at hi
    obtain ⟨key, -, hlookup⟩ := List.mem_filterMap.mp hi
    obtain ⟨l₁, l₂, hl, -⟩ := List.lookup_eq_some_iff.mp hlookup
    rw [Option.getD_some, hl]
    simp

/-- One step of a stream. -/
theorem Online.Safe.stream (h : s.Safe) {j : Fin k}
    (hg : OnlineGuard cfg outcome s (.stream j)) :
    (s.put j ((s.streams j).step ix cfg (outcome j) s.stores)).Failed ∨
      (s.put j ((s.streams j).step ix cfg (outcome j) s.stores)).Safe := by
  have hsame : s.put j (s.stores, s.streams j) = s := by
    unfold Online.put
    rw [Function.update_eq_self]
  cases hp : (s.streams j).phase with
  | reading =>
    unfold StreamWorker.step
    rw [hp]
    exact h.read hp
  | inserting bid count groups res =>
    cases groups with
    | nil => exact .inr (h.spawn hp)
    | cons group groups => exact .inr (h.group hp)
  | draining bid =>
    have hawaits : (s.streams j).phase.awaits = true := by rw [hp]; rfl
    have hserv := serving_of_awaits hawaits
    have hpurg := purging_of_awaits hawaits
    have hidle : (s.put j (s.stores, { s.streams j with phase := .reading })).Safe := by
      refine h.rest rfl ?_ hpurg rfl ?_
      · rw [hserv]
        exact fun i hi => hi
      · intro i hi
        exact h.known j i (by simpa [StreamWorker.known, hp] using hi)
    unfold StreamWorker.step
    rw [hp]
    dsimp only
    split
    · rename_i t ts hq
      by_cases hcap : cfg.embedCap ≤ (s.streams j).inFlight.length
      · rw [if_pos hcap]
        refine h.drain hq hawaits fun hd => hg hd (bid, t, ts) ?_
        unfold StreamWorker.awaited
        rw [hp, hq]
        dsimp only
        rw [if_pos (by rw [← hq]; exact hcap)]
        rfl
      · rw [if_neg hcap]
        exact .inr hidle
    · exact .inr hidle
  | closing =>
    have hawaits : (s.streams j).phase.awaits = true := by rw [hp]; rfl
    have hserv := serving_of_awaits hawaits
    have hpurg := purging_of_awaits hawaits
    unfold StreamWorker.step
    rw [hp]
    dsimp only
    cases hq : (s.streams j).inFlight with
    | nil =>
      rw [hq] at hserv
      refine .inr (h.rest rfl ?_ hpurg rfl ?_)
      · rw [hserv]
        exact fun i hi => absurd hi List.not_mem_nil
      · intro i hi
        refine h.known j i ?_
        rcases List.mem_append.mp hi with hsnap | horphan
        · exact List.mem_append_left _ hsnap
        · exact List.mem_append_left _ (orphanIds_sub horphan)
    | cons t ts =>
      refine h.drain hq hawaits fun hd => hg hd ((s.streams j).loop.bufferId.getD 0, t, ts) ?_
      simp [StreamWorker.awaited, hp, hq]
  | retiring retired left =>
    cases left with
    | nil => exact .inr (h.close hp)
    | cons i left => exact .inr (h.retire hp)
  | ended res =>
    unfold StreamWorker.step
    rw [hp]
    dsimp only
    rw [hsame]
    exact .inr h

end Moves

/-! ## The background workers move -/

section Background

variable {ε : Type} {k : Nat} {s : Online ε k} {embedBatch : List String → Option (List ε)}
  {ix : Indexer}

/-- Vectors and marks change, rows and streams do not. -/
theorem Online.Safe.background (h : s.Safe) {vectors : VectorStore ε} {marked : List Int}
    {b : BootPhase ε} {r : ReconcilePhase ε}
    (hd : b.decided = true →
      (∀ i ∈ activeIds s.chunks, i ∈ vectors ∨ i ∈ marked ∨ i ∈ b.coming ∨
        ∃ j, i ∈ (s.streams j).serving) ∧
      ∀ i ∈ retiredIds s.chunks, i ∈ vectors → s.Purged i) :
    Online.Safe
      ⟨{ s.stores with pendingVector := marked, vectors := vectors }, b, r, s.streams⟩ where
  purging := h.purging
  known := h.known
  covered hdec := (hd hdec).1
  clean hdec := (hd hdec).2

theorem Online.Safe.boot (h : s.Safe)
    (hlen : ∀ texts vectors, embedBatch texts = some vectors → vectors.length = texts.length)
    (hg : BootGuard s) : Online.Failed { s with
        stores := (s.boot.step embedBatch ix s.stores).1
        boot := (s.boot.step embedBatch ix s.stores).2 } ∨
      Online.Safe { s with
        stores := (s.boot.step embedBatch ix s.stores).1
        boot := (s.boot.step embedBatch ix s.stores).2 } := by
  unfold BootGuard at hg
  have hkeep : s.boot.decided = true → ∀ b : BootPhase ε, b.coming = s.boot.coming →
      (∀ i ∈ activeIds s.chunks, i ∈ s.stores.vectors ∨ i ∈ s.stores.pendingVector ∨
        i ∈ b.coming ∨ ∃ j, i ∈ (s.streams j).serving) ∧
      ∀ i ∈ retiredIds s.chunks, i ∈ s.stores.vectors → s.Purged i := by
    intro hd b hb
    rw [hb]
    exact ⟨h.covered hd, h.clean hd⟩
  cases hb : s.boot with
  | idle => exact .inr (h.background nofun)
  | read inputs =>
    rw [hb] at hg
    dsimp only [BootPhase.step]
    by_cases hc : inputs.length = vectorCount s.stores.vectors
    · rw [if_pos hc]
      obtain ⟨hcov, hclean⟩ := hg hc
      refine .inr (h.background fun _ => ⟨fun i hi => ?_, hclean⟩)
      have := hcov i hi
      unfold Online.Served at this
      rw [hb] at this
      exact this
    · rw [if_neg hc]
      exact .inr (h.background nofun)
  | diverged inputs =>
    rw [hb] at hg
    dsimp only [BootPhase.step]
    refine .inr (h.background fun _ => ⟨fun i hi => ?_, fun i _ hm => ?_⟩)
    · rcases hg i hi with hin | hp | hs
      · refine .inr (.inr (.inl ?_))
        rw [BootPhase.coming, batches_flatten]
        exact hin
      · exact .inr (.inl hp)
      · exact .inr (.inr (.inr hs))
    · exact absurd hm (AList.notMem_empty i)
  | embedding entries left =>
    have hdec : s.boot.decided = true := by rw [hb]; rfl
    cases left with
    | nil =>
      refine .inr (h.background fun _ => hkeep hdec _ ?_)
      simp [hb, BootPhase.step, BootPhase.coming]
    | cons batch left =>
      dsimp only [BootPhase.step]
      cases he : embedBatch (batch.map fun x => x.2.2) with
      | none => exact .inl (.inl rfl)
      | some vectors =>
        refine .inr (h.background fun _ => hkeep hdec _ ?_)
        have hids := batchEntries_ids (by simpa using hlen _ _ he)
        simp [hb, BootPhase.coming, hids]
  | inserting entries ok =>
    have hdec : s.boot.decided = true := by rw [hb]; rfl
    rw [hb] at hg
    refine .inr (h.background fun _ => ⟨fun i hi => ?_, fun i hi hm => ?_⟩)
    · rcases h.covered hdec i hi with hm | hp | hc | hs
      · exact .inl (mem_insertVectors.mpr (.inl hm))
      · exact .inr (.inl hp)
      · rw [hb] at hc
        exact .inl (mem_insertVectors.mpr (.inr hc))
      · exact .inr (.inr (.inr hs))
    · rcases mem_insertVectors.mp hm with hold | hnew
      · exact h.clean hdec i hi hold
      · exact hg i hnew hi
  | finished ok =>
    have hdec : s.boot.decided = true := by rw [hb]; rfl
    exact .inr (h.background fun _ => hkeep hdec _ (by rw [hb]; rfl))

theorem Online.Safe.reconcile (h : s.Safe) {bufferId : Int}
    (hg : s.boot.decided = true → ReconcileGuard s) :
    Online.Safe { s with
      stores := (s.reconcile.step embedBatch ix s.stores bufferId).1
      reconcile := (s.reconcile.step embedBatch ix s.stores bufferId).2 } := by
  unfold ReconcileGuard at hg
  have hkeep : ∀ r : ReconcilePhase ε, Online.Safe { s with reconcile := r } :=
    fun r => h.background fun hd => ⟨h.covered hd, h.clean hd⟩
  cases hr : s.reconcile with
  | idle => exact hkeep _
  | paging bid left =>
    cases left with
    | nil => exact hkeep _
    | cons ids left => exact hkeep _
  | read bid inputs left =>
    dsimp only [ReconcilePhase.step]
    cases embedBatch (inputs.map fun x => x.2.2) with
    | none => exact hkeep _
    | some vectors => exact hkeep _
  | inserting bid entries inserted left =>
    rw [hr] at hg
    cases entries with
    | cons e entries =>
      refine h.background fun hd => ⟨fun i hi => ?_, fun i hi hm => ?_⟩
      · exact (h.covered hd i hi).imp (fun hm => mem_insertVectors.mpr (.inl hm)) id
      · rcases mem_insertVectors.mp hm with hold | hnew
        · exact h.clean hd i hi hold
        · have he : i = e.chunkId := by simpa using hnew
          subst he
          exact hg hd hi
    | nil =>
      refine h.background fun hd => ⟨fun i hi => ?_, h.clean hd⟩
      by_cases hc : i ∈ inserted ∧ inBuffer s.chunks bid i = true
      · rcases hg hd i hc.1 hi hc.2 with hm | hco | hs
        · exact .inl hm
        · exact .inr (.inr (.inl hco))
        · exact .inr (.inr (.inr hs))
      · rcases h.covered hd i hi with hm | hp | hrest
        · exact .inl hm
        · exact .inr (.inl (mem_clearChunksPendingVector.mpr ⟨hp, hc⟩))
        · exact .inr (.inr hrest)

end Background

/-! ## The server moves -/

section Server

variable {ε : Type} {k : Nat} {embedBatch : List String → Option (List ε)} {ix : Indexer}
  {cfg : EmbedConfig} {outcome : Fin k → Nat → BatchOutcome ε}

theorem ended_step {w : StreamWorker} {stores : Stores ε} {o : Nat → BatchOutcome ε}
    (h : w.phase.failed = true) : (w.step ix cfg o stores).2 = w := by
  unfold StreamWorker.step
  cases hp : w.phase <;> simp_all [StreamPhase.failed]

/-- What has failed stays so. -/
theorem Online.Failed.step {s : Online ε k} (h : s.Failed) (m : OnlineMove k) :
    (s.step embedBatch ix cfg outcome m).Failed := by
  rcases h with hb | ⟨j, hj⟩
  · cases m with
    | boot =>
      refine .inl ?_
      dsimp only [Online.step]
      cases hp : s.boot with
      | inserting entries ok => rw [hp] at hb; exact hb
      | finished ok => rw [hp] at hb; exact hb
      | idle => rw [hp] at hb; cases hb
      | read inputs => rw [hp] at hb; cases hb
      | diverged inputs => rw [hp] at hb; cases hb
      | embedding entries left => rw [hp] at hb; cases hb
    | reconcile bufferId => exact .inl hb
    | stream i => exact .inl hb
  · cases m with
    | boot => exact .inr ⟨j, hj⟩
    | reconcile bufferId => exact .inr ⟨j, hj⟩
    | stream i =>
      refine .inr ⟨j, ?_⟩
      dsimp only [Online.step]
      by_cases he : j = i
      · subst he
        rw [Function.update_self, ended_step hj]
        exact hj
      · rw [Function.update_of_ne he]
        exact hj

theorem step_safe {s : Online ε k} {m : OnlineMove k}
    (hlen : ∀ texts vectors, embedBatch texts = some vectors → vectors.length = texts.length)
    (h : s.Failed ∨ s.Safe) (hg : ¬ s.Failed → OnlineGuard cfg outcome s m) :
    (s.step embedBatch ix cfg outcome m).Failed ∨ (s.step embedBatch ix cfg outcome m).Safe := by
  by_cases hf : s.Failed
  · exact .inl (hf.step m)
  have hs := h.resolve_left hf
  have hg := hg hf
  cases m with
  | boot => exact hs.boot hlen hg
  | reconcile bufferId => exact .inr (hs.reconcile hg)
  | stream i => exact hs.stream hg

theorem start_safe (stores : Stores ε) (msgs : Fin k → List IndexMsg) :
    (Online.start stores msgs).Safe where
  purging j i hi := by cases hi
  known j i hi := by cases hi
  covered := nofun
  clean := nofun

/-- Every active chunk has a vector or a mark, and no retired chunk has a vector. -/
def Online.Rebuilt (s : Online ε k) : Prop :=
  (∀ i ∈ activeIds s.chunks, i ∈ s.stores.vectors ∨ i ∈ s.stores.pendingVector) ∧
    ∀ i ∈ retiredIds s.chunks, i ∉ s.stores.vectors

instance (s : Online ε k) : Decidable s.Rebuilt :=
  inferInstanceAs (Decidable ((∀ i ∈ activeIds s.chunks, _ ∨ _) ∧ ∀ i ∈ retiredIds s.chunks, _))

/-- With every writer through, nothing is under way. -/
theorem Online.Safe.finished {s : Online ε k} (h : s.Failed ∨ s.Safe) (hf : s.Finished) :
    s.Rebuilt := by
  obtain ⟨hboot, -, hstreams⟩ := hf
  have hended : ∀ j, (s.streams j).phase.failed = false ∧ (s.streams j).serving = [] ∧
      (s.streams j).purging = [] := by
    intro j
    have hj := hstreams j
    unfold StreamWorker.serving StreamWorker.purging
    cases hp : (s.streams j).phase with
    | ended res =>
      rw [hp] at hj
      cases res with
      | error e => cases hj
      | ok res => exact ⟨rfl, rfl, rfl⟩
    | reading | inserting _ _ _ _ | draining _ | closing | retiring _ _ =>
      rw [hp] at hj
      cases hj
  have hfin : s.boot = .finished true := by
    cases hb : s.boot with
    | finished ok =>
      rw [hb] at hboot
      exact congrArg BootPhase.finished hboot
    | idle | read _ | diverged _ | embedding _ _ | inserting _ _ => rw [hb] at hboot; cases hboot
  have hsafe : s.Safe := h.resolve_left (by
    rintro (hb | ⟨j, hj⟩)
    · rw [hfin] at hb
      cases hb
    · rw [(hended j).1] at hj
      cases hj)
  have hdec : s.boot.decided = true := by rw [hfin]; rfl
  refine ⟨fun i hi => ?_, fun i hi hm => ?_⟩
  · rcases hsafe.covered hdec i hi with hm | hp | hc | ⟨j, hj⟩
    · exact .inl hm
    · exact .inr hp
    · rw [hfin] at hc
      cases hc
    · rw [(hended j).2.1] at hj
      cases hj
  · obtain ⟨j, hj⟩ := hsafe.clean hdec i hi hm
    rw [(hended j).2.2] at hj
    cases hj

/-- Whatever the order of the steps, if each of them loses no chunk and brings none back, the
finished server has a vector or a mark for every active chunk and no vector of a retired one. -/
theorem online_rebuild
    (hlen : ∀ texts vectors, embedBatch texts = some vectors → vectors.length = texts.length)
    (stores : Stores ε) (msgs : Fin k → List IndexMsg) {moves : List (OnlineMove k)}
    (hsafe : Lts.Always (Online.step embedBatch ix cfg outcome) (.start stores msgs)
      (fun _ s m => ¬ s.Failed → OnlineGuard cfg outcome s m) moves) :
    let s := Lts.after (Online.step embedBatch ix cfg outcome) (.start stores msgs) moves
    s.Finished → s.Rebuilt := by
  have hinv := Lts.guarded_inv (I := fun _ (s : Online ε k) => s.Failed ∨ s.Safe)
    (.inr (start_safe stores msgs)) (fun _ _ _ hI hG => step_safe hlen hI hG) moves hsafe
  exact fun hf => Online.Safe.finished hinv hf

/-- A file that was indexed once; its vector is lost. -/
def lostVectors : Stores Nat :=
  ⟨(indexStreamLoop sampleIndexer IndexDb.empty
    [.init "p" "/p", .file "a.txt" (some "a")]).1, [], [], ∅⟩

def oneStream (_ : Fin 1) : List IndexMsg :=
  [.init "p" "/p", .file "a.txt" (some "a"), .file "b.txt" (some "b")]

/-- The rebuild, `done` of its steps before the stream. -/
def beforeAndAfter (done : Nat) : List (OnlineMove 1) :=
  List.replicate (6 - done) .boot ++ (List.replicate 15 (.stream 0) ++ List.replicate done .boot)

def embedSucceeds (_ : Fin 1) (_ : Nat) : BatchOutcome Nat := .embedded String.length

theorem online_rebuild_first :
    (Lts.after (Online.step embedLengths sampleIndexer embedConfig embedSucceeds)
      (.start lostVectors oneStream) (beforeAndAfter 6)).Rebuilt := by
  have hlen : ∀ texts vectors, embedLengths texts = some vectors →
      vectors.length = texts.length := by
    intro texts vectors h
    cases h
    exact List.length_map _
  exact online_rebuild hlen lostVectors oneStream (by decide +kernel) (by decide +kernel)

/-- The rebuild has read its inputs and the counts differ; a stream then adds a file, and the
clear that follows takes the vector of its chunk away for good. -/
theorem online_rebuild_overtaken :
    (Lts.after (Online.step embedLengths sampleIndexer embedConfig embedSucceeds)
      (.start lostVectors oneStream) (beforeAndAfter 2)).Finished ∧
    activeIds (Lts.after (Online.step embedLengths sampleIndexer embedConfig embedSucceeds)
      (.start lostVectors oneStream) (beforeAndAfter 2)).chunks = [1, 2] ∧
    (Lts.after (Online.step embedLengths sampleIndexer embedConfig embedSucceeds)
      (.start lostVectors oneStream) (beforeAndAfter 2)).stores.vectors.keys = [1] ∧
    ¬ (Lts.after (Online.step embedLengths sampleIndexer embedConfig embedSucceeds)
      (.start lostVectors oneStream) (beforeAndAfter 2)).Rebuilt := by
  decide +kernel

end Server

end Arags
