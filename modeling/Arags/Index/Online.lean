import Arags.Index.Bootstrap
import Arags.Index.Embeds
import Arags.Index.Streams

/-!
# Arags.Index.Online

The three writers of the chunk vector space on a server that is up: the bootstrap rebuild, the
reconcile tick and the index streams. Each is cut at its awaits, so a state of a writer is what
it holds between two accesses to the stores.

* `BootPhase`, `ReconcilePhase`, `StreamWorker` — what each of them holds.
* `BootPhase.step`, `ReconcilePhase.step`, `StreamWorker.step` — its next access.
* `Online.step` — one writer moves.
-/

namespace Arags

open Sql

def RECONCILE_BATCH : Nat := 512

/-- `(chunk_id, buffer_id, content)`. -/
abbrev EmbedInput := Int × Int × String

/-- The two stores. -/
structure Stores (ε : Type) where
  db : IndexDb
  textless : List Int
  pendingVector : List Int
  vectors : VectorStore ε

def Stores.chunkStore {ε : Type} (s : Stores ε) : ChunkStore :=
  ⟨s.db.chunks, s.textless, s.pendingVector⟩

section Writers

variable {ε : Type} (embedBatch : List String → Option (List ε)) (ix : Indexer)

/-! ## Bootstrap -/

inductive BootPhase (ε : Type) where
  | idle
  | read (inputs : List EmbedInput)
  | diverged (inputs : List EmbedInput)
  | embedding (entries : List (VectorEntry ε)) (left : List (List EmbedInput))
  | inserting (entries : List (VectorEntry ε)) (ok : Bool)
  | finished (ok : Bool)

def BootPhase.step (s : Stores ε) : BootPhase ε → Stores ε × BootPhase ε
  | .idle => (s, .read (allChunkEmbedInputs ix.scan s.chunkStore))
  | .read inputs =>
    if inputs.length = vectorCount s.vectors then (s, .finished true) else (s, .diverged inputs)
  | .diverged inputs => ({ s with vectors := ∅ }, .embedding [] (batches BOOTSTRAP_BATCH inputs))
  | .embedding entries [] => (s, .inserting entries true)
  | .embedding entries (batch :: left) =>
    match embedBatch (batch.map fun x => x.2.2) with
    | none => (s, .inserting entries false)
    | some vectors => (s, .embedding (entries ++ batchEntries batch vectors) left)
  | .inserting entries ok => ({ s with vectors := insertVectors s.vectors entries }, .finished ok)
  | .finished ok => (s, .finished ok)

/-! ## Reconcile -/

/-- A pass over the pending ids of a buffer; `inserted` are the ids that it will unmark. -/
inductive ReconcilePhase (ε : Type) where
  | idle
  | paging (bufferId : Int) (left : List (List Int))
  | read (bufferId : Int) (inputs : List EmbedInput) (left : List (List Int))
  | inserting (bufferId : Int) (entries : List (VectorEntry ε)) (inserted : List Int)
      (left : List (List Int))

/-- `bufferId` is the buffer of the pass that an idle worker starts. -/
def ReconcilePhase.step (s : Stores ε) (bufferId : Int) :
    ReconcilePhase ε → Stores ε × ReconcilePhase ε
  | .idle =>
    let pending := chunksPendingVector ix.scan s.chunkStore bufferId
    (s, .paging bufferId (batches RECONCILE_BATCH pending))
  | .paging _ [] => (s, .idle)
  | .paging bid (ids :: left) => (s, .read bid (getChunkEmbedInputs ix.scan s.chunkStore ids) left)
  | .read bid inputs left =>
    match embedBatch (inputs.map fun x => x.2.2) with
    | none => (s, .paging bid left)
    | some vectors => (s, .inserting bid (batchEntries inputs vectors) [] left)
  | .inserting bid (e :: entries) inserted left =>
    ({ s with vectors := insertVectors s.vectors [e] },
      .inserting bid entries (inserted ++ [e.chunkId]) left)
  | .inserting bid [] inserted left =>
    let marked := clearChunksPendingVector s.db.chunks s.pendingVector bid inserted
    ({ s with pendingVector := marked }, .paging bid left)

/-! ## Index streams -/

/-- `inserting` has the groups of a file that are not committed, `retiring` the orphans. -/
inductive StreamPhase where
  | reading
  | inserting (bufferId : Int) (chunkCount : Nat) (groups : List (List (String × IndexedChunk)))
      (res : BatchedInsert)
  | draining (bufferId : Int)
  | closing
  | retiring (retired left : List Int)
  | ended (response : Except String IndexResponse)

structure StreamWorker where
  todo : List IndexMsg
  loop : LoopState
  inFlight : List EmbedTask
  drained : Nat
  phase : StreamPhase

def StreamWorker.start (msgs : List IndexMsg) : StreamWorker := ⟨msgs, .start, [], 0, .reading⟩

variable (cfg : EmbedConfig) (outcome : Nat → BatchOutcome ε)

/-- The counters after the last group of a file. -/
def LoopState.counted (st : LoopState) (chunkCount : Nat) (res : BatchedInsert) : LoopState :=
  { st with
    distinctFiles := st.distinctFiles + 1
    totalChunks := st.totalChunks + chunkCount
    persistedAll := st.persistedAll ++ res.persisted
    remainingActive := st.remainingActive.filter fun k => !res.handledKeys.contains k
    totalInserted := st.totalInserted + res.inserted
    totalRetired := st.totalRetired + res.retiredIds.length }

/-- The next message: the snapshot before the first file is an access of its own. -/
def StreamWorker.read (s : Stores ε) (w : StreamWorker) : Stores ε × StreamWorker :=
  match w.todo with
  | [] => (s, { w with phase := .closing })
  | m :: ms =>
    match m, w.loop.bufferId, w.loop.snapshot with
    | .file _ _, some bid, none => (s, { w with loop := phase0 ix s.db.chunks bid w.loop })
    | .file relPath (some content), some bid, some _ =>
      let chunkList := ix.chunksOf relPath content
      let groups := batches ix.maxBatchSize (chunkList.map fun c => (relPath, c))
      let next := if chunkList.isEmpty then .reading
        else .inserting bid chunkList.length groups .empty
      (s, { w with todo := ms, phase := next })
    | m, _, _ =>
      match stepMsg ix s.db w.loop m with
      | .error e => (s, { w with inFlight := [], phase := .ended (.error e) })
      | .ok (db, loop) => ({ s with db := db }, { w with todo := ms, loop := loop })

/-- Pop a task and await it. -/
def StreamWorker.drain (s : Stores ε) (w : StreamWorker) (bufferId : Int) (t : EmbedTask)
    (ts : List EmbedTask) : Stores ε × StreamWorker :=
  let v : VectorStream ε := ⟨s.db, w.loop, s.pendingVector, s.vectors, ts, w.drained⟩
  let r := drainEmbedHandle outcome v bufferId t
  let s' := { s with pendingVector := r.1.pendingVector, vectors := r.1.vectors }
  match r.2 with
  | .error e => (s', { w with inFlight := [], phase := .ended (.error e) })
  | .ok () => (s', { w with inFlight := ts, drained := r.1.drained })

/-- The counts of the buffer and the answer. -/
def closeCounts (db : IndexDb) (st : LoopState) : IndexDb × Except String IndexResponse :=
  match st.project, st.bufferId with
  | some _, some bid =>
    let buffers := incrementBufferCounts db.buffers bid st.netChunks st.netFiles
    ({ db with buffers := buffers }, .ok ⟨st.distinctFiles, st.totalChunks⟩)
  | none, _ => (db, .error "index stream did not send an init message")
  | some _, none => (db, .error "index stream missing init")

def StreamWorker.step (s : Stores ε) (w : StreamWorker) : Stores ε × StreamWorker :=
  match w.phase with
  | .reading => w.read ix s
  | .inserting bid count (group :: groups) res =>
    let r := group.foldl (persistChunk ix.scan bid (w.loop.snapshot.getD [])) (s.db.chunks, res)
    ({ s with db := { s.db with chunks := r.1 } },
      { w with phase := .inserting bid count groups r.2 })
  | .inserting bid count [] res =>
    ({ s with vectors := deleteChunkIds s.vectors res.retiredIds },
      { w with
        loop := w.loop.counted count res
        inFlight := spawnEmbeds cfg bid res.persisted ++ w.inFlight
        phase := .draining bid })
  | .draining bid =>
    match w.inFlight with
    | t :: ts =>
      if cfg.embedCap ≤ w.inFlight.length then w.drain outcome s bid t ts
      else (s, { w with phase := .reading })
    | [] => (s, { w with phase := .reading })
  | .closing =>
    match w.inFlight with
    | t :: ts => w.drain outcome s (w.loop.bufferId.getD 0) t ts
    | [] => (s, { w with phase := .retiring [] (orphanIds w.loop) })
  | .retiring retired (i :: left) =>
    ({ s with db := { s.db with chunks := retireChunk s.db.chunks i none } },
      { w with phase := .retiring (retired ++ [i]) left })
  | .retiring retired [] =>
    let r := closeCounts s.db w.loop
    ({ s with db := r.1, vectors := deleteChunkIds s.vectors retired },
      { w with phase := .ended r.2 })
  | .ended _ => (s, w)

end Writers

/-! ## The server -/

/-- The stores and `k` streams beside the two background workers. -/
structure Online (ε : Type) (k : Nat) where
  stores : Stores ε
  boot : BootPhase ε
  reconcile : ReconcilePhase ε
  streams : Fin k → StreamWorker

inductive OnlineMove (k : Nat) where
  | boot
  | reconcile (bufferId : Int)
  | stream (i : Fin k)
  deriving DecidableEq, Repr

section System

variable {ε : Type} {k : Nat} (embedBatch : List String → Option (List ε)) (ix : Indexer)
variable (cfg : EmbedConfig) (outcome : Fin k → Nat → BatchOutcome ε)

def Online.step (s : Online ε k) : OnlineMove k → Online ε k
  | .boot =>
    let r := s.boot.step embedBatch ix s.stores
    { s with stores := r.1, boot := r.2 }
  | .reconcile bufferId =>
    let r := s.reconcile.step embedBatch ix s.stores bufferId
    { s with stores := r.1, reconcile := r.2 }
  | .stream i =>
    let r := (s.streams i).step ix cfg (outcome i) s.stores
    { s with stores := r.1, streams := Function.update s.streams i r.2 }

/-- A server that has just come up over the stores it found. -/
def Online.start (stores : Stores ε) (msgs : Fin k → List IndexMsg) : Online ε k :=
  ⟨stores, .idle, .idle, fun i => .start (msgs i)⟩

def BootPhase.done : BootPhase ε → Bool
  | .finished ok => ok
  | _ => false

def ReconcilePhase.done : ReconcilePhase ε → Bool
  | .idle => true
  | _ => false

def StreamPhase.done : StreamPhase → Bool
  | .ended (.ok _) => true
  | _ => false

/-- Every writer is through, and none of them failed. -/
def Online.Finished (s : Online ε k) : Prop :=
  s.boot.done = true ∧ s.reconcile.done = true ∧ ∀ i, (s.streams i).phase.done = true

instance (s : Online ε k) : Decidable s.Finished :=
  inferInstanceAs (Decidable (_ ∧ _ ∧ ∀ i, (s.streams i).phase.done = true))

end System

end Arags
