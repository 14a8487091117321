import Arags.Index.Stream
import Arags.Index.Vectors

/-!
# Arags.Index.Embeds

The index stream of `grpc/index.rs` with its vectors: each file's chunks are committed first and
embedded by tasks that are awaited later.

* `EmbedTask`, `BatchOutcome` — a spawned batch, and how it ends.
* `receive`  — one message: insert, purge the vectors of retired chunks, spawn, drain down to
  the cap.
* `stepEmbeds` — the handler as a system; a stream that fails aborts what is in flight.
-/

namespace Arags

open Sql

/-- Worker threads of the embed pool and texts per batch. -/
structure EmbedConfig where
  poolThreads : Nat
  batchSize : Nat

def EmbedConfig.embedCap (cfg : EmbedConfig) : Nat := max (cfg.poolThreads * 2) 4

/-- A spawned batch: the ids and the texts of the chunks. -/
structure EmbedTask where
  bufferId : Int
  items : List (Int × String)
  deriving DecidableEq, Repr

def EmbedTask.ids (t : EmbedTask) : List Int := t.items.map Prod.fst

/-- The end of a task and of the insert of its vectors. An insert that fails has `stored` of the
entries, and may have removed the vector of the one it failed at. -/
inductive BatchOutcome (ε : Type) where
  | embedded (embed : String → ε)
  | insertFailed (embed : String → ε) (stored : Nat) (removed : Bool)
  | embedFailed
  | panicked

/-- The entry at which an insert failed, when it lost its vector. -/
def EmbedTask.removedIds (t : EmbedTask) (stored : Nat) (removed : Bool) : List Int :=
  if removed then (t.ids.drop stored).take 1 else []

def EmbedTask.entries {ε : Type} (t : EmbedTask) (embed : String → ε) : List (VectorEntry ε) :=
  t.items.map fun x => ⟨x.1, t.bufferId, embed x.2⟩

/-- The database, the loop and the embed tasks in flight, newest first. -/
structure VectorStream (ε : Type) where
  db : IndexDb
  loop : LoopState
  pendingVector : List Int
  vectors : VectorStore ε
  inFlight : List EmbedTask
  drained : Nat

variable (ix : Indexer) (cfg : EmbedConfig) {ε : Type} (outcome : Nat → BatchOutcome ε)

/-! ## Draining -/

def drainEmbedHandle (s : VectorStream ε) (bufferId : Int) (t : EmbedTask) :
    VectorStream ε × Except String Unit :=
  let marked := markChunksPendingVector s.db.chunks s.pendingVector bufferId t.ids
  let s' := { s with drained := s.drained + 1 }
  match outcome s.drained with
  | .embedded embed => ({ s' with vectors := insertVectors s.vectors (t.entries embed) }, .ok ())
  | .insertFailed embed stored removed =>
    let vectors := insertVectors s.vectors ((t.entries embed).take stored)
    let vectors := deleteChunkIds vectors (t.removedIds stored removed)
    ({ s' with vectors := vectors, pendingVector := marked }, .ok ())
  | .embedFailed => ({ s' with pendingVector := marked }, .ok ())
  | .panicked => (s', .error "embedding task failed")

/-- Pop and await `k` tasks. -/
def drainTasks (bufferId : Int) : Nat → VectorStream ε → VectorStream ε × Except String Unit
  | 0, s => (s, .ok ())
  | k + 1, s =>
    match s.inFlight with
    | [] => (s, .ok ())
    | t :: ts =>
      match drainEmbedHandle outcome { s with inFlight := ts } bufferId t with
      | (s', .error e) => (s', .error e)
      | (s', .ok ()) => drainTasks bufferId k s'

/-! ## Messages -/

/-- The insert of a file, and the row ids it reports. -/
def fileInsert (chunks : SeqTable Chunk) (bufferId : Int) (relPath content : String)
    (st : LoopState) : SeqTable Chunk × BatchedInsert :=
  insertChunksBatched ix.scan chunks bufferId
    ((ix.chunksOf relPath content).map fun c => (relPath, c)) ix.maxBatchSize (st.snapshot.getD [])

theorem phase1_fileInsert (chunks : SeqTable Chunk) (bufferId : Int) (relPath content : String)
    (st : LoopState) :
    (phase1 ix chunks bufferId relPath content st).1 =
      (fileInsert ix chunks bufferId relPath content st).1 := by
  unfold phase1 fileInsert
  dsimp only
  split
  · rename_i h
    rw [List.isEmpty_iff.mp h]
    rfl
  · rfl

/-- The batches of a file, the last one spawned first. -/
def spawnEmbeds (bufferId : Int) (persisted : List (Int × String)) : List EmbedTask :=
  ((batches cfg.batchSize persisted).map fun items => ⟨bufferId, items⟩).reverse

/-- The state between the insert of a file and the drain that follows it. -/
def afterInsert (s : VectorStream ε) (db : IndexDb) (loop : LoopState) (bufferId : Int)
    (res : BatchedInsert) : VectorStream ε where
  db := db
  loop := loop
  pendingVector := s.pendingVector
  vectors := deleteChunkIds s.vectors res.retiredIds
  inFlight := spawnEmbeds cfg bufferId res.persisted ++ s.inFlight
  drained := s.drained

/-- `while embed_abort.0.len() >= embed_cap`: the number of tasks to drain. -/
def overCap (s : VectorStream ε) : Nat := s.inFlight.length + 1 - cfg.embedCap

/-- The state that a message leaves before anything is drained, and the buffer it is of when it
was a file. -/
def inserted (s : VectorStream ε) (db : IndexDb) (loop : LoopState) (m : IndexMsg) :
    VectorStream ε × Option Int :=
  match m, s.loop.bufferId with
  | .file relPath (some content), some bid =>
    let st := phase0 ix s.db.chunks bid s.loop
    let res := (fileInsert ix s.db.chunks bid relPath content st).2
    (afterInsert cfg s db loop bid res, some bid)
  | _, _ => ({ s with db := db, loop := loop }, none)

def receive (s : VectorStream ε) (m : IndexMsg) : VectorStream ε × Except String Unit :=
  match stepMsg ix s.db s.loop m with
  | .error e => (s, .error e)
  | .ok (db, loop) =>
    match inserted ix cfg s db loop m with
    | (s', some bid) => drainTasks outcome bid (overCap cfg s') s'
    | (s', none) => (s', .ok ())

/-- The ids that the orphan pass retires. -/
def orphanIds (st : LoopState) : List Int :=
  match st.snapshot with
  | none => []
  | some snap => st.remainingActive.filterMap fun k => snap.lookup k

/-- The last drain, the orphan pass and the counts. -/
def close (s : VectorStream ε) : VectorStream ε × Except String IndexResponse :=
  match drainTasks outcome (s.loop.bufferId.getD 0) s.inFlight.length s with
  | (s', .error e) => (s', .error e)
  | (s', .ok ()) =>
    let fin := finish s'.db s'.loop
    ({ s' with db := fin.1, vectors := deleteChunkIds s'.vectors (orphanIds s'.loop) }, fin.2)

/-! ## The stream as a system -/

/-- A stream that is still open, or what it answered. -/
abbrev StreamState (ε : Type) := VectorStream ε × Option (Except String IndexResponse)

/-- Whatever is in flight when the handler returns is aborted. -/
def stepEmbeds (s : StreamState ε) (input : Option IndexMsg) : StreamState ε :=
  match s.2, input with
  | some _, _ => s
  | none, some m =>
    match receive ix cfg outcome s.1 m with
    | (s', .ok ()) => (s', none)
    | (s', .error e) => ({ s' with inFlight := [] }, some (.error e))
  | none, none =>
    let fin := close outcome s.1
    ({ fin.1 with inFlight := [] }, some fin.2)

/-- A stream that has received nothing yet. -/
def VectorStream.start (db : IndexDb) (pendingVector : List Int) (vectors : VectorStore ε) :
    VectorStream ε :=
  ⟨db, .start, pendingVector, vectors, [], 0⟩

end Arags
