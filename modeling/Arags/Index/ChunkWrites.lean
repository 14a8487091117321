import Arags.Index.Stream

/-!
# Arags.Index.ChunkWrites

An index stream as the list of its writes to `chunks`, in the order in which they are made. The
tables that go along with `chunks` are maintained write by write.

* `ChunkWrite`, `writeChunk` — `insert_active_chunk` and `retire_row`.
* `streamWrites`        — the writes of a stream, those of a stream that fails included.
* `streamWrites_chunks` — made one after the other they give the chunks that the stream leaves.
-/

namespace Arags

open Sql

inductive ChunkWrite where
  | insert (bufferId : Int) (filePath : String) (c : IndexedChunk) (hashBytes : List UInt8)
      (version : Int)
  | retire (chunkId : Int) (supersededBy : Option Int)

def writeChunk (t : SeqTable Chunk) : ChunkWrite → SeqTable Chunk
  | .insert bufferId filePath c hashBytes version =>
    (insertActiveChunk t bufferId filePath c hashBytes version).1
  | .retire chunkId supersededBy => retireRow t chunkId supersededBy

/-! ## The writes of a file -/

section File

variable (scan : ScanOrder Chunk) (bufferId : Int) (active : Snapshot)

def persistWrites (t : SeqTable Chunk) (item : String × IndexedChunk) : List ChunkWrite :=
  let key := item.2.key item.1
  let hashBytes := item.2.hashBytes
  let existing := if active.has key then existingActiveRow scan t bufferId key else none
  match existing with
  | some (oldId, oldHash, oldVersion) =>
    if oldHash = hashBytes then []
    else [.insert bufferId item.1 item.2 hashBytes (oldVersion + 1),
      .retire oldId (some (t.seq + 1))]
  | none => [.insert bufferId item.1 item.2 hashBytes 1]

def persistAllWrites (t : SeqTable Chunk) : List (String × IndexedChunk) → List ChunkWrite
  | [] => []
  | item :: items =>
    let writes := persistWrites scan bufferId active t item
    writes ++ persistAllWrites (writes.foldl writeChunk t) items

theorem persistWrites_chunks (t : SeqTable Chunk) (res : BatchedInsert)
    (item : String × IndexedChunk) :
    (persistChunk scan bufferId active (t, res) item).1 =
      (persistWrites scan bufferId active t item).foldl writeChunk t := by
  obtain ⟨path, c⟩ := item
  unfold persistChunk persistWrites
  dsimp only
  generalize (if active.has (c.key path) then existingActiveRow scan t bufferId (c.key path)
    else none) = existing
  cases existing with
  | none => rfl
  | some old =>
    dsimp only
    split
    · rfl
    · rfl

theorem persistAllWrites_chunks (t : SeqTable Chunk) (res : BatchedInsert)
    (items : List (String × IndexedChunk)) :
    (items.foldl (persistChunk scan bufferId active) (t, res)).1 =
      (persistAllWrites scan bufferId active t items).foldl writeChunk t := by
  induction items generalizing t res with
  | nil => rfl
  | cons item items ih =>
    have hitem := persistWrites_chunks scan bufferId active t res item
    obtain ⟨t', res'⟩ := persistChunk scan bufferId active (t, res) item
    rw [List.foldl_cons, persistAllWrites, List.foldl_append, ih, ← hitem]

end File

/-! ## The writes of a stream -/

section Stream

variable (ix : Indexer)

def msgWrites (db : IndexDb) (st : LoopState) : IndexMsg → List ChunkWrite
  | .file relPath (some text) =>
    match st.bufferId with
    | none => []
    | some bid => persistAllWrites ix.scan bid ((phase0 ix db.chunks bid st).snapshot.getD [])
        db.chunks ((ix.chunksOf relPath text).map fun c => (relPath, c))
  | _ => []

def loopWrites (db : IndexDb) (st : LoopState) : List IndexMsg → List ChunkWrite
  | [] => []
  | m :: ms =>
    match stepMsg ix db st m with
    | .error _ => []
    | .ok (db', st') => msgWrites ix db st m ++ loopWrites db' st' ms

def orphanWrites (st : LoopState) : List ChunkWrite :=
  match st.snapshot with
  | none => []
  | some snap => (st.remainingActive.filterMap fun k => snap.lookup k).map fun id =>
      .retire id none

def streamWrites (db : IndexDb) (msgs : List IndexMsg) : List ChunkWrite :=
  loopWrites ix db .start msgs ++
    match (runLoop ix db .start msgs).2 with
    | .ok st => orphanWrites st
    | .error _ => []

theorem phase1_chunks (chunks : SeqTable Chunk) (bufferId : Int) (relPath content : String)
    (st : LoopState) : (phase1 ix chunks bufferId relPath content st).1 =
      (persistAllWrites ix.scan bufferId (st.snapshot.getD []) chunks
        ((ix.chunksOf relPath content).map fun c => (relPath, c))).foldl writeChunk chunks := by
  unfold phase1
  dsimp only
  split
  · rename_i hempty
    rw [List.isEmpty_iff] at hempty
    rw [hempty]
    rfl
  · rw [insertChunksBatched_eq]
    exact persistAllWrites_chunks ..

theorem msgWrites_chunks {db db' : IndexDb} {st st' : LoopState} {m : IndexMsg}
    (h : stepMsg ix db st m = .ok (db', st')) :
    db'.chunks = (msgWrites ix db st m).foldl writeChunk db.chunks := by
  rcases stepMsg_cases h with ⟨_, _, rfl, rfl, -⟩ | ⟨path, text, b, rfl, hb, rfl, -⟩ | ⟨rfl, rfl, -⟩
  · rfl
  · simp only [msgWrites, hb]
    exact phase1_chunks ..
  · rfl

theorem loopWrites_chunks (db : IndexDb) (st : LoopState) (msgs : List IndexMsg) :
    (runLoop ix db st msgs).1.chunks = (loopWrites ix db st msgs).foldl writeChunk db.chunks := by
  induction msgs generalizing db st with
  | nil => rfl
  | cons m msgs ih =>
    unfold runLoop loopWrites
    cases h : stepMsg ix db st m with
    | error e => rfl
    | ok next =>
      obtain ⟨db', st'⟩ := next
      dsimp only
      rw [ih, List.foldl_append, msgWrites_chunks ix h]

theorem orphanWrites_chunks (chunks : SeqTable Chunk) (st : LoopState) :
    orphanPass chunks st = (orphanWrites st).foldl writeChunk chunks := by
  unfold orphanPass orphanWrites
  cases st.snapshot with
  | none => rfl
  | some snap =>
    dsimp only
    rw [List.foldl_map]
    rfl

theorem streamWrites_chunks (db : IndexDb) (msgs : List IndexMsg) :
    (indexStreamLoop ix db msgs).1.chunks =
      (streamWrites ix db msgs).foldl writeChunk db.chunks := by
  have hloop := loopWrites_chunks ix db .start msgs
  unfold indexStreamLoop streamWrites
  rw [List.foldl_append, ← hloop]
  obtain ⟨db', e | st⟩ := runLoop ix db .start msgs
  · rfl
  · dsimp only
    rw [← orphanWrites_chunks]
    unfold finish
    dsimp only
    split <;> rfl

end Stream

end Arags
