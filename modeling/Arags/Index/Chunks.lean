import Arags.Index.Chunker
import Arags.Lib.Table

/-!
# Arags.Index.Chunks

The versioned table `chunks` of `store/chunks.rs`. A chunk is never rewritten: a new version is a
new row, and the row it replaces is retired.

* `snapshotActiveChunks`, `insertChunksBatched`, `retireChunk` — the three statements an index
  stream works with.
* `batches` — the groups an insert commits one by one; `insertChunksBatched_eq` says that when
  all of them are committed the grouping leaves no trace.
-/

namespace Arags

open Sql

/-- `(file_path, line_start, line_end)`. -/
abbrev ChunkKey := String × Int × Int

/-- A row of `chunks` with its text of `chunk_texts`. -/
structure Chunk where
  bufferId : Int
  filePath : String
  lineStart : Int
  lineEnd : Int
  hash : List UInt8
  language : Option String
  chunkType : String
  content : String
  version : Int
  isActive : Bool
  supersededBy : Option Int
  deriving DecidableEq, Repr

def Chunk.key (r : Chunk) : ChunkKey := (r.filePath, r.lineStart, r.lineEnd)

/-- `buffer_id = ?1 AND file_path = ?2 AND line_start = ?3 AND line_end = ?4 AND is_active = 1`. -/
def Chunk.isAt (r : Chunk) (bufferId : Int) (key : ChunkKey) : Bool :=
  r.bufferId == bufferId && r.key == key && r.isActive

def IndexedChunk.key (c : IndexedChunk) (filePath : String) : ChunkKey :=
  (filePath, c.lineStart, c.lineEnd)

/-- `hex::decode(&c.hash).unwrap_or_default()`. -/
def IndexedChunk.hashBytes (c : IndexedChunk) : List UInt8 := (hexDecode c.hash).getD []

/-! ## Statements -/

/-- Row id, hash and version of an active row at the key. -/
def existingActiveRow (scan : ScanOrder Chunk) (t : SeqTable Chunk) (bufferId : Int)
    (key : ChunkKey) : Option (Int × List UInt8 × Int) :=
  (scan.order (t.select fun _ r => r.isAt bufferId key)).head?.map
    fun x => (x.1, x.2.hash, x.2.version)

/-- The row a chunk is inserted as. -/
def IndexedChunk.row (c : IndexedChunk) (bufferId : Int) (filePath : String)
    (hashBytes : List UInt8) (version : Int) : Chunk where
  bufferId := bufferId
  filePath := filePath
  lineStart := c.lineStart
  lineEnd := c.lineEnd
  hash := hashBytes
  language := c.language
  chunkType := c.chunkType
  content := c.content
  version := version
  isActive := true
  supersededBy := none

def insertActiveChunk (t : SeqTable Chunk) (bufferId : Int) (filePath : String)
    (c : IndexedChunk) (hashBytes : List UInt8) (version : Int) : SeqTable Chunk × Int :=
  (t.insert (c.row bufferId filePath hashBytes version), t.seq + 1)

def retireRow (t : SeqTable Chunk) (chunkId : Int) (supersededBy : Option Int) : SeqTable Chunk :=
  t.update (fun i r => i == chunkId && r.isActive)
    fun _ r => { r with isActive := false, supersededBy := supersededBy }

def retireChunk (t : SeqTable Chunk) (chunkId : Int) (supersededBy : Option Int) :
    SeqTable Chunk :=
  retireRow t chunkId supersededBy

/-- The active keys of a buffer at one moment, with a row id each. -/
abbrev Snapshot := List (ChunkKey × Int)

def Snapshot.has (s : Snapshot) (key : ChunkKey) : Bool := (s.lookup key).isSome

/-- Later rows overwrite earlier ones in the map, so they stand first. -/
def snapshotActiveChunks (scan : ScanOrder Chunk) (t : SeqTable Chunk) (bufferId : Int) :
    Snapshot :=
  ((scan.order (t.select fun _ r => r.bufferId == bufferId && r.isActive)).map
    fun x => (x.2.key, x.1)).reverse

structure BatchedInsert where
  persisted : List (Int × String)
  handledKeys : List ChunkKey
  retiredIds : List Int
  inserted : Nat
  deriving DecidableEq, Repr

def BatchedInsert.empty : BatchedInsert := ⟨[], [], [], 0⟩

/-- The body of the insert loop for one chunk. -/
def persistChunk (scan : ScanOrder Chunk) (bufferId : Int) (active : Snapshot)
    (acc : SeqTable Chunk × BatchedInsert) (item : String × IndexedChunk) :
    SeqTable Chunk × BatchedInsert :=
  let (t, res) := acc
  let (filePath, c) := item
  let key := c.key filePath
  let hashBytes := c.hashBytes
  -- the live row is only looked for when the snapshot has the key
  let existing := if active.has key then existingActiveRow scan t bufferId key else none
  match existing with
  | some (oldId, oldHash, oldVersion) =>
    if oldHash = hashBytes then
      (t, { res with
        persisted := res.persisted ++ [(oldId, c.content)]
        handledKeys := res.handledKeys ++ [key] })
    else
      let (t', newId) := insertActiveChunk t bufferId filePath c hashBytes (oldVersion + 1)
      (retireRow t' oldId (some newId), {
        persisted := res.persisted ++ [(newId, c.content)]
        handledKeys := res.handledKeys ++ [key]
        retiredIds := res.retiredIds ++ [oldId]
        inserted := res.inserted + 1 })
  | none =>
    let (t', newId) := insertActiveChunk t bufferId filePath c hashBytes 1
    (t', { res with
      persisted := res.persisted ++ [(newId, c.content)]
      handledKeys := if active.has key then res.handledKeys ++ [key] else res.handledKeys
      inserted := res.inserted + 1 })

/-- The rest of a group with `k` free places, and the groups of `m + 1` after it. -/
def fillBatch {α : Type} (m : Nat) : List α → Nat → List α × List (List α)
  | [], _ => ([], [])
  | x :: xs, 0 =>
    let r := fillBatch m xs m
    ([], (x :: r.1) :: r.2)
  | x :: xs, k + 1 =>
    let r := fillBatch m xs k
    (x :: r.1, r.2)

/-- `items.chunks(n.max(1))`: groups of at most `n`, each committed as one transaction. -/
def batches {α : Type} (n : Nat) : List α → List (List α)
  | [] => []
  | x :: xs =>
    let r := fillBatch (n - 1) xs (n - 1)
    (x :: r.1) :: r.2

def insertChunksBatched (scan : ScanOrder Chunk) (t : SeqTable Chunk) (bufferId : Int)
    (items : List (String × IndexedChunk)) (maxBatch : Nat) (active : Snapshot) :
    SeqTable Chunk × BatchedInsert :=
  (batches maxBatch items).foldl
    (fun acc group => group.foldl (persistChunk scan bufferId active) acc) (t, .empty)

theorem fillBatch_flatten {α : Type} (m : Nat) (l : List α) (k : Nat) :
    (fillBatch m l k).1 ++ (fillBatch m l k).2.flatten = l := by
  induction l generalizing k with
  | nil => rfl
  | cons x l ih =>
    cases k with
    | zero =>
      have := ih m
      simp only [fillBatch, List.nil_append, List.flatten_cons, List.cons_append, this]
    | succ k =>
      have := ih k
      simp only [fillBatch, List.cons_append, this]

theorem batches_flatten {α : Type} (n : Nat) (l : List α) : (batches n l).flatten = l := by
  cases l with
  | nil => rfl
  | cons x l =>
    have := fillBatch_flatten (n - 1) l (n - 1)
    simp only [batches, List.flatten_cons, List.cons_append, this]

/-- Once every group is committed the grouping leaves no trace. -/
theorem insertChunksBatched_eq (scan : ScanOrder Chunk) (t : SeqTable Chunk) (bufferId : Int)
    (items : List (String × IndexedChunk)) (maxBatch : Nat) (active : Snapshot) :
    insertChunksBatched scan t bufferId items maxBatch active =
      items.foldl (persistChunk scan bufferId active) (t, .empty) := by
  rw [insertChunksBatched, ← List.foldl_flatten, batches_flatten]

end Arags
