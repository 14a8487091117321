import Arags.Index.Chunks
import Mathlib.Data.List.Dedup

/-!
# Arags.Index.Stream

The handler of one index stream, `index_stream_loop` of `grpc/index.rs`.

* `LoopState` — what the loop keeps between two messages: the project and the buffer of the last
  `Init`, the snapshot of the first `File`, the keys of it that are still unmatched, the counters.
* `phase0`, `phase1` — the snapshot and the inserts of a `File` message.
* `orphanPass`, `finish` — the end of a stream.
* `indexStreamLoop` — the whole handler up to the buffer counts.
-/

namespace Arags

open Sql

/-- A row of `buffers`. -/
structure Buffer where
  name : String
  path : String
  totalChunks : Int
  totalFiles : Int
  deriving DecidableEq, Repr

structure IndexDb where
  buffers : SeqTable Buffer
  chunks : SeqTable Chunk

def IndexDb.empty : IndexDb := ⟨SeqTable.empty, SeqTable.empty⟩

/-- `INSERT OR IGNORE` on the unique name, then `SELECT id … WHERE name = ?1`. -/
def ensureProject (t : SeqTable Buffer) (name path : String) : SeqTable Buffer × Option Int :=
  let t' := if t.rows.any (fun x => x.2.name == name) then t else t.insert ⟨name, path, 0, 0⟩
  (t', (t'.select fun _ r => r.name == name).head?.map Prod.fst)

def incrementBufferCounts (t : SeqTable Buffer) (bufferId deltaChunks deltaFiles : Int) :
    SeqTable Buffer :=
  t.update (fun i _ => i == bufferId) fun _ r => { r with
    totalChunks := r.totalChunks + deltaChunks, totalFiles := r.totalFiles + deltaFiles }

/-- The id a project has or will get. -/
def projectId (t : SeqTable Buffer) (name : String) : Int :=
  ((t.select fun _ r => r.name == name).head?.map Prod.fst).getD (t.seq + 1)

theorem ensureProject_id (t : SeqTable Buffer) (name path : String) :
    (ensureProject t name path).2 = some (projectId t name) := by
  unfold ensureProject projectId
  cases h : t.rows.any (fun x => x.2.name == name) with
  | true =>
    obtain ⟨x, hx, hn⟩ := List.any_eq_true.mp h
    have hx' : x ∈ t.select fun _ r => r.name == name :=
      Table.mem_select.mpr ⟨hx, hn⟩
    cases hs : t.select fun _ r => r.name == name with
    | nil => rw [hs] at hx'; cases hx'
    | cons y l => simp [hs]
  | false =>
    have hs : t.select (fun _ r => r.name == name) = [] := by
      refine List.filter_eq_nil_iff.mpr fun x hx => ?_
      simpa using List.any_eq_false.mp h x hx
    simp [SeqTable.select_insert, hs]

theorem projectId_ensureProject (t : SeqTable Buffer) (name path : String) :
    projectId (ensureProject t name path).1 name = projectId t name := by
  unfold ensureProject projectId
  dsimp only
  split
  · rfl
  · rename_i h
    have hs : t.select (fun _ r => r.name == name) = [] := by
      refine List.filter_eq_nil_iff.mpr fun x hx => ?_
      intro hn
      exact h (List.any_eq_true.mpr ⟨x, hx, hn⟩)
    simp [SeqTable.select_insert, hs]

theorem projectId_increment (t : SeqTable Buffer) (name : String) (b dc df : Int) :
    projectId (incrementBufferCounts t b dc df) name = projectId t name := by
  unfold projectId incrementBufferCounts
  have h := Table.select_update_in (t := t.toTable) (p := fun _ r => r.name == name)
    (q := fun i _ => i == b) (f := fun _ r => { r with
      totalChunks := r.totalChunks + dc, totalFiles := r.totalFiles + df }) fun _ _ => rfl
  have h' : (t.update (fun i _ => i == b) fun _ r => { r with
      totalChunks := r.totalChunks + dc, totalFiles := r.totalFiles + df }).select
      (fun _ r => r.name == name) = _ := h
  rw [h', List.head?_map, Option.map_map, SeqTable.seq_update]
  refine congrArg (fun o => Option.getD o _) ?_
  cases (t.select fun _ r => r.name == name).head? with
  | none => rfl
  | some x =>
    simp only [Option.map_some, Function.comp_apply]
    split <;> rfl

/-- An item of the stream. The content of a file is what `decode_content` makes of its bytes. -/
inductive IndexMsg where
  | init (project rootPath : String)
  | file (relPath : String) (content : Option String)
  | empty
  | error (status : String)
  deriving DecidableEq, Repr

/-- Chunking, batching and scan order of a server. -/
structure Indexer extends Chunker where
  maxBatchSize : Nat
  scan : ScanOrder Chunk

structure LoopState where
  project : Option String
  bufferId : Option Int
  totalChunks : Nat
  distinctFiles : Nat
  persistedAll : List (Int × String)
  snapshot : Option Snapshot
  remainingActive : List ChunkKey
  totalInserted : Nat
  totalRetired : Nat
  deriving DecidableEq, Repr

def LoopState.start : LoopState := ⟨none, none, 0, 0, [], none, [], 0, 0⟩

variable (ix : Indexer)

/-- The snapshot is deferred to the first `File`; later ones find it taken. -/
def phase0 (chunks : SeqTable Chunk) (bufferId : Int) (st : LoopState) : LoopState :=
  match st.snapshot with
  | some _ => st
  | none =>
    let snap := snapshotActiveChunks ix.scan chunks bufferId
    { st with snapshot := some snap, remainingActive := (snap.map Prod.fst).dedup }

def phase1 (chunks : SeqTable Chunk) (bufferId : Int) (relPath content : String)
    (st : LoopState) : SeqTable Chunk × LoopState :=
  let chunkList := ix.chunksOf relPath content
  if chunkList.isEmpty then (chunks, st)
  else
    let (chunks', res) := insertChunksBatched ix.scan chunks bufferId
      (chunkList.map fun c => (relPath, c)) ix.maxBatchSize (st.snapshot.getD [])
    (chunks', { st with
      distinctFiles := st.distinctFiles + 1
      totalChunks := st.totalChunks + chunkList.length
      persistedAll := st.persistedAll ++ res.persisted
      remainingActive := st.remainingActive.filter fun k => !res.handledKeys.contains k
      totalInserted := st.totalInserted + res.inserted
      totalRetired := st.totalRetired + res.retiredIds.length })

/-- One message. A message that fails has written nothing. -/
def stepMsg (db : IndexDb) (st : LoopState) : IndexMsg → Except String (IndexDb × LoopState)
  | .init project rootPath =>
    match ensureProject db.buffers project rootPath with
    | (buffers, some pid) =>
      .ok ({ db with buffers := buffers },
        { st with project := some project, bufferId := some pid })
    | (_, none) => .error "internal"
  | .file relPath content =>
    match st.bufferId with
    | none => .error "file message before init"
    | some bid =>
      let st := phase0 ix db.chunks bid st
      match content with
      | none => .error "internal"
      | some text =>
        let (chunks, st) := phase1 ix db.chunks bid relPath text st
        .ok ({ db with chunks := chunks }, st)
  | .empty => .ok (db, st)
  | .error status => .error status

/-- The messages in order; the first that fails ends the stream. -/
def runLoop (db : IndexDb) (st : LoopState) : List IndexMsg → IndexDb × Except String LoopState
  | [] => (db, .ok st)
  | m :: ms =>
    match stepMsg ix db st m with
    | .error e => (db, .error e)
    | .ok (db', st') => runLoop db' st' ms

/-- Retire what the snapshot had and no chunk of the stream matched. -/
def orphanPass (chunks : SeqTable Chunk) (st : LoopState) : SeqTable Chunk :=
  match st.snapshot with
  | none => chunks
  | some snap =>
    (st.remainingActive.filterMap fun k => snap.lookup k).foldl
      (fun t id => retireChunk t id none) chunks

/-- `files_indexed` and `chunks_created`. -/
structure IndexResponse where
  filesIndexed : Nat
  chunksCreated : Nat
  deriving DecidableEq, Repr

def LoopState.netChunks (st : LoopState) : Int :=
  (st.totalInserted : Int) - st.totalRetired - st.remainingActive.length

def LoopState.netFiles (st : LoopState) : Int :=
  (st.distinctFiles : Int) - (st.remainingActive.map Prod.fst).dedup.length

/-- Orphan pass and buffer counts. -/
def finish (db : IndexDb) (st : LoopState) : IndexDb × Except String IndexResponse :=
  let db := { db with chunks := orphanPass db.chunks st }
  match st.project, st.bufferId with
  | some _, some bid =>
    let buffers := incrementBufferCounts db.buffers bid st.netChunks st.netFiles
    ({ db with buffers := buffers }, .ok ⟨st.distinctFiles, st.totalChunks⟩)
  | none, _ => (db, .error "index stream did not send an init message")
  | some _, none => (db, .error "index stream missing init")

def indexStreamLoop (db : IndexDb) (msgs : List IndexMsg) : IndexDb × Except String IndexResponse :=
  match runLoop ix db .start msgs with
  | (db', .ok st) => finish db' st
  | (db', .error e) => (db', .error e)

/-! ## What a message does -/

theorem stepMsg_init (db : IndexDb) (st : LoopState) (project root : String) :
    stepMsg ix db st (.init project root) =
      .ok ({ db with buffers := (ensureProject db.buffers project root).1 },
        { st with project := some project, bufferId := some (projectId db.buffers project) }) := by
  have h := ensureProject_id db.buffers project root
  cases he : ensureProject db.buffers project root with
  | mk buffers pid =>
    rw [he] at h
    dsimp only at h
    simp only [stepMsg, he, h]

theorem stepMsg_file (db : IndexDb) (st : LoopState) (path text : String) {b : Int}
    (hb : st.bufferId = some b) : stepMsg ix db st (.file path (some text)) =
      .ok ({ db with
        chunks := (phase1 ix db.chunks b path text (phase0 ix db.chunks b st)).1 },
        (phase1 ix db.chunks b path text (phase0 ix db.chunks b st)).2) := by
  simp only [stepMsg, hb]

variable {ix} in
/-- A message that is read: an `Init`, a file for the buffer of the last one, or nothing. -/
theorem stepMsg_cases {d d' : IndexDb} {st st' : LoopState} {m : IndexMsg}
    (h : stepMsg ix d st m = .ok (d', st')) :
    (∃ project root, m = .init project root ∧
      d' = { d with buffers := (ensureProject d.buffers project root).1 } ∧
      st' = { st with project := some project, bufferId := some (projectId d.buffers project) }) ∨
    (∃ path text b, m = .file path (some text) ∧ st.bufferId = some b ∧
      d' = { d with chunks := (phase1 ix d.chunks b path text (phase0 ix d.chunks b st)).1 } ∧
      st' = (phase1 ix d.chunks b path text (phase0 ix d.chunks b st)).2) ∨
    (m = .empty ∧ d' = d ∧ st' = st) := by
  cases m with
  | init project root =>
    rw [stepMsg_init] at h
    cases h
    exact .inl ⟨project, root, rfl, rfl, rfl⟩
  | file path content =>
    cases hb : st.bufferId with
    | none => simp only [stepMsg, hb] at h; cases h
    | some b =>
      cases content with
      | none => simp only [stepMsg, hb] at h; cases h
      | some text =>
        rw [stepMsg_file ix d st path text hb] at h
        cases h
        exact .inr (.inl ⟨path, text, b, rfl, rfl, rfl, rfl⟩)
  | empty =>
    cases h
    exact .inr (.inr ⟨rfl, rfl, rfl⟩)
  | error status => cases h

end Arags
