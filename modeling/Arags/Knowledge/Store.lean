import Arags.Knowledge.Segmentation
import Arags.Lib.Autocommit
import Arags.Lib.Slices
import Arags.Lib.Table
import Mathlib.Data.List.Sort

/-!
# Arags.Knowledge.Store

The tables of `arags-storage` that the knowledge engine works on, and its statements. Each commits
by itself; foreign keys are enforced.

* `Tables`, `Sound` — the rows, and the constraints that they meet.
* `insertChunk`, `insertChunkContent`, `insertChunkEntity`, `deleteChunksForFile` — the statements.
* `addChunk` — what the statements for one chunk come to.
-/

namespace Arags.Knowledge

open Sql Autocommit Text

/-! ## Tables -/

structure Buffer where
  name : String
  totalChunks : Int
  totalFiles : Int
  deriving DecidableEq

structure ChunkRow where
  bufferId : Int
  filePath : String
  offsetStart : Int
  offsetEnd : Int
  lineStart : Int
  lineEnd : Int
  hash : List UInt8
  language : Option String
  chunkType : Option String
  tokenCount : Option Int
  isActive : Bool
  deriving DecidableEq

/-- `tasks`, `findings` and `rlmEdges` are told by the chunk they name. -/
structure Tables where
  buffers : SeqTable Buffer
  chunks : SeqTable ChunkRow
  chunkTexts : List (Int × List Char)
  chunkEntities : List (Int × String)
  entitiesFts : List String
  chunksFts : List (Int × List Char)
  tasks : List (Option Int)
  findings : List (Option Int)
  rlmEdges : List (Option Int)

/-- Primary and foreign keys. -/
structure Sound (db : Tables) : Prop where
  buffer : ∀ i r, (i, r) ∈ db.chunks.rows → (db.buffers.get? r.bufferId).isSome = true
  text : ∀ i s, (i, s) ∈ db.chunkTexts → (db.chunks.get? i).isSome = true
  entity : ∀ i e, (i, e) ∈ db.chunkEntities → (db.chunks.get? i).isSome = true

structure KnowledgeDb where
  tables : Tables
  sound : Sound tables

/-! ## Statements -/

def getBuffer (db : Tables) (id : Int) : Option Buffer := db.buffers.get? id

/-- `WHERE buffer_id = ?1 ORDER BY id`. -/
def listChunks (db : Tables) (bufferId : Int) : List (Int × ChunkRow) :=
  (db.chunks.select fun _ r => r.bufferId == bufferId).insertionSort fun x y => x.1 ≤ y.1

def countChunks (db : Tables) (bufferId : Int) : Nat :=
  db.chunks.count fun _ r => r.bufferId == bufferId

def getChunkContent (db : Tables) (id : Int) : Option (List Char) := db.chunkTexts.lookup id

def insertChunk (r : ChunkRow) : SqlStatement Tables := fun db =>
  if (db.buffers.get? r.bufferId).isSome then some { db with chunks := db.chunks.insert r }
  else none

def insertChunkContent (chunkId : Int) (content : List Char) : SqlStatement Tables := fun db =>
  if (db.chunks.get? chunkId).isSome && !db.chunkTexts.any (·.1 == chunkId) then
    some { db with chunkTexts := db.chunkTexts ++ [(chunkId, content)] }
  else none

/-- `INSERT OR IGNORE INTO chunk_entities`. -/
def insertChunkEntity (chunkId : Int) (entity : String) : SqlStatement Tables := fun db =>
  if (db.chunks.get? chunkId).isSome then
    some { db with chunkEntities :=
      if (chunkId, entity) ∈ db.chunkEntities then db.chunkEntities
      else db.chunkEntities ++ [(chunkId, entity)] }
  else none

def insertEntityFts (entity : String) : SqlStatement Tables := fun db =>
  some { db with entitiesFts := db.entitiesFts ++ [entity] }

def insertChunkEntities (chunkId : Int) (entities : List String) : List (SqlStatement Tables) :=
  entities.flatMap fun e => [insertChunkEntity chunkId e, insertEntityFts e]

/-- A text, a task or a finding that names a chunk of the file stops the statement; the entities
and the edges of the chunks go with them. -/
def deleteChunksForFile (filePath : String) : SqlStatement Tables := fun db =>
  let ids := (db.chunks.select fun _ r => r.filePath == filePath).map Prod.fst
  let ofFile : Option Int → Bool := fun chunk => chunk.any ids.contains
  if db.chunkTexts.any (fun x => ids.contains x.1) || db.tasks.any ofFile ||
      db.findings.any ofFile then none
  else
    some { db with
      chunks := db.chunks.delete fun _ r => r.filePath == filePath
      chunkEntities := db.chunkEntities.filter fun x => !ids.contains x.1
      rlmEdges := db.rlmEdges.filter fun x => !ofFile x }

def updateBufferCounts (bufferId totalChunks totalFiles : Int) : SqlStatement Tables := fun db =>
  some { db with
    buffers := db.buffers.update (fun i _ => i == bufferId) fun _ b =>
      { b with totalChunks := totalChunks, totalFiles := totalFiles } }

/-! ## One chunk -/

/-- The row, its text and its entities. -/
def chunkStatements (chunkId : Int) (r : ChunkRow) (content : List Char) (entities : List String) :
    List (SqlStatement Tables) :=
  insertChunk r :: insertChunkContent chunkId content :: insertChunkEntities chunkId entities

def addEntities (chunkId : Int) (entities : List String) (l : List (Int × String)) :
    List (Int × String) :=
  entities.foldl (fun l e => if (chunkId, e) ∈ l then l else l ++ [(chunkId, e)]) l

def addChunk (r : ChunkRow) (content : List Char) (entities : List String) (db : Tables) :
    Tables :=
  { db with
    chunks := db.chunks.insert r
    chunkTexts := db.chunkTexts ++ [(db.chunks.seq + 1, content)]
    chunkEntities := addEntities (db.chunks.seq + 1) entities db.chunkEntities
    entitiesFts := db.entitiesFts ++ entities }

theorem mem_addEntities {chunkId i : Int} {e : String} {entities : List String} :
    ∀ {l : List (Int × String)}, (i, e) ∈ addEntities chunkId entities l ↔
      (i, e) ∈ l ∨ (i = chunkId ∧ e ∈ entities) := by
  induction entities with
  | nil => simp [addEntities]
  | cons e' entities ih =>
    intro l
    rw [addEntities, List.foldl_cons, ← addEntities, ih, List.mem_cons]
    split
    · rename_i hmem
      constructor
      · rintro (h | ⟨hi, he⟩)
        · exact .inl h
        · exact .inr ⟨hi, .inr he⟩
      · rintro (h | ⟨rfl, rfl | he⟩)
        · exact .inl h
        · exact .inl hmem
        · exact .inr ⟨rfl, he⟩
    · rw [List.mem_append, List.mem_singleton, Prod.mk.injEq]
      tauto

theorem run_entities {chunkId : Int} {entities : List String} : ∀ {db : Tables},
    (db.chunks.get? chunkId).isSome = true → run (insertChunkEntities chunkId entities) db =
      ({ db with
        chunkEntities := addEntities chunkId entities db.chunkEntities
        entitiesFts := db.entitiesFts ++ entities }, true) := by
  induction entities with
  | nil =>
    intro db _
    simp [insertChunkEntities, addEntities]
  | cons e entities ih =>
    intro db h
    have hone : insertChunkEntity chunkId e db = some { db with chunkEntities :=
        if (chunkId, e) ∈ db.chunkEntities then db.chunkEntities
        else db.chunkEntities ++ [(chunkId, e)] } := if_pos h
    rw [insertChunkEntities, List.flatMap_cons, List.cons_append, List.cons_append,
      List.nil_append, run_cons_some hone, run_cons_some (f := insertEntityFts e) rfl,
      ← insertChunkEntities]
    dsimp only
    rw [ih (by exact h)]
    simp [addEntities]

theorem get?_insert_old {db : Tables} {r : ChunkRow} {i : Int}
    (h : (db.chunks.get? i).isSome = true) : ((db.chunks.insert r).get? i).isSome = true := by
  obtain ⟨r', hr'⟩ := Option.isSome_iff_exists.mp h
  rw [Table.get?_eq_some.mpr (SeqTable.mem_insert.mpr (.inl (Table.get?_eq_some.mp hr')))]
  rfl

theorem get?_insert_new (db : Tables) (r : ChunkRow) :
    ((db.chunks.insert r).get? (db.chunks.seq + 1)).isSome = true := by
  rw [Table.get?_eq_some.mpr (SeqTable.mem_insert.mpr (.inr ⟨rfl, rfl⟩))]
  rfl

/-- The id that a new row gets has no text. -/
theorem insertChunkContent_new {db : Tables} (hdb : Sound db) (r : ChunkRow)
    (content : List Char) :
    insertChunkContent (db.chunks.seq + 1) content { db with chunks := db.chunks.insert r } =
      some { db with
        chunks := db.chunks.insert r
        chunkTexts := db.chunkTexts ++ [(db.chunks.seq + 1, content)] } := by
  have hfresh : db.chunkTexts.any (·.1 == db.chunks.seq + 1) = false := by
    rw [List.any_eq_false]
    intro x hx heq
    obtain ⟨r', hr'⟩ := Option.isSome_iff_exists.mp (hdb.text x.1 x.2 hx)
    have hle := db.chunks.le_seq _ (Table.get?_eq_some.mp hr')
    rw [eq_of_beq heq] at hle
    omega
  rw [insertChunkContent, get?_insert_new, hfresh]
  rfl

/-- A chunk is added whenever its buffer exists. -/
theorem run_chunkStatements {db : Tables} (hdb : Sound db) {r : ChunkRow}
    (hbuffer : (db.buffers.get? r.bufferId).isSome = true) (content : List Char)
    (entities : List String) :
    run (chunkStatements (db.chunks.seq + 1) r content entities) db =
      (addChunk r content entities db, true) := by
  have hrow : insertChunk r db = some { db with chunks := db.chunks.insert r } := if_pos hbuffer
  rw [chunkStatements, run_cons_some hrow, run_cons_some (insertChunkContent_new hdb r content),
    run_entities (get?_insert_new db r)]
  rfl

theorem run_chunkStatements_missing {db : Tables} {r : ChunkRow}
    (hbuffer : (db.buffers.get? r.bufferId).isSome = false) (chunkId : Int) (content : List Char)
    (entities : List String) : run (chunkStatements chunkId r content entities) db = (db, false) :=
  run_cons_none (if_neg (by simp [hbuffer]))

theorem insertRow_sound {db : Tables} (hdb : Sound db) {r : ChunkRow}
    (hbuffer : (db.buffers.get? r.bufferId).isSome = true) :
    Sound { db with chunks := db.chunks.insert r } := by
  refine ⟨fun i r' h => ?_, fun i s h => get?_insert_old (hdb.text i s h),
    fun i e h => get?_insert_old (hdb.entity i e h)⟩
  rcases SeqTable.mem_insert.mp h with h | ⟨-, rfl⟩
  · exact hdb.buffer i r' h
  · exact hbuffer

theorem insertText_sound {db : Tables} (hdb : Sound db) {i : Int}
    (hi : (db.chunks.get? i).isSome = true) (content : List Char) :
    Sound { db with chunkTexts := db.chunkTexts ++ [(i, content)] } := by
  refine ⟨hdb.buffer, fun j s h => ?_, hdb.entity⟩
  rcases List.mem_append.mp h with h | h
  · exact hdb.text j s h
  · obtain ⟨rfl, -⟩ := Prod.mk.inj (List.mem_singleton.mp h)
    exact hi

theorem addChunk_sound {db : Tables} (hdb : Sound db) {r : ChunkRow}
    (hbuffer : (db.buffers.get? r.bufferId).isSome = true) (content : List Char)
    (entities : List String) : Sound (addChunk r content entities db) := by
  have htext := insertText_sound (insertRow_sound hdb hbuffer) (get?_insert_new db r) content
  refine ⟨htext.buffer, htext.text, fun i e h => ?_⟩
  rcases mem_addEntities.mp h with h | ⟨rfl, -⟩
  · exact htext.entity i e h
  · exact get?_insert_new db r

/-! ## Deletion -/

/-- Something else names a chunk of the file. -/
def HeldFile (db : Tables) (filePath : String) : Prop :=
  ∃ i r, (i, r) ∈ db.chunks.rows ∧ r.filePath = filePath ∧
    ((∃ s, (i, s) ∈ db.chunkTexts) ∨ some i ∈ db.tasks ∨ some i ∈ db.findings)

def withoutFile (filePath : String) (db : Tables) : Tables :=
  let ids := (db.chunks.select fun _ r => r.filePath == filePath).map Prod.fst
  { db with
    chunks := db.chunks.delete fun _ r => r.filePath == filePath
    chunkEntities := db.chunkEntities.filter fun x => !ids.contains x.1
    rlmEdges := db.rlmEdges.filter fun x => !x.any ids.contains }

theorem deleteChunksForFile_held {db : Tables} {filePath : String} (h : HeldFile db filePath) :
    deleteChunksForFile filePath db = none := by
  obtain ⟨i, r, hr, hpath, hby⟩ := h
  have hid : ((db.chunks.select fun _ r => r.filePath == filePath).map Prod.fst).contains i =
      true := by
    rw [List.contains_iff_mem]
    exact List.mem_map.mpr ⟨(i, r), Table.mem_select.mpr ⟨hr, by simp [hpath]⟩, rfl⟩
  refine if_pos ?_
  rw [Bool.or_eq_true, Bool.or_eq_true, or_assoc]
  rcases hby with ⟨s, hs⟩ | htask | hfinding
  · exact .inl (List.any_eq_true.mpr ⟨_, hs, hid⟩)
  · exact .inr (.inl (List.any_eq_true.mpr ⟨_, htask, hid⟩))
  · exact .inr (.inr (List.any_eq_true.mpr ⟨_, hfinding, hid⟩))

theorem deleteChunksForFile_free {db : Tables} {filePath : String} (h : ¬ HeldFile db filePath) :
    deleteChunksForFile filePath db = some (withoutFile filePath db) := by
  have hrow {i : Int}
      (hi : ((db.chunks.select fun _ r => r.filePath == filePath).map Prod.fst).contains i = true) :
      ∃ r, (i, r) ∈ db.chunks.rows ∧ r.filePath = filePath := by
    obtain ⟨⟨j, r⟩, hr, rfl⟩ := List.mem_map.mp (List.contains_iff_mem.mp hi)
    obtain ⟨hr, hpath⟩ := Table.mem_select.mp hr
    exact ⟨r, hr, eq_of_beq hpath⟩
  have hoption {l : List (Option Int)} {chunk : Option Int} (hchunk : chunk ∈ l)
      (hany : chunk.any ((db.chunks.select fun _ r => r.filePath == filePath).map
        Prod.fst).contains = true) : ∃ i r, some i ∈ l ∧ (i, r) ∈ db.chunks.rows ∧
          r.filePath = filePath := by
    cases chunk with
    | none => cases hany
    | some i =>
      obtain ⟨r, hr, hpath⟩ := hrow hany
      exact ⟨i, r, hchunk, hr, hpath⟩
  refine if_neg fun hany => h ?_
  rw [Bool.or_eq_true, Bool.or_eq_true, or_assoc] at hany
  rcases hany with hany | hany | hany
  · obtain ⟨x, hx, hi⟩ := List.any_eq_true.mp hany
    obtain ⟨r, hr, hpath⟩ := hrow hi
    exact ⟨x.1, r, hr, hpath, .inl ⟨x.2, hx⟩⟩
  · obtain ⟨chunk, hchunk, hi⟩ := List.any_eq_true.mp hany
    obtain ⟨i, r, hmem, hr, hpath⟩ := hoption hchunk hi
    exact ⟨i, r, hr, hpath, .inr (.inl hmem)⟩
  · obtain ⟨chunk, hchunk, hi⟩ := List.any_eq_true.mp hany
    obtain ⟨i, r, hmem, hr, hpath⟩ := hoption hchunk hi
    exact ⟨i, r, hr, hpath, .inr (.inr hmem)⟩

end Arags.Knowledge
