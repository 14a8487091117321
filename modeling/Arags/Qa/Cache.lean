import Arags.Index.Chunks
import Arags.Lib.Utf8

/-!
# Arags.Qa.Cache

The table `qa_cache` of `sqlite/qa_cache`: answers with the chunks they came from.

* `QaCacheRow`, `storeAnswer` — a question has one active revision; a new answer retires it.
* `markQaStale`, `touchQa` — the two updates of a served row.
* `invalidateStaleCacheForBuffer` — the hook that runs after an index stream.
-/

namespace Arags

open Sql

/-- A row of `qa_cache`. -/
structure QaCacheRow where
  cacheId : String
  bufferId : Option Int
  project : String
  questionText : String
  questionHash : String
  answerText : String
  sourceChunkIds : List String
  sourceHashes : List String
  confidence : Rat
  accessCount : Int
  createdAt : Int
  lastAccessedAt : Int
  stale : Bool
  invalidatedAt : Option Int
  invalidatedBy : Option String
  invalidatedReason : Option String
  isActive : Bool
  supersededBy : Option Int
  version : Int
  deriving DecidableEq, Repr

structure StoreAnswerInput where
  bufferId : Option Int
  project : String
  questionText : String
  questionHash : String
  answerText : String
  sourceChunkIds : List String
  sourceHashes : List String
  deriving DecidableEq, Repr

/-! ## Storing and reading -/

/-- `project = ?1 AND buffer_id IS ?2 AND question_hash = ?3 AND is_active = 1`. -/
def QaCacheRow.answers (r : QaCacheRow) (input : StoreAnswerInput) : Bool :=
  r.project == input.project && r.bufferId == input.bufferId &&
    r.questionHash == input.questionHash && r.isActive

/-- The row that an answer is stored as. -/
def StoreAnswerInput.row (input : StoreAnswerInput) (cacheId : String) (version now : Int) :
    QaCacheRow where
  cacheId := cacheId
  bufferId := input.bufferId
  project := input.project
  questionText := input.questionText
  questionHash := input.questionHash
  answerText := input.answerText
  sourceChunkIds := input.sourceChunkIds
  sourceHashes := input.sourceHashes
  confidence := 1
  accessCount := 0
  createdAt := now
  lastAccessedAt := now
  stale := false
  invalidatedAt := none
  invalidatedBy := none
  invalidatedReason := none
  isActive := true
  supersededBy := none
  version := version

/-- Retire the active revision and insert the new one; `cacheId` is a fresh uuid. -/
def storeAnswer (scan : ScanOrder QaCacheRow) (t : Table QaCacheRow) (input : StoreAnswerInput)
    (cacheId : String) (now : Int) : Table QaCacheRow × Int :=
  match (scan.order (t.select fun _ r => r.answers input)).head? with
  | some (oldId, old) =>
    let retired := t.update (fun i r => i == oldId && r.isActive)
      fun _ r => { r with isActive := false }
    let newId := retired.nextId
    let inserted := retired.insert (input.row cacheId (old.version + 1) now)
    (inserted.update (fun i _ => i == oldId) fun _ r => { r with supersededBy := some newId },
      newId)
  | none => (t.insert (input.row cacheId 1 now), t.nextId)

/-- `project = ?1 AND question_hash = ?2 AND is_active = 1 AND stale = 0 LIMIT 1`. -/
def getCachedAnswer (scan : ScanOrder QaCacheRow) (t : Table QaCacheRow)
    (project questionHash : String) : Option (Int × QaCacheRow) :=
  (scan.order (t.select fun _ r => r.project == project && r.questionHash == questionHash &&
    r.isActive && !r.stale)).head?

def getQaByRowid (t : Table QaCacheRow) (id : Int) : Option QaCacheRow := t.get? id

/-! ## Updates -/

def QaCacheRow.markStale (r : QaCacheRow) (invalidatedBy reason : String) (now : Int) :
    QaCacheRow :=
  { r with
    stale := true
    confidence := 0
    invalidatedAt := some now
    invalidatedBy := some invalidatedBy
    invalidatedReason := some reason }

/-- `WHERE id = ?4 AND stale = 0`. -/
def markQaStale (t : Table QaCacheRow) (id : Int) (invalidatedBy reason : String) (now : Int) :
    Table QaCacheRow :=
  t.update (fun i r => i == id && !r.stale) fun _ r => r.markStale invalidatedBy reason now

def touchQa (t : Table QaCacheRow) (id now : Int) : Table QaCacheRow :=
  t.update (fun i _ => i == id) fun _ r =>
    { r with accessCount := r.accessCount + 1, lastAccessedAt := now }

/-! ## Staleness after a stream -/

/-- The hashes of all rows of the buffer, each as `String::from_utf8_lossy` of its bytes. -/
def chunkHashesForBuffer (chunks : SeqTable Chunk) (bufferId : Int) : List String :=
  (chunks.select fun _ r => r.bufferId == bufferId).map fun x => Text.fromUtf8Lossy x.2.hash

def listQaHashesForBuffer (scan : ScanOrder QaCacheRow) (t : Table QaCacheRow) (bufferId : Int) :
    List (Int × List String) :=
  (scan.order (t.select fun _ r => r.bufferId == some bufferId)).map
    fun x => (x.1, x.2.sourceHashes)

/-- An answer with a hash that the buffer does not have becomes stale; a buffer without hashes is
left alone. -/
def invalidateStaleCacheForBuffer (scan : ScanOrder QaCacheRow) (chunks : SeqTable Chunk)
    (t : Table QaCacheRow) (bufferId now : Int) : Table QaCacheRow :=
  let current := chunkHashesForBuffer chunks bufferId
  if current.isEmpty then t
  else
    (listQaHashesForBuffer scan t bufferId).foldl
      (fun t x => if x.2.any fun h => !current.contains h then
        markQaStale t x.1 "system" "chunk changed" now else t) t

end Arags
