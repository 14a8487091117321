import Arags.Index.Stream
import Arags.Lib.Text
import Mathlib.Data.List.Sort
import Mathlib.Data.String.Basic

/-!
# Arags.Explore.Maps

Exploration maps: the tables `explorations`, `exploration_files` and `project_epochs` of
`sqlite/explorations`, and the persist handler of `grpc/exploration/mod.rs`.

* `handlePersistExploration` — checks, anchors, the superseding insert, the review gate.
* `mapEmbedText` — what the handler embeds for the map.
* `markStaleIfAnchorsChanged`, `bumpProjectEpoch` — the hooks of an index stream.
-/

namespace Arags

open Sql

/-- The values the `CHECK` on `explorations.status` admits. -/
inductive MapStatus where
  | fresh | stale | retired | pendingReview
  deriving DecidableEq, Repr

inductive AnchorRole where
  | cited | context
  deriving DecidableEq, Repr

/-- A row of `exploration_files` without its map. -/
structure ExplorationAnchor where
  bufferId : Int
  path : String
  contentHash : String
  role : AnchorRole
  deriving DecidableEq, Repr

/-- A row of `explorations`. The body is kept uncompressed. -/
structure ExplorationRow where
  explorationId : String
  project : String
  bufferId : Option Int
  goal : String
  body : String
  summary : String
  createdBy : String
  model : Option String
  epochCreated : Int
  status : MapStatus
  staleReason : Option (List String)
  createdAt : Int
  updatedAt : Int
  isActive : Bool
  supersededBy : Option Int
  deriving DecidableEq, Repr

structure ExplorationDb where
  explorations : Table ExplorationRow
  explorationFiles : List (Int × ExplorationAnchor)
  projectEpochs : List (String × Int)

def ExplorationDb.empty : ExplorationDb := ⟨Table.empty, [], []⟩

structure PersistExplorationInput where
  project : String
  bufferId : Option Int
  goal : String
  bodyMarkdown : String
  summary : String
  anchors : List ExplorationAnchor
  createdBy : String
  model : Option String
  deriving DecidableEq, Repr

/-! ## Storing a map -/

def currentProjectEpoch (db : ExplorationDb) (project : String) : Int :=
  (db.projectEpochs.lookup project).getD 0

/-- `project = ?1 AND goal = ?2 AND is_active = 1`. -/
def ExplorationRow.isRevisionOf (r : ExplorationRow) (project goal : String) : Bool :=
  r.project == project && r.goal == goal && r.isActive

def PersistExplorationInput.row (input : PersistExplorationInput) (explorationId : String)
    (epoch now : Int) : ExplorationRow where
  explorationId := explorationId
  project := input.project
  bufferId := input.bufferId
  goal := input.goal
  body := input.bodyMarkdown
  summary := input.summary
  createdBy := input.createdBy
  model := input.model
  epochCreated := epoch
  status := .fresh
  staleReason := none
  createdAt := now
  updatedAt := now
  isActive := true
  supersededBy := none

/-- One transaction. A path that is anchored twice violates the key of `exploration_files`. -/
def persistExploration (scan : ScanOrder ExplorationRow) (db : ExplorationDb)
    (input : PersistExplorationInput) (explorationId : String) (now : Int) :
    Except String (ExplorationDb × Int) :=
  let oldId := ((scan.order (db.explorations.select fun _ r =>
    r.isRevisionOf input.project input.goal)).head?).map Prod.fst
  let retired := db.explorations.update (fun i r => some i == oldId && r.isActive)
    fun _ r => { r with isActive := false }
  if retired.rows.any (fun x => x.2.explorationId == explorationId) then
    .error "UNIQUE constraint failed: explorations.exploration_id"
  else if ¬ (input.anchors.map ExplorationAnchor.path).Nodup then
    .error "UNIQUE constraint failed: exploration_files.exploration_rowid, exploration_files.path"
  else
    let newId := retired.nextId
    let inserted := retired.insert
      (input.row explorationId (currentProjectEpoch db input.project) now)
    let linked := inserted.update (fun i _ => some i == oldId)
      fun _ r => { r with supersededBy := some newId }
    .ok ({ db with
      explorations := linked
      explorationFiles := db.explorationFiles ++ input.anchors.map fun a => (newId, a) }, newId)

/-- `UPDATE explorations SET status = 'pending_review' WHERE id = ?2 AND status = 'fresh'`. -/
def markExplorationPending (db : ExplorationDb) (id : Int) : ExplorationDb :=
  let maps := db.explorations.update (fun i r => i == id && r.status == .fresh)
    fun _ r => { r with status := .pendingReview }
  { db with explorations := maps }

/-! ## The handler -/

/-- A hash of some row of each file, whichever the query returns first. -/
def currentHashesForPaths (scan : ScanOrder Chunk) (chunks : SeqTable Chunk) (bufferId : Int)
    (paths : List String) : List (String × Option String) :=
  paths.map fun path => (path, ((scan.order (chunks.select fun _ r =>
    r.bufferId == bufferId && r.filePath == path)).head?).map fun x => hexEncode x.2.hash)

/-- Anchors of the files that have rows, and the paths of the others. -/
def resolveAnchors (scan : ScanOrder Chunk) (chunks : SeqTable Chunk) (bufferId : Int)
    (files : List String) : List ExplorationAnchor × List String :=
  let resolved := currentHashesForPaths scan chunks bufferId files
  (resolved.filterMap fun r => r.2.map fun h => ⟨bufferId, r.1, h, .cited⟩,
    (resolved.filter fun r => r.2.isNone).map Prod.fst)

structure PersistExplorationRequest where
  project : String
  goal : String
  summary : String
  bodyMarkdown : String
  files : List String
  model : String
  deriving DecidableEq, Repr

def MAX_BODY_BYTES : Nat := 512 * 1024
def MAX_GOAL_CHARS : Nat := 2000
def MAX_SUMMARY_CHARS : Nat := 4000
def MAX_FILES : Nat := 128

def validatePersist (req : PersistExplorationRequest) : Except String Unit :=
  if Text.isBlank req.project then .error "project is required"
  else if Text.isBlank req.goal then .error "goal is required"
  else if Text.isBlank req.summary then .error "summary is required"
  else if Text.isBlank req.bodyMarkdown then .error "body_markdown is required"
  else if req.goal.length > MAX_GOAL_CHARS then .error "goal too long"
  else if req.summary.length > MAX_SUMMARY_CHARS then .error "summary too long"
  else if req.bodyMarkdown.utf8ByteSize > MAX_BODY_BYTES then .error "body_markdown too large"
  else if req.files.length > MAX_FILES then .error "too many files"
  else .ok ()

/-- What becomes of a map by who persists it and `[exploration] validation_mode`. -/
inductive ReviewGate where
  | approved | review (requireReview : Bool) | quorum
  deriving DecidableEq, Repr

def ReviewGate.holds : ReviewGate → Bool
  | .approved => false
  | .review requireReview => requireReview
  | .quorum => true

/-- The request as it is stored: goal and summary trimmed. -/
def PersistExplorationRequest.input (req : PersistExplorationRequest) (bufferId : Int)
    (anchors : List ExplorationAnchor) (username : String) : PersistExplorationInput where
  project := req.project
  bufferId := some bufferId
  goal := Text.trim req.goal
  bodyMarkdown := req.bodyMarkdown
  summary := Text.trim req.summary
  anchors := anchors
  createdBy := username
  model := if req.model.isEmpty then none else some req.model

/-- The request as it is embedded. -/
def mapEmbedText (req : PersistExplorationRequest) : String := req.goal ++ "\n" ++ req.summary

/-- The new row id, the text that is embedded under it, and the unresolved paths. -/
def handlePersistExploration (scan : ScanOrder ExplorationRow) (chunkScan : ScanOrder Chunk)
    (enabled : Bool) (index : IndexDb) (db : ExplorationDb) (req : PersistExplorationRequest)
    (username : String) (gate : ReviewGate) (explorationId : String) (now : Int) :
    ExplorationDb × Except String (Int × String × List String) :=
  if !enabled then (db, .error "explorations disabled by configuration")
  else
    match validatePersist req with
    | .error e => (db, .error e)
    | .ok () =>
      match (index.buffers.select fun _ r => r.name == req.project).head? with
      | none => (db, .error ("unknown project " ++ req.project))
      | some (bufferId, _) =>
        let anchors := resolveAnchors chunkScan index.chunks bufferId req.files
        match persistExploration scan db (req.input bufferId anchors.1 username) explorationId
            now with
        | .error e => (db, .error e)
        | .ok (stored, id) =>
          (if gate.holds then markExplorationPending stored id else stored,
            .ok (id, mapEmbedText req, anchors.2))

/-- A persist is refused, or the transaction of the resolved request has run. -/
theorem handlePersistExploration_cases (scan : ScanOrder ExplorationRow)
    (chunkScan : ScanOrder Chunk) (enabled : Bool) (index : IndexDb) (db : ExplorationDb)
    (req : PersistExplorationRequest) (username : String) (gate : ReviewGate)
    (explorationId : String) (now : Int) :
    (∃ e, handlePersistExploration scan chunkScan enabled index db req username gate explorationId
      now = (db, .error e)) ∨
    ∃ bufferId buffer stored id,
      (index.buffers.select fun _ r => r.name == req.project).head? = some (bufferId, buffer) ∧
      persistExploration scan db (req.input bufferId
        (resolveAnchors chunkScan index.chunks bufferId req.files).1 username) explorationId now =
          .ok (stored, id) ∧
      handlePersistExploration scan chunkScan enabled index db req username gate explorationId now =
        (if gate.holds then markExplorationPending stored id else stored,
          .ok (id, mapEmbedText req, (resolveAnchors chunkScan index.chunks bufferId
            req.files).2)) := by
  unfold handlePersistExploration
  split
  · exact .inl ⟨_, rfl⟩
  split
  · exact .inl ⟨_, rfl⟩
  split
  · exact .inl ⟨_, rfl⟩
  rename_i bufferId buffer hproject
  dsimp only
  split
  · exact .inl ⟨_, rfl⟩
  rename_i stored id hp
  exact .inr ⟨bufferId, buffer, stored, id, hproject, hp, rfl⟩

/-! ## The hooks of a stream -/

/-- `INSERT … ON CONFLICT(project) DO UPDATE SET epoch = epoch + 1`. -/
def bumpProjectEpoch (db : ExplorationDb) (project : String) : ExplorationDb × Int :=
  let epoch := currentProjectEpoch db project + 1
  ({ db with
    projectEpochs := (project, epoch) :: db.projectEpochs.filter fun e => e.1 != project }, epoch)

/-- No row of the anchored file, of any version, has the recorded hash. -/
def ExplorationAnchor.broken (chunks : SeqTable Chunk) (a : ExplorationAnchor) : Bool :=
  a.role == .cited && !chunks.rows.any fun x => x.2.bufferId == a.bufferId &&
    x.2.filePath == a.path &&
    (hexEncode x.2.hash).toList == a.contentHash.toList.map Char.toLower

/-- Map and path of every broken anchor of a project; retired maps are left out. -/
def brokenAnchors (chunks : SeqTable Chunk) (db : ExplorationDb) (project : String) :
    List (Int × String) :=
  (db.explorationFiles.filter fun f => f.2.broken chunks &&
    (db.explorations.get? f.1).any fun r => r.project == project && r.status != .retired).map
      fun f => (f.1, f.2.path)

/-- The paths of one map, sorted, without repetitions. -/
def staleReason (broken : List (Int × String)) (id : Int) : List String :=
  (((broken.filter fun b => b.1 == id).map Prod.snd).insertionSort (· ≤ ·)).dedup

/-- The number of maps that became stale. -/
def markStaleIfAnchorsChanged (chunks : SeqTable Chunk) (db : ExplorationDb) (project : String)
    (now : Int) : ExplorationDb × Nat :=
  let broken := brokenAnchors chunks db project
  let hit : Int → ExplorationRow → Bool := fun i r =>
    (broken.map Prod.fst).contains i && r.status == .fresh
  let maps := db.explorations.update hit fun i r => { r with
    status := .stale, staleReason := some (staleReason broken i), updatedAt := now }
  ({ db with explorations := maps }, db.explorations.count hit)

end Arags
