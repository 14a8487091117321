import Arags.Explore.AnchorStaleness
import Arags.Lib.Revisions
import Arags.Qa.Cache
import Arags.Rlm.Nodes
import Arags.Spaces.EmbedTexts

/-!
# Arags.Archive.TimeTravel

The four stores that keep their history, the writes to them, and the reads of a past epoch.

* `getExplorationAsOf`, `getCachedAnswerAsOf`, `getRlmNodeAsOf` — one statement each; `epoch` is
  `DEFAULT 0` in the columns that no write fills.
* `getChunkAsOf` — the walk from a revision back to those it replaced.
* `stepArchive`  — a write, a staleness mark, or a new epoch of a project.
* `explorationColumns`, `qaColumns`, `nodeColumns` — the tables as tables of revisions.
-/

namespace Arags

open Sql

/-! ## The reads -/

def getExplorationAsOf (db : ExplorationDb) (project goal : String) (asOfEpoch : Int) :
    Option (Int × ExplorationRow) :=
  firstBy (fun x y => decide (y.2.epochCreated < x.2.epochCreated) ||
      (x.2.epochCreated == y.2.epochCreated && decide (y.1 < x.1)))
    (db.explorations.select fun _ r => r.project == project && r.goal == goal &&
      decide (r.epochCreated ≤ asOfEpoch))

/-- No write names the column. -/
def QaCacheRow.epoch (_ : QaCacheRow) : Int := 0

def getCachedAnswerAsOf (t : Table QaCacheRow) (project questionHash : String)
    (bufferId : Option Int) (asOfEpoch : Int) : Option (Int × QaCacheRow) :=
  firstBy (fun x y => decide (y.2.epoch < x.2.epoch) ||
      (x.2.epoch == y.2.epoch && decide (y.1 < x.1)))
    (t.select fun _ r => r.project == project && r.bufferId == bufferId &&
      r.questionHash == questionHash && decide (r.epoch ≤ asOfEpoch))

def getRlmNodeAsOf (t : Table RlmNode) (project : String) (level : Int) (subject : String)
    (asOfEpoch : Int) : Option (Int × RlmNode) :=
  firstBy (fun x y => decide (y.2.epoch < x.2.epoch) ||
      (x.2.epoch == y.2.epoch && decide (y.1 < x.1)))
    (t.select fun _ n => n.project == project && n.level == level && n.subject == subject &&
      decide (n.epoch ≤ asOfEpoch))

/-- No write names the column. -/
def Chunk.epoch (_ : Chunk) : Int := 0

/-- The revisions from a chunk back along `superseded_by`, newest first; `none` is out of fuel. -/
def chunkFamily (scan : ScanOrder Chunk) (t : SeqTable Chunk) :
    Nat → Int → Option (List (Int × Chunk))
  | 0, _ => none
  | fuel + 1, current =>
    match t.get? current with
    | none => some []
    | some chunk =>
      match (scan.order (t.select fun _ r => r.supersededBy == some current)).head? with
      | some (id, _) =>
        if id ≠ current then (chunkFamily scan t fuel id).map fun l => (current, chunk) :: l
        else some [(current, chunk)]
      | none => some [(current, chunk)]

/-- `max_by` epoch and id. -/
def getChunkAsOf (scan : ScanOrder Chunk) (t : SeqTable Chunk) (chunkId asOfEpoch : Int) :
    Option (Option (Int × Chunk)) :=
  (chunkFamily scan t (t.rows.length + 1) chunkId).map fun family =>
    firstBy (fun x y => decide (y.2.epoch < x.2.epoch) ||
        (x.2.epoch == y.2.epoch && decide (y.1 < x.1)))
      (family.filter fun x => decide (x.2.epoch ≤ asOfEpoch))

/-! ## The writes -/

/-- The index, the answers, the summary nodes and the maps. -/
structure Archive where
  index : IndexDb
  qa : Table QaCacheRow
  nodes : Table RlmNode
  maps : ExplorationDb

def Archive.empty : Archive := ⟨IndexDb.empty, Table.empty, Table.empty, ExplorationDb.empty⟩

def Archive.epoch (s : Archive) (project : String) : Int := currentProjectEpoch s.maps project

/-- What `publish_rlm_node_for_subject` is called with. -/
structure NodePublication where
  project : String
  level : Int
  subject : String
  summaryText : String
  sourceHashes : List String
  volunteerUsername : Option String
  model : Option String
  templateVersion : Option String
  decidedBy : String
  freshNodeId : String

inductive ArchiveOp where
  | bump (project : String)
  | stream (msgs : List IndexMsg)
  | storeAnswer (input : StoreAnswerInput) (cacheId : String) (now : Int)
  | storeNode (input : NewRlmNode) (nodeId : String) (now : Int)
  | publishNode (pub : NodePublication) (now : Int)
  | persist (req : PersistExplorationRequest) (username : String) (gate : ReviewGate)
      (explorationId : String) (now : Int)
  | markMaps (project : String) (now : Int)
  | markAnswers (bufferId now : Int)
  | markNodes (bufferId : Int) (changedHashes : List String)

variable (ix : Indexer) (scan : TextScans)

def NodePublication.publish (pub : NodePublication) (t : Table RlmNode) (now : Int) :
    Except String (Table RlmNode × Int × String) :=
  publishRlmNodeForSubject scan.rlmNodes t pub.project pub.level pub.subject pub.summaryText
    pub.sourceHashes pub.volunteerUsername pub.model pub.templateVersion pub.decidedBy
    pub.freshNodeId now

def stepArchive (s : Archive) : ArchiveOp → Archive
  | .bump project => { s with maps := (bumpProjectEpoch s.maps project).1 }
  | .stream msgs => { s with index := (indexStreamLoop ix s.index msgs).1 }
  | .storeAnswer input cacheId now =>
    { s with qa := (storeAnswer scan.qaCache s.qa input cacheId now).1 }
  | .storeNode input nodeId now =>
    match upsertNodeStmt scan.rlmNodes s.nodes nodeId input now with
    | .ok (nodes, _) => { s with nodes := nodes }
    | .error _ => s
  | .publishNode pub now =>
    match pub.publish scan s.nodes now with
    | .ok (nodes, _) => { s with nodes := nodes }
    | .error _ => s
  | .persist req username gate explorationId now =>
    { s with maps := (handlePersistExploration scan.explorations ix.scan true s.index s.maps req
      username gate explorationId now).1 }
  | .markMaps project now =>
    { s with maps := (markStaleIfAnchorsChanged s.index.chunks s.maps project now).1 }
  | .markAnswers bufferId now =>
    { s with qa := invalidateStaleCacheForBuffer scan.qaCache s.index.chunks s.qa bufferId now }
  | .markNodes bufferId changedHashes =>
    { s with nodes := markRlmStaleByHashes s.nodes bufferId changedHashes }

/-! ## Tables of revisions -/

def explorationColumns : RevisionColumns ExplorationRow (String × String) where
  subject r := (r.project, r.goal)
  epoch r := r.epochCreated
  live r := r.isActive

def qaColumns : RevisionColumns QaCacheRow (String × Option Int × String) where
  subject r := (r.project, r.bufferId, r.questionHash)
  epoch r := r.epoch
  live r := r.isActive

def nodeColumns : RevisionColumns RlmNode (String × Int × String) where
  subject n := (n.project, n.level, n.subject)
  epoch n := n.epoch
  live n := n.isActive

theorem getExplorationAsOf_id (db : ExplorationDb) (project goal : String) (T : Int) :
    (getExplorationAsOf db project goal T).map Prod.fst =
      asOf (revisionLog explorationColumns db.explorations) (project, goal) T := by
  refine firstBy_asOf (c := explorationColumns) (fun r => ?_) T
  simp [explorationColumns]

theorem getCachedAnswerAsOf_id (t : Table QaCacheRow) (project questionHash : String)
    (bufferId : Option Int) (T : Int) :
    (getCachedAnswerAsOf t project questionHash bufferId T).map Prod.fst =
      asOf (revisionLog qaColumns t) (project, bufferId, questionHash) T := by
  refine firstBy_asOf (c := qaColumns) (fun r => ?_) T
  simp [qaColumns, and_assoc]

theorem getRlmNodeAsOf_id (t : Table RlmNode) (project : String) (level : Int) (subject : String)
    (T : Int) : (getRlmNodeAsOf t project level subject T).map Prod.fst =
      asOf (revisionLog nodeColumns t) (project, level, subject) T := by
  refine firstBy_asOf (c := nodeColumns) (fun r => ?_) T
  simp [nodeColumns, and_assoc]

end Arags
