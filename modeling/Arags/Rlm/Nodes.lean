import Arags.Rlm.Jobs
import Mathlib.Data.List.Sort
import Mathlib.Data.String.Basic

/-!
# Arags.Rlm.Nodes

The summary nodes of `sqlite/rlm/nodes.rs` and the staleness marks of `sqlite/rlm/graph.rs`.

* `getRlmNodeBySubject`, `listRlmNodes` — reads by natural key, whatever the review said.
* `getApprovedRlmNodes`, `searchRlmFts` — reads of one project's buffer; `RlmNode.servedBy` is
  the filter they share.
* `markRlmStaleBySubject`, `markRlmStaleByHashes` — the two ways a node becomes stale.
* `publishRlmNodeForSubject` — the node a quorum publishes.
-/

namespace Arags

open Sql

/-- `project = ?1 AND level = ?2 AND subject = ?3 AND is_active = 1`. -/
def RlmNode.isLive (n : RlmNode) (project : String) (level : Int) (subject : String) : Bool :=
  n.project == project && n.level == level && n.subject == subject && n.isActive

def getRlmNodeBySubject (scan : ScanOrder RlmNode) (t : Table RlmNode) (project : String)
    (level : Int) (subject : String) : Option (Int × RlmNode) :=
  (scan.order (t.select fun _ n => n.isLive project level subject)).head?

/-- `ORDER BY level, subject`. -/
def nodesInOrder (x y : Int × RlmNode) : Prop :=
  x.2.level < y.2.level ∨ (x.2.level = y.2.level ∧ x.2.subject ≤ y.2.subject)

instance : DecidableRel nodesInOrder := fun x y =>
  inferInstanceAs (Decidable (x.2.level < y.2.level ∨
    (x.2.level = y.2.level ∧ x.2.subject ≤ y.2.subject)))

def listRlmNodes (scan : ScanOrder RlmNode) (t : Table RlmNode) (project : String)
    (level : Option Int) (includePending : Bool) : List (Int × RlmNode) :=
  (scan.order (t.select fun _ n => n.project == project && n.isActive &&
    n.reviewStatus != .rejected && (includePending || n.reviewStatus == .approved) &&
    level.all fun l => n.level == l)).insertionSort nodesInOrder

/-- `buffer_id = ?2 AND is_active = 1 AND stale = 0 AND review_status = 'approved'`; a `NULL`
buffer never compares. -/
def RlmNode.servedBy (n : RlmNode) (bufferId : Int) : Bool :=
  n.bufferId == some bufferId && n.isActive && !n.stale && n.reviewStatus == .approved

/-- Hydration of a vector search: the nodes among `ids` that the buffer serves. -/
def getApprovedRlmNodes (scan : ScanOrder RlmNode) (t : Table RlmNode) (ids : List Int)
    (bufferId : Int) : List (Int × RlmNode) :=
  scan.order (t.select fun i n => ids.contains i && n.servedBy bufferId)

/-- `hits` are the row ids that the full-text index matches. -/
def searchRlmFts (scan : ScanOrder RlmNode) (t : Table RlmNode) (bufferId : Int)
    (hits : List Int) : List (Int × RlmNode) :=
  scan.order (t.select fun i n => hits.contains i && n.servedBy bufferId)

/-! ## Staleness -/

def RlmNode.markStale (n : RlmNode) : RlmNode := { n with stale := true, confidence := 0 }

def markRlmStaleBySubject (t : Table RlmNode) (bufferId level : Int) (subject : String) :
    Table RlmNode :=
  t.update (fun _ n => n.bufferId == some bufferId && n.level == level && n.subject == subject &&
    !n.stale) fun _ n => n.markStale

/-- The rows of the buffer whose recorded hashes meet the changed ones. -/
def RlmNode.hitBy (n : RlmNode) (bufferId : Int) (changedHashes : List String) : Bool :=
  n.bufferId == some bufferId && !n.stale && n.sourceHashes.any changedHashes.contains

def markRlmStaleByHashes (t : Table RlmNode) (bufferId : Int) (changedHashes : List String) :
    Table RlmNode :=
  if changedHashes.isEmpty then t
  else t.update (fun _ n => n.hitBy bufferId changedHashes) fun _ n => n.markStale

/-! ## Publication -/

/-- The upsert, then the approval of the new row in a statement of its own. -/
def publishRlmNodeForSubject (scan : ScanOrder RlmNode) (t : Table RlmNode) (project : String)
    (level : Int) (subject summaryText : String) (sourceHashes : List String)
    (volunteerUsername model templateVersion : Option String) (decidedBy freshNodeId : String)
    (now : Int) : Except String (Table RlmNode × Int × String) :=
  let input : NewRlmNode := {
    bufferId := none
    project := project
    level := level
    subject := subject
    summaryText := summaryText
    sourceHashes := sourceHashes
    model := model
    volunteerUsername := volunteerUsername
    createdBy := some decidedBy
    templateVersion := templateVersion
    tokenCount := 0 }
  match upsertNodeStmt scan t freshNodeId input now with
  | .error e => .error e
  | .ok (nodes, id, nodeId) =>
    .ok (nodes.update (fun i _ => i == id) fun _ n => { n with
      reviewStatus := .approved, reviewedBy := some decidedBy, reviewedAt := some now },
      id, nodeId)

/-- `review_rlm_node`: the verdict on a node, by its stable id. -/
def reviewRlmNode (t : Table RlmNode) (nodeId : String) (approved : Bool) (reviewer : String)
    (now : Int) : Table RlmNode :=
  t.update (fun _ n => n.nodeId == nodeId) fun _ n => { n with
    reviewStatus := if approved then .approved else .rejected
    reviewedBy := some reviewer
    reviewedAt := some now
    confidence := if approved then n.confidence else 0 }

end Arags
