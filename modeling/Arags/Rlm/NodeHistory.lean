import Arags.Lib.LinkedRows
import Arags.Rlm.NodeCuts

/-!
# Arags.Rlm.NodeHistory

The revisions of a summary: every writer of `rlm_nodes` as one atomic step, and the walk of
`get_node_history`.

* `getNodeHistory`  — the walk along `superseded_by`.
* `stepNodeWrite`, `written` — the writers, and the rows they hand out with their subjects.
* `RevisionOrder`   — the revisions of a subject are those written to it, in order, and the walk
  from one lists it and the later ones.
* `node_history_order` — every run leaves every subject so.
-/

namespace Arags

open Sql Chains

/-- What a node is a summary of. -/
abbrev NodeSubject := String × Int × String

def RlmNode.summarized (n : RlmNode) : NodeSubject := (n.project, n.level, n.subject)

def NewRlmNode.summarized (input : NewRlmNode) : NodeSubject :=
  (input.project, input.level, input.subject)

/-- From the row `id` on, oldest first; nothing when the fuel runs out. -/
def getNodeHistory (t : Table RlmNode) : Nat → Option Int → Option (List (Int × RlmNode)) :=
  chainFrom RlmNode.supersededBy t

/-! ## Writers -/

/-- `store_rlm_node`: the upsert on its own connection. -/
def storeRlmNode (scan : ScanOrder RlmNode) (t : Table RlmNode) (input : NewRlmNode)
    (freshNodeId : String) (now : Int) : Except String (Table RlmNode × Int × String) :=
  upsertNodeStmt scan t freshNodeId input now

inductive NodeWrite where
  | store (scan : ScanOrder RlmNode) (input : NewRlmNode) (nodeId : String) (now : Int)
  | publish (scan : ScanOrder RlmNode) (q : QuorumNode) (nodeId : String) (now : Int)
  | complete (scan : ScanOrder RlmNode) (jobId : Int) (worker : String) (generation : Int)
      (input : NewRlmNode) (nodeId : String) (now now' : Int)
  | review (nodeId : String) (approved : Bool) (reviewer : String) (now : Int)
  /-- Whatever else happens to the other tables. -/
  | others (db : RlmDb)

/-- The summary that a call writes. -/
def NodeWrite.input : NodeWrite → Option NewRlmNode
  | .store _ input _ _ => some input
  | .publish _ q _ _ => some q.input
  | .complete _ _ _ _ input _ _ _ => some input
  | _ => none

/-- The tables after a call, and the row that it hands out. -/
def runNodeWrite (db : RlmDb) : NodeWrite → RlmDb × Option (Int × String)
  | .store scan input nodeId now =>
    match storeRlmNode scan db.rlmNodes input nodeId now with
    | .ok (nodes, pair) => ({ db with rlmNodes := nodes }, some pair)
    | .error _ => (db, none)
  | .publish scan q nodeId now =>
    match publishRlmNodeForSubject scan db.rlmNodes q.project q.level q.subject q.summaryText
      q.sourceHashes q.volunteerUsername q.model q.templateVersion q.decidedBy nodeId now with
    | .ok (nodes, pair) => ({ db with rlmNodes := nodes }, some pair)
    | .error _ => (db, none)
  | .complete scan jobId worker generation input nodeId now now' =>
    match completeRlmJobWithNode scan db jobId worker generation input nodeId now now' with
    | (db, .ok pair) => (db, pair)
    | (db, .error _) => (db, none)
  | .review nodeId approved reviewer now =>
    ({ db with rlmNodes := reviewRlmNode db.rlmNodes nodeId approved reviewer now }, none)
  | .others db' => ({ db' with rlmNodes := db.rlmNodes }, none)

def stepNodeWrite (db : RlmDb) (w : NodeWrite) : RlmDb := (runNodeWrite db w).1

/-- The row that a call hands out, with the subject it was written to. -/
def written (db : RlmDb) (w : NodeWrite) : List (NodeSubject × Int) :=
  match w.input, (runNodeWrite db w).2 with
  | some input, some (id, _) => [(input.summarized, id)]
  | _, _ => []

/-- What was written to a subject, oldest first; the record has the newest first. -/
def writtenTo (record : List (NodeSubject × Int)) (s : NodeSubject) : List Int :=
  ((record.filter fun e => e.1 == s).map Prod.snd).reverse

/-! ## The order of the revisions -/

/-- The rows of a subject, by row id. -/
def nodeRevisions (t : Table RlmNode) (s : NodeSubject) : List (Int × RlmNode) :=
  t.select fun _ n => decide (n.summarized = s)

/-- The revisions of a subject are the rows `ids`, with the versions 1, 2, …; the last is the
active one, and the history of each is that row and the later ones. -/
structure RevisionOrder (t : Table RlmNode) (s : NodeSubject) (ids : List Int) : Prop where
  ids : (nodeRevisions t s).map Prod.fst = ids
  versions : ∀ (n : Nat) (h : n < (nodeRevisions t s).length),
    (nodeRevisions t s)[n].2.version = (n : Int) + 1
  active : ∀ (n : Nat) (h : n < (nodeRevisions t s).length),
    (nodeRevisions t s)[n].2.isActive = true ↔ n + 1 = (nodeRevisions t s).length
  history : ∀ (n : Nat) (h : n < (nodeRevisions t s).length), ∃ fuel,
    getNodeHistory t fuel (some (nodeRevisions t s)[n].1) = some ((nodeRevisions t s).drop n)

def RlmNode.link (n : RlmNode) : Link NodeSubject :=
  ⟨n.summarized, n.isActive, n.version, n.supersededBy⟩

/-- The rows of each subject are what was written to it, and they follow each other. -/
structure NodesInOrder (record : List (NodeSubject × Int)) (t : Table RlmNode) : Prop where
  chronicle : Chronicle (linksOf RlmNode.link t) (writtenTo record)
  ids : ∀ s, (rowsOf RlmNode.link t s).map Prod.fst = writtenTo record s

theorem NodesInOrder.revisionOrder {record : List (NodeSubject × Int)} {t : Table RlmNode}
    (h : NodesInOrder record t) (s : NodeSubject) :
    RevisionOrder t s (writtenTo record s) := by
  have hs : Succession (linksOf RlmNode.link t) s ((rowsOf RlmNode.link t s).map Prod.fst) :=
    (h.ids s).symm ▸ h.chronicle.each s
  refine ⟨h.ids s, ?_, ?_, ?_⟩
  · intro n hn
    exact (rowsOf_row hs hn).2
  · intro n hn
    have hlive : (nodeRevisions t s)[n].2.isActive = decide (n + 1 = (nodeRevisions t s).length) :=
      (rowsOf_row hs hn).1
    rw [hlive, decide_eq_true_eq]
  · intro n hn
    refine ⟨(nodeRevisions t s).length + 1, ?_⟩
    have hrows : ∀ x ∈ nodeRevisions t s, x ∈ t.rows := fun x hx => (List.mem_filter.mp hx).1
    exact chainFrom_succession hrows hs hn (by omega)

/-! ## One call -/

/-- A write that changes no link and no subject. -/
theorem NodesInOrder.update {record : List (NodeSubject × Int)} {t : Table RlmNode}
    {p : Int → RlmNode → Bool} {f : Int → RlmNode → RlmNode}
    (hf : ∀ i n, (f i n).link = n.link) (h : NodesInOrder record t) :
    NodesInOrder record (t.update p f) where
  chronicle := by
    rw [linksOf_update hf]
    exact h.chronicle
  ids := by
    intro s
    rw [idsOf_update fun i n => congrArg Link.subject (hf i n)]
    exact h.ids s

theorem writtenTo_cons (record : List (NodeSubject × Int)) (k s : NodeSubject) (id : Int) :
    writtenTo ((k, id) :: record) s = writtenTo record s ++ if k = s then [id] else [] := by
  unfold writtenTo
  by_cases h : k = s
  · simp [h]
  · simp [h]

theorem priorNode_current (scan : ScanOrder RlmNode) (t : Table RlmNode) (input : NewRlmNode) :
    Current (linksOf RlmNode.link t) input.summarized
      (((priorNode scan t input).map fun x => x.2.version + 1).getD 1)
      ((priorNode scan t input).map Prod.fst) := by
  refine current_scan scan (p := fun n => n.isLive input.project input.level input.subject)
    fun n => ?_
  simp [RlmNode.isLive, RlmNode.link, RlmNode.summarized, NewRlmNode.summarized, and_assoc]

section Replace

variable {t : Table RlmNode} {prior : Option (Int × RlmNode)} (input : NewRlmNode)
  (nodeId : String) (now : Int)

/-- Retire, insert and link together are a replacement. -/
theorem replacePrior_links {version : Int}
    (hprior : Current (linksOf RlmNode.link t) input.summarized version (prior.map Prod.fst)) :
    linksOf RlmNode.link (linkPrior ((retirePrior t prior).insert
        (nodeRow input nodeId prior now)) prior t.nextId) =
      supersede (linksOf RlmNode.link t) (prior.map Prod.fst) t.nextId input.summarized
        ((prior.map fun x => x.2.version + 1).getD 1) := by
  refine linksOf_replace (nodeRow input nodeId prior now) (fun n =>
    { n with isActive := false, supersededBy := some t.nextId }) ?_ rfl (fun _ => rfl)
  intro i
  cases prior with
  | none =>
    rw [linkPrior, retirePrior, Table.get?_insert]
    simp
  | some old =>
    obtain ⟨j, hj, -, -, -⟩ := hprior.live old.1 rfl
    have hne : old.1 ≠ t.nextId := Int.ne_of_lt (linksOf_lt hj)
    rw [linkPrior, retirePrior, Table.get?_update, Table.get?_insert, nextId_update,
      Table.get?_update]
    by_cases hi : i = t.nextId
    · subst hi
      simp [hne.symm]
    · by_cases ho : i = old.1
      · subst ho
        rw [if_neg hi, if_neg hi, if_pos (by simp), Option.map_map]
        congr 1
        funext n
        cases hn : n.isActive <;> simp [hn]
      · have ho' : ¬ some i = (some old).map Prod.fst := by simpa using ho
        have hfun : (fun n : RlmNode => if (i == old.1) = true then
            { n with supersededBy := some t.nextId } else n) = id := by
          funext n
          simp [ho]
        rw [if_neg hi, if_neg hi, if_neg ho', Option.map_map, hfun]
        simp [ho]

theorem replacePrior_ids (s : NodeSubject) :
    (rowsOf RlmNode.link (linkPrior ((retirePrior t prior).insert
        (nodeRow input nodeId prior now)) prior t.nextId) s).map Prod.fst =
      (rowsOf RlmNode.link t s).map Prod.fst ++
        if input.summarized = s then [t.nextId] else [] := by
  cases prior with
  | none => exact idsOf_insert _
  | some old =>
    rw [linkPrior, retirePrior, idsOf_update, idsOf_insert, nextId_update, idsOf_update]
    · rfl
    · intro _ _
      rfl
    · intro _ _
      rfl

end Replace

/-- The upsert adds the next revision of its subject. -/
theorem upsertNodeStmt_order {record : List (NodeSubject × Int)} {scan : ScanOrder RlmNode}
    {t t' : Table RlmNode} {nodeId name : String} {input : NewRlmNode} {now id : Int}
    (hI : NodesInOrder record t) (h : upsertNodeStmt scan t nodeId input now = .ok (t', id, name)) :
    NodesInOrder ((input.summarized, id) :: record) t' := by
  have hcurrent := priorNode_current scan t input
  rw [upsertNodeStmt_eq] at h
  dsimp only at h
  split at h
  · cases h
  split at h
  · cases h
  cases h
  generalize priorNode scan t input = prior at hcurrent ⊢
  rw [retirePrior_nextId]
  refine ⟨?_, ?_⟩
  · rw [replacePrior_links input nodeId now hcurrent]
    refine hI.chronicle.supersede (fun i l h => linksOf_lt h) hcurrent ?_ ?_ ?_
    · intro hnone
      rw [Option.map_eq_none_iff] at hnone
      rw [hnone]
      rfl
    · rw [writtenTo_cons, if_pos rfl]
    · intro k hk
      rw [writtenTo_cons, if_neg (Ne.symm hk), List.append_nil]
  · intro s
    rw [replacePrior_ids, hI.ids, writtenTo_cons]

theorem publishRlmNodeForSubject_order {record : List (NodeSubject × Int)}
    {scan : ScanOrder RlmNode} {t t' : Table RlmNode} {q : QuorumNode} {nodeId name : String}
    {now id : Int} (hI : NodesInOrder record t)
    (h : publishRlmNodeForSubject scan t q.project q.level q.subject q.summaryText q.sourceHashes
      q.volunteerUsername q.model q.templateVersion q.decidedBy nodeId now = .ok (t', id, name)) :
    NodesInOrder ((q.input.summarized, id) :: record) t' := by
  unfold publishRlmNodeForSubject at h
  dsimp only at h
  split at h
  · cases h
  rename_i nodes rowid stable hup
  cases h
  have horder : NodesInOrder ((q.input.summarized, id) :: record) nodes :=
    upsertNodeStmt_order hI hup
  exact horder.update fun _ _ => rfl

/-- A call adds to the record what it adds to the table. -/
theorem stepNodeWrite_order {record : List (NodeSubject × Int)} {db : RlmDb}
    (hI : NodesInOrder record db.rlmNodes) (w : NodeWrite) :
    NodesInOrder (written db w ++ record) (stepNodeWrite db w).rlmNodes := by
  unfold written stepNodeWrite
  cases w with
  | store scan input nodeId now =>
    simp only [runNodeWrite, NodeWrite.input, storeRlmNode]
    cases h : upsertNodeStmt scan db.rlmNodes nodeId input now with
    | error e => exact hI
    | ok out => exact upsertNodeStmt_order hI h
  | publish scan q nodeId now =>
    simp only [runNodeWrite, NodeWrite.input]
    cases h : publishRlmNodeForSubject scan db.rlmNodes q.project q.level q.subject q.summaryText
        q.sourceHashes q.volunteerUsername q.model q.templateVersion q.decidedBy nodeId now with
    | error e => exact hI
    | ok out => exact publishRlmNodeForSubject_order hI h
  | complete scan jobId worker generation input nodeId now now' =>
    simp only [runNodeWrite, NodeWrite.input]
    rcases completeRlmJobWithNode_cases db scan jobId worker generation input nodeId now now' with
      ⟨o, he, ho⟩ | ⟨r, nodes, pair, -, -, -, hu, he⟩
    · rw [he]
      cases o with
      | error e => exact hI
      | ok pair =>
        cases pair with
        | none => exact hI
        | some pair => exact absurd rfl (ho pair)
    · rw [he]
      exact upsertNodeStmt_order hI hu
  | review nodeId approved reviewer now =>
    simp only [runNodeWrite, NodeWrite.input, reviewRlmNode, List.nil_append]
    refine hI.update ?_
    intro _ _
    rfl
  | others db' => exact hI

/-! ## Runs -/

/-- In every run from an empty table, the revisions of a subject are what was written to it: in
this order, with the versions 1, 2, …, the last one active, each with the later ones as its
history. -/
theorem node_history_order (db : RlmDb) (ws : List NodeWrite) (s : NodeSubject) :
    RevisionOrder (Lts.after (Lts.recorded stepNodeWrite written)
        ([], { db with rlmNodes := Table.empty }) ws).2.rlmNodes s
      (writtenTo (Lts.after (Lts.recorded stepNodeWrite written)
        ([], { db with rlmNodes := Table.empty }) ws).1 s) := by
  have hempty : NodesInOrder [] ({ db with rlmNodes := Table.empty } : RlmDb).rlmNodes :=
    ⟨Chronicle.empty, fun _ => rfl⟩
  refine NodesInOrder.revisionOrder ?_ s
  exact Lts.recorded_inv (I := fun record (x : RlmDb) => NodesInOrder record x.rlmNodes) hempty
    (fun _ _ w h => stepNodeWrite_order h w) ws

end Arags
