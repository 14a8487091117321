import Arags.Lib.Revisions
import Arags.Lib.Runs
import Arags.Rlm.Publication

/-!
# Arags.Rlm.NodeCuts

The three writers of `rlm_nodes`, cut off after any of their statements. Outside a transaction
each statement is committed when it returns, so what a cut leaves is what had run.

* `upsertUpTo`, `storeUpTo`, `publishUpTo`, `completeUpTo` — the writers up to their last
  statement that ran; `upsertUpTo_link` and `publishUpTo_approve` say that this is the uncut
  writer when nothing cuts it.
* `liveVersions` — the active nodes of a subject, each with its version.
* `LiveKept`     — a subject with an active node keeps one, the old or its successor.
* `live_summary` — every call of a run keeps the live summaries exactly when none is cut inside.
-/

namespace Arags

open Sql

/-! ## Writers and their cuts -/

/-- The last statement of a writer that ran. -/
inductive LastRun where
  | probe | retire | insert | link | approve
  deriving DecidableEq, Repr

/-- The insert was reached. -/
def LastRun.inserts : LastRun → Bool
  | .probe => false
  | .retire => false
  | _ => true

/-- The `INSERT` fails on a `node_id` or on an active row of the subject. -/
def insertRefused (t : Table RlmNode) (nodeId : String) (input : NewRlmNode) : Bool :=
  t.rows.any (fun x => x.2.nodeId == nodeId) ||
    t.rows.any fun x => x.2.isLive input.project input.level input.subject

/-- `upsert_node_stmt` up to its last statement that ran, and the row id it returns. -/
def upsertUpTo (scan : ScanOrder RlmNode) (t : Table RlmNode) (nodeId : String)
    (input : NewRlmNode) (now : Int) (last : LastRun) : Table RlmNode × Option Int :=
  let prior := priorNode scan t input
  let retired := retirePrior t prior
  let inserted := retired.insert (nodeRow input nodeId prior now)
  if last = .probe then (t, none)
  else if last.inserts = false ∨ insertRefused retired nodeId input = true then (retired, none)
  else if last = .insert then (inserted, none)
  else (linkPrior inserted prior retired.nextId, some retired.nextId)

def storeUpTo (scan : ScanOrder RlmNode) (t : Table RlmNode) (nodeId : String)
    (input : NewRlmNode) (now : Int) (last : LastRun) : Table RlmNode :=
  (upsertUpTo scan t nodeId input now last).1

/-- What a quorum publishes. -/
structure QuorumNode where
  project : String
  level : Int
  subject : String
  summaryText : String
  sourceHashes : List String
  volunteerUsername : Option String
  model : Option String
  templateVersion : Option String
  decidedBy : String
  deriving DecidableEq, Repr

def QuorumNode.input (q : QuorumNode) : NewRlmNode where
  bufferId := none
  project := q.project
  level := q.level
  subject := q.subject
  summaryText := q.summaryText
  sourceHashes := q.sourceHashes
  model := q.model
  volunteerUsername := q.volunteerUsername
  createdBy := some q.decidedBy
  templateVersion := q.templateVersion
  tokenCount := 0

def approveNode (t : Table RlmNode) (id : Int) (decidedBy : String) (now : Int) : Table RlmNode :=
  t.update (fun i _ => i == id) fun _ n => { n with
    reviewStatus := .approved, reviewedBy := some decidedBy, reviewedAt := some now }

def publishUpTo (scan : ScanOrder RlmNode) (t : Table RlmNode) (q : QuorumNode)
    (freshNodeId : String) (now : Int) (last : LastRun) : Table RlmNode :=
  match upsertUpTo scan t freshNodeId q.input now last with
  | (nodes, some id) => if last = .approve then approveNode nodes id q.decidedBy now else nodes
  | (nodes, none) => nodes

/-- One transaction: without its commit nothing is written. -/
def completeUpTo (scan : ScanOrder RlmNode) (db : RlmDb) (jobId : Int) (worker : String)
    (generation : Int) (input : NewRlmNode) (freshNodeId : String) (now now' : Int)
    (committed : Bool) : RlmDb :=
  if committed then
    (completeRlmJobWithNode scan db jobId worker generation input freshNodeId now now').1
  else db

/-- With every statement run, this is the upsert. -/
theorem upsertUpTo_link {scan : ScanOrder RlmNode} {t : Table RlmNode} {nodeId : String}
    {input : NewRlmNode} {now : Int} {last : LastRun} (hlast : last = .link ∨ last = .approve)
    {nodes : Table RlmNode} {id : Int} :
    upsertUpTo scan t nodeId input now last = (nodes, some id) ↔
      upsertNodeStmt scan t nodeId input now = .ok (nodes, id, nodeId) := by
  have hprobe : last ≠ .probe := by rcases hlast with rfl | rfl <;> decide
  have hins : last.inserts = true := by rcases hlast with rfl | rfl <;> rfl
  have hinsert : last ≠ .insert := by rcases hlast with rfl | rfl <;> decide
  rw [upsertNodeStmt_eq]
  simp only [upsertUpTo, hprobe, hins, hinsert, if_false, insertRefused, Bool.or_eq_true,
    Bool.true_eq_false, false_or]
  by_cases h1 : (retirePrior t (priorNode scan t input)).rows.any
      (fun x => x.2.nodeId == nodeId) = true
  · simp [h1]
  · by_cases h2 : (retirePrior t (priorNode scan t input)).rows.any
        (fun x => x.2.isLive input.project input.level input.subject) = true
    · simp [h1, h2]
    · simp [h1, h2]

theorem publishUpTo_approve {scan : ScanOrder RlmNode} {t nodes : Table RlmNode} {q : QuorumNode}
    {nodeId name : String} {now id : Int}
    (h : publishRlmNodeForSubject scan t q.project q.level q.subject q.summaryText q.sourceHashes
      q.volunteerUsername q.model q.templateVersion q.decidedBy nodeId now =
        .ok (nodes, id, name)) :
    publishUpTo scan t q nodeId now .approve = nodes := by
  unfold publishRlmNodeForSubject at h
  dsimp only at h
  split at h
  · cases h
  · rename_i up i n hup
    cases h
    have hname := (upsertNodeStmt_ok hup).1
    subst hname
    have hrun : upsertUpTo scan t name q.input now .approve = (up, some id) :=
      (upsertUpTo_link (.inr rfl)).mpr hup
    simp only [publishUpTo, hrun, if_true]
    rfl

/-! ## Runs -/

inductive NodeOp where
  | store (scan : ScanOrder RlmNode) (nodeId : String) (input : NewRlmNode) (now : Int)
      (last : LastRun)
  | publish (scan : ScanOrder RlmNode) (q : QuorumNode) (nodeId : String) (now : Int)
      (last : LastRun)
  | complete (scan : ScanOrder RlmNode) (jobId : Int) (worker : String) (generation : Int)
      (input : NewRlmNode) (nodeId : String) (now now' : Int) (committed : Bool)
  /-- Whatever else happens to the queue. -/
  | queue (rlmJobs : Table RlmJob)

def stepNodes (db : RlmDb) : NodeOp → RlmDb
  | .store scan nodeId input now last =>
    { db with rlmNodes := storeUpTo scan db.rlmNodes nodeId input now last }
  | .publish scan q nodeId now last =>
    { db with rlmNodes := publishUpTo scan db.rlmNodes q nodeId now last }
  | .complete scan jobId worker generation input nodeId now now' committed =>
    completeUpTo scan db jobId worker generation input nodeId now now' committed
  | .queue rlmJobs => { db with rlmJobs := rlmJobs }

/-- The row that a publication inserts. -/
def publishedIds (db : RlmDb) (op : NodeOp) : List Int :=
  match op with
  | .publish _ _ _ _ _ =>
    ((stepNodes db op).rlmNodes.select fun i _ => (db.rlmNodes.get? i).isNone).map Prod.fst
  | _ => []

/-- The active nodes of a subject, each with its version. -/
def liveVersions (t : Table RlmNode) (project : String) (level : Int) (subject : String) :
    List (Int × Int) :=
  (liveNodes t project level subject).map fun x => (x.1, x.2.version)

/-- A subject with an active node has exactly one afterwards: the same, or a new one whose
version is one more. -/
def LiveKept (t t' : Table RlmNode) : Prop :=
  ∀ project level subject, ∀ x ∈ liveVersions t project level subject,
    ∃ y, liveVersions t' project level subject = [y] ∧ (y = x ∨ (y.1 ≠ x.1 ∧ y.2 = x.2 + 1))

/-- No row of `published` is active without an approval. -/
def PublishedApproved (published : List Int) (t : Table RlmNode) : Prop :=
  ∀ i ∈ published, ∀ n, (i, n) ∈ t.rows → n.isActive = true → n.reviewStatus = .approved

/-- What one call must leave; `s` and `s'` are the published rows and the tables before and
after it. -/
def CallSafe (s s' : List Int × RlmDb) : Prop :=
  LiveKept s.2.rlmNodes s'.2.rlmNodes ∧ PublishedApproved s'.1 s'.2.rlmNodes

/-- The insert goes through: it was reached, and the node id is new. -/
def insertRuns (t : Table RlmNode) (nodeId : String) (last : LastRun) : Bool :=
  last.inserts && !t.rows.any fun x => x.2.nodeId == nodeId

/-- A subject with an active node: nothing ran, or the insert did. -/
def UpsertUncut (t : Table RlmNode) (nodeId : String) (input : NewRlmNode) (last : LastRun) :
    Prop :=
  liveVersions t input.project input.level input.subject = [] ∨ last = .probe ∨
    insertRuns t nodeId last = true

/-- The call is not cut between the statements that belong together. -/
def Uncut (db : RlmDb) : NodeOp → Prop
  | .store _ nodeId input _ last => UpsertUncut db.rlmNodes nodeId input last
  | .publish _ q nodeId _ last => UpsertUncut db.rlmNodes nodeId q.input last ∧
    (insertRuns db.rlmNodes nodeId last = true → last = .approve)
  | _ => True

/-! ## Active nodes after each statement -/

section Live

variable {t : Table RlmNode} {project subject : String} {level : Int}

theorem liveVersions_update {q : Int → RlmNode → Bool} {f : Int → RlmNode → RlmNode}
    (hlive : ∀ i n, (f i n).isLive project level subject = n.isLive project level subject)
    (hversion : ∀ i n, (f i n).version = n.version) :
    liveVersions (t.update q f) project level subject = liveVersions t project level subject := by
  have hs := Table.select_update_in (t := t) (p := fun _ n => n.isLive project level subject)
    (q := q) (f := f) hlive
  unfold liveVersions liveNodes
  rw [hs, List.map_map]
  refine List.map_congr_left fun x _ => ?_
  simp only [Function.comp_apply]
  split
  · rw [hversion]
  · rfl

theorem liveVersions_insert (n : RlmNode) :
    liveVersions (t.insert n) project level subject = liveVersions t project level subject ++
      if n.isLive project level subject then [(t.nextId, n.version)] else [] := by
  unfold liveVersions liveNodes
  rw [Table.select_insert, List.map_append]
  split <;> rfl

theorem mem_liveVersions {x : Int × Int} : x ∈ liveVersions t project level subject ↔
    ∃ n, (x.1, n) ∈ t.rows ∧ n.isLive project level subject = true ∧ n.version = x.2 := by
  unfold liveVersions liveNodes
  rw [List.mem_map]
  constructor
  · rintro ⟨⟨i, n⟩, hm, rfl⟩
    obtain ⟨hr, hl⟩ := Table.mem_select.mp hm
    exact ⟨n, hr, hl, rfl⟩
  · rintro ⟨n, hr, hl, hv⟩
    exact ⟨(x.1, n), Table.mem_select.mpr ⟨hr, hl⟩, by rw [hv]⟩

theorem isLive_key {n : RlmNode} {project' subject' : String} {level' : Int}
    (h : n.isLive project level subject = true) (h' : n.isLive project' level' subject' = true) :
    (project, level, subject) = (project', level', subject') := by
  simp only [RlmNode.isLive, Bool.and_eq_true, beq_iff_eq] at h h'
  obtain ⟨⟨⟨rfl, rfl⟩, rfl⟩, -⟩ := h
  obtain ⟨⟨⟨rfl, rfl⟩, rfl⟩, -⟩ := h'
  rfl

/-- The retired row is out of every selection of active nodes. -/
theorem liveVersions_retire (old : Int × RlmNode) :
    liveVersions (retirePrior t (some old)) project level subject =
      (liveVersions t project level subject).filter fun x => x.1 != old.1 := by
  have hs := Table.select_update_out (t := t) (p := fun _ n => n.isLive project level subject)
    (q := fun i n => i == old.1 && n.isActive) (f := fun _ n => { n with isActive := false })
    (by intro i n _ _; simp [RlmNode.isLive])
  unfold liveVersions liveNodes retirePrior
  simp only [hs, List.filter_map]
  refine congrArg _ (List.filter_congr fun x hx => ?_)
  have hl := (List.mem_filter.mp hx).2
  have hactive : x.2.isActive = true := by
    simp only [RlmNode.isLive, Bool.and_eq_true] at hl
    exact hl.2
  simp [hactive, bne]

/-- No subject has two active nodes. -/
def LiveOne (t : Table RlmNode) : Prop :=
  ∀ project level subject, (liveVersions t project level subject).length ≤ 1

theorem LiveOne.eq_singleton (h : LiveOne t) {x : Int × Int}
    (hx : x ∈ liveVersions t project level subject) :
    liveVersions t project level subject = [x] := by
  have hle := h project level subject
  match hl : liveVersions t project level subject with
  | [] => rw [hl] at hx; cases hx
  | [y] =>
    rw [hl] at hx
    rw [List.mem_singleton.mp hx]
  | y :: z :: rest =>
    rw [hl] at hle
    simp at hle

/-- What the probe finds. -/
theorem priorNode_cases (h : LiveOne t) (scan : ScanOrder RlmNode) (input : NewRlmNode) :
    (priorNode scan t input = none ∧
      liveVersions t input.project input.level input.subject = []) ∨
    ∃ old, priorNode scan t input = some old ∧ old ∈ t.rows ∧
      old.2.isLive input.project input.level input.subject = true ∧
      liveVersions t input.project input.level input.subject = [(old.1, old.2.version)] := by
  unfold priorNode
  cases hs : (scan.order
      (t.select fun _ n => n.isLive input.project input.level input.subject)).head? with
  | none =>
    refine .inl ⟨rfl, ?_⟩
    have hnil := List.head?_eq_none_iff.mp hs
    have hperm := scan.perm (t.select fun _ n => n.isLive input.project input.level input.subject)
    rw [hnil] at hperm
    unfold liveVersions liveNodes
    rw [hperm.symm.eq_nil]
    rfl
  | some old =>
    have hm := Table.mem_select.mp (scan.mem_order.mp (List.mem_of_mem_head? hs))
    refine .inr ⟨old, rfl, hm.1, hm.2, h.eq_singleton ?_⟩
    exact mem_liveVersions.mpr ⟨old.2, hm.1, hm.2, rfl⟩

theorem liveVersions_retired (h : LiveOne t) (scan : ScanOrder RlmNode) (input : NewRlmNode) :
    liveVersions (retirePrior t (priorNode scan t input)) project level subject =
      if (project, level, subject) = (input.project, input.level, input.subject) then []
      else liveVersions t project level subject := by
  rcases priorNode_cases h scan input with ⟨hp, hnil⟩ | ⟨old, hp, hm, hl, hone⟩
  · rw [hp]
    split
    · rename_i hkey
      cases hkey
      exact hnil
    · rfl
  · rw [hp, liveVersions_retire]
    split
    · rename_i hkey
      cases hkey
      rw [hone]
      simp
    · rename_i hkey
      rw [List.filter_eq_self]
      intro x hx
      obtain ⟨n, hr, hln, -⟩ := mem_liveVersions.mp hx
      rw [bne_iff_ne]
      intro he
      rw [he] at hr
      have : n = old.2 := Table.eq_of_mem hr hm
      subst this
      exact hkey (isLive_key hln hl)

theorem retirePrior_nodeIds (prior : Option (Int × RlmNode)) (nodeId : String) :
    (retirePrior t prior).rows.any (fun x => x.2.nodeId == nodeId) =
      t.rows.any fun x => x.2.nodeId == nodeId := by
  cases prior with
  | none => rfl
  | some old =>
    simp only [retirePrior, Table.update, List.any_map]
    congr 1
    funext x
    simp only [Function.comp_apply]
    split <;> rfl

theorem retirePrior_nextId (prior : Option (Int × RlmNode)) :
    (retirePrior t prior).nextId = t.nextId := by
  cases prior with
  | none => rfl
  | some old => exact nextId_update t _ _

/-- The retirement makes room in the index, so only the node id can refuse the insert. -/
theorem insertRefused_retired (h : LiveOne t) (scan : ScanOrder RlmNode) (nodeId : String)
    (input : NewRlmNode) : insertRefused (retirePrior t (priorNode scan t input)) nodeId input =
      t.rows.any fun x => x.2.nodeId == nodeId := by
  have hnone : (retirePrior t (priorNode scan t input)).rows.any
      (fun x => x.2.isLive input.project input.level input.subject) = false := by
    rw [List.any_eq_false]
    intro x hx hl
    have hm : (x.1, x.2.version) ∈ liveVersions (retirePrior t (priorNode scan t input))
        input.project input.level input.subject := mem_liveVersions.mpr ⟨x.2, hx, hl, rfl⟩
    rw [liveVersions_retired h, if_pos rfl] at hm
    cases hm
  rw [insertRefused, hnone, Bool.or_false, retirePrior_nodeIds]

/-- The helper by what ran: nothing, the retirement, the insert, or all of it. -/
theorem upsertUpTo_cases (h : LiveOne t) (scan : ScanOrder RlmNode) (nodeId : String)
    (input : NewRlmNode) (now : Int) (last : LastRun) :
    (last = .probe ∧ upsertUpTo scan t nodeId input now last = (t, none)) ∨
    (last ≠ .probe ∧ insertRuns t nodeId last = false ∧
      upsertUpTo scan t nodeId input now last =
        (retirePrior t (priorNode scan t input), none)) ∨
    (last ≠ .approve ∧ insertRuns t nodeId last = true ∧
      upsertUpTo scan t nodeId input now last =
        ((retirePrior t (priorNode scan t input)).insert
          (nodeRow input nodeId (priorNode scan t input) now), none)) ∨
    (insertRuns t nodeId last = true ∧ upsertUpTo scan t nodeId input now last =
      (linkPrior ((retirePrior t (priorNode scan t input)).insert
        (nodeRow input nodeId (priorNode scan t input) now)) (priorNode scan t input) t.nextId,
        some t.nextId)) := by
  simp only [upsertUpTo, insertRefused_retired h, retirePrior_nextId, insertRuns]
  generalize t.rows.any (fun x => x.2.nodeId == nodeId) = taken
  cases last <;> cases taken <;> simp [LastRun.inserts]

theorem liveVersions_inserted (h : LiveOne t) (scan : ScanOrder RlmNode) (nodeId : String)
    (input : NewRlmNode) (now : Int) :
    liveVersions ((retirePrior t (priorNode scan t input)).insert
        (nodeRow input nodeId (priorNode scan t input) now)) project level subject =
      if (project, level, subject) = (input.project, input.level, input.subject) then
        [(t.nextId, ((priorNode scan t input).map fun x => x.2.version + 1).getD 1)]
      else liveVersions t project level subject := by
  rw [liveVersions_insert, liveVersions_retired h, retirePrior_nextId]
  have hlive : (nodeRow input nodeId (priorNode scan t input) now).isLive project level subject =
      decide ((project, level, subject) = (input.project, input.level, input.subject)) := by
    simp only [RlmNode.isLive, nodeRow, Bool.and_true, Prod.mk.injEq, Bool.decide_and]
    rw [Bool.and_assoc]
    simp only [Bool.beq_eq_decide_eq, eq_comm]
  rw [hlive]
  by_cases hkey : (project, level, subject) = (input.project, input.level, input.subject)
  · rw [if_pos hkey, if_pos hkey, if_pos (by simpa using hkey)]
    rfl
  · rw [if_neg hkey, if_neg hkey, if_neg (by simpa using hkey)]
    exact List.append_nil _

theorem liveVersions_linked (prior : Option (Int × RlmNode)) (newId : Int) :
    liveVersions (linkPrior t prior newId) project level subject =
      liveVersions t project level subject := by
  cases prior with
  | none => rfl
  | some old => exact liveVersions_update (fun _ _ => rfl) fun _ _ => rfl

/-- The active nodes after the helper, whatever cut it. -/
theorem upsertUpTo_live (h : LiveOne t) (scan : ScanOrder RlmNode) (nodeId : String)
    (input : NewRlmNode) (now : Int) (last : LastRun) :
    liveVersions (upsertUpTo scan t nodeId input now last).1 project level subject =
      if last ≠ .probe ∧
        (project, level, subject) = (input.project, input.level, input.subject) then
        if insertRuns t nodeId last then
          [(t.nextId, ((priorNode scan t input).map fun x => x.2.version + 1).getD 1)]
        else []
      else liveVersions t project level subject := by
  rcases upsertUpTo_cases h scan nodeId input now last with ⟨hl, he⟩ | ⟨hl, hi, he⟩ |
    ⟨-, hi, he⟩ | ⟨hi, he⟩
  · rw [he, if_neg (fun hc => hc.1 hl)]
  · rw [he, liveVersions_retired h]
    simp [hl, hi]
  · have hl : last ≠ .probe := by rintro rfl; simp [insertRuns, LastRun.inserts] at hi
    rw [he, liveVersions_inserted h]
    simp [hl, hi]
  · have hl : last ≠ .probe := by rintro rfl; simp [insertRuns, LastRun.inserts] at hi
    rw [he, liveVersions_linked, liveVersions_inserted h]
    simp [hl, hi]

theorem upsertUpTo_liveOne (h : LiveOne t) (scan : ScanOrder RlmNode) (nodeId : String)
    (input : NewRlmNode) (now : Int) (last : LastRun) :
    LiveOne (upsertUpTo scan t nodeId input now last).1 := by
  intro project level subject
  rw [upsertUpTo_live h]
  split
  · split
    · exact Nat.le_refl _
    · exact Nat.zero_le _
  · exact h project level subject

/-- The helper keeps the live summary exactly when it is not cut between retiring the old row
and inserting the new one. -/
theorem upsertUpTo_kept (h : LiveOne t) (scan : ScanOrder RlmNode) (nodeId : String)
    (input : NewRlmNode) (now : Int) (last : LastRun) :
    LiveKept t (upsertUpTo scan t nodeId input now last).1 ↔ UpsertUncut t nodeId input last := by
  constructor
  · intro hk
    rcases priorNode_cases h scan input with ⟨-, hnil⟩ | ⟨old, -, -, -, hone⟩
    · exact .inl hnil
    · obtain ⟨y, hy, -⟩ := hk input.project input.level input.subject (old.1, old.2.version)
        (by rw [hone]; exact List.mem_singleton_self _)
      rw [upsertUpTo_live h] at hy
      by_cases hl : last = .probe
      · exact .inr (.inl hl)
      · refine .inr (.inr ?_)
        rw [if_pos ⟨hl, rfl⟩] at hy
        by_contra hi
        rw [if_neg hi] at hy
        cases hy
  · intro hu project level subject x hx
    rw [upsertUpTo_live h]
    split
    · rename_i hc
      obtain ⟨hl, hkey⟩ := hc
      cases hkey
      rcases priorNode_cases h scan input with ⟨-, hnil⟩ | ⟨old, hp, hm, -, hone⟩
      · rw [hnil] at hx
        cases hx
      · rw [hone, List.mem_singleton] at hx
        subst hx
        rcases hu with hnil | hprobe | hi
        · rw [hone] at hnil
          cases hnil
        · exact absurd hprobe hl
        · rw [if_pos hi, hp]
          refine ⟨_, rfl, .inr ⟨?_, rfl⟩⟩
          exact (Int.ne_of_lt (Table.lt_nextId hm)).symm
    · exact ⟨x, h.eq_singleton hx, .inl rfl⟩

/-! ## Published rows -/

/-- What the rows after the helper come from: an earlier row, active only if that was and with
its review, or the row it inserted. -/
theorem mem_upsertUpTo (h : LiveOne t) {scan : ScanOrder RlmNode} {nodeId : String}
    {input : NewRlmNode} {now : Int} {last : LastRun} {i : Int} {n : RlmNode}
    (hm : (i, n) ∈ (upsertUpTo scan t nodeId input now last).1.rows) :
    (∃ m, (i, m) ∈ t.rows ∧ (n.isActive = true → m.isActive = true) ∧
      n.reviewStatus = m.reviewStatus) ∨
    (i = t.nextId ∧ insertRuns t nodeId last = true ∧ n.isActive = true ∧
      n.reviewStatus = .pending) := by
  have hretired : ∀ {n}, (i, n) ∈ (retirePrior t (priorNode scan t input)).rows →
      ∃ m, (i, m) ∈ t.rows ∧ (n.isActive = true → m.isActive = true) ∧
        n.reviewStatus = m.reviewStatus := by
    intro n hn
    cases hp : priorNode scan t input with
    | none =>
      rw [hp] at hn
      exact ⟨n, hn, id, rfl⟩
    | some old =>
      rw [hp] at hn
      obtain ⟨m, hm, rfl⟩ := Table.mem_update.mp hn
      refine ⟨m, hm, ?_, ?_⟩
      · split
        · intro hf; cases hf
        · exact id
      · split <;> rfl
  have hinserted : ∀ {n}, insertRuns t nodeId last = true →
      (i, n) ∈ ((retirePrior t (priorNode scan t input)).insert
        (nodeRow input nodeId (priorNode scan t input) now)).rows →
      (∃ m, (i, m) ∈ t.rows ∧ (n.isActive = true → m.isActive = true) ∧
        n.reviewStatus = m.reviewStatus) ∨
      (i = t.nextId ∧ insertRuns t nodeId last = true ∧ n.isActive = true ∧
        n.reviewStatus = .pending) := by
    intro n hi hn
    rcases Table.mem_insert.mp hn with hn | ⟨hid, rfl⟩
    · exact .inl (hretired hn)
    · rw [retirePrior_nextId] at hid
      exact .inr ⟨hid, hi, rfl, rfl⟩
  rcases upsertUpTo_cases h scan nodeId input now last with ⟨-, he⟩ | ⟨-, -, he⟩ |
    ⟨-, hi, he⟩ | ⟨hi, he⟩
  · rw [he] at hm
    exact .inl ⟨n, hm, id, rfl⟩
  · rw [he] at hm
    exact .inl (hretired hm)
  · rw [he] at hm
    exact hinserted hi hm
  · rw [he] at hm
    cases hp : priorNode scan t input with
    | none =>
      rw [hp] at hm hinserted
      exact hinserted hi hm
    | some old =>
      rw [hp] at hm hinserted
      obtain ⟨k, hk, rfl⟩ := Table.mem_update.mp hm
      have hcols : (if (i == old.1) = true then { k with supersededBy := some t.nextId }
          else k).isActive = k.isActive ∧
          (if (i == old.1) = true then { k with supersededBy := some t.nextId }
            else k).reviewStatus = k.reviewStatus := by
        split <;> exact ⟨rfl, rfl⟩
      rw [hcols.1, hcols.2]
      exact hinserted hi hk

/-- The inserted row is there. -/
theorem upsertUpTo_inserted (h : LiveOne t) (scan : ScanOrder RlmNode) {nodeId : String}
    (input : NewRlmNode) (now : Int) {last : LastRun} (hi : insertRuns t nodeId last = true) :
    ∃ n, (t.nextId, n) ∈ (upsertUpTo scan t nodeId input now last).1.rows ∧
      n.isActive = true := by
  have hl : last ≠ .probe := by rintro rfl; simp [insertRuns, LastRun.inserts] at hi
  have hlive : liveVersions (upsertUpTo scan t nodeId input now last).1 input.project
      input.level input.subject = _ := upsertUpTo_live h scan nodeId input now last
  rw [if_pos ⟨hl, rfl⟩, if_pos hi] at hlive
  obtain ⟨n, hn, hlv, -⟩ := mem_liveVersions.mp (hlive ▸ List.mem_singleton_self _)
  simp only [RlmNode.isLive, Bool.and_eq_true] at hlv
  exact ⟨n, hn, hlv.2⟩

theorem publishUpTo_eq (h : LiveOne t) (scan : ScanOrder RlmNode) (q : QuorumNode)
    (nodeId : String) (now : Int) (last : LastRun) :
    publishUpTo scan t q nodeId now last =
      if insertRuns t nodeId last = true ∧ last = .approve then
        approveNode (upsertUpTo scan t nodeId q.input now last).1 t.nextId q.decidedBy now
      else (upsertUpTo scan t nodeId q.input now last).1 := by
  unfold publishUpTo
  rcases upsertUpTo_cases h scan nodeId q.input now last with ⟨hl, he⟩ | ⟨-, hi, he⟩ |
    ⟨hl, -, he⟩ | ⟨hi, he⟩
  · rw [he, if_neg]
    rintro ⟨-, rfl⟩
    cases hl
  · rw [he, if_neg]
    rintro ⟨hi', -⟩
    rw [hi] at hi'
    cases hi'
  · rw [he, if_neg]
    exact fun hc => hl hc.2
  · rw [he]
    by_cases hl : last = .approve
    · rw [if_pos ⟨hi, hl⟩]
      exact if_pos hl
    · rw [if_neg fun hc => hl hc.2]
      exact if_neg hl

theorem publishUpTo_live (h : LiveOne t) (scan : ScanOrder RlmNode) (q : QuorumNode)
    (nodeId : String) (now : Int) (last : LastRun) :
    liveVersions (publishUpTo scan t q nodeId now last) project level subject =
      liveVersions (upsertUpTo scan t nodeId q.input now last).1 project level subject := by
  rw [publishUpTo_eq h]
  split
  · exact liveVersions_update (fun _ _ => rfl) fun _ _ => rfl
  · rfl

theorem mem_publishUpTo (h : LiveOne t) {scan : ScanOrder RlmNode} {q : QuorumNode}
    {nodeId : String} {now : Int} {last : LastRun} {i : Int} {n : RlmNode}
    (hm : (i, n) ∈ (publishUpTo scan t q nodeId now last).rows) :
    (∃ m, (i, m) ∈ t.rows ∧ (n.isActive = true → m.isActive = true) ∧
      n.reviewStatus = m.reviewStatus) ∨
    (i = t.nextId ∧ insertRuns t nodeId last = true ∧ n.isActive = true ∧
      (n.reviewStatus = .approved ↔ last = .approve)) := by
  rw [publishUpTo_eq h] at hm
  split at hm
  · rename_i hc
    obtain ⟨m, hup, rfl⟩ := Table.mem_update.mp hm
    rcases mem_upsertUpTo h hup with ⟨k, hk, ha, hr⟩ | ⟨hi, hins, ha, -⟩
    · have hne : ¬ (i == t.nextId) = true := by
        have := Table.lt_nextId hk
        rw [beq_iff_eq]
        omega
      rw [if_neg hne]
      exact .inl ⟨k, hk, ha, hr⟩
    · rw [if_pos (by simpa using hi)]
      exact .inr ⟨hi, hins, ha, iff_of_true rfl hc.2⟩
  · rename_i hc
    rcases mem_upsertUpTo h hm with hold | ⟨hi, hins, ha, hr⟩
    · exact .inl hold
    · refine .inr ⟨hi, hins, ha, iff_of_false ?_ fun hl => hc ⟨hins, hl⟩⟩
      rw [hr]
      decide

theorem publishUpTo_inserted (h : LiveOne t) (scan : ScanOrder RlmNode) (q : QuorumNode)
    {nodeId : String} (now : Int) {last : LastRun} (hi : insertRuns t nodeId last = true) :
    ∃ n, (t.nextId, n) ∈ (publishUpTo scan t q nodeId now last).rows ∧ n.isActive = true := by
  obtain ⟨n, hn, ha⟩ := upsertUpTo_inserted h scan q.input now hi
  rw [publishUpTo_eq h]
  split
  · refine ⟨_, Table.mem_update.mpr ⟨n, hn, rfl⟩, ?_⟩
    split <;> exact ha
  · exact ⟨n, hn, ha⟩

end Live

/-! ## One call -/

structure NodeInv (published : List Int) (db : RlmDb) : Prop where
  one : LiveOne db.rlmNodes
  known : ∀ i ∈ published, ∃ n, (i, n) ∈ db.rlmNodes.rows

/-- A completion leaves the nodes alone, or ran the helper to its end. -/
theorem completeUpTo_cases {db : RlmDb} (h : LiveOne db.rlmNodes) (scan : ScanOrder RlmNode)
    (jobId : Int) (worker : String) (generation : Int) (input : NewRlmNode) (nodeId : String)
    (now now' : Int) (committed : Bool) :
    (completeUpTo scan db jobId worker generation input nodeId now now' committed).rlmNodes =
      db.rlmNodes ∨
    (insertRuns db.rlmNodes nodeId .link = true ∧
      (completeUpTo scan db jobId worker generation input nodeId now now' committed).rlmNodes =
        (upsertUpTo scan db.rlmNodes nodeId input now' .link).1) := by
  unfold completeUpTo
  cases committed with
  | false => exact .inl rfl
  | true =>
    rw [if_pos rfl]
    rcases completeRlmJobWithNode_cases db scan jobId worker generation input nodeId now now' with
      ⟨o, he, -⟩ | ⟨r, nodes, pair, -, -, -, hu, he⟩
    · rw [he]
      exact .inl rfl
    · obtain ⟨id, name⟩ := pair
      have hname := (upsertNodeStmt_ok hu).1
      subst hname
      have hrun : upsertUpTo scan db.rlmNodes name input now' .link = (nodes, some id) :=
        (upsertUpTo_link (.inl rfl)).mpr hu
      rw [he, hrun]
      refine .inr ⟨?_, rfl⟩
      rcases upsertUpTo_cases h scan name input now' .link with ⟨hl, -⟩ | ⟨-, -, hx⟩ |
        ⟨-, -, hx⟩ | ⟨hi, -⟩
      · cases hl
      · rw [hrun] at hx; cases hx
      · rw [hrun] at hx; cases hx
      · exact hi

theorem LiveKept.refl {t : Table RlmNode} (h : LiveOne t) : LiveKept t t := by
  intro project level subject x hx
  exact ⟨x, h.eq_singleton hx, .inl rfl⟩

/-- Rows that follow earlier rows keep what was approved. -/
theorem PublishedApproved.follow {t t' : Table RlmNode} {published : List Int}
    (h : PublishedApproved published t)
    (hf : ∀ i ∈ published, ∀ n, (i, n) ∈ t'.rows → ∃ m, (i, m) ∈ t.rows ∧
      (n.isActive = true → m.isActive = true) ∧ n.reviewStatus = m.reviewStatus) :
    PublishedApproved published t' := by
  intro i hi n hn ha
  obtain ⟨m, hm, hact, hrev⟩ := hf i hi n hn
  rw [hrev]
  exact h i hi m hm (hact ha)

theorem upsertUpTo_follow {published : List Int} {db : RlmDb} (hI : NodeInv published db)
    {scan : ScanOrder RlmNode} {nodeId : String} {input : NewRlmNode} {now : Int}
    {last : LastRun} (ha : PublishedApproved published db.rlmNodes) :
    PublishedApproved published (upsertUpTo scan db.rlmNodes nodeId input now last).1 := by
  refine ha.follow fun i hi n hn => ?_
  rcases mem_upsertUpTo hI.one hn with hold | ⟨rfl, -⟩
  · exact hold
  · obtain ⟨m, hm⟩ := hI.known _ hi
    exact absurd (Table.lt_nextId hm) (Int.lt_irrefl _)

theorem mem_publishedIds {db : RlmDb} {scan : ScanOrder RlmNode} {q : QuorumNode}
    {nodeId : String} {now : Int} {last : LastRun} {i : Int} :
    i ∈ publishedIds db (.publish scan q nodeId now last) ↔
      (∃ n, (i, n) ∈ (publishUpTo scan db.rlmNodes q nodeId now last).rows) ∧
        ∀ m, (i, m) ∉ db.rlmNodes.rows := by
  simp only [publishedIds, stepNodes, List.mem_map, Prod.exists, exists_and_right, exists_eq_right,
    Table.mem_select, Option.isNone_iff_eq_none, Table.get?_eq_none]

theorem publish_safe {published : List Int} {db : RlmDb} (hI : NodeInv published db)
    (ha : PublishedApproved published db.rlmNodes) (scan : ScanOrder RlmNode) (q : QuorumNode)
    (nodeId : String) (now : Int) (last : LastRun) :
    PublishedApproved (publishedIds db (.publish scan q nodeId now last) ++ published)
        (publishUpTo scan db.rlmNodes q nodeId now last) ↔
      (insertRuns db.rlmNodes nodeId last = true → last = .approve) := by
  constructor
  · intro h hi
    obtain ⟨n, hn, hact⟩ := publishUpTo_inserted hI.one scan q now hi
    have hnew : ∀ m, (db.rlmNodes.nextId, m) ∉ db.rlmNodes.rows :=
      fun m hm => Int.lt_irrefl _ (Table.lt_nextId hm)
    have happ := h _ (List.mem_append_left _ (mem_publishedIds.mpr ⟨⟨n, hn⟩, hnew⟩)) n hn hact
    rcases mem_publishUpTo hI.one hn with ⟨m, hm, -⟩ | ⟨-, -, -, hiff⟩
    · exact absurd hm (hnew m)
    · exact hiff.mp happ
  · intro h i hi n hn hact
    rcases mem_publishUpTo hI.one hn with ⟨m, hm, hma, hmr⟩ | ⟨-, hins, -, hiff⟩
    · rcases List.mem_append.mp hi with hi | hi
      · exact absurd hm ((mem_publishedIds.mp hi).2 m)
      · rw [hmr]
        exact ha i hi m hm (hma hact)
    · exact hiff.mpr (h hins)

/-- A call is safe exactly when it is not cut inside. -/
theorem callSafe_iff {published : List Int} {db : RlmDb} (hI : NodeInv published db)
    (ha : PublishedApproved published db.rlmNodes) (op : NodeOp) :
    CallSafe (published, db) (publishedIds db op ++ published, stepNodes db op) ↔ Uncut db op := by
  cases op with
  | store scan nodeId input now last =>
    simp only [CallSafe, Uncut, stepNodes, storeUpTo]
    rw [upsertUpTo_kept hI.one]
    exact and_iff_left (upsertUpTo_follow hI ha)
  | publish scan q nodeId now last =>
    have hkept : LiveKept db.rlmNodes (publishUpTo scan db.rlmNodes q nodeId now last) ↔
        UpsertUncut db.rlmNodes nodeId q.input last := by
      rw [← upsertUpTo_kept hI.one scan nodeId q.input now last]
      unfold LiveKept
      simp only [publishUpTo_live hI.one]
    exact and_congr hkept (publish_safe hI ha scan q nodeId now last)
  | complete scan jobId worker generation input nodeId now now' committed =>
    simp only [CallSafe, Uncut, stepNodes, publishedIds, List.nil_append, iff_true]
    rcases completeUpTo_cases hI.one scan jobId worker generation input nodeId now now' committed
      with he | ⟨hi, he⟩
    · rw [he]
      exact ⟨.refl hI.one, ha⟩
    · rw [he]
      exact ⟨(upsertUpTo_kept hI.one scan nodeId input now' .link).mpr (.inr (.inr hi)),
        upsertUpTo_follow hI ha⟩
  | queue rlmJobs => exact iff_of_true ⟨.refl hI.one, ha⟩ trivial

theorem stepNodes_one {db : RlmDb} (h : LiveOne db.rlmNodes) (op : NodeOp) :
    LiveOne (stepNodes db op).rlmNodes := by
  cases op with
  | store scan nodeId input now last => exact upsertUpTo_liveOne h scan nodeId input now last
  | publish scan q nodeId now last =>
    intro project level subject
    simp only [stepNodes, publishUpTo_live h]
    exact upsertUpTo_liveOne h scan nodeId q.input now last project level subject
  | complete scan jobId worker generation input nodeId now now' committed =>
    simp only [stepNodes]
    rcases completeUpTo_cases h scan jobId worker generation input nodeId now now' committed
      with he | ⟨-, he⟩
    · rw [he]
      exact h
    · rw [he]
      exact upsertUpTo_liveOne h scan nodeId input now' .link
  | queue rlmJobs => exact h

/-- No writer deletes a row. -/
theorem upsertUpTo_keeps {t : Table RlmNode} (h : LiveOne t) (scan : ScanOrder RlmNode)
    (nodeId : String) (input : NewRlmNode) (now : Int) (last : LastRun) {i : Int} {n : RlmNode}
    (hn : (i, n) ∈ t.rows) :
    ∃ m, (i, m) ∈ (upsertUpTo scan t nodeId input now last).1.rows := by
  have hretired : ∃ m, (i, m) ∈ (retirePrior t (priorNode scan t input)).rows := by
    cases priorNode scan t input with
    | none => exact ⟨n, hn⟩
    | some old => exact ⟨_, Table.mem_update.mpr ⟨n, hn, rfl⟩⟩
  obtain ⟨m, hm⟩ := hretired
  have hinserted : (i, m) ∈ ((retirePrior t (priorNode scan t input)).insert
      (nodeRow input nodeId (priorNode scan t input) now)).rows := Table.mem_insert.mpr (.inl hm)
  rcases upsertUpTo_cases h scan nodeId input now last with ⟨-, he⟩ | ⟨-, -, he⟩ |
    ⟨-, -, he⟩ | ⟨-, he⟩
  · rw [he]
    exact ⟨n, hn⟩
  · rw [he]
    exact ⟨m, hm⟩
  · rw [he]
    exact ⟨m, hinserted⟩
  · rw [he]
    cases hp : priorNode scan t input with
    | none => rw [hp] at hinserted; exact ⟨m, hinserted⟩
    | some old =>
      rw [hp] at hinserted
      exact ⟨_, Table.mem_update.mpr ⟨m, hinserted, rfl⟩⟩

theorem stepNodes_keeps {db : RlmDb} (h : LiveOne db.rlmNodes) (op : NodeOp) {i : Int}
    {n : RlmNode} (hn : (i, n) ∈ db.rlmNodes.rows) :
    ∃ m, (i, m) ∈ (stepNodes db op).rlmNodes.rows := by
  cases op with
  | store scan nodeId input now last => exact upsertUpTo_keeps h scan nodeId input now last hn
  | publish scan q nodeId now last =>
    obtain ⟨m, hm⟩ := upsertUpTo_keeps h scan nodeId q.input now last hn
    simp only [stepNodes, publishUpTo_eq h]
    split
    · exact ⟨_, Table.mem_update.mpr ⟨m, hm, rfl⟩⟩
    · exact ⟨m, hm⟩
  | complete scan jobId worker generation input nodeId now now' committed =>
    simp only [stepNodes]
    rcases completeUpTo_cases h scan jobId worker generation input nodeId now now' committed
      with he | ⟨-, he⟩
    · rw [he]
      exact ⟨n, hn⟩
    · rw [he]
      exact upsertUpTo_keeps h scan nodeId input now' .link hn
  | queue rlmJobs => exact ⟨n, hn⟩

theorem NodeInv.step {published : List Int} {db : RlmDb} (hI : NodeInv published db)
    (op : NodeOp) : NodeInv (publishedIds db op ++ published) (stepNodes db op) := by
  refine ⟨stepNodes_one hI.one op, fun i hi => ?_⟩
  rcases List.mem_append.mp hi with hi | hi
  · cases op with
    | publish scan q nodeId now last => exact (mem_publishedIds.mp hi).1
    | _ => cases hi
  · obtain ⟨n, hn⟩ := hI.known i hi
    exact stepNodes_keeps hI.one op hn

/-! ## Runs of calls -/

/-- The published rows and the tables after the calls `ops`. -/
def nodeRun (ops : List NodeOp) : List Int × RlmDb :=
  Lts.after (Lts.recorded stepNodes publishedIds) ([], RlmDb.empty) ops

theorem nodeInv_run (ops : List NodeOp) : NodeInv (nodeRun ops).1 (nodeRun ops).2 := by
  refine Lts.recorded_inv (I := NodeInv) ⟨?_, ?_⟩ (fun _ _ op hI => hI.step op) ops
  · intro project level subject
    exact Nat.zero_le _
  · intro i hi
    cases hi

/-- Every call of the run left what it must. -/
def LiveSummaries (ops : List NodeOp) : Prop :=
  Lts.Always (Lts.recorded stepNodes publishedIds) ([], RlmDb.empty)
    (fun _ s op => CallSafe s (Lts.recorded stepNodes publishedIds s op)) ops

theorem LiveSummaries.approved {ops : List NodeOp} (h : LiveSummaries ops) :
    PublishedApproved (nodeRun ops).1 (nodeRun ops).2.rlmNodes := by
  cases ops with
  | nil =>
    intro i hi
    cases hi
  | cons op ops => exact h.2.2

/-- The live summaries survive every call of a run exactly when no `store` or `publish` is cut
between retiring a summary and inserting the next, and no `publish` between the insert and the
approval. -/
theorem live_summary (ops : List NodeOp) : LiveSummaries ops ↔
    Lts.Always (Lts.recorded stepNodes publishedIds) ([], RlmDb.empty)
      (fun _ s op => Uncut s.2 op) ops := by
  induction ops with
  | nil => exact Iff.rfl
  | cons op ops ih =>
    constructor
    · rintro ⟨hr, hsafe⟩
      exact ⟨ih.mp hr, (callSafe_iff (nodeInv_run ops) (LiveSummaries.approved hr) op).mp hsafe⟩
    · rintro ⟨hr, huncut⟩
      have hr := ih.mpr hr
      exact ⟨hr, (callSafe_iff (nodeInv_run ops) (LiveSummaries.approved hr) op).mpr huncut⟩

def sampleQuorumNode : QuorumNode :=
  ⟨"p", 1, "a.txt", "what a.txt says", ["h1"], some "alice", none, none, "quorum"⟩

/-- The second publication of a subject is cut after the retirement: the subject has no active
node. Cut after the insert instead, the published node is active without an approval. -/
theorem live_summary_cut :
    ¬ LiveSummaries [.publish .rowid sampleQuorumNode "n2" 20 .retire,
      .publish .rowid sampleQuorumNode "n1" 10 .approve] ∧
    ¬ LiveSummaries [.publish .rowid sampleQuorumNode "n1" 10 .insert] := by
  constructor
  · rintro ⟨-, hkept, -⟩
    obtain ⟨y, hy, -⟩ := hkept "p" 1 "a.txt" (1, 1) (by decide +kernel)
    have hnone : liveVersions (nodeRun [.publish .rowid sampleQuorumNode "n2" 20 .retire,
        .publish .rowid sampleQuorumNode "n1" 10 .approve]).2.rlmNodes "p" 1 "a.txt" = [] := by
      decide +kernel
    have : ([] : List (Int × Int)) = [y] := hnone.symm.trans hy
    cases this
  · intro h
    have happ := LiveSummaries.approved h 1 (by decide +kernel) (nodeRow sampleQuorumNode.input
      "n1" none 10) (by decide +kernel) rfl
    cases happ

end Arags
