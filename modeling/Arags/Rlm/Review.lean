import Arags.Rlm.Supply

/-!
# Arags.Rlm.Review

The verdict of an administrator on a node, `handle_review_rlm_node` of `grpc/rlm/mod.rs`, and what
a rejection leaves of the node and of the queue.

* `handleReviewRlmNode` — the verdict, then the reset of the subject's live slots.
* `HiddenNode`     — no read of approved nodes returns the row.
* `Reopened`       — the subject has a pending slot.
* `review_reopens` — a rejection hides the node; it opens the subject where it was open already.
-/

namespace Arags

open Sql

/-- `rlm_subject_of`. -/
def rlmSubjectOf (scan : ScanOrder RlmNode) (t : Table RlmNode) (nodeId : String) :
    Option (String × Int × String) :=
  (scan.order (t.select fun _ n => n.nodeId == nodeId)).head?.map fun x =>
    (x.2.project, x.2.level, x.2.subject)

def handleReviewRlmNode (scan : ScanOrder RlmNode) (db : RlmDb) (isAdmin : Bool)
    (username nodeId : String) (approved : Bool) (now : Int) : RlmDb × Except String Bool :=
  if !isAdmin then (db, .error "admin role required")
  else
    let applied := decide (db.rlmNodes.count (fun _ n => n.nodeId == nodeId) > 0)
    let reviewed := { db with rlmNodes := reviewRlmNode db.rlmNodes nodeId approved username now }
    if applied && !approved then
      match rlmSubjectOf scan reviewed.rlmNodes nodeId with
      | some (project, level, subject) =>
        (cancelRlmJobsForSubjects reviewed project [(level, subject)] now, .ok applied)
      | none => (reviewed, .ok applied)
    else (reviewed, .ok applied)

/-! ## What a rejection leaves -/

/-- The row is in no list and in no result that asks for approved nodes. -/
structure HiddenNode (t : Table RlmNode) (id : Int) : Prop where
  listed : ∀ scan project level includePending,
    id ∉ (listRlmNodes scan t project level includePending).map Prod.fst
  hydrated : ∀ scan ids bufferId, id ∉ (getApprovedRlmNodes scan t ids bufferId).map Prod.fst
  searched : ∀ scan bufferId hits, id ∉ (searchRlmFts scan t bufferId hits).map Prod.fst

/-- Someone may claim a slot of the subject. -/
def Reopened (t : Table RlmJob) (σ : SubjectId) : Prop :=
  ∃ x ∈ t.rows, x.2.subjectId = σ ∧ x.2.status = .pending

instance (t : Table RlmJob) (σ : SubjectId) : Decidable (Reopened t σ) :=
  inferInstanceAs (Decidable (∃ x ∈ t.rows, _))

section Rejection

variable {scan : ScanOrder RlmNode} {db : RlmDb} {id : Int} {node : RlmNode}

/-- A row that is rejected is filtered out by every such read. -/
theorem hidden_of_rejected {t : Table RlmNode} (h : t.get? id = some node)
    (hrejected : node.reviewStatus = .rejected) : HiddenNode t id := by
  have hrow : ∀ n, (id, n) ∈ t.rows → n.reviewStatus = .rejected := by
    intro n hn
    rw [Table.eq_of_mem hn (Table.get?_eq_some.mp h)]
    exact hrejected
  have hserved : ∀ n bufferId, (id, n) ∈ t.rows → n.servedBy bufferId = false := by
    intro n bufferId hn
    simp [RlmNode.servedBy, hrow n hn]
  constructor
  · intro scan project level includePending hmem
    obtain ⟨⟨i, n⟩, hx, rfl⟩ := List.mem_map.mp hmem
    have hx := scan.mem_order.mp ((List.mem_insertionSort _).mp hx)
    obtain ⟨hm, hp⟩ := Table.mem_select.mp hx
    simp [hrow n hm] at hp
  · intro scan ids bufferId hmem
    obtain ⟨⟨i, n⟩, hx, rfl⟩ := List.mem_map.mp hmem
    obtain ⟨hm, hp⟩ := Table.mem_select.mp (scan.mem_order.mp hx)
    simp [hserved n bufferId hm] at hp
  · intro scan bufferId hits hmem
    obtain ⟨⟨i, n⟩, hx, rfl⟩ := List.mem_map.mp hmem
    obtain ⟨hm, hp⟩ := Table.mem_select.mp (scan.mem_order.mp hx)
    simp [hserved n bufferId hm] at hp

/-- The subject of a node id, when all rows with the id are about one. -/
theorem rlmSubjectOf_eq {t : Table RlmNode} (hrow : (id, node) ∈ t.rows) {nodeId : String}
    (hid : node.nodeId = nodeId) (hall : ∀ x ∈ t.rows, x.2.nodeId = nodeId →
      (x.2.project, x.2.level, x.2.subject) = (node.project, node.level, node.subject)) :
    rlmSubjectOf scan t nodeId = some (node.project, node.level, node.subject) := by
  unfold rlmSubjectOf
  cases hhead : (scan.order (t.select fun _ n => n.nodeId == nodeId)).head? with
  | none =>
    rw [List.head?_eq_none_iff] at hhead
    have hmem : (id, node) ∈ scan.order (t.select fun _ n => n.nodeId == nodeId) :=
      scan.mem_order.mpr (Table.mem_select.mpr ⟨hrow, beq_iff_eq.mpr hid⟩)
    rw [hhead] at hmem
    cases hmem
  | some x =>
    obtain ⟨hx, hp⟩ := Table.mem_select.mp (scan.mem_order.mp (List.mem_of_head? hhead))
    rw [Option.map_some, hall x hx (beq_iff_eq.mp hp)]

/-- A reset makes the live slots of its subject pending and finds no others. -/
theorem cancelSubject_reopened (db : RlmDb) (σ : SubjectId) (now : Int) :
    Reopened (cancelSubject db σ.project (σ.level, σ.subject) now).rlmJobs σ ↔
      slotsOf db.rlmJobs σ ≠ 0 := by
  constructor
  · rintro ⟨⟨i, r⟩, hx, hσ, hpending⟩
    rw [← cancelSubject_slots db σ.project (σ.level, σ.subject) now]
    intro hzero
    have hdead := Table.count_eq_zero.mp hzero i r hx
    rw [isAbout_eq, decide_eq_true hσ, Quiet.live_pending hpending] at hdead
    cases hdead
  · intro hbusy
    obtain ⟨i, r, hr, hp⟩ : ∃ i r, (i, r) ∈ db.rlmJobs.rows ∧
        (r.isAbout σ.project σ.level σ.subject && r.live) = true := by
      by_contra hnone
      simp only [not_exists, not_and, Bool.not_eq_true] at hnone
      exact hbusy (Table.count_eq_zero.mpr hnone)
    have hreset : (i, _) ∈ (cancelSubject db σ.project (σ.level, σ.subject) now).rlmJobs.rows :=
      Table.mem_update.mpr ⟨r, hr, rfl⟩
    rw [if_pos hp] at hreset
    rw [Bool.and_eq_true, isAbout_eq, decide_eq_true_eq] at hp
    exact ⟨_, hreset, hp.1, rfl⟩

end Rejection

/-- The rejection of a node hides it, active or not. Its subject has a pending slot afterwards
exactly when it had a live slot before. -/
theorem review_reopens {scan : ScanOrder RlmNode} {db : RlmDb} {id : Int} {node : RlmNode}
    (hnode : db.rlmNodes.get? id = some node)
    (hunique : ∀ x ∈ db.rlmNodes.rows, x.2.nodeId = node.nodeId → x = (id, node))
    (reviewer : String) (now : Int) :
    let after := (handleReviewRlmNode scan db true reviewer node.nodeId false now).1
    let σ : SubjectId := ⟨node.project, node.level, node.subject⟩
    HiddenNode after.rlmNodes id ∧ (Reopened after.rlmJobs σ ↔ slotsOf db.rlmJobs σ ≠ 0) := by
  intro after σ
  have hrow := Table.get?_eq_some.mp hnode
  have happlied : db.rlmNodes.count (fun _ n => n.nodeId == node.nodeId) > 0 := by
    refine List.length_pos_of_mem (a := (id, node)) (Table.mem_select.mpr ⟨hrow, ?_⟩)
    exact beq_self_eq_true _
  have hget : (reviewRlmNode db.rlmNodes node.nodeId false reviewer now).get? id =
      some { node with
        reviewStatus := .rejected, reviewedBy := some reviewer, reviewedAt := some now,
        confidence := 0 } := by
    unfold reviewRlmNode
    rw [Table.get?_update, hnode]
    simp
  have hsubject : rlmSubjectOf scan (reviewRlmNode db.rlmNodes node.nodeId false reviewer now)
      node.nodeId = some (node.project, node.level, node.subject) := by
    refine rlmSubjectOf_eq (Table.get?_eq_some.mp hget) rfl ?_
    rintro ⟨i, n⟩ hx hid
    obtain ⟨n', hn', rfl⟩ := Table.mem_update.mp hx
    split at hid
    · rename_i hmatch
      cases hunique (i, n') hn' (beq_iff_eq.mp hmatch)
      simp
    · cases hunique (i, n') hn' hid
      simp
  have hafter : after = cancelSubject { db with
      rlmNodes := reviewRlmNode db.rlmNodes node.nodeId false reviewer now } σ.project
        (σ.level, σ.subject) now := by
    show (handleReviewRlmNode scan db true reviewer node.nodeId false now).1 = _
    unfold handleReviewRlmNode
    simp only [Bool.not_true, Bool.false_eq_true, if_false, decide_eq_true happlied, Bool.not_false,
      Bool.and_self, if_true, hsubject]
    rfl
  rw [hafter]
  exact ⟨hidden_of_rejected hget rfl, cancelSubject_reopened _ σ now⟩

/-! ## The summary of a file -/

/-- The file changed, and the job of its next summary waits. -/
def summaryWaiting : RlmDb := (enqueueRlmJob .rowid firstSummary fileJob [] 4).1

def waitingNode : RlmNode := (summaryWaiting.rlmNodes.get? 1).get (by decide +kernel)

/-- The first summary is rejected meanwhile. -/
theorem review_reopens_waiting :
    let after := (handleReviewRlmNode .rowid summaryWaiting true "root" waitingNode.nodeId false
      5).1
    HiddenNode after.rlmNodes 1 ∧ (Reopened after.rlmJobs ⟨"p", 1, "src/a.rs"⟩ ↔
      slotsOf summaryWaiting.rlmJobs ⟨"p", 1, "src/a.rs"⟩ ≠ 0) ∧
      slotsOf summaryWaiting.rlmJobs ⟨"p", 1, "src/a.rs"⟩ ≠ 0 := by
  have hnode : summaryWaiting.rlmNodes.get? 1 = some waitingNode := (Option.some_get _).symm
  have hreview := @review_reopens .rowid _ _ _ hnode (by decide +kernel) "root" 5
  exact ⟨hreview.1, hreview.2, by decide +kernel⟩

/-- The slot that made the summary is done: the reset finds nothing. -/
theorem review_reopens_done :
    (firstSummary.rlmNodes.get? 1).map (fun n => (n.nodeId, n.subject, n.isActive)) =
        some ("n1", "src/a.rs", true) ∧
      firstSummary.rlmJobs.rows.map (fun x => (x.2.subject, x.2.status)) =
        [("src/a.rs", .done)] ∧
      (handleReviewRlmNode .rowid firstSummary true "root" "n1" false 5).2 = .ok true ∧
      (handleReviewRlmNode .rowid firstSummary true "root" "n1" false 5).1.rlmJobs.rows.map
        (fun x => (x.2.subject, x.2.status)) = [("src/a.rs", .done)] ∧
      ¬ Reopened (handleReviewRlmNode .rowid firstSummary true "root" "n1" false 5).1.rlmJobs
        ⟨"p", 1, "src/a.rs"⟩ := by
  decide +kernel

end Arags
