import Arags.Rlm.Supply
import Mathlib.Algebra.Order.Field.Basic
import Mathlib.Data.Finset.Card
import Mathlib.Tactic.Positivity

/-!
# Arags.Rlm.Tolerance

The test of progressive tolerance in `cascade_rlm` against what two sets of hashes differ by.

* `differing`        — the part of two sets that is in one of them only.
* `changedFraction_le` — the code counts what the parent lacks, not what its children lost.
* `parent_tolerance` — when a parent that differs beyond the tolerance is stale and has a job.
-/

namespace Arags

open Sql

/-! ## How far two sets differ -/

section Sets

variable {α : Type} [DecidableEq α]

/-- Additions and removals, out of all elements; nothing when there are none. -/
def differing (a b : Finset α) : Rat := ((b \ a).card + (a \ b).card : Nat) / (a ∪ b).card

theorem card_union_eq_add (a b : Finset α) : (a ∪ b).card = b.card + (a \ b).card := by
  rw [← Finset.card_sdiff_add_card, Nat.add_comm]

/-- The additions alone, out of the new set, are no more. -/
theorem added_le_differing (a b : Finset α) (hb : b.Nonempty) :
    ((b \ a).card : Rat) / b.card ≤ differing a b := by
  have hpos : (0 : Rat) < b.card := Nat.cast_pos.mpr hb.card_pos
  have hle : ((b \ a).card : Rat) ≤ b.card :=
    Nat.cast_le.mpr (Finset.card_le_card Finset.sdiff_subset)
  have hgone : (0 : Rat) ≤ (a \ b).card := Nat.cast_nonneg _
  unfold differing
  rw [card_union_eq_add, Nat.cast_add, Nat.cast_add, div_le_div_iff₀ hpos (by positivity)]
  calc ((b \ a).card : Rat) * (b.card + (a \ b).card)
      = (b \ a).card * b.card + (b \ a).card * (a \ b).card := mul_add ..
    _ ≤ (b \ a).card * b.card + b.card * (a \ b).card :=
        add_le_add_right (mul_le_mul_of_nonneg_right hle hgone) _
    _ = ((b \ a).card + (a \ b).card) * b.card := by rw [add_mul, mul_comm (b.card : Rat)]

end Sets

/-- Without repetitions, the code's fraction is that of the additions. -/
theorem changedFraction_le {hashes union : List String} (hh : hashes.Nodup) (hu : union.Nodup)
    (hne : union ≠ []) :
    changedFraction hashes union ≤ differing hashes.toFinset union.toFinset := by
  have hcard : union.toFinset.card = union.length := List.toFinset_card_of_nodup hu
  have hpos : 0 < union.length := List.length_pos_iff.mpr hne
  have hkept : hashes.countP union.contains = (union.toFinset ∩ hashes.toFinset).card := by
    rw [List.countP_eq_length_filter, ← List.toFinset_card_of_nodup (hh.filter _)]
    congr 1
    ext h
    simp [and_comm]
  have hadded : (union.toFinset \ hashes.toFinset).card + hashes.countP union.contains =
      union.length := by
    rw [hkept, ← hcard]
    exact Finset.card_sdiff_add_card_inter ..
  have hfrac : changedFraction hashes union =
      ((union.toFinset \ hashes.toFinset).card : Rat) / union.toFinset.card := by
    have hlen : ((union.length : Nat) : Rat) ≠ 0 := Nat.cast_ne_zero.mpr (Nat.ne_of_gt hpos)
    unfold changedFraction
    rw [hcard, Nat.max_eq_left hpos, eq_div_iff hlen, sub_mul, one_mul, div_mul_cancel₀ _ hlen,
      ← hadded, Nat.cast_add, add_sub_cancel_right]
  rw [hfrac]
  refine added_le_differing _ _ ?_
  rw [← Finset.card_pos, hcard]
  exact hpos

/-! ## What a cascade leaves of the parent -/

section Parent

variable {codec : PayloadCodec} {scan : ScanOrder RlmNode} {jobScan : ScanOrder RlmJob}
  {db : RlmDb} {bufferId : Int} {project : String} {parent : Int × String} {id : Int}
  {node : RlmNode}

/-- The parent differs from the union of its children within the tolerance, or it is stale and
has a live slot. -/
def ToleranceKept (union : List String) (tolerance : Rat) (σ : SubjectId) (id : Int)
    (node : RlmNode) (after : RlmDb) : Prop :=
  differing node.sourceHashes.toFinset union.toFinset ≤ tolerance ∨
    (after.rlmNodes.get? id).any RlmNode.stale = true ∧ slotsOf after.rlmJobs σ ≠ 0

/-- Beyond the tolerance: without children, nothing is left to do; with children, the parent is
stale already or it is in the given buffer and lacks enough of the union, and a job is there or
its key is free. -/
def Rechecked (db : RlmDb) (children : List (Int × RlmNode)) (tolerance : Rat) (bufferId : Int)
    (σ : SubjectId) (node : RlmNode) (quorumN : Nat) : Prop :=
  let union := unionHashes children
  differing node.sourceHashes.toFinset union.toFinset ≤ tolerance ∨
    if children.isEmpty then node.stale = true ∧ slotsOf db.rlmJobs σ ≠ 0
    else
      (node.stale = true ∨ node.bufferId = some bufferId ∧
        changedFraction node.sourceHashes union > tolerance) ∧
      (slotsOf db.rlmJobs σ ≠ 0 ∨ FirstKeyFree db.rlmJobs σ (max quorumN 1))

theorem getRlmNodeBySubject_some {t : Table RlmNode} {level : Int} {subject : String}
    (h : getRlmNodeBySubject scan t project level subject = some (id, node)) :
    t.get? id = some node ∧ node.isLive project level subject = true := by
  have hmem := Table.mem_select.mp (scan.mem_order.mp (List.mem_of_head? h))
  exact ⟨Table.get?_eq_some.mpr hmem.1, hmem.2⟩

/-- The mark reaches a node through its buffer. -/
theorem markParent_stale (h : getRlmNodeBySubject scan db.rlmNodes project parent.1 parent.2 =
    some (id, node)) :
    ((markParent db.rlmNodes (some (id, node)) bufferId parent.1 parent.2).get? id).any
      RlmNode.stale = true ↔ node.stale = true ∨ node.bufferId = some bufferId := by
  obtain ⟨hget, hlive⟩ := getRlmNodeBySubject_some h
  simp only [RlmNode.isLive, Bool.and_eq_true, beq_iff_eq] at hlive
  obtain ⟨⟨⟨-, hlevel⟩, hsubject⟩, -⟩ := hlive
  unfold markParent
  cases hs : node.stale with
  | true => simp [hs, hget]
  | false =>
    simp only [hs, markRlmStaleBySubject, Table.get?_update, hget, Bool.false_eq_true, if_false,
      Option.map_some, Option.any_some, hlevel, hsubject, false_or, beq_self_eq_true,
      Bool.and_true, Bool.not_false]
    by_cases hb : node.bufferId = some bufferId
    · simp [hb, RlmNode.markStale]
    · simp [hb, hs]

/-- A rebuild leaves a live slot, unless there was none and the key is taken. -/
theorem rebuildParent_live (children : List (Int × RlmNode)) (quorumN : Nat) (now : Int) :
    slotsOf (rebuildParent codec jobScan db bufferId project parent children quorumN
      now).1.rlmJobs ⟨project, parent.1, parent.2⟩ ≠ 0 ↔
      slotsOf db.rlmJobs ⟨project, parent.1, parent.2⟩ ≠ 0 ∨
        FirstKeyFree db.rlmJobs ⟨project, parent.1, parent.2⟩ (max quorumN 1) := by
  unfold rebuildParent
  cases hl : getLiveRlmJobByKey jobScan db.rlmJobs project parent.1 parent.2 with
  | none => exact enqueueRlmJob_live [] now
  | some live =>
    have hbusy : slotsOf db.rlmJobs ⟨project, parent.1, parent.2⟩ ≠ 0 := by
      have hmem : live ∈ db.rlmJobs.select _ := getLiveRlmJobByKey_some hl
      unfold slotsOf Table.count
      exact Nat.ne_of_gt (List.length_pos_of_mem hmem)
    dsimp only
    split
    · exact iff_of_true hbusy (.inl hbusy)
    · dsimp only
      rw [updateRlmJobPayload_slots, cancelRlmJobsForSubjects_slots]
      exact iff_of_true hbusy (.inl hbusy)

end Parent

/-- A cascade keeps to the tolerance exactly when the parent is rechecked. -/
theorem parent_tolerance {codec : PayloadCodec} {scan : ScanOrder RlmNode}
    {jobScan : ScanOrder RlmJob} {db : RlmDb} {bufferId : Int} {project : String}
    {childLevel : Int} {childSubject : String} {parent : Int × String} {id : Int} {node : RlmNode}
    (hparent : parentOf project childLevel childSubject = some parent)
    (hnode : getRlmNodeBySubject scan db.rlmNodes project parent.1 parent.2 = some (id, node))
    (tolerance : Rat) (quorumN : Nat) (now : Int) :
    let children := childrenOf scan db.rlmNodes project childLevel parent.2
    let after := (cascadeRlm codec scan jobScan db bufferId project childLevel childSubject
      tolerance quorumN now).1
    ToleranceKept (unionHashes children) tolerance ⟨project, parent.1, parent.2⟩ id node after ↔
      Rechecked db children tolerance bufferId ⟨project, parent.1, parent.2⟩ node quorumN := by
  intro children after
  obtain ⟨hget, -⟩ := getRlmNodeBySubject_some hnode
  refine or_congr_right ?_
  have hsame : after = db → ((after.rlmNodes.get? id).any RlmNode.stale = true ↔
      node.stale = true) := by
    intro h
    rw [h, hget, Option.any_some]
  have hafter : after = (cascadeRlm codec scan jobScan db bufferId project childLevel childSubject
      tolerance quorumN now).1 := rfl
  unfold cascadeRlm at hafter
  rw [hparent] at hafter
  dsimp only at hafter
  by_cases hempty : children.isEmpty = true
  · rw [if_pos hempty] at hafter
    rw [if_pos hempty, hsame hafter, hafter]
  · rw [if_neg hempty, hnode] at hafter
    rw [if_neg hempty]
    by_cases hdue : parentDue (some (id, node)) (unionHashes children) tolerance = true
    · rw [if_pos hdue] at hafter
      rw [hafter, rebuildParent_nodes, rebuildParent_live, markParent_stale hnode]
      refine and_congr_left fun _ => ?_
      simp only [parentDue, Bool.or_eq_true, decide_eq_true_eq] at hdue
      constructor
      · rintro (hstale | hbuffer)
        · exact .inl hstale
        · exact hdue.imp_right fun hchanged => ⟨hbuffer, hchanged⟩
      · exact fun h => h.imp_right And.left
    · rw [if_neg hdue] at hafter
      simp only [parentDue, Bool.or_eq_true, decide_eq_true_eq, not_or] at hdue
      rw [hsame hafter]
      exact iff_of_false (fun h => hdue.1 h.1) fun h => h.1.elim hdue.1 fun hb => hdue.2 hb.2

/-! ## A file that is summarized again -/

instance (union : List String) (tolerance : Rat) (σ : SubjectId) (id : Int) (node : RlmNode)
    (after : RlmDb) : Decidable (ToleranceKept union tolerance σ id node after) :=
  inferInstanceAs (Decidable (_ ∨ _ ∧ _))

instance (db : RlmDb) (children : List (Int × RlmNode)) (tolerance : Rat) (bufferId : Int)
    (σ : SubjectId) (node : RlmNode) (quorumN : Nat) :
    Decidable (Rechecked db children tolerance bufferId σ node quorumN) :=
  inferInstanceAs (Decidable (_ ∨ ite _ _ _))

def themeNode : NewRlmNode :=
  { fileSummary ["h1", "h2", "h3", "h4"] with level := 2, subject := "src" }

/-- The file and its theme have four hashes, then the file is summarized with others. -/
def resummarized (hashes : List String) : RlmDb :=
  let themed := adminCompletes (cascadeRlm themeCodec .rowid .rowid firstSummary 1 "p" 1
    "src/a.rs" (3 / 10) 1 2).1 themeNode "n2" 3
  adminCompletes (enqueueRlmJob .rowid themed fileJob [] 4).1 (fileSummary hashes) "n3" 5

def replacedFile : RlmDb := resummarized ["h5", "h6"]

/-- The row of the theme. -/
def replacedTheme : Int × RlmNode :=
  (getRlmNodeBySubject .rowid replacedFile.rlmNodes "p" 2 "src").get (by decide +kernel)

/-- All of the theme's hashes are gone and two are new: it becomes stale and gets a job. -/
theorem parent_tolerance_replaced :
    replacedTheme.2.stale = false ∧
      differing replacedTheme.2.sourceHashes.toFinset ["h5", "h6"].toFinset = 1 ∧
      ToleranceKept (unionHashes (childrenOf .rowid replacedFile.rlmNodes "p" 1 "src")) (3 / 10)
        ⟨"p", 2, "src"⟩ replacedTheme.1 replacedTheme.2
        (cascadeRlm themeCodec .rowid .rowid replacedFile 1 "p" 1 "src/a.rs" (3 / 10) 1 6).1 := by
  have hparent : parentOf "p" 1 "src/a.rs" = some (2, "src") := by decide
  have hnode : getRlmNodeBySubject .rowid replacedFile.rlmNodes "p" 2 "src" = some replacedTheme :=
    (Option.some_get _).symm
  have hrechecked : Rechecked replacedFile (childrenOf .rowid replacedFile.rlmNodes "p" 1 "src")
      (3 / 10) 1 ⟨"p", 2, "src"⟩ replacedTheme.2 1 := by decide +kernel
  exact ⟨by decide +kernel, by decide +kernel,
    (parent_tolerance hparent hnode (3 / 10) 1 6).mpr hrechecked⟩

/-- Three hashes of four are gone: the theme is neither stale nor due. -/
theorem parent_tolerance_shrunk :
    (getRlmNodeBySubject .rowid (resummarized ["h1"]).rlmNodes "p" 2 "src").map (fun x =>
        (x.1, x.2.sourceHashes, x.2.stale)) = some (2, ["h1", "h2", "h3", "h4"], false) ∧
      unionHashes (childrenOf .rowid (resummarized ["h1"]).rlmNodes "p" 1 "src") = ["h1"] ∧
      differing ["h1", "h2", "h3", "h4"].toFinset ["h1"].toFinset = 3 / 4 ∧
      (cascadeRlm themeCodec .rowid .rowid (resummarized ["h1"]) 1 "p" 1 "src/a.rs" (3 / 10) 1
        6).2 = .ok false ∧
      (getRlmNodeBySubject .rowid (cascadeRlm themeCodec .rowid .rowid (resummarized ["h1"]) 1 "p"
        1 "src/a.rs" (3 / 10) 1 6).1.rlmNodes "p" 2 "src").map (fun x => x.2.stale) =
          some false := by
  decide +kernel

end Arags
