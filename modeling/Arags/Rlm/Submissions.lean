import Arags.Rlm.Jobs
import Arags.Lib.Text
import Mathlib.Algebra.Order.Ring.Unbundled.Rat
import Mathlib.Data.List.Sort

/-!
# Arags.Rlm.Submissions

Candidate submissions and the trust ledger of `sqlite/submissions.rs`. A candidate is filed under
the logical job key of its subject; `rlmJobKey_inj` says that inside a project the key determines
level and subject.
-/

namespace Arags

open Sql

inductive SubmissionStatus where
  | candidate | accepted | rejected
  deriving DecidableEq, Repr

/-- A row of `submissions`. -/
structure Submission where
  project : String
  subjectType : String
  subjectKey : String
  candidateText : String
  candidateBy : String
  similarity : Option Rat
  status : SubmissionStatus
  createdAt : Int
  decidedAt : Option Int
  decidedBy : Option String
  deriving DecidableEq, Repr

/-- `now` is the `unixepoch()` default of `created_at`. -/
def insertSubmission (t : Table Submission) (project subjectType subjectKey candidateText
    candidateBy : String) (now : Int) : Table Submission × Int :=
  (t.insert {
    project := project
    subjectType := subjectType
    subjectKey := subjectKey
    candidateText := candidateText
    candidateBy := candidateBy
    similarity := none
    status := .candidate
    createdAt := now
    decidedAt := none
    decidedBy := none }, t.nextId)

/-- `UPDATE submissions SET status = …, decided_at = ?1, decided_by = ?2, similarity = ?3 WHERE
id = ?4`. -/
def decideSubmission (status : SubmissionStatus) (t : Table Submission) (id : Int)
    (decidedBy : String) (similarity : Option Rat) (now : Int) : Table Submission :=
  t.update (fun i _ => i == id) fun _ r => { r with
    status := status, decidedAt := some now, decidedBy := some decidedBy,
    similarity := similarity }

def acceptSubmission : Table Submission → Int → String → Option Rat → Int → Table Submission :=
  decideSubmission .accepted

def rejectSubmission : Table Submission → Int → String → Option Rat → Int → Table Submission :=
  decideSubmission .rejected

/-- The submissions of a subject in one status, `ORDER BY created_at ASC`. -/
def listByStatus (status : SubmissionStatus) (scan : ScanOrder Submission) (t : Table Submission)
    (project subjectType subjectKey : String) : List (Int × Submission) :=
  (scan.order (t.select fun _ r => r.project == project && r.subjectType == subjectType &&
    r.subjectKey == subjectKey && r.status == status)).insertionSort
      fun x y => x.2.createdAt ≤ y.2.createdAt

def listPending : ScanOrder Submission → Table Submission → String → String → String →
    List (Int × Submission) :=
  listByStatus .candidate

theorem mem_listPending {scan : ScanOrder Submission} {t : Table Submission}
    {project subjectType subjectKey : String} {x : Int × Submission} :
    x ∈ listPending scan t project subjectType subjectKey ↔ x ∈ t.rows ∧
      x.2.project = project ∧ x.2.subjectType = subjectType ∧ x.2.subjectKey = subjectKey ∧
      x.2.status = .candidate := by
  rw [listPending, listByStatus, List.mem_insertionSort, scan.mem_order, ← Prod.mk.eta (p := x),
    Table.mem_select]
  simp [and_assoc]

/-! ## Trust -/

/-- `INSERT … (username, 0, 1.0) ON CONFLICT(username) DO NOTHING`. -/
def seedTrust (ledger : List VolunteerTrust) (volunteer : String) : List VolunteerTrust :=
  if ledger.any (fun vt => vt.username == volunteer) then ledger
  else ledger ++ [⟨volunteer, 0, 1⟩]

def recordStrike (ledger : List VolunteerTrust) (volunteer : String) : List VolunteerTrust :=
  (seedTrust ledger volunteer).map fun vt =>
    if vt.username == volunteer then
      { vt with strikes := vt.strikes + 1, trustScore := max 0 (vt.trustScore - 1 / 5) }
    else vt

def bumpTrustOnAccept (ledger : List VolunteerTrust) (volunteer : String) : List VolunteerTrust :=
  (seedTrust ledger volunteer).map fun vt =>
    if vt.username == volunteer then
      { vt with strikes := max 0 (vt.strikes - 1), trustScore := min 1 (vt.trustScore + 1 / 10) }
    else vt

/-! ## Subject keys -/

theorem toList_rlmJobKey (project : String) (level : Int) (subject : String) :
    (rlmJobKey project level subject).toList =
      'L' :: (level.repr.toList ++ ':' :: (project.toList ++ ':' :: subject.toList)) := by
  have h : rlmJobKey project level subject =
      "L" ++ level.repr ++ ":" ++ project ++ ":" ++ subject := rfl
  rw [h]
  simp only [String.toList_append, List.append_assoc]
  rfl

theorem rlmJobKey_inj {project : String} {level level' : Int} {subject subject' : String}
    (h : rlmJobKey project level subject = rlmJobKey project level' subject') :
    level = level' ∧ subject = subject' := by
  have h' := congrArg String.toList h
  rw [toList_rlmJobKey, toList_rlmJobKey, List.cons.injEq] at h'
  obtain ⟨hl, hrest⟩ := Text.append_sep_inj (Text.not_mem_repr_int (by decide) (by decide) level)
    (Text.not_mem_repr_int (by decide) (by decide) level') h'.2
  have hs := List.append_cancel_left hrest
  simp only [List.cons.injEq, true_and] at hs
  exact ⟨Text.repr_int_inj (String.toList_inj.mp hl), String.toList_inj.mp hs⟩

end Arags
