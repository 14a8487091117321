import Arags.Lib.Runs
import Arags.Lib.Text
import Arags.Rlm.Jobs

/-!
# Arags.Qa.PendingQa

The re-digest queue of `sqlite/pending_qa.rs`, the table `pending_qa_jobs`, and its two requests
of `grpc/query_cache/pending.rs`.

* `enqueuePendingQa`, `claimPendingQa`, `revertExpiredLeases`, `completePendingQa` — the queue.
* `handleClaimPendingQa`, `handleCompletePendingQa` — what a volunteer calls.
* `pendingQueue ops` — the queue after `ops`, with the log of leases and completions.
* `holder i log`     — who has the lease of job `i`, and until when.
* `pending_lease_safety` — completions respect leases exactly when no one else sends them.
-/

namespace Arags

open Sql

def DEFAULT_PENDING_QA_LEASE_SECS : Int := 300

inductive PendingQaStatus where
  | pending | leased | completed
  deriving DecidableEq, Repr

/-- A row of `pending_qa_jobs`. -/
structure PendingQaRow where
  cacheId : String
  project : String
  preferredUser : Option String
  status : PendingQaStatus
  leasedBy : Option String
  leasedUntil : Option Int
  createdAt : Int
  completedAt : Option Int
  deriving DecidableEq, Repr

/-- A job as a claim returns it. -/
structure PendingQaJob where
  id : Int
  cacheId : String
  project : String
  preferredUser : Option String
  status : PendingQaStatus
  leasedBy : Option String
  leasedUntil : Option Int
  deriving DecidableEq, Repr

def pendingQaMapper (id : Int) (r : PendingQaRow) : PendingQaJob :=
  ⟨id, r.cacheId, r.project, r.preferredUser, r.status, r.leasedBy, r.leasedUntil⟩

/-! ## The queue -/

/-- `INSERT INTO pending_qa_jobs … VALUES (…, 'pending', now)`. -/
def insertPendingQa (t : Table PendingQaRow) (cacheId project : String)
    (preferredUser : Option String) (now : Int) : Table PendingQaRow :=
  t.insert ⟨cacheId, project, preferredUser, .pending, none, none, now, none⟩

/-- An answer with an open job gets no second one. -/
def enqueuePendingQa (scan : ScanOrder PendingQaRow) (t : Table PendingQaRow)
    (cacheId project : String) (preferredUser : Option String) (now : Int) :
    Int × Table PendingQaRow :=
  match (scan.order (t.select fun _ r => r.cacheId == cacheId && r.status != .completed)).head?
  with
  | some (i, _) => (i, t)
  | none => (t.nextId, insertPendingQa t cacheId project preferredUser now)

/-- `status = 'pending' AND … ORDER BY created_at ASC LIMIT 1`. -/
def oldestPending (scan : ScanOrder PendingQaRow) (t : Table PendingQaRow)
    (p : PendingQaRow → Bool) : Option Int :=
  (firstBy (fun a b => decide (a.2.createdAt < b.2.createdAt))
    (scan.order (t.select fun _ r => r.status == .pending && p r))).map Prod.fst

/-- The original author's jobs come first. -/
def nextPending (scan : ScanOrder PendingQaRow) (t : Table PendingQaRow) (workerUser : String) :
    Option Int :=
  (oldestPending scan t fun r => r.preferredUser == some workerUser).or
    (oldestPending scan t fun _ => true)

def claimPendingQa (scan : ScanOrder PendingQaRow) (t : Table PendingQaRow) (workerUser : String)
    (leaseSecs now : Int) : Option PendingQaJob × Table PendingQaRow :=
  let expires := saturatingAdd now (max leaseSecs 1)
  match nextPending scan t workerUser with
  | none => (none, t)
  | some jobId =>
    let t' := t.update (fun i r => i == jobId && r.status == .pending) fun _ r =>
      { r with status := .leased, leasedBy := some workerUser, leasedUntil := some expires }
    ((t'.get? jobId).map (pendingQaMapper jobId), t')

/-- `status = 'leased' AND leased_until < ?1`. -/
def PendingQaRow.expired (r : PendingQaRow) (now : Int) : Bool :=
  r.status == .leased && r.leasedUntil.any fun u => decide (u < now)

def revertExpiredLeases (t : Table PendingQaRow) (now : Int) : Table PendingQaRow :=
  t.update (fun _ r => r.expired now) fun _ r =>
    { r with status := .pending, leasedBy := none, leasedUntil := none }

/-- `WHERE id = ?2 AND status = 'leased'`. -/
def completePendingQa (t : Table PendingQaRow) (jobId now : Int) : Bool × Table PendingQaRow :=
  let p := fun (i : Int) (r : PendingQaRow) => i == jobId && r.status == .leased
  (decide (0 < t.count p),
    t.update p fun _ r => { r with status := .completed, completedAt := some now })

/-! ## The requests -/

/-- The name a lease is taken under. -/
def claimWorker (username workerUser : String) : String :=
  if Text.isBlank workerUser then username else workerUser

def claimLease (leaseSecs : Int) : Int :=
  if 0 < leaseSecs then leaseSecs else DEFAULT_PENDING_QA_LEASE_SECS

def handleClaimPendingQa (scan : ScanOrder PendingQaRow) (t : Table PendingQaRow)
    (username workerUser : String) (leaseSecs now : Int) :
    Option PendingQaJob × Table PendingQaRow :=
  claimPendingQa scan t (claimWorker username workerUser) (claimLease leaseSecs) now

/-- The session is checked, the caller's name is not used. -/
def handleCompletePendingQa (t : Table PendingQaRow) (_username : String) (jobId now : Int) :
    Bool × Table PendingQaRow :=
  completePendingQa t jobId now

/-! ## Runs -/

inductive PendingQaOp where
  | enqueue (scan : ScanOrder PendingQaRow) (cacheId project : String)
      (preferredUser : Option String) (now : Int)
  /-- The insert of an enqueue whose probe ran before the insert of another. -/
  | enqueueRaced (cacheId project : String) (preferredUser : Option String) (now : Int)
  | claim (scan : ScanOrder PendingQaRow) (username workerUser : String) (leaseSecs now : Int)
  | revertExpired (now : Int)
  | complete (username : String) (jobId now : Int)

inductive PendingQaEvent where
  | granted (jobId : Int) (worker : String) (leasedUntil : Int)
  | reverted (jobId : Int)
  | completed (jobId : Int) (username : String) (now : Int)
  deriving DecidableEq, Repr

def stepPendingQa (t : Table PendingQaRow) : PendingQaOp → Table PendingQaRow
  | .enqueue scan cacheId project preferredUser now =>
    (enqueuePendingQa scan t cacheId project preferredUser now).2
  | .enqueueRaced cacheId project preferredUser now =>
    insertPendingQa t cacheId project preferredUser now
  | .claim scan username workerUser leaseSecs now =>
    (handleClaimPendingQa scan t username workerUser leaseSecs now).2
  | .revertExpired now => revertExpiredLeases t now
  | .complete username jobId now => (handleCompletePendingQa t username jobId now).2

/-- What an operation does to leases. -/
def pendingQaEvents (t : Table PendingQaRow) : PendingQaOp → List PendingQaEvent
  | .enqueue _ _ _ _ _ => []
  | .enqueueRaced _ _ _ _ => []
  | .claim scan username workerUser leaseSecs now =>
    match nextPending scan t (claimWorker username workerUser) with
    | none => []
    | some jobId => [.granted jobId (claimWorker username workerUser)
        (saturatingAdd now (max (claimLease leaseSecs) 1))]
  | .revertExpired now => (t.select fun _ r => r.expired now).map fun x => .reverted x.1
  | .complete username jobId now =>
    if (handleCompletePendingQa t username jobId now).1 then [.completed jobId username now]
    else []

def pendingQueue (ops : List PendingQaOp) : List PendingQaEvent × Table PendingQaRow :=
  Lts.after (Lts.recorded stepPendingQa pendingQaEvents) ([], Table.empty) ops

/-- The volunteer with the lease of job `i`, and the second it ends. -/
def holder (i : Int) : List PendingQaEvent → Option (String × Int)
  | [] => none
  | .granted j w u :: log => if j = i then some (w, u) else holder i log
  | .reverted j :: log => if j = i then none else holder i log
  | .completed j _ _ :: log => if j = i then none else holder i log

def completionsOf (i : Int) : List PendingQaEvent → Nat
  | [] => 0
  | .completed j _ _ :: log => (if j = i then 1 else 0) + completionsOf i log
  | .granted _ _ _ :: log => completionsOf i log
  | .reverted _ :: log => completionsOf i log

/-! ## The columns and the log agree -/

/-- The lease a row records. -/
def PendingQaRow.lease (r : PendingQaRow) : Option (Option String × Option Int) :=
  if r.status = .leased then some (r.leasedBy, r.leasedUntil) else none

structure PendingInv (log : List PendingQaEvent) (t : Table PendingQaRow) : Prop where
  held : ∀ i, (t.get? i).bind PendingQaRow.lease =
    (holder i log).map fun x => (some x.1, some x.2)
  once : ∀ i, completionsOf i log = if (t.get? i).any (·.status == .completed) then 1 else 0

theorem holder_reverted (i : Int) (ids : List Int) (log : List PendingQaEvent) :
    holder i (ids.map .reverted ++ log) = if i ∈ ids then none else holder i log := by
  induction ids with
  | nil => simp
  | cons j ids ih =>
    simp only [List.map_cons, List.cons_append, holder, ih, List.mem_cons, eq_comm (a := i)]
    by_cases h : j = i
    · simp [h]
    · simp [h]

theorem completionsOf_reverted (i : Int) (ids : List Int) (log : List PendingQaEvent) :
    completionsOf i (ids.map .reverted ++ log) = completionsOf i log := by
  induction ids with
  | nil => rfl
  | cons j ids ih => simpa only [List.map_cons, List.cons_append, completionsOf] using ih

theorem oldestPending_some {scan : ScanOrder PendingQaRow} {t : Table PendingQaRow}
    {p : PendingQaRow → Bool} {i : Int} (h : oldestPending scan t p = some i) :
    ∃ r, t.get? i = some r ∧ r.status = .pending := by
  obtain ⟨⟨j, r⟩, hr, rfl⟩ := Option.map_eq_some_iff.mp h
  obtain ⟨hm, hp⟩ := Table.mem_select.mp (scan.mem_order.mp (firstBy_mem hr))
  simp only [Bool.and_eq_true, beq_iff_eq] at hp
  exact ⟨r, Table.get?_eq_some.mpr hm, hp.1⟩

theorem nextPending_some {scan : ScanOrder PendingQaRow} {t : Table PendingQaRow}
    {worker : String} {i : Int} (h : nextPending scan t worker = some i) :
    ∃ r, t.get? i = some r ∧ r.status = .pending := by
  rcases Option.or_eq_some_iff.mp h with h | ⟨-, h⟩
  · exact oldestPending_some h
  · exact oldestPending_some h

/-- A completion goes through exactly on a leased row. -/
theorem completePendingQa_iff {t : Table PendingQaRow} {jobId now : Int} :
    (completePendingQa t jobId now).1 = true ↔
      ((t.get? jobId).bind PendingQaRow.lease).isSome = true := by
  simp only [completePendingQa, decide_eq_true_eq, Nat.pos_iff_ne_zero, ne_eq,
    Table.count_eq_zero]
  constructor
  · intro h
    by_contra hn
    refine h fun i r hr => ?_
    by_cases hi : i = jobId
    · subst hi
      rw [Table.get?_eq_some.mpr hr] at hn
      simpa [PendingQaRow.lease] using hn
    · simp [hi]
  · intro h hn
    cases hg : t.get? jobId with
    | none => simp [hg] at h
    | some r =>
      have := hn jobId r (Table.get?_eq_some.mp hg)
      simp_all [PendingQaRow.lease]

/-- A refused completion changes nothing. -/
theorem completePendingQa_refused {t : Table PendingQaRow} {jobId now : Int}
    (h : (completePendingQa t jobId now).1 = false) : (completePendingQa t jobId now).2 = t := by
  simp only [completePendingQa, decide_eq_false_iff_not, Nat.not_lt, Nat.le_zero,
    Table.count_eq_zero] at h
  simp only [completePendingQa]
  exact Table.update_of_none h

namespace PendingInv

variable {log : List PendingQaEvent} {t : Table PendingQaRow}

theorem empty : PendingInv [] Table.empty where
  held := by intro i; rfl
  once := by intro i; rfl

theorem insert (hI : PendingInv log t) (cacheId project : String) (preferredUser : Option String)
    (now : Int) : PendingInv log (insertPendingQa t cacheId project preferredUser now) where
  held := by
    intro i
    rw [← hI.held i, insertPendingQa, Table.get?_insert]
    split
    · rename_i h
      subst h
      rw [Table.get?_nextId]; rfl
    · rfl
  once := by
    intro i
    rw [hI.once i, insertPendingQa, Table.get?_insert]
    by_cases h : i = t.nextId
    · subst h
      simp [Table.get?_nextId]
    · simp [h]

theorem claim (hI : PendingInv log t) {jobId : Int} {r : PendingQaRow} (worker : String)
    (expires : Int) (hr : t.get? jobId = some r) (hs : r.status = .pending) :
    PendingInv (.granted jobId worker expires :: log)
      (t.update (fun i r => i == jobId && r.status == .pending) fun _ r =>
        { r with status := .leased, leasedBy := some worker, leasedUntil := some expires }) where
  held := by
    intro i
    rw [Table.get?_update, holder]
    by_cases hi : jobId = i
    · subst hi
      simp [hr, hs, PendingQaRow.lease]
    · have hne : ¬ i = jobId := fun h => hi h.symm
      simpa [hi, hne] using hI.held i
  once := by
    intro i
    rw [Table.get?_update, completionsOf, hI.once i]
    by_cases hi : jobId = i
    · subst hi
      simp [hr, hs]
    · have hne : ¬ i = jobId := fun h => hi h.symm
      simp [hne]

theorem revert (hI : PendingInv log t) (now : Int) :
    PendingInv ((t.select fun _ r => r.expired now).map (fun x => .reverted x.1) ++ log)
      (revertExpiredLeases t now) := by
  have hmap : (t.select fun _ r => r.expired now).map (fun x => PendingQaEvent.reverted x.1) =
      ((t.select fun _ r => r.expired now).map Prod.fst).map .reverted := by
    rw [List.map_map]; rfl
  have hmem : ∀ i, i ∈ (t.select fun _ r => r.expired now).map Prod.fst ↔
      (t.get? i).any (·.expired now) = true := by
    intro i
    simp only [List.mem_map, Prod.exists, exists_and_right, exists_eq_right, Table.mem_select,
      ← Table.get?_eq_some, Option.any_eq_true]
  rw [hmap]
  refine ⟨?_, ?_⟩
  · intro i
    rw [revertExpiredLeases, Table.get?_update, holder_reverted]
    have hheld := hI.held i
    cases hg : t.get? i with
    | none => simp_all
    | some r =>
      cases he : r.expired now with
      | true => simp [hmem, hg, he, PendingQaRow.lease]
      | false => simpa [hmem, hg, he] using hheld
  · intro i
    rw [completionsOf_reverted, hI.once i, revertExpiredLeases, Table.get?_update]
    cases hg : t.get? i with
    | none => rfl
    | some r =>
      cases he : r.expired now with
      | true =>
        have hs : r.status = .leased := by
          simp only [PendingQaRow.expired, Bool.and_eq_true, beq_iff_eq] at he
          exact he.1
        simp [he, hs]
      | false => simp [he]

theorem complete (hI : PendingInv log t) (username : String) {jobId : Int} (now : Int)
    (h : (completePendingQa t jobId now).1 = true) :
    PendingInv (.completed jobId username now :: log) (completePendingQa t jobId now).2 := by
  obtain ⟨r, hr, hs⟩ : ∃ r, t.get? jobId = some r ∧ r.status = .leased := by
    have hl := completePendingQa_iff.mp h
    cases hg : t.get? jobId with
    | none => simp [hg] at hl
    | some r =>
      refine ⟨r, rfl, ?_⟩
      simpa [hg, PendingQaRow.lease] using hl
  refine ⟨?_, ?_⟩
  · intro i
    rw [completePendingQa, Table.get?_update, holder]
    by_cases hi : jobId = i
    · subst hi
      simp [hr, hs, PendingQaRow.lease]
    · have hne : ¬ i = jobId := fun h => hi h.symm
      simpa [hi, hne] using hI.held i
  · intro i
    rw [completePendingQa, Table.get?_update, completionsOf, hI.once i]
    by_cases hi : jobId = i
    · subst hi
      simp [hr, hs]
    · have hne : ¬ i = jobId := fun h => hi h.symm
      simp [hi, hne]

theorem step (hI : PendingInv log t) (op : PendingQaOp) :
    PendingInv (pendingQaEvents t op ++ log) (stepPendingQa t op) := by
  cases op with
  | enqueue scan cacheId project preferredUser now =>
    simp only [stepPendingQa, pendingQaEvents, enqueuePendingQa, List.nil_append]
    split
    · exact hI
    · exact hI.insert cacheId project preferredUser now
  | enqueueRaced cacheId project preferredUser now =>
    exact hI.insert cacheId project preferredUser now
  | claim scan username workerUser leaseSecs now =>
    simp only [stepPendingQa, pendingQaEvents, handleClaimPendingQa, claimPendingQa]
    cases hn : nextPending scan t (claimWorker username workerUser) with
    | none => exact hI
    | some jobId =>
      obtain ⟨r, hr, hs⟩ := nextPending_some hn
      exact hI.claim _ _ hr hs
  | revertExpired now => exact hI.revert now
  | complete username jobId now =>
    simp only [stepPendingQa, pendingQaEvents]
    by_cases h : (handleCompletePendingQa t username jobId now).1 = true
    · rw [if_pos h]
      exact hI.complete username now h
    · have hsame : (handleCompletePendingQa t username jobId now).2 = t :=
        completePendingQa_refused (Bool.eq_false_iff.mpr h)
      rw [if_neg h, hsame]
      exact hI

end PendingInv

theorem pendingInv_queue (ops : List PendingQaOp) :
    PendingInv (pendingQueue ops).1 (pendingQueue ops).2 :=
  Lts.recorded_inv (I := PendingInv) PendingInv.empty (fun _ _ op hI => hI.step op) ops

/-! ## Lease safety -/

/-- Whoever completes a job has its lease, and a completion without the lease changes nothing. -/
def RespectsLease (s : List PendingQaEvent × Table PendingQaRow) : PendingQaOp → Prop
  | .complete username jobId now =>
    (∃ u, holder jobId s.1 = some (username, u) ∧ now ≤ u) ∨
      handleCompletePendingQa s.2 username jobId now = (false, s.2)
  | _ => True

/-- Completions of a leased job come from the name and the time in its lease columns. -/
def SentByHolder (t : Table PendingQaRow) : PendingQaOp → Prop
  | .complete username jobId now => ∀ r, t.get? jobId = some r → r.status = .leased →
    r.leasedBy = some username ∧ ∃ u, r.leasedUntil = some u ∧ now ≤ u
  | _ => True

/-- Every completion of the run respects leases, and no job is completed twice. -/
def LeaseSafe (ops : List PendingQaOp) : Prop :=
  Lts.Always (Lts.recorded stepPendingQa pendingQaEvents) ([], Table.empty)
    (fun _ s op => RespectsLease s op) ops ∧ ∀ i, completionsOf i (pendingQueue ops).1 ≤ 1

theorem respectsLease_iff {s : List PendingQaEvent × Table PendingQaRow}
    (hI : PendingInv s.1 s.2) (op : PendingQaOp) : RespectsLease s op ↔ SentByHolder s.2 op := by
  cases op with
  | complete username jobId now =>
    have hheld := hI.held jobId
    simp only [RespectsLease, SentByHolder, handleCompletePendingQa]
    cases hg : s.2.get? jobId with
    | none =>
      have hf : (completePendingQa s.2 jobId now).1 = false := by
        rw [← Bool.not_eq_true, completePendingQa_iff, hg]; simp
      have heq : completePendingQa s.2 jobId now = (false, s.2) :=
        Prod.ext hf (completePendingQa_refused hf)
      simp [heq]
    | some r =>
      by_cases hs : r.status = .leased
      · have ht : (completePendingQa s.2 jobId now).1 = true := by
          rw [completePendingQa_iff, hg]; simp [PendingQaRow.lease, hs]
        have hne : ¬ completePendingQa s.2 jobId now = (false, s.2) := by
          intro h; rw [h] at ht; cases ht
        cases hh : holder jobId s.1 with
        | none => simp [hg, hh, PendingQaRow.lease, hs] at hheld
        | some x =>
          obtain ⟨w, u⟩ := x
          have hcols : r.leasedBy = some w ∧ r.leasedUntil = some u := by
            simpa [hg, hh, PendingQaRow.lease, hs] using hheld
          simp only [hne, or_false, Option.some.injEq, Prod.mk.injEq, forall_eq', hs, hcols,
            true_implies]
          constructor
          · rintro ⟨u', ⟨rfl, rfl⟩, hle⟩
            exact ⟨rfl, _, rfl, hle⟩
          · rintro ⟨rfl, u', rfl, hle⟩
            exact ⟨_, ⟨rfl, rfl⟩, hle⟩
      · have hf : (completePendingQa s.2 jobId now).1 = false := by
          rw [← Bool.not_eq_true, completePendingQa_iff, hg]; simp [PendingQaRow.lease, hs]
        have heq : completePendingQa s.2 jobId now = (false, s.2) :=
          Prod.ext hf (completePendingQa_refused hf)
        simp [heq, hs]
  | _ => exact Iff.rfl

/-- A run is lease-safe exactly when every completion of a leased job is sent by its holder in
time: the statement itself checks neither. -/
theorem pending_lease_safety (ops : List PendingQaOp) :
    LeaseSafe ops ↔ Lts.Always (Lts.recorded stepPendingQa pendingQaEvents) ([], Table.empty)
      (fun _ s op => SentByHolder s.2 op) ops := by
  have honce : ∀ i, completionsOf i (pendingQueue ops).1 ≤ 1 := by
    intro i
    rw [(pendingInv_queue ops).once i]
    split <;> omega
  have hsame : ∀ ops, Lts.Always (Lts.recorded stepPendingQa pendingQaEvents) ([], Table.empty)
      (fun _ s op => RespectsLease s op) ops ↔
      Lts.Always (Lts.recorded stepPendingQa pendingQaEvents) ([], Table.empty)
        (fun _ s op => SentByHolder s.2 op) ops := by
    intro ops
    induction ops with
    | nil => exact Iff.rfl
    | cons op ops ih =>
      exact and_congr ih (respectsLease_iff (pendingInv_queue ops) op)
  rw [LeaseSafe, hsame ops]
  exact and_iff_left honce

/-- bob's lease of 300 s runs out at 310 and is reverted; carol takes the job, and bob, who was
slow, completes it at 330 under carol's lease. -/
def slowVolunteer : List PendingQaOp :=
  [.complete "bob" 1 330, .claim .rowid "carol" "" 0 320, .revertExpired 311,
    .claim .rowid "bob" "" 0 10, .enqueue .rowid "c1" "p" (some "alice") 5]

theorem pending_lease_safety_slow : ¬ LeaseSafe slowVolunteer ∧
    holder 1 (pendingQueue slowVolunteer.tail).1 = some ("carol", 620) ∧
    (handleCompletePendingQa (pendingQueue slowVolunteer.tail).2 "bob" 1 330).1 = true := by
  have hheld : holder 1 (pendingQueue slowVolunteer.tail).1 = some ("carol", 620) := by
    decide +kernel
  have hok : (handleCompletePendingQa (pendingQueue slowVolunteer.tail).2 "bob" 1 330).1 =
      true := by
    decide +kernel
  refine ⟨?_, hheld, hok⟩
  rintro ⟨⟨-, ⟨u, hu, -⟩ | h⟩, -⟩
  · have hne : some ("carol", (620 : Int)) = some ("bob", u) := hheld.symm.trans hu
    simp at hne
  · have hno : true = false := hok.symm.trans (congrArg Prod.fst h)
    cases hno

end Arags
