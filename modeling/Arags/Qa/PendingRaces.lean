import Arags.Lib.Threads
import Arags.Qa.PendingQa

/-!
# Arags.Qa.PendingRaces

The statements of the re-digest queue on separate connections, in any order. The statements of an
enqueue commit one by one; a claim reads and updates in one transaction and reloads its job after
the commit.

* `qaExec`      — the statements. A transaction that has read an older state cannot write it.
* `OneOpen`     — no answer has two open jobs.
* `awaited`     — the claims that have committed and not reloaded yet.
* `Unraced`     — the condition on a statement; `pending_qa_races` is about the runs that meet it.
* `enqueue_alone`, `claim_alone` — the statements with nothing between them are the operations.
-/

namespace Arags

open Sql Threads

inductive QaCall where
  | enqueue (cacheId project : String) (preferredUser : Option String) (now : Int)
  | claim (workerUser : String) (leaseSecs now : Int)
  | revertExpired (now : Int)
  | complete (jobId now : Int)

inductive QaStmt where
  | probeOpen (cacheId project : String) (preferredUser : Option String) (now : Int)
  | insertJob (cacheId project : String) (preferredUser : Option String) (now : Int)
  | selectPreferred (workerUser : String) (expires : Int)
  /-- In the transaction, on the state that it read first. -/
  | selectAny (read : Table PendingQaRow) (workerUser : String) (expires : Int)
  /-- From the update to the commit no other connection writes. -/
  | commitClaim (read : Table PendingQaRow) (jobId : Int) (workerUser : String) (expires : Int)
  | reload (jobId : Int) (workerUser : String)
  | revert (now : Int)
  | finish (jobId now : Int)

inductive QaReply where
  | enqueued (jobId : Int)
  | claimed (job : Option PendingQaJob)
  | reverted (count : Nat)
  | completed (done : Bool)
  | error (message : String)
  deriving DecidableEq, Repr

def QaCall.start : QaCall → QaStmt
  | .enqueue cacheId project preferredUser now => .probeOpen cacheId project preferredUser now
  | .claim workerUser leaseSecs now =>
    .selectPreferred workerUser (saturatingAdd now (max leaseSecs 1))
  | .revertExpired now => .revert now
  | .complete jobId now => .finish jobId now

/-- `WHERE cache_id = ?1 AND status IN ('pending', 'leased') LIMIT 1`. -/
def openJob (scan : ScanOrder PendingQaRow) (t : Table PendingQaRow) (cacheId : String) :
    Option Int :=
  ((scan.order (t.select fun _ r => r.cacheId == cacheId && r.status != .completed)).head?).map
    Prod.fst

/-- `SET status = 'leased', … WHERE id = ?3 AND status = 'pending'`; the count is not looked at. -/
def leaseJob (t : Table PendingQaRow) (jobId : Int) (workerUser : String) (expires : Int) :
    Table PendingQaRow :=
  t.update (fun i r => i == jobId && r.status == .pending) fun _ r =>
    { r with status := .leased, leasedBy := some workerUser, leasedUntil := some expires }

/-- `fails` is a statement that gets no lock in time. -/
def qaExec (scan : ScanOrder PendingQaRow) (t : Table PendingQaRow) (p : QaStmt) (fails : Bool) :
    Table PendingQaRow × (QaStmt ⊕ QaReply) :=
  if fails then (t, .inr (.error "database is locked"))
  else
    match p with
    | .probeOpen cacheId project preferredUser now =>
      match openJob scan t cacheId with
      | some id => (t, .inr (.enqueued id))
      | none => (t, .inl (.insertJob cacheId project preferredUser now))
    | .insertJob cacheId project preferredUser now =>
      (insertPendingQa t cacheId project preferredUser now, .inr (.enqueued t.nextId))
    | .selectPreferred workerUser expires =>
      match oldestPending scan t fun r => r.preferredUser == some workerUser with
      | some id => (t, .inl (.commitClaim t id workerUser expires))
      | none => (t, .inl (.selectAny t workerUser expires))
    | .selectAny read workerUser expires =>
      match oldestPending scan read fun _ => true with
      | some id => (t, .inl (.commitClaim read id workerUser expires))
      | none => (t, .inr (.claimed none))
    | .commitClaim read jobId workerUser expires =>
      if t.rows = read.rows then
        (leaseJob t jobId workerUser expires, .inl (.reload jobId workerUser))
      else (t, .inr (.error "database is locked"))
    | .reload jobId _ =>
      match t.get? jobId with
      | some r => (t, .inr (.claimed (some (pendingQaMapper jobId r))))
      | none => (t, .inr (.error "reload claimed qa job"))
    | .revert now => (revertExpiredLeases t now,
        .inr (.reverted (t.select fun _ r => r.expired now).length))
    | .finish jobId now =>
      ((completePendingQa t jobId now).2, .inr (.completed (completePendingQa t jobId now).1))

def qaProgram (scan : ScanOrder PendingQaRow) :
    Program (Table PendingQaRow) QaCall QaStmt Bool QaReply where
  start := QaCall.start
  exec := qaExec scan

/-! ## Runs -/

inductive QaEvent where
  | granted (c : Nat) (jobId : Int) (workerUser : String)
  /-- The claim returned this job. -/
  | returned (c : Nat) (workerUser : String) (job : PendingQaJob)
  | gaveUp (c : Nat)
  deriving DecidableEq, Repr

def qaEvents (scan : ScanOrder PendingQaRow) (c : Nat) (t : Table PendingQaRow) (p : QaStmt)
    (fails : Bool) : List QaEvent :=
  match p, (qaExec scan t p fails).2 with
  | .commitClaim _ jobId workerUser _, .inl _ => [.granted c jobId workerUser]
  | .reload _ workerUser, .inr (.claimed (some job)) => [.returned c workerUser job]
  | .reload _ _, _ => [.gaveUp c]
  | _, _ => []

/-- Caller, job and worker of the claims between their commit and their reload. -/
def awaited : List QaEvent → List (Nat × Int × String)
  | [] => []
  | .granted c jobId workerUser :: es => (c, jobId, workerUser) :: awaited es
  | .returned c _ _ :: es => (awaited es).filter fun a => a.1 != c
  | .gaveUp c :: es => (awaited es).filter fun a => a.1 != c

def PendingQaRow.isOpen (r : PendingQaRow) : Bool := r.status != .completed

/-- No answer has two open jobs. -/
def OneOpen (t : Table PendingQaRow) : Prop :=
  ∀ i r j s, (i, r) ∈ t.rows → (j, s) ∈ t.rows → r.isOpen = true → s.isOpen = true →
    r.cacheId = s.cacheId → i = j

def LeasedTo (status : PendingQaStatus) (leasedBy : Option String) (workerUser : String) : Prop :=
  status = .leased ∧ leasedBy = some workerUser

/-- An insert comes while its probe would still find nothing; no lease is reverted, and no job
completed, between the commit and the reload of its claim. -/
def Unraced (scan : ScanOrder PendingQaRow) (es : List QaEvent) (t : Table PendingQaRow) (_ : Nat) :
    QaStmt → Bool → Prop
  | .insertJob cacheId _ _ _, _ => openJob scan t cacheId = none
  | .revert now, _ => ∀ a ∈ awaited es, ∀ r ∈ t.get? a.2.1, r.expired now = false
  | .finish jobId _, _ => ∀ a ∈ awaited es, a.2.1 ≠ jobId
  | _, _ => True

instance decidableUnraced (scan : ScanOrder PendingQaRow) (es : List QaEvent)
    (t : Table PendingQaRow) (c : Nat) : ∀ p fails, Decidable (Unraced scan es t c p fails)
  | .insertJob cacheId _ _ _, _ => inferInstanceAs (Decidable (openJob scan t cacheId = none))
  | .revert now, _ => inferInstanceAs (Decidable (∀ a ∈ awaited es, ∀ r ∈ t.get? a.2.1,
      r.expired now = false))
  | .finish jobId _, _ => inferInstanceAs (Decidable (∀ a ∈ awaited es, a.2.1 ≠ jobId))
  | .probeOpen .., _ | .selectPreferred .., _ | .selectAny .., _ | .commitClaim .., _
  | .reload .., _ => inferInstanceAs (Decidable True)

/-! ## What a statement does -/

section Proofs

variable {scan : ScanOrder PendingQaRow} {es : List QaEvent} {t : Table PendingQaRow} {c : Nat}
variable {p : QaStmt} {fails : Bool}

/-- What a caller knows: the job of a commit was pending in the state it read, and a reload is
awaited. -/
def Knows (es : List QaEvent) (_ : Table PendingQaRow) (c : Nat) : Option QaStmt → Prop
  | some (.commitClaim read jobId _ _) =>
    ∃ r, (jobId, r) ∈ read.rows ∧ r.status = .pending
  | some (.reload jobId workerUser) => (c, jobId, workerUser) ∈ awaited es
  | _ => True

structure QaInv (es : List QaEvent) (t : Table PendingQaRow) : Prop where
  oneOpen : OneOpen t
  held : ∀ a ∈ awaited es, ∃ r, (a.2.1, r) ∈ t.rows ∧ LeasedTo r.status r.leasedBy a.2.2
  returned : ∀ c workerUser job, .returned c workerUser job ∈ es →
    LeasedTo job.status job.leasedBy workerUser

/-- An update that reopens nothing. -/
theorem OneOpen.update (h : OneOpen t) {q : Int → PendingQaRow → Bool}
    {f : Int → PendingQaRow → PendingQaRow} (hid : ∀ i r, (f i r).cacheId = r.cacheId)
    (hopen : ∀ i r, q i r = true → (f i r).isOpen = true → r.isOpen = true) :
    OneOpen (t.update q f) := by
  have hback : ∀ i r, (i, r) ∈ (t.update q f).rows → ∃ r₀, (i, r₀) ∈ t.rows ∧
      r₀.cacheId = r.cacheId ∧ (r.isOpen = true → r₀.isOpen = true) := by
    intro i r hr
    obtain ⟨r₀, hr₀, rfl⟩ := Table.mem_update.mp hr
    refine ⟨r₀, hr₀, ?_⟩
    split
    · rename_i hq
      exact ⟨(hid i r₀).symm, hopen i r₀ hq⟩
    · exact ⟨rfl, fun h => h⟩
  intro i r j s hr hs hro hso hcache
  obtain ⟨r₀, hr₀, hr₁, hr₂⟩ := hback i r hr
  obtain ⟨s₀, hs₀, hs₁, hs₂⟩ := hback j s hs
  exact h i r₀ j s₀ hr₀ hs₀ (hr₂ hro) (hs₂ hso) (hr₁.trans (hcache.trans hs₁.symm))

theorem openJob_none {cacheId : String} (h : openJob scan t cacheId = none) {i : Int}
    {r : PendingQaRow} (hr : (i, r) ∈ t.rows) (hopen : r.isOpen = true) : r.cacheId ≠ cacheId := by
  rintro rfl
  have hempty := List.head?_eq_none_iff.mp (Option.map_eq_none_iff.mp h)
  have hmem : (i, r) ∈ scan.order (t.select fun _ s => s.cacheId == r.cacheId &&
      s.status != .completed) :=
    scan.mem_order.mpr (Table.mem_select.mpr ⟨hr, by simpa [PendingQaRow.isOpen] using hopen⟩)
  rw [hempty] at hmem
  cases hmem

theorem OneOpen.insert (h : OneOpen t) {cacheId : String} (hprobe : openJob scan t cacheId = none)
    (project : String) (preferredUser : Option String) (now : Int) :
    OneOpen (insertPendingQa t cacheId project preferredUser now) := by
  intro i r j s hr hs hro hso hcache
  rcases Table.mem_insert.mp hr with hr | ⟨rfl, rfl⟩
  · rcases Table.mem_insert.mp hs with hs | ⟨rfl, rfl⟩
    · exact h i r j s hr hs hro hso hcache
    · exact absurd hcache (openJob_none hprobe hr hro)
  · rcases Table.mem_insert.mp hs with hs | ⟨rfl, rfl⟩
    · exact absurd hcache.symm (openJob_none hprobe hs hso)
    · rfl

/-- A statement of an unraced run: what it records, the new table, and where its caller goes. -/
inductive QaEffect (scan : ScanOrder PendingQaRow) (es : List QaEvent) (t : Table PendingQaRow)
    (c : Nat) (p : QaStmt) : List QaEvent → Table PendingQaRow → Option QaStmt → Prop where
  | quiet {q : Option QaStmt} (hp : ∀ jobId workerUser, p ≠ .reload jobId workerUser)
      (hq : ∀ es, Knows es t c q) : QaEffect scan es t c p [] t q
  | inserted {cacheId : String} (h : openJob scan t cacheId = none) (project : String)
      (preferredUser : Option String) (now : Int) :
      QaEffect scan es t c p [] (insertPendingQa t cacheId project preferredUser now) none
  | granted {jobId : Int} {r : PendingQaRow} (hr : (jobId, r) ∈ t.rows) (hs : r.status = .pending)
      (workerUser : String) (expires : Int) :
      QaEffect scan es t c p [.granted c jobId workerUser] (leaseJob t jobId workerUser expires)
        (some (.reload jobId workerUser))
  | reloaded {jobId : Int} {workerUser : String} {r : PendingQaRow}
      (hp : p = .reload jobId workerUser) (hr : (jobId, r) ∈ t.rows) :
      QaEffect scan es t c p [.returned c workerUser (pendingQaMapper jobId r)] t none
  | gaveUp : QaEffect scan es t c p [.gaveUp c] t none
  | reverted {now : Int} (h : ∀ a ∈ awaited es, ∀ r ∈ t.get? a.2.1, r.expired now = false) :
      QaEffect scan es t c p [] (revertExpiredLeases t now) none
  | finished {jobId : Int} (h : ∀ a ∈ awaited es, a.2.1 ≠ jobId) (now : Int) :
      QaEffect scan es t c p [] (completePendingQa t jobId now).2 none

theorem qaExec_effect (hA : Knows es t c (some p)) (hG : Unraced scan es t c p fails) :
    QaEffect scan es t c p (qaEvents scan c t p fails) (qaExec scan t p fails).1
      (qaExec scan t p fails).2.getLeft? := by
  unfold qaEvents qaExec
  cases fails with
  | true =>
    cases p with
    | reload jobId workerUser => exact .gaveUp
    | _ => exact .quiet (fun _ _ h => by cases h) fun _ => trivial
  | false =>
    simp only [Bool.false_eq_true, if_false]
    cases p with
    | probeOpen cacheId project preferredUser now =>
      dsimp only
      split
      · exact .quiet (fun _ _ h => by cases h) fun _ => trivial
      · exact .quiet (fun _ _ h => by cases h) fun _ => trivial
    | insertJob cacheId project preferredUser now => exact .inserted hG project preferredUser now
    | selectPreferred workerUser expires =>
      dsimp only
      split
      · rename_i id hid
        obtain ⟨r, hr, hs⟩ := oldestPending_some hid
        exact .quiet (fun _ _ h => by cases h) fun _ => ⟨r, Table.get?_eq_some.mp hr, hs⟩
      · exact .quiet (fun _ _ h => by cases h) fun _ => trivial
    | selectAny read workerUser expires =>
      dsimp only
      split
      · rename_i id hid
        obtain ⟨r, hr, hs⟩ := oldestPending_some hid
        exact .quiet (fun _ _ h => by cases h) fun _ => ⟨r, Table.get?_eq_some.mp hr, hs⟩
      · exact .quiet (fun _ _ h => by cases h) fun _ => trivial
    | commitClaim read jobId workerUser expires =>
      obtain ⟨r, hr, hs⟩ := hA
      dsimp only
      by_cases hread : t.rows = read.rows
      · simp only [hread, if_true]
        exact .granted (hread ▸ hr) hs workerUser expires
      · simp only [hread, if_false]
        exact .quiet (fun _ _ h => by cases h) fun _ => trivial
    | reload jobId workerUser =>
      dsimp only
      cases h : t.get? jobId with
      | some r => exact .reloaded rfl (Table.get?_eq_some.mp h)
      | none => exact .gaveUp
    | revert now => exact .reverted hG
    | finish jobId now => exact .finished hG now

/-- The lease of an awaited claim stays under an update that leaves its row alone. -/
theorem held_update {a : Nat × Int × String}
    (h : ∃ r, (a.2.1, r) ∈ t.rows ∧ LeasedTo r.status r.leasedBy a.2.2)
    {q : Int → PendingQaRow → Bool} {f : Int → PendingQaRow → PendingQaRow}
    (hq : ∀ r, (a.2.1, r) ∈ t.rows → r.status = .leased → q a.2.1 r = false) :
    ∃ r, (a.2.1, r) ∈ (t.update q f).rows ∧ LeasedTo r.status r.leasedBy a.2.2 := by
  obtain ⟨r, hr, hleased⟩ := h
  refine ⟨r, Table.mem_update.mpr ⟨r, hr, ?_⟩, hleased⟩
  rw [hq r hr hleased.1, if_neg Bool.false_ne_true]

theorem QaEffect.inv {new : List QaEvent} {t' : Table PendingQaRow} {q : Option QaStmt}
    (h : QaEffect scan es t c p new t' q) (hI : QaInv es t) (hA : Knows es t c (some p)) :
    QaInv (new ++ es) t' := by
  cases h with
  | quiet hp hq => exact hI
  | inserted hprobe project preferredUser now =>
    refine ⟨hI.oneOpen.insert hprobe project preferredUser now, fun a ha => ?_, hI.returned⟩
    obtain ⟨r, hr, hleased⟩ := hI.held a ha
    exact ⟨r, Table.mem_insert.mpr (.inl hr), hleased⟩
  | @granted jobId r hr hs workerUser expires =>
    refine ⟨hI.oneOpen.update (fun _ _ => rfl) ?_, fun a ha => ?_, fun d w job hmem => ?_⟩
    · intro i r hq _
      simp only [Bool.and_eq_true, beq_iff_eq] at hq
      simp [PendingQaRow.isOpen, hq.2]
    · rcases List.mem_cons.mp ha with rfl | ha
      · refine ⟨_, Table.mem_update.mpr ⟨r, hr, rfl⟩, ?_⟩
        simp [hs, LeasedTo]
      · refine held_update (hI.held a ha) fun r hr hleased => ?_
        rw [hleased]
        exact Bool.and_false _
    · rcases List.mem_cons.mp hmem with h | hmem
      · cases h
      · exact hI.returned d w job hmem
  | @reloaded jobId workerUser r hp hr =>
    refine ⟨hI.oneOpen, fun a ha => hI.held a (List.mem_filter.mp ha).1, fun d w job hmem => ?_⟩
    rcases List.mem_cons.mp hmem with h | hmem
    · obtain ⟨rfl, rfl, rfl⟩ := QaEvent.returned.inj h
      rw [hp] at hA
      obtain ⟨s, hs, hleased⟩ := hI.held _ hA
      rw [Table.eq_of_mem hr hs]
      exact hleased
    · exact hI.returned d w job hmem
  | gaveUp =>
    refine ⟨hI.oneOpen, fun a ha => hI.held a (List.mem_filter.mp ha).1, fun d w job hmem => ?_⟩
    rcases List.mem_cons.mp hmem with h | hmem
    · cases h
    · exact hI.returned d w job hmem
  | @reverted now hkept =>
    refine ⟨hI.oneOpen.update (fun _ _ => rfl) ?_, fun a ha => ?_, hI.returned⟩
    · intro i r hq _
      simp only [PendingQaRow.expired, Bool.and_eq_true, beq_iff_eq] at hq
      simp [PendingQaRow.isOpen, hq.1]
    · exact held_update (hI.held a ha) fun r hr _ => hkept a ha r (Table.get?_eq_some.mpr hr)
  | @finished jobId hkept now =>
    refine ⟨hI.oneOpen.update (fun _ _ => rfl) ?_, fun a ha => ?_, hI.returned⟩
    · intro i r _ hopen
      cases hopen
    · refine held_update (hI.held a ha) fun r hr _ => ?_
      simp [hkept a ha]

theorem QaEffect.own {new : List QaEvent} {t' : Table PendingQaRow} {q : Option QaStmt}
    (h : QaEffect scan es t c p new t' q) : Knows (new ++ es) t' c q := by
  cases h with
  | quiet hp hq => exact hq es
  | granted hr hs workerUser expires => exact List.mem_cons_self
  | inserted h project preferredUser now => trivial
  | reloaded hp hr => trivial
  | gaveUp => trivial
  | reverted h => trivial
  | finished h now => trivial

theorem QaEffect.others {new : List QaEvent} {t' : Table PendingQaRow} {q : Option QaStmt}
    (h : QaEffect scan es t c p new t' q) {d : Nat} (hd : d ≠ c) {s : Option QaStmt}
    (hA : Knows es t d s) : Knows (new ++ es) t' d s := by
  match s, hA with
  | none, _ => trivial
  | some (.probeOpen ..), _ => trivial
  | some (.insertJob ..), _ => trivial
  | some (.selectPreferred ..), _ => trivial
  | some (.selectAny ..), _ => trivial
  | some (.commitClaim ..), hA => exact hA
  | some (.revert _), _ => trivial
  | some (.finish ..), _ => trivial
  | some (.reload jobId workerUser), hA =>
    have hkept : (d, jobId, workerUser) ∈ (awaited es).filter fun a => a.1 != c :=
      List.mem_filter.mpr ⟨hA, by simpa using hd⟩
    cases h with
    | quiet hp hq => exact hA
    | inserted h project preferredUser now => exact hA
    | granted hr hs w expires => exact List.mem_cons_of_mem _ hA
    | reloaded hp hr => exact hkept
    | gaveUp => exact hkept
    | reverted h => exact hA
    | finished h now => exact hA

end Proofs

/-- In every unraced run an answer has at most one open job, and each claim that returned a job
returned one that was at that moment leased to its worker. -/
theorem pending_qa_races (scan : ScanOrder PendingQaRow) (is : List (Input QaCall Bool))
    (hg : Guarded (qaProgram scan) (qaEvents scan) (Unraced scan) Table.empty is) :
    OneOpen (history (qaProgram scan) (qaEvents scan) Table.empty is).2.shared ∧
      ∀ c workerUser job,
        .returned c workerUser job ∈ (history (qaProgram scan) (qaEvents scan) Table.empty is).1 →
          LeasedTo job.status job.leasedBy workerUser := by
  have hinv := (outline (P := qaProgram scan) (f := qaEvents scan) (I := QaInv) (A := Knows)
    ⟨fun i r _ _ hr => absurd hr Table.not_mem_empty, fun _ ha => absurd ha List.not_mem_nil,
      fun _ _ _ hmem => absurd hmem List.not_mem_nil⟩
    (fun _ => trivial)
    (fun es t c k _ _ => by cases k <;> trivial)
    (fun es t c p x hI hA hG => (qaExec_effect hA hG).inv hI hA)
    (fun es t c p x _ hA hG => (qaExec_effect hA hG).own)
    (fun es t c p x d q _ hA hG hd hq => (qaExec_effect hA hG).others hd hq) hg).1
  exact ⟨hinv.oneOpen, hinv.returned⟩

/-! Two volunteers. -/

def enqueueC1 (c : Nat) : Input QaCall Bool := .call c (.enqueue "c1" "p" (some "alice") 5)

/-- Bob and carol claim one after the other. -/
def claimsApart : List (Input QaCall Bool) :=
  [.run 2 false, .run 2 false, .run 2 false, .call 2 (.claim "carol" 1 12), .run 3 false,
    .call 3 (.revertExpired 12), .run 1 false, .run 1 false, .run 1 false, .run 1 false,
    .call 1 (.claim "bob" 1 10), .run 0 false, .run 0 false, enqueueC1 0]

theorem pending_qa_races_apart :
    let h := history (qaProgram .rowid) (qaEvents .rowid) Table.empty claimsApart
    OneOpen h.2.shared ∧ ∀ c workerUser job, .returned c workerUser job ∈ h.1 →
      LeasedTo job.status job.leasedBy workerUser :=
  pending_qa_races .rowid claimsApart (by decide +kernel)

/-- Both probes come before both inserts. -/
def enqueuedTwice : List (Input QaCall Bool) :=
  [.run 1 false, .run 0 false, .run 1 false, .run 0 false, enqueueC1 1, enqueueC1 0]

/-- Bob's lease runs out between his commit and his reload, and carol takes the job. -/
def claimsRaced : List (Input QaCall Bool) :=
  [.run 1 false, .run 2 false, .run 2 false, .run 2 false, .call 2 (.claim "carol" 1 12),
    .run 3 false, .call 3 (.revertExpired 12), .run 1 false, .run 1 false, .run 1 false,
    .call 1 (.claim "bob" 1 10), .run 0 false, .run 0 false, enqueueC1 0]

theorem pending_qa_races_lost :
    ((history (qaProgram .rowid) (qaEvents .rowid) Table.empty enqueuedTwice).2.shared.count
        fun _ r => r.cacheId == "c1" && r.isOpen) = 2 ∧
      .returned 1 "bob" ⟨1, "c1", "p", some "alice", .leased, some "carol", some 13⟩ ∈
        (history (qaProgram .rowid) (qaEvents .rowid) Table.empty claimsRaced).1 := by
  decide +kernel

/-! ## Calls that nothing comes between -/

theorem enqueue_alone (scan : ScanOrder PendingQaRow) (t : Table PendingQaRow)
    (cacheId project : String) (preferredUser : Option String) (now : Int) :
    solo (qaProgram scan) [false, false] t (.probeOpen cacheId project preferredUser now) =
      (enqueuePendingQa scan t cacheId project preferredUser now).2 := by
  have hprobe : openJob scan t cacheId = ((scan.order (t.select fun _ r =>
      r.cacheId == cacheId && r.status != .completed)).head?).map Prod.fst := rfl
  unfold enqueuePendingQa
  cases hopen : (scan.order (t.select fun _ r =>
      r.cacheId == cacheId && r.status != .completed)).head? with
  | some x =>
    rw [hopen, Option.map_some] at hprobe
    simp [solo, qaProgram, qaExec, hprobe]
  | none =>
    rw [hopen, Option.map_none] at hprobe
    simp [solo, qaProgram, qaExec, hprobe]

theorem solo_reload (scan : ScanOrder PendingQaRow) (t : Table PendingQaRow) (jobId : Int)
    (workerUser : String) (fails : List Bool) :
    solo (qaProgram scan) fails t (.reload jobId workerUser) = t := by
  cases fails with
  | nil => rfl
  | cons b fails =>
    cases b with
    | true => rfl
    | false =>
      cases hget : t.get? jobId with
      | some r => simp [solo, qaProgram, qaExec, hget]
      | none => simp [solo, qaProgram, qaExec, hget]

theorem claim_alone (scan : ScanOrder PendingQaRow) (t : Table PendingQaRow) (workerUser : String)
    (leaseSecs now : Int) :
    solo (qaProgram scan) [false, false, false, false] t
        (.selectPreferred workerUser (saturatingAdd now (max leaseSecs 1))) =
      (claimPendingQa scan t workerUser leaseSecs now).2 := by
  have hcommit : ∀ jobId expires fails, solo (qaProgram scan) (false :: fails) t
      (.commitClaim t jobId workerUser expires) = leaseJob t jobId workerUser expires := by
    intro jobId expires fails
    simp only [solo, qaProgram, qaExec, Bool.false_eq_true, if_false, if_true]
    exact solo_reload scan _ jobId workerUser fails
  unfold claimPendingQa nextPending
  cases hfirst : oldestPending scan t fun r => r.preferredUser == some workerUser with
  | some id =>
    refine Eq.trans ?_ (hcommit id (saturatingAdd now (max leaseSecs 1)) [false, false])
    rw [solo]
    simp [qaProgram, qaExec, hfirst]
  | none =>
    cases hany : oldestPending scan t fun _ => true with
    | some id =>
      refine Eq.trans ?_ (hcommit id (saturatingAdd now (max leaseSecs 1)) [false])
      rw [solo]
      simp only [qaProgram, qaExec, hfirst, Bool.false_eq_true, if_false]
      rw [solo]
      simp [qaExec, hany]
    | none => simp [solo, qaProgram, qaExec, hfirst, hany]

end Arags
