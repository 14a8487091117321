import Arags.Rlm.Moves
import Arags.Rlm.Nodes
import Mathlib.Data.List.Dedup

/-!
# Arags.Rlm.Cascade

The re-evaluation of a parent level by `store/rlm.rs`, and what it leaves in the live slots of
the parent.

* `RlmJobPayload`, `PayloadCodec` — a job payload and the JSON codec it is stored with.
* `cascadeRlm`       — one evaluation; `parentDue` is the test of progressive tolerance.
* `cascade_payloads` — the payloads of the parent's live slots after it.
-/

namespace Arags

open Sql

def TEMPLATE_VERSION : String := "arlm-v1"

/-- First path segment, or `(root)` for top-level files. -/
def themeOf (filePath : String) : String :=
  if filePath.toList.contains '/' then String.ofList (filePath.toList.takeWhile (· != '/'))
  else "(root)"

structure RlmJobPayload where
  chunkIds : List Int
  nodeIds : List Int
  hashes : List String
  texts : List String
  templateVersion : String
  subjectKind : String
  deriving DecidableEq, Repr

/-- `serde_json::to_string` and `serde_json::from_str` at this type. -/
structure PayloadCodec where
  encode : RlmJobPayload → String
  decode : String → Option RlmJobPayload

def sortHashes (hashes : List String) : List String := hashes.insertionSort (· ≤ ·)

/-- Equality after sorting. -/
def sameHashes (a b : List String) : Bool := sortHashes a == sortHashes b

/-- Whether a stored job payload's hash set equals the expected union. -/
def payloadCovers (codec : PayloadCodec) (jobPayload : String) (union : List String) : Bool :=
  ((codec.decode jobPayload).map fun p => sameHashes p.hashes union).getD false

def getLiveRlmJobByKey (scan : ScanOrder RlmJob) (t : Table RlmJob) (project : String)
    (level : Int) (subject : String) : Option (Int × RlmJob) :=
  (scan.order (t.select fun _ r => r.isAbout project level subject && r.live)).head?

/-! ## Parents and children -/

/-- Level and subject of the parent; level 3 is the root. -/
def parentOf (project : String) (childLevel : Int) (childSubject : String) :
    Option (Int × String) :=
  if childLevel = 1 then some (2, themeOf childSubject)
  else if childLevel = 2 then some (3, project)
  else none

/-- The non-rejected nodes of the child level that belong to the parent. -/
def childrenOf (scan : ScanOrder RlmNode) (t : Table RlmNode) (project : String)
    (childLevel : Int) (parentSubject : String) : List (Int × RlmNode) :=
  (listRlmNodes scan t project (some childLevel) true).filter fun n =>
    n.2.reviewStatus != .rejected &&
      if childLevel = 1 then themeOf n.2.subject == parentSubject else true

/-- Sorted, then without repetitions. -/
def unionHashes (children : List (Int × RlmNode)) : List String :=
  (sortHashes (children.flatMap fun c => c.2.sourceHashes)).dedup

/-- `1.0 - kept / union.len().max(1)`, in exact arithmetic. -/
def changedFraction (sourceHashes union : List String) : Rat :=
  1 - (sourceHashes.countP union.contains : Rat) / (max union.length 1 : Nat)

/-- A parent is due when it has no node, a stale one, or one that changed beyond the tolerance. -/
def parentDue (existing : Option (Int × RlmNode)) (union : List String) (tolerance : Rat) : Bool :=
  match existing with
  | none => true
  | some (_, node) => node.stale || decide (changedFraction node.sourceHashes union > tolerance)

/-- A fresh node that changed beyond the tolerance is marked. -/
def markParent (t : Table RlmNode) (existing : Option (Int × RlmNode)) (bufferId level : Int)
    (subject : String) : Table RlmNode :=
  match existing with
  | none => t
  | some (_, node) => if node.stale then t else markRlmStaleBySubject t bufferId level subject

def parentPayload (parentLevel : Int) (children : List (Int × RlmNode)) : RlmJobPayload where
  chunkIds := []
  nodeIds := children.map Prod.fst
  hashes := unionHashes children
  texts := children.map fun c => c.2.summaryText
  templateVersion := TEMPLATE_VERSION
  subjectKind := if parentLevel = 2 then "theme" else "project"

/-! ## The cascade -/

section Cascade

variable (codec : PayloadCodec) (scan : ScanOrder RlmNode) (jobScan : ScanOrder RlmJob)

/-- The parent is due: refresh its live work, or enqueue it. -/
def rebuildParent (db : RlmDb) (bufferId : Int) (project : String) (parent : Int × String)
    (children : List (Int × RlmNode)) (quorumN : Nat) (now : Int) : RlmDb × Except String Bool :=
  let union := unionHashes children
  let payload := codec.encode (parentPayload parent.1 children)
  match getLiveRlmJobByKey jobScan db.rlmJobs project parent.1 parent.2 with
  | some live =>
    if payloadCovers codec live.2.payload union then (db, .ok false)
    else
      let reset := cancelRlmJobsForSubjects db project [parent] now
      (updateRlmJobPayload reset project parent.1 parent.2 payload now, .ok true)
  | none =>
    let job : NewRlmJob := {
      bufferId := some bufferId
      project := project
      level := parent.1
      subject := parent.2
      payload := payload
      priority := PRIORITY_CASCADE
      quorumSlots := quorumN }
    let enqueued := enqueueRlmJob jobScan db job [] now
    (enqueued.1, enqueued.2.map fun _ => true)

def cascadeRlm (db : RlmDb) (bufferId : Int) (project : String) (childLevel : Int)
    (childSubject : String) (tolerance : Rat) (quorumN : Nat) (now : Int) :
    RlmDb × Except String Bool :=
  match parentOf project childLevel childSubject with
  | none => (db, .ok false)
  | some parent =>
    let children := childrenOf scan db.rlmNodes project childLevel parent.2
    if children.isEmpty then (db, .ok false)
    else
      let existing := getRlmNodeBySubject scan db.rlmNodes project parent.1 parent.2
      if parentDue existing (unionHashes children) tolerance then
        let marked := markParent db.rlmNodes existing bufferId parent.1 parent.2
        rebuildParent codec jobScan { db with rlmNodes := marked } bufferId project parent children
          quorumN now
      else (db, .ok false)

end Cascade

/-! ## Payloads of the live slots -/

def liveSlots (t : Table RlmJob) (project : String) (parent : Int × String) :
    List (Int × RlmJob) :=
  t.select fun _ r => r.isAbout project parent.1 parent.2 && r.live

/-- The parent a cascade rebuilds, with its children. -/
def dueParent (scan : ScanOrder RlmNode) (t : Table RlmNode) (project : String)
    (childLevel : Int) (childSubject : String) (tolerance : Rat) :
    Option ((Int × String) × List (Int × RlmNode)) :=
  (parentOf project childLevel childSubject).bind fun parent =>
    let children := childrenOf scan t project childLevel parent.2
    if !children.isEmpty && parentDue (getRlmNodeBySubject scan t project parent.1 parent.2)
        (unionHashes children) tolerance then some (parent, children)
    else none

/-- Every live slot carries the union already, or there is one and it is filed under the bare
job key. -/
def Refreshable (codec : PayloadCodec) (t : Table RlmJob) (project : String)
    (parent : Int × String) (union : List String) : Prop :=
  (∀ x ∈ liveSlots t project parent, payloadCovers codec x.2.payload union = true) ∨
    (liveSlots t project parent).map (fun x => x.2.jobKey) =
      [rlmJobKey project parent.1 parent.2]

theorem mem_liveSlots {t : Table RlmJob} {project : String} {parent : Int × String}
    {x : Int × RlmJob} : x ∈ liveSlots t project parent ↔
      x ∈ t.rows ∧ x.2.isAbout project parent.1 parent.2 = true ∧ x.2.live = true := by
  unfold liveSlots
  rw [← Prod.mk.eta (p := x), Table.mem_select, Bool.and_eq_true]

theorem getLiveRlmJobByKey_some {scan : ScanOrder RlmJob} {t : Table RlmJob} {project : String}
    {parent : Int × String} {x : Int × RlmJob}
    (h : getLiveRlmJobByKey scan t project parent.1 parent.2 = some x) :
    x ∈ liveSlots t project parent :=
  scan.mem_order.mp (List.mem_of_mem_head? h)

theorem getLiveRlmJobByKey_none {scan : ScanOrder RlmJob} {t : Table RlmJob} {project : String}
    {parent : Int × String} (h : getLiveRlmJobByKey scan t project parent.1 parent.2 = none) :
    liveSlots t project parent = [] := by
  unfold getLiveRlmJobByKey at h
  rw [List.head?_eq_none_iff] at h
  exact List.nil_perm.mp (h ▸ scan.perm _)

theorem parentOf_of_due {scan : ScanOrder RlmNode} {t : Table RlmNode} {project : String}
    {childLevel : Int} {childSubject : String} {tolerance : Rat} {parent : Int × String}
    {children : List (Int × RlmNode)}
    (h : dueParent scan t project childLevel childSubject tolerance = some (parent, children)) :
    parentOf project childLevel childSubject = some parent := by
  obtain ⟨p, hp, he⟩ := Option.bind_eq_some_iff.mp h
  dsimp only at he
  split at he
  · simp only [Option.some.injEq, Prod.mk.injEq] at he
    rw [hp, he.1]
  · cases he

/-- The encoded union is read back as the union. -/
theorem covers_encoded {codec : PayloadCodec} {level : Int} {children : List (Int × RlmNode)}
    (h : codec.decode (codec.encode (parentPayload level children)) =
      some (parentPayload level children)) :
    payloadCovers codec (codec.encode (parentPayload level children)) (unionHashes children) =
      true := by
  unfold payloadCovers
  rw [h]
  simp [sameHashes, parentPayload]

/-- A live slot under the bare key leaves the refresh with the new payload. -/
theorem refreshed_payload {db : RlmDb} {project : String} {parent : Int × String}
    {payload : String} {now : Int} {x : Int × RlmJob}
    (hbare : ∀ y ∈ liveSlots db.rlmJobs project parent,
      y.2.jobKey = rlmJobKey project parent.1 parent.2)
    (hx : x ∈ liveSlots (updateRlmJobPayload (cancelRlmJobsForSubjects db project [parent] now)
      project parent.1 parent.2 payload now).rlmJobs project parent) :
    x.2.payload = payload := by
  obtain ⟨hmem, habout, hlive⟩ := mem_liveSlots.mp hx
  obtain ⟨s, hs, hxs⟩ := Table.mem_update.mp hmem
  obtain ⟨r, hr, hsr⟩ := Table.mem_update.mp hs
  by_cases hlr : (r.isAbout project parent.1 parent.2 && r.live) = true
  · rw [if_pos hlr] at hsr
    have hkey : r.jobKey = rlmJobKey project parent.1 parent.2 := by
      refine hbare (x.1, r) (mem_liveSlots.mpr ⟨hr, ?_⟩)
      simpa using hlr
    rw [if_pos (by simp [hsr, hkey, RlmJob.live])] at hxs
    rw [hxs]
  · rw [if_neg hlr] at hsr
    subst hsr
    split at hxs
    · rename_i hl
      rw [hxs] at habout
      simp only [Bool.and_eq_true] at hl
      have : s.isAbout project parent.1 parent.2 = true := habout
      simp [this, hl.2] at hlr
    · rw [hxs] at habout hlive
      simp [habout, hlive] at hlr

/-- With no live slot before, every live slot afterwards is one that the enqueue inserted. -/
theorem enqueued_payload {scan : ScanOrder RlmJob} {db : RlmDb} {job : NewRlmJob} {now : Int}
    {x : Int × RlmJob} (hidle : liveSlots db.rlmJobs job.project (job.level, job.subject) = [])
    (hx : x ∈ liveSlots (enqueueRlmJob scan db job [] now).1.rlmJobs job.project
      (job.level, job.subject)) : x.2.payload = job.payload := by
  obtain ⟨hmem, habout, -⟩ := mem_liveSlots.mp hx
  rcases enqueueRlmJob_cases db scan job [] now with ⟨hlive, -⟩ | ⟨-, group, generation, n, hI⟩
  · obtain ⟨y, hy, hl⟩ := List.any_eq_true.mp hlive
    obtain ⟨hym, hya⟩ := (existingSlots_mem scan).mp hy
    have : y ∈ liveSlots db.rlmJobs job.project (job.level, job.subject) :=
      mem_liveSlots.mpr ⟨hym, hya, hl⟩
    rw [hidle] at this; cases this
  · rcases hI.row hmem with hold | ⟨k, -, hnew⟩
    · have := (Inserts.of_other hold).2.1
      rw [habout] at this; cases this
    · rw [hnew]; rfl

/-- What a rebuild that returns `Ok` leaves in the live slots. -/
theorem rebuildParent_payloads {codec : PayloadCodec} {jobScan : ScanOrder RlmJob} {db db' : RlmDb}
    {bufferId : Int} {project : String} {parent : Int × String}
    {children : List (Int × RlmNode)} {quorumN : Nat} {now : Int} {b : Bool}
    (h : rebuildParent codec jobScan db bufferId project parent children quorumN now =
      (db', .ok b))
    (hcodec : codec.decode (codec.encode (parentPayload parent.1 children)) =
      some (parentPayload parent.1 children))
    (hr : Refreshable codec db.rlmJobs project parent (unionHashes children)) :
    ∀ x ∈ liveSlots db'.rlmJobs project parent,
      payloadCovers codec x.2.payload (unionHashes children) = true := by
  intro x hx
  unfold rebuildParent at h
  cases hl : getLiveRlmJobByKey jobScan db.rlmJobs project parent.1 parent.2 with
  | some live =>
    have hmem := getLiveRlmJobByKey_some hl
    simp only [hl] at h
    by_cases hc : payloadCovers codec live.2.payload (unionHashes children) = true
    · rw [if_pos hc] at h
      cases h
      rcases hr with hall | hone
      · exact hall x hx
      · -- the one live slot is the one that was read
        obtain ⟨y, hy, -⟩ := List.map_eq_singleton_iff.mp hone
        rw [hy, List.mem_singleton] at hx hmem
        rw [hx, ← hmem]; exact hc
    · rw [if_neg hc] at h
      cases h
      rcases hr with hall | hone
      · exact absurd (hall live hmem) hc
      · have hbare : ∀ y ∈ liveSlots db.rlmJobs project parent,
            y.2.jobKey = rlmJobKey project parent.1 parent.2 := by
          intro y hy
          have := List.mem_map_of_mem (f := fun z : Int × RlmJob => z.2.jobKey) hy
          rw [hone, List.mem_singleton] at this
          exact this
        rw [refreshed_payload hbare hx]
        exact covers_encoded hcodec
  | none =>
    simp only [hl] at h
    have hdb : _ = db' := congrArg Prod.fst h
    rw [← hdb] at hx
    rw [enqueued_payload (getLiveRlmJobByKey_none hl) hx]
    exact covers_encoded hcodec

/-- The refresh goes by job key: a live slot under another key keeps the payload it had. -/
theorem rebuildParent_keeps {codec : PayloadCodec} {jobScan : ScanOrder RlmJob} {db : RlmDb}
    {bufferId : Int} {project : String} {parent : Int × String}
    {children : List (Int × RlmNode)} {quorumN : Nat} {now : Int} {x : Int × RlmJob}
    (hx : x ∈ liveSlots db.rlmJobs project parent)
    (hkey : x.2.jobKey ≠ rlmJobKey project parent.1 parent.2) :
    ∃ y ∈ liveSlots (rebuildParent codec jobScan db bufferId project parent children quorumN
      now).1.rlmJobs project parent, y.1 = x.1 ∧ y.2.payload = x.2.payload := by
  unfold rebuildParent
  cases hl : getLiveRlmJobByKey jobScan db.rlmJobs project parent.1 parent.2 with
  | none =>
    rw [getLiveRlmJobByKey_none hl] at hx
    cases hx
  | some live =>
    by_cases hc : payloadCovers codec live.2.payload (unionHashes children) = true
    · simp only [hc, if_true]
      exact ⟨x, hx, rfl, rfl⟩
    · simp only [hc]
      obtain ⟨hmem, habout, hlive⟩ := mem_liveSlots.mp hx
      have hreset : (x.1, _) ∈ (cancelRlmJobsForSubjects db project [parent] now).rlmJobs.rows :=
        Table.mem_update.mpr ⟨x.2, hmem, rfl⟩
      rw [if_pos (by simp [habout, hlive])] at hreset
      have hkept : (x.1, _) ∈ (updateRlmJobPayload (cancelRlmJobsForSubjects db project [parent]
          now) project parent.1 parent.2 (codec.encode (parentPayload parent.1 children))
          now).rlmJobs.rows := Table.mem_update.mpr ⟨_, hreset, rfl⟩
      rw [if_neg (by simp [hkey])] at hkept
      refine ⟨_, mem_liveSlots.mpr ⟨hkept, ?_, rfl⟩, rfl, rfl⟩
      exact habout

theorem cascadeRlm_eq (codec : PayloadCodec) (scan : ScanOrder RlmNode)
    (jobScan : ScanOrder RlmJob) (db : RlmDb) (bufferId : Int) (project : String)
    (childLevel : Int) (childSubject : String) (tolerance : Rat) (quorumN : Nat) (now : Int) :
    cascadeRlm codec scan jobScan db bufferId project childLevel childSubject tolerance quorumN
      now =
      match dueParent scan db.rlmNodes project childLevel childSubject tolerance with
      | none => (db, .ok false)
      | some (parent, children) =>
        let existing := getRlmNodeBySubject scan db.rlmNodes project parent.1 parent.2
        let marked := markParent db.rlmNodes existing bufferId parent.1 parent.2
        rebuildParent codec jobScan { db with rlmNodes := marked } bufferId project parent children
          quorumN now := by
  unfold cascadeRlm dueParent
  cases parentOf project childLevel childSubject with
  | none => rfl
  | some parent =>
    simp only [Option.bind_some]
    by_cases hc : (childrenOf scan db.rlmNodes project childLevel parent.2).isEmpty = true
    · simp [hc]
    · by_cases hd : parentDue (getRlmNodeBySubject scan db.rlmNodes project parent.1 parent.2)
        (unionHashes (childrenOf scan db.rlmNodes project childLevel parent.2)) tolerance = true
      · simp [hc, hd]
      · simp [hc, hd]

/-- A parent that is not due is left alone. A parent that is due has the union in every live
slot afterwards, however many slots the enqueue creates, unless it had fanned-out slots with
another payload. -/
theorem cascade_payloads {codec : PayloadCodec} {scan : ScanOrder RlmNode}
    {jobScan : ScanOrder RlmJob} {db db' : RlmDb} {bufferId : Int} {project : String}
    {childLevel : Int} {childSubject : String} {tolerance : Rat} {quorumN : Nat} {now : Int}
    {b : Bool}
    (h : cascadeRlm codec scan jobScan db bufferId project childLevel childSubject tolerance
      quorumN now = (db', .ok b)) :
    (dueParent scan db.rlmNodes project childLevel childSubject tolerance = none →
      db'.rlmJobs = db.rlmJobs) ∧
    ∀ parent children,
      dueParent scan db.rlmNodes project childLevel childSubject tolerance =
          some (parent, children) →
        codec.decode (codec.encode (parentPayload parent.1 children)) =
            some (parentPayload parent.1 children) →
          Refreshable codec db.rlmJobs project parent (unionHashes children) →
            ∀ x ∈ liveSlots db'.rlmJobs project parent,
              payloadCovers codec x.2.payload (unionHashes children) = true := by
  rw [cascadeRlm_eq] at h
  constructor
  · intro hd
    rw [hd] at h
    cases h
    rfl
  · intro parent children hd hcodec hr
    rw [hd] at h
    exact rebuildParent_payloads h hcodec hr

/-- The JSON text of a payload whose strings need no escapes. -/
def payloadJson (p : RlmJobPayload) : String :=
  let quote := fun (s : String) => "\"" ++ s ++ "\""
  let field := fun (name : String) (items : List String) =>
    if items.isEmpty then [] else [quote name ++ ":[" ++ ",".intercalate items ++ "]"]
  "\x7b" ++ ",".intercalate (field "chunk_ids" (p.chunkIds.map Int.repr) ++
    field "node_ids" (p.nodeIds.map Int.repr) ++ field "hashes" (p.hashes.map quote) ++
    field "texts" (p.texts.map quote) ++
    [quote "template_version" ++ ":" ++ quote p.templateVersion,
      quote "subject_kind" ++ ":" ++ quote p.subjectKind]) ++ "\x7d"

/-- The codec on the payloads of one history. -/
def sampleCodec (payloads : List RlmJobPayload) : PayloadCodec where
  encode := payloadJson
  decode := fun s => payloads.find? fun p => payloadJson p == s

def themePayload (hashes : List String) (child : Int) : RlmJobPayload where
  chunkIds := []
  nodeIds := [child]
  hashes := hashes
  texts := ["reads a file"]
  templateVersion := TEMPLATE_VERSION
  subjectKind := "theme"

def themeCodec : PayloadCodec :=
  sampleCodec [themePayload ["h1", "h2", "h3", "h4"] 1, themePayload ["h1", "h2", "h3", "h5"] 3]

def fileSummary (hashes : List String) : NewRlmNode where
  bufferId := some 1
  project := "p"
  level := 1
  subject := "src/a.rs"
  summaryText := "reads a file"
  sourceHashes := hashes
  model := none
  volunteerUsername := some "root"
  createdBy := some "root"
  templateVersion := none
  tokenCount := 0

def fileJob : NewRlmJob where
  bufferId := some 1
  project := "p"
  level := 1
  subject := "src/a.rs"
  payload := ""
  priority := PRIORITY_FRESH
  quorumSlots := 1

/-- An administrator claims what is next and completes it with a node. -/
def adminCompletes (db : RlmDb) (node : NewRlmNode) (nodeId : String) (now : Int) : RlmDb :=
  match claimRlmJob .rowid db "root" 60000 none 3 now with
  | (claimed, .ok (some job)) =>
    (completeRlmJobWithNode .rowid claimed job.id "root" job.generation node nodeId now now).1
  | (claimed, _) => claimed

/-- A file has its first summary. -/
def firstSummary : RlmDb :=
  adminCompletes (enqueueRlmJob .rowid .empty fileJob [] 0).1
    (fileSummary ["h1", "h2", "h3", "h4"]) "n1" 1

/-- Its theme was fanned out to two volunteers, an administrator has answered one of the two
slots, and then the file was summarized again. -/
def secondSummary : RlmDb :=
  let fanned := cascadeRlm themeCodec .rowid .rowid firstSummary 1 "p" 1 "src/a.rs" (3 / 10) 2 2
  let theme : NewRlmNode :=
    { fileSummary ["h1", "h2", "h3", "h4"] with level := 2, subject := "src" }
  let answered := adminCompletes fanned.1 theme "n2" 3
  adminCompletes (enqueueRlmJob .rowid answered fileJob [] 4).1
    (fileSummary ["h1", "h2", "h3", "h5"]) "n3" 5

/-- The first cascade gives both slots the union. -/
theorem cascade_payloads_fanned_out :
    (liveSlots (cascadeRlm themeCodec .rowid .rowid
      firstSummary 1 "p" 1 "src/a.rs" (3 / 10) 2 2).1.rlmJobs "p" (2, "src")).length = 2 ∧
    ∀ x ∈ liveSlots (cascadeRlm themeCodec .rowid .rowid
      firstSummary 1 "p" 1 "src/a.rs" (3 / 10) 2 2).1.rlmJobs "p" (2, "src"),
        payloadCovers themeCodec x.2.payload ["h1", "h2", "h3", "h4"] = true := by
  refine ⟨by decide +kernel, ?_⟩
  exact (cascade_payloads (b := true) (Prod.ext rfl (by decide +kernel))).2 (2, "src")
    (childrenOf .rowid firstSummary.rlmNodes "p" 1 "src") (by decide +kernel) (by decide +kernel)
    (.inl (by decide +kernel))

/-- One hash of four changed: within the tolerance the live slot is left with the old union. -/
theorem cascade_payloads_within_tolerance :
    (cascadeRlm themeCodec .rowid .rowid secondSummary 1 "p" 1 "src/a.rs" (3 / 10) 2 6).2 =
      .ok false ∧
    (liveSlots (cascadeRlm themeCodec .rowid .rowid secondSummary 1 "p" 1 "src/a.rs" (3 / 10) 2
      6).1.rlmJobs "p" (2, "src")).map (fun x => (x.2.jobKey,
        payloadCovers themeCodec x.2.payload
          (unionHashes (childrenOf .rowid secondSummary.rlmNodes "p" 1 "src")))) =
      [("L2:p:src#1", false)] := by
  decide +kernel

end Arags
