import Arags.Memory.Consolidation
import Mathlib.Algebra.Order.BigOperators.Group.List
import Mathlib.Algebra.Order.Group.Nat

/-!
# Arags.Memory.Maintenance

The maintenance pass of `maintenance.rs`: consolidation of every buffer of a project, then the decay
of what is left, and the report of both.

* `maintenanceConsolidate`, `runDecayForBuffer`, `runMaintenance` — the code.
* `bufferRows`, `rowCounts` — what a pass counts depends on the rows of the buffer alone.
* `consolidated_rows` — the rows that the decay meets: those without a newer copy.
* `dry_run_truthful`  — when the report of a dry run is that of the real run.
-/

namespace Arags

open Sql

/-! ## The code -/

/-- A row of `buffers`, as far as a project is looked up. -/
structure ProjectIdent where
  name : String
  uuid : Option String

structure MaintenanceDb (ε : Type) where
  projects : SeqTable ProjectIdent
  memory : MemoryDb ε
  /-- The column `last_accessed_at` of `chunks`. -/
  lastAccessed : Int → Option Int

structure MaintenanceReport where
  duplicateChunksRemoved : Nat := 0
  lowConfidencePatternsRemoved : Nat := 0
  decayedChunks : Nat := 0
  kept : Nat := 0
  deriving DecidableEq, Repr

def MaintenanceReport.merge (r other : MaintenanceReport) : MaintenanceReport where
  duplicateChunksRemoved := r.duplicateChunksRemoved + other.duplicateChunksRemoved
  lowConfidencePatternsRemoved := r.lowConfidencePatternsRemoved +
    other.lowConfidencePatternsRemoved
  decayedChunks := r.decayedChunks + other.decayedChunks
  kept := r.kept + other.kept

structure MaintenanceEnv where
  /-- Of the rows that match a project's name or uuid, the order they are read in. -/
  scan : ScanOrder ProjectIdent
  /-- `score(1.0, age_hours(last_accessed)) < score_floor`, at the time of the pass. -/
  belowFloor : Int → Bool
  /-- Whether a vector store is attached and takes the deletion of a buffer's duplicates. -/
  purgesCopies : Int → Bool
  /-- And of its decayed chunks. -/
  purgesDecayed : Int → Bool

section Operations

variable {ε : Type} (env : MaintenanceEnv)

def resolveBufferIds (db : MaintenanceDb ε) (project : String) : List Int :=
  if project.isEmpty then
    (db.projects.rows.insertionSort fun x y => x.2.name ≤ y.2.name).map Prod.fst
  else
    ((env.scan.order (db.projects.select fun _ p =>
      p.name == project || p.uuid == some project)).head?.map Prod.fst).toList

/-- One round of the loop of `consolidate`, with the default options. -/
def consolidateBuffer (dryRun : Bool) (s : MaintenanceDb ε × MaintenanceReport) (bufferId : Int) :
    MaintenanceDb ε × MaintenanceReport :=
  let res := consolidate s.1.memory bufferId ⟨true, 3 / 10, dryRun⟩ (env.purgesCopies bufferId)
  ({ s.1 with memory := res.1 },
    { s.2 with
      duplicateChunksRemoved := s.2.duplicateChunksRemoved + res.2.duplicateChunksRemoved
      lowConfidencePatternsRemoved :=
        s.2.lowConfidencePatternsRemoved + res.2.lowConfidencePatternsRemoved })

def maintenanceConsolidate (db : MaintenanceDb ε) (project : String) (dryRun : Bool) :
    MaintenanceDb ε × MaintenanceReport :=
  (resolveBufferIds env db project).foldl (consolidateBuffer env dryRun) (db, {})

/-- The four deletes of a decayed chunk. The last one follows the edges, and fails where a task or
a finding names the chunk; what the others deleted stays deleted. -/
def decayChunk (db : MemoryDb ε) (id : Int) : MemoryDb ε × Except String Unit :=
  let db := { db with
    chunksFts := db.chunksFts.filter (· != id)
    chunkTexts := db.chunkTexts.filter (· != id)
    chunkEntities := db.chunkEntities.filter (·.1 != id) }
  if db.tasks.any (·.2 == some id) || db.findings.any (·.2 == some id) then
    (db, .error "failed to delete chunk")
  else
    ({ db with
      chunks := db.chunks.delete fun i _ => i == id
      rlmEdges := db.rlmEdges.filter (·.2 != some id) }, .ok ())

structure DecayCount where
  decayedChunks : Nat := 0
  kept : Nat := 0

/-- The loop over the rows that were read, with the ids that it removed. -/
def decayRows (dryRun : Bool) : List (Int × Int) → MemoryDb ε → DecayCount → List Int →
    MemoryDb ε × Except String (DecayCount × List Int)
  | [], db, count, removed => (db, .ok (count, removed))
  | (id, lastAccessed) :: rows, db, count, removed =>
    if env.belowFloor lastAccessed then
      let count := { count with decayedChunks := count.decayedChunks + 1 }
      if dryRun then decayRows dryRun rows db count removed
      else
        match decayChunk db id with
        | (db, .error e) => (db, .error e)
        | (db, .ok ()) => decayRows dryRun rows db count (removed ++ [id])
    else decayRows dryRun rows db { count with kept := count.kept + 1 } removed

/-- The rows of a buffer. -/
def bufferRows (chunks : SeqTable Chunk) (bufferId : Int) : List (Int × Chunk) :=
  chunks.select fun _ r => r.bufferId == bufferId

/-- `SELECT id, last_accessed_at …`, an age that is missing read as 0. -/
def decayInput (db : MaintenanceDb ε) (bufferId : Int) : List (Int × Int) :=
  (bufferRows db.memory.chunks bufferId).map fun x => (x.1, (db.lastAccessed x.1).getD 0)

def runDecayForBuffer (db : MaintenanceDb ε) (bufferId : Int) (dryRun : Bool) :
    MaintenanceDb ε × Except String DecayCount :=
  match decayRows env dryRun (decayInput db bufferId) db.memory {} [] with
  | (memory, .error e) => ({ db with memory := memory }, .error e)
  | (memory, .ok (count, removed)) =>
    let vectors :=
      if env.purgesDecayed bufferId then deleteChunkIds memory.vectors removed else memory.vectors
    ({ db with memory := { memory with vectors := vectors } }, .ok count)

/-- The loop of `decay`; the first buffer that fails ends it. -/
def decayBuffers (dryRun : Bool) : List Int → MaintenanceDb ε → MaintenanceReport →
    MaintenanceDb ε × Except String MaintenanceReport
  | [], db, report => (db, .ok report)
  | bufferId :: ids, db, report =>
    match runDecayForBuffer env db bufferId dryRun with
    | (db, .error e) => (db, .error e)
    | (db, .ok count) =>
      decayBuffers dryRun ids db { report with
        decayedChunks := report.decayedChunks + count.decayedChunks
        kept := report.kept + count.kept }

def maintenanceDecay (db : MaintenanceDb ε) (project : String) (dryRun : Bool) :
    MaintenanceDb ε × Except String MaintenanceReport :=
  decayBuffers env dryRun (resolveBufferIds env db project) db {}

def runMaintenance (db : MaintenanceDb ε) (project : String) (dryRun : Bool) :
    MaintenanceDb ε × Except String MaintenanceReport :=
  let consolidated := maintenanceConsolidate env db project dryRun
  let decayed := maintenanceDecay env consolidated.1 project dryRun
  (decayed.1, decayed.2.map consolidated.2.merge)

end Operations

/-! ## The counts of a consolidation -/

section Consolidation

variable {ε : Type} {env : MaintenanceEnv} {chunks chunks' : SeqTable Chunk} {b c : Int}

def hasNewerCopy (rows : List (Int × Chunk)) (x : Int × Chunk) : Bool :=
  rows.any fun y => y.2.hash == x.2.hash && decide (x.1 < y.1)

/-- The duplicates of a buffer. -/
def copyCount (chunks : SeqTable Chunk) (bufferId : Int) : Nat :=
  ((duplicateHashes chunks bufferId).map fun hash => (copies chunks bufferId hash).length - 1).sum

/-- The patterns of a buffer that are dropped. -/
def weakCount (patterns : List (Option Int × Option Rat)) (bufferId : Int) : Nat :=
  (patterns.filter (lowConfidence bufferId (3 / 10))).length

theorem bufferRows_eq (chunks : SeqTable Chunk) (b : Int) :
    bufferRows chunks b = chunks.rows.filter fun x => x.2.bufferId == b := rfl

theorem mem_bufferRows {x : Int × Chunk} :
    x ∈ bufferRows chunks b ↔ x ∈ chunks.rows ∧ x.2.bufferId = b := by
  unfold bufferRows
  rw [Table.mem_select (i := x.1) (r := x.2), beq_iff_eq]

theorem hasNewerCopy_iff {x : Int × Chunk} (hx : x ∈ bufferRows chunks b) :
    hasNewerCopy (bufferRows chunks b) x = true ↔ Outdated chunks b x.1 x.2 := by
  unfold hasNewerCopy Outdated
  simp only [List.any_eq_true, Bool.and_eq_true, beq_iff_eq, decide_eq_true_eq, mem_bufferRows]
  constructor
  · rintro ⟨y, ⟨hy, hyb⟩, hyh, hlt⟩
    exact ⟨(mem_bufferRows.mp hx).2, y, hy, hyb, hyh, hlt⟩
  · rintro ⟨-, y, hy, hyb, hyh, hlt⟩
    exact ⟨y, ⟨hy, hyb⟩, hyh, hlt⟩

theorem copies_eq (chunks : SeqTable Chunk) (b : Int) (hash : List UInt8) :
    copies chunks b hash = (bufferRows chunks b).filter fun x => x.2.hash == hash := by
  unfold copies bufferRows Table.select
  rw [List.filter_filter]
  exact List.filter_congr fun x _ => Bool.and_comm _ _

theorem copyCount_congr (h : bufferRows chunks b = bufferRows chunks' b) :
    copyCount chunks b = copyCount chunks' b := by
  have hcopies : copies chunks b = copies chunks' b := by
    funext hash
    rw [copies_eq, copies_eq, h]
  have hhashes : duplicateHashes chunks b = duplicateHashes chunks' b := by
    unfold duplicateHashes
    rw [hcopies]
    exact congrArg (fun rows : List (Int × Chunk) => ((rows.map fun x => x.2.hash).dedup).filter
      fun hash => decide (1 < (copies chunks' b hash).length)) h
  unfold copyCount
  rw [hcopies, hhashes]

theorem length_dupIds (chunks : SeqTable Chunk) (b : Int) (hash : List UInt8) :
    (dupIds chunks b hash).length = (copies chunks b hash).length - 1 := by
  unfold dupIds
  rw [List.length_drop, List.length_insertionSort, List.length_map]

/-- Without newer copies there is nothing to remove. -/
theorem duplicateHashes_eq_nil (h : ∀ x ∈ chunks.rows, ¬ Outdated chunks b x.1 x.2) :
    duplicateHashes chunks b = [] := by
  rw [List.eq_nil_iff_forall_not_mem]
  intro hash hmem
  have hlen : 1 < (copies chunks b hash).length := of_decide_eq_true (List.mem_filter.mp hmem).2
  have hpos : 0 < (dupIds chunks b hash).length := by
    rw [length_dupIds]
    omega
  obtain ⟨i, hi⟩ := List.exists_mem_of_length_pos hpos
  obtain ⟨r, hr, -, ho⟩ := mem_dupIds.mp hi
  exact h (i, r) hr ho

theorem removeAll_patterns (hashes : List (List UInt8)) (db : MemoryDb ε) :
    (hashes.foldl (removeCopies b) db).patterns = db.patterns := by
  induction hashes generalizing db with
  | nil => rfl
  | cons hash hashes ih =>
    rw [List.foldl_cons, ih]
    rfl

/-- A dry run and a real run count the same. -/
theorem consolidate_counts (db : MemoryDb ε) (b : Int) (dryRun purge : Bool) :
    (consolidate db b ⟨true, 3 / 10, dryRun⟩ purge).2 =
      ⟨copyCount db.chunks b, weakCount db.patterns b⟩ := by
  cases dryRun with
  | true => rfl
  | false =>
    have hids : (((duplicateHashes db.chunks b).map (dupIds db.chunks b)).flatten).length =
        copyCount db.chunks b := by
      unfold copyCount
      rw [List.length_flatten, List.map_map]
      exact congrArg List.sum (List.map_congr_left fun hash _ => length_dupIds db.chunks b hash)
    have hpatterns : (removeDuplicateChunks db b false purge).1.patterns = db.patterns :=
      removeAll_patterns _ db
    simp only [consolidate, removeLowConfidencePatterns, weakCount, if_true, Bool.false_eq_true,
      if_false, hpatterns]
    rw [← hids]
    rfl

theorem removeAll_filter (hashes : List (List UInt8)) (db : MemoryDb ε) :
    ∃ p, (hashes.foldl (removeCopies b) db).chunks.rows = db.chunks.rows.filter p := by
  induction hashes generalizing db with
  | nil => exact ⟨fun _ => true, (List.filter_true _).symm⟩
  | cons hash hashes ih =>
    obtain ⟨p, hp⟩ := ih (removeCopies b db hash)
    rw [List.foldl_cons, hp]
    exact ⟨_, List.filter_filter⟩

theorem outdated_iff {x : Int × Chunk} (hx : x ∈ chunks.rows) :
    Outdated chunks b x.1 x.2 ↔
      (x.2.bufferId == b && hasNewerCopy (bufferRows chunks b) x) = true := by
  rw [Bool.and_eq_true, beq_iff_eq]
  constructor
  · intro ho
    exact ⟨ho.1, (hasNewerCopy_iff (mem_bufferRows.mpr ⟨hx, ho.1⟩)).mpr ho⟩
  · rintro ⟨hb, hnewer⟩
    exact (hasNewerCopy_iff (mem_bufferRows.mpr ⟨hx, hb⟩)).mp hnewer

theorem consolidate_rows (db : MemoryDb ε) (b : Int) (purge : Bool) :
    (consolidate db b ⟨true, 3 / 10, false⟩ purge).1.chunks.rows = db.chunks.rows.filter fun x =>
      !(x.2.bufferId == b && hasNewerCopy (bufferRows db.chunks b) x) := by
  have hrows : (consolidate db b ⟨true, 3 / 10, false⟩ purge).1.chunks.rows =
      (removeDuplicateChunks db b false purge).1.chunks.rows := rfl
  obtain ⟨p, hp⟩ := removeAll_filter (b := b) (duplicateHashes db.chunks b) db
  have hfilter : (removeDuplicateChunks db b false purge).1.chunks.rows =
      db.chunks.rows.filter p := hp
  rw [hrows, hfilter]
  refine List.filter_congr fun x hx => ?_
  have hmem : p x = true ↔ ¬ Outdated db.chunks b x.1 x.2 := by
    have h : x ∈ (removeDuplicateChunks db b false purge).1.chunks.rows ↔
        x ∈ db.chunks.rows ∧ ¬ Outdated db.chunks b x.1 x.2 := mem_removeDuplicates
    rw [hfilter, List.mem_filter] at h
    exact ⟨fun hpx => (h.mp ⟨hx, hpx⟩).2, fun ho => (h.mpr ⟨hx, ho⟩).2⟩
  rw [Bool.eq_iff_iff, hmem, outdated_iff hx, Bool.not_eq_true, Bool.not_eq_true']

/-- After a real run the buffer has the rows without a newer copy. -/
theorem bufferRows_consolidate (db : MemoryDb ε) (b : Int) (purge : Bool) :
    bufferRows (consolidate db b ⟨true, 3 / 10, false⟩ purge).1.chunks b =
      (bufferRows db.chunks b).filter fun x => !hasNewerCopy (bufferRows db.chunks b) x := by
  rw [bufferRows_eq, consolidate_rows]
  conv_rhs => arg 2; rw [bufferRows_eq]
  rw [List.filter_filter, List.filter_filter]
  refine List.filter_congr fun x _ => ?_
  cases hb : x.2.bufferId == b with
  | false => simp
  | true => simp

/-- The other buffers keep theirs. -/
theorem bufferRows_consolidate_other (db : MemoryDb ε) (dryRun purge : Bool) (hne : c ≠ b) :
    bufferRows (consolidate db b ⟨true, 3 / 10, dryRun⟩ purge).1.chunks c =
      bufferRows db.chunks c := by
  cases dryRun with
  | true => rfl
  | false =>
    rw [bufferRows_eq, consolidate_rows, List.filter_filter, bufferRows_eq]
    refine List.filter_congr fun x _ => ?_
    cases hc : x.2.bufferId == c with
    | false =>
      rw [Bool.false_and]
      exact hc.symm
    | true =>
      have hb : (x.2.bufferId == b) = false := by
        rw [beq_eq_false_iff_ne, beq_iff_eq.mp hc]
        exact hne
      rw [hb, Bool.false_and, Bool.not_false, Bool.and_true]
      exact hc.symm

theorem weakCount_consolidate_other (db : MemoryDb ε) (dryRun purge : Bool) (hne : c ≠ b) :
    weakCount (consolidate db b ⟨true, 3 / 10, dryRun⟩ purge).1.patterns c =
      weakCount db.patterns c := by
  cases dryRun with
  | true => rfl
  | false =>
    have hpatterns : (consolidate db b ⟨true, 3 / 10, false⟩ purge).1.patterns =
        db.patterns.filter fun x => !lowConfidence b (3 / 10) x :=
      congrArg (List.filter fun x => !lowConfidence b (3 / 10) x) (removeAll_patterns _ db)
    unfold weakCount
    rw [hpatterns, List.filter_filter]
    refine congrArg List.length (List.filter_congr fun x _ => ?_)
    cases hc : lowConfidence c (3 / 10) x with
    | false => rfl
    | true =>
      have hxc : x.1 = some c := beq_iff_eq.mp (Bool.and_eq_true _ _ |>.mp hc).1
      have hb : lowConfidence b (3 / 10) x = false := by
        unfold lowConfidence
        rw [hxc, Bool.and_eq_false_iff]
        exact .inl (beq_eq_false_iff_ne.mpr fun h => hne (Option.some.inj h))
      rw [hb]
      rfl

/-! ## All buffers -/

/-- The report of a consolidation, dry or not. -/
theorem consolidated_report (dryRun : Bool) (ids : List Int) :
    ∀ (s : MaintenanceDb ε × MaintenanceReport), ids.Nodup →
      (ids.foldl (consolidateBuffer env dryRun) s).2 = { s.2 with
        duplicateChunksRemoved := s.2.duplicateChunksRemoved +
          (ids.map (copyCount s.1.memory.chunks)).sum
        lowConfidencePatternsRemoved := s.2.lowConfidencePatternsRemoved +
          (ids.map (weakCount s.1.memory.patterns)).sum } := by
  induction ids with
  | nil => exact fun _ _ => rfl
  | cons b ids ih =>
    intro s hnodup
    obtain ⟨hb, hnodup⟩ := List.nodup_cons.mp hnodup
    have hne : ∀ c ∈ ids, c ≠ b := fun c hc h => hb (h ▸ hc)
    have hcopies : ids.map (copyCount (consolidateBuffer env dryRun s b).1.memory.chunks) =
        ids.map (copyCount s.1.memory.chunks) :=
      List.map_congr_left fun c hc =>
        copyCount_congr (bufferRows_consolidate_other _ dryRun _ (hne c hc))
    have hweak : ids.map (weakCount (consolidateBuffer env dryRun s b).1.memory.patterns) =
        ids.map (weakCount s.1.memory.patterns) :=
      List.map_congr_left fun c hc => weakCount_consolidate_other _ dryRun _ (hne c hc)
    rw [List.foldl_cons, ih _ hnodup, hcopies, hweak]
    simp only [consolidateBuffer, consolidate_counts, List.map_cons, List.sum_cons, Nat.add_assoc]

theorem consolidated_dry (ids : List Int) (s : MaintenanceDb ε × MaintenanceReport) :
    (ids.foldl (consolidateBuffer env true) s).1 = s.1 := by
  induction ids generalizing s with
  | nil => rfl
  | cons b ids ih =>
    rw [List.foldl_cons, ih]
    rfl

/-- What a consolidation does not touch. -/
theorem consolidated_same (dryRun : Bool) (ids : List Int)
    (s : MaintenanceDb ε × MaintenanceReport) :
    (ids.foldl (consolidateBuffer env dryRun) s).1.projects = s.1.projects ∧
      (ids.foldl (consolidateBuffer env dryRun) s).1.lastAccessed = s.1.lastAccessed := by
  induction ids generalizing s with
  | nil => exact ⟨rfl, rfl⟩
  | cons b ids ih =>
    rw [List.foldl_cons]
    exact ih _

theorem bufferRows_consolidated_other (ids : List Int)
    (s : MaintenanceDb ε × MaintenanceReport) (hc : c ∉ ids) :
    bufferRows (ids.foldl (consolidateBuffer env false) s).1.memory.chunks c =
      bufferRows s.1.memory.chunks c := by
  induction ids generalizing s with
  | nil => rfl
  | cons b ids ih =>
    have hne : c ≠ b := fun h => hc (h ▸ List.mem_cons_self)
    rw [List.foldl_cons, ih _ fun hmem => hc (List.mem_cons_of_mem b hmem)]
    exact bufferRows_consolidate_other _ false _ hne

/-- The rows that a real run leaves in a buffer. -/
theorem consolidated_rows (ids : List Int) :
    ∀ (s : MaintenanceDb ε × MaintenanceReport), ids.Nodup → c ∈ ids →
      bufferRows (ids.foldl (consolidateBuffer env false) s).1.memory.chunks c =
        (bufferRows s.1.memory.chunks c).filter fun x =>
          !hasNewerCopy (bufferRows s.1.memory.chunks c) x := by
  induction ids with
  | nil => exact fun _ _ hc => absurd hc List.not_mem_nil
  | cons b ids ih =>
    intro s hnodup hc
    obtain ⟨hb, hnodup⟩ := List.nodup_cons.mp hnodup
    rw [List.foldl_cons]
    obtain rfl | hc := List.mem_cons.mp hc
    · rw [bufferRows_consolidated_other ids _ hb]
      exact bufferRows_consolidate _ c _
    · have hne : c ≠ b := fun h => hb (h ▸ hc)
      have hkept : bufferRows (consolidateBuffer env false s b).1.memory.chunks c =
          bufferRows s.1.memory.chunks c := bufferRows_consolidate_other _ false _ hne
      rw [ih _ hnodup hc, hkept]

/-- Where no row has a newer copy a consolidation keeps what names a chunk. -/
theorem consolidated_children (ids : List Int) :
    ∀ (s : MaintenanceDb ε × MaintenanceReport),
      (∀ b ∈ ids, ∀ x ∈ s.1.memory.chunks.rows, ¬ Outdated s.1.memory.chunks b x.1 x.2) →
      (ids.foldl (consolidateBuffer env false) s).1.memory.tasks = s.1.memory.tasks ∧
        (ids.foldl (consolidateBuffer env false) s).1.memory.findings = s.1.memory.findings := by
  induction ids with
  | nil => exact fun _ _ => ⟨rfl, rfl⟩
  | cons b ids ih =>
    intro s h
    have hnone := duplicateHashes_eq_nil (h b List.mem_cons_self)
    obtain ⟨hchunks, htasks, hfindings⟩ :
        (consolidateBuffer env false s b).1.memory.chunks = s.1.memory.chunks ∧
        (consolidateBuffer env false s b).1.memory.tasks = s.1.memory.tasks ∧
        (consolidateBuffer env false s b).1.memory.findings = s.1.memory.findings := by
      simp only [consolidateBuffer, consolidate, removeDuplicateChunks, hnone]
      exact ⟨rfl, rfl, rfl⟩
    rw [List.foldl_cons, ← htasks, ← hfindings]
    refine ih _ fun c hc x hx => ?_
    rw [hchunks] at hx ⊢
    exact h c (List.mem_cons_of_mem b hc) x hx

end Consolidation

/-! ## The decay -/

section Decay

variable {ε : Type} {env : MaintenanceEnv}

/-- No task and no finding names the chunk. -/
def Unreferenced (db : MemoryDb ε) (i : Int) : Prop :=
  (∀ t ∈ db.tasks, t.2 ≠ some i) ∧ ∀ f ∈ db.findings, f.2 ≠ some i

def decayedCount (env : MaintenanceEnv) (rows : List (Int × Int)) : Nat :=
  rows.countP fun x => env.belowFloor x.2

def keptCount (env : MaintenanceEnv) (rows : List (Int × Int)) : Nat :=
  rows.countP fun x => !env.belowFloor x.2

/-- Nothing in the way of the rows that have decayed. -/
def Removable (env : MaintenanceEnv) (db : MemoryDb ε) (rows : List (Int × Int)) : Prop :=
  ∀ x ∈ rows, env.belowFloor x.2 = true → Unreferenced db x.1

theorem named_iff {db : MemoryDb ε} {i : Int} :
    (db.tasks.any (·.2 == some i) || db.findings.any (·.2 == some i)) = true ↔
      ¬ Unreferenced db i := by
  unfold Unreferenced
  simp only [Bool.or_eq_true, List.any_eq_true, beq_iff_eq]
  constructor
  · rintro (⟨t, ht, he⟩ | ⟨f, hf, he⟩) ⟨htasks, hfindings⟩
    · exact htasks t ht he
    · exact hfindings f hf he
  · intro h
    by_contra hno
    push Not at hno
    exact h hno

theorem decayChunk_free {db : MemoryDb ε} {i : Int} (h : Unreferenced db i) :
    ∃ db', decayChunk db i = (db', .ok ()) ∧ db'.tasks = db.tasks ∧
      db'.findings = db.findings ∧ db'.chunks = db.chunks.delete fun j _ => j == i := by
  have hno : ¬ (db.tasks.any (·.2 == some i) || db.findings.any (·.2 == some i)) = true :=
    fun hnamed => named_iff.mp hnamed h
  unfold decayChunk
  rw [if_neg hno]
  exact ⟨_, rfl, rfl, rfl, rfl⟩

theorem decayChunk_named {db : MemoryDb ε} {i : Int} (h : ¬ Unreferenced db i) :
    ∃ db' e, decayChunk db i = (db', .error e) := by
  unfold decayChunk
  rw [if_pos (named_iff.mpr h)]
  exact ⟨_, _, rfl⟩

theorem decayRows_dry (rows : List (Int × Int)) :
    ∀ (db : MemoryDb ε) (count : DecayCount) (removed : List Int),
      decayRows env true rows db count removed = (db, .ok (⟨count.decayedChunks +
        decayedCount env rows, count.kept + keptCount env rows⟩, removed)) := by
  induction rows with
  | nil => exact fun _ _ _ => rfl
  | cons x rows ih =>
    intro db count removed
    unfold decayRows
    unfold decayedCount keptCount at ih ⊢
    cases hx : env.belowFloor x.2 with
    | true => simp [hx, ih, Nat.add_assoc, Nat.add_comm 1]
    | false => simp [hx, ih, Nat.add_assoc, Nat.add_comm 1]

/-- The rows that are removed are among the given ones. -/
theorem decayRows_free (rows : List (Int × Int)) :
    ∀ (db : MemoryDb ε) (count : DecayCount) (removed : List Int), Removable env db rows →
      ∃ db' removed', decayRows env false rows db count removed = (db', .ok (⟨count.decayedChunks +
          decayedCount env rows, count.kept + keptCount env rows⟩, removed')) ∧
        db'.tasks = db.tasks ∧ db'.findings = db.findings ∧
        ∀ c, (∀ x ∈ bufferRows db.chunks c, x.1 ∉ rows.map Prod.fst) →
          bufferRows db'.chunks c = bufferRows db.chunks c := by
  induction rows with
  | nil => exact fun db _ removed _ => ⟨db, removed, rfl, rfl, rfl, fun _ _ => rfl⟩
  | cons x rows ih =>
    intro db count removed h
    obtain ⟨i, last⟩ := x
    have hrest : Removable env db rows := fun y hy => h y (List.mem_cons_of_mem _ hy)
    unfold decayRows
    unfold decayedCount keptCount at ih ⊢
    cases hx : env.belowFloor last with
    | true =>
      obtain ⟨mid, hmid, htasks, hfindings, hchunks⟩ :=
        decayChunk_free (h (i, last) List.mem_cons_self hx)
      have hmidfree : Removable env mid rows := by
        intro y hy hbelow
        unfold Unreferenced
        rw [htasks, hfindings]
        exact hrest y hy hbelow
      obtain ⟨db', removed', hrun, ht, hf, hrows⟩ :=
        ih mid ⟨count.decayedChunks + 1, count.kept⟩ (removed ++ [i]) hmidfree
      refine ⟨db', removed', ?_, ht.trans htasks, hf.trans hfindings, fun c hc => ?_⟩
      · simp [hx, hmid, hrun, Nat.add_assoc, Nat.add_comm 1]
      · have hsame : bufferRows mid.chunks c = bufferRows db.chunks c := by
          have hdel : bufferRows mid.chunks c =
              (db.chunks.rows.filter fun y => !(y.1 == i)).filter fun y => y.2.bufferId == c := by
            rw [hchunks]
            rfl
          rw [hdel, List.filter_filter, bufferRows_eq]
          refine List.filter_congr fun y hy => ?_
          cases hyc : y.2.bufferId == c with
          | false => rfl
          | true =>
            have hne := hc y (mem_bufferRows.mpr ⟨hy, beq_iff_eq.mp hyc⟩)
            have hyi : y.1 ≠ i := fun hyi => hne (hyi ▸ List.mem_cons_self)
            rw [beq_eq_false_iff_ne.mpr hyi]
            rfl
        rw [hrows c, hsame]
        intro y hy hmem
        rw [hsame] at hy
        exact hc y hy (List.mem_cons_of_mem _ hmem)
    | false =>
      obtain ⟨db', removed', hrun, ht, hf, hrows⟩ :=
        ih db ⟨count.decayedChunks, count.kept + 1⟩ removed hrest
      refine ⟨db', removed', ?_, ht, hf, fun c hc => hrows c fun y hy hmem => ?_⟩
      · simp [hx, hrun, Nat.add_assoc, Nat.add_comm 1]
      · exact hc y hy (List.mem_cons_of_mem _ hmem)

theorem decayRows_named (rows : List (Int × Int)) :
    ∀ (db : MemoryDb ε) (count : DecayCount) (removed : List Int), ¬ Removable env db rows →
      ∃ db' e, decayRows env false rows db count removed = (db', .error e) := by
  induction rows with
  | nil => exact fun db _ _ h => absurd (fun x hx => absurd hx List.not_mem_nil) h
  | cons x rows ih =>
    intro db count removed h
    obtain ⟨i, last⟩ := x
    unfold decayRows
    cases hx : env.belowFloor last with
    | true =>
      by_cases hfree : Unreferenced db i
      · obtain ⟨mid, hmid, htasks, hfindings, -⟩ := decayChunk_free hfree
        have hrest : ¬ Removable env mid rows := by
          intro hmidfree
          refine h fun y hy hbelow => ?_
          obtain rfl | hy := List.mem_cons.mp hy
          · exact hfree
          · have hy := hmidfree y hy hbelow
            unfold Unreferenced at hy
            rw [htasks, hfindings] at hy
            exact hy
        obtain ⟨db', e, hrun⟩ := ih mid ⟨count.decayedChunks + 1, count.kept⟩ (removed ++ [i]) hrest
        exact ⟨db', e, by simp [hmid, hrun]⟩
      · obtain ⟨db', e, hnamed⟩ := decayChunk_named hfree
        exact ⟨db', e, by simp [hnamed]⟩
    | false =>
      have hrest : ¬ Removable env db rows := by
        intro hfree
        refine h fun y hy hbelow => ?_
        obtain rfl | hy := List.mem_cons.mp hy
        · rw [hx] at hbelow
          cases hbelow
        · exact hfree y hy hbelow
      obtain ⟨db', e, hrun⟩ := ih db ⟨count.decayedChunks, count.kept + 1⟩ removed hrest
      exact ⟨db', e, by simp [hrun]⟩

theorem runDecay_dry (db : MaintenanceDb ε) (b : Int) :
    runDecayForBuffer env db b true = (db, .ok ⟨decayedCount env (decayInput db b),
      keptCount env (decayInput db b)⟩) := by
  have hsame : (if env.purgesDecayed b then deleteChunkIds db.memory.vectors []
      else db.memory.vectors) = db.memory.vectors := by
    split
    · rfl
    · rfl
  unfold runDecayForBuffer
  rw [decayRows_dry]
  simp only [hsame, Nat.zero_add]

theorem runDecay_free {db : MaintenanceDb ε} {b : Int}
    (h : Removable env db.memory (decayInput db b)) :
    ∃ db', runDecayForBuffer env db b false = (db', .ok ⟨decayedCount env (decayInput db b),
        keptCount env (decayInput db b)⟩) ∧ db'.lastAccessed = db.lastAccessed ∧
      db'.memory.tasks = db.memory.tasks ∧ db'.memory.findings = db.memory.findings ∧
      ∀ c, c ≠ b → bufferRows db'.memory.chunks c = bufferRows db.memory.chunks c := by
  obtain ⟨mem, removed, hrun, ht, hf, hrows⟩ := decayRows_free _ _ {} [] h
  unfold runDecayForBuffer
  rw [hrun]
  simp only [Nat.zero_add]
  refine ⟨_, rfl, rfl, ht, hf, fun c hne => hrows c fun x hx hmem => ?_⟩
  -- an id names one row, which is of one buffer
  obtain ⟨hx, hxc⟩ := mem_bufferRows.mp hx
  unfold decayInput at hmem
  rw [List.map_map, List.mem_map] at hmem
  obtain ⟨y, hy, hyx⟩ := hmem
  obtain ⟨hy, hyb⟩ := mem_bufferRows.mp hy
  have hy' : (x.1, y.2) ∈ db.memory.chunks.rows := hyx ▸ hy
  have hsame : x.2 = y.2 := Table.eq_of_mem hx hy'
  exact hne (hxc.symm.trans (hsame ▸ hyb))

theorem runDecay_named {db : MaintenanceDb ε} {b : Int}
    (h : ¬ Removable env db.memory (decayInput db b)) :
    ∃ db' e, runDecayForBuffer env db b false = (db', .error e) := by
  obtain ⟨mem, e, hrun⟩ := decayRows_named _ _ {} [] h
  unfold runDecayForBuffer
  rw [hrun]
  exact ⟨_, e, rfl⟩

/-- The report of a decay that reaches the end. -/
def MaintenanceReport.withDecay (env : MaintenanceEnv) (db : MaintenanceDb ε) (ids : List Int)
    (report : MaintenanceReport) : MaintenanceReport :=
  { report with
    decayedChunks := report.decayedChunks +
      (ids.map fun b => decayedCount env (decayInput db b)).sum
    kept := report.kept + (ids.map fun b => keptCount env (decayInput db b)).sum }

theorem decayBuffers_dry (ids : List Int) (db : MaintenanceDb ε) :
    ∀ report, decayBuffers env true ids db report = (db, .ok (report.withDecay env db ids)) := by
  induction ids with
  | nil => exact fun _ => rfl
  | cons b ids ih =>
    intro report
    unfold decayBuffers
    rw [runDecay_dry]
    simp only [ih, MaintenanceReport.withDecay, List.map_cons, List.sum_cons, Nat.add_assoc]

/-- A buffer whose turn comes later is as it was. -/
theorem decayInput_congr {db db' : MaintenanceDb ε} {b : Int}
    (hlast : db'.lastAccessed = db.lastAccessed)
    (hrows : bufferRows db'.memory.chunks b = bufferRows db.memory.chunks b) :
    decayInput db' b = decayInput db b := by
  unfold decayInput
  rw [hrows, hlast]

theorem Removable.congr {db db' : MemoryDb ε} {rows : List (Int × Int)}
    (ht : db'.tasks = db.tasks) (hf : db'.findings = db.findings) :
    Removable env db' rows ↔ Removable env db rows := by
  unfold Removable Unreferenced
  rw [ht, hf]

theorem decayBuffers_free (ids : List Int) :
    ∀ (db : MaintenanceDb ε) (report : MaintenanceReport), ids.Nodup →
      (∀ b ∈ ids, Removable env db.memory (decayInput db b)) →
      ∃ db', decayBuffers env false ids db report =
        (db', .ok (report.withDecay env db ids)) := by
  induction ids with
  | nil => exact fun db report _ _ => ⟨db, rfl⟩
  | cons b ids ih =>
    intro db report hnodup h
    obtain ⟨hb, hnodup⟩ := List.nodup_cons.mp hnodup
    obtain ⟨mid, hrun, hlast, ht, hf, hrows⟩ := runDecay_free (h b List.mem_cons_self)
    have hinput : ∀ c ∈ ids, decayInput mid c = decayInput db c :=
      fun c hc => decayInput_congr hlast (hrows c fun he => hb (he ▸ hc))
    unfold decayBuffers
    rw [hrun]
    obtain ⟨db', hdone⟩ := ih mid { report with
      decayedChunks := report.decayedChunks + decayedCount env (decayInput db b)
      kept := report.kept + keptCount env (decayInput db b) } hnodup (by
        intro c hc
        rw [hinput c hc, Removable.congr ht hf]
        exact h c (List.mem_cons_of_mem b hc))
    refine ⟨db', hdone.trans ?_⟩
    have hdecayed : (ids.map fun c => decayedCount env (decayInput mid c)) =
        ids.map fun c => decayedCount env (decayInput db c) :=
      List.map_congr_left fun c hc => by rw [hinput c hc]
    have hkept : (ids.map fun c => keptCount env (decayInput mid c)) =
        ids.map fun c => keptCount env (decayInput db c) :=
      List.map_congr_left fun c hc => by rw [hinput c hc]
    simp only [MaintenanceReport.withDecay, hdecayed, hkept, List.map_cons, List.sum_cons,
      Nat.add_assoc]

theorem decayBuffers_named (ids : List Int) :
    ∀ (db : MaintenanceDb ε) (report : MaintenanceReport), ids.Nodup →
      (¬ ∀ b ∈ ids, Removable env db.memory (decayInput db b)) →
      ∃ db' e, decayBuffers env false ids db report = (db', .error e) := by
  induction ids with
  | nil => exact fun _ _ _ h => absurd (fun b hb => absurd hb List.not_mem_nil) h
  | cons b ids ih =>
    intro db report hnodup h
    obtain ⟨hb, hnodup⟩ := List.nodup_cons.mp hnodup
    unfold decayBuffers
    by_cases hfree : Removable env db.memory (decayInput db b)
    · obtain ⟨mid, hrun, hlast, ht, hf, hrows⟩ := runDecay_free hfree
      rw [hrun]
      refine ih mid _ hnodup fun hmid => h fun c hc => ?_
      obtain rfl | hc := List.mem_cons.mp hc
      · exact hfree
      · have hfree := hmid c hc
        rw [decayInput_congr hlast (hrows c fun he => hb (he ▸ hc)), Removable.congr ht hf] at hfree
        exact hfree
    · obtain ⟨db', e, hrun⟩ := runDecay_named hfree
      rw [hrun]
      exact ⟨db', e, rfl⟩

end Decay

/-! ## Dry and real -/

section Reports

variable {ε : Type} {env : MaintenanceEnv}

/-- No row of the buffers has a newer copy. -/
def NoCopies (db : MaintenanceDb ε) (ids : List Int) : Prop :=
  ∀ b ∈ ids, ∀ x ∈ db.memory.chunks.rows, ¬ Outdated db.memory.chunks b x.1 x.2

/-- No row of the buffers that has decayed is named by a task or a finding. -/
def NoneNamed (env : MaintenanceEnv) (db : MaintenanceDb ε) (ids : List Int) : Prop :=
  ∀ b ∈ ids, ∀ x ∈ db.memory.chunks.rows, x.2.bufferId = b →
    env.belowFloor ((db.lastAccessed x.1).getD 0) = true → Unreferenced db.memory x.1

/-- No row of the buffers that has decayed has a newer copy. -/
def NoDecayedCopies (env : MaintenanceEnv) (db : MaintenanceDb ε) (ids : List Int) : Prop :=
  ∀ b ∈ ids, ∀ x ∈ db.memory.chunks.rows,
    env.belowFloor ((db.lastAccessed x.1).getD 0) = true →
      ¬ Outdated db.memory.chunks b x.1 x.2

theorem resolveBufferIds_nodup (db : MaintenanceDb ε) (project : String) :
    (resolveBufferIds env db project).Nodup := by
  unfold resolveBufferIds
  split
  · have hperm := List.perm_insertionSort (fun x y : Int × ProjectIdent => x.2.name ≤ y.2.name)
      db.projects.rows
    exact (hperm.map Prod.fst).nodup_iff.mpr db.projects.nodup
  · cases (env.scan.order _).head?.map Prod.fst with
    | none => exact List.nodup_nil
    | some i => exact List.nodup_singleton i

theorem removable_iff {db : MaintenanceDb ε} {ids : List Int} :
    (∀ b ∈ ids, Removable env db.memory (decayInput db b)) ↔ NoneNamed env db ids := by
  constructor
  · intro h b hb x hx hxb hbelow
    exact h b hb (x.1, _) (List.mem_map_of_mem (mem_bufferRows.mpr ⟨hx, hxb⟩)) hbelow
  · intro h b hb y hy hbelow
    obtain ⟨x, hx, rfl⟩ := List.mem_map.mp hy
    obtain ⟨hx, hxb⟩ := mem_bufferRows.mp hx
    exact h b hb x hx hxb hbelow

/-- Sums over a list are equal where no term is above its counterpart and all are equal. -/
theorem sum_map_eq_iff {α : Type} {f g : α → Nat} (l : List α) (h : ∀ a ∈ l, f a ≤ g a) :
    (l.map f).sum = (l.map g).sum ↔ ∀ a ∈ l, f a = g a := by
  induction l with
  | nil => simp
  | cons a l ih =>
    have ha := h a List.mem_cons_self
    have hl : ∀ b ∈ l, f b ≤ g b := fun b hb => h b (List.mem_cons_of_mem a hb)
    have hsum : (l.map f).sum ≤ (l.map g).sum := List.sum_le_sum hl
    rw [List.map_cons, List.map_cons, List.sum_cons, List.sum_cons, List.forall_mem_cons, ← ih hl]
    omega

/-- A filter leaves the rows that count exactly when it leaves their number. -/
theorem countP_filter_eq_iff {α : Type} {p q : α → Bool} (l : List α) :
    (l.filter q).countP p = l.countP p ↔ ∀ a ∈ l, p a = true → q a = true := by
  rw [List.countP_eq_length_filter, List.countP_eq_length_filter, List.filter_comm,
    List.length_filter_eq_length_iff]
  constructor
  · intro h a ha hp
    exact h a (List.mem_filter.mpr ⟨ha, hp⟩)
  · intro h a ha
    obtain ⟨ha, hp⟩ := List.mem_filter.mp ha
    exact h a ha hp

/-- What a real run leaves of a buffer for the decay. -/
theorem decayInput_consolidated (db : MaintenanceDb ε) (project : String) {b : Int}
    (hb : b ∈ resolveBufferIds env db project) :
    decayInput (maintenanceConsolidate env db project false).1 b =
      ((bufferRows db.memory.chunks b).filter fun x =>
        !hasNewerCopy (bufferRows db.memory.chunks b) x).map fun x =>
          (x.1, (db.lastAccessed x.1).getD 0) := by
  unfold decayInput maintenanceConsolidate
  rw [consolidated_rows _ _ (resolveBufferIds_nodup db project) hb,
    (consolidated_same false _ _).2]

theorem merge_withDecay (report : MaintenanceReport) (db : MaintenanceDb ε) (ids : List Int) :
    report.merge (({} : MaintenanceReport).withDecay env db ids) = report.withDecay env db ids := by
  simp only [MaintenanceReport.merge, MaintenanceReport.withDecay, Nat.add_zero, Nat.zero_add]

/-- A dry run changes nothing and reports the counts of the database as it is. -/
theorem dry_run (db : MaintenanceDb ε) (project : String) :
    runMaintenance env db project true = (db, .ok
      ((maintenanceConsolidate env db project false).2.withDecay env db
        (resolveBufferIds env db project))) := by
  have hdb : (maintenanceConsolidate env db project true).1 = db := consolidated_dry _ _
  have hreport : (maintenanceConsolidate env db project true).2 =
      (maintenanceConsolidate env db project false).2 := by
    unfold maintenanceConsolidate
    rw [consolidated_report true _ _ (resolveBufferIds_nodup db project),
      consolidated_report false _ _ (resolveBufferIds_nodup db project)]
  have hdecay : maintenanceDecay env db project true =
      (db, .ok (({} : MaintenanceReport).withDecay env db (resolveBufferIds env db project))) :=
    decayBuffers_dry _ db {}
  simp only [runMaintenance, hdb, hreport, hdecay, Except.map, merge_withDecay]

theorem resolveBufferIds_consolidated (db : MaintenanceDb ε) (project : String) :
    resolveBufferIds env (maintenanceConsolidate env db project false).1 project =
      resolveBufferIds env db project := by
  have hprojects : (maintenanceConsolidate env db project false).1.projects = db.projects :=
    (consolidated_same false _ _).1
  unfold resolveBufferIds
  rw [hprojects]

/-- A real run that reaches the end. -/
theorem real_run_free {db : MaintenanceDb ε} {project : String}
    (h : NoneNamed env (maintenanceConsolidate env db project false).1
      (resolveBufferIds env db project)) :
    (runMaintenance env db project false).2 = .ok
      ((maintenanceConsolidate env db project false).2.withDecay env
        (maintenanceConsolidate env db project false).1 (resolveBufferIds env db project)) := by
  obtain ⟨db', hrun⟩ := decayBuffers_free _ (maintenanceConsolidate env db project false).1 {}
    (resolveBufferIds_nodup db project) (removable_iff.mpr h)
  simp only [runMaintenance, maintenanceDecay, resolveBufferIds_consolidated, hrun, Except.map,
    merge_withDecay]

theorem real_run_named {db : MaintenanceDb ε} {project : String}
    (h : ¬ NoneNamed env (maintenanceConsolidate env db project false).1
      (resolveBufferIds env db project)) :
    ∃ e, (runMaintenance env db project false).2 = .error e := by
  obtain ⟨db', e, hrun⟩ := decayBuffers_named _ (maintenanceConsolidate env db project false).1 {}
    (resolveBufferIds_nodup db project) (mt removable_iff.mp h)
  simp only [runMaintenance, maintenanceDecay, resolveBufferIds_consolidated, hrun, Except.map]
  exact ⟨e, rfl⟩

section Counts

variable {db : MaintenanceDb ε} {project : String} {b : Int}

/-- A count of the real run against that of the dry run, of the rows that `p` picks. -/
theorem consolidated_countP (p : Int × Int → Bool) (hb : b ∈ resolveBufferIds env db project) :
    (decayInput (maintenanceConsolidate env db project false).1 b).countP p ≤
        (decayInput db b).countP p ∧
      ((decayInput (maintenanceConsolidate env db project false).1 b).countP p =
          (decayInput db b).countP p ↔
        ∀ x ∈ db.memory.chunks.rows, p (x.1, (db.lastAccessed x.1).getD 0) = true →
          ¬ Outdated db.memory.chunks b x.1 x.2) := by
  rw [decayInput_consolidated db project hb]
  unfold decayInput
  rw [List.countP_map, List.countP_map]
  refine ⟨List.filter_sublist.countP_le, ?_⟩
  rw [countP_filter_eq_iff]
  constructor
  · intro h x hx hp ho
    have hmem := mem_bufferRows.mpr ⟨hx, ho.1⟩
    have hkept := h x hmem hp
    rw [(hasNewerCopy_iff hmem).mpr ho] at hkept
    cases hkept
  · intro h x hmem hp
    rw [Bool.not_eq_true', Bool.eq_false_iff]
    exact fun hnewer =>
      h x (mem_bufferRows.mp hmem).1 hp ((hasNewerCopy_iff hmem).mp hnewer)

theorem decayed_sum_iff :
    ((resolveBufferIds env db project).map fun b => decayedCount env
        (decayInput (maintenanceConsolidate env db project false).1 b)).sum =
      ((resolveBufferIds env db project).map fun b => decayedCount env (decayInput db b)).sum ↔
    NoDecayedCopies env db (resolveBufferIds env db project) := by
  unfold decayedCount
  rw [sum_map_eq_iff _ fun b hb => (consolidated_countP _ hb).1]
  exact forall_congr' fun b => forall_congr' fun hb => (consolidated_countP _ hb).2

theorem kept_sum_iff :
    ((resolveBufferIds env db project).map fun b => keptCount env
        (decayInput (maintenanceConsolidate env db project false).1 b)).sum =
      ((resolveBufferIds env db project).map fun b => keptCount env (decayInput db b)).sum ↔
    ∀ b ∈ resolveBufferIds env db project, ∀ x ∈ db.memory.chunks.rows,
      (!env.belowFloor ((db.lastAccessed x.1).getD 0)) = true →
        ¬ Outdated db.memory.chunks b x.1 x.2 := by
  unfold keptCount
  rw [sum_map_eq_iff _ fun b hb => (consolidated_countP _ hb).1]
  exact forall_congr' fun b => forall_congr' fun hb => (consolidated_countP _ hb).2

end Counts

/-- Without newer copies the decay of a real run meets the database as it is. -/
theorem noneNamed_consolidated {db : MaintenanceDb ε} {project : String}
    (h : NoCopies db (resolveBufferIds env db project)) :
    NoneNamed env (maintenanceConsolidate env db project false).1
        (resolveBufferIds env db project) ↔
      NoneNamed env db (resolveBufferIds env db project) := by
  obtain ⟨ht, hf⟩ := @consolidated_children ε env _ (db, {}) h
  rw [← removable_iff, ← removable_iff]
  refine forall_congr' fun b => forall_congr' fun hb => ?_
  have hinput : decayInput (maintenanceConsolidate env db project false).1 b =
      decayInput db b := by
    rw [decayInput_consolidated db project hb]
    unfold decayInput
    rw [List.filter_eq_self.mpr]
    intro x hx
    rw [Bool.not_eq_true', Bool.eq_false_iff]
    exact fun hnewer => h b hb x (mem_bufferRows.mp hx).1 ((hasNewerCopy_iff hx).mp hnewer)
  rw [hinput]
  exact Removable.congr ht hf

/-- A dry run changes nothing. Its report is that of the real run exactly when no chunk of the
buffers has a newer copy, and none that has decayed is named by a task or a finding, which makes
the real run fail. Of a real run that reaches the end it counts the duplicates, and the decayed
chunks exactly when none of these has a newer copy. -/
theorem dry_run_truthful (env : MaintenanceEnv) (db : MaintenanceDb ε) (project : String) :
    (runMaintenance env db project true).1 = db ∧
    ((runMaintenance env db project true).2 = (runMaintenance env db project false).2 ↔
      NoCopies db (resolveBufferIds env db project) ∧
        NoneNamed env db (resolveBufferIds env db project)) ∧
    ∀ real, (runMaintenance env db project false).2 = .ok real →
      ∃ dry, (runMaintenance env db project true).2 = .ok dry ∧
        dry.duplicateChunksRemoved = real.duplicateChunksRemoved ∧
        (dry.decayedChunks = real.decayedChunks ↔
          NoDecayedCopies env db (resolveBufferIds env db project)) := by
  refine ⟨by rw [dry_run], ?_, ?_⟩
  · rw [dry_run]
    by_cases hnone : NoneNamed env (maintenanceConsolidate env db project false).1
        (resolveBufferIds env db project)
    · rw [real_run_free hnone, Except.ok.injEq]
      have hsums : ((maintenanceConsolidate env db project false).2.withDecay env db
            (resolveBufferIds env db project) =
          (maintenanceConsolidate env db project false).2.withDecay env
            (maintenanceConsolidate env db project false).1 (resolveBufferIds env db project)) ↔
          NoCopies db (resolveBufferIds env db project) := by
        simp only [MaintenanceReport.withDecay, MaintenanceReport.mk.injEq, true_and,
          Nat.add_left_cancel_iff]
        rw [eq_comm, decayed_sum_iff, eq_comm, kept_sum_iff]
        constructor
        · rintro ⟨hdecayed, hkept⟩ b hb x hx
          cases hbelow : env.belowFloor ((db.lastAccessed x.1).getD 0) with
          | true => exact hdecayed b hb x hx hbelow
          | false => exact hkept b hb x hx (by rw [hbelow]; rfl)
        · intro h
          exact ⟨fun b hb x hx _ => h b hb x hx, fun b hb x hx _ => h b hb x hx⟩
      rw [hsums]
      constructor
      · intro hcopies
        exact ⟨hcopies, (noneNamed_consolidated hcopies).mp hnone⟩
      · exact And.left
    · obtain ⟨e, herr⟩ := real_run_named hnone
      rw [herr]
      refine iff_of_false (fun h => by cases h) ?_
      rintro ⟨hcopies, hnamed⟩
      exact hnone ((noneNamed_consolidated hcopies).mpr hnamed)
  · intro real hreal
    by_cases hnone : NoneNamed env (maintenanceConsolidate env db project false).1
        (resolveBufferIds env db project)
    · rw [real_run_free hnone] at hreal
      obtain rfl := Except.ok.inj hreal
      rw [dry_run]
      refine ⟨_, rfl, rfl, ?_⟩
      simp only [MaintenanceReport.withDecay, Nat.add_left_cancel_iff]
      rw [eq_comm, decayed_sum_iff]
    · obtain ⟨e, herr⟩ := real_run_named hnone
      rw [herr] at hreal
      cases hreal

end Reports

/-! ## A duplicate that has decayed -/

def decayedCopies : MaintenanceDb Unit where
  projects := SeqTable.empty.insert ⟨"p", none⟩
  memory := copiedFiles
  lastAccessed := fun _ => some 0

def sampleMaintenance : MaintenanceEnv where
  scan := .rowid
  belowFloor := fun lastAccessed => decide (lastAccessed < 100)
  purgesCopies := fun _ => true
  purgesDecayed := fun _ => true

/-- The dry run counts the older copy as a duplicate and as decayed. -/
theorem dry_run_counts_twice :
    (runMaintenance sampleMaintenance decayedCopies "p" true).2 ≠
      (runMaintenance sampleMaintenance decayedCopies "p" false).2 ∧
    (runMaintenance sampleMaintenance decayedCopies "p" true).2 = .ok ⟨1, 0, 2, 0⟩ ∧
    (runMaintenance sampleMaintenance decayedCopies "p" false).2 = .ok ⟨1, 0, 1, 0⟩ := by
  decide +kernel

end Arags
