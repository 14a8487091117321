import Arags.Index.Vectors
import Mathlib.Algebra.Ring.Nat
import Mathlib.Data.List.Dedup
import Mathlib.Data.List.Sort
import Mathlib.Data.Rat.Defs

/-!
# Arags.Memory.Consolidation

The consolidation of `consolidation.rs`: of the chunks of a buffer with one content hash, the
newest row is kept, retired or not, and the others are deleted with what hangs on them.

* `removeDuplicateChunks`, `removeLowConfidencePatterns`, `consolidate` — the operations.
* `mem_removeDuplicates` — the rows that are left: no row of the buffer with a newer copy.
* `LosesNoContent` — what a consolidation may not lose, and may not leave behind.
* `consolidation_content` — when it does neither.
-/

namespace Arags

open Sql

/-- The tables a consolidation works on. Children of `chunks` are told by the chunk they name. -/
structure MemoryDb (ε : Type) where
  chunks : SeqTable Chunk
  chunkTexts : List Int
  chunksFts : List Int
  chunkEntities : List (Int × String)
  /-- Task and chunk. -/
  tasks : List (Int × Option Int)
  /-- Task and chunk. -/
  findings : List (Int × Option Int)
  /-- Parent node and chunk. -/
  rlmEdges : List (Int × Option Int)
  /-- Buffer and confidence. -/
  patterns : List (Option Int × Option Rat)
  vectors : VectorStore ε

structure ConsolidateOptions where
  deduplicate : Bool
  minPatternConfidence : Rat
  dryRun : Bool

structure ConsolidateResult where
  duplicateChunksRemoved : Nat
  lowConfidencePatternsRemoved : Nat
  deriving DecidableEq, Repr

section Operations

variable {ε : Type}

/-- The rows of the buffer with the hash. -/
def copies (chunks : SeqTable Chunk) (bufferId : Int) (hash : List UInt8) : List (Int × Chunk) :=
  chunks.select fun _ r => r.bufferId == bufferId && r.hash == hash

/-- `SELECT id … ORDER BY id DESC LIMIT -1 OFFSET 1`. -/
def dupIds (chunks : SeqTable Chunk) (bufferId : Int) (hash : List UInt8) : List Int :=
  (((copies chunks bufferId hash).map Prod.fst).insertionSort (· ≥ ·)).drop 1

/-- `SELECT hash … GROUP BY hash HAVING COUNT(*) > 1`. -/
def duplicateHashes (chunks : SeqTable Chunk) (bufferId : Int) : List (List UInt8) :=
  (((chunks.select fun _ r => r.bufferId == bufferId).map fun x => x.2.hash).dedup).filter
    fun hash => decide (1 < (copies chunks bufferId hash).length)

/-- The deletes of one hash: findings, tasks and texts, then the chunks, with the rows of
`chunk_entities` and `rlm_edges` that reference them. -/
def removeCopies (bufferId : Int) (db : MemoryDb ε) (hash : List UInt8) : MemoryDb ε :=
  let ids := dupIds db.chunks bufferId hash
  let ofDup : Option Int → Bool := fun chunk => chunk.any ids.contains
  let dupTasks := (db.tasks.filter fun x => ofDup x.2).map Prod.fst
  { db with
    findings := db.findings.filter fun x => !(ofDup x.2 || dupTasks.contains x.1)
    tasks := db.tasks.filter fun x => !ofDup x.2
    chunkTexts := db.chunkTexts.filter fun i => !ids.contains i
    chunks := db.chunks.delete fun i _ => ids.contains i
    chunkEntities := db.chunkEntities.filter fun x => !ids.contains x.1
    rlmEdges := db.rlmEdges.filter fun x => !ofDup x.2 }

/-- `purge` is whether a vector store is attached and its deletion succeeds. -/
def removeDuplicateChunks (db : MemoryDb ε) (bufferId : Int) (dryRun purge : Bool) :
    MemoryDb ε × Nat :=
  let hashes := duplicateHashes db.chunks bufferId
  let ids := (hashes.map (dupIds db.chunks bufferId)).flatten
  if dryRun then
    (db, (hashes.map fun hash => (copies db.chunks bufferId hash).length - 1).sum)
  else
    let db' := hashes.foldl (removeCopies bufferId) db
    ({ db' with vectors := if purge then deleteChunkIds db'.vectors ids else db'.vectors },
      ids.length)

/-- `buffer_id = ?1 AND confidence < ?2 AND confidence IS NOT NULL`. -/
def lowConfidence (bufferId : Int) (minConfidence : Rat) (x : Option Int × Option Rat) : Bool :=
  x.1 == some bufferId && x.2.any fun c => decide (c < minConfidence)

def removeLowConfidencePatterns (db : MemoryDb ε) (bufferId : Int) (minConfidence : Rat)
    (dryRun : Bool) : MemoryDb ε × Nat :=
  let count := (db.patterns.filter (lowConfidence bufferId minConfidence)).length
  if dryRun then (db, count)
  else
    ({ db with patterns := db.patterns.filter fun x => !lowConfidence bufferId minConfidence x },
      count)

def consolidate (db : MemoryDb ε) (bufferId : Int) (options : ConsolidateOptions)
    (purge : Bool) : MemoryDb ε × ConsolidateResult :=
  let deduplicated :=
    if options.deduplicate then removeDuplicateChunks db bufferId options.dryRun purge else (db, 0)
  let pruned := removeLowConfidencePatterns deduplicated.1 bufferId options.minPatternConfidence
    options.dryRun
  (pruned.1, ⟨deduplicated.2, pruned.2⟩)

end Operations

/-! ## The rows that are left -/

section Rows

variable {ε : Type}

/-- Some row of the buffer with the hash is newer than `i`. -/
def Outdated (chunks : SeqTable Chunk) (bufferId : Int) (i : Int) (r : Chunk) : Prop :=
  r.bufferId = bufferId ∧ ∃ y ∈ chunks.rows, y.2.bufferId = bufferId ∧ y.2.hash = r.hash ∧ i < y.1

theorem mem_copies {chunks : SeqTable Chunk} {bufferId : Int} {hash : List UInt8}
    {x : Int × Chunk} : x ∈ copies chunks bufferId hash ↔
      x ∈ chunks.rows ∧ x.2.bufferId = bufferId ∧ x.2.hash = hash := by
  unfold copies
  rw [Table.select, List.mem_filter]
  simp

/-- All but the first of a strictly descending list have a larger one in it. -/
theorem mem_drop_one_sorted {l : List Int} (hl : l.Pairwise (· > ·)) {i : Int} :
    i ∈ l.drop 1 ↔ i ∈ l ∧ ∃ j ∈ l, i < j := by
  cases l with
  | nil => simp
  | cons a l =>
    obtain ⟨ha, -⟩ := List.pairwise_cons.mp hl
    simp only [List.drop_succ_cons, List.drop_zero]
    constructor
    · intro hi
      exact ⟨List.mem_cons_of_mem a hi, a, List.mem_cons_self, ha i hi⟩
    · rintro ⟨hi, j, hj, hlt⟩
      rcases List.mem_cons.mp hi with rfl | hi
      · rcases List.mem_cons.mp hj with rfl | hj
        · exact absurd hlt (Int.lt_irrefl _)
        · have := ha j hj
          omega
      · exact hi

theorem mem_dupIds {chunks : SeqTable Chunk} {bufferId : Int} {hash : List UInt8} {i : Int} :
    i ∈ dupIds chunks bufferId hash ↔
      ∃ r, (i, r) ∈ chunks.rows ∧ r.hash = hash ∧ Outdated chunks bufferId i r := by
  have hids : ∀ j, j ∈ ((copies chunks bufferId hash).map Prod.fst).insertionSort (· ≥ ·) ↔
      ∃ r, (j, r) ∈ chunks.rows ∧ r.bufferId = bufferId ∧ r.hash = hash := by
    intro j
    rw [List.mem_insertionSort, List.mem_map]
    constructor
    · rintro ⟨x, hx, rfl⟩
      exact ⟨x.2, mem_copies.mp hx⟩
    · rintro ⟨r, hr⟩
      exact ⟨(j, r), mem_copies.mpr hr, rfl⟩
  have hnodup : ((copies chunks bufferId hash).map Prod.fst).Nodup :=
    chunks.nodup.sublist (List.filter_sublist.map _)
  have hsorted : (((copies chunks bufferId hash).map Prod.fst).insertionSort (· ≥ ·)).Pairwise
      (· > ·) := by
    have hge := List.pairwise_insertionSort (· ≥ ·) ((copies chunks bufferId hash).map Prod.fst)
    have hne := (List.perm_insertionSort (· ≥ ·)
      ((copies chunks bufferId hash).map Prod.fst)).nodup_iff.mpr hnodup
    refine hge.imp₂ (fun a b hab hne => ?_) hne
    exact lt_of_le_of_ne hab (Ne.symm hne)
  unfold dupIds
  rw [mem_drop_one_sorted hsorted, hids]
  constructor
  · rintro ⟨⟨r, hr, hb, hh⟩, j, hj, hlt⟩
    obtain ⟨s, hs, hsb, hsh⟩ := (hids j).mp hj
    exact ⟨r, hr, hh, hb, (j, s), hs, hsb, hsh.trans hh.symm, hlt⟩
  · rintro ⟨r, hr, hh, hb, y, hy, hyb, hyh, hlt⟩
    exact ⟨⟨r, hr, hb, hh⟩, y.1, (hids y.1).mpr ⟨y.2, hy, hyb, hyh.trans hh⟩, hlt⟩

/-- One hash: its outdated rows go. -/
theorem mem_removeCopies {db : MemoryDb ε} {bufferId : Int} {hash : List UInt8}
    {x : Int × Chunk} : x ∈ (removeCopies bufferId db hash).chunks.rows ↔
      x ∈ db.chunks.rows ∧ ¬ (x.2.hash = hash ∧ Outdated db.chunks bufferId x.1 x.2) := by
  obtain ⟨i, r⟩ := x
  unfold removeCopies
  dsimp only
  rw [SeqTable.mem_delete]
  refine and_congr_right fun hr => ?_
  rw [Bool.eq_false_iff, ne_eq, List.contains_iff_mem, mem_dupIds]
  refine not_congr ?_
  constructor
  · rintro ⟨s, hs, h⟩
    obtain rfl := Table.eq_of_mem hs hr
    exact h
  · intro h
    exact ⟨r, hr, h⟩

/-- Every hash in turn. -/
theorem mem_removeAll {bufferId : Int} (hashes : List (List UInt8)) :
    ∀ {db : MemoryDb ε} {x : Int × Chunk},
      x ∈ (hashes.foldl (removeCopies bufferId) db).chunks.rows ↔
        x ∈ db.chunks.rows ∧ ¬ (x.2.hash ∈ hashes ∧ Outdated db.chunks bufferId x.1 x.2) := by
  induction hashes with
  | nil =>
    intro db x
    simp
  | cons hash hashes ih =>
    intro db x
    rw [List.foldl_cons, ih, mem_removeCopies, and_assoc]
    refine and_congr_right fun hx => ?_
    by_cases hh : x.2.hash = hash
    · -- the newest copy of the hash is left, so nothing of it is outdated any more
      constructor
      · rintro ⟨h, -⟩ ⟨-, ho⟩
        exact h ⟨hh, ho⟩
      · intro h
        have ho : ¬ Outdated db.chunks bufferId x.1 x.2 :=
          fun ho => h ⟨hh ▸ List.mem_cons_self, ho⟩
        refine ⟨fun hc => ho hc.2, ?_⟩
        rintro ⟨-, hb, y, hy, hyb, hyh, hlt⟩
        exact ho ⟨hb, y, (mem_removeCopies.mp hy).1, hyb, hyh, hlt⟩
    · have hkept : Outdated (removeCopies bufferId db hash).chunks bufferId x.1 x.2 ↔
          Outdated db.chunks bufferId x.1 x.2 := by
        refine and_congr_right fun _ => ?_
        constructor
        · rintro ⟨y, hy, h⟩
          exact ⟨y, (mem_removeCopies.mp hy).1, h⟩
        · rintro ⟨y, hy, hyb, hyh, hlt⟩
          exact ⟨y, mem_removeCopies.mpr ⟨hy, fun hc => hh (hyh.symm.trans hc.1)⟩, hyb, hyh, hlt⟩
      rw [hkept, List.mem_cons]
      constructor
      · rintro ⟨-, h⟩ ⟨hm | hm, ho⟩
        · exact hh hm
        · exact h ⟨hm, ho⟩
      · intro h
        exact ⟨fun hc => hh hc.1, fun hc => h ⟨.inr hc.1, hc.2⟩⟩

/-- An outdated row has a hash that the query reports. -/
theorem mem_duplicateHashes {chunks : SeqTable Chunk} {bufferId : Int} {x : Int × Chunk}
    (hx : x ∈ chunks.rows) (ho : Outdated chunks bufferId x.1 x.2) :
    x.2.hash ∈ duplicateHashes chunks bufferId := by
  obtain ⟨hb, y, hy, hyb, hyh, hlt⟩ := ho
  unfold duplicateHashes
  rw [List.mem_filter, List.mem_dedup, List.mem_map]
  refine ⟨⟨x, ?_, rfl⟩, ?_⟩
  · rw [Table.select, List.mem_filter]
    exact ⟨hx, by simpa using hb⟩
  · rw [decide_eq_true_eq]
    by_contra hle
    have hxm : x ∈ copies chunks bufferId x.2.hash := mem_copies.mpr ⟨hx, hb, rfl⟩
    have hym : y ∈ copies chunks bufferId x.2.hash := mem_copies.mpr ⟨hy, hyb, hyh⟩
    cases hl : copies chunks bufferId x.2.hash with
    | nil =>
      rw [hl] at hxm
      cases hxm
    | cons z rest =>
      cases rest with
      | nil =>
        rw [hl, List.mem_singleton] at hxm hym
        rw [hxm, hym] at hlt
        exact Int.lt_irrefl _ hlt
      | cons w rest =>
        rw [hl] at hle
        simp at hle

/-- The chunks after a deduplication that is not a dry run. -/
theorem mem_removeDuplicates {db : MemoryDb ε} {bufferId : Int} {purge : Bool}
    {x : Int × Chunk} : x ∈ (removeDuplicateChunks db bufferId false purge).1.chunks.rows ↔
      x ∈ db.chunks.rows ∧ ¬ Outdated db.chunks bufferId x.1 x.2 := by
  have hchunks : (removeDuplicateChunks db bufferId false purge).1.chunks =
      ((duplicateHashes db.chunks bufferId).foldl (removeCopies bufferId) db).chunks := rfl
  rw [hchunks, mem_removeAll]
  refine and_congr_right fun hx => not_congr ?_
  exact ⟨And.right, fun ho => ⟨mem_duplicateHashes hx ho, ho⟩⟩

/-- The full-text rows are not touched. -/
theorem removeAll_fts {bufferId : Int} (hashes : List (List UInt8)) (db : MemoryDb ε) :
    (hashes.foldl (removeCopies bufferId) db).chunksFts = db.chunksFts := by
  induction hashes generalizing db with
  | nil => rfl
  | cons hash hashes ih => rw [List.foldl_cons, ih]; rfl

/-- An entity row stays with its chunk. -/
theorem removeAll_entities {bufferId : Int} (hashes : List (List UInt8)) :
    ∀ {db : MemoryDb ε} {i : Int} {e : String} {r : Chunk}, (i, r) ∈ db.chunks.rows →
      (i, e) ∈ (hashes.foldl (removeCopies bufferId) db).chunkEntities →
      (i, r) ∈ (hashes.foldl (removeCopies bufferId) db).chunks.rows := by
  induction hashes with
  | nil =>
    intro db i e r hr _
    exact hr
  | cons hash hashes ih =>
    intro db i e r hr he
    rw [List.foldl_cons] at he ⊢
    refine ih ?_ he
    have hsub : ∀ (hashes : List (List UInt8)) (db : MemoryDb ε), ∀ x ∈
        (hashes.foldl (removeCopies bufferId) db).chunkEntities, x ∈ db.chunkEntities := by
      intro hashes
      induction hashes with
      | nil => exact fun db x hx => hx
      | cons hash hashes ih => exact fun db x hx => (List.mem_filter.mp (ih _ x hx)).1
    have hstep : (i, e) ∈ (removeCopies bufferId db hash).chunkEntities := hsub hashes _ _ he
    have hdup : i ∉ dupIds db.chunks bufferId hash := by
      have := (List.mem_filter.mp hstep).2
      simpa using this
    refine mem_removeCopies.mpr ⟨hr, fun hc => hdup ?_⟩
    exact mem_dupIds.mpr ⟨r, hr, hc⟩

/-- Of the copies of a row one is the newest. -/
theorem newest_exists {chunks : SeqTable Chunk} {bufferId : Int} {x : Int × Chunk}
    (hx : x ∈ chunks.rows) (hb : x.2.bufferId = bufferId) :
    ∃ y ∈ chunks.rows, y.2.bufferId = bufferId ∧ y.2.hash = x.2.hash ∧
      ¬ Outdated chunks bufferId y.1 y.2 := by
  induction hn : (chunks.seq - x.1).toNat using Nat.strong_induction_on generalizing x with
  | _ n ih =>
    by_cases ho : Outdated chunks bufferId x.1 x.2
    · obtain ⟨-, y, hy, hyb, hyh, hlt⟩ := ho
      have hle := chunks.le_seq y hy
      obtain ⟨z, hz, hzb, hzh, hzo⟩ := ih (chunks.seq - y.1).toNat (by omega) hy hyb rfl
      exact ⟨z, hz, hzb, hzh.trans hyh, hzo⟩
    · exact ⟨x, hx, hb, rfl, ho⟩

/-- Two newest copies are one row. -/
theorem newest_unique {chunks : SeqTable Chunk} {bufferId : Int} {x y : Int × Chunk}
    (hx : x ∈ chunks.rows) (hy : y ∈ chunks.rows) (hxb : x.2.bufferId = bufferId)
    (hyb : y.2.bufferId = bufferId) (hh : x.2.hash = y.2.hash)
    (hxo : ¬ Outdated chunks bufferId x.1 x.2) (hyo : ¬ Outdated chunks bufferId y.1 y.2) :
    x = y := by
  have hid : x.1 = y.1 := by
    by_contra hne
    rcases Int.lt_or_gt_of_ne hne with hlt | hlt
    · exact hxo ⟨hxb, y, hy, hyb, hh.symm, hlt⟩
    · exact hyo ⟨hyb, x, hx, hxb, hh, hlt⟩
  exact Prod.ext hid (Table.eq_of_mem hx (hid ▸ hy : (x.1, y.2) ∈ chunks.rows))

/-! ## Content -/

/-- Every place with an active chunk still has one with the content; every content that was
active still is; a removed chunk is in no index. -/
structure LosesNoContent (db db' : MemoryDb ε) : Prop where
  places : ∀ x ∈ db.chunks.rows, x.2.isActive = true → ∃ y ∈ db'.chunks.rows,
    y.2.isActive = true ∧ y.2.bufferId = x.2.bufferId ∧ y.2.key = x.2.key ∧
      y.2.hash = x.2.hash
  hashes : ∀ x ∈ db.chunks.rows, x.2.isActive = true → ∃ y ∈ db'.chunks.rows,
    y.2.isActive = true ∧ y.2.bufferId = x.2.bufferId ∧ y.2.hash = x.2.hash
  removed : ∀ x ∈ db.chunks.rows, x ∉ db'.chunks.rows →
    x.1 ∉ db'.chunksFts ∧ ∀ e, (x.1, e) ∉ db'.chunkEntities

/-- No row with a newer copy has a full-text row, and one that is active has as its newest copy
an active row of the same file and lines. -/
def CopiesSpare (db : MemoryDb ε) (bufferId : Int) : Prop :=
  ∀ x ∈ db.chunks.rows, Outdated db.chunks bufferId x.1 x.2 →
    x.1 ∉ db.chunksFts ∧
    (x.2.isActive = true → ∀ y ∈ db.chunks.rows, y.2.bufferId = bufferId →
      y.2.hash = x.2.hash → ¬ Outdated db.chunks bufferId y.1 y.2 →
      y.2.isActive = true ∧ y.2.key = x.2.key)

theorem LosesNoContent.of_same {db db' : MemoryDb ε} (h : db'.chunks = db.chunks) :
    LosesNoContent db db' where
  places := by
    intro x hx ha
    exact ⟨x, h ▸ hx, ha, rfl, rfl, rfl⟩
  hashes := by
    intro x hx ha
    exact ⟨x, h ▸ hx, ha, rfl, rfl⟩
  removed := by
    intro x hx hn
    exact absurd (h ▸ hx) hn

theorem removeDuplicates_content (db : MemoryDb ε) (bufferId : Int) (purge : Bool)
    {db' : MemoryDb ε} (hc : db'.chunks = (removeDuplicateChunks db bufferId false purge).1.chunks)
    (hf : db'.chunksFts = (removeDuplicateChunks db bufferId false purge).1.chunksFts)
    (he : db'.chunkEntities = (removeDuplicateChunks db bufferId false purge).1.chunkEntities) :
    LosesNoContent db db' ↔ CopiesSpare db bufferId := by
  have hmem : ∀ x, x ∈ db'.chunks.rows ↔
      x ∈ db.chunks.rows ∧ ¬ Outdated db.chunks bufferId x.1 x.2 := by
    intro x
    rw [hc, mem_removeDuplicates]
  have hfts : db'.chunksFts = db.chunksFts := hf.trans (removeAll_fts _ db)
  constructor
  · intro h x hx ho
    refine ⟨?_, fun ha y hy hyb hyh hyo => ?_⟩
    · have hgone : x ∉ db'.chunks.rows := fun hm => ((hmem x).mp hm).2 ho
      exact hfts ▸ (h.removed x hx hgone).1
    · obtain ⟨z, hz, hza, hzb, hzk, hzh⟩ := h.places x hx ha
      obtain ⟨hz, hzo⟩ := (hmem z).mp hz
      obtain rfl := newest_unique hz hy (hzb.trans ho.1) hyb (hzh.trans hyh.symm) hzo hyo
      exact ⟨hza, hzk⟩
  · intro h
    have hplaces : ∀ x ∈ db.chunks.rows, x.2.isActive = true → ∃ y ∈ db'.chunks.rows,
        y.2.isActive = true ∧ y.2.bufferId = x.2.bufferId ∧ y.2.key = x.2.key ∧
          y.2.hash = x.2.hash := by
      intro x hx ha
      by_cases ho : Outdated db.chunks bufferId x.1 x.2
      · obtain ⟨y, hy, hyb, hyh, hyo⟩ := newest_exists hx ho.1
        obtain ⟨hya, hyk⟩ := (h x hx ho).2 ha y hy hyb hyh hyo
        exact ⟨y, (hmem y).mpr ⟨hy, hyo⟩, hya, hyb.trans ho.1.symm, hyk, hyh⟩
      · exact ⟨x, (hmem x).mpr ⟨hx, ho⟩, ha, rfl, rfl, rfl⟩
    refine ⟨hplaces, ?_, ?_⟩
    · intro x hx ha
      obtain ⟨y, hy, hya, hyb, -, hyh⟩ := hplaces x hx ha
      exact ⟨y, hy, hya, hyb, hyh⟩
    · intro x hx hgone
      have ho : Outdated db.chunks bufferId x.1 x.2 := by
        by_contra ho
        exact hgone ((hmem x).mpr ⟨hx, ho⟩)
      refine ⟨hfts ▸ (h x hx ho).1, fun e hm => hgone ?_⟩
      rw [he] at hm
      rw [hc]
      exact removeAll_entities _ hx hm

/-- A consolidation loses no content exactly when the copies it deletes are in no full-text
index and stand for no other place than the one it keeps. -/
theorem consolidation_content (db : MemoryDb ε) (bufferId : Int) (options : ConsolidateOptions)
    (purge : Bool) : LosesNoContent db (consolidate db bufferId options purge).1 ↔
      options.deduplicate = false ∨ options.dryRun = true ∨ CopiesSpare db bufferId := by
  cases hd : options.deduplicate with
  | false =>
    refine iff_of_true (.of_same ?_) (.inl rfl)
    simp only [consolidate, hd, removeLowConfidencePatterns]
    split <;> rfl
  | true =>
    cases hr : options.dryRun with
    | true =>
      refine iff_of_true (.of_same ?_) (.inr (.inl rfl))
      simp only [consolidate, hd, hr, removeLowConfidencePatterns, removeDuplicateChunks, if_true]
    | false =>
      have hiff : LosesNoContent db (consolidate db bufferId options purge).1 ↔
          CopiesSpare db bufferId := removeDuplicates_content db bufferId purge
        (by simp only [consolidate, hd, hr, removeLowConfidencePatterns]; rfl)
        (by simp only [consolidate, hd, hr, removeLowConfidencePatterns]; rfl)
        (by simp only [consolidate, hd, hr, removeLowConfidencePatterns]; rfl)
      simpa using hiff

end Rows

/-! ## The same text in two files -/

def sampleCopy (filePath : String) : Chunk :=
  ⟨1, filePath, 1, 1, [7], none, "text", "MIT", 1, true, none⟩

def copiedFiles : MemoryDb Unit where
  chunks := (SeqTable.empty.insert (sampleCopy "a.txt")).insert (sampleCopy "b.txt")
  chunkTexts := [1, 2]
  chunksFts := [1, 2]
  chunkEntities := []
  tasks := []
  findings := []
  rlmEdges := []
  patterns := []
  vectors := ∅

/-- `a.txt` loses its only chunk, and the full-text row of that chunk stays. -/
theorem consolidation_content_two_files :
    ¬ LosesNoContent copiedFiles (consolidate copiedFiles 1 ⟨true, 3 / 10, false⟩ true).1 ∧
    1 ∈ (consolidate copiedFiles 1 ⟨true, 3 / 10, false⟩ true).1.chunksFts := by
  refine ⟨fun h => ?_, by decide +kernel⟩
  have hkeys : ∀ y ∈ (consolidate copiedFiles 1 ⟨true, 3 / 10, false⟩ true).1.chunks.rows,
      y.2.key ≠ ("a.txt", 1, 1) := by
    decide +kernel
  obtain ⟨y, hy, -, -, hk, -⟩ := h.places (1, sampleCopy "a.txt") (by decide +kernel) rfl
  exact hkeys y hy hk

end Arags
