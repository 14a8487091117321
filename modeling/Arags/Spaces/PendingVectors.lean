import Arags.Explore.Maps
import Arags.Index.Vectors
import Arags.Qa.Cache
import Arags.Rlm.Nodes

/-!
# Arags.Spaces.PendingVectors

The marks `status` of `chunks` and `vector_status` of the other three tables, beside the spaces
they stand for.

* `VectorSide` — a space, and the rows marked `pending_vector`.
* `markPending`, `clearPending`, `pendingVector` — the three statements on a mark; each table has
  its own under the names of the source.
* `InsertOutcome` — what an insert leaves behind, also when it fails.
-/

namespace Arags

open Sql

/-- The marked rows of a table, and a value under each row id of its space. -/
structure VectorSide (β : Type) where
  pending : List Int
  vectors : AList fun _ : Int => β

def VectorSide.empty {β : Type} : VectorSide β := ⟨[], ∅⟩

/-- `refused`: the dimension is wrong. `lost`: the old vector is gone and the new one not added. -/
inductive InsertOutcome where
  | inserted | refused | lost
  deriving DecidableEq, Repr

section Side

variable {β : Type}

def VectorSide.insert (s : VectorSide β) (i : Int) (v : β) : InsertOutcome → VectorSide β
  | .inserted => { s with vectors := s.vectors.insert i v }
  | .refused => s
  | .lost => { s with vectors := s.vectors.erase i }

@[simp] theorem pending_insert (s : VectorSide β) (i : Int) (v : β) (out : InsertOutcome) :
    (s.insert i v out).pending = s.pending := by
  cases out <;> rfl

theorem mem_insert_other (s : VectorSide β) {i j : Int} (v : β) (out : InsertOutcome) (h : j ≠ i) :
    j ∈ (s.insert i v out).vectors ↔ j ∈ s.vectors := by
  cases out with
  | inserted => simp [VectorSide.insert, AList.mem_insert, h]
  | refused => rfl
  | lost => simp [VectorSide.insert, AList.mem_erase, h]

theorem mem_insert_self (s : VectorSide β) (i : Int) (v : β) :
    i ∈ (s.insert i v .inserted).vectors :=
  AList.mem_insert _ |>.mpr (.inl rfl)

end Side

/-! ## Statements -/

/-- `UPDATE t SET status = 'pending_vector' WHERE … AND id IN (…)`; `owned` is the rest of the
condition. -/
def markPending (owned : Int → Bool) (marked ids : List Int) : List Int :=
  marked ++ ids.filter owned

def clearPending (owned : Int → Bool) (marked ids : List Int) : List Int :=
  marked.filter fun i => !(ids.contains i && owned i)

/-- `SELECT id FROM t WHERE … AND status = 'pending_vector'`. -/
def pendingVector {ρ : Type} (scan : ScanOrder ρ) (t : Table ρ) (owned : ρ → Bool)
    (marked : List Int) : List Int :=
  (scan.order (t.select fun i r => owned r && marked.contains i)).map Prod.fst

theorem mem_markPending {owned : Int → Bool} {marked ids : List Int} {i : Int} :
    i ∈ markPending owned marked ids ↔ i ∈ marked ∨ (i ∈ ids ∧ owned i = true) := by
  simp [markPending]

theorem mem_clearPending {owned : Int → Bool} {marked ids : List Int} {i : Int} :
    i ∈ clearPending owned marked ids ↔ i ∈ marked ∧ ¬ (i ∈ ids ∧ owned i = true) := by
  simp [clearPending, imp_iff_not_or]

theorem mem_pendingVector {ρ : Type} {scan : ScanOrder ρ} {t : Table ρ} {owned : ρ → Bool}
    {marked : List Int} {i : Int} :
    i ∈ pendingVector scan t owned marked ↔
      ∃ r, (i, r) ∈ t.rows ∧ owned r = true ∧ i ∈ marked := by
  unfold pendingVector
  rw [List.mem_map]
  constructor
  · rintro ⟨⟨j, r⟩, hx, rfl⟩
    obtain ⟨hr, hp⟩ := Table.mem_select.mp (scan.mem_order.mp hx)
    simp only [Bool.and_eq_true, List.contains_eq_mem, decide_eq_true_eq] at hp
    exact ⟨r, hr, hp⟩
  · rintro ⟨r, hr, ho, hm⟩
    exact ⟨(i, r), scan.mem_order.mpr (Table.mem_select.mpr ⟨hr, by simp [ho, hm]⟩), rfl⟩

theorem pendingVector_nodup {ρ : Type} (scan : ScanOrder ρ) (t : Table ρ) (owned : ρ → Bool)
    (marked : List Int) : (pendingVector scan t owned marked).Nodup :=
  scan.ids_nodup t _

/-- Only the marks of owned rows count. -/
theorem pendingVector_congr {ρ : Type} {scan : ScanOrder ρ} {t : Table ρ} {owned : ρ → Bool}
    {marked marked' : List Int}
    (h : ∀ i r, (i, r) ∈ t.rows → owned r = true → (i ∈ marked ↔ i ∈ marked')) :
    pendingVector scan t owned marked = pendingVector scan t owned marked' := by
  have hs : t.select (fun i r => owned r && marked.contains i) =
      t.select fun i r => owned r && marked'.contains i := by
    refine List.filter_congr fun x hx => ?_
    show (owned x.2 && marked.contains x.1) = (owned x.2 && marked'.contains x.1)
    by_cases ho : owned x.2 = true
    · have hm := h x.1 x.2 hx ho
      rw [ho, Bool.eq_iff_iff]
      simp [hm]
    · rw [Bool.not_eq_true] at ho
      rw [ho, Bool.false_and, Bool.false_and]
  unfold pendingVector
  rw [hs]

/-! ## The four tables -/

theorem chunksPendingVector_eq (scan : ScanOrder Chunk) (s : ChunkStore) (bufferId : Int) :
    chunksPendingVector scan s bufferId =
      pendingVector scan s.chunks.toTable (fun r => r.bufferId == bufferId) s.pendingVector := rfl

theorem clearChunksPendingVector_eq (chunks : SeqTable Chunk) (marked ids : List Int)
    (bufferId : Int) : clearChunksPendingVector chunks marked bufferId ids =
      clearPending (inBuffer chunks bufferId) marked ids := rfl

/-- `id IN (…)`, of the rows there are. -/
def isAnswer (t : Table QaCacheRow) (i : Int) : Bool := (t.get? i).isSome

def markQaCachePendingVector (t : Table QaCacheRow) (marked ids : List Int) : List Int :=
  markPending (isAnswer t) marked ids

def clearQaCachePendingVector (t : Table QaCacheRow) (marked ids : List Int) : List Int :=
  clearPending (isAnswer t) marked ids

def qaCachePendingVector (scan : ScanOrder QaCacheRow) (t : Table QaCacheRow) (marked : List Int)
    (project : String) : List Int :=
  pendingVector scan t (fun r => r.project == project) marked

/-- A node whose buffer is `NULL` is in none. -/
def nodeInBuffer (t : Table RlmNode) (bufferId i : Int) : Bool :=
  (t.get? i).any fun n => n.bufferId == some bufferId

def markRlmNodesPendingVector (t : Table RlmNode) (marked : List Int) (bufferId : Int)
    (ids : List Int) : List Int :=
  markPending (nodeInBuffer t bufferId) marked ids

def clearRlmNodesPendingVector (t : Table RlmNode) (marked : List Int) (bufferId : Int)
    (ids : List Int) : List Int :=
  clearPending (nodeInBuffer t bufferId) marked ids

def rlmNodesPendingVector (scan : ScanOrder RlmNode) (t : Table RlmNode) (marked : List Int)
    (bufferId : Int) : List Int :=
  pendingVector scan t (fun n => n.bufferId == some bufferId) marked

def mapInBuffer (t : Table ExplorationRow) (bufferId i : Int) : Bool :=
  (t.get? i).any fun m => m.bufferId == some bufferId

def markExplorationsPendingVector (t : Table ExplorationRow) (marked : List Int) (bufferId : Int)
    (ids : List Int) : List Int :=
  markPending (mapInBuffer t bufferId) marked ids

def clearExplorationsPendingVector (t : Table ExplorationRow) (marked : List Int) (bufferId : Int)
    (ids : List Int) : List Int :=
  clearPending (mapInBuffer t bufferId) marked ids

def explorationsPendingVector (scan : ScanOrder ExplorationRow) (t : Table ExplorationRow)
    (marked : List Int) (bufferId : Int) : List Int :=
  pendingVector scan t (fun m => m.bufferId == some bufferId) marked

end Arags
