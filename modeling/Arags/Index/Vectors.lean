import Arags.Index.Chunks
import Mathlib.Data.List.AList

/-!
# Arags.Index.Vectors

The chunk vector space of `lance/vectors.rs` as a finite map, and the statements of
`sqlite/chunks/vector.rs` that feed it.

* `insertVectors`, `deleteChunkIds` — one key after the other; `mem_insertVectors` and
  `mem_deleteChunkIds` say which keys are left.
* `ChunkStore` — the chunk rows with their two marks: no text kept, vector pending.
* `allChunkEmbedInputs`, `getChunkEmbedInputs` — what a rebuild and a reconcile pass embed.
-/

namespace Arags

open Sql

/-- A buffer and a vector under each chunk id. -/
abbrev VectorStore (ε : Type) := AList fun _ : Int => Int × ε

structure VectorEntry (ε : Type) where
  chunkId : Int
  bufferId : Int
  vector : ε

section Store

variable {ε : Type}

/-- An entry clears its key first. -/
def insertVectors (vs : VectorStore ε) (entries : List (VectorEntry ε)) : VectorStore ε :=
  entries.foldl (fun s e => s.insert e.chunkId (e.bufferId, e.vector)) vs

/-- Missing ids are ignored. -/
def deleteChunkIds (vs : VectorStore ε) (ids : List Int) : VectorStore ε :=
  ids.foldl (fun s i => s.erase i) vs

def vectorCount (vs : VectorStore ε) : Nat := vs.keys.length

@[simp] theorem mem_insertVectors {vs : VectorStore ε} {entries : List (VectorEntry ε)} {i : Int} :
    i ∈ insertVectors vs entries ↔ i ∈ vs ∨ i ∈ entries.map VectorEntry.chunkId := by
  unfold insertVectors
  induction entries generalizing vs with
  | nil => simp
  | cons e entries ih =>
    rw [List.foldl_cons, ih, AList.mem_insert, List.map_cons, List.mem_cons]
    tauto

@[simp] theorem mem_deleteChunkIds {vs : VectorStore ε} {ids : List Int} {i : Int} :
    i ∈ deleteChunkIds vs ids ↔ i ∈ vs ∧ i ∉ ids := by
  unfold deleteChunkIds
  induction ids generalizing vs with
  | nil => simp
  | cons j ids ih =>
    rw [List.foldl_cons, ih, AList.mem_erase, List.mem_cons]
    tauto

end Store

/-! ## Chunk rows and their marks -/

/-- `textless` are the rows without a `chunk_texts` row, `pendingVector` the rows with
`status = 'pending_vector'`. -/
structure ChunkStore where
  chunks : SeqTable Chunk
  textless : List Int
  pendingVector : List Int

/-- The ids of the active rows. -/
def activeIds (chunks : SeqTable Chunk) : List Int :=
  (chunks.select fun _ r => r.isActive).map Prod.fst

theorem mem_activeIds {chunks : SeqTable Chunk} {i : Int} :
    i ∈ activeIds chunks ↔ ∃ r, (i, r) ∈ chunks.rows ∧ r.isActive = true := by
  unfold activeIds
  simp [Table.select]

/-- `buffer_id = ?1 AND id IN (…)`. -/
def inBuffer (chunks : SeqTable Chunk) (bufferId i : Int) : Bool :=
  (chunks.get? i).any fun r => r.bufferId == bufferId

/-- The rows of the buffer among `ids` are added to the marked ones. -/
def markChunksPendingVector (chunks : SeqTable Chunk) (marked : List Int) (bufferId : Int)
    (ids : List Int) : List Int :=
  marked ++ ids.filter (inBuffer chunks bufferId)

def clearChunksPendingVector (chunks : SeqTable Chunk) (marked : List Int) (bufferId : Int)
    (ids : List Int) : List Int :=
  marked.filter fun i => !(ids.contains i && inBuffer chunks bufferId i)

def chunksPendingVector (scan : ScanOrder Chunk) (s : ChunkStore) (bufferId : Int) : List Int :=
  (scan.order (s.chunks.select fun i r => r.bufferId == bufferId &&
    s.pendingVector.contains i)).map Prod.fst

theorem mem_markChunksPendingVector {chunks : SeqTable Chunk} {marked ids : List Int}
    {bufferId i : Int} : i ∈ markChunksPendingVector chunks marked bufferId ids ↔
      i ∈ marked ∨ (i ∈ ids ∧ inBuffer chunks bufferId i = true) := by
  simp [markChunksPendingVector]

theorem mem_clearChunksPendingVector {chunks : SeqTable Chunk} {marked ids : List Int}
    {bufferId i : Int} : i ∈ clearChunksPendingVector chunks marked bufferId ids ↔
      i ∈ marked ∧ ¬ (i ∈ ids ∧ inBuffer chunks bufferId i = true) := by
  simp [clearChunksPendingVector, imp_iff_not_or]

/-- `(chunk_id, buffer_id, content)` of every row with text. -/
def allChunkEmbedInputs (scan : ScanOrder Chunk) (s : ChunkStore) : List (Int × Int × String) :=
  (scan.order (s.chunks.select fun i _ => !s.textless.contains i)).map
    fun x => (x.1, x.2.bufferId, x.2.content)

def getChunkEmbedInputs (scan : ScanOrder Chunk) (s : ChunkStore) (ids : List Int) :
    List (Int × Int × String) :=
  (scan.order (s.chunks.select fun i _ => !s.textless.contains i && ids.contains i)).map
    fun x => (x.1, x.2.bufferId, x.2.content)

theorem mem_allChunkEmbedInputs {scan : ScanOrder Chunk} {s : ChunkStore} {i : Int} :
    i ∈ (allChunkEmbedInputs scan s).map Prod.fst ↔
      ∃ r, (i, r) ∈ s.chunks.rows ∧ i ∉ s.textless := by
  unfold allChunkEmbedInputs
  rw [List.map_map, List.mem_map]
  constructor
  · rintro ⟨⟨j, r⟩, hx, rfl⟩
    have hm := Table.mem_select.mp (scan.mem_order.mp hx)
    exact ⟨r, hm.1, by simpa using hm.2⟩
  · rintro ⟨r, hr, ht⟩
    exact ⟨(i, r), scan.mem_order.mpr (Table.mem_select.mpr ⟨hr, by simpa using ht⟩), rfl⟩

/-! ## Embedding -/

/-- `batch.iter().zip(vectors.iter())`. -/
def batchEntries {ε : Type} (batch : List (Int × Int × String)) (vectors : List ε) :
    List (VectorEntry ε) :=
  List.zipWith (fun x v => ⟨x.1, x.2.1, v⟩) batch vectors

theorem batchEntries_ids {ε : Type} {batch : List (Int × Int × String)} {vectors : List ε}
    (h : vectors.length = batch.length) :
    (batchEntries batch vectors).map VectorEntry.chunkId = batch.map Prod.fst := by
  unfold batchEntries
  rw [List.map_zipWith]
  induction batch generalizing vectors with
  | nil => rfl
  | cons x batch ih =>
    cases vectors with
    | nil => cases h
    | cons v vectors =>
      have hlen : vectors.length = batch.length := by simpa using h
      have := ih hlen
      simp [this]

/-- The entries of the batches up to the first that fails to embed. -/
def embedEntries {ε : Type} (embedBatch : List String → Option (List ε)) :
    List (List (Int × Int × String)) → List (VectorEntry ε)
  | [] => []
  | batch :: rest =>
    match embedBatch (batch.map fun x => x.2.2) with
    | none => []
    | some vectors => batchEntries batch vectors ++ embedEntries embedBatch rest

/-- A total embedder gives each input its entry. -/
theorem embedEntries_ids {ε : Type} {embed : String → ε}
    {embedBatch : List String → Option (List ε)}
    (h : ∀ texts, embedBatch texts = some (texts.map embed))
    (groups : List (List (Int × Int × String))) :
    (embedEntries embedBatch groups).map VectorEntry.chunkId = groups.flatten.map Prod.fst := by
  induction groups with
  | nil => rfl
  | cons batch rest ih =>
    have hlen : ((batch.map fun x => x.2.2).map embed).length = batch.length := by simp
    have hbatch := batchEntries_ids hlen
    simp only [embedEntries, h, List.map_append, hbatch, ih, List.flatten_cons]

end Arags
