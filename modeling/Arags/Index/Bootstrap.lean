import Arags.Index.Vectors
import Arags.Index.Reindex

/-!
# Arags.Index.Bootstrap

The rebuild of the chunk vector space at start-up, `bootstrap_chunks` of `bootstrap.rs`.

* `bootstrapChunks` — compare the counts, and when they differ clear, embed and insert.
* `bootstrap_keys`  — when the space then holds exactly the active chunks.
-/

namespace Arags

open Sql

def BOOTSTRAP_BATCH : Nat := 512

/-- The counts of a space, and whether it was rebuilt. -/
structure SpaceReport where
  rebuilt : Bool
  sqliteCount : Nat
  vectorCount : Nat
  deriving DecidableEq, Repr

section Bootstrap

variable {ε : Type} (embedBatch : List String → Option (List ε)) (scan : ScanOrder Chunk)

def bootstrapChunks (s : ChunkStore) (vs : VectorStore ε) : VectorStore ε × SpaceReport :=
  let inputs := allChunkEmbedInputs scan s
  if inputs.length = vectorCount vs then (vs, ⟨false, inputs.length, vectorCount vs⟩)
  else
    let rebuilt := insertVectors ∅ (embedEntries embedBatch (batches BOOTSTRAP_BATCH inputs))
    (rebuilt, ⟨true, inputs.length, vectorCount rebuilt⟩)

/-- The condition under which a bootstrap leaves the active chunks: a store of the right size
holds them already, or the rows with text are the active ones. -/
def Restorable (s : ChunkStore) (vs : VectorStore ε) : Prop :=
  if (allChunkEmbedInputs scan s).length = vectorCount vs then
    ∀ i, i ∈ vs ↔ i ∈ activeIds s.chunks
  else ∀ i r, (i, r) ∈ s.chunks.rows → (i ∉ s.textless ↔ r.isActive = true)

variable {embedBatch scan}

theorem bootstrapChunks_rebuilt {embed : String → ε} {s : ChunkStore} {vs : VectorStore ε}
    (htotal : ∀ texts, embedBatch texts = some (texts.map embed))
    (h : (allChunkEmbedInputs scan s).length ≠ vectorCount vs) (i : Int) :
    i ∈ (bootstrapChunks embedBatch scan s vs).1 ↔
      ∃ r, (i, r) ∈ s.chunks.rows ∧ i ∉ s.textless := by
  unfold bootstrapChunks
  dsimp only
  rw [if_neg h, mem_insertVectors, embedEntries_ids htotal, batches_flatten,
    mem_allChunkEmbedInputs]
  simp

/-- After a bootstrap with a total embedder the keys of the store are the ids of the active
chunks exactly when the store and the rows allow it. -/
theorem bootstrap_keys {embed : String → ε} {s : ChunkStore} {vs : VectorStore ε}
    (htotal : ∀ texts, embedBatch texts = some (texts.map embed)) :
    (∀ i, i ∈ (bootstrapChunks embedBatch scan s vs).1 ↔ i ∈ activeIds s.chunks) ↔
      Restorable scan s vs := by
  unfold Restorable
  by_cases h : (allChunkEmbedInputs scan s).length = vectorCount vs
  · have hkept : (bootstrapChunks embedBatch scan s vs).1 = vs := by
      unfold bootstrapChunks
      simp [h]
    rw [if_pos h, hkept]
  · rw [if_neg h]
    constructor
    · intro hkeys i r hr
      have hi := (bootstrapChunks_rebuilt htotal h i).symm.trans ((hkeys i).trans mem_activeIds)
      constructor
      · intro ht
        obtain ⟨r', hr', ha⟩ := hi.mp ⟨r, hr, ht⟩
        rw [Table.eq_of_mem hr hr']
        exact ha
      · intro ha
        obtain ⟨-, -, ht⟩ := hi.mpr ⟨r, hr, ha⟩
        exact ht
    · intro hrows i
      rw [bootstrapChunks_rebuilt htotal h, mem_activeIds]
      constructor
      · rintro ⟨r, hr, ht⟩
        exact ⟨r, hr, (hrows i r hr).mp ht⟩
      · rintro ⟨r, hr, ha⟩
        exact ⟨r, hr, (hrows i r hr).mpr ha⟩

end Bootstrap

/-- The chunk rows that streams of one file each leave, newest first. -/
def indexed (texts : List String) : ChunkStore where
  chunks := (Lts.after (fun d text => (reindex sampleIndexer "p" d ("/r", [("m.rs", text)])).1)
    IndexDb.empty texts).chunks
  textless := []
  pendingVector := []

def embedLengths (texts : List String) : Option (List Nat) := some (texts.map String.length)

/-- A file that was indexed once, and a store that is missing. -/
theorem bootstrap_keys_missing_store :
    activeIds (indexed ["a"]).chunks = [1] ∧
    ∀ i, i ∈ (bootstrapChunks embedLengths .rowid (indexed ["a"]) ∅).1 ↔
      i ∈ activeIds (indexed ["a"]).chunks := by
  have htotal : ∀ texts, embedLengths texts = some (texts.map String.length) := fun _ => rfl
  refine ⟨by decide, (bootstrap_keys htotal).mpr ?_⟩
  unfold Restorable
  rw [if_neg (by decide)]
  intro i r hr
  have hrows : (indexed ["a"]).chunks.rows.all (fun x => x.2.isActive) = true := by decide
  exact iff_of_true (by simp [indexed]) (List.all_eq_true.mp hrows _ hr)

/-- A second stream changed the file: the rebuild brings the retired chunk back. -/
theorem bootstrap_keys_retired :
    activeIds (indexed ["b", "a"]).chunks = [2] ∧
    (bootstrapChunks embedLengths .rowid (indexed ["b", "a"]) ∅).1.keys = [2, 1] := by
  decide

end Arags
