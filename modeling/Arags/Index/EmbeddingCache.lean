import Arags.Lib.Runs
import Mathlib.Data.List.Basic
import Mathlib.Logic.Function.Basic

/-!
# Arags.Index.EmbeddingCache

The embedding cache of `embedder/cache.rs` and the three ways to embed a list of texts around it.
Each looks every text up, embeds the misses in one batch or in several, and puts the vectors at
the places that were left open.

* `EmbeddingCache`    — vectors as little-endian bytes, under the hash of their text.
* `embedAround`       — the steps the three have in common.
* `cachedEmbedBatch`, `embedWithCache`, `embedBatchCached` — the three.
* `firstAsked`        — the model that the entry of a text comes from.
* `cache_transparent` — when the three return what the configured model computes.
-/

namespace Arags

namespace VectorCache

/-! ## Vectors as bytes -/

/-- An `f32`, as its bits. -/
abbrev F32 := UInt32

abbrev Embedding := List F32

inductive EmbeddingError where
  | modelNotLoaded (message : String)
  | dimensionMismatch (expected actual : Nat)
  | llamaCpp (message : String)
  /-- A panic, which is an error to the caller of the task. -/
  | panicked (message : String)
  deriving DecidableEq, Repr

def toLeBytes (x : F32) : List UInt8 :=
  [ UInt8.ofNat x.toNat, UInt8.ofNat (x.toNat / 256), UInt8.ofNat (x.toNat / 65536),
    UInt8.ofNat (x.toNat / 16777216) ]

def fromLeBytes (a b c d : UInt8) : F32 :=
  UInt32.ofNat (a.toNat + 256 * b.toNat + 65536 * c.toNat + 16777216 * d.toNat)

def embeddingToBytes (embedding : Embedding) : List UInt8 := embedding.flatMap toLeBytes

/-- `chunks_exact(4)`, each read as an `f32`. -/
def wordsOf : List UInt8 → Embedding
  | a :: b :: c :: d :: rest => fromLeBytes a b c d :: wordsOf rest
  | _ => []

def bytesToEmbedding (bytes : List UInt8) (expectedDims : Nat) :
    Except EmbeddingError Embedding :=
  if bytes.length ≠ expectedDims * 4 then
    .error (.dimensionMismatch expectedDims (bytes.length / 4))
  else .ok (wordsOf bytes)

theorem fromLeBytes_toLeBytes (x : F32) :
    fromLeBytes (UInt8.ofNat x.toNat) (UInt8.ofNat (x.toNat / 256))
      (UInt8.ofNat (x.toNat / 65536)) (UInt8.ofNat (x.toNat / 16777216)) = x := by
  have hx : x.toNat < 4294967296 := x.toNat_lt
  have hsum : x.toNat % 256 + 256 * (x.toNat / 256 % 256) + 65536 * (x.toNat / 65536 % 256) +
      16777216 * (x.toNat / 16777216 % 256) = x.toNat := by omega
  unfold fromLeBytes
  simp only [UInt8.toNat_ofNat', Nat.reducePow]
  rw [hsum, UInt32.ofNat_toNat]

theorem wordsOf_embeddingToBytes (embedding : Embedding) :
    wordsOf (embeddingToBytes embedding) = embedding := by
  induction embedding with
  | nil => rfl
  | cons x xs ih =>
    show fromLeBytes _ _ _ _ :: wordsOf (embeddingToBytes xs) = x :: xs
    rw [fromLeBytes_toLeBytes, ih]

theorem length_embeddingToBytes (embedding : Embedding) :
    (embeddingToBytes embedding).length = embedding.length * 4 := by
  induction embedding with
  | nil => rfl
  | cons x xs ih =>
    show (toLeBytes x ++ embeddingToBytes xs).length = (x :: xs).length * 4
    rw [List.length_append, ih, List.length_cons]
    simp only [toLeBytes, List.length_cons, List.length_nil]
    omega

/-- What is written is read back. -/
theorem bytesToEmbedding_toBytes (embedding : Embedding) :
    bytesToEmbedding (embeddingToBytes embedding) embedding.length = .ok embedding := by
  unfold bytesToEmbedding
  rw [if_neg (by rw [length_embeddingToBytes]; exact fun h => h rfl), wordsOf_embeddingToBytes]

/-! ## The cache -/

/-- The rows of `embedding_cache`; `created_at` is read by nothing. -/
structure EmbeddingCache where
  dims : Nat
  entries : List (String × List UInt8)

/-- `EmbeddingCache::open` on a new file. -/
def EmbeddingCache.empty (dims : Nat) : EmbeddingCache := ⟨dims, []⟩

structure Embedder where
  embed : String → Except EmbeddingError Embedding
  embedBatch : List String → Except EmbeddingError (List Embedding)

variable (contentHash : String → String)

def EmbeddingCache.get (cache : EmbeddingCache) (text : String) :
    Except EmbeddingError (Option Embedding) :=
  match cache.entries.lookup (contentHash text) with
  | some blob => (bytesToEmbedding blob cache.dims).map some
  | none => .ok none

/-- `INSERT OR REPLACE`. -/
def EmbeddingCache.put (cache : EmbeddingCache) (text : String) (embedding : Embedding) :
    Except EmbeddingError EmbeddingCache :=
  if embedding.length ≠ cache.dims then
    .error (.dimensionMismatch cache.dims embedding.length)
  else
    let hash := contentHash text
    .ok { cache with
      entries := (hash, embeddingToBytes embedding) ::
        cache.entries.filter fun x => x.1 != hash }

/-! ## Around the cache -/

section Around

variable {ρ σ : Type}

/-- The results so far, and the places and the texts of the misses. -/
structure Scan (ρ : Type) where
  results : List ρ
  uncachedIndices : List Nat
  uncachedTexts : List String

/-- The loop that looks the texts up; a miss leaves a `hole`. -/
def scan (hit : Embedding → ρ) (hole : ρ)
    (look : String → Except EmbeddingError (Option Embedding)) :
    List (String × Nat) → Scan ρ → Except EmbeddingError (Scan ρ)
  | [], s => .ok s
  | (text, i) :: rest, s =>
    match look text with
    | .error e => .error e
    | .ok (some embedding) =>
      scan hit hole look rest { s with results := s.results ++ [hit embedding] }
    | .ok none =>
      scan hit hole look rest
        ⟨s.results ++ [hole], s.uncachedIndices ++ [i], s.uncachedTexts ++ [text]⟩

/-- The loop that stores the new vectors and fills their places. -/
def fill (hit : Embedding → ρ) (put : σ → String → Embedding → Except EmbeddingError σ)
    (texts : List String) : List (Nat × Embedding) → σ → List ρ →
      σ × Except EmbeddingError (List ρ)
  | [], s, results => (s, .ok results)
  | (i, embedding) :: rest, s, results =>
    match texts[i]? with
    | none => (s, .error (.panicked "index out of bounds"))
    | some text =>
      match put s text embedding with
      | .error e => (s, .error e)
      | .ok s' => fill hit put texts rest s' (results.set i (hit embedding))

/-- Look up, embed the misses, fill. `fits` compares the misses to what came back for them: where
it fails, an index is out of bounds. -/
def embedAround (hit : Embedding → ρ) (hole : ρ)
    (look : String → Except EmbeddingError (Option Embedding))
    (put : σ → String → Embedding → Except EmbeddingError σ)
    (compute : List String → Except EmbeddingError (List Embedding)) (fits : Nat → Nat → Bool)
    (s : σ) (texts : List String) : σ × Except EmbeddingError (List ρ) :=
  match scan hit hole look texts.zipIdx ⟨[], [], []⟩ with
  | .error e => (s, .error e)
  | .ok scanned =>
    if scanned.uncachedTexts.isEmpty then (s, .ok scanned.results)
    else
      match compute scanned.uncachedTexts with
      | .error e => (s, .error e)
      | .ok computed =>
        let filled := fill hit put texts (scanned.uncachedIndices.zip computed) s scanned.results
        if fits scanned.uncachedTexts.length computed.length then filled
        else (filled.1, filled.2.bind fun _ => .error (.panicked "index out of bounds"))

end Around

/-! ## The three ways -/

section Ways

variable (inner : Embedder)

/-- `CachedEmbedder::embed`: what goes wrong with the cache is logged. -/
def cachedEmbed (cache : EmbeddingCache) (text : String) :
    EmbeddingCache × Except EmbeddingError Embedding :=
  match cache.get contentHash text with
  | .ok (some embedding) => (cache, .ok embedding)
  | _ =>
    match inner.embed text with
    | .error e => (cache, .error e)
    | .ok embedding =>
      (((cache.put contentHash text embedding).toOption).getD cache, .ok embedding)

/-- `CachedEmbedder::embed_batch`. -/
def cachedEmbedBatch (cache : EmbeddingCache) (texts : List String) :
    EmbeddingCache × Except EmbeddingError (List Embedding) :=
  embedAround id []
    (fun text => .ok (cache.get contentHash text).toOption.join)
    (fun cache text embedding =>
      .ok (((cache.put contentHash text embedding).toOption).getD cache))
    inner.embedBatch (fun missed computed => decide (computed ≤ missed)) cache texts

/-- The slices of `chunks`, as many as the fuel allows. -/
def slices (size : Nat) : Nat → List String → List (List String)
  | 0, _ => []
  | _ + 1, [] => []
  | fuel + 1, text :: rest => (text :: rest).take size ::
      slices size fuel ((text :: rest).drop size)

def embedSlices : List (List String) → Except EmbeddingError (List Embedding)
  | [] => .ok []
  | chunk :: chunks =>
    match inner.embedBatch chunk with
    | .error e => .error e
    | .ok embeddings => (embedSlices chunks).map (embeddings ++ ·)

/-- One batch for each of `texts.chunks(batch_size)`, which panics at size zero. -/
def embedChunks (batchSize : Nat) (texts : List String) :
    Except EmbeddingError (List Embedding) :=
  if batchSize = 0 then .error (.panicked "chunk size must be non-zero")
  else embedSlices inner (slices batchSize texts.length texts)

/-- `opt.ok_or_else`, for each slot. -/
def filledSlots : List (Option Embedding) → Except EmbeddingError (List Embedding)
  | [] => .ok []
  | none :: _ => .error (.modelNotLoaded "result slot not filled")
  | some embedding :: slots => (filledSlots slots).map (embedding :: ·)

def lookIn (cache : Option EmbeddingCache) (text : String) :
    Except EmbeddingError (Option Embedding) :=
  match cache with
  | some cache => cache.get contentHash text
  | none => .ok none

def putIn (cache : Option EmbeddingCache) (text : String) (embedding : Embedding) :
    Except EmbeddingError (Option EmbeddingCache) :=
  match cache with
  | some cache => (cache.put contentHash text embedding).map some
  | none => .ok none

/-- `BatchEmbedder::embed_with_cache`. -/
def embedWithCache (batchSize : Nat) (cache : Option EmbeddingCache) (texts : List String) :
    Option EmbeddingCache × Except EmbeddingError (List Embedding) :=
  let filled := embedAround some none (lookIn contentHash cache) (putIn contentHash)
    (embedChunks inner batchSize) (fun missed computed => decide (missed ≤ computed)) cache texts
  (filled.1, filled.2.bind filledSlots)

/-- `IngestionPipeline::embed_batch_cached`: without a cache nothing is looked up. -/
def embedBatchCached (batchSize : Nat) (cache : Option EmbeddingCache) (texts : List String) :
    Option EmbeddingCache × Except EmbeddingError (List Embedding) :=
  match cache with
  | some _ =>
    let filled := embedAround some none (lookIn contentHash cache) (putIn contentHash)
      (embedChunks inner batchSize) (fun missed computed => decide (missed ≤ computed)) cache
      texts
    (filled.1, filled.2.bind filledSlots)
  | none => (none, embedChunks inner batchSize texts)

end Ways

/-! ## Filling the places of the misses -/

section Filling

variable {ρ σ : Type} {hit : Embedding → ρ} {hole : ρ} {held : String → Option Embedding}
  {vector : String → Embedding}

def misses (held : String → Option Embedding) (texts : List (String × Nat)) :
    List (String × Nat) := texts.filter fun x => (held x.1).isNone

/-- What is held once the vectors of the texts are stored. -/
def learn (held : String → Option Embedding) (vector : String → Embedding) (texts : List String) :
    String → Option Embedding := fun t => if t ∈ texts then some (vector t) else held t

theorem learn_nil : learn held vector [] = held := by
  funext t
  rw [learn, if_neg (List.not_mem_nil)]

theorem learn_cons (text : String) (texts : List String) :
    learn (learn held vector [text]) vector texts = learn held vector (text :: texts) := by
  funext t
  unfold learn
  by_cases ht : t ∈ texts
  · rw [if_pos ht, if_pos (List.mem_cons_of_mem _ ht)]
  · rw [if_neg ht]
    refine if_congr ?_ rfl rfl
    rw [List.mem_cons, List.mem_cons, or_iff_left ht, or_iff_left List.not_mem_nil]

theorem scan_eq {look : String → Except EmbeddingError (Option Embedding)}
    (hlook : ∀ t, look t = .ok (held t)) (texts : List (String × Nat)) (s : Scan ρ) :
    scan hit hole look texts s = .ok
      ⟨s.results ++ texts.map (fun x => (held x.1).elim hole hit),
        s.uncachedIndices ++ (misses held texts).map Prod.snd,
        s.uncachedTexts ++ (misses held texts).map Prod.fst⟩ := by
  induction texts generalizing s with
  | nil => simp [scan, misses]
  | cons x texts ih =>
    obtain ⟨text, i⟩ := x
    rw [scan, hlook]
    cases hheld : held text with
    | none =>
      dsimp only
      rw [ih]
      simp [misses, hheld]
    | some embedding =>
      dsimp only
      rw [ih]
      simp [misses, hheld]

/-- The places hold their vectors, the others what they held. -/
theorem getElem?_foldl_set {texts : List String} {places : List (String × Nat)}
    (hplaces : ∀ x ∈ places, texts[x.2]? = some x.1) (results : List ρ) (j : Nat) :
    (places.foldl (fun r x => r.set x.2 (hit (vector x.1))) results)[j]? =
      if j ∈ places.map Prod.snd then
        results[j]?.bind fun _ => texts[j]?.map fun t => hit (vector t)
      else results[j]? := by
  induction places generalizing results with
  | nil => simp
  | cons x places ih =>
    have hx : texts[x.2]? = some x.1 := hplaces x List.mem_cons_self
    rw [List.foldl_cons, ih (fun y hy => hplaces y (List.mem_cons_of_mem x hy)), List.map_cons]
    by_cases hj : x.2 = j
    · subst hj
      rw [if_pos List.mem_cons_self, List.getElem?_set_self']
      cases hr : results[x.2]? with
      | none => simp
      | some r => simp [hx]
    · rw [List.getElem?_set_ne hj]
      refine if_congr ?_ rfl rfl
      rw [List.mem_cons, or_iff_right (Ne.symm hj)]

/-- All the holes of a list are filled, each with the vector of its own text. -/
theorem filled_results (texts : List String) :
    (misses held texts.zipIdx).foldl (fun r x => r.set x.2 (hit (vector x.1)))
        (texts.zipIdx.map fun x => (held x.1).elim hole hit) =
      texts.map fun t => hit ((held t).getD (vector t)) := by
  have hplaces : ∀ x ∈ misses held texts.zipIdx, texts[x.2]? = some x.1 := fun x hx =>
    List.mem_zipIdx_iff_getElem?.mp (List.mem_filter.mp hx).1
  refine List.ext_getElem? fun j => ?_
  rw [getElem?_foldl_set hplaces, List.getElem?_map, List.getElem?_map, List.getElem?_zipIdx]
  cases ht : texts[j]? with
  | none => simp
  | some t =>
    have hmem : j ∈ (misses held texts.zipIdx).map Prod.snd ↔ held t = none := by
      constructor
      · intro hm
        obtain ⟨x, hx, rfl⟩ := List.mem_map.mp hm
        have hsame := (hplaces x hx).symm.trans ht
        rw [← Option.some.inj hsame]
        exact Option.isNone_iff_eq_none.mp (List.mem_filter.mp hx).2
      · intro hnone
        refine List.mem_map.mpr ⟨(t, j), List.mem_filter.mpr ⟨?_, by simp [hnone]⟩, rfl⟩
        exact List.mem_zipIdx_iff_getElem?.mpr ht
    cases hheld : held t with
    | none =>
      rw [if_pos (hmem.mpr hheld)]
      simp [hheld]
    | some embedding =>
      rw [if_neg fun h => by rw [hmem.mp h] at hheld; cases hheld]
      simp [hheld]

section Store

variable {R : σ → (String → Option Embedding) → Prop}
  {put : σ → String → Embedding → Except EmbeddingError σ}

/-- The store learns a vector. -/
def Learns (R : σ → (String → Option Embedding) → Prop)
    (put : σ → String → Embedding → Except EmbeddingError σ) (vector : String → Embedding) :
    Prop :=
  ∀ s held t, R s held → ∃ s', put s t (vector t) = .ok s' ∧ R s' (learn held vector [t])

theorem fill_eq (hit : Embedding → ρ) (hput : Learns R put vector) {texts : List String}
    {places : List (String × Nat)} (hplaces : ∀ x ∈ places, texts[x.2]? = some x.1) {s : σ}
    {held : String → Option Embedding} (hR : R s held) (results : List ρ) :
    ∃ s', fill hit put texts (places.map fun x => (x.2, vector x.1)) s results =
        (s', .ok (places.foldl (fun r x => r.set x.2 (hit (vector x.1))) results)) ∧
      R s' (learn held vector (places.map Prod.fst)) := by
  induction places generalizing s held results with
  | nil => exact ⟨s, rfl, by rw [List.map_nil, learn_nil]; exact hR⟩
  | cons x places ih =>
    obtain ⟨s', hs', hR'⟩ := hput s held x.1 hR
    obtain ⟨s'', hs'', hR''⟩ := ih (fun y hy => hplaces y (List.mem_cons_of_mem x hy)) hR'
      (results.set x.2 (hit (vector x.1)))
    rw [learn_cons] at hR''
    refine ⟨s'', ?_, hR''⟩
    rw [List.map_cons, fill, hplaces x List.mem_cons_self]
    dsimp only
    rw [hs']
    exact hs''

theorem embedAround_eq (hit : Embedding → ρ) (hole : ρ) (fits : Nat → Nat → Bool)
    {look : String → Except EmbeddingError (Option Embedding)}
    {compute : List String → Except EmbeddingError (List Embedding)}
    (hlook : ∀ t, look t = .ok (held t)) (hput : Learns R put vector)
    (hcompute : ∀ ts, compute ts = .ok (ts.map vector)) (hfits : ∀ n, fits n n = true) {s : σ}
    (hR : R s held) (texts : List String) :
    ∃ s', embedAround hit hole look put compute fits s texts =
        (s', .ok (texts.map fun t => hit ((held t).getD (vector t)))) ∧
      R s' (learn held vector ((misses held texts.zipIdx).map Prod.fst)) := by
  have hplaces : ∀ x ∈ misses held texts.zipIdx, texts[x.2]? = some x.1 := fun x hx =>
    List.mem_zipIdx_iff_getElem?.mp (List.mem_filter.mp hx).1
  unfold embedAround
  rw [scan_eq hlook]
  dsimp only
  simp only [List.nil_append]
  cases hmisses : misses held texts.zipIdx with
  | nil =>
    refine ⟨s, ?_, by rw [List.map_nil, learn_nil]; exact hR⟩
    have hall := @filled_results ρ hit hole held vector texts
    rw [hmisses, List.foldl_nil] at hall
    rw [List.map_nil, List.isEmpty_nil, if_pos rfl, hall]
  | cons x rest =>
    rw [hmisses] at hplaces
    obtain ⟨s', hs', hR'⟩ := fill_eq hit hput hplaces hR
      (texts.zipIdx.map fun x => (held x.1).elim hole hit)
    refine ⟨s', ?_, hR'⟩
    rw [← hmisses, filled_results, hmisses] at hs'
    rw [List.map_cons, List.isEmpty_cons, if_neg Bool.false_ne_true, ← List.map_cons, hcompute]
    dsimp only
    rw [List.map_map, List.zip_map', List.length_map, List.length_map, hfits, if_pos rfl]
    exact hs'

end Store

end Filling

/-! ## What a cache holds -/

/-- An embedding model: a vector of the dimension for each text. -/
structure Model (dims : Nat) where
  vector : String → Embedding
  length_vector : ∀ text, (vector text).length = dims

/-- Its batch call is the map of its single call. -/
def Model.embedder {dims : Nat} (m : Model dims) : Embedder where
  embed := fun text => .ok (m.vector text)
  embedBatch := fun texts => .ok (texts.map m.vector)

/-- Each lookup finds what is held. -/
structure Holds (contentHash : String → String) (dims : Nat) (cache : EmbeddingCache)
    (held : String → Option Embedding) : Prop where
  dims : cache.dims = dims
  get : ∀ text, cache.get contentHash text = .ok (held text)

section Caches

variable {contentHash : String → String} {dims : Nat} {cache : EmbeddingCache}
  {held : String → Option Embedding}

theorem lookup_filter_ne {κ β : Type} [BEq κ] [LawfulBEq κ] {k k' : κ} (h : k ≠ k')
    (l : List (κ × β)) : (l.filter fun x => x.1 != k').lookup k = l.lookup k := by
  induction l with
  | nil => rfl
  | cons x l ih =>
    by_cases hx : x.1 = k'
    · rw [List.filter_cons_of_neg (by simpa using hx), ih, List.lookup_cons, hx,
        beq_false_of_ne h]
    · rw [List.filter_cons_of_pos (by simpa using hx), List.lookup_cons, List.lookup_cons, ih]

theorem Holds.empty (contentHash : String → String) (dims : Nat) :
    Holds contentHash dims (.empty dims) fun _ => none where
  dims := rfl
  get := fun _ => rfl

/-- A vector of the right length goes in, under its text alone. -/
theorem put_learns (hhash : Function.Injective contentHash) (m : Model dims) :
    Learns (Holds contentHash dims) (fun cache => cache.put contentHash) m.vector := by
  intro cache held text h
  have hlen : (m.vector text).length = cache.dims := by rw [m.length_vector, h.dims]
  dsimp only
  unfold EmbeddingCache.put
  rw [if_neg (fun hne => hne hlen)]
  refine ⟨_, rfl, h.dims, fun t => ?_⟩
  unfold EmbeddingCache.get learn
  by_cases ht : t = text
  · subst ht
    rw [List.lookup_cons_self, if_pos List.mem_cons_self]
    dsimp only
    rw [← hlen, bytesToEmbedding_toBytes]
    rfl
  · have hne : contentHash t ≠ contentHash text := fun he => ht (hhash he)
    have hget := h.get t
    unfold EmbeddingCache.get at hget
    rw [List.lookup_cons, beq_false_of_ne hne, if_neg (by simpa using ht)]
    dsimp only
    rw [lookup_filter_ne hne]
    exact hget

/-- What is held after a list of texts went through a model. -/
def served (held : String → Option Embedding) (m : Model dims) (texts : List String) :
    String → Option Embedding :=
  fun t => (held t).or (if t ∈ texts then some (m.vector t) else none)

theorem learn_misses (m : Model dims) (texts : List String) :
    learn held m.vector ((misses held texts.zipIdx).map Prod.fst) = served held m texts := by
  have hmem : ∀ t, t ∈ (misses held texts.zipIdx).map Prod.fst ↔ t ∈ texts ∧ held t = none := by
    intro t
    have hfst : texts.zipIdx.map Prod.fst = texts := List.zipIdx_map_fst 0 texts
    constructor
    · intro h
      obtain ⟨x, hx, rfl⟩ := List.mem_map.mp h
      obtain ⟨hmem, hnone⟩ := List.mem_filter.mp hx
      exact ⟨List.fst_mem_of_mem_zipIdx hmem, Option.isNone_iff_eq_none.mp hnone⟩
    · rintro ⟨ht, hnone⟩
      rw [← hfst] at ht
      obtain ⟨x, hx, rfl⟩ := List.mem_map.mp ht
      exact List.mem_map.mpr ⟨x, List.mem_filter.mpr ⟨hx, by simp [hnone]⟩, rfl⟩
  funext t
  unfold learn served
  cases hheld : held t with
  | none =>
    rw [Option.none_or]
    exact if_congr ((hmem t).trans (and_iff_left hheld)) rfl rfl
  | some embedding =>
    have hno : ¬ t ∈ (misses held texts.zipIdx).map Prod.fst := fun h => by
      rw [((hmem t).mp h).2] at hheld
      cases hheld
    rw [if_neg hno, Option.some_or]

/-- The vectors that are held, and those of the model for the other texts. -/
def answer (held : String → Option Embedding) (m : Model dims) (texts : List String) :
    List Embedding := texts.map fun t => (held t).getD (m.vector t)

theorem cachedEmbed_holds (hhash : Function.Injective contentHash) (m : Model dims)
    (h : Holds contentHash dims cache held) (text : String) :
    Holds contentHash dims (cachedEmbed contentHash m.embedder cache text).1
      (served held m [text]) := by
  unfold cachedEmbed
  rw [h.get text, ← learn_misses]
  cases hheld : held text with
  | some embedding =>
    have hnone : misses held [text].zipIdx = [] := by simp [misses, hheld]
    rw [hnone, List.map_nil, learn_nil]
    exact h
  | none =>
    have hone : (misses held [text].zipIdx).map Prod.fst = [text] := by simp [misses, hheld]
    obtain ⟨cache', hput, hcache'⟩ := put_learns hhash m cache held text h
    dsimp only at hput
    rw [hone]
    show Holds contentHash dims
      (((cache.put contentHash text (m.vector text)).toOption).getD cache) _
    rw [hput]
    exact hcache'

theorem cachedEmbedBatch_eq (hhash : Function.Injective contentHash) (m : Model dims)
    (h : Holds contentHash dims cache held) (texts : List String) :
    ∃ cache', cachedEmbedBatch contentHash m.embedder cache texts =
        (cache', .ok (answer held m texts)) ∧
      Holds contentHash dims cache' (served held m texts) := by
  have hlook : ∀ t, (Except.ok (cache.get contentHash t).toOption.join :
      Except EmbeddingError (Option Embedding)) = .ok (held t) := by
    intro t
    rw [h.get t]
    rfl
  have hput : Learns (Holds contentHash dims) (fun cache text embedding =>
      .ok (((cache.put contentHash text embedding).toOption).getD cache)) m.vector := by
    intro c g t hc
    obtain ⟨c', hput, hc'⟩ := put_learns hhash m c g t hc
    dsimp only at hput ⊢
    rw [hput]
    exact ⟨c', rfl, hc'⟩
  have hcompute : ∀ ts, m.embedder.embedBatch ts = .ok (ts.map m.vector) := fun _ => rfl
  have hfits : ∀ n : Nat, decide (n ≤ n) = true := fun n => by simp
  obtain ⟨cache', he, hcache'⟩ := embedAround_eq id []
    (fun missed computed => decide (computed ≤ missed)) hlook hput hcompute hfits h texts
  rw [learn_misses] at hcache'
  exact ⟨cache', he, hcache'⟩

theorem slices_flatten {size fuel : Nat} (hsize : 0 < size) {texts : List String}
    (hfuel : texts.length ≤ fuel) : (slices size fuel texts).flatten = texts := by
  induction fuel generalizing texts with
  | zero =>
    rw [Nat.le_zero, List.length_eq_zero_iff] at hfuel
    rw [hfuel]
    rfl
  | succ fuel ih =>
    cases texts with
    | nil => rfl
    | cons text rest =>
      rw [slices, List.flatten_cons, ih, List.take_append_drop]
      rw [List.length_drop]
      simp only [List.length_cons] at hfuel ⊢
      omega

theorem embedSlices_eq (m : Model dims) (chunks : List (List String)) :
    embedSlices m.embedder chunks = .ok (chunks.flatten.map m.vector) := by
  induction chunks with
  | nil => rfl
  | cons chunk chunks ih =>
    rw [embedSlices, ih, List.flatten_cons, List.map_append]
    rfl

theorem embedChunks_eq (m : Model dims) {batchSize : Nat} (hsize : 0 < batchSize)
    (texts : List String) :
    embedChunks m.embedder batchSize texts = .ok (texts.map m.vector) := by
  unfold embedChunks
  rw [if_neg (Nat.ne_of_gt hsize), embedSlices_eq, slices_flatten hsize (Nat.le_refl _)]

theorem filledSlots_some (embeddings : List Embedding) :
    filledSlots (embeddings.map some) = .ok embeddings := by
  induction embeddings with
  | nil => rfl
  | cons embedding embeddings ih =>
    rw [List.map_cons, filledSlots, ih]
    rfl

/-- `embed_with_cache` and `embed_batch_cached` with a cache. -/
theorem embedWithCache_eq (hhash : Function.Injective contentHash) (m : Model dims)
    (h : Holds contentHash dims cache held) {batchSize : Nat} (hsize : 0 < batchSize)
    (texts : List String) :
    ∃ cache', embedWithCache contentHash m.embedder batchSize (some cache) texts =
        (some cache', .ok (answer held m texts)) ∧
      Holds contentHash dims cache' (served held m texts) := by
  have hput : Learns (fun c g => ∃ c', c = some c' ∧ Holds contentHash dims c' g)
      (putIn contentHash) m.vector := by
    rintro c g t ⟨c', rfl, hc'⟩
    obtain ⟨c'', hput, hc''⟩ := put_learns hhash m c' g t hc'
    refine ⟨some c'', ?_, c'', rfl, hc''⟩
    unfold putIn
    dsimp only at hput ⊢
    rw [hput]
    rfl
  have hlook : ∀ t, lookIn contentHash (some cache) t = .ok (held t) := h.get
  have hfits : ∀ n : Nat, decide (n ≤ n) = true := fun n => by simp
  obtain ⟨s', he, cache', rfl, hcache'⟩ := embedAround_eq some none
    (fun missed computed => decide (missed ≤ computed)) hlook hput (embedChunks_eq m hsize) hfits
    ⟨cache, rfl, h⟩ texts
  rw [learn_misses] at hcache'
  refine ⟨cache', ?_, hcache'⟩
  unfold embedWithCache
  dsimp only
  rw [he]
  show (some cache', filledSlots _) = _
  rw [show (texts.map fun t => some ((held t).getD (m.vector t))) =
    (answer held m texts).map some by rw [answer, List.map_map]; rfl, filledSlots_some]

/-- `embed_batch_cached` with a cache takes the steps of `embed_with_cache`. -/
theorem embedBatchCached_some (m : Model dims) (batchSize : Nat) (texts : List String) :
    embedBatchCached contentHash m.embedder batchSize (some cache) texts =
      embedWithCache contentHash m.embedder batchSize (some cache) texts := rfl

/-- Without a cache every text is a miss. -/
theorem embedWithCache_none (m : Model dims) {batchSize : Nat} (hsize : 0 < batchSize)
    (texts : List String) :
    (embedWithCache contentHash m.embedder batchSize none texts).2 =
      .ok (texts.map m.vector) := by
  have hlook : ∀ t, lookIn contentHash none t = .ok ((fun _ => none : String → Option _) t) :=
    fun _ => rfl
  have hput : Learns (fun c _ => c = none) (putIn contentHash) m.vector := by
    rintro c g t rfl
    exact ⟨none, rfl, rfl⟩
  have hfits : ∀ n : Nat, decide (n ≤ n) = true := fun n => by simp
  obtain ⟨s', he, -⟩ := embedAround_eq some none
    (fun missed computed => decide (missed ≤ computed)) hlook hput (embedChunks_eq m hsize) hfits
    rfl texts
  unfold embedWithCache
  dsimp only
  rw [he]
  show filledSlots (texts.map fun t => some (m.vector t)) = _
  rw [← filledSlots_some (texts.map m.vector), List.map_map]
  rfl

theorem answer_eq_iff (m : Model dims) (texts : List String) :
    answer held m texts = texts.map m.vector ↔
      ∀ t ∈ texts, ∀ embedding ∈ held t, embedding = m.vector t := by
  unfold answer
  rw [List.map_inj_left]
  refine forall₂_congr fun t _ => ?_
  cases held t with
  | none => simp
  | some embedding => simp

end Caches

/-! ## The calls on one cache -/

/-- A call through an embedder of the dimension. -/
inductive CacheCall (dims : Nat) where
  | embed (model : Model dims) (text : String)
  | embedBatch (model : Model dims) (texts : List String)
  | embedWithCache (model : Model dims) (batchSize : Nat) (positive : 0 < batchSize)
      (texts : List String)
  | embedBatchCached (model : Model dims) (batchSize : Nat) (positive : 0 < batchSize)
      (texts : List String)

section Calls

variable {dims : Nat}

def CacheCall.model : CacheCall dims → Model dims
  | .embed m _ => m
  | .embedBatch m _ => m
  | .embedWithCache m _ _ _ => m
  | .embedBatchCached m _ _ _ => m

def CacheCall.texts : CacheCall dims → List String
  | .embed _ text => [text]
  | .embedBatch _ texts => texts
  | .embedWithCache _ _ _ texts => texts
  | .embedBatchCached _ _ _ texts => texts

def stepCache (contentHash : String → String) (cache : EmbeddingCache) :
    CacheCall dims → EmbeddingCache
  | .embed m text => (cachedEmbed contentHash m.embedder cache text).1
  | .embedBatch m texts => (cachedEmbedBatch contentHash m.embedder cache texts).1
  | .embedWithCache m batchSize _ texts =>
    (VectorCache.embedWithCache contentHash m.embedder batchSize (some cache) texts).1.getD cache
  | .embedBatchCached m batchSize _ texts =>
    (VectorCache.embedBatchCached contentHash m.embedder batchSize (some cache) texts).1.getD cache

/-- The model of the first call that asked for the text; the newest call is at the head. -/
def firstAsked : List (CacheCall dims) → String → Option (Model dims)
  | [], _ => none
  | call :: calls, t =>
    (firstAsked calls t).or (if t ∈ call.texts then some call.model else none)

/-- What each text has after the calls. -/
def provenance (calls : List (CacheCall dims)) : String → Option Embedding :=
  fun t => (firstAsked calls t).map fun first => first.vector t

theorem provenance_cons (call : CacheCall dims) (calls : List (CacheCall dims)) :
    provenance (call :: calls) = served (provenance calls) call.model call.texts := by
  funext t
  unfold provenance served
  dsimp only [firstAsked]
  cases firstAsked calls t with
  | some first => rfl
  | none =>
    rw [Option.none_or, Option.map_none, Option.none_or]
    by_cases ht : t ∈ call.texts
    · rw [if_pos ht, if_pos ht, Option.map_some]
    · rw [if_neg ht, if_neg ht, Option.map_none]

variable {contentHash : String → String}

/-- One call: the texts that had no vector get the one of its model. -/
theorem stepCache_holds (hhash : Function.Injective contentHash) {cache : EmbeddingCache}
    {held : String → Option Embedding} (h : Holds contentHash dims cache held)
    (call : CacheCall dims) :
    Holds contentHash dims (stepCache contentHash cache call)
      (served held call.model call.texts) := by
  cases call with
  | embed m text => exact cachedEmbed_holds hhash m h text
  | embedBatch m texts =>
    obtain ⟨cache', he, hcache'⟩ := cachedEmbedBatch_eq hhash m h texts
    show Holds contentHash dims (cachedEmbedBatch contentHash m.embedder cache texts).1 _
    rw [he]
    exact hcache'
  | embedWithCache m batchSize positive texts =>
    obtain ⟨cache', he, hcache'⟩ := embedWithCache_eq hhash m h positive texts
    show Holds contentHash dims
      ((embedWithCache contentHash m.embedder batchSize (some cache) texts).1.getD cache) _
    rw [he]
    exact hcache'
  | embedBatchCached m batchSize positive texts =>
    obtain ⟨cache', he, hcache'⟩ := embedWithCache_eq hhash m h positive texts
    show Holds contentHash dims
      ((embedBatchCached contentHash m.embedder batchSize (some cache) texts).1.getD cache) _
    rw [embedBatchCached_some, he]
    exact hcache'

/-- After any calls a text has the vector of the first model that was asked for it. -/
theorem calls_hold (hhash : Function.Injective contentHash) (calls : List (CacheCall dims)) :
    Holds contentHash dims (Lts.after (stepCache contentHash) (.empty dims) calls)
      (provenance calls) := by
  refine Lts.run_inv (I := fun calls cache =>
    Holds contentHash dims cache (provenance calls)) ?_ ?_ calls
  · exact Holds.empty contentHash dims
  · intro calls cache call h
    rw [provenance_cons]
    exact stepCache_holds hhash h call

/-- The first model gave each of the texts the vector of this one. -/
def SameVectors (calls : List (CacheCall dims)) (m : Model dims) (texts : List String) : Prop :=
  ∀ t ∈ texts, ∀ first ∈ firstAsked calls t, first.vector t = m.vector t

theorem answer_provenance_iff (calls : List (CacheCall dims)) (m : Model dims)
    (texts : List String) :
    answer (provenance calls) m texts = texts.map m.vector ↔ SameVectors calls m texts := by
  rw [answer_eq_iff]
  refine forall₂_congr fun t _ => ?_
  unfold provenance
  cases firstAsked calls t with
  | none => simp
  | some first => simp

theorem firstAsked_model {calls : List (CacheCall dims)} {m first : Model dims} {t : String}
    (hcalls : ∀ call ∈ calls, call.model = m) (h : first ∈ firstAsked calls t) : first = m := by
  induction calls with
  | nil => cases h
  | cons call calls ih =>
    rw [firstAsked] at h
    rcases Option.or_eq_some_iff.mp h with hold | ⟨_, hnew⟩
    · exact ih (fun c hc => hcalls c (List.mem_cons_of_mem call hc)) hold
    · rw [Option.ite_none_right_eq_some] at hnew
      rw [← Option.some.inj hnew.2]
      exact hcalls call List.mem_cons_self

/-- As long as the model stays the same the cache changes nothing. -/
theorem sameVectors_of_model {calls : List (CacheCall dims)} {m : Model dims}
    (hcalls : ∀ call ∈ calls, call.model = m) (texts : List String) :
    SameVectors calls m texts := by
  intro t _ first hfirst
  rw [firstAsked_model hcalls hfirst]

/-- The three ways return what the configured model computes exactly when, for every text that an
earlier call asked for, the model of the first such call gives the same vector. -/
theorem cache_transparent (hhash : Function.Injective contentHash) (calls : List (CacheCall dims))
    (m : Model dims) {batchSize : Nat} (hsize : 0 < batchSize) (texts : List String) :
    let cache : EmbeddingCache := Lts.after (stepCache contentHash) (.empty dims) calls
    ((cachedEmbedBatch contentHash m.embedder cache texts).2 = .ok (texts.map m.vector) ↔
      SameVectors calls m texts) ∧
    ((embedWithCache contentHash m.embedder batchSize (some cache) texts).2 =
        .ok (texts.map m.vector) ↔ SameVectors calls m texts) ∧
    ((embedBatchCached contentHash m.embedder batchSize (some cache) texts).2 =
        .ok (texts.map m.vector) ↔ SameVectors calls m texts) ∧
    (embedWithCache contentHash m.embedder batchSize none texts).2 = .ok (texts.map m.vector) ∧
    (embedBatchCached contentHash m.embedder batchSize none texts).2 =
      .ok (texts.map m.vector) := by
  intro cache
  have hholds : Holds contentHash dims cache (provenance calls) := calls_hold hhash calls
  have hsame : (Except.ok (answer (provenance calls) m texts) :
      Except EmbeddingError (List Embedding)) = .ok (texts.map m.vector) ↔
        SameVectors calls m texts := by
    rw [Except.ok.injEq]
    exact answer_provenance_iff calls m texts
  obtain ⟨_, hbatch, -⟩ := cachedEmbedBatch_eq hhash m hholds texts
  obtain ⟨_, haround, -⟩ := embedWithCache_eq hhash m hholds hsize texts
  refine ⟨?_, ?_, ?_, embedWithCache_none m hsize texts, embedChunks_eq m hsize texts⟩
  · rw [hbatch]
    exact hsame
  · rw [haround]
    exact hsame
  · rw [embedBatchCached_some, haround]
    exact hsame

end Calls

/-! ## A changed model -/

/-- A model of dimension one. -/
def constantModel (x : F32) : Model 1 := ⟨fun _ => [x], fun _ => rfl⟩

theorem cache_transparent_twice :
    let calls : List (CacheCall 1) := [.embed (constantModel 0) "a"]
    (cachedEmbedBatch id (constantModel 0).embedder
        (Lts.after (stepCache id) (.empty 1) calls) ["a", "b", "a"]).2 =
      .ok [[0], [0], [0]] := by
  intro calls
  have hsame : SameVectors calls (constantModel 0) ["a", "b", "a"] := by
    refine sameVectors_of_model (fun call hcall => ?_) _
    rw [List.mem_singleton.mp hcall]
    rfl
  exact (cache_transparent Function.injective_id calls (constantModel 0) (Nat.one_pos)
    ["a", "b", "a"]).1.mpr hsame

/-- The vector of the old model comes back for the new one, by each of the three ways. -/
theorem cache_transparent_changed :
    let cache := Lts.after (stepCache id) (.empty 1) [.embed (constantModel 0) "a"]
    let new := constantModel 1
    (cachedEmbedBatch id new.embedder cache ["a"]).2 = .ok [[0]] ∧
    (embedWithCache id new.embedder 8 (some cache) ["a"]).2 = .ok [[0]] ∧
    (embedBatchCached id new.embedder 8 (some cache) ["a"]).2 = .ok [[0]] ∧
    ["a"].map new.vector = [[1]] := by
  refine ⟨?_, ?_, ?_, rfl⟩ <;> decide +kernel

end VectorCache

end Arags
