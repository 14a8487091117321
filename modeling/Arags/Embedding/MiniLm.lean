import Arags.Lib.Tensors
import Mathlib.Logic.Equiv.Fin.Basic

/-!
# Arags.Embedding.MiniLm

The encoder of `minilm/model.rs` with the arithmetic of `common/ops.rs`, and the embedder over it,
`minilm/embedder.rs`. The rows of a batch go through the encoder side by side. The numbers are those
of any arithmetic; a projection is a function on the vectors.

* `TransformerLayer.forward`, `MiniLmModel.forward`, `embedBatch`.
* `attention_eq`  — the scores of a layer are constant: its weights are those of the mask alone.
* `queries_and_keys_unused` — what the embeddings therefore do not depend on.
-/

namespace Arags.Embedding.MiniLm

open Tensors

/-! ## `ops.rs` -/

section Ops

variable {K : Type} [Scalar K] {n : Nat}

def layerNorm (x w b : Fin n → K) : Fin n → K :=
  let mean := Tensors.mean x
  let var := Tensors.mean fun e => Scalar.powf (x e - mean) 2
  let std := Scalar.sqrt (var + Scalar.lit (1 / 100000))
  fun e => (x e - mean) / std * w e + b e

def gelu (x : K) : K :=
  let inner := (x + Scalar.lit (44715 / 1000000) * Scalar.powf x 3) *
    Scalar.lit (7978846 / 10000000)
  (Scalar.lit 1 + Scalar.tanh inner) * Scalar.lit (1 / 2) * x

/-- The mask holds `u32` values. -/
def maskedFill (x : K) (mask : Nat) (fillVal : K) : K := if 0 < mask then x else fillVal

end Ops

/-! ## `model.rs` -/

/-- The projections are the full-precision or the quantized ones, with their bias. -/
structure TransformerLayer (K : Type) (numHeads headDim inner : Nat) where
  attnQ : (Fin (numHeads * headDim) → K) → Fin (numHeads * headDim) → K
  attnK : (Fin (numHeads * headDim) → K) → Fin (numHeads * headDim) → K
  attnV : (Fin (numHeads * headDim) → K) → Fin (numHeads * headDim) → K
  attnO : (Fin (numHeads * headDim) → K) → Fin (numHeads * headDim) → K
  attnNormW : Fin (numHeads * headDim) → K
  attnNormB : Fin (numHeads * headDim) → K
  ffnIn : (Fin (numHeads * headDim) → K) → Fin inner → K
  ffnOut : (Fin inner → K) → Fin (numHeads * headDim) → K
  ffnNormW : Fin (numHeads * headDim) → K
  ffnNormB : Fin (numHeads * headDim) → K

structure MiniLmModel (K : Type) (numHeads headDim inner : Nat) where
  wordEmbeddings : List (Fin (numHeads * headDim) → K)
  positionEmbeddings : List (Fin (numHeads * headDim) → K)
  tokenTypeRow0 : Option (Fin (numHeads * headDim) → K)
  embedNormW : Fin (numHeads * headDim) → K
  embedNormB : Fin (numHeads * headDim) → K
  layers : List (TransformerLayer K numHeads headDim inner)

/-- A text of a batch: its token ids and its mask. -/
structure Row (seqLen : Nat) where
  ids : Fin seqLen → Nat
  mask : Fin seqLen → Nat

inductive InferenceError where
  | tokenizer (message : String)
  /-- The text is that of the tensor library. -/
  | candle
  deriving DecidableEq, Repr

section Model

variable {K : Type} [Scalar K] {numHeads headDim inner seqLen : Nat}

/-- The reshape to `[S, heads, head_dim]`. -/
def split (x : Fin (numHeads * headDim) → K) (h : Fin numHeads) (e : Fin headDim) : K :=
  x (finProdFinEquiv (h, e))

def merge (x : Fin numHeads → Fin headDim → K) (i : Fin (numHeads * headDim)) : K :=
  x (finProdFinEquiv.symm i).1 (finProdFinEquiv.symm i).2

variable (layer : TransformerLayer K numHeads headDim inner) (mask : Fin seqLen → Nat)

/-- `q.matmul(&k_t)` and then `.affine(0.0, 1.0 / scale)`. -/
def scores (normed : Fin seqLen → Fin (numHeads * headDim) → K) (h : Fin numHeads)
    (i j : Fin seqLen) : K :=
  affine (total fun e => split (layer.attnQ (normed i)) h e * split (layer.attnK (normed j)) h e) 0
    (Scalar.recipSqrt headDim)

def attention (normed : Fin seqLen → Fin (numHeads * headDim) → K) (i : Fin seqLen) :
    Fin (numHeads * headDim) → K :=
  merge fun h e =>
    let weights := softmax fun j => maskedFill (scores layer normed h i j) (mask j) Scalar.negInf
    total fun j => weights j * split (layer.attnV (normed j)) h e

def TransformerLayer.forward (hidden : Fin seqLen → Fin (numHeads * headDim) → K) :
    Fin seqLen → Fin (numHeads * headDim) → K :=
  let normed := fun i => layerNorm (hidden i) layer.attnNormW layer.attnNormB
  let attnOut := fun i => layer.attnO (attention layer mask normed i)
  let hidden := fun i e => hidden i e + attnOut i e
  let normed := fun i => layerNorm (hidden i) layer.ffnNormW layer.ffnNormB
  let ffn := fun i => layer.ffnOut fun k => gelu (layer.ffnIn (normed i) k)
  fun i e => hidden i e + ffn i e

variable (model : MiniLmModel K numHeads headDim inner)

/-- What goes into the first layer. -/
def MiniLmModel.embedded (row : Row seqLen) :
    Fin seqLen → Fin (numHeads * headDim) → K :=
  let hidden := fun (i : Fin seqLen) e => model.wordEmbeddings.getD (row.ids i) (fun _ => 0) e +
    model.positionEmbeddings.getD i (fun _ => 0) e
  let hidden := match model.tokenTypeRow0 with
    | some tt0 => fun i e => hidden i e + tt0 e
    | none => hidden
  fun i => layerNorm (hidden i) model.embedNormW model.embedNormB

/-- An id or a position that its table does not have is an error. -/
def MiniLmModel.forward (row : Row seqLen) :
    Except InferenceError (Fin seqLen → Fin (numHeads * headDim) → K) :=
  if (∀ i, row.ids i < model.wordEmbeddings.length) ∧ seqLen ≤ model.positionEmbeddings.length then
    .ok (model.layers.foldl (fun hidden layer => layer.forward row.mask hidden)
      (model.embedded row))
  else .error .candle

/-! ## `embedder.rs` -/

def MAX_SEQ : Nat := 512

/-- What the tokenizer makes of a text. -/
structure Encoding where
  ids : List Nat
  attentionMask : List Nat
  length_mask : attentionMask.length = ids.length

/-- `truncate` and `resize`. -/
def resized (xs : List Nat) (maxLen : Nat) : List Nat :=
  xs.take maxLen ++ List.replicate (maxLen - (xs.take maxLen).length) 0

def paddedRow (enc : Encoding) (maxLen : Nat) : Row maxLen where
  ids i := (resized enc.ids maxLen).getD i 0
  mask i := (resized enc.attentionMask maxLen).getD i 0

def maxLenOf (encodings : List Encoding) : Nat :=
  max 1 (min MAX_SEQ ((encodings.map fun enc => enc.ids.length).max?.getD 1))

variable (tokenizer : String → Except String Encoding)

def encoded (text : String) : Except InferenceError Encoding :=
  match tokenizer text with
  | .ok enc => .ok enc
  | .error e => .error (.tokenizer ("encode failed: " ++ e))

def meanPool (output : Fin seqLen → Fin (numHeads * headDim) → K) :
    Fin (numHeads * headDim) → K :=
  let summed := fun e => total fun i => output i e * Scalar.ofNat (mask i)
  let maskSum := Scalar.maximum (total fun i => Scalar.ofNat (mask i)) (Scalar.lit (1 / 1000000000))
  let pooled := fun e => summed e / maskSum
  let norm := Scalar.maximum (Scalar.sqrt (total fun e => pooled e * pooled e))
    (Scalar.lit (1 / 1000000000000))
  fun e => pooled e / norm

def embedRow (row : Row seqLen) : Except InferenceError (Fin (numHeads * headDim) → K) :=
  (model.forward row).map (meanPool row.mask)

/-- `prepare_inputs`, the encoder and the pooling. -/
def embedRows (texts : List String) : Except InferenceError (List (Fin (numHeads * headDim) → K)) :=
  do
    let encs ← texts.mapM (encoded tokenizer)
    encs.mapM fun enc => embedRow model (paddedRow enc (maxLenOf encs))

def embed (text : String) : Except InferenceError (Fin (numHeads * headDim) → K) := do
  match ← embedRows model tokenizer [text] with
  | [embedding] => .ok embedding
  | _ => .error .candle

def embedBatch (texts : List String) :
    Except InferenceError (List (Fin (numHeads * headDim) → K)) :=
  if texts.isEmpty then .ok [] else embedRows model tokenizer texts

end Model

/-! ## Attention -/

section Attention

variable {K : Type} [Scalar K] [LawfulScalar K] {numHeads headDim inner seqLen : Nat}

theorem scores_eq (layer : TransformerLayer K numHeads headDim inner)
    (normed : Fin seqLen → Fin (numHeads * headDim) → K) (h : Fin numHeads) (i j : Fin seqLen) :
    scores layer normed h i j = Scalar.recipSqrt headDim :=
  LawfulScalar.mul_zero_add _ _

/-- The weights of a layer, for every head and every query. -/
def uniformWeights (K : Type) [Scalar K] (headDim : Nat) (mask : Fin seqLen → Nat) :
    Fin seqLen → K :=
  softmax fun j => maskedFill (Scalar.recipSqrt headDim) (mask j) Scalar.negInf

/-- A position adds the same to its state as every other one. -/
theorem attention_eq (layer : TransformerLayer K numHeads headDim inner) (mask : Fin seqLen → Nat)
    (normed : Fin seqLen → Fin (numHeads * headDim) → K) (i : Fin seqLen) :
    attention layer mask normed i = merge fun h e =>
      total fun j => uniformWeights K headDim mask j * split (layer.attnV (normed j)) h e := by
  simp only [attention, scores_eq, uniformWeights]

/-- The model with other query and key projections, those of each layer by its number. -/
def MiniLmModel.withQueriesKeys (model : MiniLmModel K numHeads headDim inner)
    (q k : Nat → (Fin (numHeads * headDim) → K) → Fin (numHeads * headDim) → K) :
    MiniLmModel K numHeads headDim inner :=
  { model with
    layers := model.layers.mapIdx fun i layer => { layer with attnQ := q i, attnK := k i } }

theorem forward_queries_keys (layer : TransformerLayer K numHeads headDim inner)
    (q k : (Fin (numHeads * headDim) → K) → Fin (numHeads * headDim) → K)
    (mask : Fin seqLen → Nat) (hidden : Fin seqLen → Fin (numHeads * headDim) → K) :
    TransformerLayer.forward { layer with attnQ := q, attnK := k } mask hidden =
      layer.forward mask hidden := by
  simp only [TransformerLayer.forward, attention_eq]

theorem foldl_queries_keys (layers : List (TransformerLayer K numHeads headDim inner))
    (q k : Nat → (Fin (numHeads * headDim) → K) → Fin (numHeads * headDim) → K)
    (mask : Fin seqLen → Nat) (hidden : Fin seqLen → Fin (numHeads * headDim) → K) :
    (layers.mapIdx fun i layer => { layer with attnQ := q i, attnK := k i }).foldl
        (fun hidden layer => layer.forward mask hidden) hidden =
      layers.foldl (fun hidden layer => layer.forward mask hidden) hidden := by
  induction layers generalizing q k hidden with
  | nil => rfl
  | cons layer layers ih =>
    rw [List.mapIdx_cons, List.foldl_cons, List.foldl_cons, forward_queries_keys]
    exact ih (fun i => q (i + 1)) (fun i => k (i + 1)) _

theorem embedRow_queries_keys (model : MiniLmModel K numHeads headDim inner)
    (q k : Nat → (Fin (numHeads * headDim) → K) → Fin (numHeads * headDim) → K)
    (row : Row seqLen) : embedRow (model.withQueriesKeys q k) row = embedRow model row := by
  have hforward : (model.withQueriesKeys q k).forward row = model.forward row := by
    unfold MiniLmModel.forward
    congr 2
    exact foldl_queries_keys model.layers q k row.mask _
  rw [embedRow, hforward, embedRow]

/-- The embeddings do not depend on the query and key projections of any layer. -/
theorem queries_and_keys_unused (model : MiniLmModel K numHeads headDim inner)
    (q k : Nat → (Fin (numHeads * headDim) → K) → Fin (numHeads * headDim) → K)
    (tokenizer : String → Except String Encoding) :
    (∀ texts, embedBatch (model.withQueriesKeys q k) tokenizer texts =
        embedBatch model tokenizer texts) ∧
      ∀ text, embed (model.withQueriesKeys q k) tokenizer text = embed model tokenizer text := by
  have hrows : ∀ texts, embedRows (model.withQueriesKeys q k) tokenizer texts =
      embedRows model tokenizer texts := by
    intro texts
    simp only [embedRows, embedRow_queries_keys]
  refine ⟨fun texts => ?_, fun text => ?_⟩
  · rw [embedBatch, hrows, embedBatch]
  · rw [embed, hrows, embed]

/-- Two dimensions, three tokens, two positions. -/
noncomputable def planar : MiniLmModel EReal 1 2 1 where
  wordEmbeddings :=
    [fun _ => Scalar.ofNat 1, fun i => Scalar.ofNat i.val, fun i => Scalar.ofNat (1 - i.val)]
  positionEmbeddings := [fun _ => Scalar.ofNat 0, fun i => Scalar.ofNat i.val]
  tokenTypeRow0 := none
  embedNormW _ := Scalar.ofNat 1
  embedNormB _ := Scalar.ofNat 0
  layers := [{
    attnQ := id
    attnK := id
    attnV := id
    attnO := id
    attnNormW := fun _ => Scalar.ofNat 1
    attnNormB := fun _ => Scalar.ofNat 0
    ffnIn := fun x _ => total x
    ffnOut := fun x _ => total x
    ffnNormW := fun _ => Scalar.ofNat 1
    ffnNormB := fun _ => Scalar.ofNat 0 }]

def lettered (text : String) : Except String Encoding :=
  .ok (if text = "ab" then ⟨[1, 2], [1, 1], rfl⟩ else ⟨[1], [1], rfl⟩)

theorem queries_and_keys_unused_planar :
    ∃ v, embed planar lettered "ab" = .ok v ∧
      embed (planar.withQueriesKeys (fun _ _ => planar.embedNormB) fun _ x => x) lettered "ab" =
        .ok v :=
  ⟨_, rfl, (queries_and_keys_unused planar (fun _ _ => planar.embedNormB) (fun _ x => x)
    lettered).2 "ab"⟩

end Attention

end Arags.Embedding.MiniLm
