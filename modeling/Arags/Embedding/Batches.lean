import Arags.Embedding.MiniLm
import Mathlib.Data.List.Forall2
import Mathlib.Data.List.GetD

/-!
# Arags.Embedding.Batches

The texts of a batch are padded to the longest one. The padding is masked, in the attention of every
layer and in the pooling.

* `forward_pad`  — a layer, on a row and on the same row padded.
* `embedRow_pad` — a text, on its own and in a batch.
* `embedBatch_iff` — a batch gives the embeddings that its texts have one by one.
-/

namespace Arags.Embedding.MiniLm

open Tensors

variable {K : Type} [Scalar K] [LawfulScalar K] {numHeads headDim inner n m : Nat}

/-! ## One row -/

/-- The padding is masked, and something else is not. -/
structure Masked (h : n ≤ m) (mask : Fin n → Nat) (mask' : Fin m → Nat) : Prop where
  pads : Pads h 0 mask mask'
  some : ∃ i, 0 < mask i

theorem uniformWeights_pad {h : n ≤ m} {mask : Fin n → Nat} {mask' : Fin m → Nat}
    (hmask : Masked h mask mask') :
    Pads h 0 (uniformWeights K headDim mask) (uniformWeights K headDim mask') := by
  obtain ⟨i, hi⟩ := hmask.some
  refine softmax_pad (i := i) (hmask.pads.map fun x => maskedFill _ x _) ?_
  rw [maskedFill, if_pos hi]
  exact LawfulScalar.recipSqrt_ne headDim

theorem attention_pad (layer : TransformerLayer K numHeads headDim inner) {h : n ≤ m}
    {mask : Fin n → Nat} {mask' : Fin m → Nat} (hmask : Masked h mask mask')
    {normed : Fin n → Fin (numHeads * headDim) → K}
    {normed' : Fin m → Fin (numHeads * headDim) → K} (hnormed : Extends h normed normed') :
    Extends h (attention layer mask normed) (attention layer mask' normed') := by
  intro i
  rw [attention_eq, attention_eq]
  congr 1
  funext head e
  refine total_mul_pad (uniformWeights_pad hmask) fun j => ?_
  rw [hnormed j]

/-- Every step of a layer but the attention stays within a position. -/
theorem forward_pad (layer : TransformerLayer K numHeads headDim inner) {h : n ≤ m}
    {mask : Fin n → Nat} {mask' : Fin m → Nat} (hmask : Masked h mask mask')
    {hidden : Fin n → Fin (numHeads * headDim) → K}
    {hidden' : Fin m → Fin (numHeads * headDim) → K} (hhidden : Extends h hidden hidden') :
    Extends h (layer.forward mask hidden) (layer.forward mask' hidden') := by
  have hnormed := hhidden.map fun x => layerNorm x layer.attnNormW layer.attnNormB
  intro i
  simp only [TransformerLayer.forward]
  rw [attention_pad layer hmask hnormed i, hhidden i]

theorem layers_pad (layers : List (TransformerLayer K numHeads headDim inner)) {h : n ≤ m}
    {mask : Fin n → Nat} {mask' : Fin m → Nat} (hmask : Masked h mask mask')
    {hidden : Fin n → Fin (numHeads * headDim) → K}
    {hidden' : Fin m → Fin (numHeads * headDim) → K} (hhidden : Extends h hidden hidden') :
    Extends h (layers.foldl (fun hidden layer => layer.forward mask hidden) hidden)
      (layers.foldl (fun hidden layer => layer.forward mask' hidden) hidden') := by
  induction layers generalizing hidden hidden' with
  | nil => exact hhidden
  | cons layer layers ih => exact ih (forward_pad layer hmask hhidden)

omit [LawfulScalar K] in
theorem embedded_pad (model : MiniLmModel K numHeads headDim inner) {h : n ≤ m} {row : Row n}
    {row' : Row m} (hids : Extends h row.ids row'.ids) :
    Extends h (model.embedded row) (model.embedded row') := by
  intro i
  simp only [MiniLmModel.embedded]
  cases model.tokenTypeRow0 <;> simp only [hids i, Fin.val_castLE]

theorem meanPool_pad {h : n ≤ m} {mask : Fin n → Nat} {mask' : Fin m → Nat}
    (hmask : Pads h 0 mask mask') {output : Fin n → Fin (numHeads * headDim) → K}
    {output' : Fin m → Fin (numHeads * headDim) → K} (houtput : Extends h output output') :
    meanPool mask' output' = meanPool mask output := by
  have hcount : Pads h 0 (fun i => (Scalar.ofNat (mask i) : K)) fun i => Scalar.ofNat (mask' i) :=
    LawfulScalar.ofNat_zero (K := K) ▸ hmask.map Scalar.ofNat
  have hsummed : ∀ e, (total fun i => output' i e * Scalar.ofNat (mask' i)) =
      total fun i => output i e * Scalar.ofNat (mask i) := by
    intro e
    refine total_pad (h := h) ⟨fun i => ?_, fun i hi => ?_⟩
    · rw [houtput i, hmask.ext i]
    · rw [hmask.filled i hi, LawfulScalar.ofNat_zero, LawfulScalar.mul_zero]
  simp only [meanPool, hsummed, total_pad hcount]

/-- Where both rows are in range. -/
theorem embedRow_pad (model : MiniLmModel K numHeads headDim inner) {h : n ≤ m} {row : Row n}
    {row' : Row m} (hids : Pads h 0 row.ids row'.ids) (hmask : Masked h row.mask row'.mask)
    (hlen : m ≤ model.positionEmbeddings.length) : embedRow model row' = embedRow model row := by
  have hrange : (∀ i, row'.ids i < model.wordEmbeddings.length) ↔
      ∀ i, row.ids i < model.wordEmbeddings.length := by
    refine ⟨fun hr i => hids.ext i ▸ hr (Fin.castLE h i), fun hr i => ?_⟩
    by_cases hi : i < n
    · exact hids.ext ⟨i, hi⟩ ▸ hr ⟨i, hi⟩
    · obtain ⟨j, _⟩ := hmask.some
      rw [hids.filled i (Nat.le_of_not_lt hi)]
      exact Nat.lt_of_le_of_lt (Nat.zero_le _) (hr j)
  by_cases hr : ∀ i, row.ids i < model.wordEmbeddings.length
  · rw [embedRow, embedRow, MiniLmModel.forward, MiniLmModel.forward,
      if_pos ⟨hrange.mpr hr, hlen⟩, if_pos ⟨hr, h.trans hlen⟩]
    refine congrArg Except.ok (meanPool_pad hmask.pads ?_)
    exact layers_pad model.layers hmask (embedded_pad model hids.ext)
  · rw [embedRow, embedRow, MiniLmModel.forward, MiniLmModel.forward,
      if_neg fun hboth => hr (hrange.mp hboth.1), if_neg fun hboth => hr hboth.1]
    rfl

/-! ## A batch -/

theorem getD_resized (xs : List Nat) {maxLen i : Nat} (hi : i < maxLen) :
    (resized xs maxLen).getD i 0 = xs.getD i 0 := by
  rw [resized]
  by_cases hx : i < xs.length
  · have htake : i < (xs.take maxLen).length := by
      rw [List.length_take]
      omega
    rw [List.getD_append _ _ _ _ htake, List.getD_eq_getElem _ _ htake,
      List.getD_eq_getElem _ _ hx, List.getElem_take]
  · have htake : (xs.take maxLen).length ≤ i := by
      rw [List.length_take]
      omega
    rw [List.getD_append_right _ _ _ _ htake, List.getD_eq_default _ _ (Nat.le_of_not_lt hx)]
    by_cases hpad : i - (xs.take maxLen).length < maxLen - (xs.take maxLen).length
    · rw [List.getD_eq_getElem _ _ (by simpa using hpad), List.getElem_replicate]
    · exact List.getD_eq_default _ _ (by simpa using hpad)

theorem le_maxLenOf {encs : List Encoding} {enc : Encoding} (h : enc ∈ encs) :
    maxLenOf [enc] ≤ maxLenOf encs := by
  have hmem : enc.ids.length ∈ encs.map fun enc => enc.ids.length := List.mem_map_of_mem h
  cases hmax : (encs.map fun enc => enc.ids.length).max? with
  | none =>
    rw [List.max?_eq_none_iff.mp hmax] at hmem
    cases hmem
  | some longest =>
    have hle := (List.max?_eq_some_iff.mp hmax).2 _ hmem
    simp only [maxLenOf, hmax, List.map_cons, List.map_nil, List.max?_singleton, Option.getD_some]
    omega

theorem maxLenOf_attained {encs : List Encoding} (h : encs ≠ []) :
    ∃ enc ∈ encs, maxLenOf encs = maxLenOf [enc] := by
  cases hmax : (encs.map fun enc => enc.ids.length).max? with
  | none => exact absurd (List.map_eq_nil_iff.mp (List.max?_eq_none_iff.mp hmax)) h
  | some longest =>
    obtain ⟨enc, hmem, hlen⟩ := List.mem_map.mp (List.max?_eq_some_iff.mp hmax).1
    refine ⟨enc, hmem, ?_⟩
    simp only [maxLenOf, hmax, hlen, List.map_cons, List.map_nil, List.max?_singleton]

/-- The tokenizer does not mask everything it keeps. -/
def Encoding.Unmasked (enc : Encoding) : Prop :=
  ∃ i, i < MAX_SEQ ∧ 0 < enc.attentionMask.getD i 0

/-- The row of a text on its own, and its row in a batch. -/
theorem paddedRow_pads {xs : List Nat} {len maxLen : Nat} (h : len ≤ maxLen)
    (hlong : xs.length ≤ len ∨ maxLen ≤ len) :
    Pads h 0 (fun i : Fin len => (resized xs len).getD i 0)
      fun i : Fin maxLen => (resized xs maxLen).getD i 0 := by
  refine ⟨fun i => ?_, fun i hi => ?_⟩
  · have hlt := i.isLt
    rw [Fin.val_castLE, getD_resized xs (by omega), getD_resized xs hlt]
  · have hlt := i.isLt
    rw [getD_resized xs hlt]
    exact List.getD_eq_default _ _ (by omega)

theorem embedRow_paddedRow (model : MiniLmModel K numHeads headDim inner) {encs : List Encoding}
    {enc : Encoding} (hmem : enc ∈ encs) (hunmasked : enc.Unmasked)
    (hlen : maxLenOf encs ≤ model.positionEmbeddings.length) :
    embedRow model (paddedRow enc (maxLenOf encs)) =
      embedRow model (paddedRow enc (maxLenOf [enc])) := by
  have hle := le_maxLenOf hmem
  have hown : maxLenOf [enc] = max 1 (min MAX_SEQ enc.ids.length) := rfl
  have hcap : maxLenOf encs ≤ max 1 MAX_SEQ := by
    simp only [maxLenOf]
    omega
  have hmax : MAX_SEQ = 512 := rfl
  have hlong : enc.ids.length ≤ maxLenOf [enc] ∨ maxLenOf encs ≤ maxLenOf [enc] := by omega
  refine embedRow_pad model (h := hle) (paddedRow_pads hle hlong)
    ⟨paddedRow_pads hle (enc.length_mask ▸ hlong), ?_⟩ hlen
  obtain ⟨i, hi, hpos⟩ := hunmasked
  have hilen : i < enc.ids.length := by
    rw [← enc.length_mask]
    by_contra hout
    rw [List.getD_eq_default _ _ (Nat.le_of_not_lt hout)] at hpos
    cases hpos
  have hiown : i < maxLenOf [enc] := by omega
  refine ⟨⟨i, hiown⟩, ?_⟩
  change 0 < (resized enc.attentionMask (maxLenOf [enc])).getD i 0
  rw [getD_resized _ hiown]
  exact hpos

section Results

variable {ε α β γ : Type}

theorem mapM_eq_ok {f : α → Except ε β} {xs : List α} {ys : List β} :
    xs.mapM f = .ok ys ↔ List.Forall₂ (fun x y => f x = .ok y) xs ys := by
  induction xs generalizing ys with
  | nil =>
    rw [List.mapM_nil, List.forall₂_nil_left_iff]
    exact ⟨fun h => (Except.ok.inj h).symm, fun h => congrArg Except.ok h.symm⟩
  | cons x xs ih =>
    rw [List.mapM_cons, List.forall₂_cons_left_iff]
    cases hx : f x with
    | error e => exact ⟨fun h => (by cases h), fun ⟨_, _, h, _⟩ => by cases h⟩
    | ok y =>
      cases hxs : xs.mapM f with
      | error e =>
        refine ⟨fun h => (by cases h), fun ⟨_, ys', _, hys, _⟩ => ?_⟩
        rw [← ih, hxs] at hys
        cases hys
      | ok ys' =>
        refine ⟨fun h => ?_, fun ⟨y', ys'', hy, hys, h⟩ => ?_⟩
        · cases h
          exact ⟨y, ys', rfl, ih.mp hxs, rfl⟩
        · rw [← ih, hxs] at hys
          cases hys
          cases hy
          exact congrArg Except.ok h.symm

/-- Two passes over a list, or one. -/
theorem forall₂_comp {R : α → β → Prop} {S : β → γ → Prop} {xs : List α} {zs : List γ} :
    (∃ ys, List.Forall₂ R xs ys ∧ List.Forall₂ S ys zs) ↔
      List.Forall₂ (fun x z => ∃ y, R x y ∧ S y z) xs zs := by
  constructor
  · rintro ⟨ys, hxs, hys⟩
    induction hxs generalizing zs with
    | nil =>
      cases hys
      exact .nil
    | cons hx _ ih =>
      cases hys with
      | cons hy hys => exact .cons ⟨_, hx, hy⟩ (ih hys)
  · intro h
    induction h with
    | nil => exact ⟨[], .nil, .nil⟩
    | cons hz _ ih =>
      obtain ⟨y, hx, hy⟩ := hz
      obtain ⟨ys, hxs, hys⟩ := ih
      exact ⟨y :: ys, .cons hx hxs, .cons hy hys⟩

theorem exists_of_forall₂ {R : α → β → Prop} {xs : List α} {ys : List β}
    (h : List.Forall₂ R xs ys) {x : α} (hx : x ∈ xs) : ∃ y ∈ ys, R x y := by
  induction h with
  | nil => cases hx
  | cons hy _ ih =>
    rcases List.mem_cons.mp hx with rfl | hx
    · exact ⟨_, List.mem_cons_self, hy⟩
    · obtain ⟨y, hmem, hr⟩ := ih hx
      exact ⟨y, List.mem_cons_of_mem _ hmem, hr⟩

theorem forall₂_mem {R : α → β → Prop} {xs : List α} {ys : List β} (h : List.Forall₂ R xs ys) :
    List.Forall₂ (fun x y => x ∈ xs ∧ R x y) xs ys :=
  (List.forall₂_and_left xs ys).mpr ⟨fun _ hx => hx, h⟩

end Results

section Embedder

variable (model : MiniLmModel K numHeads headDim inner)
variable (tokenizer : String → Except String Encoding)

omit [LawfulScalar K] in
theorem embedRow_len {row : Row n} {v : Fin (numHeads * headDim) → K}
    (h : embedRow model row = .ok v) : n ≤ model.positionEmbeddings.length := by
  rw [embedRow, MiniLmModel.forward] at h
  split at h
  · rename_i hrange
    exact hrange.2
  · cases h

theorem encoded_eq_ok {text : String} {enc : Encoding} :
    encoded tokenizer text = .ok enc ↔ tokenizer text = .ok enc := by
  unfold encoded
  cases tokenizer text <;> simp

theorem encodings_eq_ok {texts : List String} {encs : List Encoding} :
    texts.mapM (encoded tokenizer) = .ok encs ↔
      List.Forall₂ (fun text enc => tokenizer text = .ok enc) texts encs := by
  simp only [mapM_eq_ok, encoded_eq_ok]

omit [LawfulScalar K] in
theorem embedRows_eq_ok {texts : List String} {vs : List (Fin (numHeads * headDim) → K)} :
    embedRows model tokenizer texts = .ok vs ↔
      ∃ encs, List.Forall₂ (fun text enc => tokenizer text = .ok enc) texts encs ∧
        List.Forall₂ (fun enc v => embedRow model (paddedRow enc (maxLenOf encs)) = .ok v)
          encs vs := by
  rw [embedRows]
  cases hencs : texts.mapM (encoded tokenizer) with
  | error e =>
    refine ⟨fun h => (by cases h), ?_⟩
    rintro ⟨encs, hall, -⟩
    rw [← encodings_eq_ok, hencs] at hall
    cases hall
  | ok encs =>
    refine ⟨fun h => ⟨encs, (encodings_eq_ok tokenizer).mp hencs, mapM_eq_ok.mp h⟩, ?_⟩
    rintro ⟨encs', hall, hrows⟩
    rw [← encodings_eq_ok, hencs] at hall
    cases hall
    exact mapM_eq_ok.mpr hrows

omit [LawfulScalar K] in
theorem embed_eq_ok {text : String} {v : Fin (numHeads * headDim) → K} :
    embed model tokenizer text = .ok v ↔
      ∃ enc, tokenizer text = .ok enc ∧
        embedRow model (paddedRow enc (maxLenOf [enc])) = .ok v := by
  have hrows : embed model tokenizer text = .ok v ↔ embedRows model tokenizer [text] = .ok [v] := by
    rw [embed]
    cases hvs : embedRows model tokenizer [text] with
    | error e => exact ⟨fun h => (by cases h), fun h => by cases h⟩
    | ok vs =>
      rcases vs with _ | ⟨v', _ | _⟩
      · exact ⟨fun h => (by cases h), fun h => by cases h⟩
      · refine ⟨fun h => ?_, fun h => ?_⟩
        · cases h
          rfl
        · cases h
          rfl
      · exact ⟨fun h => (by cases h), fun h => by cases h⟩
  rw [hrows, embedRows_eq_ok]
  constructor
  · rintro ⟨encs, hall, hvs⟩
    cases hall with
    | cons htext hnil =>
      cases hnil
      cases hvs with
      | cons hrow _ => exact ⟨_, htext, hrow⟩
  · rintro ⟨enc, htext, hrow⟩
    exact ⟨[enc], .cons htext .nil, .cons hrow .nil⟩

/-- A batch succeeds where each of its texts does, and gives the embeddings that they have one by
one. -/
theorem embedBatch_iff {texts : List String}
    (hunmasked : ∀ text ∈ texts, ∀ enc, tokenizer text = .ok enc → enc.Unmasked)
    {vs : List (Fin (numHeads * headDim) → K)} :
    embedBatch model tokenizer texts = .ok vs ↔
      texts.mapM (embed model tokenizer) = .ok vs := by
  rw [mapM_eq_ok]
  simp only [embed_eq_ok]
  rw [← forall₂_comp]
  cases texts with
  | nil =>
    refine ⟨fun h => ?_, fun ⟨encs, hall, hvs⟩ => ?_⟩
    · cases h
      exact ⟨[], .nil, .nil⟩
    · cases hall
      cases hvs
      rfl
  | cons text texts =>
    rw [embedBatch, if_neg (by simp), embedRows_eq_ok]
    refine exists_congr fun encs => and_congr_right fun hall => ?_
    have henc : ∀ enc ∈ encs, enc.Unmasked := by
      intro enc henc
      obtain ⟨t, ht, htok⟩ := exists_of_forall₂ hall.flip henc
      exact hunmasked t ht enc htok
    have hne : encs ≠ [] := by
      rintro rfl
      cases hall
    refine ⟨fun h => ?_, fun h => ?_⟩
    · obtain ⟨enc, hmem⟩ := List.exists_mem_of_ne_nil encs hne
      obtain ⟨v, _, hv⟩ := exists_of_forall₂ h hmem
      have hlen := embedRow_len model hv
      exact (forall₂_mem h).imp fun enc v hv =>
        embedRow_paddedRow model hv.1 (henc enc hv.1) hlen ▸ hv.2
    · obtain ⟨enc, hmem, hmax⟩ := maxLenOf_attained hne
      obtain ⟨v, _, hv⟩ := exists_of_forall₂ h hmem
      have hlen := embedRow_len model hv
      rw [← hmax] at hlen
      exact (forall₂_mem h).imp fun enc v hv =>
        (embedRow_paddedRow model hv.1 (henc enc hv.1) hlen).trans hv.2

end Embedder

theorem embedBatch_iff_planar :
    ∃ vs, embedBatch planar lettered ["a", "ab"] = .ok vs ∧
      ["a", "ab"].mapM (embed planar lettered) = .ok vs := by
  refine ⟨_, rfl, (embedBatch_iff planar lettered ?_).mp rfl⟩
  intro text _ enc henc
  cases henc
  refine ⟨0, by decide, ?_⟩
  split <;> decide

end Arags.Embedding.MiniLm
