import Arags.Index.Stream
import Arags.Index.Versions
import Arags.Lib.Runs

/-!
# Arags.Index.Digests

The digests in the chunk table: what is stored was computed from some text, over all histories
of index streams.

* `hexDecode_hexEncode`, `hexEncode_inj` — the hexadecimal form loses nothing.
* `indexHistory` — the database after a list of streams, newest first.
* `Hashed` — a property of all stored digests; `indexHistory_hashed` gives it to every history.
-/

namespace Arags

open Sql

/-! ## Hexadecimal -/

theorem hexValue_hexDigit {n : Nat} (h : n < 16) : hexValue (hexDigit n) = some n := by
  have hall : ∀ k : Fin 16, hexValue (hexDigit k) = some k := by decide
  exact hall ⟨n, h⟩

theorem hexDecode_hexEncode (bytes : List UInt8) : hexDecode (hexEncode bytes) = some bytes := by
  unfold hexDecode hexEncode
  rw [String.toList_ofList]
  induction bytes with
  | nil => rfl
  | cons b bytes ih =>
    have hb : b.toNat < 256 := b.toNat_lt
    have hhi : hexValue (hexDigit (b.toNat / 16)) = some (b.toNat / 16) :=
      hexValue_hexDigit (by omega)
    have hlo : hexValue (hexDigit (b.toNat % 16)) = some (b.toNat % 16) :=
      hexValue_hexDigit (by omega)
    have hbyte : UInt8.ofNat (16 * (b.toNat / 16) + b.toNat % 16) = b := by
      rw [Nat.div_add_mod]
      exact UInt8.ofNat_toNat
    rw [List.flatMap_cons, List.cons_append, List.cons_append, List.nil_append]
    simp only [hexBytes, hhi, hlo, ih, hbyte, Option.bind_eq_bind, Option.bind_some]

theorem hexEncode_length (bytes : List UInt8) :
    (hexEncode bytes).toList.length = 2 * bytes.length := by
  unfold hexEncode
  rw [String.toList_ofList]
  induction bytes with
  | nil => rfl
  | cons b bytes ih =>
    rw [List.flatMap_cons, List.length_append, ih]
    simp only [List.length_cons, List.length_nil]
    omega

/-! ## Stored digests -/

/-- Every stored digest satisfies `p`. -/
def Hashed (p : List UInt8 → Prop) (t : SeqTable Chunk) : Prop := ∀ x ∈ t.rows, p x.2.hash

section Rows

variable {p : List UInt8 → Prop} {t : SeqTable Chunk}

theorem Hashed.insert (h : Hashed p t) {r : Chunk} (hr : p r.hash) : Hashed p (t.insert r) := by
  rintro ⟨i, r'⟩ hx
  rcases SeqTable.mem_insert.mp hx with hx | ⟨-, rfl⟩
  · exact h (i, r') hx
  · exact hr

theorem Hashed.retireRow (h : Hashed p t) (i : Int) (by_ : Option Int) :
    Hashed p (retireRow t i by_) := by
  rintro ⟨j, r'⟩ hx
  obtain ⟨r, hr, rfl⟩ := SeqTable.mem_update.mp hx
  dsimp only
  split <;> exact h (j, r) hr

theorem Hashed.retireAll (h : Hashed p t) (ids : List Int) : Hashed p (retireAll t ids) := by
  induction ids generalizing t with
  | nil => exact h
  | cons i ids ih => exact ih (h.retireRow i none)

theorem Hashed.persistAll (scan : ScanOrder Chunk) (b : Int) (active : Snapshot)
    (acc : SeqTable Chunk × BatchedInsert) (h : Hashed p acc.1)
    {items : List (String × IndexedChunk)} (hi : ∀ item ∈ items, p item.2.hashBytes) :
    Hashed p (persistAll scan b active acc items).1 := by
  induction items generalizing acc with
  | nil => exact h
  | cons item items ih =>
    have hitem := hi item List.mem_cons_self
    refine ih _ ?_ fun x hx => hi x (List.mem_cons_of_mem _ hx)
    cases persistChunk_persisted scan b active acc.1 acc.2 item.1 item.2 with
    | unchanged _ _ _ _ ht _ => exact ht ▸ h
    | changed _ _ _ _ ht _ => exact ht ▸ (Hashed.insert h hitem).retireRow _ _
    | fresh _ ht _ => exact ht ▸ Hashed.insert h hitem

end Rows

/-! ## Histories -/

variable (ix : Indexer)

/-- The database after the streams `hist`, newest first. -/
def indexHistory (hist : List (List IndexMsg)) : IndexDb :=
  Lts.after (fun db msgs => (indexStreamLoop ix db msgs).1) IndexDb.empty hist

section Histories

variable {ix} {p : List UInt8 → Prop}

theorem chunksOf_hashBytes {path content : String} :
    ∀ c ∈ ix.chunksOf path content, c.hashBytes = ix.sha256 c.content := by
  intro c hc
  unfold Chunker.chunksOf indexFileWith at hc
  obtain ⟨x, -, rfl⟩ := List.mem_map.mp hc
  simp only [IndexedChunk.hashBytes, hashText, hexDecode_hexEncode, Option.getD_some]

theorem phase1_hashed (hp : ∀ text, p (ix.sha256 text)) {chunks : SeqTable Chunk}
    (h : Hashed p chunks) (b : Int) (path content : String) (st : LoopState) :
    Hashed p (phase1 ix chunks b path content st).1 := by
  unfold phase1
  dsimp only
  split
  · exact h
  · rw [insertChunksBatched_eq]
    refine Hashed.persistAll ix.scan b _ (chunks, .empty) h ?_
    intro item hitem
    obtain ⟨c, hc, rfl⟩ := List.mem_map.mp hitem
    dsimp only
    rw [chunksOf_hashBytes c hc]
    exact hp _

theorem stepMsg_hashed (hp : ∀ text, p (ix.sha256 text)) {db db' : IndexDb} {st st' : LoopState}
    {m : IndexMsg} (h : Hashed p db.chunks) (hm : stepMsg ix db st m = .ok (db', st')) :
    Hashed p db'.chunks := by
  rcases stepMsg_cases hm with ⟨_, _, -, rfl, -⟩ | ⟨path, text, b, -, -, rfl, -⟩ | ⟨-, rfl, -⟩
  · exact h
  · exact phase1_hashed hp h b path text _
  · exact h

theorem runLoop_hashed (hp : ∀ text, p (ix.sha256 text)) {db : IndexDb}
    (h : Hashed p db.chunks) (st : LoopState) (msgs : List IndexMsg) :
    Hashed p (runLoop ix db st msgs).1.chunks := by
  induction msgs generalizing db st with
  | nil => exact h
  | cons m ms ih =>
    rw [runLoop]
    cases hm : stepMsg ix db st m with
    | error e => exact h
    | ok r => exact ih (stepMsg_hashed hp h hm) _

theorem orphanPass_hashed {chunks : SeqTable Chunk} (h : Hashed p chunks) (st : LoopState) :
    Hashed p (orphanPass chunks st) := by
  unfold orphanPass
  cases st.snapshot with
  | none => exact h
  | some snap => exact h.retireAll _

theorem indexStreamLoop_hashed (hp : ∀ text, p (ix.sha256 text)) {db : IndexDb}
    (h : Hashed p db.chunks) (msgs : List IndexMsg) :
    Hashed p (indexStreamLoop ix db msgs).1.chunks := by
  have hrun := runLoop_hashed hp h .start msgs
  unfold indexStreamLoop
  generalize runLoop ix db .start msgs = r at hrun ⊢
  obtain ⟨db', res⟩ := r
  cases res with
  | error e => exact hrun
  | ok st =>
    have hpass := orphanPass_hashed hrun st
    dsimp only [finish]
    split <;> exact hpass

/-- The digests of a history are digests of texts. -/
theorem indexHistory_hashed (hp : ∀ text, p (ix.sha256 text)) (hist : List (List IndexMsg)) :
    Hashed p (indexHistory ix hist).chunks := by
  unfold indexHistory
  refine Lts.run_inv (I := fun _ (db : IndexDb) => Hashed p db.chunks) ?_ ?_ hist
  · intro x hx
    cases hx
  · intro _ db msgs h
    exact indexStreamLoop_hashed hp h msgs

end Histories

end Arags
