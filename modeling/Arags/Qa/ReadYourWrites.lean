import Arags.Qa.AnswerHistory
import Arags.Qa.ServeGate

/-!
# Arags.Qa.ReadYourWrites

An answer that has been stored, and the lookup of its question afterwards. Answers are stored by
project, buffer and question, and looked up by project and question.

* `Touches`        — the operation supersedes, deletes or marks the row.
* `HoldsAnswer`    — the row has the answer, fresh and live; `holds_step` keeps it.
* `Unrivalled`     — no other buffer of the project has a fresh answer to the question.
* `read_your_writes` — the lookup returns the answer, in whichever order the engine scans, exactly
  when it is unrivalled.
-/

namespace Arags

open Sql Chains

/-! ## The property -/

/-- The row without its access counters. -/
def QaCacheRow.answer (r : QaCacheRow) : QaCacheRow :=
  { r with accessCount := 0, lastAccessedAt := r.createdAt }

/-- The row is marked by the hashes of a change. -/
def QaCacheRow.hitBy (r : QaCacheRow) (bufferId : Int) (changedHashes : List String) : Bool :=
  r.bufferId == some bufferId && !r.stale && r.sourceHashes.any changedHashes.contains

/-- The row cites a hash that the buffer does not have. -/
def QaCacheRow.misses (r : QaCacheRow) (bufferId : Int) (current : List String) : Bool :=
  r.bufferId == some bufferId && !current.isEmpty &&
    r.sourceHashes.any fun h => !current.contains h

/-- The operation stores, deletes, evicts or invalidates the answer of this row. -/
def Touches (t : Table QaCacheRow) (id : Int) : AnswerTableOp → Prop
  | .store _ input _ _ => (t.get? id).any (fun r => r.answers input) = true
  | .delete i => i = id
  | .evict order project maxEntries => id ∈ evictIds order t project maxEntries
  | .markStale _ i _ _ => i = id
  | .markByHashes bufferId changedHashes =>
    (t.get? id).any (fun r => r.hitBy bufferId changedHashes) = true
  | .invalidate _ _ chunks bufferId =>
    (t.get? id).any (fun r => r.misses bufferId (chunkHashesForBuffer chunks bufferId)) = true
  | .touch .. => False
  | .pending _ => False

instance decidableTouches (t : Table QaCacheRow) (id : Int) : ∀ op, Decidable (Touches t id op)
  | .store _ input _ _ =>
    inferInstanceAs (Decidable ((t.get? id).any (fun r => r.answers input) = true))
  | .delete i => inferInstanceAs (Decidable (i = id))
  | .evict order project maxEntries =>
    inferInstanceAs (Decidable (id ∈ evictIds order t project maxEntries))
  | .markStale _ i _ _ => inferInstanceAs (Decidable (i = id))
  | .markByHashes bufferId changedHashes =>
    inferInstanceAs (Decidable ((t.get? id).any (fun r => r.hitBy bufferId changedHashes) = true))
  | .invalidate _ _ chunks bufferId => inferInstanceAs (Decidable ((t.get? id).any
      (fun r => r.misses bufferId (chunkHashesForBuffer chunks bufferId)) = true))
  | .touch .. => inferInstanceAs (Decidable False)
  | .pending _ => inferInstanceAs (Decidable False)

/-- The lookup returns the row with this answer, however the engine orders the rows that match:
the query has no `ORDER BY`. -/
def Returns (t : Table QaCacheRow) (project questionHash : String) (id : Int)
    (answer : QaCacheRow) : Prop :=
  ∀ scan, (getCachedAnswer scan t project questionHash).map (fun x => (x.1, x.2.answer)) =
    some (id, answer)

/-- Only this buffer has a fresh live answer to the question. -/
def Unrivalled (t : Table QaCacheRow) (project questionHash : String) (bufferId : Option Int) :
    Prop :=
  ∀ x ∈ t.rows, x.2.project = project → x.2.questionHash = questionHash →
    x.2.isActive = true → x.2.stale = false → x.2.bufferId = bufferId

instance (t : Table QaCacheRow) (project questionHash : String) (bufferId : Option Int) :
    Decidable (Unrivalled t project questionHash bufferId) :=
  inferInstanceAs (Decidable (∀ x ∈ t.rows, x.2.project = project →
    x.2.questionHash = questionHash → x.2.isActive = true → x.2.stale = false →
      x.2.bufferId = bufferId))

/-! ## The row after an operation -/

/-- The row has the answer, whatever its counters are. -/
def HoldsAnswer (t : Table QaCacheRow) (id : Int) (answer : QaCacheRow) : Prop :=
  ∃ r, t.get? id = some r ∧ r.answer = answer

section Rows

variable {t : Table QaCacheRow} {id : Int}

/-- A stored answer leaves every row alone that is not the live revision of its question. -/
theorem get?_storeAnswer (scan : ScanOrder QaCacheRow) {input : StoreAnswerInput}
    {r : QaCacheRow} (hr : t.get? id = some r) (hne : r.answers input = false)
    (cacheId : String) (now : Int) :
    (storeAnswer scan t input cacheId now).1.get? id = some r := by
  have hold : id ≠ t.nextId := Int.ne_of_lt (Table.lt_nextId (Table.get?_eq_some.mp hr))
  unfold storeAnswer
  cases hs : (scan.order (t.select fun _ r => r.answers input)).head? with
  | none =>
    dsimp only
    rw [Table.get?_insert, if_neg hold, hr]
  | some old =>
    obtain ⟨oldId, row⟩ := old
    obtain ⟨hm, hans⟩ := Table.mem_select.mp (scan.mem_order.mp (List.mem_of_head? hs))
    have hother : id ≠ oldId := by
      rintro rfl
      rw [Table.get?_eq_some.mpr hm, Option.some.injEq] at hr
      rw [← hr, hans] at hne
      cases hne
    dsimp only
    rw [Table.get?_update, Table.get?_insert, nextId_update, if_neg hold, Table.get?_update, hr]
    simp [hother]

/-- The new answer is in the row that is returned. -/
theorem get?_stored (scan : ScanOrder QaCacheRow) (t : Table QaCacheRow)
    (input : StoreAnswerInput) (cacheId : String) (now : Int) : ∃ version,
    (storeAnswer scan t input cacheId now).1.get? (storeAnswer scan t input cacheId now).2 =
      some (input.row cacheId version now) := by
  unfold storeAnswer
  cases hs : (scan.order (t.select fun _ r => r.answers input)).head? with
  | none => exact ⟨1, by dsimp only; rw [Table.get?_insert, if_pos rfl]⟩
  | some old =>
    obtain ⟨oldId, row⟩ := old
    obtain ⟨hm, -⟩ := Table.mem_select.mp (scan.mem_order.mp (List.mem_of_head? hs))
    have hne : t.nextId ≠ oldId := Ne.symm (Int.ne_of_lt (Table.lt_nextId hm))
    refine ⟨row.version + 1, ?_⟩
    dsimp only
    rw [Table.get?_update, Table.get?_insert, if_pos rfl, nextId_update]
    simp [hne]

theorem get?_deleteAll {ids : List Int} (h : id ∉ ids) :
    (ids.foldl deleteQa t).get? id = t.get? id := by
  induction ids generalizing t with
  | nil => rfl
  | cons i ids ih =>
    simp only [List.mem_cons, not_or] at h
    rw [List.foldl_cons, ih h.2, deleteQa, Table.get?_delete]
    have hne : (id == i) = false := beq_eq_false_iff_ne.mpr h.1
    cases t.get? id with
    | none => rfl
    | some r => simp [hne]

/-- A row that misses none of its hashes is not marked. -/
theorem get?_invalidate {scan : ScanOrder QaCacheRow} {chunks : SeqTable Chunk} {b now : Int}
    {r : QaCacheRow} (hr : t.get? id = some r)
    (h : r.misses b (chunkHashesForBuffer chunks b) = false) :
    (invalidateStaleCacheForBuffer scan chunks t b now).get? id = some r := by
  unfold invalidateStaleCacheForBuffer
  dsimp only
  split
  · exact hr
  · rename_i hne
    have hlisted : ∀ x ∈ listQaHashesForBuffer scan t b, x.1 = id →
        (x.2.any fun h => !(chunkHashesForBuffer chunks b).contains h) = false := by
      intro x hx hid
      obtain ⟨⟨i, s⟩, hm, rfl⟩ := List.mem_map.mp hx
      obtain ⟨hs, hb⟩ := Table.mem_select.mp (scan.mem_order.mp hm)
      dsimp only at hid
      subst hid
      rw [Table.get?_eq_some.mpr hs, Option.some.injEq] at hr
      subst hr
      simpa [QaCacheRow.misses, hb, hne] using h
    generalize listQaHashesForBuffer scan t b = rows at hlisted
    induction rows generalizing t with
    | nil => exact hr
    | cons x rows ih =>
      refine ih ?_ fun y hy => hlisted y (List.mem_cons_of_mem x hy)
      dsimp only
      split
      · rename_i hmiss
        have hid : id ≠ x.1 := by
          intro hid
          rw [hlisted x List.mem_cons_self hid.symm] at hmiss
          cases hmiss
        rw [get?_markQaStale, hr]
        simp [hid]
      · exact hr

end Rows

/-- What does not touch the answer keeps it. -/
theorem holds_step {s : AnswerTables} {id : Int} {answer : QaCacheRow}
    (h : HoldsAnswer s.qa id answer) {op : AnswerTableOp} (hop : ¬ Touches s.qa id op) :
    HoldsAnswer (stepAnswerTables s op).qa id answer := by
  obtain ⟨r, hr, hanswer⟩ := h
  cases op with
  | store scan input cacheId now =>
    simp only [Touches, hr, Option.any_some, Bool.not_eq_true] at hop
    exact ⟨r, get?_storeAnswer scan hr hop cacheId now, hanswer⟩
  | delete i =>
    have hne : id ≠ i := fun he => hop he.symm
    refine ⟨r, ?_, hanswer⟩
    simp only [stepAnswerTables, deleteQa]
    rw [Table.get?_delete]
    simp [hne, hr]
  | evict order project maxEntries =>
    refine ⟨r, ?_, hanswer⟩
    simp only [stepAnswerTables, evictQa]
    rw [get?_deleteAll hop, hr]
  | markStale m i by_ reason =>
    have hne : id ≠ i := fun he => hop he.symm
    refine ⟨r, ?_, hanswer⟩
    simp only [stepAnswerTables, AnswerTables.markStale]
    rw [get?_markQaStale, hr]
    simp [hne]
  | markByHashes bufferId changedHashes =>
    simp only [Touches, hr, Option.any_some, Bool.not_eq_true] at hop
    refine ⟨r, ?_, hanswer⟩
    simp only [stepAnswerTables, markStaleByHashes]
    split
    · exact hr
    · rw [QaCacheRow.hitBy] at hop
      rw [Table.get?_update, hr]
      simp only [Option.map_some, hop, Bool.false_eq_true, if_false]
  | invalidate scan m chunks bufferId =>
    simp only [Touches, hr, Option.any_some, Bool.not_eq_true] at hop
    refine ⟨r, ?_, hanswer⟩
    simp only [stepAnswerTables]
    rw [invalidate_qa]
    exact get?_invalidate hr hop
  | touch i now =>
    simp only [stepAnswerTables, HoldsAnswer, get?_touchQa, hr, Option.map_some,
      Option.some.injEq]
    refine ⟨_, rfl, ?_⟩
    split
    · exact hanswer
    · exact hanswer
  | pending op => exact ⟨r, hr, hanswer⟩

theorem holds_run {s : AnswerTables} {id : Int} {answer : QaCacheRow}
    (h : HoldsAnswer s.qa id answer) {later : List AnswerTableOp}
    (hlater : Lts.Always stepAnswerTables s (fun _ s op => ¬ Touches s.qa id op) later) :
    HoldsAnswer (Lts.after stepAnswerTables s later).qa id answer :=
  Lts.guarded_inv (I := fun _ (s : AnswerTables) => HoldsAnswer s.qa id answer) h
    (fun _ _ _ hs hop => holds_step hs hop) later hlater

/-! ## The lookup -/

/-- An engine that comes upon this row first. -/
def scanFrom (x : Int × QaCacheRow) : ScanOrder QaCacheRow where
  order l := if x ∈ l then x :: l.erase x else l
  perm l := by
    split
    · rename_i hx
      exact (List.perm_cons_erase hx).symm
    · exact .refl l

/-- Of the fresh live answers to the question the lookup may return any. -/
theorem returns_iff {t : Table QaCacheRow} (hs : Shape (qaLinks t)) {id : Int}
    {answer : QaCacheRow} (h : HoldsAnswer t id answer) (hactive : answer.isActive = true)
    (hfresh : answer.stale = false) :
    Returns t answer.project answer.questionHash id answer ↔
      Unrivalled t answer.project answer.questionHash answer.bufferId := by
  obtain ⟨r, hr, rfl⟩ := h
  have hmatches : ∀ x : Int × QaCacheRow, x ∈ t.select (fun _ s => s.project == r.project &&
      s.questionHash == r.questionHash && s.isActive && !s.stale) ↔ x ∈ t.rows ∧
        x.2.project = r.project ∧ x.2.questionHash = r.questionHash ∧ x.2.isActive = true ∧
        x.2.stale = false := by
    rintro ⟨i, s⟩
    rw [Table.mem_select]
    simp [and_assoc]
  constructor
  · intro hret x hx hp hq ha hf
    have hget := hret (scanFrom x)
    unfold getCachedAnswer scanFrom at hget
    dsimp only [QaCacheRow.answer] at hget
    rw [if_pos ((hmatches x).mpr ⟨hx, hp, hq, ha, hf⟩)] at hget
    simp only [List.head?_cons, Option.map_some, Option.some.injEq, Prod.mk.injEq] at hget
    obtain ⟨hid, -⟩ := hget
    have hrow : (id, x.2) ∈ t.rows := hid ▸ hx
    rw [Table.get?_eq_some.mpr hrow, Option.some.injEq] at hr
    rw [hr]
    rfl
  · intro halone scan
    have hrow := Table.get?_eq_some.mp hr
    have hmem := (hmatches (id, r)).mpr ⟨hrow, rfl, rfl, hactive, hfresh⟩
    have hone : ∀ x ∈ t.select (fun _ s => s.project == r.project &&
        s.questionHash == r.questionHash && s.isActive && !s.stale), x = (id, r) := by
      intro x hx
      obtain ⟨hm, hp, hq, ha, hf⟩ := (hmatches x).mp hx
      have hb : x.2.bufferId = r.bufferId := halone x hm hp hq ha hf
      have hid : x.1 = id := hs.unique x.1 id _ _ (qaLinks_row hm) (qaLinks_row hrow) ha hactive
        (by simp [QaCacheRow.link, QaCacheRow.question, hp, hq, hb])
      exact Prod.ext hid (Table.eq_of_mem hm (hid ▸ hrow : (x.1, r) ∈ t.rows))
    unfold getCachedAnswer
    dsimp only [QaCacheRow.answer]
    obtain ⟨y, hy⟩ := List.exists_mem_of_ne_nil _
      (List.ne_nil_of_mem (scan.mem_order.mpr hmem))
    cases hhead : scan.order (t.select fun _ s => s.project == r.project &&
        s.questionHash == r.questionHash && s.isActive && !s.stale) with
    | nil => rw [hhead] at hy; cases hy
    | cons z l =>
      have hz : z = (id, r) := hone z (scan.mem_order.mp (hhead ▸ List.mem_cons_self))
      rw [List.head?_cons, hz]
      rfl

/-- An answer that is stored into a cache that has been reached, and left alone since, is what the
lookup returns, exactly when no other buffer has a fresh answer to the question. -/
theorem read_your_writes (ops : List AnswerTableOp) (scan : ScanOrder QaCacheRow)
    (input : StoreAnswerInput) (cacheId : String) (now : Int) (later : List AnswerTableOp) :
    let before := Lts.after stepAnswerTables .empty ops
    let stored := stepAnswerTables before (.store scan input cacheId now)
    let id := (storeAnswer scan before.qa input cacheId now).2
    let read := (Lts.after stepAnswerTables stored later).qa
    Lts.Always stepAnswerTables stored (fun _ s op => ¬ Touches s.qa id op) later →
      ((∃ version, Returns read input.project input.questionHash id
          (input.row cacheId version now)) ↔
        Unrivalled read input.project input.questionHash input.bufferId) := by
  intro before stored id read hlater
  obtain ⟨version, hstored⟩ := get?_stored scan before.qa input cacheId now
  have hholds : HoldsAnswer read id (input.row cacheId version now) :=
    holds_run (s := stored) ⟨_, hstored, rfl⟩ hlater
  have hshape : Shape (qaLinks read) := by
    have h := shape_run (later ++ .store scan input cacheId now :: ops)
    rw [Lts.after_append] at h
    exact h
  have hiff := returns_iff hshape hholds rfl rfl
  constructor
  · rintro ⟨version', hret⟩
    refine hiff.mp fun order => ?_
    obtain ⟨r, hr, hanswer⟩ := hholds
    obtain ⟨x, hx, he⟩ := Option.map_eq_some_iff.mp (hret order)
    have hid : x.1 = id := congrArg Prod.fst he
    have hm := (Table.mem_select.mp (order.mem_order.mp (List.mem_of_head? hx))).1
    rw [hid, ← Table.get?_eq_some, hr, Option.some.injEq] at hm
    show (getCachedAnswer order read input.project input.questionHash).map _ = _
    rw [hx, Option.map_some, hid, ← hm, hanswer]
  · intro halone
    exact ⟨version, hiff.mpr halone⟩

/-- The answer to `q1` of buffer 1, with another question stored and the answer read since. -/
theorem read_your_writes_other :
    ∃ version, Returns (Lts.after stepAnswerTables (stepAnswerTables .empty
      (.store .rowid (sampleAnswer "q1" "a") "u1" 10))
        [.touch 1 12, .store .rowid (sampleAnswer "q2" "b") "u2" 11]).qa "p" "q1" 1
      ((sampleAnswer "q1" "a").row "u1" version 10) :=
  (read_your_writes [] .rowid (sampleAnswer "q1" "a") "u1" 10
    [.touch 1 12, .store .rowid (sampleAnswer "q2" "b") "u2" 11] (by decide +kernel)).mpr
      (by decide +kernel)

/-- Buffer 1 has an answer to the question, buffer 2 stores one of its own, and the next lookup
returns that of buffer 1. -/
theorem read_your_writes_rival :
    let first := stepAnswerTables .empty
      (.store .rowid { sampleAnswer "q1" "a" with bufferId := some 1 } "u1" 10)
    let stored := stepAnswerTables first
      (.store .rowid { sampleAnswer "q1" "b" with bufferId := some 2 } "u2" 11)
    (getCachedAnswer .rowid stored.qa "p" "q1").map (fun x => (x.1, x.2.answerText)) =
        some (1, "a") ∧
      ¬ ∃ version, Returns stored.qa "p" "q1" 2
        ({ sampleAnswer "q1" "b" with bufferId := some 2 }.row "u2" version 11) := by
  refine ⟨by decide +kernel, ?_⟩
  rintro ⟨version, hret⟩
  obtain ⟨x, hx, he⟩ := Option.map_eq_some_iff.mp (hret .rowid)
  have hid : x.1 = 2 := congrArg Prod.fst he
  have hfirst : (getCachedAnswer .rowid (stepAnswerTables (stepAnswerTables .empty
      (.store .rowid { sampleAnswer "q1" "a" with bufferId := some 1 } "u1" 10))
      (.store .rowid { sampleAnswer "q1" "b" with bufferId := some 2 } "u2" 11)).qa "p" "q1").map
        Prod.fst = some 1 := by
    decide +kernel
  rw [hx, Option.map_some, Option.some.injEq, hid] at hfirst
  cases hfirst

end Arags
