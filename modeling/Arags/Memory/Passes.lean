import Arags.Memory.Removal
import Mathlib.Data.List.TakeWhile

/-!
# Arags.Memory.Passes

What the two passes of `maintenance.rs` take from a database, told by the database before the pass.

* `olderCopies` — what a consolidation takes.
* `decayQueue`, `takenFrom` — what a decay takes: all before the first chunk that is held.
* `strandedFrom` — of these the ones whose vectors stay.
* `Swept` — rows are gone and nothing names them; `consolidated_sweep`, `decayed_sweep`.
-/

namespace Arags

open Sql

/-! ## What is taken -/

section Taken

variable {ε : Type}

/-- The rows of the buffers that have a newer copy. -/
def olderCopies (chunks : SeqTable Chunk) (ids : List Int) : List Int :=
  (chunks.rows.filter fun x =>
    ids.contains x.2.bufferId && hasNewerCopy (bufferRows chunks x.2.bufferId) x).map Prod.fst

/-- A task or a finding holds the chunk, when those of the chunks `gone` have been deleted. -/
def holds (db : MemoryDb ε) (gone : List Int) (i : Int) : Bool :=
  let tasksGone := (db.tasks.filter fun t => t.2.any gone.contains).map Prod.fst
  db.tasks.any (·.2 == some i) ||
    db.findings.any fun f => f.2 == some i && !tasksGone.contains f.1

/-- The chunks of a buffer that a decay comes to, in order. -/
def decayQueue (env : MaintenanceEnv) (db : MaintenanceDb ε) (gone : List Int) (bufferId : Int) :
    List Int :=
  ((decayInput db bufferId).filter fun x => env.belowFloor x.2 && !gone.contains x.1).map Prod.fst

/-- Of one list after the other, up to the first chunk that is held. -/
def takenFrom (held : Int → Bool) : List (List Int) → List Int
  | [] => []
  | q :: qs => if q.any held then q.takeWhile fun i => !held i else q ++ takenFrom held qs

/-- Of the list with the first chunk that is held, what comes before. -/
def strandedFrom (held : Int → Bool) : List (List Int) → List Int
  | [] => []
  | q :: qs => if q.any held then q.takeWhile fun i => !held i else strandedFrom held qs

/-- A row that references `chunks` has the id. -/
def Named (db : MemoryDb ε) (i : Int) : Prop :=
  i ∈ db.chunkTexts ∨ (∃ e, (i, e) ∈ db.chunkEntities) ∨
    ∃ x ∈ db.tasks ++ db.findings ++ db.rlmEdges, x.2 = some i

structure Swept (db db' : MemoryDb ε) (ids : List Int) : Prop where
  rows : db'.chunks.rows = db.chunks.rows.filter fun x => !ids.contains x.1
  named : ∀ i, Named db' i → Named db i ∧ i ∉ ids

end Taken

/-! ## Sweeps in turn -/

section Sweeps

variable {ε : Type} {db db' db'' : MemoryDb ε} {ids ids' : List Int}

theorem Swept.refl (db : MemoryDb ε) : Swept db db [] where
  rows := (List.filter_true _).symm
  named _ h := ⟨h, List.not_mem_nil⟩

theorem Swept.trans (h : Swept db db' ids) (h' : Swept db' db'' ids') :
    Swept db db'' (ids ++ ids') where
  rows := by
    rw [h'.rows, h.rows, List.filter_filter]
    refine List.filter_congr fun x _ => ?_
    rw [List.contains_append, Bool.not_or, Bool.and_comm]
  named i hi := by
    obtain ⟨hi, hi'⟩ := h'.named i hi
    obtain ⟨hi, hid⟩ := h.named i hi
    exact ⟨hi, fun hm => (List.mem_append.mp hm).elim hid hi'⟩

theorem Swept.congr (h : Swept db db' ids) (hids : ∀ i, i ∈ ids ↔ i ∈ ids') :
    Swept db db' ids' where
  rows := by
    rw [h.rows]
    refine List.filter_congr fun x _ => ?_
    rw [Bool.eq_iff_iff, Bool.not_eq_true', Bool.not_eq_true', ← Bool.not_eq_true,
      ← Bool.not_eq_true, List.contains_iff_mem, List.contains_iff_mem, hids]
  named i hi := by
    obtain ⟨hi, hid⟩ := h.named i hi
    exact ⟨hi, fun hm => hid ((hids i).mpr hm)⟩

theorem Swept.mem (h : Swept db db' ids) {x : Int × Chunk} :
    x ∈ db'.chunks.rows ↔ x ∈ db.chunks.rows ∧ x.1 ∉ ids := by
  rw [h.rows, List.mem_filter, Bool.not_eq_true', ← Bool.not_eq_true, List.contains_iff_mem]

/-- A buffer of which no row is taken. -/
theorem Swept.bufferRows_other (h : Swept db db' ids) {c : Int}
    (hc : ∀ x ∈ db.chunks.rows, x.1 ∈ ids → x.2.bufferId ≠ c) :
    bufferRows db'.chunks c = bufferRows db.chunks c := by
  rw [bufferRows_eq, h.rows, List.filter_filter, bufferRows_eq]
  refine List.filter_congr fun x hx => ?_
  cases hxc : x.2.bufferId == c with
  | false => rfl
  | true =>
    have hout : ids.contains x.1 = false := by
      rw [← Bool.not_eq_true, List.contains_iff_mem]
      exact fun hmem => hc x hx hmem (beq_iff_eq.mp hxc)
    rw [hout]
    rfl

end Sweeps

/-! ## A consolidation -/

section Consolidation

variable {ε : Type} {db db' db'' : MemoryDb ε} {ids ids' : List Int}

/-- The tasks of the chunks go too, and the findings of the chunks and of these tasks. -/
structure Deduplicated (db db' : MemoryDb ε) (ids : List Int) : Prop extends Swept db db' ids where
  present : ∀ i ∈ ids, ∃ r, (i, r) ∈ db.chunks.rows
  tasks : ∀ t, t ∈ db'.tasks ↔ t ∈ db.tasks ∧ ∀ i ∈ ids, t.2 ≠ some i
  findings : ∀ f, f ∈ db'.findings ↔ f ∈ db.findings ∧ (∀ i ∈ ids, f.2 ≠ some i) ∧
    ∀ t ∈ db.tasks, t.1 = f.1 → ∀ i ∈ ids, t.2 ≠ some i

theorem Deduplicated.refl (db : MemoryDb ε) : Deduplicated db db [] where
  toSwept := .refl db
  present _ h := absurd h List.not_mem_nil
  tasks t := by simp
  findings f := by simp

theorem Deduplicated.trans (h : Deduplicated db db' ids) (h' : Deduplicated db' db'' ids') :
    Deduplicated db db'' (ids ++ ids') where
  toSwept := h.toSwept.trans h'.toSwept
  present i hi := by
    rcases List.mem_append.mp hi with hi | hi
    · exact h.present i hi
    · obtain ⟨r, hr⟩ := h'.present i hi
      exact ⟨r, (h.mem.mp hr).1⟩
  tasks t := by
    rw [h'.tasks, h.tasks]
    simp only [List.forall_mem_append, and_assoc]
  findings f := by
    rw [h'.findings, h.findings]
    simp only [List.forall_mem_append, h.tasks]
    constructor
    · rintro ⟨⟨hf, hfirst, htasks⟩, hsecond, hlater⟩
      refine ⟨hf, ⟨hfirst, hsecond⟩, fun t ht he => ?_⟩
      have hkept := htasks t ht he
      exact ⟨hkept, hlater t ⟨ht, hkept⟩ he⟩
    · rintro ⟨hf, ⟨hfirst, hsecond⟩, htasks⟩
      exact ⟨⟨hf, hfirst, fun t ht he => (htasks t ht he).1⟩, hsecond,
        fun t ht he => (htasks t ht.1 he).2⟩

theorem Deduplicated.congr (h : Deduplicated db db' ids) (hids : ∀ i, i ∈ ids ↔ i ∈ ids') :
    Deduplicated db db' ids' where
  toSwept := h.toSwept.congr hids
  present i hi := h.present i ((hids i).mpr hi)
  tasks t := by
    rw [h.tasks]
    simp only [hids]
  findings f := by
    rw [h.findings]
    simp only [hids]

theorem any_contains_iff {chunk : Option Int} :
    chunk.any ids.contains = true ↔ ∃ i ∈ ids, chunk = some i := by
  rw [Option.any_eq_true]
  simp only [List.contains_iff_mem]
  exact ⟨fun ⟨i, he, hi⟩ => ⟨i, hi, he⟩, fun ⟨i, hi, he⟩ => ⟨i, he, hi⟩⟩

theorem not_any_contains_iff {chunk : Option Int} :
    (!chunk.any ids.contains) = true ↔ ∀ i ∈ ids, chunk ≠ some i := by
  rw [Bool.not_eq_true', ← Bool.not_eq_true, any_contains_iff]
  push Not
  rfl

theorem no_task_iff {tasks : List (Int × Option Int)} {task : Int} :
    (!((tasks.filter fun t => t.2.any ids.contains).map Prod.fst).contains task) = true ↔
      ∀ t ∈ tasks, t.1 = task → ∀ i ∈ ids, t.2 ≠ some i := by
  rw [Bool.not_eq_true', ← Bool.not_eq_true, List.contains_iff_mem, List.mem_map]
  simp only [List.mem_filter, any_contains_iff]
  constructor
  · intro h t ht he i hi hti
    exact h ⟨t, ⟨ht, i, hi, hti⟩, he⟩
  · rintro h ⟨t, ⟨ht, i, hi, hti⟩, he⟩
    exact h t ht he i hi hti

/-- One hash. -/
theorem removeCopies_deduplicated (bufferId : Int) (db : MemoryDb ε) (hash : List UInt8) :
    Deduplicated db (removeCopies bufferId db hash) (dupIds db.chunks bufferId hash) where
  rows := rfl
  named := by
    intro i hi
    rcases hi with htext | ⟨e, hentity⟩ | ⟨x, hx, he⟩
    · obtain ⟨htext, hid⟩ := List.mem_filter.mp htext
      exact ⟨.inl htext, by simpa using hid⟩
    · obtain ⟨hentity, hid⟩ := List.mem_filter.mp hentity
      exact ⟨.inr (.inl ⟨e, hentity⟩), by simpa using hid⟩
    · have hkept : x ∈ db.tasks ++ db.findings ++ db.rlmEdges ∧
          (!x.2.any (dupIds db.chunks bufferId hash).contains) = true := by
        rcases List.mem_append.mp hx with hx | hx
        · rcases List.mem_append.mp hx with hx | hx
          · obtain ⟨hx, hno⟩ := List.mem_filter.mp hx
            exact ⟨List.mem_append_left _ (List.mem_append_left _ hx), hno⟩
          · obtain ⟨hx, hno⟩ := List.mem_filter.mp hx
            rw [Bool.not_or, Bool.and_eq_true] at hno
            exact ⟨List.mem_append_left _ (List.mem_append_right _ hx), hno.1⟩
        · obtain ⟨hx, hno⟩ := List.mem_filter.mp hx
          exact ⟨List.mem_append_right _ hx, hno⟩
      exact ⟨.inr (.inr ⟨x, hkept.1, he⟩), fun hid => not_any_contains_iff.mp hkept.2 i hid he⟩
  present i hi := by
    obtain ⟨r, hr, -, -⟩ := mem_dupIds.mp hi
    exact ⟨r, hr⟩
  tasks t := by
    rw [← not_any_contains_iff]
    exact List.mem_filter
  findings f := by
    rw [← not_any_contains_iff, ← no_task_iff, ← Bool.and_eq_true, ← Bool.not_or]
    exact List.mem_filter

theorem removeAll_deduplicated (bufferId : Int) (hashes : List (List UInt8)) :
    ∀ db : MemoryDb ε, ∃ ids, Deduplicated db (hashes.foldl (removeCopies bufferId) db) ids := by
  induction hashes with
  | nil => exact fun db => ⟨[], .refl db⟩
  | cons hash hashes ih =>
    intro db
    obtain ⟨ids, h⟩ := ih (removeCopies bufferId db hash)
    exact ⟨_, (removeCopies_deduplicated bufferId db hash).trans h⟩

theorem mem_olderCopies {chunks : SeqTable Chunk} {i : Int} :
    i ∈ olderCopies chunks ids ↔ ∃ r, (i, r) ∈ chunks.rows ∧ r.bufferId ∈ ids ∧
      Outdated chunks r.bufferId i r := by
  unfold olderCopies
  simp only [List.mem_map, List.mem_filter, Bool.and_eq_true, List.contains_iff_mem]
  constructor
  · rintro ⟨⟨j, r⟩, ⟨hx, hb, hnewer⟩, rfl⟩
    exact ⟨r, hx, hb, (hasNewerCopy_iff (mem_bufferRows.mpr ⟨hx, rfl⟩)).mp hnewer⟩
  · rintro ⟨r, hr, hb, ho⟩
    have hmem : (i, r) ∈ bufferRows chunks r.bufferId := mem_bufferRows.mpr ⟨hr, rfl⟩
    exact ⟨(i, r), ⟨hr, hb, (hasNewerCopy_iff hmem).mpr ho⟩, rfl⟩

/-- The ids whose vectors are purged. -/
theorem mem_duplicateIds {chunks : SeqTable Chunk} {bufferId i : Int} :
    i ∈ ((duplicateHashes chunks bufferId).map (dupIds chunks bufferId)).flatten ↔
      i ∈ olderCopies chunks [bufferId] := by
  rw [mem_olderCopies]
  simp only [List.mem_flatten, List.mem_map, exists_exists_and_eq_and, List.mem_singleton]
  constructor
  · rintro ⟨hash, -, hi⟩
    obtain ⟨r, hr, -, ho⟩ := mem_dupIds.mp hi
    exact ⟨r, hr, ho.1, ho.1.symm ▸ ho⟩
  · rintro ⟨r, hr, rfl, ho⟩
    exact ⟨r.hash, mem_duplicateHashes hr ho, mem_dupIds.mpr ⟨r, hr, rfl, ho⟩⟩

/-- What is missing is what is taken. -/
theorem Deduplicated.mem_ids (h : Deduplicated db db' ids) {i : Int} :
    i ∈ ids ↔ ∃ r, (i, r) ∈ db.chunks.rows ∧ (i, r) ∉ db'.chunks.rows := by
  constructor
  · intro hi
    obtain ⟨r, hr⟩ := h.present i hi
    exact ⟨r, hr, fun hm => (h.mem.mp hm).2 hi⟩
  · rintro ⟨r, hr, hgone⟩
    by_contra hi
    exact hgone (h.mem.mpr ⟨hr, hi⟩)

theorem consolidate_sweep (db : MemoryDb ε) (b : Int) :
    let db' := (consolidate db b ⟨true, 3 / 10, false⟩ true).1
    Deduplicated db db' (olderCopies db.chunks [b]) ∧
      ∀ i, i ∈ db'.vectors ↔ i ∈ db.vectors ∧ i ∉ olderCopies db.chunks [b] := by
  dsimp only
  obtain ⟨ids, h⟩ := removeAll_deduplicated b (duplicateHashes db.chunks b) db
  have hids : ∀ i, i ∈ ids ↔ i ∈ olderCopies db.chunks [b] := by
    intro i
    rw [h.mem_ids, mem_olderCopies]
    refine exists_congr fun r => and_congr_right fun hr => ?_
    have hmem : (i, r) ∈ ((duplicateHashes db.chunks b).foldl (removeCopies b) db).chunks.rows ↔
        (i, r) ∈ db.chunks.rows ∧ ¬ Outdated db.chunks b i r :=
      @mem_removeDuplicates ε db b true (i, r)
    rw [hmem, and_iff_right hr, not_not, List.mem_singleton]
    constructor
    · intro ho
      exact ⟨ho.1, ho.1.symm ▸ ho⟩
    · rintro ⟨rfl, ho⟩
      exact ho
  refine ⟨Deduplicated.congr ⟨⟨h.rows, h.named⟩, h.present, h.tasks, h.findings⟩ hids, ?_⟩
  intro i
  have hvectors : ∀ (hashes : List (List UInt8)) (db : MemoryDb ε),
      (hashes.foldl (removeCopies b) db).vectors = db.vectors := by
    intro hashes
    induction hashes with
    | nil => exact fun _ => rfl
    | cons hash hashes ih => exact fun db => ih (removeCopies b db hash)
  rw [← mem_duplicateIds, ← mem_deleteChunkIds, ← hvectors (duplicateHashes db.chunks b) db]
  rfl

/-- The rows of the buffers that come later are as they were. -/
theorem mem_olderCopies_later {chunks chunks' : SeqTable Chunk}
    (hrows : ∀ c ∈ ids, bufferRows chunks' c = bufferRows chunks c) {i : Int} :
    i ∈ olderCopies chunks' ids ↔ i ∈ olderCopies chunks ids := by
  unfold olderCopies
  simp only [List.mem_map, List.mem_filter, Bool.and_eq_true, List.contains_iff_mem]
  refine exists_congr fun x => and_congr_left fun _ => ?_
  constructor
  · rintro ⟨hx, hb, hnewer⟩
    rw [hrows _ hb] at hnewer
    exact ⟨(mem_bufferRows.mp (hrows _ hb ▸ mem_bufferRows.mpr ⟨hx, rfl⟩)).1, hb, hnewer⟩
  · rintro ⟨hx, hb, hnewer⟩
    rw [← hrows _ hb] at hnewer
    exact ⟨(mem_bufferRows.mp ((hrows _ hb).symm ▸ mem_bufferRows.mpr ⟨hx, rfl⟩)).1, hb, hnewer⟩

theorem consolidated_sweep {env : MaintenanceEnv} (hpurge : ∀ b, env.purgesCopies b = true)
    (ids : List Int) : ∀ s : MaintenanceDb ε × MaintenanceReport, ids.Nodup →
      let db' := (ids.foldl (consolidateBuffer env false) s).1.memory
      Deduplicated s.1.memory db' (olderCopies s.1.memory.chunks ids) ∧
        ∀ i, i ∈ db'.vectors ↔
          i ∈ s.1.memory.vectors ∧ i ∉ olderCopies s.1.memory.chunks ids := by
  induction ids with
  | nil =>
    intro s _
    have hnone : olderCopies s.1.memory.chunks [] = [] := by
      rw [List.eq_nil_iff_forall_not_mem]
      intro i hi
      obtain ⟨r, -, hb, -⟩ := mem_olderCopies.mp hi
      cases hb
    rw [hnone]
    exact ⟨.refl _, fun i => (and_iff_left List.not_mem_nil).symm⟩
  | cons b ids ih =>
    intro s hnodup
    obtain ⟨hb, hnodup⟩ := List.nodup_cons.mp hnodup
    have hmid : (consolidateBuffer env false s b).1.memory =
        (consolidate s.1.memory b ⟨true, 3 / 10, false⟩ true).1 := by
      rw [consolidateBuffer, hpurge b]
    have hne : ∀ c ∈ ids, c ≠ b := fun c hc he => hb (he ▸ hc)
    obtain ⟨hfirst, hvectors⟩ := consolidate_sweep s.1.memory b
    obtain ⟨hrest, hlater⟩ := ih (consolidateBuffer env false s b) hnodup
    rw [hmid] at hrest hlater
    have hsame : ∀ i, i ∈ olderCopies
          (consolidate s.1.memory b ⟨true, 3 / 10, false⟩ true).1.chunks ids ↔
        i ∈ olderCopies s.1.memory.chunks ids :=
      fun i => mem_olderCopies_later fun c hc =>
        bufferRows_consolidate_other s.1.memory false true (hne c hc)
    have hall : ∀ i, i ∈ olderCopies s.1.memory.chunks [b] ++ olderCopies
          (consolidate s.1.memory b ⟨true, 3 / 10, false⟩ true).1.chunks ids ↔
        i ∈ olderCopies s.1.memory.chunks (b :: ids) := by
      intro i
      rw [List.mem_append, hsame]
      simp only [mem_olderCopies, List.mem_cons, List.not_mem_nil, or_false]
      constructor
      · rintro (⟨r, hr, hb, ho⟩ | ⟨r, hr, hb, ho⟩)
        · exact ⟨r, hr, .inl hb, ho⟩
        · exact ⟨r, hr, .inr hb, ho⟩
      · rintro ⟨r, hr, hb | hb, ho⟩
        · exact .inl ⟨r, hr, hb, ho⟩
        · exact .inr ⟨r, hr, hb, ho⟩
    refine ⟨(hfirst.trans hrest).congr hall, fun i => ?_⟩
    rw [List.foldl_cons, hlater, hvectors, ← hall, List.mem_append, not_or, and_assoc]

end Consolidation

/-! ## A decay -/

section Decay

variable {ε : Type} {env : MaintenanceEnv} {db db' db'' : MemoryDb ε} {ids ids' : List Int}

/-- A decay leaves tasks, findings and, before its end, the vectors as they are. -/
structure Decayed (db db' : MemoryDb ε) (ids : List Int) : Prop extends Swept db db' ids where
  tasks : db'.tasks = db.tasks
  findings : db'.findings = db.findings
  vectors : db'.vectors = db.vectors

theorem Decayed.trans (h : Decayed db db' ids) (h' : Decayed db' db'' ids') :
    Decayed db db'' (ids ++ ids') where
  toSwept := h.toSwept.trans h'.toSwept
  tasks := h'.tasks.trans h.tasks
  findings := h'.findings.trans h.findings
  vectors := h'.vectors.trans h.vectors

theorem holds_nil (db : MemoryDb ε) (i : Int) :
    holds db [] i = (db.tasks.any (·.2 == some i) || db.findings.any (·.2 == some i)) := by
  have hnone : (db.tasks.filter fun t => t.2.any ([] : List Int).contains) = [] := by
    rw [List.filter_eq_nil_iff]
    intro t _ h
    obtain ⟨i, hi, -⟩ := any_contains_iff.mp h
    cases hi
  unfold holds
  rw [hnone]
  simp only [List.map_nil, List.contains_nil, Bool.not_false, Bool.and_true]

theorem Decayed.holds (h : Decayed db db' ids) : Arags.holds db' [] = Arags.holds db [] := by
  funext i
  rw [holds_nil, holds_nil, h.tasks, h.findings]

theorem decayChunk_free_swept {i : Int} (h : holds db [] i = false) :
    Decayed db (decayChunk db i).1 [i] ∧ (decayChunk db i).2 = .ok () := by
  rw [holds_nil] at h
  unfold decayChunk
  dsimp only
  rw [if_neg (by rw [h]; exact Bool.false_ne_true)]
  obtain ⟨htasks, hfindings⟩ := Bool.or_eq_false_iff.mp h
  refine ⟨⟨⟨?_, ?_⟩, rfl, rfl, rfl⟩, rfl⟩
  · exact List.filter_congr fun x _ => by
      rw [List.contains_cons, List.contains_nil, Bool.or_false]
  · rintro j (htext | ⟨e, hentity⟩ | ⟨x, hx, he⟩)
    · obtain ⟨htext, hne⟩ := List.mem_filter.mp htext
      exact ⟨.inl htext, by simpa using hne⟩
    · obtain ⟨hentity, hne⟩ := List.mem_filter.mp hentity
      exact ⟨.inr (.inl ⟨e, hentity⟩), by simpa using hne⟩
    · have hkept : x ∈ db.tasks ++ db.findings ++ db.rlmEdges ∧ x.2 ≠ some i := by
        rcases List.mem_append.mp hx with hx | hx
        · refine ⟨List.mem_append_left _ hx, ?_⟩
          rcases List.mem_append.mp hx with hx | hx
          · simpa using List.any_eq_false.mp htasks x hx
          · simpa using List.any_eq_false.mp hfindings x hx
        · obtain ⟨hx, hne⟩ := List.mem_filter.mp hx
          exact ⟨List.mem_append_right _ hx, by simpa using hne⟩
      refine ⟨.inr (.inr ⟨x, hkept.1, he⟩), fun hj => hkept.2 ?_⟩
      rw [he, List.mem_singleton.mp hj]

theorem decayChunk_held_swept {i : Int} (h : holds db [] i = true) :
    Decayed db (decayChunk db i).1 [] ∧ ∃ e, (decayChunk db i).2 = .error e := by
  rw [holds_nil] at h
  unfold decayChunk
  dsimp only
  rw [if_pos h]
  refine ⟨⟨⟨(List.filter_true _).symm, ?_⟩, rfl, rfl, rfl⟩, _, rfl⟩
  rintro j (htext | ⟨e, hentity⟩ | hx)
  · exact ⟨.inl (List.mem_filter.mp htext).1, List.not_mem_nil⟩
  · exact ⟨.inr (.inl ⟨e, (List.mem_filter.mp hentity).1⟩), List.not_mem_nil⟩
  · exact ⟨.inr (.inr hx), List.not_mem_nil⟩

/-- The loop goes up to the first chunk that is held, where it fails. -/
theorem decayRows_sweep (rows : List (Int × Int)) :
    ∀ (db : MemoryDb ε) (count : DecayCount) (removed : List Int),
      let q := belowIds env rows
      let out := decayRows env false rows db count removed
      Decayed db out.1 (q.takeWhile fun i => !holds db [] i) ∧
        out.2.toOption.map Prod.snd =
          if q.any (holds db []) then none else some (removed ++ q) := by
  induction rows with
  | nil =>
    intro db count removed
    exact ⟨⟨.refl db, rfl, rfl, rfl⟩, congrArg some (List.append_nil removed).symm⟩
  | cons x rows ih =>
    intro db count removed
    obtain ⟨id, last⟩ := x
    dsimp only
    unfold decayRows
    cases hbelow : env.belowFloor last with
    | false =>
      have hids : belowIds env ((id, last) :: rows) = belowIds env rows := by
        rw [belowIds, List.filter_cons_of_neg (by simp [hbelow])]
        rfl
      rw [hids]
      exact ih db _ removed
    | true =>
      have hids : belowIds env ((id, last) :: rows) = id :: belowIds env rows := by
        rw [belowIds, List.filter_cons_of_pos (by simp [hbelow])]
        rfl
      rw [hids, if_pos rfl, if_neg Bool.false_ne_true, List.any_cons, List.takeWhile_cons]
      cases hheld : holds db [] id with
      | true =>
        obtain ⟨hdecayed, e, he⟩ := decayChunk_held_swept hheld
        generalize decayChunk db id = out at hdecayed he
        obtain ⟨mid, res⟩ := out
        obtain rfl := he
        exact ⟨hdecayed, rfl⟩
      | false =>
        obtain ⟨hdecayed, hok⟩ := decayChunk_free_swept hheld
        generalize decayChunk db id = out at hdecayed hok
        obtain ⟨mid, res⟩ := out
        obtain rfl := hok
        obtain ⟨hrest, hlist⟩ := ih mid { count with decayedChunks := count.decayedChunks + 1 }
          (removed ++ [id])
        rw [hdecayed.holds] at hrest hlist
        rw [List.append_assoc] at hlist
        exact ⟨hdecayed.trans hrest, hlist⟩

/-- A decay that reaches the end of a buffer purges the vectors. -/
theorem runDecay_free_sweep {db : MaintenanceDb ε} {b : Int} (hpurge : env.purgesDecayed b = true)
    (hfree : (decayedIds env db b).any (holds db.memory []) = false) :
    ∃ db' count, runDecayForBuffer env db b false = (db', .ok count) ∧
      Swept db.memory db'.memory (decayedIds env db b) ∧
      holds db'.memory [] = holds db.memory [] ∧ db'.lastAccessed = db.lastAccessed ∧
      ∀ i, i ∈ db'.memory.vectors ↔ i ∈ db.memory.vectors ∧ i ∉ decayedIds env db b := by
  obtain ⟨hdecayed, hlist⟩ := @decayRows_sweep ε env (decayInput db b) db.memory {} []
  have hids : belowIds env (decayInput db b) = decayedIds env db b := rfl
  have hall : (decayedIds env db b).takeWhile (fun i => !holds db.memory [] i) =
      decayedIds env db b := by
    rw [List.takeWhile_eq_self_iff]
    intro i hi
    rw [Bool.not_eq_true', ← Bool.not_eq_true]
    exact List.any_eq_false.mp hfree i hi
  rw [hids, hfree, if_neg Bool.false_ne_true] at hlist
  rw [hids, hall] at hdecayed
  unfold runDecayForBuffer
  generalize decayRows env false (decayInput db b) db.memory {} [] = out at hdecayed hlist
  obtain ⟨memory, e | ⟨count, removed⟩⟩ := out
  · cases hlist
  · obtain rfl : removed = decayedIds env db b := Option.some.inj hlist
    refine ⟨_, count, rfl, ⟨hdecayed.rows, hdecayed.named⟩, hdecayed.holds, rfl, fun i => ?_⟩
    dsimp only
    rw [if_pos hpurge, mem_deleteChunkIds, hdecayed.vectors]

/-- One that does not leaves them. -/
theorem runDecay_held_sweep {db : MaintenanceDb ε} {b : Int}
    (hheld : (decayedIds env db b).any (holds db.memory []) = true) :
    ∃ db' e, runDecayForBuffer env db b false = (db', .error e) ∧
      Decayed db.memory db'.memory
        ((decayedIds env db b).takeWhile fun i => !holds db.memory [] i) := by
  obtain ⟨hdecayed, hlist⟩ := @decayRows_sweep ε env (decayInput db b) db.memory {} []
  have hids : belowIds env (decayInput db b) = decayedIds env db b := rfl
  rw [hids, hheld, if_pos rfl] at hlist
  rw [hids] at hdecayed
  unfold runDecayForBuffer
  generalize decayRows env false (decayInput db b) db.memory {} [] = out at hdecayed hlist
  obtain ⟨memory, e | ⟨count, removed⟩⟩ := out
  · exact ⟨_, e, rfl, hdecayed⟩
  · cases hlist

theorem mem_decayedIds {db : MaintenanceDb ε} {b i : Int} (h : i ∈ decayedIds env db b) :
    ∃ r, (i, r) ∈ db.memory.chunks.rows ∧ r.bufferId = b := by
  obtain ⟨x, hx, rfl⟩ := List.mem_map.mp h
  obtain ⟨y, hy, rfl⟩ := List.mem_map.mp (List.mem_filter.mp hx).1
  exact ⟨y.2, mem_bufferRows.mp hy⟩

/-- An id names one row, which is of one buffer. -/
theorem decayedIds_disjoint {db : MaintenanceDb ε} {b c i : Int} (hb : i ∈ decayedIds env db b)
    (hc : i ∈ decayedIds env db c) : b = c := by
  obtain ⟨r, hr, rfl⟩ := mem_decayedIds hb
  obtain ⟨r', hr', rfl⟩ := mem_decayedIds hc
  rw [Table.eq_of_mem hr hr']

theorem takenFrom_subset {held : Int → Bool} {qs : List (List Int)} {i : Int}
    (h : i ∈ takenFrom held qs) : ∃ q ∈ qs, i ∈ q := by
  induction qs with
  | nil => cases h
  | cons q qs ih =>
    rw [takenFrom] at h
    split at h
    · exact ⟨q, List.mem_cons_self, (List.takeWhile_sublist _).mem h⟩
    · rcases List.mem_append.mp h with h | h
      · exact ⟨q, List.mem_cons_self, h⟩
      · obtain ⟨q', hq', hi⟩ := ih h
        exact ⟨q', List.mem_cons_of_mem q hq', hi⟩

theorem mem_strandedFrom {held : Int → Bool} {qs : List (List Int)} {i : Int}
    (h : i ∈ strandedFrom held qs) : i ∈ takenFrom held qs := by
  induction qs with
  | nil => cases h
  | cons q qs ih =>
    rw [strandedFrom] at h
    rw [takenFrom]
    split
    next hany => rwa [if_pos hany] at h
    next hany =>
      rw [if_neg hany] at h
      exact List.mem_append_right q (ih h)

theorem strandedFrom_subset {held : Int → Bool} {qs : List (List Int)} {i : Int}
    (h : i ∈ strandedFrom held qs) : ∃ q ∈ qs, i ∈ q :=
  takenFrom_subset (mem_strandedFrom h)

/-- One buffer after the other. -/
theorem decayBuffers_sweep (hpurge : ∀ b, env.purgesDecayed b = true) (ids : List Int) :
    ∀ (db : MaintenanceDb ε) (report : MaintenanceReport), ids.Nodup →
      let qs := ids.map (decayedIds env db)
      let db' := (decayBuffers env false ids db report).1
      Swept db.memory db'.memory (takenFrom (holds db.memory []) qs) ∧
        ∀ i, i ∈ db'.memory.vectors ↔ i ∈ db.memory.vectors ∧
          (i ∉ takenFrom (holds db.memory []) qs ∨ i ∈ strandedFrom (holds db.memory []) qs) := by
  induction ids with
  | nil =>
    intro db report _
    exact ⟨.refl _, fun i => (and_iff_left (.inl List.not_mem_nil)).symm⟩
  | cons b ids ih =>
    intro db report hnodup
    obtain ⟨hb, hnodup⟩ := List.nodup_cons.mp hnodup
    dsimp only
    rw [List.map_cons, takenFrom, strandedFrom]
    unfold decayBuffers
    cases hheld : (decayedIds env db b).any (holds db.memory []) with
    | true =>
      obtain ⟨db', e, hrun, hdecayed⟩ := runDecay_held_sweep hheld
      rw [hrun, if_pos rfl, if_pos rfl]
      refine ⟨hdecayed.toSwept, fun i => ?_⟩
      dsimp only
      rw [hdecayed.vectors]
      exact (and_iff_left (Decidable.em _).symm).symm
    | false =>
      obtain ⟨mid, count, hrun, hswept, hholds, hlast, hvectors⟩ :=
        runDecay_free_sweep (hpurge b) hheld
      rw [hrun, if_neg Bool.false_ne_true, if_neg Bool.false_ne_true]
      dsimp only
      have hsame : ids.map (decayedIds env mid) = ids.map (decayedIds env db) := by
        refine List.map_congr_left fun c hc => ?_
        have hrows : bufferRows mid.memory.chunks c = bufferRows db.memory.chunks c := by
          refine hswept.bufferRows_other fun x hx hmem he => ?_
          obtain ⟨r, hr, hrb⟩ := mem_decayedIds hmem
          have hxr : x.2 = r := Table.eq_of_mem hx hr
          exact hb ((hrb.symm.trans (hxr ▸ he)) ▸ hc)
        unfold decayedIds
        rw [decayInput_congr hlast hrows]
      obtain ⟨hrest, hlater⟩ := ih mid _ hnodup
      rw [hholds, hsame] at hrest hlater
      refine ⟨hswept.trans hrest, fun i => ?_⟩
      rw [hlater, hvectors, and_assoc, List.mem_append, not_or]
      refine and_congr_right fun _ => ?_
      have hdisjoint : i ∈ strandedFrom (holds db.memory []) (ids.map (decayedIds env db)) →
          i ∉ decayedIds env db b := by
        intro hi hib
        obtain ⟨q, hq, hiq⟩ := strandedFrom_subset hi
        obtain ⟨c, hc, rfl⟩ := List.mem_map.mp hq
        exact hb (decayedIds_disjoint hib hiq ▸ hc)
      tauto

end Decay

/-! ## The three calls -/

inductive MaintenanceCall where
  | consolidate | decay | all
  deriving DecidableEq, Repr

section Calls

variable {ε : Type} (env : MaintenanceEnv)

/-- Not a dry run; a call that fails leaves what it has done. -/
def MaintenanceCall.run (db : MaintenanceDb ε) (project : String) :
    MaintenanceCall → MaintenanceDb ε
  | .consolidate => (maintenanceConsolidate env db project false).1
  | .decay => (maintenanceDecay env db project false).1
  | .all => (runMaintenance env db project false).1

/-- What a call takes as copies. -/
def copiesTaken (db : MaintenanceDb ε) (project : String) : MaintenanceCall → List Int
  | .decay => []
  | _ => olderCopies db.memory.chunks (resolveBufferIds env db project)

/-- What it then comes to in the decay. -/
def queues (db : MaintenanceDb ε) (project : String) (call : MaintenanceCall) : List (List Int) :=
  match call with
  | .consolidate => []
  | _ => (resolveBufferIds env db project).map
      (decayQueue env db (copiesTaken env db project call))

def taken (db : MaintenanceDb ε) (project : String) (call : MaintenanceCall) : List Int :=
  copiesTaken env db project call ++
    takenFrom (holds db.memory (copiesTaken env db project call)) (queues env db project call)

/-- What it takes without the vectors. -/
def stranded (db : MaintenanceDb ε) (project : String) (call : MaintenanceCall) : List Int :=
  strandedFrom (holds db.memory (copiesTaken env db project call)) (queues env db project call)

end Calls

section CallSweeps

variable {ε : Type} {env : MaintenanceEnv} {db mid : MaintenanceDb ε} {gone : List Int}

theorem holds_iff {db : MemoryDb ε} {i : Int} : holds db gone i = true ↔
    (∃ t ∈ db.tasks, t.2 = some i) ∨ ∃ f ∈ db.findings, f.2 = some i ∧
      ∀ t ∈ db.tasks, t.1 = f.1 → ∀ j ∈ gone, t.2 ≠ some j := by
  unfold holds
  simp only [Bool.or_eq_true, List.any_eq_true, Bool.and_eq_true, beq_iff_eq, no_task_iff]

/-- What holds a chunk after a consolidation, told before it. -/
theorem Deduplicated.holds {db db' : MemoryDb ε} (h : Deduplicated db db' gone) {i : Int}
    (hi : i ∉ gone) : Arags.holds db' [] i = Arags.holds db gone i := by
  have hother : ∀ {chunk : Option Int}, chunk = some i → ∀ j ∈ gone, chunk ≠ some j := by
    rintro chunk rfl j hj he
    exact hi (Option.some.inj he ▸ hj)
  rw [Bool.eq_iff_iff, holds_iff, holds_iff]
  simp only [h.tasks, h.findings, List.not_mem_nil, false_implies, implies_true, and_true]
  constructor
  · rintro (⟨t, ⟨ht, -⟩, he⟩ | ⟨f, ⟨hf, -, htasks⟩, he⟩)
    · exact .inl ⟨t, ht, he⟩
    · exact .inr ⟨f, hf, he, htasks⟩
  · rintro (⟨t, ht, he⟩ | ⟨f, hf, he, htasks⟩)
    · exact .inl ⟨t, ⟨ht, hother he⟩, he⟩
    · exact .inr ⟨f, ⟨hf, hother he, htasks⟩, he⟩

theorem decayQueue_swept {ids : List Int} (h : Swept db.memory mid.memory gone)
    (hlast : mid.lastAccessed = db.lastAccessed) :
    ids.map (decayedIds env mid) = ids.map (decayQueue env db gone) := by
  refine List.map_congr_left fun b _ => ?_
  have hrows : bufferRows mid.memory.chunks b =
      (bufferRows db.memory.chunks b).filter fun x => !gone.contains x.1 := by
    rw [bufferRows_eq, h.rows, List.filter_comm, ← bufferRows_eq]
  unfold decayedIds decayQueue decayInput
  rw [hrows, hlast, List.filter_map, List.filter_map, List.filter_filter]
  rfl

theorem mem_decayQueue {b i : Int} (h : i ∈ decayQueue env db gone b) : i ∉ gone := by
  obtain ⟨x, hx, rfl⟩ := List.mem_map.mp h
  have hout := (Bool.and_eq_true _ _ |>.mp (List.mem_filter.mp hx).2).2
  rwa [Bool.not_eq_true', ← Bool.not_eq_true, List.contains_iff_mem] at hout

theorem takeWhile_congr_mem {p p' : Int → Bool} {l : List Int} (h : ∀ i ∈ l, p i = p' i) :
    l.takeWhile p = l.takeWhile p' := by
  induction l with
  | nil => rfl
  | cons i l ih =>
    rw [List.takeWhile_cons, List.takeWhile_cons, h i List.mem_cons_self,
      ih fun j hj => h j (List.mem_cons_of_mem i hj)]

/-- Chunks that are in no list do not matter. -/
theorem takenFrom_congr {held held' : Int → Bool} {qs : List (List Int)}
    (h : ∀ q ∈ qs, ∀ i ∈ q, held i = held' i) :
    takenFrom held qs = takenFrom held' qs ∧ strandedFrom held qs = strandedFrom held' qs := by
  induction qs with
  | nil => exact ⟨rfl, rfl⟩
  | cons q qs ih =>
    obtain ⟨htaken, hstranded⟩ := ih fun q' hq' => h q' (List.mem_cons_of_mem q hq')
    have hq := h q List.mem_cons_self
    have hany : q.any held = q.any held' := by
      rw [Bool.eq_iff_iff, List.any_eq_true, List.any_eq_true]
      exact exists_congr fun i => and_congr_right fun hi => by rw [hq i hi]
    have hwhile : (q.takeWhile fun i => !held i) = q.takeWhile fun i => !held' i :=
      takeWhile_congr_mem fun i hi => by rw [hq i hi]
    rw [takenFrom, takenFrom, strandedFrom, strandedFrom, hany, hwhile, htaken, hstranded]
    exact ⟨rfl, rfl⟩

theorem maintenanceConsolidate_sweep (hcopies : ∀ b, env.purgesCopies b = true)
    (db : MaintenanceDb ε) (project : String) :
    let db' := (maintenanceConsolidate env db project false).1
    let copies := olderCopies db.memory.chunks (resolveBufferIds env db project)
    Deduplicated db.memory db'.memory copies ∧ db'.lastAccessed = db.lastAccessed ∧
      ∀ i, i ∈ db'.memory.vectors ↔ i ∈ db.memory.vectors ∧ i ∉ copies := by
  obtain ⟨hcopied, hpurged⟩ :=
    consolidated_sweep hcopies _ (db, {}) (@resolveBufferIds_nodup ε env db project)
  exact ⟨hcopied, (consolidated_same false _ (db, {})).2, hpurged⟩

theorem decayBuffers_projects (ids : List Int) : ∀ (db : MaintenanceDb ε)
    (report : MaintenanceReport), (decayBuffers env false ids db report).1.projects =
      db.projects := by
  induction ids with
  | nil => exact fun _ _ => rfl
  | cons b ids ih =>
    intro db report
    have hrun : (runDecayForBuffer env db b false).1.projects = db.projects := by
      unfold runDecayForBuffer
      split <;> rfl
    unfold decayBuffers
    generalize runDecayForBuffer env db b false = out at hrun
    obtain ⟨mid, e | count⟩ := out
    · exact hrun
    · exact (ih mid _).trans hrun

/-- A call leaves the projects. -/
theorem run_projects (db : MaintenanceDb ε) (project : String) (call : MaintenanceCall) :
    (call.run env db project).projects = db.projects := by
  have hfirst : (maintenanceConsolidate env db project false).1.projects = db.projects :=
    (consolidated_same false _ (db, {})).1
  cases call with
  | consolidate => exact hfirst
  | decay => exact decayBuffers_projects _ db {}
  | all => exact (decayBuffers_projects _ _ {}).trans hfirst

theorem mem_stranded {project : String} {call : MaintenanceCall} {i : Int}
    (h : i ∈ stranded env db project call) : i ∈ taken env db project call :=
  List.mem_append_right _ (mem_strandedFrom h)

theorem taken_present {project : String} {call : MaintenanceCall} {i : Int}
    (h : i ∈ taken env db project call) : ∃ r, (i, r) ∈ db.memory.chunks.rows := by
  rcases List.mem_append.mp h with h | h
  · have hcopy : i ∈ olderCopies db.memory.chunks (resolveBufferIds env db project) := by
      cases call with
      | decay => cases h
      | consolidate | all => exact h
    obtain ⟨r, hr, -⟩ := mem_olderCopies.mp hcopy
    exact ⟨r, hr⟩
  · obtain ⟨q, hq, hi⟩ := takenFrom_subset h
    have hqueue : ∃ b, q = decayQueue env db (copiesTaken env db project call) b := by
      cases call with
      | consolidate => cases hq
      | decay | all =>
        obtain ⟨b, -, rfl⟩ := List.mem_map.mp hq
        exact ⟨b, rfl⟩
    obtain ⟨b, rfl⟩ := hqueue
    obtain ⟨x, hx, rfl⟩ := List.mem_map.mp hi
    obtain ⟨y, hy, rfl⟩ := List.mem_map.mp (List.mem_filter.mp hx).1
    exact ⟨y.2, (mem_bufferRows.mp hy).1⟩

theorem stranded_spared {project : String} {call : MaintenanceCall} {i : Int}
    (h : i ∈ stranded env db project call) : i ∉ copiesTaken env db project call := by
  obtain ⟨q, hq, hi⟩ := strandedFrom_subset h
  cases call with
  | consolidate => cases hq
  | decay => exact List.not_mem_nil
  | all =>
    obtain ⟨b, -, rfl⟩ := List.mem_map.mp hq
    exact mem_decayQueue hi

/-- A call takes what is told before it, and the vectors of that but for the stranded ones. -/
theorem call_sweep (hcopies : ∀ b, env.purgesCopies b = true)
    (hdecayed : ∀ b, env.purgesDecayed b = true) (db : MaintenanceDb ε) (project : String)
    (call : MaintenanceCall) :
    Swept db.memory (call.run env db project).memory (taken env db project call) ∧
      ∀ i, i ∈ (call.run env db project).memory.vectors ↔ i ∈ db.memory.vectors ∧
        (i ∉ taken env db project call ∨ i ∈ stranded env db project call) := by
  have hnodup := @resolveBufferIds_nodup ε env db project
  obtain ⟨hcopied, hlast, hpurged⟩ := maintenanceConsolidate_sweep hcopies db project
  cases call with
  | consolidate =>
    unfold taken stranded queues
    rw [takenFrom, strandedFrom, List.append_nil]
    refine ⟨hcopied.toSwept, fun i => (hpurged i).trans (and_congr_right fun _ => ?_)⟩
    exact (or_iff_left List.not_mem_nil).symm
  | decay =>
    obtain ⟨hswept, hvectors⟩ := @decayBuffers_sweep ε env hdecayed
      (resolveBufferIds env db project) db {} hnodup
    rw [decayQueue_swept (.refl _) rfl] at hswept hvectors
    exact ⟨hswept, hvectors⟩
  | all =>
    have hheld : ∀ q ∈ queues env db project .all, ∀ i ∈ q,
        holds (maintenanceConsolidate env db project false).1.memory [] i =
          holds db.memory (copiesTaken env db project .all) i := by
      intro q hq i hi
      obtain ⟨b, -, rfl⟩ := List.mem_map.mp hq
      exact hcopied.holds (mem_decayQueue hi)
    obtain ⟨htaken, hstranded⟩ := takenFrom_congr hheld
    obtain ⟨hswept, hvectors⟩ := @decayBuffers_sweep ε env hdecayed
      (resolveBufferIds env db project) (maintenanceConsolidate env db project false).1 {} hnodup
    have hqueues : (resolveBufferIds env db project).map
          (decayedIds env (maintenanceConsolidate env db project false).1) =
        queues env db project .all := decayQueue_swept hcopied.toSwept hlast
    rw [hqueues, htaken] at hswept hvectors
    rw [hstranded] at hvectors
    have hrun : MaintenanceCall.all.run env db project = (decayBuffers env false
        (resolveBufferIds env db project)
        (maintenanceConsolidate env db project false).1 {}).1 := by
      rw [← resolveBufferIds_consolidated]
      rfl
    rw [hrun]
    refine ⟨hcopied.toSwept.trans hswept, fun i => ?_⟩
    rw [hvectors, hpurged, and_assoc]
    refine and_congr_right fun _ => ?_
    have hspared := @stranded_spared ε env db project .all i
    unfold taken
    rw [List.mem_append, not_or]
    constructor
    · rintro ⟨hcopy, htaken | hleft⟩
      · exact .inl ⟨hcopy, htaken⟩
      · exact .inr hleft
    · rintro (⟨hcopy, htaken⟩ | hleft)
      · exact ⟨hcopy, .inl htaken⟩
      · exact ⟨hspared hleft, .inr hleft⟩

end CallSweeps

end Arags
