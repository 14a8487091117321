import Arags.Lib.Autocommit
import Arags.Memory.Maintenance

/-!
# Arags.Memory.Removal

The three functions that remove chunks, `run_decay_for_buffer` of `maintenance.rs` and
`purge_inactive_chunks` and `delete_chunks_for_buffer` of `store/chunks.rs`, as lists of statements
that commit one by one. Any statement may fail.

* `removalStatements` — the four deletes; `roundEnd` is what they come to.
* `AllRemoved` — what a removal may leave behind.
* `chunk_removal_whole` — when each of the three does.
-/

namespace Arags

open Sql Autocommit

/-! ## The statements -/

section Statements

variable {ε : Type}

/-- Of the parameters of one statement. -/
def SQLITE_MAX_VARIABLE_NUMBER : Nat := 32766

/-- A statement with `n` parameters. -/
def withParams {σ : Type} (n : Nat) (f : SqlStatement σ) : SqlStatement σ := fun s =>
  if n ≤ SQLITE_MAX_VARIABLE_NUMBER then f s else none

def deleteFts (ids : List Int) : SqlStatement (MemoryDb ε) := fun db =>
  some { db with chunksFts := db.chunksFts.filter fun i => !ids.contains i }

def deleteTexts (ids : List Int) : SqlStatement (MemoryDb ε) := fun db =>
  some { db with chunkTexts := db.chunkTexts.filter fun i => !ids.contains i }

def deleteEntities (ids : List Int) : SqlStatement (MemoryDb ε) := fun db =>
  some { db with chunkEntities := db.chunkEntities.filter fun x => !ids.contains x.1 }

/-- `DELETE FROM chunks WHERE …`: a row of `chunk_texts`, `tasks` or `findings` that names one of
the chunks holds it; the rows of `chunk_entities` and `rlm_edges` go along. -/
def deleteChunkRows (p : Int → Chunk → Bool) : SqlStatement (MemoryDb ε) := fun db =>
  let ids := (db.chunks.select p).map Prod.fst
  let ofGone : Option Int → Bool := fun chunk => chunk.any ids.contains
  if db.chunkTexts.any ids.contains || db.tasks.any (fun x => ofGone x.2) ||
      db.findings.any fun x => ofGone x.2 then none
  else
    some { db with
      chunks := db.chunks.delete p
      chunkEntities := db.chunkEntities.filter fun x => !ids.contains x.1
      rlmEdges := db.rlmEdges.filter fun x => !ofGone x.2 }

/-- The four deletes, the first three with `n` parameters. -/
def removalStatements (n : Nat) (ids : List Int) (last : SqlStatement (MemoryDb ε)) :
    List (SqlStatement (MemoryDb ε)) :=
  [withParams n (deleteFts ids), withParams n (deleteTexts ids),
    withParams n (deleteEntities ids), last]

end Statements

/-! ## The functions -/

section Functions

variable {ε : Type}

/-- The chunks that a decay takes from a buffer. -/
def decayedIds (env : MaintenanceEnv) (db : MaintenanceDb ε) (bufferId : Int) : List Int :=
  ((decayInput db bufferId).filter fun x => env.belowFloor x.2).map Prod.fst

def decayStatements (ids : List Int) : List (SqlStatement (MemoryDb ε)) :=
  (ids.map fun id => removalStatements 1 [id] (deleteChunkRows fun i _ => i == id)).flatten

/-- `run_decay_for_buffer`, not a dry run; the second part is whether it returns `Ok`. -/
def runDecayStatements (fault : Option Nat) (env : MaintenanceEnv) (db : MaintenanceDb ε)
    (bufferId : Int) : MaintenanceDb ε × Bool :=
  let ids := decayedIds env db bufferId
  let out := run (failAt fault (decayStatements ids)) db.memory
  let vectors :=
    if out.2 && env.purgesDecayed bufferId then deleteChunkIds out.1.vectors ids else out.1.vectors
  ({ db with memory := { out.1 with vectors := vectors } }, out.2)

/-- `as i64`. -/
def asI64 (n : Int) : Int := (n + 2 ^ 63) % 2 ^ 64 - 2 ^ 63

/-- `is_active = 0 AND retired_at IS NOT NULL AND retired_at <= unixepoch() - ?1`. -/
def purgeableIds (db : MemoryDb ε) (retiredAt : Int → Option Int) (retentionDays now : Int) :
    List Int :=
  let cutoff := asI64 (asI64 retentionDays * 86400)
  (db.chunks.select fun i r => !r.isActive && (retiredAt i).any fun t =>
    decide (t ≤ now - cutoff)).map Prod.fst

def purgeInactiveChunks (fault : Option Nat) (db : MemoryDb ε) (retiredAt : Int → Option Int)
    (retentionDays now : Int) : MemoryDb ε × Option Nat :=
  let ids := purgeableIds db retiredAt retentionDays now
  if ids.isEmpty then (db, some 0)
  else
    let out := run (failAt fault (removalStatements ids.length ids
      (withParams ids.length (deleteChunkRows fun i _ => ids.contains i)))) db
    (out.1, if out.2 then some ids.length else none)

/-- The ids that are deleted and the number of their files. -/
def deleteChunksForBuffer (fault : Option Nat) (db : MemoryDb ε) (bufferId : Int) :
    MemoryDb ε × Option (List Int × Nat) :=
  let rows := bufferRows db.chunks bufferId
  let ids := rows.map Prod.fst
  let files := ((rows.map fun x => x.2.filePath).dedup).length
  if ids.isEmpty then (db, some (ids, files))
  else
    let out := run (failAt fault (removalStatements ids.length ids
      (deleteChunkRows fun _ r => r.bufferId == bufferId))) db
    (out.1, if out.2 then some (ids, files) else none)

end Functions

/-! ## One round -/

section Round

variable {ε : Type} {db : MemoryDb ε} {n : Nat} {ids : List Int} {fault : Option Nat}

/-- After the first `j` deletes of a round. -/
def roundStage (db : MemoryDb ε) (ids : List Int) (j : Nat) : MemoryDb ε :=
  { db with
    chunksFts := if 1 ≤ j then db.chunksFts.filter fun i => !ids.contains i else db.chunksFts
    chunkTexts := if 2 ≤ j then db.chunkTexts.filter fun i => !ids.contains i else db.chunkTexts
    chunkEntities :=
      if 3 ≤ j then db.chunkEntities.filter fun x => !ids.contains x.1 else db.chunkEntities }

/-- After all of them. -/
def roundDone (db : MemoryDb ε) (ids : List Int) : MemoryDb ε :=
  { roundStage db ids 3 with
    chunks := db.chunks.delete fun i _ => ids.contains i
    rlmEdges := db.rlmEdges.filter fun x => !x.2.any ids.contains }

/-- A task or a finding names one of the chunks. -/
def Held (db : MemoryDb ε) (ids : List Int) : Prop := ∃ id ∈ ids, ¬ Unreferenced db id

/-- The statement of the round that fails, if one does: the first for want of parameters, one that
the storage fails, or the last because a chunk is held. -/
def roundStops (fault : Option Nat) (n : Nat) (held : Bool) : Option Nat :=
  if SQLITE_MAX_VARIABLE_NUMBER < n then some 0
  else
    match fault with
    | some 0 => some 0
    | some 1 => some 1
    | some 2 => some 2
    | some 3 => some 3
    | _ => if held then some 3 else none

/-- The last delete of a round selects the chunks of the list. -/
structure SelectsIds (db : MemoryDb ε) (ids : List Int) (p : Int → Chunk → Bool) : Prop where
  same : ∀ i r, (i, r) ∈ db.chunks.rows → p i r = ids.contains i
  present : ∀ i ∈ ids, ∃ r, (i, r) ∈ db.chunks.rows

theorem held_iff : (db.tasks.any (fun x => x.2.any ids.contains) ||
    db.findings.any fun x => x.2.any ids.contains) = true ↔ Held db ids := by
  unfold Held Unreferenced
  simp only [Bool.or_eq_true, List.any_eq_true, Option.any_eq_true, List.contains_iff_mem]
  constructor
  · rintro (⟨t, ht, id, hid, hmem⟩ | ⟨f, hf, id, hid, hmem⟩)
    · exact ⟨id, hmem, fun h => h.1 t ht hid⟩
    · exact ⟨id, hmem, fun h => h.2 f hf hid⟩
  · rintro ⟨id, hmem, h⟩
    by_contra hno
    push Not at hno
    exact h ⟨fun t ht he => hno.1 t ht id he hmem, fun f hf he => hno.2 f hf id he hmem⟩

instance : Decidable (Held db ids) := decidable_of_iff _ held_iff

/-- The last delete, when the others have been made. -/
theorem deleteChunkRows_last {p : Int → Chunk → Bool} (hp : SelectsIds db ids p) :
    deleteChunkRows p (roundStage db ids 3) =
      if Held db ids then none else some (roundDone db ids) := by
  have htexts : (db.chunkTexts.filter fun i => !ids.contains i).any ids.contains = false := by
    rw [List.any_eq_false]
    intro i hi
    simpa using (List.mem_filter.mp hi).2
  have hgone : ((db.chunks.select p).map Prod.fst).contains = ids.contains := by
    funext i
    rw [Bool.eq_iff_iff, List.contains_iff_mem, List.contains_iff_mem, List.mem_map]
    constructor
    · rintro ⟨⟨j, r⟩, hx, rfl⟩
      obtain ⟨hr, hpr⟩ := Table.mem_select.mp hx
      rw [hp.same j r hr] at hpr
      exact List.contains_iff_mem.mp hpr
    · intro hi
      obtain ⟨r, hr⟩ := hp.present i hi
      refine ⟨(i, r), Table.mem_select.mpr ⟨hr, ?_⟩, rfl⟩
      rw [hp.same i r hr]
      exact List.contains_iff_mem.mpr hi
  have hdelete : db.chunks.delete p = db.chunks.delete fun i _ => ids.contains i :=
    SeqTable.delete_congr hp.same
  have hentities : (db.chunkEntities.filter fun x => !ids.contains x.1).filter
      (fun x => !ids.contains x.1) = db.chunkEntities.filter fun x => !ids.contains x.1 := by
    rw [List.filter_filter]
    simp only [Bool.and_self]
  have hgoneAt : ∀ i, ((db.chunks.select p).map Prod.fst).contains i = ids.contains i :=
    congrFun hgone
  unfold deleteChunkRows
  simp only [roundStage, hgone, hgoneAt, hdelete, hentities, htexts, Bool.false_or,
    Nat.reduceLeDiff, if_true]
  by_cases hheld : Held db ids
  · rw [if_pos hheld, if_pos (held_iff.mpr hheld)]
  · rw [if_neg hheld, if_neg (mt held_iff.mp hheld)]
    rfl

/-- A round, whatever fails in it. -/
theorem run_round {p : Int → Chunk → Bool} (hp : SelectsIds db ids p) {last}
    (hlast : n ≤ SQLITE_MAX_VARIABLE_NUMBER → last = deleteChunkRows p) :
    run (failAt fault (removalStatements n ids last)) db =
      match roundStops fault n (decide (Held db ids)) with
      | some j => (roundStage db ids j, false)
      | none => (roundDone db ids, true) := by
  unfold roundStops
  by_cases hn : SQLITE_MAX_VARIABLE_NUMBER < n
  · have hnone : ∀ f : SqlStatement (MemoryDb ε), withParams n f db = none :=
      fun f => if_neg (Nat.not_le.mpr hn)
    have hfirst : ∃ f rest, failAt fault (removalStatements n ids last) = f :: rest ∧
        f db = none := by
      unfold removalStatements
      match fault with
      | none => exact ⟨_, _, rfl, hnone _⟩
      | some 0 => exact ⟨_, _, rfl, rfl⟩
      | some (k + 1) => exact ⟨_, _, rfl, hnone _⟩
    obtain ⟨f, rest, hcons, hf⟩ := hfirst
    rw [if_pos hn, hcons, run_cons_none hf]
    rfl
  · have hle := Nat.not_lt.mp hn
    have hsome : ∀ f : SqlStatement (MemoryDb ε), withParams n f = f :=
      fun f => funext fun s => if_pos hle
    have hrun : ∀ end_ : SqlStatement (MemoryDb ε),
        run [deleteFts ids, deleteTexts ids, deleteEntities ids, end_] db =
          run [end_] (roundStage db ids 3) := fun _ => rfl
    have hend : run [deleteFts ids, deleteTexts ids, deleteEntities ids, deleteChunkRows p] db =
        match (if decide (Held db ids) = true then some 3 else none) with
        | some j => (roundStage db ids j, false)
        | none => (roundDone db ids, true) := by
      rw [hrun]
      by_cases hheld : Held db ids
      · rw [run_cons_none (by rw [deleteChunkRows_last hp, if_pos hheld]),
          if_pos (decide_eq_true hheld)]
      · rw [run_cons_some (by rw [deleteChunkRows_last hp, if_neg hheld]),
          if_neg (by rwa [decide_eq_true_eq])]
        rfl
    rw [if_neg hn, hlast hle]
    unfold removalStatements
    simp only [hsome]
    match fault with
    | none => exact hend
    | some 0 => rfl
    | some 1 => rfl
    | some 2 => rfl
    | some 3 => rfl
    | some (k + 4) => exact hend

end Round

/-! ## What is left -/

section Whole

variable {ε : Type} {db db' db'' : MemoryDb ε} {n : Nat} {ids : List Int} {fault : Option Nat}

/-- The chunks are gone with their full-text, text and entity rows, and nothing else is. -/
structure Gone (db db' : MemoryDb ε) (ids : List Int) : Prop where
  chunks : ∀ i r, (i, r) ∈ db'.chunks.rows ↔ (i, r) ∈ db.chunks.rows ∧ i ∉ ids
  fts : ∀ i, i ∈ db'.chunksFts ↔ i ∈ db.chunksFts ∧ i ∉ ids
  texts : ∀ i, i ∈ db'.chunkTexts ↔ i ∈ db.chunkTexts ∧ i ∉ ids
  entities : ∀ i e, (i, e) ∈ db'.chunkEntities ↔ (i, e) ∈ db.chunkEntities ∧ i ∉ ids

/-- A call that returns `Ok` has removed the chunks, one that returns `Err` nothing; and no chunk is
left without a text or a full-text row that it had. -/
structure AllRemoved (db db' : MemoryDb ε) (ids : List Int) (ok : Bool) : Prop where
  removed : ok = true → Gone db db' ids
  failed : ok = false → db' = db
  whole : ∀ i r, (i, r) ∈ db'.chunks.rows → (i ∈ db.chunkTexts → i ∈ db'.chunkTexts) ∧
    (i ∈ db.chunksFts → i ∈ db'.chunksFts)

/-- The tables that come before statement `j` of a round have no row of the chunks. -/
structure NothingBefore (db : MemoryDb ε) (ids : List Int) (j : Nat) : Prop where
  fts : 1 ≤ j → ∀ i ∈ ids, i ∉ db.chunksFts
  texts : 2 ≤ j → ∀ i ∈ ids, i ∉ db.chunkTexts
  entities : 3 ≤ j → ∀ i ∈ ids, ∀ e, (i, e) ∉ db.chunkEntities

/-- The round fails before it has deleted anything. -/
def StopsAtOnce (fault : Option Nat) (n : Nat) (db : MemoryDb ε) (ids : List Int) : Prop :=
  ∃ j, roundStops fault n (decide (Held db ids)) = some j ∧ NothingBefore db ids j

theorem Gone.trans {ids' : List Int} (h : Gone db db' ids) (h' : Gone db' db'' ids') :
    Gone db db'' (ids ++ ids') where
  chunks i r := by rw [h'.chunks, h.chunks, List.mem_append, not_or, and_assoc]
  fts i := by rw [h'.fts, h.fts, List.mem_append, not_or, and_assoc]
  texts i := by rw [h'.texts, h.texts, List.mem_append, not_or, and_assoc]
  entities i e := by rw [h'.entities, h.entities, List.mem_append, not_or, and_assoc]

theorem gone_roundDone (db : MemoryDb ε) (ids : List Int) : Gone db (roundDone db ids) ids where
  chunks i r := by simp [roundDone, SeqTable.mem_delete]
  fts i := by simp [roundDone, roundStage]
  texts i := by simp [roundDone, roundStage]
  entities i e := by simp [roundDone, roundStage]

theorem AllRemoved.of {ok : Bool} (hgone : ok = true → Gone db db' ids)
    (hsame : ok = false → db' = db) : AllRemoved db db' ids ok where
  removed := hgone
  failed := hsame
  whole := by
    intro i r hr
    cases ok with
    | true =>
      have h := hgone rfl
      have hi := ((h.chunks i r).mp hr).2
      exact ⟨fun ht => (h.texts i).mpr ⟨ht, hi⟩, fun hf => (h.fts i).mpr ⟨hf, hi⟩⟩
    | false =>
      rw [hsame rfl]
      exact ⟨id, id⟩

/-- A delete by ids that finds nothing. -/
theorem filter_ids_eq_self {α : Type} {l : List α} {f : α → Int} :
    l.filter (fun x => !ids.contains (f x)) = l ↔ ∀ i ∈ ids, ∀ x ∈ l, f x ≠ i := by
  rw [List.filter_eq_self]
  simp only [Bool.not_eq_true', ← Bool.not_eq_true, List.contains_iff_mem]
  constructor
  · rintro h i hi x hx rfl
    exact h x hx hi
  · exact fun h x hx hi => h _ hi x hx rfl

theorem roundStage_eq_iff {j : Nat} : roundStage db ids j = db ↔ NothingBefore db ids j := by
  constructor
  · intro h
    have hfts := ite_eq_right_iff.mp (congrArg MemoryDb.chunksFts h)
    have htexts := ite_eq_right_iff.mp (congrArg MemoryDb.chunkTexts h)
    have hentities := ite_eq_right_iff.mp (congrArg MemoryDb.chunkEntities h)
    refine ⟨fun hj i hi hmem => ?_, fun hj i hi hmem => ?_, fun hj i hi e hmem => ?_⟩
    · exact (filter_ids_eq_self (f := id)).mp (hfts hj) i hi i hmem rfl
    · exact (filter_ids_eq_self (f := id)).mp (htexts hj) i hi i hmem rfl
    · exact filter_ids_eq_self.mp (hentities hj) i hi (i, e) hmem rfl
  · rintro ⟨hfts, htexts, hentities⟩
    have h1 := ite_eq_right_iff.mpr fun hj => (filter_ids_eq_self
      (f := id) (l := db.chunksFts)).mpr fun i hi x hx he => hfts hj i hi (he ▸ hx)
    have h2 := ite_eq_right_iff.mpr fun hj => (filter_ids_eq_self
      (f := id) (l := db.chunkTexts)).mpr fun i hi x hx he => htexts hj i hi (he ▸ hx)
    have h3 := ite_eq_right_iff.mpr fun hj => (filter_ids_eq_self
      (f := Prod.fst) (l := db.chunkEntities)).mpr fun i hi x hx he =>
        hentities hj i hi x.2 (he ▸ hx)
    dsimp only [id] at h1 h2
    unfold roundStage
    rw [h1, h2, h3]

/-- A call that is one round. -/
theorem round_whole_iff {p : Int → Chunk → Bool} (hp : SelectsIds db ids p) {last}
    (hlast : n ≤ SQLITE_MAX_VARIABLE_NUMBER → last = deleteChunkRows p) :
    let out := run (failAt fault (removalStatements n ids last)) db
    AllRemoved db out.1 ids out.2 ↔
      roundStops fault n (decide (Held db ids)) = none ∨ StopsAtOnce fault n db ids := by
  dsimp only
  rw [run_round hp hlast]
  cases hstops : roundStops fault n (decide (Held db ids)) with
  | none =>
    refine iff_of_true (.of (fun _ => gone_roundDone db ids) fun h => ?_) (.inl rfl)
    cases h
  | some j =>
    constructor
    · intro h
      exact .inr ⟨j, hstops, roundStage_eq_iff.mp (h.failed rfl)⟩
    · rintro (h | ⟨j', hj', hnothing⟩)
      · cases h
      · rw [hstops] at hj'
        obtain rfl := Option.some.inj hj'
        refine .of (fun h => ?_) fun _ => roundStage_eq_iff.mpr hnothing
        cases h

end Whole

/-! ## A decay -/

section Decay

variable {ε : Type} {db : MemoryDb ε} {ids : List Int} {fault : Option Nat} {id : Int}

/-- The faults that are left after a round. -/
def laterFault (fault : Option Nat) : Option Nat :=
  fault.bind fun k => if 4 ≤ k then some (k - 4) else none

/-- No statement of the decay fails. -/
def DecayCompletes (fault : Option Nat) (db : MemoryDb ε) (ids : List Int) : Prop :=
  (∀ k ∈ fault, 4 * ids.length ≤ k) ∧ ¬ Held db ids

theorem selectsIds_one (h : ∃ r, (id, r) ∈ db.chunks.rows) :
    SelectsIds db [id] fun i _ => i == id where
  same i r _ := by rw [List.contains_cons, List.contains_nil, Bool.or_false]
  present i hi := by rwa [List.mem_singleton.mp hi]

theorem run_decay_cons (h : ∃ r, (id, r) ∈ db.chunks.rows) :
    run (failAt fault (decayStatements (id :: ids))) db =
      match roundStops fault 1 (decide (Held db [id])) with
      | some j => (roundStage db [id] j, false)
      | none => run (failAt (laterFault fault) (decayStatements ids)) (roundDone db [id]) := by
  have hlist : (decayStatements (id :: ids) : List (SqlStatement (MemoryDb ε))) =
      removalStatements 1 [id] (deleteChunkRows fun i _ => i == id) ++ decayStatements ids := rfl
  rw [hlist, failAt_append, run_append, run_round (selectsIds_one h) fun _ => rfl]
  cases roundStops fault 1 (decide (Held db [id])) with
  | some j => rfl
  | none => rfl

/-- A first round goes through exactly when no fault is in it and nothing holds its chunk. -/
theorem roundStops_none : roundStops fault 1 (decide (Held db [id])) = none ↔
    (∀ k ∈ fault, 4 ≤ k) ∧ ¬ Held db [id] := by
  have hparams : ¬ SQLITE_MAX_VARIABLE_NUMBER < 1 := by decide
  unfold roundStops
  rw [if_neg hparams]
  match fault with
  | none => simp
  | some 0 => simp
  | some 1 => simp
  | some 2 => simp
  | some 3 => simp
  | some (k + 4) => simp

theorem held_cons : Held db (id :: ids) ↔ Held db [id] ∨ Held db ids := by
  unfold Held
  simp

theorem decayCompletes_cons : DecayCompletes fault db (id :: ids) ↔
    roundStops fault 1 (decide (Held db [id])) = none ∧
      DecayCompletes (laterFault fault) (roundDone db [id]) ids := by
  have hheld : Held (roundDone db [id]) ids ↔ Held db ids := Iff.rfl
  have hfault : (∀ k ∈ fault, 4 * (id :: ids).length ≤ k) ↔
      (∀ k ∈ fault, 4 ≤ k) ∧ ∀ k ∈ laterFault fault, 4 * ids.length ≤ k := by
    cases fault with
    | none => simp [laterFault]
    | some k =>
      by_cases hk : 4 ≤ k
      · have hlater : laterFault (some k) = some (k - 4) := if_pos hk
        simp only [hlater, Option.mem_def, Option.some.injEq, forall_eq', List.length_cons]
        omega
      · have hlater : laterFault (some k) = none := if_neg hk
        simp only [hlater, Option.mem_def, Option.some.injEq, forall_eq', List.length_cons]
        omega
  unfold DecayCompletes
  rw [roundStops_none, hfault, held_cons, hheld, not_or]
  constructor
  · rintro ⟨⟨hfirst, hlater⟩, hone, hrest⟩
    exact ⟨⟨hfirst, hone⟩, hlater, hrest⟩
  · rintro ⟨⟨hfirst, hone⟩, hlater, hrest⟩
    exact ⟨⟨hfirst, hlater⟩, hone, hrest⟩

theorem present_roundDone (hid : id ∉ ids)
    (hpresent : ∀ i ∈ id :: ids, ∃ r, (i, r) ∈ db.chunks.rows) :
    ∀ i ∈ ids, ∃ r, (i, r) ∈ (roundDone db [id]).chunks.rows := by
  intro i hi
  obtain ⟨r, hr⟩ := hpresent i (List.mem_cons_of_mem id hi)
  refine ⟨r, ((gone_roundDone db [id]).chunks i r).mpr ⟨hr, ?_⟩⟩
  rw [List.mem_singleton]
  rintro rfl
  exact hid hi

/-- A decay goes through to the end exactly when no statement fails, and has then removed all. -/
theorem run_decay (ids : List Int) : ∀ (fault : Option Nat) (db : MemoryDb ε), ids.Nodup →
    (∀ i ∈ ids, ∃ r, (i, r) ∈ db.chunks.rows) →
    ((run (failAt fault (decayStatements ids)) db).2 = true ↔ DecayCompletes fault db ids) ∧
      ((run (failAt fault (decayStatements ids)) db).2 = true →
        Gone db (run (failAt fault (decayStatements ids)) db).1 ids) := by
  induction ids with
  | nil =>
    intro fault db _ _
    have hrun : run (failAt fault (decayStatements [])) db = (db, true) := by
      cases fault <;> rfl
    rw [hrun]
    refine ⟨iff_of_true rfl ⟨fun k _ => Nat.zero_le k, ?_⟩, fun _ => ?_⟩
    · rintro ⟨id, hid, -⟩
      cases hid
    · constructor <;> simp
  | cons id ids ih =>
    intro fault db hnodup hpresent
    obtain ⟨hid, hnodup⟩ := List.nodup_cons.mp hnodup
    rw [run_decay_cons (hpresent id List.mem_cons_self), decayCompletes_cons]
    cases roundStops fault 1 (decide (Held db [id])) with
    | some j =>
      refine ⟨iff_of_false Bool.false_ne_true ?_, fun h => ?_⟩
      · rintro ⟨h, -⟩
        cases h
      · cases h
    | none =>
      obtain ⟨hiff, hrest⟩ := ih (laterFault fault) (roundDone db [id]) hnodup
        (present_roundDone hid hpresent)
      refine ⟨hiff.trans ?_, fun h => (gone_roundDone db [id]).trans (hrest h)⟩
      exact (and_iff_right rfl).symm

/-- Wherever a decay stops, no chunk has come back. -/
theorem run_decay_subset (ids : List Int) : ∀ (fault : Option Nat) (db : MemoryDb ε), ids.Nodup →
    (∀ i ∈ ids, ∃ r, (i, r) ∈ db.chunks.rows) →
    ∀ i r, (i, r) ∈ (run (failAt fault (decayStatements ids)) db).1.chunks.rows →
      (i, r) ∈ db.chunks.rows := by
  induction ids with
  | nil =>
    intro fault db _ _ i r h
    cases fault <;> exact h
  | cons id ids ih =>
    intro fault db hnodup hpresent i r h
    obtain ⟨hid, hnodup⟩ := List.nodup_cons.mp hnodup
    rw [run_decay_cons (hpresent id List.mem_cons_self)] at h
    cases hstops : roundStops fault 1 (decide (Held db [id])) with
    | some j =>
      rw [hstops] at h
      exact h
    | none =>
      rw [hstops] at h
      have hleft := ih _ _ hnodup (present_roundDone hid hpresent) i r h
      exact (((gone_roundDone db [id]).chunks i r).mp hleft).1

/-- A decay removes all or nothing when no statement fails, or one of the first round does before
anything is deleted. -/
theorem decay_whole_iff (hnodup : ids.Nodup) (hpresent : ∀ i ∈ ids, ∃ r, (i, r) ∈ db.chunks.rows) :
    let out := run (failAt fault (decayStatements ids)) db
    AllRemoved db out.1 ids out.2 ↔
      DecayCompletes fault db ids ∨ ∃ id ∈ ids.head?, StopsAtOnce fault 1 db [id] := by
  dsimp only
  obtain ⟨hiff, hgone⟩ := run_decay ids fault db hnodup hpresent
  cases hok : (run (failAt fault (decayStatements ids)) db).2 with
  | true => exact iff_of_true (.of (fun _ => hgone hok) fun h => nomatch h) (.inl (hiff.mp hok))
  | false =>
    have hfails : ¬ DecayCompletes fault db ids := fun h => by
      rw [hiff.mpr h] at hok
      cases hok
    have hsame : AllRemoved db (run (failAt fault (decayStatements ids)) db).1 ids false ↔
        (run (failAt fault (decayStatements ids)) db).1 = db :=
      ⟨fun h => h.failed rfl, fun h => .of (fun hf => nomatch hf) fun _ => h⟩
    rw [hsame, or_iff_right hfails]
    cases ids with
    | nil => exact absurd ⟨fun k _ => Nat.zero_le k, fun h => nomatch h⟩ hfails
    | cons id ids =>
      have hid := hpresent id List.mem_cons_self
      rw [run_decay_cons hid]
      simp only [List.head?_cons, Option.mem_def, Option.some.injEq, exists_eq_left']
      unfold StopsAtOnce
      cases roundStops fault 1 (decide (Held db [id])) with
      | some j =>
        simp only [Option.some.injEq, exists_eq_left']
        exact roundStage_eq_iff
      | none =>
        refine iff_of_false (fun h => ?_) fun h => nomatch h.choose_spec.1
        -- the chunk of the first round is gone and does not come back
        obtain ⟨hnotin, hnodup⟩ := List.nodup_cons.mp hnodup
        obtain ⟨r, hr⟩ := hid
        rw [← h] at hr
        have hleft := run_decay_subset ids _ _ hnodup (present_roundDone hnotin hpresent) id r hr
        exact (((gone_roundDone db [id]).chunks id r).mp hleft).2 List.mem_cons_self

/-- One chunk of the loop, as its four statements. -/
theorem decayChunk_eq (db : MemoryDb ε) (id : Int) : decayChunk db id =
    if Held db [id] then (roundStage db [id] 3, .error "failed to delete chunk")
    else (roundDone db [id], .ok ()) := by
  have hone : ∀ i : Int, (i == id) = [id].contains i := by
    intro i
    rw [List.contains_cons, List.contains_nil, Bool.or_false]
  have hnamed : ∀ chunk : Option Int, (chunk == some id) = chunk.any [id].contains := by
    intro chunk
    cases chunk with
    | none => rfl
    | some i => exact hone i
  unfold decayChunk
  simp only [bne, hone, hnamed, held_iff]
  by_cases hheld : Held db [id]
  · rw [if_pos hheld, if_pos hheld]
    rfl
  · rw [if_neg hheld, if_neg hheld]
    rfl

/-- The chunks below the floor, of the rows that were read. -/
def belowIds (env : MaintenanceEnv) (rows : List (Int × Int)) : List Int :=
  (rows.filter fun x => env.belowFloor x.2).map Prod.fst

/-- Without a fault of the storage the statements come to what the loop does. -/
theorem decayRows_run (env : MaintenanceEnv) (rows : List (Int × Int)) :
    ∀ (db : MemoryDb ε) (count : DecayCount) (removed : List Int),
      (rows.map Prod.fst).Nodup → (∀ x ∈ rows, ∃ r, (x.1, r) ∈ db.chunks.rows) →
      (decayRows env false rows db count removed).1 =
          (run (decayStatements (belowIds env rows)) db).1 ∧
        (decayRows env false rows db count removed).2.toOption.map Prod.snd =
          if (run (decayStatements (belowIds env rows)) db).2 then
            some (removed ++ belowIds env rows) else none := by
  induction rows with
  | nil =>
    intro db count removed _ _
    exact ⟨rfl, congrArg some (List.append_nil removed).symm⟩
  | cons x rows ih =>
    intro db count removed hnodup hpresent
    obtain ⟨id, last⟩ := x
    obtain ⟨hid, hnodup⟩ := List.nodup_cons.mp hnodup
    have hrest : ∀ x ∈ rows, ∃ r, (x.1, r) ∈ db.chunks.rows :=
      fun x hx => hpresent x (List.mem_cons_of_mem _ hx)
    unfold decayRows
    cases hbelow : env.belowFloor last with
    | false =>
      have hids : belowIds env ((id, last) :: rows) = belowIds env rows := by
        rw [belowIds, List.filter_cons_of_neg (by simp [hbelow])]
        rfl
      rw [hids]
      exact ih db _ removed hnodup hrest
    | true =>
      have hids : belowIds env ((id, last) :: rows) = id :: belowIds env rows := by
        rw [belowIds, List.filter_cons_of_pos (by simp [hbelow])]
        rfl
      have hcons : run (decayStatements (id :: belowIds env rows)) db = _ :=
        @run_decay_cons ε db _ none id (hpresent (id, last) List.mem_cons_self)
      rw [hids, hcons, if_pos rfl, if_neg Bool.false_ne_true, decayChunk_eq]
      by_cases hheld : Held db [id]
      · have hstops : roundStops none 1 (decide (Held db [id])) = some 3 := by
          rw [decide_eq_true hheld]
          rfl
        rw [hstops, if_pos hheld]
        exact ⟨rfl, rfl⟩
      · have hstops : roundStops none 1 (decide (Held db [id])) = none := by
          rw [decide_eq_false hheld]
          rfl
        rw [hstops, if_neg hheld]
        have hlater := ih (roundDone db [id])
          { count with decayedChunks := count.decayedChunks + 1 } (removed ++ [id]) hnodup
          fun x hx => by
            obtain ⟨r, hr⟩ := hrest x hx
            refine ⟨r, ((gone_roundDone db [id]).chunks x.1 r).mpr ⟨hr, ?_⟩⟩
            rw [List.mem_singleton]
            intro he
            have hmem : x.1 ∈ rows.map Prod.fst := List.mem_map_of_mem hx
            rw [he] at hmem
            exact hid hmem
        rw [List.append_assoc] at hlater
        exact hlater

end Decay

/-! ## The three functions -/

section Calls

variable {ε : Type}

theorem decayInput_nodup (db : MaintenanceDb ε) (bufferId : Int) :
    ((decayInput db bufferId).map Prod.fst).Nodup := by
  have hids : (decayInput db bufferId).map Prod.fst =
      (bufferRows db.memory.chunks bufferId).map Prod.fst := by
    unfold decayInput
    rw [List.map_map]
    rfl
  rw [hids]
  exact db.memory.chunks.nodup.sublist (List.filter_sublist.map _)

theorem decayInput_present (db : MaintenanceDb ε) (bufferId : Int) :
    ∀ x ∈ decayInput db bufferId, ∃ r, (x.1, r) ∈ db.memory.chunks.rows := by
  intro x hx
  obtain ⟨y, hy, rfl⟩ := List.mem_map.mp hx
  exact ⟨y.2, (mem_bufferRows.mp hy).1⟩

theorem decayedIds_nodup (env : MaintenanceEnv) (db : MaintenanceDb ε) (bufferId : Int) :
    (decayedIds env db bufferId).Nodup :=
  (decayInput_nodup db bufferId).sublist (List.filter_sublist.map _)

theorem decayedIds_present (env : MaintenanceEnv) (db : MaintenanceDb ε) (bufferId : Int) :
    ∀ i ∈ decayedIds env db bufferId, ∃ r, (i, r) ∈ db.memory.chunks.rows := by
  intro i hi
  obtain ⟨x, hx, rfl⟩ := List.mem_map.mp hi
  exact decayInput_present db bufferId x (List.mem_filter.mp hx).1

/-- A selection by a clause, made again by the ids that it gave. -/
theorem selectsIds_select (db : MemoryDb ε) (p : Int → Chunk → Bool) :
    SelectsIds db ((db.chunks.select p).map Prod.fst) p where
  same i r hr := by
    rw [Bool.eq_iff_iff, List.contains_iff_mem, List.mem_map]
    constructor
    · intro hp
      exact ⟨(i, r), Table.mem_select.mpr ⟨hr, hp⟩, rfl⟩
    · rintro ⟨⟨j, s⟩, hs, rfl⟩
      obtain ⟨hs, hp⟩ := Table.mem_select.mp hs
      obtain rfl := Table.eq_of_mem hs hr
      exact hp
  present i hi := by
    obtain ⟨x, hx, rfl⟩ := List.mem_map.mp hi
    exact ⟨x.2, (Table.mem_select.mp hx).1⟩

theorem SelectsIds.contains {db : MemoryDb ε} {ids : List Int} {p : Int → Chunk → Bool}
    (h : SelectsIds db ids p) : SelectsIds db ids fun i _ => ids.contains i where
  same _ _ _ := rfl
  present := h.present

/-- The vectors, which go after the rows, are none of the tables. -/
theorem allRemoved_vectors {db db' : MemoryDb ε} {ids : List Int} {ok : Bool}
    {vectors : VectorStore ε} (h : ok = false → vectors = db'.vectors) :
    AllRemoved db { db' with vectors := vectors } ids ok ↔ AllRemoved db db' ids ok := by
  cases ok with
  | false =>
    rw [h rfl]
  | true =>
    constructor
    · intro h
      exact .of (fun _ => ⟨(h.removed rfl).chunks, (h.removed rfl).fts, (h.removed rfl).texts,
        (h.removed rfl).entities⟩) fun h => nomatch h
    · intro h
      exact .of (fun _ => ⟨(h.removed rfl).chunks, (h.removed rfl).fts, (h.removed rfl).texts,
        (h.removed rfl).entities⟩) fun h => nomatch h

theorem allRemoved_nil (db : MemoryDb ε) : AllRemoved db db [] true :=
  .of (fun _ => by constructor <;> simp) fun h => nomatch h

/-- A call of one round, which is made when there are ids. -/
theorem call_whole_iff {β : Type} {fault : Option Nat} {db : MemoryDb ε} {ids : List Int}
    {p : Int → Chunk → Bool} (hp : SelectsIds db ids p) {last}
    (hlast : ids.length ≤ SQLITE_MAX_VARIABLE_NUMBER → last = deleteChunkRows p)
    {nothing done : β} {out : MemoryDb ε × Option β}
    (hout : out = if ids.isEmpty then (db, some nothing)
      else
        ((run (failAt fault (removalStatements ids.length ids last)) db).1,
          if (run (failAt fault (removalStatements ids.length ids last)) db).2 then some done
          else none)) :
    AllRemoved db out.1 ids out.2.isSome ↔
      ids = [] ∨ roundStops fault ids.length (decide (Held db ids)) = none ∨
        StopsAtOnce fault ids.length db ids := by
  subst hout
  by_cases hids : ids = []
  · subst hids
    exact iff_of_true (allRemoved_nil db) (.inl rfl)
  · have hempty : ¬ ids.isEmpty = true := mt List.isEmpty_iff.mp hids
    have hround := @round_whole_iff ε db ids.length ids fault p hp last hlast
    dsimp only at hround
    rw [if_neg hempty, or_iff_right hids, ← hround]
    cases hok : (run (failAt fault (removalStatements ids.length ids last)) db).2 with
    | true => exact Iff.rfl
    | false => exact Iff.rfl

/-- Where no statement fails for a reason of the storage this is the decay of the maintenance
pass. -/
theorem runDecayStatements_eq (env : MaintenanceEnv) (db : MaintenanceDb ε) (bufferId : Int) :
    runDecayStatements none env db bufferId = ((runDecayForBuffer env db bufferId false).1,
      (runDecayForBuffer env db bufferId false).2.isOk) := by
  obtain ⟨hmemory, hok⟩ := decayRows_run env (decayInput db bufferId) db.memory {} []
    (decayInput_nodup db bufferId) (decayInput_present db bufferId)
  have hids : decayedIds env db bufferId = belowIds env (decayInput db bufferId) := rfl
  unfold runDecayStatements runDecayForBuffer
  dsimp only [failAt]
  rw [hids, ← hmemory]
  generalize (run (decayStatements (belowIds env (decayInput db bufferId))) db.memory).2 = ok at *
  match hrun : decayRows env false (decayInput db bufferId) db.memory {} [] with
  | (memory, .error e) =>
    rw [hrun] at hok
    cases ok with
    | true => cases hok
    | false => rfl
  | (memory, .ok (count, removed)) =>
    rw [hrun] at hok
    cases ok with
    | true =>
      obtain rfl : removed = belowIds env (decayInput db bufferId) := Option.some.inj hok
      simp only [Bool.true_and]
      rfl
    | false => cases hok

/-- The three functions remove all or nothing exactly when no statement fails, because of the
storage, of the number of ids or of a task or a finding that names a chunk, or the first that fails
comes before anything is deleted. -/
theorem chunk_removal_whole (fault : Option Nat) (env : MaintenanceEnv) (db : MaintenanceDb ε)
    (bufferId : Int) (retiredAt : Int → Option Int) (retentionDays now : Int) :
    (let ids := decayedIds env db bufferId
      let out := runDecayStatements fault env db bufferId
      AllRemoved db.memory out.1.memory ids out.2 ↔
        DecayCompletes fault db.memory ids ∨
          ∃ id ∈ ids.head?, StopsAtOnce fault 1 db.memory [id]) ∧
    (let ids := purgeableIds db.memory retiredAt retentionDays now
      let out := purgeInactiveChunks fault db.memory retiredAt retentionDays now
      AllRemoved db.memory out.1 ids out.2.isSome ↔
        ids = [] ∨ roundStops fault ids.length (decide (Held db.memory ids)) = none ∨
          StopsAtOnce fault ids.length db.memory ids) ∧
    (let ids := (bufferRows db.memory.chunks bufferId).map Prod.fst
      let out := deleteChunksForBuffer fault db.memory bufferId
      AllRemoved db.memory out.1 ids out.2.isSome ↔
        ids = [] ∨ roundStops fault ids.length (decide (Held db.memory ids)) = none ∨
          StopsAtOnce fault ids.length db.memory ids) := by
  refine ⟨?_, ?_, ?_⟩
  · refine (allRemoved_vectors fun hok => ?_).trans
      (decay_whole_iff (decayedIds_nodup env db bufferId) (decayedIds_present env db bufferId))
    dsimp only [runDecayStatements] at hok
    rw [hok]
    rfl
  · have hp := (selectsIds_select db.memory fun i r => !r.isActive && (retiredAt i).any fun t =>
      decide (t ≤ now - asI64 (asI64 retentionDays * 86400))).contains
    exact call_whole_iff hp (fun hle => funext fun s => if_pos hle) rfl
  · exact call_whole_iff (selectsIds_select db.memory fun _ r => r.bufferId == bufferId)
      (fun _ => rfl) rfl

end Calls

/-! ## A task that holds a chunk -/

/-- A task names the first of two chunks below the floor. -/
def heldCopies : MaintenanceDb Unit :=
  { decayedCopies with memory := { copiedFiles with tasks := [(1, some 1)] } }

/-- The decay fails, and the first chunk is left without its text and its full-text row. -/
theorem chunk_removal_held :
    ¬ AllRemoved heldCopies.memory (runDecayStatements none sampleMaintenance heldCopies 1).1.memory
      (decayedIds sampleMaintenance heldCopies 1)
      (runDecayStatements none sampleMaintenance heldCopies 1).2 := by
  intro h
  have htext := (h.whole 1 (sampleCopy "a.txt") (by decide +kernel)).1 (by decide)
  revert htext
  decide +kernel

end Arags
