import Arags.Index.Chunks
import Arags.Lib.Keyed
import Mathlib.Data.List.Dedup

/-!
# Arags.Index.Versions

What the statements of `Arags.Index.Chunks` do to the active rows at a key.

* `activeAt`, `view` — the active rows of a buffer at a key, and their digests.
* `Persisted` — the three things the insert of a chunk can do; `persistChunk_persisted` is the case
  analysis that the lemmas on `activeAt` use.
* `Later`     — rows are added and retired, and nothing else happens to them.
* `persistAll_view` — the digests at a key after a sequence of inserts.
* `persistAll_reports` — what the inserts report covers what they made active and retired.
* `snapshot_lookup`, `snapshot_has` — a snapshot is the active keys, each with one of its rows.
* `retireAll`       — the rows left at a key when a list of row ids is retired.
-/

namespace Arags

open Sql Keyed

def activeAt (t : SeqTable Chunk) (bufferId : Int) (key : ChunkKey) : List (Int × Chunk) :=
  t.select fun _ r => r.isAt bufferId key

/-- The digests of the active rows at a key. -/
def view (t : SeqTable Chunk) (bufferId : Int) (key : ChunkKey) : List (List UInt8) :=
  (activeAt t bufferId key).map fun x => x.2.hash

/-- No key has two active rows. -/
def Unique (t : SeqTable Chunk) (bufferId : Int) : Prop :=
  ∀ key, (activeAt t bufferId key).length ≤ 1

theorem isAt_iff {r : Chunk} {b : Int} {k : ChunkKey} :
    r.isAt b k = true ↔ r.bufferId = b ∧ r.key = k ∧ r.isActive = true := by
  simp [Chunk.isAt, and_assoc]

theorem mem_activeAt {t : SeqTable Chunk} {b : Int} {k : ChunkKey} {x : Int × Chunk} :
    x ∈ activeAt t b k ↔ x ∈ t.rows ∧ x.2.bufferId = b ∧ x.2.key = k ∧ x.2.isActive = true := by
  rw [activeAt]
  exact Table.mem_select.trans (and_congr_right fun _ => isAt_iff)

theorem eq_singleton_of_mem {α : Type} {l : List α} {x : α} (hl : l.length ≤ 1) (hx : x ∈ l) :
    l = [x] := by
  obtain ⟨y, rfl⟩ := List.length_eq_one_iff.mp (Nat.le_antisymm hl (List.length_pos_of_mem hx))
  rw [List.mem_singleton.mp hx]

theorem existingActiveRow_eq_none {scan : ScanOrder Chunk} {t : SeqTable Chunk} {b : Int}
    {k : ChunkKey} : existingActiveRow scan t b k = none ↔ activeAt t b k = [] := by
  rw [existingActiveRow, Option.map_eq_none_iff, List.head?_eq_none_iff]
  constructor
  · intro h
    have hp := scan.perm (activeAt t b k)
    rw [activeAt, h] at hp
    exact hp.nil_eq.symm
  · intro h
    rw [activeAt] at h
    rw [h]
    exact (scan.perm []).eq_nil

theorem existingActiveRow_eq_some {scan : ScanOrder Chunk} {t : SeqTable Chunk} {b : Int}
    {k : ChunkKey} {old : Int × List UInt8 × Int} (h : existingActiveRow scan t b k = some old) :
    ∃ x ∈ activeAt t b k, old = (x.1, x.2.hash, x.2.version) := by
  rw [existingActiveRow, Option.map_eq_some_iff] at h
  obtain ⟨x, hx, rfl⟩ := h
  exact ⟨x, scan.mem_order.mp (List.mem_of_head? hx), rfl⟩

/-! ## The primitive statements -/

theorem activeAt_insert (t : SeqTable Chunk) (r : Chunk) (b : Int) (k : ChunkKey) :
    activeAt (t.insert r) b k =
      activeAt t b k ++ if r.isAt b k then [(t.seq + 1, r)] else [] :=
  SeqTable.select_insert t r _

theorem activeAt_retireRow (t : SeqTable Chunk) (i : Int) (by_ : Option Int) (b : Int)
    (k : ChunkKey) :
    activeAt (retireRow t i by_) b k = (activeAt t b k).filter fun x => x.1 != i := by
  have h := Table.select_update_out (t := t.toTable) (p := fun _ r => Chunk.isAt r b k)
    (q := fun j r => j == i && r.isActive)
    (f := fun _ r => { r with isActive := false, supersededBy := by_ })
    (by intro j r _ _; simp [Chunk.isAt])
  refine h.trans (List.filter_congr fun x hx => ?_)
  obtain ⟨-, -, -, ha⟩ := mem_activeAt.mp hx
  simp [ha, bne]

theorem mem_retireRow {t : SeqTable Chunk} {i : Int} {by_ : Option Int} {x : Int × Chunk}
    (hx : x ∈ (retireRow t i by_).rows) (ha : x.2.isActive = true) : x ∈ t.rows ∧ x.1 ≠ i := by
  obtain ⟨r, hr, he⟩ := SeqTable.mem_update.mp hx
  by_cases hi : x.1 = i ∧ r.isActive = true
  · rw [if_pos (by simp [hi])] at he
    rw [he] at ha
    cases ha
  · rw [if_neg (by simpa using hi)] at he
    subst he
    exact ⟨hr, fun h => hi ⟨h, ha⟩⟩

/-- Every row of `t'` is new, or a row of `t` that is unchanged but for its retirement, and the
rows of `t` are still there. -/
structure Later (t t' : SeqTable Chunk) : Prop where
  seq : t.seq ≤ t'.seq
  old : ∀ x ∈ t'.rows, x.1 ≤ t.seq → ∃ r, (x.1, r) ∈ t.rows ∧ x.2.bufferId = r.bufferId ∧
    x.2.key = r.key ∧ x.2.hash = r.hash ∧ (x.2.isActive = true → r.isActive = true)
  kept : ∀ x ∈ t.rows, ∃ r, (x.1, r) ∈ t'.rows

namespace Later

variable {t t' t'' : SeqTable Chunk}

theorem refl (t : SeqTable Chunk) : Later t t :=
  ⟨Int.le_refl _, fun x hx _ => ⟨x.2, hx, rfl, rfl, rfl, id⟩, fun x hx => ⟨x.2, hx⟩⟩

theorem trans (h : Later t t') (h' : Later t' t'') : Later t t'' := by
  refine ⟨Int.le_trans h.seq h'.seq, ?_, ?_⟩
  · intro x hx hi
    obtain ⟨r', hr', hb', hk', hh', ha'⟩ := h'.old x hx (Int.le_trans hi h.seq)
    obtain ⟨r, hr, hb, hk, hh, ha⟩ := h.old (x.1, r') hr' hi
    exact ⟨r, hr, hb'.trans hb, hk'.trans hk, hh'.trans hh, fun h => ha (ha' h)⟩
  · intro x hx
    obtain ⟨r', hr'⟩ := h.kept x hx
    exact h'.kept (x.1, r') hr'

theorem insert (t : SeqTable Chunk) (r : Chunk) : Later t (t.insert r) := by
  refine ⟨by rw [SeqTable.seq_insert]; omega, ?_, ?_⟩
  · rintro ⟨i, r'⟩ hx hi
    rcases SeqTable.mem_insert.mp hx with hx | ⟨rfl, -⟩
    · exact ⟨r', hx, rfl, rfl, rfl, id⟩
    · dsimp only at hi; omega
  · rintro ⟨i, r'⟩ hx
    exact ⟨r', SeqTable.mem_insert.mpr (.inl hx)⟩

theorem retireRow (t : SeqTable Chunk) (i : Int) (by_ : Option Int) :
    Later t (retireRow t i by_) := by
  refine ⟨Int.le_refl _, ?_, ?_⟩
  · rintro ⟨j, r'⟩ hx -
    obtain ⟨r, hr, rfl⟩ := SeqTable.mem_update.mp hx
    refine ⟨r, hr, ?_⟩
    dsimp only
    split
    · exact ⟨rfl, rfl, rfl, fun h => by cases h⟩
    · exact ⟨rfl, rfl, rfl, id⟩
  · rintro ⟨j, r⟩ hx
    exact ⟨_, SeqTable.mem_update.mpr ⟨r, hx, rfl⟩⟩

/-- An old active row was active at its key before. -/
theorem active (h : Later t t') {b : Int} {k : ChunkKey} {x : Int × Chunk}
    (hx : x ∈ activeAt t' b k) (hi : x.1 ≤ t.seq) : ∃ r, (x.1, r) ∈ activeAt t b k := by
  obtain ⟨hm, hb, hk, ha⟩ := mem_activeAt.mp hx
  obtain ⟨r, hr, hb', hk', -, ha'⟩ := h.old x hm hi
  exact ⟨r, mem_activeAt.mpr ⟨hr, hb'.symm.trans hb, hk'.symm.trans hk, ha' ha⟩⟩

end Later

/-! ## The insert of one chunk -/

/-- What the insert of `c` into buffer `b` does when `known` says whether the snapshot has its
key. -/
inductive Persisted (t t' : SeqTable Chunk) (res res' : BatchedInsert) (b : Int) (path : String)
    (c : IndexedChunk) (known : Bool) : Prop where
  | unchanged (x : Int × Chunk) (hk : known = true) (hx : x ∈ activeAt t b (c.key path))
      (hh : x.2.hash = c.hashBytes) (ht : t' = t)
      (hr : res' = { res with
        persisted := res.persisted ++ [(x.1, c.content)]
        handledKeys := res.handledKeys ++ [c.key path] })
  | changed (x : Int × Chunk) (hk : known = true) (hx : x ∈ activeAt t b (c.key path))
      (hh : x.2.hash ≠ c.hashBytes)
      (ht : t' = retireRow (t.insert (c.row b path c.hashBytes (x.2.version + 1))) x.1
        (some (t.seq + 1)))
      (hr : res' = {
        persisted := res.persisted ++ [(t.seq + 1, c.content)]
        handledKeys := res.handledKeys ++ [c.key path]
        retiredIds := res.retiredIds ++ [x.1]
        inserted := res.inserted + 1 })
  | fresh (hk : known = true → activeAt t b (c.key path) = [])
      (ht : t' = t.insert (c.row b path c.hashBytes 1))
      (hr : res' = { res with
        persisted := res.persisted ++ [(t.seq + 1, c.content)]
        handledKeys := if known then res.handledKeys ++ [c.key path] else res.handledKeys
        inserted := res.inserted + 1 })

theorem persistChunk_persisted (scan : ScanOrder Chunk) (b : Int) (active : Snapshot)
    (t : SeqTable Chunk) (res : BatchedInsert) (path : String) (c : IndexedChunk) :
    Persisted t (persistChunk scan b active (t, res) (path, c)).1 res
      (persistChunk scan b active (t, res) (path, c)).2 b path c (active.has (c.key path)) := by
  simp only [persistChunk, insertActiveChunk]
  split
  · rename_i old oldId oldHash oldVersion he
    split at he
    · rename_i hk
      obtain ⟨x, hx, hold⟩ := existingActiveRow_eq_some he
      simp only [Prod.mk.injEq] at hold
      obtain ⟨rfl, rfl, rfl⟩ := hold
      split
      · rename_i hh
        exact .unchanged x hk hx hh rfl rfl
      · rename_i hh
        exact .changed x hk hx hh rfl rfl
    · cases he
  · rename_i he
    refine .fresh ?_ rfl rfl
    intro hk
    rw [if_pos hk, existingActiveRow_eq_none] at he
    exact he

namespace Persisted

variable {t t' : SeqTable Chunk} {res res' : BatchedInsert} {b : Int} {path : String}
  {c : IndexedChunk} {known : Bool}

theorem row_isAt (version : Int) (b' : Int) (k' : ChunkKey) :
    (c.row b path c.hashBytes version).isAt b' k' = true ↔ b' = b ∧ k' = c.key path := by
  rw [isAt_iff]
  constructor
  · rintro ⟨rfl, rfl, -⟩; exact ⟨rfl, rfl⟩
  · rintro ⟨rfl, rfl⟩; exact ⟨rfl, rfl, rfl⟩

theorem later (h : Persisted t t' res res' b path c known) : Later t t' := by
  cases h with
  | unchanged x _ _ _ ht _ => exact ht ▸ .refl t
  | changed x _ _ _ ht _ => exact ht ▸ (Later.insert t _).trans (.retireRow _ _ _)
  | fresh _ ht _ => exact ht ▸ .insert t _

/-- Rows of other keys and buffers stay as they are. -/
theorem other (h : Persisted t t' res res' b path c known) {b' : Int} {k' : ChunkKey}
    (hne : ¬ (b' = b ∧ k' = c.key path)) : activeAt t' b' k' = activeAt t b' k' := by
  have hins : ∀ v, activeAt (t.insert (c.row b path c.hashBytes v)) b' k' = activeAt t b' k' := by
    intro v
    rw [activeAt_insert, if_neg (fun h => hne ((row_isAt v b' k').mp h)), List.append_nil]
  cases h with
  | unchanged x _ _ _ ht _ => rw [ht]
  | changed x _ hx _ ht _ =>
    rw [ht, activeAt_retireRow, hins, List.filter_eq_self]
    intro y hy
    obtain ⟨hxm, hxb, hxk, -⟩ := mem_activeAt.mp hx
    obtain ⟨hym, hyb, hyk, -⟩ := mem_activeAt.mp hy
    rw [bne_iff_ne]
    intro he
    have : y.2 = x.2 := Table.eq_of_mem (i := y.1) (r := y.2) hym (by rw [he]; exact hxm)
    exact hne ⟨hyb ▸ hxb ▸ congrArg _ this, hyk ▸ hxk ▸ congrArg _ this⟩
  | fresh _ ht _ => rw [ht, hins]

/-- A chunk the snapshot does not know is added to what is there. -/
theorem unknown (h : Persisted t t' res res' b path c known) (hk : known = false) :
    activeAt t' b (c.key path) =
      activeAt t b (c.key path) ++ [(t.seq + 1, c.row b path c.hashBytes 1)] := by
  cases h with
  | unchanged x hk' _ _ _ _ => rw [hk] at hk'; cases hk'
  | changed x hk' _ _ _ _ => rw [hk] at hk'; cases hk'
  | fresh _ ht _ => rw [ht, activeAt_insert, if_pos ((row_isAt 1 _ _).mpr ⟨rfl, rfl⟩)]

/-- A chunk the snapshot knows becomes the one version at its key. -/
theorem known_one (h : Persisted t t' res res' b path c known) (hk : known = true)
    (hone : (activeAt t b (c.key path)).length ≤ 1) :
    view t' b (c.key path) = [c.hashBytes] := by
  have hself := fun x hx => eq_singleton_of_mem (x := x) hone hx
  cases h with
  | unchanged x _ hx hh ht _ => rw [ht, view, hself x hx, List.map_singleton, hh]
  | changed x _ hx _ ht _ =>
    have hlt : x.1 ≤ t.seq := t.le_seq x (mem_activeAt.mp hx).1
    have hne : ((t.seq + 1) != x.1) = true := by rw [bne_iff_ne]; omega
    rw [ht, view, activeAt_retireRow, activeAt_insert, if_pos ((row_isAt _ _ _).mpr ⟨rfl, rfl⟩),
      hself x hx]
    simp [hne, IndexedChunk.row]
  | fresh he ht _ =>
    rw [ht, view, activeAt_insert, if_pos ((row_isAt 1 _ _).mpr ⟨rfl, rfl⟩), he hk]
    rfl

/-- The row of a delivered key: the one that was there, or a new one for another digest. -/
theorem once (h : Persisted t t' res res' b path c known)
    (h0 : known = true ∨ activeAt t b (c.key path) = [])
    (hone : (activeAt t b (c.key path)).length ≤ 1) :
    ∃ x, activeAt t' b (c.key path) = [x] ∧ x.2.hash = c.hashBytes ∧
      (activeAt t b (c.key path) = [x] ∨
        (t.seq < x.1 ∧ c.hashBytes ∉ view t b (c.key path))) := by
  cases h with
  | unchanged x _ hx hh ht _ =>
    rw [ht]
    exact ⟨x, eq_singleton_of_mem hone hx, hh, .inl (eq_singleton_of_mem hone hx)⟩
  | changed x _ hx hh ht _ =>
    have hlt : x.1 ≤ t.seq := t.le_seq x (mem_activeAt.mp hx).1
    have hne : ((t.seq + 1) != x.1) = true := by rw [bne_iff_ne]; omega
    refine ⟨(t.seq + 1, c.row b path c.hashBytes (x.2.version + 1)), ?_, rfl, .inr ⟨?_, ?_⟩⟩
    · rw [ht, activeAt_retireRow, activeAt_insert, if_pos ((row_isAt _ _ _).mpr ⟨rfl, rfl⟩),
        eq_singleton_of_mem hone hx]
      simp [hne]
    · exact Int.lt_succ _
    · rw [view, eq_singleton_of_mem hone hx, List.map_singleton, List.mem_singleton]
      exact fun he => hh he.symm
  | fresh he ht _ =>
    have hnil : activeAt t b (c.key path) = [] := h0.elim he id
    refine ⟨(t.seq + 1, c.row b path c.hashBytes 1), ?_, rfl, .inr ⟨?_, ?_⟩⟩
    · rw [ht, activeAt_insert, if_pos ((row_isAt 1 _ _).mpr ⟨rfl, rfl⟩), hnil, List.nil_append]
    · exact Int.lt_succ _
    · rw [view, hnil]
      exact List.not_mem_nil

/-- On the digests at a key a chunk acts as a value delivered to a cell. -/
theorem view_eq (h : Persisted t t' res res' b path c known)
    (hone : known = true → (activeAt t b (c.key path)).length ≤ 1) :
    view t' b (c.key path) = put known (view t b (c.key path)) c.hashBytes := by
  cases hk : known with
  | true => rw [h.known_one hk (hone hk), put, if_pos rfl]
  | false =>
    rw [view, h.unknown hk, List.map_append]
    rfl

/-- An active row after the insert of one chunk was active before, or is the row reported last. -/
theorem active (h : Persisted t t' res res' b path c known) {x : Int × Chunk} (hx : x ∈ t'.rows)
    (ha : x.2.isActive = true) :
    (∃ r, (x.1, r) ∈ t.rows ∧ r.isActive = true) ∨ x.1 ∈ res'.persisted.map Prod.fst := by
  have hins : ∀ r', x ∈ (t.insert r').rows → (∃ r, (x.1, r) ∈ t.rows ∧ r.isActive = true) ∨
      x.1 = t.seq + 1 := by
    intro r' hm
    rcases SeqTable.mem_insert.mp hm with hm | ⟨hi, -⟩
    · exact .inl ⟨x.2, hm, ha⟩
    · exact .inr hi
  cases h with
  | unchanged y _ _ _ ht _ => exact .inl ⟨x.2, ht ▸ hx, ha⟩
  | changed y _ _ _ ht hr =>
    rw [ht] at hx
    refine (hins _ (mem_retireRow hx ha).1).imp_right fun hi => ?_
    rw [hr, hi]
    simp
  | fresh _ ht hr =>
    rw [ht] at hx
    refine (hins _ hx).imp_right fun hi => ?_
    rw [hr, hi]
    simp

/-- An inactive row after the insert of one chunk was inactive before, or is reported retired. -/
theorem inactive (h : Persisted t t' res res' b path c known) {x : Int × Chunk}
    (hx : x ∈ t'.rows) (ha : x.2.isActive = false) :
    (∃ r, (x.1, r) ∈ t.rows ∧ r.isActive = false) ∨ x.1 ∈ res'.retiredIds := by
  have hins : ∀ v, x ∈ (t.insert (c.row b path c.hashBytes v)).rows → x ∈ t.rows := by
    intro v hm
    rcases SeqTable.mem_insert.mp hm with hm | ⟨-, hr⟩
    · exact hm
    · rw [hr] at ha
      cases ha
  cases h with
  | unchanged _ _ _ _ ht _ => exact .inl ⟨x.2, ht ▸ hx, ha⟩
  | fresh _ ht _ =>
    rw [ht] at hx
    exact .inl ⟨x.2, hins _ hx, ha⟩
  | changed y _ _ _ ht hr =>
    rw [ht] at hx
    obtain ⟨r, hrow, he⟩ := SeqTable.mem_update.mp hx
    by_cases hi : x.1 = y.1
    · exact .inr (by rw [hr, hi]; simp)
    · rw [if_neg (by simp [hi])] at he
      subst he
      exact .inl ⟨x.2, hins _ hrow, ha⟩

/-- The lists of a report grow at their ends. -/
theorem grows (h : Persisted t t' res res' b path c known) :
    res.persisted <+: res'.persisted ∧ res.retiredIds <+: res'.retiredIds := by
  cases h with
  | unchanged _ _ _ _ _ hr => rw [hr]; exact ⟨List.prefix_append _ _, List.prefix_rfl⟩
  | changed _ _ _ _ _ hr =>
    rw [hr]; exact ⟨List.prefix_append _ _, List.prefix_append _ _⟩
  | fresh _ _ hr => rw [hr]; exact ⟨List.prefix_append _ _, List.prefix_rfl⟩

/-- The rows reported as retired stay so. -/
theorem retired (h : Persisted t t' res res' b path c known)
    (hres : ∀ i ∈ res.retiredIds, i ≤ t.seq ∧ ∀ r, (i, r) ∈ t.rows → r.isActive = false) :
    ∀ i ∈ res'.retiredIds, i ≤ t'.seq ∧ ∀ r, (i, r) ∈ t'.rows → r.isActive = false := by
  have hold : ∀ i ∈ res.retiredIds, i ≤ t'.seq ∧ ∀ r, (i, r) ∈ t'.rows → r.isActive = false := by
    intro i hi
    obtain ⟨hle, hrow⟩ := hres i hi
    refine ⟨Int.le_trans hle h.later.seq, fun r hr => ?_⟩
    obtain ⟨r', hr', -, -, -, ha⟩ := h.later.old (i, r) hr hle
    cases hact : r.isActive with
    | false => rfl
    | true => rw [hrow r' hr'] at ha; exact absurd (ha hact) (by simp)
  cases h with
  | unchanged _ _ _ _ _ hr => rw [hr]; exact hold
  | fresh _ _ hr => rw [hr]; exact hold
  | changed y _ hy _ ht hr =>
    rw [hr]
    intro i hi
    rcases List.mem_append.mp hi with hi | hi
    · exact hold i hi
    · rw [List.mem_singleton.mp hi]
      have hle := t.le_seq y (mem_activeAt.mp hy).1
      refine ⟨?_, fun r hrow => ?_⟩
      · rw [ht]
        show y.1 ≤ t.seq + 1
        omega
      · rw [ht] at hrow
        cases hact : r.isActive with
        | false => rfl
        | true => exact absurd rfl (mem_retireRow hrow hact).2

end Persisted

/-! ## The inserts of a stream -/

/-- The key and the digest of a chunk delivered under a path. -/
def entry (item : String × IndexedChunk) : ChunkKey × List UInt8 :=
  (item.2.key item.1, item.2.hashBytes)

def persistAll (scan : ScanOrder Chunk) (b : Int) (active : Snapshot)
    (acc : SeqTable Chunk × BatchedInsert) (items : List (String × IndexedChunk)) :
    SeqTable Chunk × BatchedInsert :=
  items.foldl (persistChunk scan b active) acc

section PersistAll

variable (scan : ScanOrder Chunk) (b : Int) (active : Snapshot)

theorem persistAll_later (acc : SeqTable Chunk × BatchedInsert)
    (items : List (String × IndexedChunk)) :
    Later acc.1 (persistAll scan b active acc items).1 := by
  induction items generalizing acc with
  | nil => exact .refl _
  | cons item items ih =>
    exact (persistChunk_persisted scan b active acc.1 acc.2 item.1 item.2).later.trans (ih _)

/-- Keys that no item has, and other buffers, stay as they are. -/
theorem persistAll_other (acc : SeqTable Chunk × BatchedInsert)
    (items : List (String × IndexedChunk)) {b' : Int} {k : ChunkKey}
    (h : b' = b → k ∉ (items.map entry).map Prod.fst) :
    activeAt (persistAll scan b active acc items).1 b' k = activeAt acc.1 b' k := by
  induction items generalizing acc with
  | nil => rfl
  | cons item items ih =>
    have hne : ¬ (b' = b ∧ k = item.2.key item.1) := by
      rintro ⟨hb, rfl⟩
      exact h hb List.mem_cons_self
    refine (ih _ fun hb hk => h hb (List.mem_cons_of_mem _ hk)).trans ?_
    exact (persistChunk_persisted scan b active acc.1 acc.2 item.1 item.2).other hne

theorem persistAll_view (acc : SeqTable Chunk × BatchedInsert)
    (items : List (String × IndexedChunk)) (k : ChunkKey)
    (hone : active.has k = true → (activeAt acc.1 b k).length ≤ 1) :
    view (persistAll scan b active acc items).1 b k =
      settle (active.has k) (view acc.1 b k) (valuesAt k (items.map entry)) := by
  induction items generalizing acc with
  | nil => simp [persistAll]
  | cons item items ih =>
    have hp := persistChunk_persisted scan b active acc.1 acc.2 item.1 item.2
    rw [List.map_cons, valuesAt_cons]
    by_cases hk : (entry item).1 = k
    · rw [if_pos hk]
      have hk : item.2.key item.1 = k := hk
      subst hk
      refine (ih _ ?_).trans ?_
      · intro hkn
        have := hp.known_one hkn (hone hkn)
        rw [view] at this
        have := congrArg List.length this
        rw [List.length_map] at this
        exact Nat.le_of_eq this
      · rw [← settle_put]
        exact congrArg (settle _ · _) (hp.view_eq hone)
    · have hne : ¬ (b = b ∧ k = item.2.key item.1) := fun hc => hk hc.2.symm
      have he := hp.other hne
      rw [if_neg hk]
      refine (ih _ fun hkn => ?_).trans ?_
      · exact Nat.le_trans (Nat.le_of_eq (congrArg List.length he)) (hone hkn)
      · exact congrArg (settle _ · _) (congrArg (List.map fun x : Int × Chunk => x.2.hash) he)

/-- The rows that inserts make active are reported as persisted, those they retire as retired;
what is reported as retired is not active. -/
structure Reports (t : SeqTable Chunk) (acc : SeqTable Chunk × BatchedInsert) : Prop where
  persisted : ∀ x ∈ acc.1.rows, x.2.isActive = true →
    (∃ r, (x.1, r) ∈ t.rows ∧ r.isActive = true) ∨ x.1 ∈ acc.2.persisted.map Prod.fst
  inactive : ∀ x ∈ acc.1.rows, x.2.isActive = false →
    (∃ r, (x.1, r) ∈ t.rows ∧ r.isActive = false) ∨ x.1 ∈ acc.2.retiredIds
  retired : ∀ i ∈ acc.2.retiredIds, i ≤ acc.1.seq ∧
    ∀ r, (i, r) ∈ acc.1.rows → r.isActive = false

theorem persistAll_reports {t : SeqTable Chunk} {acc : SeqTable Chunk × BatchedInsert}
    (h : Reports t acc) (items : List (String × IndexedChunk)) :
    Reports t (persistAll scan b active acc items) := by
  induction items generalizing acc with
  | nil => exact h
  | cons item items ih =>
    have hp := persistChunk_persisted scan b active acc.1 acc.2 item.1 item.2
    obtain ⟨hpersisted, hretired⟩ := hp.grows
    refine ih ⟨fun x hx ha => ?_, fun x hx ha => ?_, hp.retired h.retired⟩
    · rcases hp.active hx ha with ⟨r, hr, hact⟩ | hnew
      · exact (h.persisted (x.1, r) hr hact).imp_right fun hm => (hpersisted.map _).subset hm
      · exact .inr hnew
    · rcases hp.inactive hx ha with ⟨r, hr, hact⟩ | hnew
      · exact (h.inactive (x.1, r) hr hact).imp_right fun hm => hretired.subset hm
      · exact .inr hnew

/-- The second component of a persisted pair is the text of the chunk. -/
theorem persistAll_texts (acc : SeqTable Chunk × BatchedInsert)
    (items : List (String × IndexedChunk)) :
    (persistAll scan b active acc items).2.persisted.map Prod.snd =
      acc.2.persisted.map Prod.snd ++ items.map fun x => x.2.content := by
  induction items generalizing acc with
  | nil => simp [persistAll]
  | cons item items ih =>
    refine (ih _).trans ?_
    have hone : (persistChunk scan b active acc item).2.persisted.map Prod.snd =
        acc.2.persisted.map Prod.snd ++ [item.2.content] := by
      cases persistChunk_persisted scan b active acc.1 acc.2 item.1 item.2 with
      | unchanged _ _ _ _ _ hr => simp [hr]
      | changed _ _ _ _ _ hr => simp [hr]
      | fresh _ _ hr => simp [hr]
    rw [hone, List.append_assoc]
    rfl

theorem persistAll_grows (acc : SeqTable Chunk × BatchedInsert)
    (items : List (String × IndexedChunk)) :
    acc.2.persisted <+: (persistAll scan b active acc items).2.persisted ∧
      acc.2.retiredIds <+: (persistAll scan b active acc items).2.retiredIds := by
  induction items generalizing acc with
  | nil => exact ⟨List.prefix_rfl, List.prefix_rfl⟩
  | cons item items ih =>
    have hp := (persistChunk_persisted scan b active acc.1 acc.2 item.1 item.2).grows
    have hrest := ih (persistChunk scan b active acc item)
    exact ⟨hp.1.trans hrest.1, hp.2.trans hrest.2⟩

end PersistAll

section Items

variable (scan : ScanOrder Chunk) (b : Int) (active : Snapshot)

theorem persistChunk_fst (t : SeqTable Chunk) (res res' : BatchedInsert)
    (item : String × IndexedChunk) :
    (persistChunk scan b active (t, res) item).1 =
      (persistChunk scan b active (t, res') item).1 := by
  simp only [persistChunk]
  split
  · split <;> rfl
  · rfl

theorem persistAll_fst (t : SeqTable Chunk) (res res' : BatchedInsert)
    (items : List (String × IndexedChunk)) :
    (persistAll scan b active (t, res) items).1 = (persistAll scan b active (t, res') items).1 := by
  induction items generalizing t res res' with
  | nil => rfl
  | cons item items ih =>
    have h := persistChunk_fst scan b active t res res' item
    exact (ih _ _ _).trans (congrArg (fun u => (persistAll scan b active (u, _) items).1) h)

/-- The chunk table after the inserts of a stream. -/
def persistTable (t : SeqTable Chunk) (items : List (String × IndexedChunk)) : SeqTable Chunk :=
  (persistAll scan b active (t, .empty) items).1

theorem persistTable_append (t : SeqTable Chunk) (items items' : List (String × IndexedChunk)) :
    persistTable scan b active t (items ++ items') =
      persistTable scan b active (persistTable scan b active t items) items' := by
  unfold persistTable
  have h : persistAll scan b active (t, .empty) (items ++ items') = persistAll scan b active
      (persistAll scan b active (t, .empty) items) items' := List.foldl_append
  rw [h]
  exact persistAll_fst scan b active _ _ _ items'

theorem persistTable_later (t : SeqTable Chunk) (items : List (String × IndexedChunk)) :
    Later t (persistTable scan b active t items) :=
  persistAll_later scan b active (t, .empty) items

theorem persistTable_other (t : SeqTable Chunk) (items : List (String × IndexedChunk)) {b' : Int}
    {k : ChunkKey} (h : b' = b → k ∉ (items.map entry).map Prod.fst) :
    activeAt (persistTable scan b active t items) b' k = activeAt t b' k :=
  persistAll_other scan b active (t, .empty) items h

theorem persistTable_view (t : SeqTable Chunk) (items : List (String × IndexedChunk))
    (k : ChunkKey) (hone : active.has k = true → (activeAt t b k).length ≤ 1) :
    view (persistTable scan b active t items) b k =
      settle (active.has k) (view t b k) (valuesAt k (items.map entry)) :=
  persistAll_view scan b active (t, .empty) items k hone

/-- A key that is delivered once keeps its row when the digest is the one that is there, and gets
a new row otherwise. -/
theorem persistTable_once {t : SeqTable Chunk} {items : List (String × IndexedChunk)}
    {k : ChunkKey} {d : List UInt8} (hn : ((items.map entry).map Prod.fst).Nodup)
    (hk : (k, d) ∈ items.map entry) (h0 : active.has k = true ∨ activeAt t b k = [])
    (hone : (activeAt t b k).length ≤ 1) :
    ∃ x, activeAt (persistTable scan b active t items) b k = [x] ∧ x.2.hash = d ∧
      (activeAt t b k = [x] ∨ (t.seq < x.1 ∧ d ∉ view t b k)) := by
  induction items generalizing t with
  | nil => cases hk
  | cons item items ih =>
    have hp := persistChunk_persisted scan b active t .empty item.1 item.2
    have hcons : persistTable scan b active t (item :: items) =
        persistTable scan b active (persistChunk scan b active (t, .empty) item).1 items :=
      persistTable_append scan b active t [item] items
    rw [List.map_cons, List.map_cons, List.nodup_cons] at hn
    rw [hcons]
    by_cases hkey : (entry item).1 = k
    · have hd : entry item = (k, d) := by
        rcases List.mem_cons.mp hk with he | hm
        · exact he.symm
        · rw [hkey] at hn
          exact absurd (List.mem_map.mpr ⟨(k, d), hm, rfl⟩) hn.1
      obtain ⟨rfl, rfl⟩ : item.2.key item.1 = k ∧ item.2.hashBytes = d := by
        simpa [entry] using hd
      obtain ⟨x, hx, hrow⟩ := hp.once h0 hone
      exact ⟨x, (persistTable_other scan b active _ items fun _ => hn.1).trans hx, hrow⟩
    · have hne : ¬ (b = b ∧ k = item.2.key item.1) := fun hc => hkey hc.2.symm
      have he := hp.other hne
      have hm : (k, d) ∈ items.map entry := by
        rcases List.mem_cons.mp hk with hh | hm
        · exact absurd (congrArg Prod.fst hh).symm hkey
        · exact hm
      obtain ⟨x, hx, hd, hrow⟩ := ih hn.2 hm (by rw [he]; exact h0) (by rw [he]; exact hone)
      refine ⟨x, hx, hd, ?_⟩
      rw [view, he, ← view] at hrow
      exact hrow.imp id fun h => ⟨Int.lt_of_le_of_lt hp.later.seq h.1, h.2⟩

theorem persistAll_handled (acc : SeqTable Chunk × BatchedInsert)
    (items : List (String × IndexedChunk)) :
    (persistAll scan b active acc items).2.handledKeys =
      acc.2.handledKeys ++ (items.map fun it => it.2.key it.1).filter active.has := by
  induction items generalizing acc with
  | nil => simp [persistAll]
  | cons item items ih =>
    have hp := persistChunk_persisted scan b active acc.1 acc.2 item.1 item.2
    have hkey : (persistChunk scan b active acc item).2.handledKeys = acc.2.handledKeys ++
        if active.has (item.2.key item.1) then [item.2.key item.1] else [] := by
      cases hp with
      | unchanged _ hk _ _ _ hr => rw [if_pos hk]; exact congrArg BatchedInsert.handledKeys hr
      | changed _ hk _ _ _ hr => rw [if_pos hk]; exact congrArg BatchedInsert.handledKeys hr
      | fresh _ _ hr =>
        refine (congrArg BatchedInsert.handledKeys hr).trans ?_
        split <;> simp
    refine (ih _).trans ?_
    rw [hkey, List.map_cons, List.filter_cons]
    split <;> simp

end Items

/-! ## The snapshot -/

theorem snapshot_lookup {scan : ScanOrder Chunk} {t : SeqTable Chunk} {b : Int} {k : ChunkKey}
    {i : Int} (h : (snapshotActiveChunks scan t b).lookup k = some i) :
    ∃ r, (i, r) ∈ activeAt t b k := by
  have hm : (k, i) ∈ snapshotActiveChunks scan t b := by
    obtain ⟨l₁, l₂, hl, -⟩ := List.lookup_eq_some_iff.mp h
    rw [hl]
    exact List.mem_append_right _ List.mem_cons_self
  rw [snapshotActiveChunks, List.mem_reverse] at hm
  obtain ⟨⟨j, r⟩, hx, he⟩ := List.mem_map.mp hm
  simp only [Prod.mk.injEq] at he
  obtain ⟨rfl, rfl⟩ := he
  rw [scan.mem_order, Table.mem_select] at hx
  simp only [Bool.and_eq_true, beq_iff_eq] at hx
  exact ⟨r, mem_activeAt.mpr ⟨hx.1, hx.2.1, rfl, hx.2.2⟩⟩

theorem snapshot_has {scan : ScanOrder Chunk} {t : SeqTable Chunk} {b : Int} {k : ChunkKey} :
    (snapshotActiveChunks scan t b).has k = true ↔ activeAt t b k ≠ [] := by
  constructor
  · intro h
    obtain ⟨i, hi⟩ := Option.isSome_iff_exists.mp h
    obtain ⟨r, hr⟩ := snapshot_lookup hi
    exact List.ne_nil_of_mem hr
  · intro h
    obtain ⟨x, hx⟩ := List.exists_mem_of_ne_nil _ h
    obtain ⟨hm, hb, hk, ha⟩ := mem_activeAt.mp hx
    have hmem : (k, x.1) ∈ snapshotActiveChunks scan t b := by
      rw [snapshotActiveChunks, List.mem_reverse]
      refine List.mem_map.mpr ⟨x, ?_, by rw [hk]⟩
      rw [scan.mem_order]
      refine Table.mem_select.mpr ⟨hm, ?_⟩
      simp [hb, ha]
    rw [Snapshot.has, List.lookup_isSome_iff]
    exact ⟨_, hmem, by simp⟩

theorem mem_snapshot_keys {scan : ScanOrder Chunk} {t : SeqTable Chunk} {b : Int} {k : ChunkKey} :
    k ∈ ((snapshotActiveChunks scan t b).map Prod.fst).dedup ↔
      (snapshotActiveChunks scan t b).has k = true := by
  rw [List.mem_dedup, Snapshot.has, List.lookup_isSome_iff, List.mem_map]
  constructor
  · rintro ⟨x, hx, rfl⟩; exact ⟨x, hx, by simp⟩
  · rintro ⟨x, hx, he⟩; exact ⟨x, hx, (beq_iff_eq.mp he).symm⟩

/-! ## Retiring a list of rows -/

def retireAll (t : SeqTable Chunk) (ids : List Int) : SeqTable Chunk :=
  ids.foldl (fun t id => retireChunk t id none) t

theorem activeAt_retireAll (t : SeqTable Chunk) (ids : List Int) (b : Int) (k : ChunkKey) :
    activeAt (retireAll t ids) b k = (activeAt t b k).filter fun x => !ids.contains x.1 := by
  induction ids generalizing t with
  | nil => exact (List.filter_eq_self.mpr fun _ _ => rfl).symm
  | cons i ids ih =>
    refine (ih _).trans ?_
    have h : activeAt (retireChunk t i none) b k = _ := activeAt_retireRow t i none b k
    rw [h, List.filter_filter]
    refine List.filter_congr fun x _ => ?_
    simp only [List.contains_cons, Bool.not_or, Bool.and_comm, bne]

theorem retireAll_later (t : SeqTable Chunk) (ids : List Int) : Later t (retireAll t ids) := by
  induction ids generalizing t with
  | nil => exact .refl t
  | cons i ids ih => exact (Later.retireRow t i none).trans (ih _)

theorem mem_retireAll {t : SeqTable Chunk} {ids : List Int} {x : Int × Chunk}
    (hx : x ∈ (retireAll t ids).rows) (ha : x.2.isActive = true) : x ∈ t.rows ∧ x.1 ∉ ids := by
  induction ids generalizing t with
  | nil => exact ⟨hx, List.not_mem_nil⟩
  | cons i ids ih =>
    obtain ⟨hm, hni⟩ := ih hx
    obtain ⟨hm, hne⟩ := mem_retireRow hm ha
    exact ⟨hm, by simp [hne, hni]⟩

end Arags
