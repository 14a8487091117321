import Arags.Index.Versions

/-!
# Arags.Index.ActiveRows

How many active rows the buffers have, and which rows the inserts of one file touch.

* `activeIn`         — the active rows of the buffers that a test selects.
* `persistAll_activeIn` — inserts into a buffer change its number by what they report inserted and
  retired, and no other buffer's.
* `persistAll_fresh` — where every key of the snapshot has an active row, what they add is one row
  for each chunk at an unknown key.
* `Stays`            — new rows are in one buffer, and changed rows were active rows of it.
-/

namespace Arags

open Sql

/-- The active rows of the buffers that `q` selects. -/
def activeIn (t : SeqTable Chunk) (q : Int → Bool) : Nat :=
  t.count fun _ r => q r.bufferId && r.isActive

theorem activeIn_split (t : SeqTable Chunk) (p q : Int → Bool) : activeIn t p =
    activeIn t (fun b => p b && q b) + activeIn t (fun b => p b && !q b) := by
  unfold activeIn Table.count Table.select
  simp only [← List.countP_eq_length_filter]
  rw [List.countP_eq_countP_filter_add (q := fun x => q x.2.bufferId), List.countP_filter,
    List.countP_filter]
  refine congrArg₂ (· + ·) ?_ ?_ <;> refine List.countP_congr fun x _ => ?_ <;>
    cases p x.2.bufferId <;> simp [and_comm]

/-- What two tables differ by, buffer by buffer, when they agree on the buffers other than two. -/
theorem activeIn_two {t t' : SeqTable Chunk} {b c : Int}
    (hrest : activeIn t (fun i => i != b && i != c) = activeIn t' fun i => i != b && i != c) :
    (activeIn t (fun _ => true) : Int) - activeIn t' (fun _ => true) =
      (activeIn t (· == b) - activeIn t' (· == b)) +
        if c = b then 0 else (activeIn t (· == c) : Int) - activeIn t' (· == c) := by
  have hall : ∀ t : SeqTable Chunk, activeIn t (fun _ => true) =
      activeIn t (· == b) + activeIn t (· != b) := fun t => activeIn_split t _ (· == b)
  have hne : ∀ t : SeqTable Chunk, activeIn t (· != b) =
      activeIn t (fun i => i != b && i == c) + activeIn t (fun i => i != b && i != c) :=
    fun t => activeIn_split t _ (· == c)
  have hc : ∀ t : SeqTable Chunk, activeIn t (fun i => i != b && i == c) =
      if c = b then 0 else activeIn t (· == c) := by
    intro t
    split
    · rename_i he
      subst he
      exact Table.count_eq_zero.mpr (by simp)
    · rename_i he
      refine Table.count_congr fun _ r _ => ?_
      by_cases hr : r.bufferId = c
      · simp [hr, he]
      · simp [beq_eq_false_iff_ne.mpr hr]
  rw [hall, hall t', hne, hne t', hc, hc t', hrest]
  split <;> omega

theorem activeIn_insert (t : SeqTable Chunk) (r : Chunk) (q : Int → Bool) :
    activeIn (t.insert r) q = activeIn t q + if q r.bufferId && r.isActive then 1 else 0 := by
  have h : (t.insert r).select (fun _ r => q r.bufferId && r.isActive) = _ :=
    SeqTable.select_insert t r _
  unfold activeIn Table.count
  rw [h, List.length_append]
  split <;> rfl

theorem activeIn_retireRow {t : SeqTable Chunk} {i : Int} {r : Chunk} (hr : (i, r) ∈ t.rows)
    (ha : r.isActive = true) (by_ : Option Int) (q : Int → Bool) :
    activeIn t q = activeIn (retireRow t i by_) q + if q r.bufferId then 1 else 0 := by
  have hold := Table.count_except hr fun _ s => q s.bufferId && s.isActive
  have hnew : activeIn (retireRow t i by_) q =
      t.count fun j s => j != i && (q s.bufferId && s.isActive) := by
    have hcount := Table.count_update t.toTable (fun _ s => q s.bufferId && s.isActive)
      (fun j s => j == i && s.isActive)
      fun _ s => { s with isActive := false, supersededBy := by_ }
    refine hcount.trans (Table.count_congr fun j s _ => ?_)
    by_cases hj : j = i
    · cases hs : s.isActive <;> simp [hj, hs]
    · simp [hj]
  rw [ha, Bool.and_true] at hold
  rw [hnew]
  exact hold

/-! ## The insert of one chunk -/

/-- What a report adds to the active rows. -/
def BatchedInsert.net (res : BatchedInsert) : Int :=
  (res.inserted : Int) - res.retiredIds.length

namespace Persisted

variable {t t' : SeqTable Chunk} {res res' : BatchedInsert} {b : Int} {path : String}
  {c : IndexedChunk} {known : Bool}

theorem activeIn_eq (h : Persisted t t' res res' b path c known) (q : Int → Bool) :
    (activeIn t' q : Int) = activeIn t q + if q b then res'.net - res.net else 0 := by
  have hins : ∀ v, activeIn (t.insert (c.row b path c.hashBytes v)) q =
      activeIn t q + if q b then 1 else 0 := by
    intro v
    rw [activeIn_insert]
    simp [IndexedChunk.row]
  cases h with
  | unchanged x _ _ _ ht hr =>
    subst ht hr
    simp [BatchedInsert.net]
  | changed x _ hx _ ht hr =>
    obtain ⟨hm, hb, -, ha⟩ := mem_activeAt.mp hx
    have hmem : (x.1, x.2) ∈ (t.insert (c.row b path c.hashBytes (x.2.version + 1))).rows :=
      SeqTable.mem_insert.mpr (.inl hm)
    have hret := activeIn_retireRow hmem ha (some (t.seq + 1)) q
    rw [hins, hb] at hret
    subst ht hr
    simp only [BatchedInsert.net, List.length_append, List.length_singleton]
    split at hret <;> rename_i hq <;> simp only [hq, if_true, Bool.false_eq_true, if_false] <;>
      omega
  | fresh _ ht hr =>
    subst ht hr
    rw [hins]
    simp only [BatchedInsert.net]
    split <;> omega

/-- The key of a delivered chunk is active afterwards. -/
theorem nonempty (h : Persisted t t' res res' b path c known) :
    activeAt t' b (c.key path) ≠ [] := by
  have hnew : ∀ v, (t.seq + 1, c.row b path c.hashBytes v) ∈
      activeAt (t.insert (c.row b path c.hashBytes v)) b (c.key path) := by
    intro v
    rw [activeAt_insert, if_pos ((row_isAt v _ _).mpr ⟨rfl, rfl⟩)]
    simp
  cases h with
  | unchanged x _ hx _ ht _ => exact ht ▸ List.ne_nil_of_mem hx
  | changed x _ hx _ ht _ =>
    rw [ht, activeAt_retireRow]
    have hle := t.le_seq x (mem_activeAt.mp hx).1
    refine List.ne_nil_of_mem (List.mem_filter.mpr ⟨hnew _, ?_⟩)
    rw [bne_iff_ne]
    omega
  | fresh _ ht _ => exact ht ▸ List.ne_nil_of_mem (hnew 1)

/-- Where the snapshot is right about the key, a row is added for an unknown key only. -/
theorem net_eq (h : Persisted t t' res res' b path c known)
    (hcov : known = true → activeAt t b (c.key path) ≠ []) :
    res'.net = res.net + if known then 0 else 1 := by
  cases h with
  | unchanged x hk _ _ _ hr =>
    subst hr
    simp [BatchedInsert.net, hk]
  | changed x hk _ _ _ hr =>
    subst hr
    simp only [BatchedInsert.net, List.length_append, List.length_singleton, hk, if_true]
    omega
  | fresh he _ hr =>
    have hk : known = false := Bool.eq_false_iff.mpr fun hk => hcov hk (he hk)
    subst hr
    simp only [BatchedInsert.net, hk, Bool.false_eq_true, if_false]
    omega

end Persisted

/-! ## Which rows are touched -/

/-- New rows are in buffer `b`, and changed rows were active rows of it. -/
structure Stays (b : Int) (t t' : SeqTable Chunk) : Prop where
  later : Later t t'
  inserted : ∀ x ∈ t'.rows, t.seq < x.1 → x.2.bufferId = b
  changed : ∀ x ∈ t.rows, x ∉ t'.rows → x.2.isActive = true ∧ x.2.bufferId = b

namespace Stays

variable {b : Int} {t t' t'' : SeqTable Chunk}

theorem refl (t : SeqTable Chunk) : Stays b t t :=
  ⟨.refl t, fun x hx hi => absurd (t.le_seq x hx) (by omega), fun _ hx hn => absurd hx hn⟩

theorem trans (h : Stays b t t') (h' : Stays b t' t'') : Stays b t t'' := by
  refine ⟨h.later.trans h'.later, fun x hx hi => ?_, fun x hx hn => ?_⟩
  · by_cases hn : t'.seq < x.1
    · exact h'.inserted x hx hn
    · obtain ⟨r, hr, hb, -⟩ := h'.later.old x hx (by omega)
      exact hb.trans (h.inserted (x.1, r) hr hi)
  · by_cases hm : x ∈ t'.rows
    · exact h'.changed x hm hn
    · exact h.changed x hx hm

theorem insert (t : SeqTable Chunk) (r : Chunk) (hr : r.bufferId = b) : Stays b t (t.insert r) := by
  refine ⟨.insert t r, fun x hx hi => ?_, fun x hx hn => ?_⟩
  · rcases SeqTable.mem_insert.mp hx with hx | ⟨-, he⟩
    · exact absurd (t.le_seq x hx) (by omega)
    · rw [he, hr]
  · exact absurd (SeqTable.mem_insert.mpr (.inl hx)) hn

theorem retireRow {i : Int} {r : Chunk} (hr : (i, r) ∈ t.rows) (hb : r.bufferId = b)
    (by_ : Option Int) : Stays b t (retireRow t i by_) := by
  refine ⟨.retireRow t i by_, fun x hx hi => ?_, fun x hx hn => ?_⟩
  · obtain ⟨s, hs, -⟩ := SeqTable.mem_update.mp hx
    exact absurd (t.le_seq (x.1, s) hs) (by dsimp only; omega)
  · by_cases hc : (x.1 == i && x.2.isActive) = true
    · rw [Bool.and_eq_true, beq_iff_eq] at hc
      have he : x.2 = r := Table.eq_of_mem (i := i) (hc.1 ▸ hx) hr
      exact ⟨hc.2, he ▸ hb⟩
    · exact absurd (SeqTable.mem_update.mpr ⟨x.2, hx, by rw [if_neg hc]⟩) hn

end Stays

theorem Persisted.stays {t t' : SeqTable Chunk} {res res' : BatchedInsert} {b : Int}
    {path : String} {c : IndexedChunk} {known : Bool}
    (h : Persisted t t' res res' b path c known) : Stays b t t' := by
  cases h with
  | unchanged _ _ _ _ ht _ =>
    rw [ht]
    exact .refl t
  | changed x _ hx _ ht _ =>
    obtain ⟨hm, hb, -, -⟩ := mem_activeAt.mp hx
    have hins : Stays b t (t.insert (c.row b path c.hashBytes (x.2.version + 1))) :=
      .insert t _ rfl
    rw [ht]
    exact hins.trans (.retireRow (SeqTable.mem_insert.mpr (.inl hm)) hb _)
  | fresh _ ht _ =>
    rw [ht]
    exact .insert t _ rfl

/-! ## The inserts of one file -/

section PersistAll

variable (scan : ScanOrder Chunk) (b : Int) (active : Snapshot)

theorem persistAll_stays (acc : SeqTable Chunk × BatchedInsert)
    (items : List (String × IndexedChunk)) :
    Stays b acc.1 (persistAll scan b active acc items).1 := by
  induction items generalizing acc with
  | nil => exact .refl _
  | cons item items ih =>
    exact (persistChunk_persisted scan b active acc.1 acc.2 item.1 item.2).stays.trans (ih _)

theorem persistAll_activeIn (acc : SeqTable Chunk × BatchedInsert)
    (items : List (String × IndexedChunk)) (q : Int → Bool) :
    (activeIn (persistAll scan b active acc items).1 q : Int) = activeIn acc.1 q +
      if q b then (persistAll scan b active acc items).2.net - acc.2.net else 0 := by
  induction items generalizing acc with
  | nil => simp [persistAll]
  | cons item items ih =>
    have hp := persistChunk_persisted scan b active acc.1 acc.2 item.1 item.2
    have hone := hp.activeIn_eq q
    have hrest := ih (persistChunk scan b active acc item)
    have hcons : persistAll scan b active acc (item :: items) =
      persistAll scan b active (persistChunk scan b active acc item) items := rfl
    rw [hcons, hrest]
    have hone : (activeIn (persistChunk scan b active acc item).1 q : Int) = activeIn acc.1 q +
      if q b then (persistChunk scan b active acc item).2.net - acc.2.net else 0 := hone
    rw [hone]
    split <;> omega

/-- Every key of the snapshot has an active row. -/
def Covered (active : Snapshot) (t : SeqTable Chunk) (b : Int) : Prop :=
  ∀ k, active.has k = true → activeAt t b k ≠ []

theorem Persisted.covered {t t' : SeqTable Chunk} {res res' : BatchedInsert} {b b' : Int}
    {path : String} {c : IndexedChunk} {known : Bool} {active : Snapshot}
    (h : Persisted t t' res res' b path c known) (hc : Covered active t b') :
    Covered active t' b' := by
  intro k hk
  by_cases he : b' = b ∧ k = c.key path
  · obtain ⟨rfl, rfl⟩ := he
    exact h.nonempty
  · rw [h.other he]
    exact hc k hk

theorem persistAll_covered (acc : SeqTable Chunk × BatchedInsert)
    (items : List (String × IndexedChunk)) {b' : Int} (hc : Covered active acc.1 b') :
    Covered active (persistAll scan b active acc items).1 b' := by
  induction items generalizing acc with
  | nil => exact hc
  | cons item items ih =>
    exact ih _ ((persistChunk_persisted scan b active acc.1 acc.2 item.1 item.2).covered hc)

/-- What the inserts into a covered buffer add. -/
theorem persistAll_fresh (acc : SeqTable Chunk × BatchedInsert)
    (items : List (String × IndexedChunk)) (hc : Covered active acc.1 b) :
    (persistAll scan b active acc items).2.net = acc.2.net +
      (items.countP fun it => !active.has (it.2.key it.1) : Nat) := by
  induction items generalizing acc with
  | nil => simp [persistAll]
  | cons item items ih =>
    have hp := persistChunk_persisted scan b active acc.1 acc.2 item.1 item.2
    have hone : (persistChunk scan b active acc item).2.net = _ := hp.net_eq (hc _)
    have hcons : persistAll scan b active acc (item :: items) =
      persistAll scan b active (persistChunk scan b active acc item) items := rfl
    rw [hcons, ih _ (hp.covered hc), hone, List.countP_cons]
    cases active.has (item.2.key item.1)
    · simp only [Bool.not_false, if_true, Bool.false_eq_true, if_false]
      omega
    · simp only [Bool.not_true, Bool.false_eq_true, if_false, if_true]
      omega

end PersistAll

/-! ## Retiring a list of rows -/

theorem retireAll_activeIn {t : SeqTable Chunk} {ids : List Int} {b : Int} (hn : ids.Nodup)
    (hact : ∀ i ∈ ids, ∃ r, (i, r) ∈ t.rows ∧ r.isActive = true ∧ r.bufferId = b)
    (q : Int → Bool) :
    activeIn t q = activeIn (retireAll t ids) q + if q b then ids.length else 0 := by
  induction ids generalizing t with
  | nil => simp [retireAll]
  | cons i ids ih =>
    rw [List.nodup_cons] at hn
    obtain ⟨r, hr, ha, hb⟩ := hact i List.mem_cons_self
    have hrest : ∀ j ∈ ids, ∃ r, (j, r) ∈ (retireRow t i none).rows ∧ r.isActive = true ∧
        r.bufferId = b := by
      intro j hj
      obtain ⟨s, hs, hsa, hsb⟩ := hact j (List.mem_cons_of_mem i hj)
      have hne : ¬ (j == i && s.isActive) = true := by
        rw [Bool.and_eq_true, beq_iff_eq]
        rintro ⟨rfl, -⟩
        exact hn.1 hj
      exact ⟨s, SeqTable.mem_update.mpr ⟨s, hs, by rw [if_neg hne]⟩, hsa, hsb⟩
    have hone := activeIn_retireRow hr ha none q
    have hall := ih hn.2 hrest
    have hcons : retireAll t (i :: ids) = retireAll (retireRow t i none) ids := rfl
    rw [hcons, hone, hall, hb, List.length_cons]
    split <;> omega

/-- A row is gone from the table as it was when it was active and its id is retired. -/
theorem not_mem_retireAll {t : SeqTable Chunk} {ids : List Int} {x : Int × Chunk}
    (hx : x ∈ t.rows) : x ∉ (retireAll t ids).rows ↔ x.1 ∈ ids ∧ x.2.isActive = true := by
  constructor
  · intro hn
    by_contra hc
    refine hn ?_
    clear hn
    induction ids generalizing t with
    | nil => exact hx
    | cons i ids ih =>
      have hcons : retireAll t (i :: ids) = retireAll (retireRow t i none) ids := rfl
      rw [hcons]
      refine ih (SeqTable.mem_update.mpr ⟨x.2, hx, ?_⟩) fun h =>
        hc ⟨List.mem_cons_of_mem i h.1, h.2⟩
      rw [if_neg]
      rw [Bool.and_eq_true, beq_iff_eq]
      rintro ⟨hi, ha⟩
      exact hc ⟨hi ▸ List.mem_cons_self, ha⟩
  · rintro ⟨hi, ha⟩ hm
    exact (mem_retireAll hm ha).2 hi

end Arags
