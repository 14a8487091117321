import Arags.Lib.KeyTable
import Mathlib.Data.List.Perm.Basic

/-!
# Sql.Table

Tables with integer row ids, as an SQL engine keeps them: a list of rows, each a row id and a
record of columns, no row id twice. A statement is one of

* `update p f` — `UPDATE … SET f WHERE p`; columns change, row ids do not;
* `delete p`   — `DELETE … WHERE p`;
* `insert r`   — `INSERT …`; the new row id is one more than the largest present;
* `select p`   — `SELECT … WHERE p`, rows in scan order.

`ScanOrder` is the order in which a `SELECT` without `ORDER BY` returns its rows: some
permutation that the query does not fix. `SeqTable` adds the `AUTOINCREMENT` counter, so that a
row id is never used twice.
-/

namespace Sql

/-- A table whose row ids are pairwise distinct. -/
structure Table (ρ : Type) where
  rows : List (Int × ρ)
  nodup : (rows.map Prod.fst).Nodup

namespace Table

variable {ρ : Type}

def empty : Table ρ := ⟨[], List.nodup_nil⟩

/-- The largest row id, `0` in an empty table. -/
def maxId (t : Table ρ) : Int := (t.rows.map Prod.fst).foldr max 0

def nextId (t : Table ρ) : Int := t.maxId + 1

def select (t : Table ρ) (p : Int → ρ → Bool) : List (Int × ρ) := t.rows.filter fun x => p x.1 x.2

/-- The row with id `i`. -/
def get? (t : Table ρ) (i : Int) : Option ρ := (t.rows.find? fun x => x.1 == i).map Prod.snd

def update (t : Table ρ) (p : Int → ρ → Bool) (f : Int → ρ → ρ) : Table ρ where
  rows := t.rows.map fun x => if p x.1 x.2 then (x.1, f x.1 x.2) else x
  nodup := by
    have h : ∀ x : Int × ρ, (if p x.1 x.2 then (x.1, f x.1 x.2) else x).1 = x.1 := by
      intro x; split <;> rfl
    simpa [List.map_map, Function.comp_def, h] using t.nodup

def delete (t : Table ρ) (p : Int → ρ → Bool) : Table ρ where
  rows := t.rows.filter fun x => !p x.1 x.2
  nodup := t.nodup.sublist (List.filter_sublist.map _)

theorem le_foldr_max {l : List Int} {i : Int} (h : i ∈ l) : i ≤ l.foldr max 0 := by
  induction l with
  | nil => cases h
  | cons a l ih =>
    simp only [List.foldr_cons]
    rcases List.mem_cons.mp h with rfl | h
    · omega
    · have := ih h
      omega

theorem foldr_max_nonneg (l : List Int) : 0 ≤ l.foldr max 0 := by
  induction l with
  | nil => exact Int.le_refl _
  | cons a l ih => simp only [List.foldr_cons]; omega

theorem lt_nextId {t : Table ρ} {i : Int} {r : ρ} (h : (i, r) ∈ t.rows) : i < t.nextId := by
  have := le_foldr_max (List.mem_map_of_mem (f := Prod.fst) h)
  simp only [nextId, maxId]; omega

def insert (t : Table ρ) (r : ρ) : Table ρ where
  rows := t.rows ++ [(t.nextId, r)]
  nodup := by
    rw [List.map_append, List.nodup_append]
    refine ⟨t.nodup, by simp, ?_⟩
    intro i hi j hj
    obtain ⟨⟨k, x⟩, hx, rfl⟩ := List.mem_map.mp hi
    simp only [List.map_cons, List.map_nil, List.mem_singleton] at hj
    subst hj
    exact Int.ne_of_lt (lt_nextId hx)

/-! ## Rows of a table -/

theorem eq_of_mem {t : Table ρ} {i : Int} {r s : ρ} (hr : (i, r) ∈ t.rows)
    (hs : (i, s) ∈ t.rows) : r = s := by
  have := List.inj_on_of_nodup_map t.nodup hr hs rfl
  exact congrArg Prod.snd this

@[simp] theorem mem_select {t : Table ρ} {p : Int → ρ → Bool} {i : Int} {r : ρ} :
    (i, r) ∈ t.select p ↔ (i, r) ∈ t.rows ∧ p i r = true := by
  simp [select]

theorem get?_eq_some {t : Table ρ} {i : Int} {r : ρ} : t.get? i = some r ↔ (i, r) ∈ t.rows :=
  find?_key t.nodup

theorem get?_eq_none {t : Table ρ} {i : Int} : t.get? i = none ↔ ∀ r, (i, r) ∉ t.rows := by
  constructor
  · intro h r hr
    rw [get?_eq_some.mpr hr] at h; cases h
  · intro h
    cases hg : t.get? i with
    | none => rfl
    | some r => exact absurd (get?_eq_some.mp hg) (h r)

@[simp] theorem not_mem_empty {i : Int} {r : ρ} : (i, r) ∉ (empty : Table ρ).rows := by
  simp [empty]

theorem mem_update {t : Table ρ} {p : Int → ρ → Bool} {f : Int → ρ → ρ} {i : Int} {r : ρ} :
    (i, r) ∈ (t.update p f).rows ↔
      ∃ s, (i, s) ∈ t.rows ∧ r = if p i s then f i s else s := by
  simp only [update, List.mem_map, Prod.exists]
  constructor
  · rintro ⟨j, s, hs, he⟩
    split at he
    · cases he; exact ⟨s, hs, by simp [*]⟩
    · cases he; exact ⟨r, hs, by simp [*]⟩
  · rintro ⟨s, hs, rfl⟩
    exact ⟨i, s, hs, by split <;> rfl⟩

theorem get?_update (t : Table ρ) (p : Int → ρ → Bool) (f : Int → ρ → ρ) (i : Int) :
    (t.update p f).get? i = (t.get? i).map fun r => if p i r then f i r else r := by
  cases h : t.get? i with
  | none =>
    refine get?_eq_none.mpr fun r hr => ?_
    obtain ⟨s, hs, -⟩ := mem_update.mp hr
    exact get?_eq_none.mp h s hs
  | some r => exact get?_eq_some.mpr (mem_update.mpr ⟨r, get?_eq_some.mp h, rfl⟩)

@[simp] theorem mem_delete {t : Table ρ} {p : Int → ρ → Bool} {i : Int} {r : ρ} :
    (i, r) ∈ (t.delete p).rows ↔ (i, r) ∈ t.rows ∧ p i r = false := by
  simp [delete]

theorem get?_delete (t : Table ρ) (p : Int → ρ → Bool) (i : Int) :
    (t.delete p).get? i = (t.get? i).filter fun r => !p i r := by
  cases h : t.get? i with
  | none =>
    refine get?_eq_none.mpr fun r hr => ?_
    exact get?_eq_none.mp h r (mem_delete.mp hr).1
  | some r =>
    have hr := get?_eq_some.mp h
    cases hp : p i r with
    | false =>
      rw [Option.filter_some, if_pos (by simp [hp])]
      exact get?_eq_some.mpr (mem_delete.mpr ⟨hr, hp⟩)
    | true =>
      rw [Option.filter_some, if_neg (by simp [hp])]
      refine get?_eq_none.mpr fun s hs => ?_
      obtain ⟨hs, hps⟩ := mem_delete.mp hs
      rw [eq_of_mem hs hr, hp] at hps
      cases hps

@[simp] theorem mem_insert {t : Table ρ} {x : ρ} {i : Int} {r : ρ} :
    (i, r) ∈ (t.insert x).rows ↔ (i, r) ∈ t.rows ∨ (i = t.nextId ∧ r = x) := by
  simp [insert]

theorem get?_nextId (t : Table ρ) : t.get? t.nextId = none :=
  get?_eq_none.mpr fun _ hr => Int.lt_irrefl _ (lt_nextId hr)

theorem get?_insert (t : Table ρ) (x : ρ) (i : Int) :
    (t.insert x).get? i = if i = t.nextId then some x else t.get? i := by
  split
  · rename_i h
    exact get?_eq_some.mpr (mem_insert.mpr (.inr ⟨h, rfl⟩))
  · rename_i h
    cases hg : t.get? i with
    | some r => exact get?_eq_some.mpr (mem_insert.mpr (.inl (get?_eq_some.mp hg)))
    | none =>
      refine get?_eq_none.mpr fun r hr => ?_
      rcases mem_insert.mp hr with hr | ⟨he, -⟩
      · exact get?_eq_none.mp hg r hr
      · exact h he

theorem select_insert (t : Table ρ) (x : ρ) (p : Int → ρ → Bool) :
    (t.insert x).select p = t.select p ++ if p t.nextId x then [(t.nextId, x)] else [] := by
  simp only [select, insert, List.filter_append]
  cases h : p t.nextId x <;> simp [h]

theorem foldr_max_concat (l : List Int) (a : Int) :
    (l ++ [a]).foldr max 0 = max (l.foldr max 0) (max a 0) := by
  induction l with
  | nil => simp only [List.nil_append, List.foldr_cons, List.foldr_nil]; omega
  | cons b l ih => simp only [List.cons_append, List.foldr_cons, ih]; omega

theorem maxId_insert (t : Table ρ) (r : ρ) : (t.insert r).maxId = t.maxId + 1 := by
  have h0 : 0 ≤ t.maxId := foldr_max_nonneg _
  simp only [maxId, insert, List.map_append, List.map_cons, List.map_nil, foldr_max_concat]
  simp only [maxId] at h0
  simp only [nextId, maxId]
  omega

theorem le_maxId {t : Table ρ} {i : Int} {r : ρ} (h : (i, r) ∈ t.rows) : i ≤ t.maxId :=
  le_foldr_max (List.mem_map_of_mem (f := Prod.fst) h)

/-- The number of rows a statement with this `WHERE` clause affects. -/
def count (t : Table ρ) (p : Int → ρ → Bool) : Nat := (t.select p).length

theorem filter_eq_singleton {l : List (Int × ρ)} {p : Int × ρ → Bool} {x : Int × ρ}
    (hl : (l.map Prod.fst).Nodup) (hx : x ∈ l) (hp : p x = true)
    (hi : ∀ y ∈ l, p y = true → y.1 = x.1) : l.filter p = [x] := by
  induction l with
  | nil => cases hx
  | cons a l ih =>
    simp only [List.map_cons, List.nodup_cons] at hl
    rcases List.mem_cons.mp hx with rfl | hx
    · rw [List.filter_cons_of_pos hp, List.filter_eq_nil_iff.mpr]
      intro y hy hpy
      have he := hi y (List.mem_cons_of_mem _ hy) hpy
      exact hl.1 (he ▸ List.mem_map_of_mem (f := Prod.fst) hy)
    · have ha : ¬ p a = true := by
        intro hpa
        have he := hi a List.mem_cons_self hpa
        exact hl.1 (he ▸ List.mem_map_of_mem (f := Prod.fst) hx)
      rw [List.filter_cons_of_neg ha]
      exact ih hl.2 hx fun y hy => hi y (List.mem_cons_of_mem _ hy)

/-- A `WHERE id = i AND …` clause that the row meets affects exactly that row. -/
theorem count_id {t : Table ρ} {i : Int} {r : ρ} {q : ρ → Bool} (h : (i, r) ∈ t.rows)
    (hq : q r = true) : t.count (fun j s => j == i && q s) = 1 := by
  have := filter_eq_singleton (p := fun x => x.1 == i && q x.2) t.nodup h (by simp [hq])
    (by intro y _ hy; simp only [Bool.and_eq_true, beq_iff_eq] at hy; exact hy.1)
  simp only [count, select, this, List.length_singleton]

theorem count_le_one {t : Table ρ} {p : Int → ρ → Bool}
    (h : ∀ x ∈ t.select p, ∀ y ∈ t.select p, x.1 = y.1) : t.count p ≤ 1 := by
  have hn : ((t.select p).map Prod.fst).Nodup := t.nodup.sublist (List.filter_sublist.map _)
  unfold count
  cases hs : t.select p with
  | nil => exact Nat.zero_le _
  | cons x l =>
    cases l with
    | nil => exact Nat.le_refl _
    | cons y l =>
      rw [hs] at h hn
      have he := h x (by simp) y (by simp)
      simp [he] at hn

theorem count_congr {t : Table ρ} {p q : Int → ρ → Bool}
    (h : ∀ i r, (i, r) ∈ t.rows → p i r = q i r) : t.count p = t.count q := by
  unfold count select
  rw [List.filter_congr fun x hx => h x.1 x.2 hx]

theorem count_eq_zero {t : Table ρ} {p : Int → ρ → Bool} :
    t.count p = 0 ↔ ∀ i r, (i, r) ∈ t.rows → p i r = false := by
  simp [count, select]

theorem count_insert (t : Table ρ) (x : ρ) (p : Int → ρ → Bool) :
    (t.insert x).count p = t.count p + if p t.nextId x then 1 else 0 := by
  unfold count
  rw [select_insert, List.length_append]
  split <;> rfl

theorem count_update (t : Table ρ) (p q : Int → ρ → Bool) (f : Int → ρ → ρ) :
    (t.update q f).count p = t.count fun i r => p i (if q i r then f i r else r) := by
  simp only [count, select, update, List.filter_map, List.length_map]
  congr 1
  refine List.filter_congr fun x _ => ?_
  simp only [Function.comp_apply]
  split <;> rfl

theorem count_delete (t : Table ρ) (p q : Int → ρ → Bool) :
    (t.delete q).count p = t.count fun i r => p i r && !q i r := by
  simp only [count, select, delete, List.filter_filter]

theorem length_filter_ne {l : List (Int × ρ)} {x : Int × ρ} (hl : (l.map Prod.fst).Nodup)
    (hx : x ∈ l) (p : Int × ρ → Bool) :
    (l.filter p).length = (l.filter fun y => y.1 != x.1 && p y).length + if p x then 1 else 0 := by
  induction l with
  | nil => cases hx
  | cons a l ih =>
    simp only [List.map_cons, List.nodup_cons] at hl
    rcases List.mem_cons.mp hx with rfl | hx
    · have hrest : l.filter (fun y => y.1 != x.1 && p y) = l.filter p := by
        refine List.filter_congr fun y hy => ?_
        have : y.1 ≠ x.1 := fun he => hl.1 (he ▸ List.mem_map_of_mem (f := Prod.fst) hy)
        simp [this]
      cases hp : p x <;> simp [hp, hrest]
    · have ha : a.1 ≠ x.1 := fun he => hl.1 (he ▸ List.mem_map_of_mem (f := Prod.fst) hx)
      have ih := ih hl.2 hx
      cases hp : p a <;> simp [hp, ha] <;> omega

/-- A count is the count over the other rows, and one more where the row belongs to it. -/
theorem count_except {t : Table ρ} {i : Int} {r : ρ} (h : (i, r) ∈ t.rows)
    (p : Int → ρ → Bool) :
    t.count p = t.count (fun j s => j != i && p j s) + if p i r then 1 else 0 :=
  length_filter_ne t.nodup h fun x => p x.1 x.2

/-- Rows that meet the clause and are named once each. -/
theorem count_ids {t : Table ρ} {p : ρ → Bool} {ids : List Int} (hn : ids.Nodup)
    (h : ∀ i ∈ ids, ∃ r, (i, r) ∈ t.rows ∧ p r = true) :
    t.count (fun i r => p r && ids.contains i) = ids.length := by
  have hselected : ((t.select fun i r => p r && ids.contains i).map Prod.fst).Nodup :=
    t.nodup.sublist (List.filter_sublist.map _)
  have hsame : ∀ i, i ∈ (t.select fun i r => p r && ids.contains i).map Prod.fst ↔ i ∈ ids := by
    intro i
    rw [List.mem_map]
    constructor
    · rintro ⟨⟨j, r⟩, hx, rfl⟩
      have hp := (mem_select.mp hx).2
      simp only [Bool.and_eq_true, List.contains_iff_mem] at hp
      exact hp.2
    · intro hi
      obtain ⟨r, hr, hp⟩ := h i hi
      exact ⟨(i, r), mem_select.mpr ⟨hr, by simp [hp, hi]⟩, rfl⟩
  have hperm := (List.perm_ext_iff_of_nodup hselected hn).mpr hsame
  unfold count
  rw [← hperm.length_eq, List.length_map]

/-- An update keeps the ids, in their order. -/
theorem ids_update (t : Table ρ) (p : Int → ρ → Bool) (f : Int → ρ → ρ) :
    (t.update p f).rows.map Prod.fst = t.rows.map Prod.fst := by
  unfold update
  dsimp only
  rw [List.map_map]
  refine List.map_congr_left fun x _ => ?_
  simp only [Function.comp_apply]
  split <;> rfl

/-- An update with nothing to match changes nothing. -/
theorem update_of_none {t : Table ρ} {p : Int → ρ → Bool} {f : Int → ρ → ρ}
    (h : ∀ i r, (i, r) ∈ t.rows → p i r = false) : t.update p f = t := by
  have : (t.update p f).rows = t.rows := by
    simp only [update]
    refine (List.map_congr_left fun x hx => ?_).trans (List.map_id _)
    simp [h x.1 x.2 hx]
  cases t; simp only [update, mk.injEq]; exact this

/-- An update that takes its rows out of a selection, and puts none in. -/
theorem select_update_out {t : Table ρ} {p q : Int → ρ → Bool} {f : Int → ρ → ρ}
    (hf : ∀ i r, (i, r) ∈ t.rows → q i r = true → p i (f i r) = false) :
    (t.update q f).select p = (t.select p).filter fun x => !q x.1 x.2 := by
  have h : ∀ l : List (Int × ρ), (∀ x ∈ l, x ∈ t.rows) →
      (l.map fun x => if q x.1 x.2 then (x.1, f x.1 x.2) else x).filter (fun x => p x.1 x.2) =
        (l.filter fun x => p x.1 x.2).filter fun x => !q x.1 x.2 := by
    intro l
    induction l with
    | nil => intro _; rfl
    | cons x l ih =>
      intro hl
      have ih := ih fun y hy => hl y (List.mem_cons_of_mem x hy)
      rw [List.map_cons]
      cases hq : q x.1 x.2 with
      | true =>
        have hp : p x.1 (f x.1 x.2) = false := hf x.1 x.2 (hl x List.mem_cons_self) hq
        cases hpx : p x.1 x.2 <;> simp [hq, hp, hpx, ih]
      | false => cases hpx : p x.1 x.2 <;> simp [hq, hpx, ih]
  exact h t.rows fun x hx => hx

/-- An update that the selection does not notice changes the selected rows in place. -/
theorem select_update_in {t : Table ρ} {p q : Int → ρ → Bool} {f : Int → ρ → ρ}
    (hf : ∀ i r, p i (f i r) = p i r) :
    (t.update q f).select p =
      (t.select p).map fun x => if q x.1 x.2 then (x.1, f x.1 x.2) else x := by
  simp only [select, update, List.filter_map]
  refine congrArg _ (List.filter_congr fun x _ => ?_)
  simp only [Function.comp_apply]
  split
  · exact hf x.1 x.2
  · rfl

end Table

/-- A table with an `AUTOINCREMENT` key: `seq` is the largest row id ever given out. -/
structure SeqTable (ρ : Type) extends Table ρ where
  seq : Int
  le_seq : ∀ x ∈ rows, x.1 ≤ seq

namespace SeqTable

variable {ρ : Type}

def empty : SeqTable ρ := ⟨Table.empty, 0, by simp [Table.empty]⟩

def update (t : SeqTable ρ) (p : Int → ρ → Bool) (f : Int → ρ → ρ) : SeqTable ρ where
  toTable := t.toTable.update p f
  seq := t.seq
  le_seq := by
    intro x hx
    obtain ⟨s, hs, -⟩ := Table.mem_update.mp hx
    exact t.le_seq (x.1, s) hs

def insert (t : SeqTable ρ) (r : ρ) : SeqTable ρ where
  rows := t.rows ++ [(t.seq + 1, r)]
  nodup := by
    rw [List.map_append, List.nodup_append]
    refine ⟨t.nodup, by simp, ?_⟩
    intro i hi j hj
    obtain ⟨x, hx, rfl⟩ := List.mem_map.mp hi
    have := t.le_seq x hx
    simp only [List.map_cons, List.map_nil, List.mem_singleton] at hj
    omega
  seq := t.seq + 1
  le_seq := by
    intro x hx
    rcases List.mem_append.mp hx with hx | hx
    · have := t.le_seq x hx; omega
    · simp only [List.mem_singleton] at hx; subst hx; exact Int.le_refl _

def delete (t : SeqTable ρ) (p : Int → ρ → Bool) : SeqTable ρ where
  toTable := t.toTable.delete p
  seq := t.seq
  le_seq := by
    intro x hx
    exact t.le_seq x (List.mem_filter.mp hx).1

theorem mem_delete {t : SeqTable ρ} {p : Int → ρ → Bool} {i : Int} {r : ρ} :
    (i, r) ∈ (t.delete p).rows ↔ (i, r) ∈ t.rows ∧ p i r = false :=
  Table.mem_delete

theorem delete_congr {t : SeqTable ρ} {p q : Int → ρ → Bool}
    (h : ∀ i r, (i, r) ∈ t.rows → p i r = q i r) : t.delete p = t.delete q := by
  have hrows : t.rows.filter (fun x => !p x.1 x.2) = t.rows.filter fun x => !q x.1 x.2 :=
    List.filter_congr fun x hx => by rw [h x.1 x.2 hx]
  simp only [delete, Table.delete, hrows]

@[simp] theorem seq_update (t : SeqTable ρ) (p : Int → ρ → Bool) (f : Int → ρ → ρ) :
    (t.update p f).seq = t.seq := rfl

theorem rows_insert (t : SeqTable ρ) (x : ρ) : (t.insert x).rows = t.rows ++ [(t.seq + 1, x)] := rfl

@[simp] theorem seq_insert (t : SeqTable ρ) (r : ρ) : (t.insert r).seq = t.seq + 1 := rfl

theorem mem_update {t : SeqTable ρ} {p : Int → ρ → Bool} {f : Int → ρ → ρ} {i : Int} {r : ρ} :
    (i, r) ∈ (t.update p f).rows ↔ ∃ s, (i, s) ∈ t.rows ∧ r = if p i s then f i s else s :=
  Table.mem_update

theorem mem_insert {t : SeqTable ρ} {x : ρ} {i : Int} {r : ρ} :
    (i, r) ∈ (t.insert x).rows ↔ (i, r) ∈ t.rows ∨ (i = t.seq + 1 ∧ r = x) := by
  rw [rows_insert, List.mem_append, List.mem_singleton, Prod.mk.injEq]

theorem select_insert (t : SeqTable ρ) (x : ρ) (p : Int → ρ → Bool) :
    (t.insert x).select p = t.select p ++ if p (t.seq + 1) x then [(t.seq + 1, x)] else [] := by
  rw [Table.select, rows_insert, List.filter_append]
  cases h : p (t.seq + 1) x <;> simp [Table.select, h]

end SeqTable

/-- A query without `ORDER BY` returns its rows in an order the query does not fix. -/
structure ScanOrder (ρ : Type) where
  order : List (Int × ρ) → List (Int × ρ)
  perm : ∀ l, (order l).Perm l

namespace ScanOrder

variable {ρ : Type}

/-- Rows in row-id order. -/
def rowid : ScanOrder ρ := ⟨id, fun _ => .refl _⟩

theorem mem_order (o : ScanOrder ρ) {l : List (Int × ρ)} {x : Int × ρ} :
    x ∈ o.order l ↔ x ∈ l := (o.perm l).mem_iff

theorem ids_nodup (o : ScanOrder ρ) (t : Table ρ) (p : Int → ρ → Bool) :
    ((o.order (t.select p)).map Prod.fst).Nodup :=
  ((o.perm _).map Prod.fst).nodup_iff.mpr (t.nodup.sublist (List.filter_sublist.map _))

end ScanOrder

/-- The first element that no other precedes under the strict order `lt`: `ORDER BY … LIMIT 1`. -/
def firstBy {α : Type} (lt : α → α → Bool) : List α → Option α
  | [] => none
  | a :: l =>
    match firstBy lt l with
    | none => some a
    | some b => if lt b a then some b else some a

theorem firstBy_mem {α : Type} {lt : α → α → Bool} {l : List α} {a : α}
    (h : firstBy lt l = some a) : a ∈ l := by
  induction l generalizing a with
  | nil => simp [firstBy] at h
  | cons b l ih =>
    simp only [firstBy] at h
    split at h
    · cases h; simp
    · rename_i c hc
      split at h
      · cases h; exact List.mem_cons_of_mem _ (ih hc)
      · cases h; simp

end Sql
