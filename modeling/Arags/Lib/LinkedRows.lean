import Arags.Lib.Chains
import Arags.Lib.Table

/-!
# Sql.LinkedRows

Tables whose rows point at their successors.

* `linksOf`  — the links of a table, read off each row by `link`.
* `linksOf_update`, `linksOf_delete`, `linksOf_replace` — what a write does to them.
* `current_scan` — the row that a replacement retires, as a scan finds it.
* `rowsOf`   — the rows of a subject; `idsOf_update`, `idsOf_insert`, `rowsOf_row`.
* `chainFrom` — the rows from an id on; it lists the walk along the links, `chainFrom_walk`.
* `chainFrom_succession` — in a succession it lists the later rows of the subject.
-/

namespace Sql

open Chains

variable {ρ κ : Type} {link : ρ → Link κ} {t t' : Table ρ}

def linksOf (link : ρ → Link κ) (t : Table ρ) : Links κ := fun i => (t.get? i).map link

theorem linksOf_eq_some {i : Int} {l : Link κ} :
    linksOf link t i = some l ↔ ∃ r, (i, r) ∈ t.rows ∧ link r = l := by
  unfold linksOf
  simp only [Option.map_eq_some_iff, Table.get?_eq_some]

theorem linksOf_row {x : Int × ρ} (hx : x ∈ t.rows) : linksOf link t x.1 = some (link x.2) :=
  linksOf_eq_some.mpr ⟨x.2, hx, rfl⟩

theorem linksOf_lt {i : Int} {l : Link κ} (h : linksOf link t i = some l) : i < t.nextId := by
  obtain ⟨r, hr, -⟩ := linksOf_eq_some.mp h
  exact Table.lt_nextId hr

theorem linksOf_update {p : Int → ρ → Bool} {f : Int → ρ → ρ}
    (hf : ∀ i r, link (f i r) = link r) : linksOf link (t.update p f) = linksOf link t := by
  funext i
  unfold linksOf
  rw [Table.get?_update, Option.map_map]
  congr 1
  funext r
  simp only [Function.comp_apply]
  split
  · exact hf i r
  · rfl

theorem linksOf_delete (p : Int → Bool) :
    linksOf link (t.delete fun i _ => p i) = remove (linksOf link t) p := by
  funext i
  unfold linksOf remove
  rw [Table.get?_delete]
  dsimp only
  generalize t.get? i = row
  cases row with
  | none => cases p i <;> rfl
  | some r => cases p i <;> rfl

/-- A row is added, and the row of the id `old` is retired and points at it. -/
theorem linksOf_replace {old : Option Int} {s : κ} {version : Int} (new : ρ) (retire : ρ → ρ)
    (hget : ∀ i, t'.get? i = if i = t.nextId then some new
      else if some i = old then (t.get? i).map retire else t.get? i)
    (hnew : link new = ⟨s, true, version, none⟩)
    (hretire : ∀ r, link (retire r) = { link r with live := false, next := some t.nextId }) :
    linksOf link t' = supersede (linksOf link t) old t.nextId s version := by
  funext i
  unfold linksOf supersede
  rw [hget]
  by_cases hi : i = t.nextId
  · rw [if_pos hi, if_pos hi, Option.map_some, hnew]
  · rw [if_neg hi, if_neg hi]
    by_cases ho : some i = old
    · rw [if_pos ho, if_pos ho, Option.map_map, Option.map_map]
      congr 1
      funext r
      exact hretire r
    · rw [if_neg ho, if_neg ho]

/-- `SELECT … WHERE subject = … AND is_active = 1 LIMIT 1` finds the row to replace. -/
theorem current_scan (scan : ScanOrder ρ) {p : ρ → Bool} {s : κ}
    (hp : ∀ r, p r = true ↔ (link r).subject = s ∧ (link r).live = true) :
    Current (linksOf link t) s
      (((scan.order (t.select fun _ r => p r)).head?.map fun x => (link x.2).version + 1).getD 1)
      ((scan.order (t.select fun _ r => p r)).head?.map Prod.fst) := by
  cases hs : (scan.order (t.select fun _ r => p r)).head? with
  | none =>
    refine ⟨?_, ?_⟩
    · intro i h
      cases h
    · intro _ i l h hsub
      obtain ⟨r, hr, rfl⟩ := linksOf_eq_some.mp h
      cases hlive : (link r).live with
      | false => rfl
      | true =>
        have hm : (i, r) ∈ scan.order (t.select fun _ r => p r) :=
          scan.mem_order.mpr (Table.mem_select.mpr ⟨hr, (hp r).mpr ⟨hsub, hlive⟩⟩)
        rw [List.head?_eq_none_iff.mp hs] at hm
        cases hm
  | some x =>
    obtain ⟨hm, hx⟩ := Table.mem_select.mp (scan.mem_order.mp (List.mem_of_head? hs))
    obtain ⟨hsub, hlive⟩ := (hp x.2).mp hx
    refine ⟨?_, ?_⟩
    · intro i h
      cases h
      exact ⟨_, linksOf_row hm, hsub, hlive, rfl⟩
    · intro h
      cases h

/-! ## Rows of a subject -/

section Subject

variable [DecidableEq κ] {s : κ}

def rowsOf (link : ρ → Link κ) (t : Table ρ) (s : κ) : List (Int × ρ) :=
  t.select fun _ r => decide ((link r).subject = s)

theorem idsOf_update {p : Int → ρ → Bool} {f : Int → ρ → ρ}
    (hf : ∀ i r, (link (f i r)).subject = (link r).subject) :
    (rowsOf link (t.update p f) s).map Prod.fst = (rowsOf link t s).map Prod.fst := by
  have hs := Table.select_update_in (t := t) (p := fun _ r => decide ((link r).subject = s))
    (q := p) (f := f) fun i r => by rw [hf]
  unfold rowsOf
  rw [hs, List.map_map]
  refine List.map_congr_left fun x _ => ?_
  simp only [Function.comp_apply]
  split <;> rfl

theorem idsOf_insert (r : ρ) : (rowsOf link (t.insert r) s).map Prod.fst =
    (rowsOf link t s).map Prod.fst ++ if (link r).subject = s then [t.nextId] else [] := by
  unfold rowsOf
  rw [Table.select_insert, List.map_append]
  by_cases h : (link r).subject = s
  · simp [h]
  · simp [h]

/-- What a succession says of the rows. -/
theorem rowsOf_row (h : Succession (linksOf link t) s ((rowsOf link t s).map Prod.fst)) {n : Nat}
    (hn : n < (rowsOf link t s).length) :
    (link (rowsOf link t s)[n].2).live = decide (n + 1 = (rowsOf link t s).length) ∧
      (link (rowsOf link t s)[n].2).version = (n : Int) + 1 := by
  have hlink := h n (by simpa using hn)
  have hmem : (rowsOf link t s)[n] ∈ t.rows := (List.mem_filter.mp (List.getElem_mem hn)).1
  rw [List.getElem_map, linksOf_row hmem, Option.some.injEq] at hlink
  rw [hlink, List.length_map]
  exact ⟨rfl, rfl⟩

end Subject

/-! ## Rows in a chain -/

/-- The rows from an id on, along `next`; nothing when the fuel runs out. -/
def chainFrom (next : ρ → Option Int) (t : Table ρ) : Nat → Option Int → Option (List (Int × ρ))
  | _, none => some []
  | 0, some _ => none
  | fuel + 1, some id =>
    match t.get? id with
    | none => some []
    | some row => (chainFrom next t fuel (next row)).map fun rest => (id, row) :: rest

theorem chainFrom_walk (t : Table ρ) : ∀ (fuel : Nat) (id : Option Int),
    (chainFrom (fun r => (link r).next) t fuel id).map (List.map fun x => (x.1, link x.2)) =
      walk (linksOf link t) fuel id := by
  intro fuel
  induction fuel with
  | zero => intro id; cases id <;> rfl
  | succ fuel ih =>
    intro id
    cases id with
    | none => rfl
    | some i =>
      rw [chainFrom, walk, linksOf]
      cases t.get? i with
      | none => rfl
      | some r =>
        dsimp only [Option.map_some]
        rw [← ih]
        cases chainFrom (fun r => (link r).next) t fuel (link r).next <;> rfl

theorem chainFrom_rows {next : ρ → Option Int} (t : Table ρ) :
    ∀ {fuel : Nat} {id : Option Int} {h : List (Int × ρ)},
      chainFrom next t fuel id = some h → ∀ x ∈ h, x ∈ t.rows := by
  intro fuel
  induction fuel with
  | zero =>
    intro id h hh
    cases id with
    | none => cases hh; intro x hx; cases hx
    | some i => cases hh
  | succ fuel ih =>
    intro id h hh
    cases id with
    | none => cases hh; intro x hx; cases hx
    | some i =>
      rw [chainFrom] at hh
      cases hg : t.get? i with
      | none =>
        rw [hg] at hh
        cases hh
        intro x hx
        cases hx
      | some r =>
        rw [hg] at hh
        obtain ⟨rest, hrest, rfl⟩ := Option.map_eq_some_iff.mp hh
        intro x hx
        rcases List.mem_cons.mp hx with rfl | hx
        · exact Table.get?_eq_some.mp hg
        · exact ih hrest x hx

/-- Where rows point at larger ids a chain ends, whatever was deleted. -/
theorem chainFrom_ends {next : ρ → Option Int}
    (hf : ∀ x ∈ t.rows, ∀ j, next x.2 = some j → x.1 < j) (i : Int) :
    ∃ fuel h, chainFrom next t fuel (some i) = some h := by
  have hmeasure : ∀ (n : Nat) (i : Int), t.nextId - i ≤ n →
      ∃ h, chainFrom next t (n + 1) (some i) = some h := by
    intro n
    induction n with
    | zero =>
      intro i hi
      have hnone : t.get? i = none := by
        refine Table.get?_eq_none.mpr fun r hr => ?_
        have := Table.lt_nextId hr
        omega
      exact ⟨[], by rw [chainFrom, hnone]⟩
    | succ n ih =>
      intro i hi
      rw [chainFrom]
      cases hg : t.get? i with
      | none => exact ⟨[], rfl⟩
      | some r =>
        dsimp only
        cases hn : next r with
        | none => exact ⟨[(i, r)], rfl⟩
        | some j =>
          have hlt : i < j := hf (i, r) (Table.get?_eq_some.mp hg) j hn
          obtain ⟨rest, hrest⟩ := ih j (by omega)
          exact ⟨(i, r) :: rest, by rw [hrest]; rfl⟩
  obtain ⟨h, hh⟩ := hmeasure (t.nextId - i).toNat i (by omega)
  exact ⟨_, h, hh⟩

/-- Rows of one table are the same when their ids are. -/
theorem rows_eq_of_ids : ∀ {xs ys : List (Int × ρ)}, (∀ x ∈ xs, x ∈ t.rows) →
    (∀ y ∈ ys, y ∈ t.rows) → xs.map Prod.fst = ys.map Prod.fst → xs = ys := by
  intro xs
  induction xs with
  | nil =>
    intro ys _ _ h
    exact (List.map_eq_nil_iff.mp h.symm).symm
  | cons x xs ih =>
    intro ys hx hy h
    cases ys with
    | nil => cases h
    | cons y ys =>
      rw [List.map_cons, List.map_cons, List.cons.injEq] at h
      obtain ⟨hxs, hx'⟩ := List.forall_mem_cons.mp hx |>.symm
      obtain ⟨hys, hy'⟩ := List.forall_mem_cons.mp hy |>.symm
      have hrow : x.2 = y.2 := Table.eq_of_mem hx' (h.1 ▸ hy' : (x.1, y.2) ∈ t.rows)
      rw [ih hxs hys h.2, Prod.ext h.1 hrow]

/-- In a succession, the chain from a row is that row and the later ones of its subject. -/
theorem chainFrom_succession {s : κ} {rows : List (Int × ρ)} (hrows : ∀ x ∈ rows, x ∈ t.rows)
    (hs : Succession (linksOf link t) s (rows.map Prod.fst)) {n fuel : Nat}
    (hn : n < rows.length) (hfuel : rows.length < fuel + n) :
    chainFrom (fun r => (link r).next) t fuel (some rows[n].1) = some (rows.drop n) := by
  have hlen : (rows.map Prod.fst).length < fuel + n := by
    rw [List.length_map]
    exact hfuel
  have hwalk := hs.walk hlen
  rw [List.getElem?_map, List.getElem?_eq_getElem hn, Option.map_some, ← chainFrom_walk,
    Option.map_map, ← List.map_drop] at hwalk
  obtain ⟨h, hh, hids⟩ := Option.map_eq_some_iff.mp hwalk
  rw [hh]
  refine congrArg some (rows_eq_of_ids (chainFrom_rows t hh)
    (fun y hy => hrows y (List.mem_of_mem_drop hy)) ?_)
  rw [Function.comp_apply, List.map_map] at hids
  exact hids

end Sql
