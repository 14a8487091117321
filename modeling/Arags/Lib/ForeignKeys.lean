import Arags.Lib.Schema

/-!
# Sql.ForeignKeys

The statements of `Sql.Schema` with foreign keys enforced.

* `cascade`      — the rows that are deleted with the rows they refer to;
* `Stmt.enforce` — `DROP TABLE` deletes the rows first: no trigger fires, but the actions of the
  keys that refer to the table follow, and no reference may be left without its row;
* `runEnforced`  — a script;
* `deleteWhere`  — `DELETE FROM table WHERE …`, with its closed form where the rows that follow the
  deleted ones are themselves referred to by nothing (`Flat`).

The keys are those of the tables that the scripts create; a table that a script renames has none.
-/

namespace Sql

/-- `ON DELETE`. -/
inductive DeleteAction
  | noAction
  | cascade
deriving DecidableEq

/-- `FOREIGN KEY (column) REFERENCES parent (key)`, on `table`. -/
structure ForeignKey where
  table : String
  column : String
  parent : String
  key : String
  onDelete : DeleteAction
deriving DecidableEq

namespace ForeignKey

def RefersTo (k : ForeignKey) (parents : List Cells) (r : Cells) : Prop :=
  r k.column ≠ none ∧ ∃ p ∈ parents, p k.key = r k.column

instance (k : ForeignKey) (parents : List Cells) (r : Cells) : Decidable (k.RefersTo parents r) :=
  inferInstanceAs (Decidable (r k.column ≠ none ∧ ∃ p ∈ parents, p k.key = r k.column))

/-- Every reference that is not `NULL` has its row. -/
def Holds (k : ForeignKey) (rows : Rows) : Prop :=
  ∀ r ∈ rows k.table, r k.column ≠ none → k.RefersTo (rows k.parent) r

instance (k : ForeignKey) (rows : Rows) : Decidable (k.Holds rows) :=
  inferInstanceAs (Decidable (∀ r ∈ rows k.table, r k.column ≠ none → k.RefersTo (rows k.parent) r))

/-- No reference has lost its row. -/
def Survives (k : ForeignKey) (before after : Rows) : Prop :=
  ∀ r ∈ after k.table, k.RefersTo (before k.parent) r → k.RefersTo (after k.parent) r

instance (k : ForeignKey) (before after : Rows) : Decidable (k.Survives before after) :=
  inferInstanceAs (Decidable (∀ r ∈ after k.table,
    k.RefersTo (before k.parent) r → k.RefersTo (after k.parent) r))

end ForeignKey

/-- The actions of keys are triggers, and these do not nest any deeper. -/
def maxTriggerDepth : Nat := 1000

/-- What follows when the rows `gone` have been deleted from the table. -/
def cascade (keys : List ForeignKey) : Nat → String → List Cells → Rows → Option Rows
  | 0, _, _, _ => none
  | depth + 1, table, gone, rows =>
    (keys.filter fun k => k.parent = table ∧ k.onDelete = .cascade).foldlM (fun rows k =>
      let hit := (rows k.table).filter fun r => k.RefersTo gone r
      if hit.isEmpty then some rows
      else cascade keys depth k.table hit (Function.update rows k.table
        ((rows k.table).filter fun r => ¬ k.RefersTo gone r))) rows

def Stmt.enforce (keys : List ForeignKey) (x : Stmt) (d : Db) : Option Db :=
  match x with
  | .dropTable name =>
    match x.exec d with
    | none => none
    | some e =>
      match cascade keys maxTriggerDepth name (d.rows name) e.rows with
      | none => none
      | some rows =>
        if ∀ k ∈ keys, k.Survives d.rows rows then some { e with rows := rows } else none
  | .copyRows target _ _ =>
    match x.exec d with
    | none => none
    | some e => if ∀ k ∈ keys, k.table = target → k.Holds e.rows then some e else none
  | _ => x.exec d

/-- `execute_batch`, as `runBatch`. -/
def runEnforced (keys : List ForeignKey) : List Stmt → Db → Db × Bool
  | [], d => (d, true)
  | s :: rest, d =>
    match s.enforce keys d with
    | none => (d, false)
    | some d => runEnforced keys rest d

/-- `DELETE FROM table WHERE p`; `none` when a reference is left without its row. -/
def deleteWhere (keys : List ForeignKey) (table : String) (p : Cells → Bool) (rows : Rows) :
    Option Rows :=
  match cascade keys maxTriggerDepth table ((rows table).filter p)
      (Function.update rows table ((rows table).filter fun r => !p r)) with
  | none => none
  | some rows' => if ∀ k ∈ keys, k.Survives rows rows' then some rows' else none

variable {keys : List ForeignKey}

/-! ### Deletions -/

theorem cascade_sublist {depth : Nat} {table : String} {gone : List Cells} {rows rows' : Rows}
    (h : cascade keys depth table gone rows = some rows') :
    ∀ t, (rows' t).Sublist (rows t) := by
  induction depth generalizing table gone rows rows' with
  | zero => cases h
  | succ depth ih =>
    rw [cascade] at h
    generalize (keys.filter fun k => k.parent = table ∧ k.onDelete = .cascade) = hitting at h
    induction hitting generalizing rows with
    | nil => cases h; exact fun _ => List.Sublist.refl _
    | cons k hitting ihk =>
      rw [List.foldlM_cons] at h
      obtain ⟨mid, hmid, h⟩ := Option.bind_eq_some_iff.mp h
      intro t
      refine (ihk h t).trans ?_
      dsimp only at hmid
      split at hmid
      · cases hmid
        exact List.Sublist.refl _
      · refine (ih hmid t).trans ?_
        by_cases ht : t = k.table
        · subst ht
          rw [Function.update_self]
          exact List.filter_sublist
        · rw [Function.update_of_ne ht]

/-- Nothing refers to the rows that go. -/
theorem cascade_unreferenced {depth : Nat} {table : String} {gone : List Cells} {rows : Rows}
    (h : ∀ k ∈ keys, k.parent = table → ∀ r ∈ rows k.table, ¬ k.RefersTo gone r) :
    cascade keys (depth + 1) table gone rows = some rows := by
  rw [cascade]
  have hall : ∀ k ∈ keys.filter fun k => k.parent = table ∧ k.onDelete = .cascade,
      ∀ r ∈ rows k.table, ¬ k.RefersTo gone r := by
    intro k hk
    obtain ⟨hk, hp⟩ := List.mem_filter.mp hk
    have hp : k.parent = table ∧ k.onDelete = .cascade := of_decide_eq_true hp
    exact h k hk hp.1
  generalize (keys.filter fun k => k.parent = table ∧ k.onDelete = .cascade) = hitting at hall
  induction hitting with
  | nil => rfl
  | cons k hitting ih =>
    have hnone : (rows k.table).filter (fun r => k.RefersTo gone r) = [] := by
      apply List.filter_eq_nil_iff.mpr
      intro r hr
      simpa using hall k (by simp) r hr
    rw [List.foldlM_cons]
    simp only [hnone, List.isEmpty_nil, if_true]
    exact ih fun k hk => hall k (List.mem_cons_of_mem _ hk)

/-- No key refers to what follows the rows of the table. -/
def Flat (keys : List ForeignKey) (table : String) : Prop :=
  ∀ k ∈ keys, k.parent = table → k.onDelete = .cascade → ∀ k' ∈ keys, k'.parent ≠ k.table

instance (keys : List ForeignKey) (table : String) : Decidable (Flat keys table) :=
  inferInstanceAs (Decidable (∀ k ∈ keys, k.parent = table → k.onDelete = .cascade →
    ∀ k' ∈ keys, k'.parent ≠ k.table))

/-- A row of `t` that does not follow the rows `gone` of the table. -/
def Spared (keys : List ForeignKey) (table : String) (gone : List Cells) (t : String) (r : Cells) :
    Prop :=
  ∀ k ∈ keys, k.parent = table → k.onDelete = .cascade → k.table = t → ¬ k.RefersTo gone r

instance (keys : List ForeignKey) (table : String) (gone : List Cells) (t : String) (r : Cells) :
    Decidable (Spared keys table gone t r) :=
  inferInstanceAs (Decidable (∀ k ∈ keys, k.parent = table → k.onDelete = .cascade →
    k.table = t → ¬ k.RefersTo gone r))

/-- The rows of one key, where nothing refers to them in turn. -/
theorem cascade_leaf {depth : Nat} {k : ForeignKey} {gone : List Cells} {rows : Rows}
    (hk : ∀ k' ∈ keys, k'.parent ≠ k.table) :
    (let hit := (rows k.table).filter fun r => k.RefersTo gone r
      if hit.isEmpty then some rows
      else cascade keys (depth + 1) k.table hit (Function.update rows k.table
        ((rows k.table).filter fun r => ¬ k.RefersTo gone r))) =
    some (Function.update rows k.table ((rows k.table).filter fun r => ¬ k.RefersTo gone r)) := by
  dsimp only
  split
  · next hempty =>
    have hkept : ((rows k.table).filter fun r => ¬ k.RefersTo gone r) = rows k.table := by
      refine List.filter_eq_self.mpr fun r hr => ?_
      have hno := List.filter_eq_nil_iff.mp (List.isEmpty_iff.mp hempty) r hr
      simpa using hno
    rw [hkept, Function.update_eq_self]
  · exact cascade_unreferenced fun k' hk' hp => absurd hp (hk k' hk')

theorem cascade_leaves {depth : Nat} {gone : List Cells} {hitting : List ForeignKey} {rows : Rows}
    (hleaf : ∀ k ∈ hitting, ∀ k' ∈ keys, k'.parent ≠ k.table) :
    (hitting.foldlM (fun rows k =>
      let hit := (rows k.table).filter fun r => k.RefersTo gone r
      if hit.isEmpty then some rows
      else cascade keys (depth + 1) k.table hit (Function.update rows k.table
        ((rows k.table).filter fun r => ¬ k.RefersTo gone r))) rows) =
    some fun t => (rows t).filter fun r => ∀ k ∈ hitting, k.table = t → ¬ k.RefersTo gone r := by
  induction hitting generalizing rows with
  | nil => simp
  | cons k hitting ih =>
    rw [List.foldlM_cons, cascade_leaf (hleaf k List.mem_cons_self)]
    refine (ih fun k' hk' => hleaf k' (List.mem_cons_of_mem k hk')).trans ?_
    congr 1
    funext t
    by_cases ht : k.table = t
    · subst ht
      rw [Function.update_self, List.filter_filter]
      refine List.filter_congr fun r _ => ?_
      rw [← Bool.decide_and, decide_eq_decide, List.forall_mem_cons]
      exact and_comm.trans (and_congr_left' (imp_iff_right rfl).symm)
    · rw [Function.update_of_ne (Ne.symm ht)]
      refine List.filter_congr fun r _ => ?_
      rw [decide_eq_decide, List.forall_mem_cons]
      exact (and_iff_right fun h => absurd h ht).symm

theorem cascade_flat {depth : Nat} {table : String} {gone : List Cells} {rows : Rows}
    (hflat : Flat keys table) :
    cascade keys (depth + 2) table gone rows =
      some fun t => (rows t).filter fun r => Spared keys table gone t r := by
  have hmem : ∀ k, k ∈ (keys.filter fun k => k.parent = table ∧ k.onDelete = .cascade) ↔
      k ∈ keys ∧ k.parent = table ∧ k.onDelete = .cascade := fun k => by
    rw [List.mem_filter, decide_eq_true_eq]
  rw [cascade]
  refine (cascade_leaves fun k hk => ?_).trans ?_
  · obtain ⟨hk, hp, hc⟩ := (hmem k).mp hk
    exact hflat k hk hp hc
  · congr 1
    funext t
    refine List.filter_congr fun r _ => ?_
    rw [decide_eq_decide]
    constructor
    · intro h k hk hp hc
      exact h k ((hmem k).mpr ⟨hk, hp, hc⟩)
    · intro h k hk
      obtain ⟨hk, hp, hc⟩ := (hmem k).mp hk
      exact h k hk hp hc

/-- What a deletion leaves. -/
def afterDelete (keys : List ForeignKey) (table : String) (p : Cells → Bool) (rows : Rows) :
    Rows := fun t =>
  (rows t).filter fun r =>
    decide (¬ (t = table ∧ p r = true)) && decide (Spared keys table ((rows table).filter p) t r)

theorem mem_afterDelete {table t : String} {p : Cells → Bool} {rows : Rows} {r : Cells} :
    r ∈ afterDelete keys table p rows t ↔ r ∈ rows t ∧ ¬ (t = table ∧ p r = true) ∧
      Spared keys table ((rows table).filter p) t r := by
  unfold afterDelete
  rw [List.mem_filter, Bool.and_eq_true, decide_eq_true_eq, decide_eq_true_eq]

theorem afterDelete_subset {table t : String} {p : Cells → Bool} {rows : Rows} :
    afterDelete keys table p rows t ⊆ rows t := fun _ hr => (mem_afterDelete.mp hr).1

/-- Rows that all stay are in the order that they had. -/
theorem filter_afterDelete {table t : String} {p : Cells → Bool} {rows : Rows} {q : Cells → Bool}
    (h : ∀ r ∈ rows t, q r = true → r ∈ afterDelete keys table p rows t) :
    (afterDelete keys table p rows t).filter q = (rows t).filter q := by
  have hsame : ∀ r ∈ rows t, (q r && (decide (¬ (t = table ∧ p r = true)) &&
      decide (Spared keys table ((rows table).filter p) t r))) = q r := by
    intro r hr
    cases hq : q r with
    | false => rfl
    | true => rw [Bool.true_and, (List.mem_filter.mp (h r hr hq)).2]
  unfold afterDelete
  rw [List.filter_filter]
  exact List.filter_congr hsame

theorem deleteWhere_flat {table : String} {p : Cells → Bool} {rows : Rows}
    (hflat : Flat keys table) :
    deleteWhere keys table p rows =
      if ∀ k ∈ keys, k.Survives rows (afterDelete keys table p rows) then
        some (afterDelete keys table p rows) else none := by
  have hcascade : cascade keys maxTriggerDepth table ((rows table).filter p)
      (Function.update rows table ((rows table).filter fun r => !p r)) =
      some (afterDelete keys table p rows) := by
    have hdeep : maxTriggerDepth = 998 + 2 := rfl
    rw [hdeep, cascade_flat hflat]
    congr 1
    funext t
    unfold afterDelete
    by_cases ht : t = table
    · subst ht
      rw [Function.update_self, List.filter_filter]
      refine List.filter_congr fun r _ => ?_
      simp [Bool.and_comm]
    · rw [Function.update_of_ne ht]
      refine List.filter_congr fun r _ => ?_
      simp [ht]
  unfold deleteWhere
  rw [hcascade]

/-- A deletion goes through when nothing that stays refers to the rows that go. -/
theorem survives_of_unreferenced {table : String} {p : Cells → Bool} {rows : Rows}
    (hflat : Flat keys table)
    (h : ∀ k ∈ keys, k.parent = table → ∀ r ∈ afterDelete keys table p rows k.table,
      ¬ k.RefersTo ((rows table).filter p) r) :
    ∀ k ∈ keys, k.Survives rows (afterDelete keys table p rows) := by
  rintro k hk r hr ⟨hne, q, hq, he⟩
  refine ⟨hne, q, List.mem_filter.mpr ⟨hq, ?_⟩, he⟩
  rw [Bool.and_eq_true, decide_eq_true_eq, decide_eq_true_eq]
  constructor
  · rintro ⟨hp, hgone⟩
    exact h k hk hp r hr ⟨hne, q, List.mem_filter.mpr ⟨hp ▸ hq, hgone⟩, he⟩
  · intro k' hk' hp' hc ht
    exact absurd ht.symm (hflat k' hk' hp' hc k hk)

/-- Nothing refers to the table. -/
theorem deleteWhere_unreferenced {table : String} {p : Cells → Bool} {rows : Rows}
    (h : ∀ k ∈ keys, k.parent ≠ table) :
    deleteWhere keys table p rows = some (afterDelete keys table p rows) := by
  have hflat : Flat keys table := fun k hk hp => absurd hp (h k hk)
  rw [deleteWhere_flat hflat]
  exact if_pos (survives_of_unreferenced hflat fun k hk hp => absurd hp (h k hk))

/-- A table whose rows follow none of the deleted ones. -/
theorem afterDelete_of_ne {table t : String} {p : Cells → Bool} {rows : Rows} (ht : t ≠ table)
    (h : ∀ k ∈ keys, k.parent = table → k.onDelete = .cascade → k.table ≠ t) :
    afterDelete keys table p rows t = rows t := by
  refine List.filter_eq_self.mpr fun r _ => ?_
  rw [Bool.and_eq_true, decide_eq_true_eq, decide_eq_true_eq]
  exact ⟨fun hr => ht hr.1, fun k hk hp hc he => absurd he (h k hk hp hc)⟩

/-! ### Statements -/

theorem Stmt.enforce_dropTable (name : String) (d : Db) :
    (Stmt.dropTable name).enforce keys d =
      match (Stmt.dropTable name).exec d with
      | none => none
      | some e =>
        match cascade keys maxTriggerDepth name (d.rows name) e.rows with
        | none => none
        | some rows =>
          if ∀ k ∈ keys, k.Survives d.rows rows then some { e with rows := rows } else none := rfl

theorem Stmt.enforce_copyRows (target source : String) (columns : List String) (d : Db) :
    (Stmt.copyRows target source columns).enforce keys d =
      match (Stmt.copyRows target source columns).exec d with
      | none => none
      | some e => if ∀ k ∈ keys, k.table = target → k.Holds e.rows then some e else none := rfl

/-- A dropped table, with the rows that went before it. -/
theorem Stmt.enforce_dropTable_some {name : String} {d d' : Db}
    (h : (Stmt.dropTable name).enforce keys d = some d') :
    ∃ e rows, (Stmt.dropTable name).exec d = some e ∧
      cascade keys maxTriggerDepth name (d.rows name) e.rows = some rows ∧
        (∀ k ∈ keys, k.Survives d.rows rows) ∧ d' = { e with rows := rows } := by
  rw [enforce_dropTable] at h
  cases he : (Stmt.dropTable name).exec d with
  | none =>
    rw [he] at h
    cases h
  | some e =>
    rw [he] at h
    dsimp only at h
    cases hrows : cascade keys maxTriggerDepth name (d.rows name) e.rows with
    | none =>
      rw [hrows] at h
      cases h
    | some rows =>
      rw [hrows] at h
      by_cases hsurvives : ∀ k ∈ keys, k.Survives d.rows rows
      · have hd := Option.some.inj ((if_pos hsurvives).symm.trans h)
        exact ⟨e, rows, rfl, hrows, hsurvives, hd.symm⟩
      · cases (if_neg hsurvives).symm.trans h

/-- The keys have a say in it. -/
def Stmt.keyed : Stmt → Bool
  | .dropTable _ | .copyRows _ _ _ => true
  | _ => false

theorem Stmt.enforce_unkeyed {x : Stmt} (hx : x.keyed = false) (d : Db) :
    x.enforce keys d = x.exec d := by
  cases x with
  | dropTable => cases hx
  | copyRows => cases hx
  | createTable => rfl
  | createView => rfl
  | createIndex => rfl
  | createTrigger => rfl
  | addColumn => rfl
  | backfill => rfl
  | renameTable => rfl
  | dropIndex => rfl

/-- The keys never put a row anywhere. -/
theorem Stmt.enforce_sublist {x : Stmt} {d d' : Db} (h : x.enforce keys d = some d') :
    ∃ e, x.exec d = some e ∧ d'.schema = e.schema ∧ ∀ t, (d'.rows t).Sublist (e.rows t) := by
  by_cases hk : x.keyed = false
  · rw [enforce_unkeyed hk] at h
    exact ⟨d', h, rfl, fun _ => List.Sublist.refl _⟩
  · cases x with
    | dropTable name =>
      obtain ⟨e, rows, he, hrows, -, rfl⟩ := enforce_dropTable_some h
      exact ⟨e, he, rfl, cascade_sublist hrows⟩
    | copyRows target source columns =>
      rw [enforce_copyRows] at h
      cases he : (Stmt.copyRows target source columns).exec d with
      | none =>
        rw [he] at h
        cases h
      | some e =>
        rw [he] at h
        by_cases hholds : ∀ k ∈ keys, k.table = target → k.Holds e.rows
        · obtain rfl := Option.some.inj ((if_pos hholds).symm.trans h)
          exact ⟨e, rfl, rfl, fun _ => List.Sublist.refl _⟩
        · cases (if_neg hholds).symm.trans h
    | createTable => exact absurd rfl hk
    | createView => exact absurd rfl hk
    | createIndex => exact absurd rfl hk
    | createTrigger => exact absurd rfl hk
    | addColumn => exact absurd rfl hk
    | backfill => exact absurd rfl hk
    | renameTable => exact absurd rfl hk
    | dropIndex => exact absurd rfl hk

theorem dropTable_rows {d e : Db} {name : String} (h : (Stmt.dropTable name).exec d = some e) :
    e.rows = Function.update d.rows name [] :=
  (Option.some.inj (Stmt.exec_eq_some.mp h).2).symm

/-- A table that no row refers to is dropped as if there were no keys. -/
theorem enforce_drop_unreferenced {d : Db} {name : String}
    (h : ∀ k ∈ keys, k.parent = name → d.rows k.table = []) :
    (Stmt.dropTable name).enforce keys d = (Stmt.dropTable name).exec d := by
  rw [Stmt.enforce_dropTable]
  cases he : (Stmt.dropTable name).exec d with
  | none => rfl
  | some e =>
    have hrows := dropTable_rows he
    have hempty : ∀ k ∈ keys, k.parent = name → e.rows k.table = [] := by
      intro k hk hp
      rw [hrows]
      by_cases ht : k.table = name
      · rw [ht, Function.update_self]
      · rw [Function.update_of_ne ht, h k hk hp]
    have hcascade : cascade keys maxTriggerDepth name (d.rows name) e.rows = some e.rows := by
      show cascade keys (999 + 1) name (d.rows name) e.rows = some e.rows
      refine cascade_unreferenced fun k hk hp r hr => ?_
      rw [hempty k hk hp] at hr
      cases hr
    have hsurvives : ∀ k ∈ keys, k.Survives d.rows e.rows := by
      intro k hk r hr href
      by_cases hp : k.parent = name
      · rw [hempty k hk hp] at hr
        cases hr
      · rw [hrows, Function.update_of_ne hp]
        exact href
    simp only [hcascade, if_pos hsurvives]

/-- Once a table is dropped, no row refers to a row that it had. -/
theorem enforce_drop {d d' : Db} {name : String}
    (h : (Stmt.dropTable name).enforce keys d = some d') {k : ForeignKey} (hk : k ∈ keys)
    (hp : k.parent = name) : ∀ r ∈ d'.rows k.table, ¬ k.RefersTo (d.rows name) r := by
  intro r hr href
  obtain ⟨e, rows, he, hrows, hsurvives, rfl⟩ := Stmt.enforce_dropTable_some h
  have hgone : rows name = [] := by
    have hsub := cascade_sublist hrows name
    rw [dropTable_rows he, Function.update_self] at hsub
    exact List.sublist_nil.mp hsub
  obtain ⟨-, p, hpr, -⟩ := hsurvives k hk r hr (hp ▸ href)
  rw [hp, hgone] at hpr
  cases hpr

theorem enforce_copy {d : Db} {target source : String} {columns : List String}
    (h : ∀ k ∈ keys, k.table ≠ target) :
    (Stmt.copyRows target source columns).enforce keys d
      = (Stmt.copyRows target source columns).exec d := by
  rw [Stmt.enforce_copyRows]
  cases he : (Stmt.copyRows target source columns).exec d with
  | none => rfl
  | some e =>
    have hkeys : ∀ k ∈ keys, k.table = target → k.Holds e.rows :=
      fun k hk ht => absurd ht (h k hk)
    simp only [if_pos hkeys]

/-! ### Scripts -/

theorem runEnforced_cons (x : Stmt) (b : List Stmt) (d : Db) : runEnforced keys (x :: b) d =
    match x.enforce keys d with
    | none => (d, false)
    | some d => runEnforced keys b d := rfl

/-- Where an invariant of the plain run leaves the keys nothing to say, they make no difference. -/
theorem runEnforced_eq {P : Db → Prop} {b : List Stmt} {d : Db}
    (hsame : ∀ x ∈ b, ∀ d, P d → x.enforce keys d = x.exec d)
    (hkeep : ∀ x ∈ b, ∀ d e, P d → x.exec d = some e → P e) (hd : P d) :
    runEnforced keys b d = runBatch b d ∧ P (runBatch b d).1 := by
  induction b generalizing d with
  | nil => exact ⟨rfl, hd⟩
  | cons x b ih =>
    rw [runEnforced_cons, runBatch, hsame x (by simp) d hd]
    cases he : x.exec d with
    | none => exact ⟨rfl, hd⟩
    | some e =>
      exact ih (fun y hy => hsame y (List.mem_cons_of_mem _ hy))
        (fun y hy => hkeep y (List.mem_cons_of_mem _ hy)) (hkeep x (by simp) d e hd he)

/-- What one statement keeps, a script keeps, wherever it stops. -/
theorem runEnforced_keeps {P : Db → Prop} {b : List Stmt} {d : Db}
    (hstep : ∀ x ∈ b, ∀ d d', P d → x.enforce keys d = some d' → P d') (hd : P d) :
    P (runEnforced keys b d).1 := by
  induction b generalizing d with
  | nil => exact hd
  | cons x b ih =>
    rw [runEnforced_cons]
    cases he : x.enforce keys d with
    | none => exact hd
    | some e =>
      exact ih (fun y hy => hstep y (List.mem_cons_of_mem _ hy)) (hstep x (by simp) d e hd he)

theorem runEnforced_append (a b : List Stmt) (d : Db) :
    runEnforced keys (a ++ b) d = if (runEnforced keys a d).2 then
      runEnforced keys b (runEnforced keys a d).1 else runEnforced keys a d := by
  induction a generalizing d with
  | nil => rfl
  | cons x a ih =>
    rw [List.cons_append, runEnforced_cons, runEnforced_cons]
    cases x.enforce keys d with
    | none => rfl
    | some e => exact ih e

end Sql
