import Mathlib.Data.List.Find
import Mathlib.Data.List.Nodup
import Mathlib.Logic.Function.Basic

/-!
# Sql.Schema

Schema scripts: `CREATE … IF NOT EXISTS`, `ALTER TABLE`, table rebuilds, run one statement after
another with no transaction around them.

* `Stmt.reshape` — what a statement does to the schema, `none` where the engine refuses it;
* `Stmt.carry`   — what it does to the rows, `none` where a constraint refuses it;
* `runBatch`     — a script: every statement before the one that fails stays done;
* `Db.Keeps`     — the rows of a table are there afterwards, with what they had;
* `Done`, `Reaches.absorbed` — a guarded statement that has run is a no-op from then on, so a
  script can start again over what it has already done.

Foreign keys are left out here; `Sql.ForeignKeys` puts them on top.
-/

namespace Sql

/-- A row, by column; `none` is `NULL`. -/
abbrev Cells := String → Option String

abbrev Rows := String → List Cells

/-- A table with its columns and its `PRIMARY KEY` and `UNIQUE` constraints. -/
structure TableDef where
  name : String
  columns : List String
  keys : List (List String)
deriving DecidableEq

/-- `CREATE [UNIQUE] INDEX name ON table (columns) WHERE scope`. -/
structure IndexDef where
  name : String
  table : String
  columns : List String
  unique : Bool
  scope : Option (String × String)
deriving DecidableEq

/-- The `DEFAULT` of an added column. An expression such as `(unixepoch())` is no constant. -/
inductive DefaultValue
  | null
  | constant (value : String)
  | expression
deriving DecidableEq

inductive Stmt
  | createTable (table : TableDef)
  | createView (name : String)
  | createIndex (index : IndexDef)
  | createTrigger (name table : String)
  | addColumn (table column : String) (default : DefaultValue)
  /-- `UPDATE table SET column = source WHERE column IS NULL`. -/
  | backfill (table column source : String)
  /-- `INSERT INTO target SELECT columns FROM source`. -/
  | copyRows (target source : String) (columns : List String)
  | dropTable (name : String)
  | renameTable (name newName : String)
  /-- `DROP INDEX IF EXISTS`. -/
  | dropIndex (name : String)
deriving DecidableEq

structure Schema where
  tables : List TableDef
  indexes : List IndexDef
  triggers : List (String × String)
  views : List String
deriving DecidableEq

namespace Schema

def empty : Schema := ⟨[], [], [], []⟩

def table? (s : Schema) (name : String) : Option TableDef := s.tables.find? fun t => t.name == name

/-- Tables and views share one name space. -/
def named (s : Schema) (name : String) : Bool := (s.table? name).isSome || s.views.contains name

def indexed (s : Schema) (name : String) : Bool := s.indexes.any fun i => i.name == name

def triggered (s : Schema) (name : String) : Bool := s.triggers.any fun t => t.1 == name

end Schema

/-- Two rows that a `UNIQUE` constraint over `columns` keeps apart; `NULL` equals nothing. -/
def Clash (columns : List String) (a b : Cells) : Prop := ∀ c ∈ columns, a c = b c ∧ a c ≠ none

instance (columns : List String) (a b : Cells) : Decidable (Clash columns a b) :=
  inferInstanceAs (Decidable (∀ c ∈ columns, a c = b c ∧ a c ≠ none))

def Distinct (columns : List String) (rows : List Cells) : Prop :=
  rows.Pairwise fun a b => ¬ Clash columns a b

instance (columns : List String) (rows : List Cells) : Decidable (Distinct columns rows) :=
  inferInstanceAs (Decidable (rows.Pairwise fun a b => ¬ Clash columns a b))

theorem Clash.symm {columns : List String} {a b : Cells} (h : Clash columns a b) :
    Clash columns b a := fun c hc => ⟨(h c hc).1.symm, (h c hc).1 ▸ (h c hc).2⟩

theorem Distinct.eq_of_clash {columns : List String} {rows : List Cells} {a b : Cells}
    (h : Distinct columns rows) (ha : a ∈ rows) (hb : b ∈ rows) (hc : Clash columns a b) :
    a = b := by
  induction rows with
  | nil => cases ha
  | cons x rows ih =>
    obtain ⟨hx, hrest⟩ := List.pairwise_cons.mp h
    rcases List.mem_cons.mp ha with hax | har
    · rcases List.mem_cons.mp hb with hbx | hbr
      · rw [hax, hbx]
      · exact absurd hc (hax ▸ hx b hbr)
    · rcases List.mem_cons.mp hb with hbx | hbr
      · exact absurd hc.symm (hbx ▸ hx a har)
      · exact ih hrest har hbr

/-- The rows that an index covers. -/
def IndexDef.covered (i : IndexDef) (rows : List Cells) : List Cells :=
  match i.scope with
  | none => rows
  | some (column, value) => rows.filter fun r => r column == some value

def IndexDef.Holds (i : IndexDef) (rows : List Cells) : Prop :=
  i.unique = true → Distinct i.columns (i.covered rows)

instance (i : IndexDef) (rows : List Cells) : Decidable (i.Holds rows) :=
  inferInstanceAs (Decidable (i.unique = true → Distinct i.columns (i.covered rows)))

/-- A copied row: each column of the target takes the selected column at its position. -/
def pick (targets columns : List String) (r : Cells) : Cells :=
  fun c => ((targets.zip columns).lookup c).bind r

@[simp] theorem pick_self {columns : List String} {c : String} (hc : c ∈ columns) (r : Cells) :
    pick columns columns r c = r c := by
  have hl : (columns.zip columns).lookup c = some c := by
    induction columns with
    | nil => cases hc
    | cons a l ih =>
      rw [List.zip_cons_cons, List.lookup_cons]
      by_cases h : c = a
      · simp [h]
      · rw [beq_eq_false_iff_ne.mpr h]
        exact ih ((List.mem_cons.mp hc).resolve_left h)
  unfold pick
  rw [hl]
  rfl

namespace Stmt

def reshape : Stmt → Schema → Option Schema
  | .createTable t, s =>
    if s.named t.name then some s else some { s with tables := s.tables ++ [t] }
  | .createView name, s =>
    if s.named name then some s else some { s with views := s.views ++ [name] }
  | .createIndex i, s =>
    match s.table? i.table with
    | none => none
    | some t =>
      if s.indexed i.name then some s
      else if (∀ c ∈ i.columns, c ∈ t.columns) ∧ (∀ w ∈ i.scope, w.1 ∈ t.columns) then
        some { s with indexes := s.indexes ++ [i] }
      else none
  | .createTrigger name table, s =>
    match s.table? table with
    | none => none
    | some _ =>
      if s.triggered name then some s else some { s with triggers := s.triggers ++ [(name, table)] }
  | .addColumn table column _, s =>
    match s.table? table with
    | none => none
    | some t =>
      if column ∈ t.columns then none
      else some { s with tables := s.tables.map fun t =>
        if t.name == table then { t with columns := t.columns ++ [column] } else t }
  | .backfill table column source, s =>
    match s.table? table with
    | none => none
    | some t => if column ∈ t.columns ∧ source ∈ t.columns then some s else none
  | .copyRows target source columns, s =>
    match s.table? target, s.table? source with
    | some t, some u =>
      if columns.length = t.columns.length ∧ (∀ c ∈ columns, c ∈ u.columns) then some s else none
    | _, _ => none
  | .dropTable name, s =>
    match s.table? name with
    | none => none
    | some _ => some { s with
        tables := s.tables.filter fun t => t.name != name
        indexes := s.indexes.filter fun i => i.table != name
        triggers := s.triggers.filter fun t => t.2 != name }
  | .renameTable name newName, s =>
    match s.table? name with
    | none => none
    | some _ =>
      if s.named newName then none
      else some { s with
        tables := s.tables.map fun t => if t.name == name then { t with name := newName } else t
        indexes := s.indexes.map fun i => if i.table == name then { i with table := newName } else i
        triggers := s.triggers.map fun t => if t.2 == name then (t.1, newName) else t }
  | .dropIndex name, s => some { s with indexes := s.indexes.filter fun i => i.name != name }

/-- The value that an added column has in the rows already there. -/
def fill : DefaultValue → Option String
  | .constant value => some value
  | _ => none

def carry : Stmt → Schema → Rows → Option Rows
  | .createTable t, s, r => if s.named t.name then some r else some (Function.update r t.name [])
  | .createIndex i, s, r =>
    if s.indexed i.name then some r else if i.Holds (r i.table) then some r else none
  | .addColumn table column default, _, r =>
    -- an expression cannot fill rows that are there: only an empty table takes it
    if default = .expression ∧ r table ≠ [] then none
    else some (Function.update r table
      ((r table).map fun x => Function.update x column (fill default)))
  | .backfill table column source, _, r =>
    some (Function.update r table ((r table).map fun x =>
      Function.update x column (if x column = none then x source else x column)))
  | .copyRows target source columns, s, r =>
    let t := s.table? target
    let rows := r target ++ (r source).map (pick ((t.map TableDef.columns).getD []) columns)
    if (∀ k ∈ (t.map TableDef.keys).getD [], Distinct k rows) ∧
        (∀ i ∈ s.indexes, i.table = target → i.Holds rows) then
      some (Function.update r target rows)
    else none
  | .dropTable name, _, r => some (Function.update r name [])
  | .renameTable name newName, _, r =>
    some (Function.update (Function.update r newName (r name)) name [])
  | _, _, r => some r

end Stmt

structure Db where
  schema : Schema
  rows : Rows

def Stmt.exec (s : Stmt) (d : Db) : Option Db :=
  match s.reshape d.schema, s.carry d.schema d.rows with
  | some schema, some rows => some ⟨schema, rows⟩
  | _, _ => none

/-- `execute_batch`: the database it leaves and whether it came to the end. -/
def runBatch : List Stmt → Db → Db × Bool
  | [], d => (d, true)
  | s :: rest, d =>
    match s.exec d with
    | none => (d, false)
    | some d => runBatch rest d

theorem Stmt.exec_eq_some {s : Stmt} {d e : Db} :
    s.exec d = some e ↔
      s.reshape d.schema = some e.schema ∧ s.carry d.schema d.rows = some e.rows := by
  obtain ⟨schema, rows⟩ := e
  unfold Stmt.exec
  cases hs : s.reshape d.schema <;> cases hr : s.carry d.schema d.rows <;> simp

/-! ### Runs of a script -/

/-- The script runs to its end from `d` and leaves `d'`. -/
def Reaches (b : List Stmt) (d d' : Db) : Prop := runBatch b d = (d', true)

@[simp] theorem reaches_nil {d d' : Db} : Reaches [] d d' ↔ d' = d := by
  unfold Reaches runBatch
  constructor
  · intro h; exact (Prod.ext_iff.mp h).1.symm
  · rintro rfl; rfl

theorem reaches_cons {s : Stmt} {b : List Stmt} {d d' : Db} :
    Reaches (s :: b) d d' ↔ ∃ e, s.exec d = some e ∧ Reaches b e d' := by
  unfold Reaches
  rw [runBatch]
  cases h : s.exec d with
  | none => simp
  | some e => simp

theorem reaches_append {a b : List Stmt} {d d' : Db} :
    Reaches (a ++ b) d d' ↔ ∃ e, Reaches a d e ∧ Reaches b e d' := by
  induction a generalizing d with
  | nil => simp
  | cons s a ih =>
    simp only [List.cons_append, reaches_cons, ih]
    constructor
    · rintro ⟨e, he, f, hf, hb⟩; exact ⟨f, ⟨e, he, hf⟩, hb⟩
    · rintro ⟨f, ⟨e, he, hf⟩, hb⟩; exact ⟨e, he, f, hf, hb⟩

theorem Reaches.unique {b : List Stmt} {d e f : Db} (he : Reaches b d e) (hf : Reaches b d f) :
    e = f := by
  have h := he.symm.trans hf
  exact (Prod.ext_iff.mp h).1

/-- What one statement keeps, a script keeps. -/
theorem Reaches.keeps {P : Db → Prop} {b : List Stmt} {d d' : Db} (h : Reaches b d d')
    (hstep : ∀ s ∈ b, ∀ d d', P d → s.exec d = some d' → P d') (hd : P d) : P d' := by
  induction b generalizing d with
  | nil => rw [reaches_nil.mp h]; exact hd
  | cons s b ih =>
    obtain ⟨e, he, hb⟩ := reaches_cons.mp h
    exact ih hb (fun s hs => hstep s (List.mem_cons_of_mem _ hs)) (hstep s (by simp) d e hd he)

/-- The schema side of a script. -/
def reshapeAll (b : List Stmt) (s : Schema) : Option Schema :=
  b.foldlM (fun s x => x.reshape s) s

theorem reshapeAll_append (a b : List Stmt) (s : Schema) :
    reshapeAll (a ++ b) s = (reshapeAll a s).bind (reshapeAll b) := List.foldlM_append

theorem reshapeAll_cons {x : Stmt} {b : List Stmt} {s : Schema} :
    reshapeAll (x :: b) s = (x.reshape s).bind (reshapeAll b) := rfl

theorem Reaches.reshapeAll {b : List Stmt} {d d' : Db} (h : Reaches b d d') :
    reshapeAll b d.schema = some d'.schema := by
  induction b generalizing d with
  | nil => rw [reaches_nil.mp h]; rfl
  | cons s b ih =>
    obtain ⟨e, he, hb⟩ := reaches_cons.mp h
    rw [reshapeAll_cons, (Stmt.exec_eq_some.mp he).1]
    exact ih hb

/-- A script whose schema side goes through runs to its end as soon as some invariant of the
rows lets every statement carry them over. -/
theorem reaches_of_invariant {I : Rows → Prop} {b : List Stmt} {d : Db} {s' : Schema}
    (hstep : ∀ x ∈ b, ∀ s r, I r → ∃ r', x.carry s r = some r' ∧ I r')
    (hs : Sql.reshapeAll b d.schema = some s') (hI : I d.rows) :
    ∃ d', Reaches b d d' ∧ d'.schema = s' ∧ I d'.rows := by
  induction b generalizing d with
  | nil => exact ⟨d, reaches_nil.mpr rfl, Option.some.inj hs, hI⟩
  | cons x b ih =>
    rw [reshapeAll_cons] at hs
    obtain ⟨s, hx, hs⟩ := Option.bind_eq_some_iff.mp hs
    obtain ⟨r, hr, hIr⟩ := hstep x (by simp) d.schema d.rows hI
    obtain ⟨d', hb, hd'⟩ := ih (d := ⟨s, r⟩) (fun y hy => hstep y (List.mem_cons_of_mem _ hy))
      hs hIr
    exact ⟨d', reaches_cons.mpr ⟨⟨s, r⟩, Stmt.exec_eq_some.mpr ⟨hx, hr⟩, hb⟩, hd'⟩

/-! ### Guarded statements -/

/-- `IF NOT EXISTS` and `IF EXISTS`. -/
def Stmt.guarded : Stmt → Bool
  | .createTable _ | .createView _ | .createIndex _ | .createTrigger _ _ | .dropIndex _ => true
  | _ => false

/-- `x` undoes what the guard of `s` looks for. -/
def Stmt.disturbs : Stmt → Stmt → Bool
  | .dropIndex name, .createIndex i => i.name == name
  | .createIndex i, .dropIndex name => i.name == name
  | _, _ => false

/-- The guard of a statement finds nothing left to do. -/
def Stmt.Done : Stmt → Schema → Prop
  | .createTable t, s => s.named t.name = true
  | .createView name, s => s.named name = true
  | .createIndex i, s => (s.table? i.table).isSome = true ∧ s.indexed i.name = true
  | .createTrigger name table, s => (s.table? table).isSome = true ∧ s.triggered name = true
  | .dropIndex name, s => s.indexed name = false
  | _, _ => False

/-- A statement whose guard holds changes nothing. -/
theorem Stmt.Done.exec {s : Stmt} {d : Db} (h : s.Done d.schema) : s.exec d = some d := by
  apply Stmt.exec_eq_some.mpr
  cases s with
  | createTable t =>
    have h : d.schema.named t.name = true := h
    exact ⟨if_pos h, if_pos h⟩
  | createView name =>
    have h : d.schema.named name = true := h
    exact ⟨if_pos h, rfl⟩
  | createIndex i =>
    obtain ⟨ht, hi⟩ : (d.schema.table? i.table).isSome = true ∧ d.schema.indexed i.name = true := h
    obtain ⟨t, ht⟩ := Option.isSome_iff_exists.mp ht
    refine ⟨?_, if_pos hi⟩
    simp only [reshape, ht, hi, if_true]
  | createTrigger name table =>
    obtain ⟨ht, hi⟩ : (d.schema.table? table).isSome = true ∧ d.schema.triggered name = true := h
    obtain ⟨t, ht⟩ := Option.isSome_iff_exists.mp ht
    refine ⟨?_, rfl⟩
    simp only [reshape, ht, hi, if_true]
  | dropIndex name =>
    have h : d.schema.indexed name = false := h
    have hf : (d.schema.indexes.filter fun i => i.name != name) = d.schema.indexes := by
      apply List.filter_eq_self.mpr
      intro i hi
      have := List.any_eq_false.mp h i hi
      simpa using this
    exact ⟨by simp only [reshape, hf], rfl⟩
  | addColumn => cases h
  | backfill => cases h
  | copyRows => cases h
  | dropTable => cases h
  | renameTable => cases h

namespace Schema

theorem table?_mono {s s' : Schema} {l : List TableDef} {n : String}
    (h : s'.tables = s.tables ++ l) (hn : (s.table? n).isSome = true) :
    (s'.table? n).isSome = true := by
  unfold table? at hn ⊢
  rw [h, List.find?_append]
  cases hf : s.tables.find? (fun t => t.name == n) with
  | none => rw [hf] at hn; cases hn
  | some t => simp

end Schema

/-- What a guarded statement can do to a schema. -/
structure Grows (x : Stmt) (s s' : Schema) : Prop where
  table : ∀ n, (s.table? n).isSome = true → (s'.table? n).isSome = true
  named : ∀ n, s.named n = true → s'.named n = true
  triggered : ∀ n, s.triggered n = true → s'.triggered n = true
  indexed : ∀ n, s.indexed n = true → x = .dropIndex n ∨ s'.indexed n = true
  unindexed : ∀ n, s.indexed n = false →
    (∃ i, x = .createIndex i ∧ i.name = n) ∨ s'.indexed n = false

theorem Grows.refl (x : Stmt) (s : Schema) : Grows x s s :=
  ⟨fun _ h => h, fun _ h => h, fun _ h => h, fun _ h => .inr h, fun _ h => .inr h⟩

theorem named_mono {s s' : Schema} {l : List TableDef} {v : List String} {n : String}
    (ht : s'.tables = s.tables ++ l) (hv : s'.views = s.views ++ v) (h : s.named n = true) :
    s'.named n = true := by
  rcases Bool.or_eq_true _ _ |>.mp h with h | h
  · exact Bool.or_eq_true _ _ |>.mpr (.inl (Schema.table?_mono ht h))
  · refine Bool.or_eq_true _ _ |>.mpr (.inr ?_)
    rw [hv]
    simp only [List.contains_iff_mem, List.mem_append] at h ⊢
    exact .inl h

theorem Stmt.grows {x : Stmt} {s s' : Schema} (hx : x.guarded = true)
    (h : x.reshape s = some s') : Grows x s s' := by
  cases x with
  | createTable t =>
    simp only [reshape] at h
    split at h
    · cases h; exact .refl _ _
    · cases h
      exact ⟨fun _ => Schema.table?_mono rfl, fun _ => named_mono (v := []) rfl (by simp),
        fun _ h => h, fun _ h => .inr h, fun _ h => .inr h⟩
  | createView name =>
    simp only [reshape] at h
    split at h
    · cases h; exact .refl _ _
    · cases h
      exact ⟨fun _ h => h, fun _ => named_mono (l := []) (by simp) rfl,
        fun _ h => h, fun _ h => .inr h, fun _ h => .inr h⟩
  | createIndex i =>
    simp only [reshape] at h
    split at h
    · cases h
    · split at h
      · cases h; exact .refl _ _
      · split at h
        · cases h
          refine ⟨fun _ h => h, fun _ h => h, fun _ h => h, ?_, ?_⟩
          · intro n hn
            right
            unfold Schema.indexed at hn ⊢
            rw [List.any_append, hn, Bool.true_or]
          · intro n hn
            by_cases hin : i.name = n
            · exact .inl ⟨i, rfl, hin⟩
            · right
              unfold Schema.indexed at hn ⊢
              rw [List.any_append, hn]
              simpa using hin
        · cases h
  | createTrigger name table =>
    simp only [reshape] at h
    split at h
    · cases h
    · split at h
      · cases h; exact .refl _ _
      · cases h
        refine ⟨fun _ h => h, fun _ h => h, ?_, fun _ h => .inr h, fun _ h => .inr h⟩
        intro n hn
        unfold Schema.triggered at hn ⊢
        rw [List.any_append, hn, Bool.true_or]
  | dropIndex name =>
    cases h
    refine ⟨fun _ h => h, fun _ h => h, fun _ h => h, ?_, ?_⟩
    · intro n hn
      by_cases hne : name = n
      · exact .inl (by rw [hne])
      · right
        unfold Schema.indexed at hn ⊢
        obtain ⟨i, hi, hin⟩ := List.any_eq_true.mp hn
        have hin : i.name = n := by simpa using hin
        refine List.any_eq_true.mpr ⟨i, List.mem_filter.mpr ⟨hi, ?_⟩, by simpa using hin⟩
        rw [hin]
        simpa using fun h : n = name => hne h.symm
    · intro n hn
      right
      unfold Schema.indexed at hn ⊢
      rw [List.any_eq_false] at hn ⊢
      exact fun i hi => hn i (List.mem_of_mem_filter hi)
  | addColumn => cases hx
  | backfill => cases hx
  | copyRows => cases hx
  | dropTable => cases hx
  | renameTable => cases hx

theorem Stmt.Done.mono {s x : Stmt} {c c' : Schema} (hg : Grows x c c')
    (hxs : x.disturbs s = false) (h : s.Done c) : s.Done c' := by
  cases s with
  | createTable t => exact hg.named _ h
  | createView name => exact hg.named _ h
  | createIndex i =>
    refine ⟨hg.table _ h.1, ?_⟩
    rcases hg.indexed _ h.2 with hd | hd
    · rw [hd] at hxs
      simp [disturbs] at hxs
    · exact hd
  | createTrigger name table => exact ⟨hg.table _ h.1, hg.triggered _ h.2⟩
  | dropIndex name =>
    rcases hg.unindexed _ h with ⟨i, rfl, hi⟩ | hd
    · simp [disturbs, hi] at hxs
    · exact hd
  | addColumn => cases h
  | backfill => cases h
  | copyRows => cases h
  | dropTable => cases h
  | renameTable => cases h

/-- A guarded statement has done its work once it has run. -/
theorem Stmt.done_of_reshape {x : Stmt} {s s' : Schema} (hx : x.guarded = true)
    (h : x.reshape s = some s') : x.Done s' := by
  cases x with
  | createTable t =>
    simp only [reshape] at h
    split at h
    · next hn => cases h; exact hn
    · cases h
      simp [Done, Schema.named, Schema.table?]
  | createView name =>
    simp only [reshape] at h
    split at h
    · next hn => cases h; exact hn
    · cases h
      simp [Done, Schema.named]
  | createIndex i =>
    simp only [reshape] at h
    split at h
    · cases h
    · next t ht =>
      split at h
      · next hi =>
        cases h
        exact ⟨by rw [ht]; rfl, hi⟩
      · split at h
        · cases h
          refine ⟨?_, ?_⟩
          · show (s.table? i.table).isSome = true
            rw [ht]; rfl
          · simp [Schema.indexed]
        · cases h
  | createTrigger name table =>
    simp only [reshape] at h
    split at h
    · cases h
    · next t ht =>
      split at h
      · next hi =>
        cases h
        exact ⟨by rw [ht]; rfl, hi⟩
      · cases h
        refine ⟨?_, ?_⟩
        · show (s.table? table).isSome = true
          rw [ht]; rfl
        · simp [Schema.triggered]
  | dropIndex name =>
    cases h
    simp [Done, Schema.indexed]
  | addColumn => cases hx
  | backfill => cases hx
  | copyRows => cases hx
  | dropTable => cases hx
  | renameTable => cases hx

/-- Guarded statements, none of which undoes an earlier one. -/
def Replayable (b : List Stmt) : Prop :=
  (∀ s ∈ b, s.guarded = true) ∧ b.Pairwise fun s x => x.disturbs s = false

instance (b : List Stmt) : Decidable (Replayable b) :=
  inferInstanceAs (Decidable (_ ∧ _))

theorem Replayable.take {b : List Stmt} (h : Replayable b) (j : Nat) : Replayable (b.take j) :=
  ⟨fun s hs => h.1 s (List.mem_of_mem_take hs), h.2.sublist (List.take_sublist j b)⟩

theorem Reaches.done {b : List Stmt} {d d' : Db} {s : Stmt} (h : Reaches b d d')
    (hb : ∀ x ∈ b, x.guarded = true ∧ x.disturbs s = false) (hs : s.Done d.schema) :
    s.Done d'.schema := by
  refine h.keeps (P := fun d => s.Done d.schema) ?_ hs
  intro x hx d d' hd he
  exact hd.mono (Stmt.grows (hb x hx).1 (Stmt.exec_eq_some.mp he).1) (hb x hx).2

/-- What a replayable script has done, it leaves alone when it runs again. -/
theorem Reaches.absorbed {b : List Stmt} {d d' : Db} (hb : Replayable b) (h : Reaches b d d') :
    ∀ s ∈ b, s.exec d' = some d' := by
  induction b generalizing d with
  | nil => intro s hs; cases hs
  | cons x b ih =>
    obtain ⟨e, he, hr⟩ := reaches_cons.mp h
    obtain ⟨hg, hp⟩ := hb
    obtain ⟨hpx, hp⟩ := List.pairwise_cons.mp hp
    have hgb : ∀ s ∈ b, s.guarded = true := fun s hs => hg s (List.mem_cons_of_mem _ hs)
    intro s hs
    rcases List.mem_cons.mp hs with rfl | hs
    · have hdone := Stmt.done_of_reshape (hg s (by simp)) (Stmt.exec_eq_some.mp he).1
      exact (hr.done (fun y hy => ⟨hgb y hy, hpx y hy⟩) hdone).exec
    · exact ih ⟨hgb, hp⟩ hr s hs

theorem reaches_of_absorbed {b : List Stmt} {d : Db} (h : ∀ s ∈ b, s.exec d = some d) :
    Reaches b d d := by
  induction b with
  | nil => exact reaches_nil.mpr rfl
  | cons x b ih =>
    exact reaches_cons.mpr ⟨d, h x (by simp), ih fun s hs => h s (List.mem_cons_of_mem _ hs)⟩

/-- Started again after a replayable part of it, a script ends where it would have ended. -/
theorem Reaches.restart {a b : List Stmt} {d e d' : Db} (ha : Replayable a) (hcut : Reaches a d e)
    (h : Reaches (a ++ b) d d') : Reaches (a ++ b) e d' := by
  obtain ⟨e', hcut', hb⟩ := reaches_append.mp h
  have he : e' = e := hcut'.unique hcut
  rw [he] at hb
  exact reaches_append.mpr ⟨e, reaches_of_absorbed (hcut.absorbed ha), hb⟩

/-! ### Added columns -/

def Schema.HasColumn (s : Schema) (table column : String) : Prop :=
  ∃ t, s.table? table = some t ∧ column ∈ t.columns

/-- The statement takes the table away, or its name. -/
def Stmt.removes : Stmt → String → Bool
  | .dropTable name, table => name == table
  | .renameTable name _, table => name == table
  | _, _ => false

theorem table?_map {s : Schema} {f : TableDef → TableDef} {table : String} {t : TableDef}
    (hf : ∀ u ∈ s.tables, ((f u).name == table) = (u.name == table))
    (h : s.table? table = some t) :
    (s.tables.map f).find? (fun u => u.name == table) = some (f t) := by
  unfold Schema.table? at h
  rw [List.find?_map]
  have hp : s.tables.find? ((fun u => u.name == table) ∘ f)
      = s.tables.find? fun u => u.name == table := by
    apply List.find?_congr
    intro u hu
    exact hf u hu
  rw [hp, h]
  rfl

/-- What a statement leaves of a table that it does not take away. -/
theorem Schema.table?_reshape {s s' : Schema} {table : String} {t : TableDef} {x : Stmt}
    (ht : s.table? table = some t) (hx : x.removes table = false) (hr : x.reshape s = some s') :
    ∃ t', s'.table? table = some t' ∧ ∀ c ∈ t.columns, c ∈ t'.columns := by
  cases x with
  | createTable u =>
    simp only [Stmt.reshape] at hr
    split at hr
    · cases hr; exact ⟨t, ht, fun _ hc => hc⟩
    · cases hr
      refine ⟨t, ?_, fun _ hc => hc⟩
      unfold Schema.table? at ht ⊢
      rw [List.find?_append, ht]
      rfl
  | createView name =>
    simp only [Stmt.reshape] at hr
    split at hr <;> cases hr <;> exact ⟨t, ht, fun _ hc => hc⟩
  | createIndex i =>
    simp only [Stmt.reshape] at hr
    split at hr
    · cases hr
    · split at hr
      · cases hr; exact ⟨t, ht, fun _ hc => hc⟩
      · split at hr <;> cases hr
        exact ⟨t, ht, fun _ hc => hc⟩
  | createTrigger name u =>
    simp only [Stmt.reshape] at hr
    split at hr
    · cases hr
    · split at hr <;> cases hr <;> exact ⟨t, ht, fun _ hc => hc⟩
  | addColumn u added =>
    simp only [Stmt.reshape] at hr
    split at hr
    · cases hr
    · split at hr
      · cases hr
      · cases hr
        refine ⟨_, table?_map ?_ ht, fun c hc => ?_⟩
        · intro v _
          split <;> rfl
        · split
          · exact List.mem_append_left _ hc
          · exact hc
  | backfill u filled source =>
    simp only [Stmt.reshape] at hr
    split at hr
    · cases hr
    · split at hr <;> cases hr
      exact ⟨t, ht, fun _ hc => hc⟩
  | copyRows target source columns =>
    simp only [Stmt.reshape] at hr
    split at hr
    · split at hr <;> cases hr
      exact ⟨t, ht, fun _ hc => hc⟩
    · cases hr
  | dropTable name =>
    simp only [Stmt.reshape] at hr
    split at hr
    · cases hr
    · cases hr
      have hne : name ≠ table := by simpa [Stmt.removes] using hx
      refine ⟨t, ?_, fun _ hc => hc⟩
      unfold Schema.table? at ht ⊢
      rw [List.find?_filter, ← ht]
      apply List.find?_congr
      intro u _
      by_cases hu : u.name = table
      · simpa [hu] using hne.symm
      · simp [hu]
  | renameTable name newName =>
    simp only [Stmt.reshape] at hr
    split at hr
    · cases hr
    · next u hu =>
      split at hr
      · cases hr
      · next hnew =>
        cases hr
        have hne : name ≠ table := by simpa [Stmt.removes] using hx
        have hnt : newName ≠ table := by
          rintro rfl
          apply hnew
          unfold Schema.named
          rw [ht]
          rfl
        refine ⟨_, table?_map ?_ ht, fun c hc => ?_⟩
        · intro v _
          by_cases hv : v.name = name
          · simp [hv, hne, hnt]
          · simp [hv]
        · split
          · exact hc
          · exact hc
  | dropIndex name =>
    cases hr
    exact ⟨t, ht, fun _ hc => hc⟩

theorem Schema.table?_reshapeAll {s s' : Schema} {table : String} {t : TableDef} {b : List Stmt}
    (ht : s.table? table = some t) (hb : ∀ x ∈ b, x.removes table = false)
    (hr : Sql.reshapeAll b s = some s') :
    ∃ t', s'.table? table = some t' ∧ ∀ c ∈ t.columns, c ∈ t'.columns := by
  induction b generalizing s t with
  | nil => cases hr; exact ⟨t, ht, fun _ hc => hc⟩
  | cons x b ih =>
    rw [reshapeAll_cons] at hr
    obtain ⟨e, he, hr⟩ := Option.bind_eq_some_iff.mp hr
    obtain ⟨u, hu, hc⟩ := Schema.table?_reshape ht (hb x (by simp)) he
    obtain ⟨t', ht', hc'⟩ := ih hu (fun y hy => hb y (List.mem_cons_of_mem _ hy)) hr
    exact ⟨t', ht', fun c hm => hc' c (hc c hm)⟩

theorem Schema.HasColumn.reshape {s s' : Schema} {table column : String} {x : Stmt}
    (h : s.HasColumn table column) (hx : x.removes table = false) (hr : x.reshape s = some s') :
    s'.HasColumn table column := by
  obtain ⟨t, ht, hc⟩ := h
  obtain ⟨t', ht', hsub⟩ := Schema.table?_reshape ht hx hr
  exact ⟨t', ht', hsub column hc⟩

theorem Schema.HasColumn.reshapeAll {s s' : Schema} {table column : String} {b : List Stmt}
    (h : s.HasColumn table column) (hb : ∀ x ∈ b, x.removes table = false)
    (hr : Sql.reshapeAll b s = some s') : s'.HasColumn table column := by
  obtain ⟨t, ht, hc⟩ := h
  obtain ⟨t', ht', hsub⟩ := Schema.table?_reshapeAll ht hb hr
  exact ⟨t', ht', hsub column hc⟩

theorem addColumn_hasColumn {s s' : Schema} {table column : String} {v : DefaultValue}
    (h : (Stmt.addColumn table column v).reshape s = some s') : s'.HasColumn table column := by
  simp only [Stmt.reshape] at h
  split at h
  · cases h
  · next t ht =>
    split at h
    · cases h
    · cases h
      refine ⟨_, table?_map ?_ ht, ?_⟩
      · intro v _
        split <;> rfl
      · have hn : t.name = table := by
          have := List.find?_some ht
          simpa using this
        simp [hn]

/-- `duplicate column name`. -/
theorem addColumn_again {d : Db} {table column : String} {v : DefaultValue}
    (h : d.schema.HasColumn table column) : (Stmt.addColumn table column v).exec d = none := by
  obtain ⟨t, ht, hc⟩ := h
  have hr : (Stmt.addColumn table column v).reshape d.schema = none := by
    simp only [Stmt.reshape, ht, hc, if_true]
  unfold Stmt.exec
  rw [hr]

theorem reshapeAll_hasColumn {b : List Stmt} {s s' : Schema} {table column : String}
    {v : DefaultValue} (hmem : .addColumn table column v ∈ b)
    (hkeep : ∀ x ∈ b, x.removes table = false) (h : reshapeAll b s = some s') :
    s'.HasColumn table column := by
  obtain ⟨l, r, rfl⟩ := List.append_of_mem hmem
  rw [reshapeAll_append] at h
  obtain ⟨f, -, h⟩ := Option.bind_eq_some_iff.mp h
  rw [reshapeAll_cons] at h
  obtain ⟨g, hg, h⟩ := Option.bind_eq_some_iff.mp h
  exact (addColumn_hasColumn hg).reshapeAll (fun x hx => hkeep x (by simp [hx])) h

/-- An `ADD COLUMN` that has run stops the script that starts again from its beginning. -/
theorem Reaches.stuck {a b : List Stmt} {d e : Db} {table column : String} {v : DefaultValue}
    (hcut : Reaches a d e) (hmem : .addColumn table column v ∈ a)
    (hkeep : ∀ x ∈ a, x.removes table = false) (d' : Db) : ¬ Reaches (a ++ b) e d' := by
  intro h
  have hcol : e.schema.HasColumn table column :=
    reshapeAll_hasColumn hmem hkeep hcut.reshapeAll
  obtain ⟨l, r, rfl⟩ := List.append_of_mem hmem
  rw [List.append_assoc] at h
  obtain ⟨f, hl, hr⟩ := reaches_append.mp h
  have hcol : f.schema.HasColumn table column :=
    hcol.reshapeAll (fun x hx => hkeep x (by simp [hx])) hl.reshapeAll
  obtain ⟨g, hg, -⟩ := reaches_cons.mp hr
  rw [addColumn_again hcol] at hg
  cases hg

/-! ### Rows -/

/-- The statement can put rows into the table. -/
def Stmt.feeds : Stmt → String → Bool
  | .copyRows target _ _, table => target == table
  | .renameTable _ newName, table => newName == table
  | _, _ => false

/-- The statement can write the column of the rows that the table has. -/
def Stmt.sets : Stmt → String → String → Bool
  | .addColumn t c _, table, column => t == table && c == column
  | .backfill t c _, table, column => t == table && c == column
  | _, _, _ => false

theorem update_apply_cases (r : Rows) (name table : String) (l : List Cells) :
    Function.update r name l table = r table ∨
      name = table ∧ Function.update r name l table = l := by
  by_cases h : table = name
  · right
    rw [h]
    exact ⟨rfl, Function.update_self ..⟩
  · exact .inl (Function.update_of_ne h ..)

/-- What a statement can do to the rows of a table that it does not feed. -/
theorem Stmt.carry_cases {x : Stmt} {s : Schema} {r r' : Rows} {table : String}
    (hx : x.feeds table = false) (h : x.carry s r = some r') :
    r' table = r table ∨ (r' table = [] ∧ (s.named table = true → x.removes table = true)) ∨
      ∃ (c : String) (f : Cells → Option String), x.sets table c = true ∧
        r' table = (r table).map fun a => Function.update a c (f a) := by
  cases x with
  | createTable t =>
    simp only [carry] at h
    split at h
    · cases h; exact .inl rfl
    · next hn =>
      cases h
      rcases update_apply_cases r t.name table [] with h | ⟨rfl, h⟩
      · exact .inl h
      · exact .inr (.inl ⟨h, fun hs => absurd hs hn⟩)
  | createView name => cases h; exact .inl rfl
  | createIndex i =>
    simp only [carry] at h
    split at h
    · cases h; exact .inl rfl
    · split at h <;> cases h
      exact .inl rfl
  | createTrigger name t => cases h; exact .inl rfl
  | addColumn t c v =>
    simp only [carry] at h
    split at h
    · cases h
    · cases h
      rcases update_apply_cases r t table ((r t).map fun a => Function.update a c (fill v))
        with h | ⟨rfl, h⟩
      · exact .inl h
      · exact .inr (.inr ⟨c, fun _ => fill v, by simp [sets], h⟩)
  | backfill t c source =>
    cases h
    rcases update_apply_cases r t table ((r t).map fun a =>
      Function.update a c (if a c = none then a source else a c)) with h | ⟨rfl, h⟩
    · exact .inl h
    · exact .inr (.inr ⟨c, _, by simp [sets], h⟩)
  | copyRows target source columns =>
    simp only [carry] at h
    split at h
    · cases h
      have hne : table ≠ target := by
        rintro rfl
        simp [feeds] at hx
      exact .inl (Function.update_of_ne hne ..)
    · cases h
  | dropTable name =>
    cases h
    rcases update_apply_cases r name table [] with h | ⟨rfl, h⟩
    · exact .inl h
    · exact .inr (.inl ⟨h, fun _ => by simp [removes]⟩)
  | renameTable name newName =>
    cases h
    have hne : table ≠ newName := by
      rintro rfl
      simp [feeds] at hx
    rcases update_apply_cases (Function.update r newName (r name)) name table []
      with h | ⟨rfl, h⟩
    · left
      rw [h]
      exact Function.update_of_ne hne ..
    · exact .inr (.inl ⟨h, fun _ => by simp [removes]⟩)
  | dropIndex name => cases h; exact .inl rfl

theorem Stmt.carry_empty {x : Stmt} {s : Schema} {r r' : Rows} {table : String}
    (hx : x.feeds table = false) (h : x.carry s r = some r') (he : r table = []) :
    r' table = [] := by
  rcases carry_cases hx h with h | ⟨h, -⟩ | ⟨c, f, -, h⟩
  · rw [h, he]
  · exact h
  · rw [h, he]; rfl

theorem Stmt.carry_populated {x : Stmt} {s : Schema} {r r' : Rows} {table : String}
    (hx : x.feeds table = false) (hr : x.removes table = false) (hs : s.named table = true)
    (h : x.carry s r = some r') (hp : r table ≠ []) : r' table ≠ [] := by
  rcases carry_cases hx h with h | ⟨-, h⟩ | ⟨c, f, -, h⟩
  · rw [h]; exact hp
  · rw [h hs] at hr
    cases hr
  · rw [h]
    simpa using hp

theorem Stmt.carry_forall {x : Stmt} {s : Schema} {r r' : Rows} {table column : String}
    (hx : x.feeds table = false) (hc : x.sets table column = false) (h : x.carry s r = some r')
    (hp : ∀ a ∈ r table, a column ≠ none) : ∀ a ∈ r' table, a column ≠ none := by
  rcases carry_cases hx h with h | ⟨h, -⟩ | ⟨c, f, hs, h⟩
  · rw [h]; exact hp
  · rw [h]
    intro a ha
    cases ha
  · rw [h]
    intro a ha
    obtain ⟨b, hb, rfl⟩ := List.mem_map.mp ha
    have hne : column ≠ c := by
      rintro rfl
      rw [hc] at hs
      cases hs
    rw [Function.update_of_ne hne]
    exact hp b hb

theorem Stmt.carry_distinct {x : Stmt} {s : Schema} {r r' : Rows} {table : String}
    {columns : List String} (hx : x.feeds table = false)
    (hc : ∀ c ∈ columns, x.sets table c = false) (h : x.carry s r = some r')
    (hd : Distinct columns (r table)) : Distinct columns (r' table) := by
  rcases carry_cases hx h with h | ⟨h, -⟩ | ⟨c, f, hs, h⟩
  · rw [h]; exact hd
  · rw [h]; exact List.Pairwise.nil
  · rw [h]
    refine List.pairwise_map.mpr (hd.imp ?_)
    intro a b hab hclash
    apply hab
    intro k hk
    have hkc : k ≠ c := by
      rintro rfl
      rw [hc k hk] at hs
      cases hs
    have := hclash k hk
    simpa only [Function.update_of_ne hkc] using this

/-- Rows that a constraint keeps apart stay apart under a wider one, on any part of the table. -/
theorem Distinct.index {columns : List String} {rows : List Cells} {i : IndexDef}
    (h : Distinct columns rows) (hc : ∀ c ∈ columns, c ∈ i.columns) : i.Holds rows := by
  intro _
  have hsub : (i.covered rows).Sublist rows := by
    unfold IndexDef.covered
    split
    · exact List.Sublist.refl _
    · exact List.filter_sublist
  refine (h.sublist hsub).imp ?_
  intro a b hab hclash
  exact hab fun c hm => hclash c (hc c hm)

/-- No constraint of the engine looks at the rows. -/
def Stmt.unchecked : Stmt → Bool
  | .createIndex i => !i.unique
  | .addColumn _ _ v => v != .expression
  | .copyRows _ _ _ => false
  | _ => true

theorem Stmt.carry_isSome {x : Stmt} (hx : x.unchecked = true) (s : Schema) (r : Rows) :
    ∃ r', x.carry s r = some r' := by
  cases x with
  | createTable t =>
    simp only [carry]
    split
    · exact ⟨_, rfl⟩
    · exact ⟨_, rfl⟩
  | createView name => exact ⟨_, rfl⟩
  | createIndex i =>
    have hu : i.unique = false := by simpa [unchecked] using hx
    have hh : i.Holds (r i.table) := fun h => by rw [hu] at h; cases h
    simp only [carry, hh, if_true, ite_self]
    exact ⟨_, rfl⟩
  | createTrigger name t => exact ⟨_, rfl⟩
  | addColumn t c v =>
    have hv : v ≠ .expression := by simpa [unchecked] using hx
    simp only [carry, hv, false_and, if_false]
    exact ⟨_, rfl⟩
  | backfill t c source => exact ⟨_, rfl⟩
  | copyRows => cases hx
  | dropTable name => exact ⟨_, rfl⟩
  | renameTable name newName => exact ⟨_, rfl⟩
  | dropIndex name => exact ⟨_, rfl⟩

theorem createTable_carry {t : TableDef} {s : Schema} {r r' : Rows}
    (h : (Stmt.createTable t).carry s r = some r') :
    r' = r ∨ r' = Function.update r t.name [] := by
  simp only [Stmt.carry] at h
  split at h
  · cases h; exact .inl rfl
  · cases h; exact .inr rfl

theorem createIndex_carry {i : IndexDef} {s : Schema} {r : Rows} (h : i.Holds (r i.table)) :
    (Stmt.createIndex i).carry s r = some r := by
  simp only [Stmt.carry, h, if_true, ite_self]

theorem copyRows_carry {s : Schema} {r r' : Rows} {target source : String} {columns : List String}
    (h : (Stmt.copyRows target source columns).carry s r = some r') :
    r' = Function.update r target (r target ++
      (r source).map (pick (((s.table? target).map TableDef.columns).getD []) columns)) := by
  simp only [Stmt.carry] at h
  split at h
  · cases h; rfl
  · cases h

/-! ### Rows that stay -/

theorem Schema.named_of_table? {s : Schema} {table : String} {t : TableDef}
    (h : s.table? table = some t) : s.named table = true := by
  unfold Schema.named
  rw [h]
  rfl

/-- The statement can write into the rows that the table has. -/
def Stmt.alters : Stmt → String → Bool
  | .addColumn t _ _, table => t == table
  | .backfill t _ _, table => t == table
  | _, _ => false

theorem Stmt.alters_of_sets {x : Stmt} {table c : String} (h : x.sets table c = true) :
    x.alters table = true := by
  cases x <;> simp_all [sets, alters]

/-- The statement has nothing to do with the rows of the table. -/
def Stmt.spares (x : Stmt) (table : String) : Bool :=
  !x.feeds table && !x.removes table && !x.alters table

/-- The statement does no more to the rows of the table than give them a new column. -/
def Stmt.widens (x : Stmt) (table : String) : Bool :=
  !x.feeds table && !x.removes table &&
    match x with
    | .backfill t _ _ => t != table
    | _ => true

theorem Stmt.carry_spared {x : Stmt} {d d' : Db} {table : String} {t : TableDef}
    (hx : x.spares table = true) (ht : d.schema.table? table = some t) (h : x.exec d = some d') :
    d'.rows table = d.rows table := by
  simp only [spares, Bool.and_eq_true, Bool.not_eq_true'] at hx
  obtain ⟨⟨hf, hr⟩, ha⟩ := hx
  rcases carry_cases hf (exec_eq_some.mp h).2 with h | ⟨-, h⟩ | ⟨c, f, hs, -⟩
  · exact h
  · rw [h (Schema.named_of_table? ht)] at hr
    cases hr
  · rw [alters_of_sets hs] at ha
    cases ha

/-- Every row of the table is there, with its value in every column that the table had. -/
def Db.Keeps (table : String) (d d' : Db) : Prop :=
  ∀ r ∈ d.rows table, ∃ r' ∈ d'.rows table, ∀ c, d.schema.HasColumn table c → r' c = r c

theorem Stmt.exec_keeps {x : Stmt} {d d' : Db} {table : String} {t : TableDef}
    (hx : x.widens table = true) (ht : d.schema.table? table = some t) (h : x.exec d = some d') :
    d.Keeps table d' := by
  simp only [widens, Bool.and_eq_true, Bool.not_eq_true'] at hx
  obtain ⟨⟨hf, hr⟩, hb⟩ := hx
  intro r hrow
  rcases carry_cases hf (exec_eq_some.mp h).2 with hsame | ⟨-, hgone⟩ | ⟨c, f, hs, hmap⟩
  · exact ⟨r, hsame ▸ hrow, fun _ _ => rfl⟩
  · rw [hgone (Schema.named_of_table? ht)] at hr
    cases hr
  · refine ⟨Function.update r c (f r), hmap ▸ List.mem_map_of_mem hrow, fun c' hc' => ?_⟩
    -- the engine refuses to add a column that is there
    have hne : c' ≠ c := by
      rintro rfl
      cases x <;> simp_all [sets, addColumn_again]
    exact Function.update_of_ne hne ..

theorem Db.Keeps.trans {table : String} {d e f : Db} (h : d.Keeps table e) (h' : e.Keeps table f)
    (hc : ∀ c, d.schema.HasColumn table c → e.schema.HasColumn table c) : d.Keeps table f := by
  intro r hr
  obtain ⟨r1, hr1, hsame⟩ := h r hr
  obtain ⟨r2, hr2, hsame'⟩ := h' r1 hr1
  refine ⟨r2, hr2, fun c hd => ?_⟩
  rw [hsame' c (hc c hd), hsame c hd]

theorem Stmt.removes_of_widens {x : Stmt} {table : String} (h : x.widens table = true) :
    x.removes table = false := by
  simp only [widens, Bool.and_eq_true, Bool.not_eq_true'] at h
  exact h.1.2

theorem Stmt.removes_of_spares {x : Stmt} {table : String} (h : x.spares table = true) :
    x.removes table = false := by
  simp only [spares, Bool.and_eq_true, Bool.not_eq_true'] at h
  exact h.1.2

theorem Reaches.spared {b : List Stmt} {d d' : Db} {table : String} {t : TableDef}
    (hb : ∀ x ∈ b, x.spares table = true) (ht : d.schema.table? table = some t)
    (h : Reaches b d d') : d'.rows table = d.rows table := by
  induction b generalizing d t with
  | nil => rw [reaches_nil.mp h]
  | cons x b ih =>
    obtain ⟨e, he, h⟩ := reaches_cons.mp h
    have hx := hb x (by simp)
    obtain ⟨u, hu, -⟩ := Schema.table?_reshape ht (Stmt.removes_of_spares hx)
      (Stmt.exec_eq_some.mp he).1
    rw [ih (fun y hy => hb y (List.mem_cons_of_mem _ hy)) hu h]
    exact Stmt.carry_spared hx ht he

theorem Reaches.keepsRows {b : List Stmt} {d d' : Db} {table : String} {t : TableDef}
    (hb : ∀ x ∈ b, x.widens table = true) (ht : d.schema.table? table = some t)
    (h : Reaches b d d') : d.Keeps table d' := by
  induction b generalizing d t with
  | nil =>
    rw [reaches_nil.mp h]
    exact fun r hr => ⟨r, hr, fun _ _ => rfl⟩
  | cons x b ih =>
    obtain ⟨e, he, h⟩ := reaches_cons.mp h
    have hx := hb x (by simp)
    have hs := (Stmt.exec_eq_some.mp he).1
    obtain ⟨u, hu, -⟩ := Schema.table?_reshape ht (Stmt.removes_of_widens hx) hs
    have hrest := ih (fun y hy => hb y (List.mem_cons_of_mem _ hy)) hu h
    exact (Stmt.exec_keeps hx ht he).trans hrest fun c hc =>
      hc.reshape (Stmt.removes_of_widens hx) hs

/-- A script that adds a column with a constant default gives every row that value. -/
theorem Reaches.fills {b : List Stmt} {d d' : Db} {table column value : String} {t : TableDef}
    (hb : ∀ x ∈ b, x.widens table = true) (ht : d.schema.table? table = some t)
    (hmem : .addColumn table column (.constant value) ∈ b) (h : Reaches b d d') :
    ∀ r ∈ d.rows table, ∃ r' ∈ d'.rows table,
      (∀ c, d.schema.HasColumn table c → r' c = r c) ∧ r' column = some value := by
  obtain ⟨l, rest, rfl⟩ := List.append_of_mem hmem
  obtain ⟨e, hl, h⟩ := reaches_append.mp h
  obtain ⟨f, hf, h⟩ := reaches_cons.mp h
  have hbl : ∀ x ∈ l, x.widens table = true := fun x hx => hb x (by simp [hx])
  have hrem : ∀ x ∈ l, x.removes table = false := fun x hx => Stmt.removes_of_widens (hbl x hx)
  obtain ⟨u, hu, -⟩ := Schema.table?_reshapeAll ht hrem hl.reshapeAll
  obtain ⟨hs, hcarry⟩ := Stmt.exec_eq_some.mp hf
  obtain ⟨w, hw, -⟩ := Schema.table?_reshape hu rfl hs
  have hlast : f.Keeps table d' := h.keepsRows (fun x hx => hb x (by simp [hx])) hw
  have hfirst : d.Keeps table f :=
    (hl.keepsRows hbl ht).trans (Stmt.exec_keeps (hb _ (by simp)) hu hf)
      fun c hc => hc.reshapeAll hrem hl.reshapeAll
  have hgrown : ∀ c, d.schema.HasColumn table c → f.schema.HasColumn table c :=
    fun c hc => (hc.reshapeAll hrem hl.reshapeAll).reshape rfl hs
  have hfilled : ∀ r ∈ f.rows table, r column = some value := by
    simp only [Stmt.carry, reduceCtorEq, false_and, if_false, Option.some.injEq] at hcarry
    intro r hr
    rw [← hcarry, Function.update_self] at hr
    obtain ⟨a, -, rfl⟩ := List.mem_map.mp hr
    exact Function.update_self ..
  intro r hr
  obtain ⟨r1, hr1, hsame⟩ := hfirst r hr
  obtain ⟨r2, hr2, hsame'⟩ := hlast r1 hr1
  refine ⟨r2, hr2, fun c hc => ?_, ?_⟩
  · rw [hsame' c (hgrown c hc), hsame c hc]
  · rw [hsame' column (addColumn_hasColumn hs), hfilled r1 hr1]

end Sql
