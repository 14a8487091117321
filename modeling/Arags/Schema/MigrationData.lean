import Arags.Lib.ForeignKeys
import Arags.Schema.MigrationRestart

/-!
# Arags.Schema.MigrationData

What `run_migrations` does to the rows of a file that it brings up to date, with foreign keys
enforced.

* `FOREIGN_KEYS`, `Enforced.runMigrations` — the run of `Arags.Schema.Migrations` under the keys
  that the scripts declare.
* `Consistent`, `DataKept` — a file at one of the versions, and what of it has to be there after.
* `enforced_same` — without anchors to delete the keys have no say, and the run is the plain one.
* `anchors_lost` — `020` drops `explorations` to rebuild it, and the anchors go with its rows.
* `migrations_keep_data` — the files whose data comes through.
-/

namespace Arags

open Sql

/-- The references that the scripts declare. -/
def FOREIGN_KEYS : List ForeignKey :=
  [ ⟨"chunks", "buffer_id", "buffers", "id", .noAction⟩,
    ⟨"chunk_texts", "chunk_id", "chunks", "id", .noAction⟩,
    ⟨"tasks", "chunk_id", "chunks", "id", .noAction⟩,
    ⟨"findings", "task_id", "tasks", "id", .noAction⟩,
    ⟨"findings", "chunk_id", "chunks", "id", .noAction⟩,
    ⟨"history", "buffer_id", "buffers", "id", .noAction⟩,
    ⟨"patterns", "buffer_id", "buffers", "id", .noAction⟩,
    ⟨"run_model_usage", "run_id", "runs", "id", .noAction⟩,
    ⟨"node_calls", "run_id", "runs", "id", .noAction⟩,
    ⟨"result_cache", "run_id", "runs", "id", .noAction⟩,
    ⟨"chunk_entities", "chunk_id", "chunks", "id", .cascade⟩,
    ⟨"auth_sessions", "token_id", "auth_tokens", "id", .noAction⟩,
    ⟨"rlm_edges", "parent_id", "rlm_nodes", "id", .cascade⟩,
    ⟨"rlm_edges", "child_node_id", "rlm_nodes", "id", .cascade⟩,
    ⟨"rlm_edges", "chunk_id", "chunks", "id", .cascade⟩,
    ⟨"exploration_files", "exploration_rowid", "explorations", "id", .cascade⟩]

namespace Enforced

/-- As `Arags.applyPending`. -/
def applyPending (currentVersion : Nat) :
    Nat → List (List Stmt) → Database → Database × Except String Unit
  | _, [], d => (d, .ok ())
  | i, migration :: rest, d =>
    let version := i + 1
    if version > currentVersion then
      match runEnforced FOREIGN_KEYS migration d.db with
      | (db, false) => ({ d with db := db }, .error s!"failed to apply migration {version}")
      | (db, true) =>
        match recordVersion version { d with db := db } with
        | none => ({ d with db := db }, .error "failed to record migration")
        | some d => applyPending currentVersion (i + 1) rest d
    else applyPending currentVersion (i + 1) rest d

/-- As `Arags.runMigrations`. -/
def runMigrations (d : Database) : Database × Except String Unit :=
  match schemaVersion.enforce FOREIGN_KEYS d.db with
  | none => (d, .error "failed to create schema_version table")
  | some db => applyPending d.currentVersion 0 MIGRATIONS { d with db := db }

end Enforced

/-- A file at version `v` whose references hold. -/
structure Consistent (v : Nat) (d : Database) : Prop extends AtVersion v d where
  references : ∀ k ∈ FOREIGN_KEYS, k.Holds d.db.rows
  /-- `exploration_rowid INTEGER NOT NULL`. -/
  anchored : ∀ a ∈ d.db.rows "exploration_files", a "exploration_rowid" ≠ none

/-- The row is in the new file, with its value in every column that version `v` had. -/
def RowKept (v : Nat) (d' : Database) (table : String) (r r' : Cells) : Prop :=
  r' ∈ d'.db.rows table ∧ ∀ c, (schemaAt v).HasColumn table c → r' c = r c

/-- From `021` on a row may have been superseded; before, all of them are live. -/
def wasActive (v : Nat) (table : String) (r : Cells) : Prop :=
  (schemaAt v).HasColumn table "is_active" → r "is_active" = some "1"

/-- What has to be there after the migrations of a file at version `v`. -/
structure DataKept (v : Nat) (d d' : Database) : Prop where
  /-- Counters and status are columns of the row. -/
  maps : ∀ m ∈ d.db.rows "explorations", ∃ m', RowKept v d' "explorations" m m'
  anchors : ∀ m ∈ d.db.rows "explorations", ∀ a ∈ d.db.rows "exploration_files",
    a "exploration_rowid" = m "id" → a ∈ d'.db.rows "exploration_files"
  fts : ∀ m ∈ d.db.rows "explorations", ∀ f ∈ d.db.rows "explorations_fts",
    f "rowid" = m "id" → f ∈ d'.db.rows "explorations_fts"
  active : ∀ table ∈ ["chunks", "qa_cache", "rlm_nodes"], ∀ r ∈ d.db.rows table,
    ∃ r', RowKept v d' table r r' ∧ (wasActive v table r → r' "is_active" = some "1")

/-- The run succeeds and loses nothing. -/
def KeepsData (v : Nat) (d : Database) : Prop :=
  (Enforced.runMigrations d).2 = .ok () ∧ DataKept v d (Enforced.runMigrations d).1

/-! ### The schema along the way -/

theorem table?_schemaAt {table : String} {t : TableDef} {m n : Nat} (hmn : m ≤ n) (hn : n ≤ 24)
    (hkeep : ∀ i < n, m ≤ i → ∀ x ∈ migrationAt i, x.removes table = false)
    (ht : (schemaAt m).table? table = some t) :
    ∃ t', (schemaAt n).table? table = some t' ∧ ∀ c ∈ t.columns, c ∈ t'.columns := by
  induction n with
  | zero =>
    obtain rfl : m = 0 := Nat.le_zero.mp hmn
    exact ⟨t, ht, fun _ hc => hc⟩
  | succ n ih =>
    by_cases hlast : m = n + 1
    · subst hlast
      exact ⟨t, ht, fun _ hc => hc⟩
    · obtain ⟨u, hu, hsub⟩ := ih (by omega) (by omega) fun i hi => hkeep i (by omega)
      obtain ⟨t', ht', hsub'⟩ := Schema.table?_reshapeAll hu (hkeep n (by omega) (by omega))
        (reshapeAll_migrationAt (by omega))
      exact ⟨t', ht', fun c hc => hsub' c (hsub c hc)⟩

/-- Before `019` there are no maps. -/
theorem noMaps_before {v : Nat} (hv : v ≤ 13) (table : String)
    (ht : table = "explorations" ∨ table = "exploration_files") :
    (schemaAt v).table? table = none := by
  have hnone : (schemaAt 13).table? "explorations" = none ∧
      (schemaAt 13).table? "exploration_files" = none := by
    decide +kernel
  have hkeep : ∀ i < 13, ∀ x ∈ migrationAt i, x.removes "explorations" = false ∧
      x.removes "exploration_files" = false := by
    decide
  cases h : (schemaAt v).table? table with
  | none => rfl
  | some t =>
    rcases ht with rfl | rfl
    · obtain ⟨t', ht', -⟩ := table?_schemaAt hv (by decide)
        (fun i hi _ x hx => (hkeep i hi x hx).1) h
      rw [hnone.1] at ht'
      cases ht'
    · obtain ⟨t', ht', -⟩ := table?_schemaAt hv (by decide)
        (fun i hi _ x hx => (hkeep i hi x hx).2) h
      rw [hnone.2] at ht'
      cases ht'

/-! ### Where the keys have no say -/

theorem only_anchors_refer : ∀ k ∈ FOREIGN_KEYS, k.parent = "explorations" →
    k.table = "exploration_files" := by
  decide

theorem keyed_in_rebuild : ∀ m < 24, ∀ x ∈ migrationAt m, x.keyed = true → m = 14 ∧
    (x = .dropTable "explorations" ∨
      x = .copyRows "explorations_new" "explorations" explorationsColumns) := by
  decide

theorem anchors_unfed : ∀ m < 24, ∀ x ∈ migrationAt m, x.feeds "exploration_files" = false := by
  decide

theorem enforce_script {m : Nat} {x : Stmt} {d : Db} (hm : m < 24) (hx : x ∈ migrationAt m)
    (h : m ≤ 14 → d.rows "exploration_files" = []) : x.enforce FOREIGN_KEYS d = x.exec d := by
  by_cases hk : x.keyed = false
  · exact Stmt.enforce_unkeyed hk d
  · obtain ⟨h14, rfl | rfl⟩ := keyed_in_rebuild m hm x hx (by simpa using hk)
    · refine enforce_drop_unreferenced fun k hk hp => ?_
      rw [only_anchors_refer k hk hp]
      exact h (Nat.le_of_eq h14)
    · exact enforce_copy (by decide)

theorem runEnforced_script {v m : Nat} {d : Db} (hm : m < 24) (hvm : v ≤ m)
    (h : v ≤ 14 → d.rows "exploration_files" = []) :
    runEnforced FOREIGN_KEYS (migrationAt m) d = runBatch (migrationAt m) d ∧
      (v ≤ 14 → (runBatch (migrationAt m) d).1.rows "exploration_files" = []) := by
  refine runEnforced_eq (P := fun d => v ≤ 14 → d.rows "exploration_files" = [])
    (fun x hx d hd => enforce_script hm hx fun hle => hd (hvm.trans hle))
    (fun x hx d e hd he hle => ?_) h
  exact Stmt.carry_empty (anchors_unfed m hm x hx) (Stmt.exec_eq_some.mp he).2 (hd hle)

theorem drop_cons {i : Nat} (hi : i < 24) :
    MIGRATIONS.drop i = migrationAt i :: MIGRATIONS.drop (i + 1) :=
  drop_take_cons hi (Nat.le_refl 24)

theorem recordVersion_db {v : Nat} {d d' : Database} (h : recordVersion v d = some d') :
    d'.db = d.db := by
  unfold recordVersion at h
  split at h
  · cases h
  · cases h; rfl

theorem applyPending_same {v i : Nat} {d : Database} (hi : i ≤ 24)
    (h : v ≤ 14 → d.db.rows "exploration_files" = []) :
    Enforced.applyPending v i (MIGRATIONS.drop i) d = applyPending v i (MIGRATIONS.drop i) d := by
  induction hk : 24 - i generalizing i d with
  | zero =>
    obtain rfl : i = 24 := by omega
    rfl
  | succ k ih =>
    have hlt : i < 24 := by omega
    rw [drop_cons hlt, Enforced.applyPending, applyPending]
    by_cases hv : i + 1 > v
    · obtain ⟨hsame, hempty⟩ := runEnforced_script (d := d.db) hlt (Nat.lt_succ_iff.mp hv) h
      simp only [hv, if_true, hsame]
      cases hb : runBatch (migrationAt i) d.db with
      | mk db ok =>
        rw [hb] at hempty
        cases ok with
        | false => rfl
        | true =>
          dsimp only
          cases hr : recordVersion (i + 1) { d with db := db } with
          | none => rfl
          | some d' =>
            exact ih hlt (fun hle => (congrArg (fun db => db.rows "exploration_files")
              (recordVersion_db hr)).trans (hempty hle)) (by omega)
    · simp only [hv, if_false]
      exact ih hlt h (by omega)

/-- Files without anchors, and files that have the rebuilt table, never meet the keys. -/
theorem enforced_same {v : Nat} {d : Database} (hd : AtVersion v d)
    (h : v ≤ 14 → d.db.rows "exploration_files" = []) :
    Enforced.runMigrations d = runMigrations d := by
  unfold Enforced.runMigrations runMigrations
  rw [Stmt.enforce_unkeyed rfl]
  cases hx : schemaVersion.exec d.db with
  | none => rfl
  | some db =>
    have hempty : v ≤ 14 → db.rows "exploration_files" = [] := fun hle =>
      Stmt.carry_empty rfl (Stmt.exec_eq_some.mp hx).2 (h hle)
    have hsame := applyPending_same (v := v) (d := { d with db := db }) (Nat.zero_le 24) hempty
    rw [hd.version]
    exact hsame

/-! ### What a run does to the rows -/

theorem reaches_of_run {v i : Nat} {l : List (List Stmt)} {d e : Database} (hv : v ≤ i)
    (h : applyPending v i l d = (e, .ok ())) : Reaches l.flatten d.db e.db := by
  induction l generalizing i d with
  | nil =>
    have he : d = e := (Prod.ext_iff.mp h).1
    exact he ▸ reaches_nil.mpr rfl
  | cons b l ih =>
    obtain ⟨db, d', hb, hr, -⟩ := reaches_of_applyPending hv (congrArg Prod.snd h)
    rw [applyPending_cons hv hb hr] at h
    have hrest := ih (by omega) h
    rw [recordVersion_db hr] at hrest
    exact List.flatten_cons ▸ reaches_append.mpr ⟨db, hb, hrest⟩

/-- The run, as one script from the opened file. -/
theorem AtVersion.reaches {v : Nat} {d : Database} (hd : AtVersion v d)
    (hc : v < 7 → d.db.rows "chunks" = []) :
    ∃ db e, runMigrations d = (e, .ok ()) ∧ db.schema = schemaAt v ∧
      (∀ table ≠ "schema_version", db.rows table = d.db.rows table) ∧ RowsReady v db.rows ∧
      Reaches (MIGRATIONS.drop v).flatten db e.db := by
  obtain ⟨db, hdb, hs, hr⟩ := hd.opens
  obtain ⟨e, he, -⟩ := hd.run hc
  refine ⟨db, e, he, hs, fun table ht => opened_rows hr ht, (hd.ready hc hs hr).rows, ?_⟩
  have hfrom := applyPending_from hd.known (Nat.le_refl 24) { d with db := db }
  unfold runMigrations at he
  simp only [hdb, hd.version] at he
  exact reaches_of_run (d := { d with db := db }) (Nat.le_refl v) (hfrom.symm.trans he)

theorem mem_drop_flatten {v : Nat} {x : Stmt} (hx : x ∈ (MIGRATIONS.drop v).flatten) :
    ∃ m < 24, v ≤ m ∧ x ∈ migrationAt m := by
  obtain ⟨b, hb, hx⟩ := List.mem_flatten.mp hx
  obtain ⟨i, hi, rfl⟩ := List.getElem_of_mem hb
  have hlen : v + i < 24 := by
    rw [List.length_drop, migrations_length] at hi
    omega
  refine ⟨v + i, hlen, Nat.le_add_right .., ?_⟩
  rw [List.getElem_drop] at hx
  have hlen' : v + i < MIGRATIONS.length := hlen
  rwa [migrationAt, List.getD_eq_getElem?_getD, List.getElem?_eq_getElem hlen']

theorem live_widened : ∀ m < 24, ∀ x ∈ migrationAt m,
    (7 ≤ m → x.widens "chunks" = true) ∧ x.widens "qa_cache" = true ∧
      x.widens "rlm_nodes" = true ∧ (15 ≤ m → x.widens "explorations" = true) := by
  decide

theorem mirrors_spared : ∀ m < 24, 14 ≤ m → ∀ x ∈ migrationAt m,
    x.spares "exploration_files" = true ∧ x.spares "explorations_fts" = true := by
  decide

theorem live_at_021 : ∀ table ∈ ["chunks", "qa_cache", "rlm_nodes"],
    .addColumn table "is_active" (.constant "1") ∈ migrationAt 15 := by
  decide

theorem live_stays {table : String} (htable : table ∈ ["chunks", "qa_cache", "rlm_nodes"]) :
    ∀ m < 24, 15 ≤ m → ∀ x ∈ migrationAt m, x.removes table = false := by
  intro m hm h15 x hx
  obtain ⟨hchunks, hanswers, hnodes, -⟩ := live_widened m hm x hx
  simp only [List.mem_cons, List.not_mem_nil, or_false] at htable
  rcases htable with rfl | rfl | rfl
  · exact Stmt.removes_of_widens (hchunks (by omega))
  · exact Stmt.removes_of_widens hanswers
  · exact Stmt.removes_of_widens hnodes

theorem isActive_column {table : String} {v : Nat} (h16 : 16 ≤ v) (hv : v ≤ 24)
    (htable : table ∈ ["chunks", "qa_cache", "rlm_nodes"]) :
    (schemaAt v).HasColumn table "is_active" := by
  obtain ⟨u, hu, hcolumn⟩ := reshapeAll_hasColumn (live_at_021 table htable)
    (live_stays htable 15 (by decide) (Nat.le_refl 15)) (reshapeAll_migrationAt (by decide))
  obtain ⟨t', ht', hsub⟩ := table?_schemaAt h16 hv
    (fun i hi h => live_stays htable i (by omega) (by omega)) hu
  exact ⟨t', ht', hsub _ hcolumn⟩

/-- Chunks, answers and nodes. -/
theorem live_kept {v : Nat} {db : Db} {e : Database} {table : String} {t : TableDef} (hv : v ≤ 24)
    (htable : table ∈ ["chunks", "qa_cache", "rlm_nodes"]) (hs : db.schema = schemaAt v)
    (ht : (schemaAt v).table? table = some t)
    (hw : ∀ x ∈ (MIGRATIONS.drop v).flatten, x.widens table = true)
    (h : Reaches (MIGRATIONS.drop v).flatten db e.db) :
    ∀ r ∈ db.rows table, ∃ r', RowKept v e table r r' ∧
      (wasActive v table r → r' "is_active" = some "1") := by
  intro r hr
  rw [← hs] at ht
  by_cases h15 : v ≤ 15
  · have hmem : .addColumn table "is_active" (.constant "1") ∈ (MIGRATIONS.drop v).flatten := by
      refine List.mem_flatten.mpr ⟨migrationAt 15, ?_, live_at_021 table htable⟩
      refine List.mem_iff_getElem?.mpr ⟨15 - v, ?_⟩
      rw [List.getElem?_drop, show v + (15 - v) = 15 by omega]
      rfl
    obtain ⟨r', hr', hsame, hone⟩ := h.fills hw ht hmem r hr
    exact ⟨r', ⟨hr', hs ▸ hsame⟩, fun _ => hone⟩
  · obtain ⟨r', hr', hsame⟩ := h.keepsRows hw ht r hr
    rw [hs] at hsame
    refine ⟨r', ⟨hr', hsame⟩, fun hactive => ?_⟩
    have hcol := isActive_column (by omega) hv htable
    rw [hsame _ hcol]
    exact hactive hcol

theorem schemaAt_fourteen :
    ((schemaAt 14).table? "explorations").map TableDef.columns = some explorationsColumns ∧
    (reshapeAll rebuild (schemaAt 14)).bind (fun s =>
      (s.table? "explorations").map TableDef.columns) = some explorationsColumns ∧
    schemaVersion.reshape (schemaAt 14) = some (schemaAt 14) ∧
    ((schemaAt 14).table? "exploration_files").isSome = true ∧
    ∀ t ∈ (schemaAt 14).tables, ["id"] ∈ t.keys → t.name ≠ "exploration_files" := by
  decide +kernel

/-- A map's row has all its columns at every version that knows maps, so `RowKept` covers its
counters and its status. -/
theorem maps_columns {v : Nat} (h14 : 14 ≤ v) (hv : v ≤ 24) :
    ∀ c ∈ explorationsColumns, (schemaAt v).HasColumn "explorations" c := by
  intro c hc
  obtain ⟨hbefore, hafter, -⟩ := schemaAt_fourteen
  by_cases hv14 : v = 14
  · obtain ⟨t, ht, hcolumns⟩ := Option.map_eq_some_iff.mp hbefore
    exact hv14 ▸ ⟨t, ht, hcolumns ▸ hc⟩
  · have hsplit : migrationAt 14 = rebuild ++ (migrationAt 14).drop 4 := rfl
    have hstep := reshapeAll_migrationAt (m := 14) (by decide)
    rw [hsplit, reshapeAll_append] at hstep
    obtain ⟨s, hs, hrest⟩ := Option.bind_eq_some_iff.mp hstep
    rw [hs] at hafter
    obtain ⟨t, ht, hcolumns⟩ := Option.map_eq_some_iff.mp hafter
    obtain ⟨u, hu, hcu⟩ := Schema.table?_reshapeAll ht (by decide) hrest
    obtain ⟨t', ht', hcu'⟩ := table?_schemaAt (m := 15) (by omega) hv
      (fun i hi h15 x hx => Stmt.removes_of_widens ((live_widened i (by omega) x hx).2.2.2 h15)) hu
    exact ⟨t', ht', hcu' c (hcu c (hcolumns ▸ hc))⟩

theorem maps_rebuilt {db : Db} {e : Database} (hs : db.schema = schemaAt 14)
    (hr : RowsReady 14 db.rows) (h : Reaches (MIGRATIONS.drop 14).flatten db e.db) :
    ∀ m ∈ db.rows "explorations", ∃ m', RowKept 14 e "explorations" m m' := by
  have hsplit : (MIGRATIONS.drop 14).flatten
      = rebuild ++ ((migrationAt 14).drop 4 ++ (MIGRATIONS.drop 15).flatten) := rfl
  rw [hsplit] at h
  obtain ⟨f, hf, hrest⟩ := reaches_append.mp h
  have hreshape : reshapeAll rebuild (schemaAt 14) = some f.schema := hs ▸ hf.reshapeAll
  obtain ⟨g, hg, -, -, hrows⟩ := rebuild_step (hs ▸ hreshape) (hs ▸ rebuildsInto_schemaAt) hr
  rw [← hf.unique hg] at hrows
  obtain ⟨hbefore, hafter, -⟩ := schemaAt_fourteen
  rw [hreshape] at hafter
  obtain ⟨t, ht, hcolumns⟩ := Option.map_eq_some_iff.mp hafter
  have hw : ∀ x ∈ (migrationAt 14).drop 4 ++ (MIGRATIONS.drop 15).flatten,
      x.widens "explorations" = true := by
    intro x hx
    rcases List.mem_append.mp hx with hx | hx
    · revert x
      decide
    · obtain ⟨i, hi, h15, hx⟩ := mem_drop_flatten hx
      exact (live_widened i hi x hx).2.2.2 h15
  intro m hm
  obtain ⟨m', hm', hsame⟩ := hrest.keepsRows hw ht (pick explorationsColumns explorationsColumns m)
    (hrows ▸ List.mem_map_of_mem hm)
  refine ⟨m', hm', fun c hc => ?_⟩
  obtain ⟨u, hu, hcu⟩ := hc
  rw [hu] at hbefore
  have hcu : c ∈ explorationsColumns := Option.some.inj hbefore ▸ hcu
  rw [hsame c ⟨t, ht, hcolumns ▸ hcu⟩, pick_self hcu]

theorem keepsData_of {v : Nat} {d : Database} (hd : Consistent v d)
    (hc : v ≤ 6 → d.db.rows "chunks" = [])
    (ha : v = 14 → d.db.rows "exploration_files" = []) : KeepsData v d := by
  have hv : v ≤ 24 := hd.known
  have habsent : ∀ table, (schemaAt v).table? table = none → d.db.rows table = [] := hd.absent
  have hempty : v ≤ 14 → d.db.rows "exploration_files" = [] := by
    intro hle
    by_cases h14 : v = 14
    · exact ha h14
    · exact habsent _ (noMaps_before (by omega) _ (.inr rfl))
  obtain ⟨db, e, hrun, hs, hrows, hready, hreach⟩ := hd.toAtVersion.reaches fun h => hc (by omega)
  unfold KeepsData
  rw [enforced_same hd.toAtVersion hempty, hrun]
  have hmirror : ∀ table, (table = "exploration_files" ∨ table = "explorations_fts") → 14 ≤ v →
      ∀ r ∈ d.db.rows table, r ∈ e.db.rows table := by
    intro table htable h14 r hr
    cases ht : (schemaAt v).table? table with
    | none => rw [habsent _ ht] at hr; cases hr
    | some t =>
      have hspare : ∀ x ∈ (MIGRATIONS.drop v).flatten, x.spares table = true := by
        intro x hx
        obtain ⟨i, hi, hvi, hx⟩ := mem_drop_flatten hx
        have hx := mirrors_spared i hi (by omega) x hx
        rcases htable with rfl | rfl
        · exact hx.1
        · exact hx.2
      rw [hreach.spared hspare (hs ▸ ht), hrows table (by rcases htable with rfl | rfl <;> decide)]
      exact hr
  have hsome : ∀ m ∈ d.db.rows "explorations", 14 ≤ v := by
    intro m hm
    by_contra h14
    rw [habsent _ (noMaps_before (by omega) _ (.inl rfl))] at hm
    cases hm
  refine ⟨rfl, ⟨fun m hm => ?_, fun m hm a har _ => ?_, fun m hm f hf _ => ?_, ?_⟩⟩
  · have h14 := hsome m hm
    have hm : m ∈ db.rows "explorations" := (hrows "explorations" (by decide)).symm ▸ hm
    by_cases hv14 : v = 14
    · subst hv14
      exact maps_rebuilt hs hready hreach m hm
    · cases ht : (schemaAt v).table? "explorations" with
      | none =>
        rw [hrows _ (by decide), habsent _ ht] at hm
        cases hm
      | some t =>
        have hw : ∀ x ∈ (MIGRATIONS.drop v).flatten, x.widens "explorations" = true := by
          intro x hx
          obtain ⟨i, hi, hvi, hx⟩ := mem_drop_flatten hx
          exact (live_widened i hi x hx).2.2.2 (by omega)
        obtain ⟨m', hm', hsame⟩ := hreach.keepsRows hw (hs ▸ ht) m hm
        exact ⟨m', hm', hs ▸ hsame⟩
  · exact hmirror _ (.inl rfl) (hsome m hm) a har
  · exact hmirror _ (.inr rfl) (hsome m hm) f hf
  · intro table htable r hr
    cases ht : (schemaAt v).table? table with
    | none => rw [habsent _ ht] at hr; cases hr
    | some t =>
      have hne : table ≠ "schema_version" := by
        rintro rfl
        revert htable
        decide
      refine live_kept hv htable hs ht (fun x hx => ?_) hreach r ((hrows _ hne).symm ▸ hr)
      obtain ⟨i, hi, hvi, hx⟩ := mem_drop_flatten hx
      have hx := live_widened i hi x hx
      simp only [List.mem_cons, List.not_mem_nil, or_false] at htable
      rcases htable with rfl | rfl | rfl
      · refine hx.1 ?_
        by_contra h7
        rw [hc (by omega)] at hr
        cases hr
      · exact hx.2.1
      · exact hx.2.2.1

/-! ### Where anchors are lost -/

def anchorKey : ForeignKey :=
  ⟨"exploration_files", "exploration_rowid", "explorations", "id", .cascade⟩

theorem noAnchors_kept {m : Nat} {x : Stmt} {d d' : Db} (hm : m < 24) (hx : x ∈ migrationAt m)
    (hd : d.rows "exploration_files" = []) (h : x.enforce FOREIGN_KEYS d = some d') :
    d'.rows "exploration_files" = [] := by
  obtain ⟨e, he, -, hsub⟩ := Stmt.enforce_sublist h
  have hempty := Stmt.carry_empty (anchors_unfed m hm x hx) (Stmt.exec_eq_some.mp he).2 hd
  exact List.sublist_nil.mp (hempty ▸ hsub "exploration_files")

/-- Up to the drop, the anchors and the maps they refer to stay. -/
theorem referring_kept {x : Stmt} {d d' : Db} (hx : x ∈ (migrationAt 14).take 2)
    (hd : ∀ a ∈ d.rows "exploration_files", anchorKey.RefersTo (d.rows "explorations") a)
    (h : x.enforce FOREIGN_KEYS d = some d') :
    ∀ a ∈ d'.rows "exploration_files", anchorKey.RefersTo (d'.rows "explorations") a := by
  have htake : (migrationAt 14).take 2 = [.createTable explorationsNew,
      .copyRows "explorations_new" "explorations" explorationsColumns] := rfl
  have hrows : ∃ l, d'.rows = Function.update d.rows "explorations_new" l := by
    rw [htake] at hx
    rcases List.mem_cons.mp hx with rfl | hx
    · have hcarry := (Stmt.exec_eq_some.mp h).2
      rcases createTable_carry hcarry with hsame | hnew
      · exact ⟨d.rows "explorations_new", hsame.trans (Function.update_eq_self ..).symm⟩
      · exact ⟨[], hnew⟩
    · obtain rfl := List.mem_singleton.mp hx
      rw [enforce_copy (by decide)] at h
      exact ⟨_, copyRows_carry (Stmt.exec_eq_some.mp h).2⟩
  obtain ⟨l, hl⟩ := hrows
  rw [hl, Function.update_of_ne (by decide), Function.update_of_ne (by decide)]
  exact hd

theorem drop_deletes {d d' : Db}
    (hd : ∀ a ∈ d.rows "exploration_files", anchorKey.RefersTo (d.rows "explorations") a)
    (h : (Stmt.dropTable "explorations").enforce FOREIGN_KEYS d = some d') :
    d'.rows "exploration_files" = [] := by
  obtain ⟨e, he, -, hsub⟩ := Stmt.enforce_sublist h
  have hfree := enforce_drop h (k := anchorKey) (by decide) rfl
  apply List.eq_nil_iff_forall_not_mem.mpr
  intro a ha
  have hold := (hsub "exploration_files").subset ha
  rw [dropTable_rows he, Function.update_of_ne (by decide)] at hold
  exact hfree a ha (hd a hold)

theorem rebuild_deletes {d : Db}
    (hd : ∀ a ∈ d.rows "exploration_files", anchorKey.RefersTo (d.rows "explorations") a)
    (hok : (runEnforced FOREIGN_KEYS (migrationAt 14) d).2 = true) :
    (runEnforced FOREIGN_KEYS (migrationAt 14) d).1.rows "exploration_files" = [] := by
  have hb : migrationAt 14 = (migrationAt 14).take 2 ++
      .dropTable "explorations" :: (migrationAt 14).drop 3 := rfl
  have hrefer := runEnforced_keeps (P := fun d =>
      ∀ a ∈ d.rows "exploration_files", anchorKey.RefersTo (d.rows "explorations") a)
    (fun x hx d d' => referring_kept hx) hd
  rw [hb, runEnforced_append] at hok ⊢
  split at hok
  · next hfirst =>
    rw [if_pos hfirst]
    rw [runEnforced] at hok ⊢
    split at hok
    · cases hok
    · next e he =>
      refine runEnforced_keeps (P := fun d => d.rows "exploration_files" = [])
        (fun x hx d d' => noAnchors_kept (m := 14) (by decide) (List.mem_of_mem_drop hx)) ?_
      exact drop_deletes hrefer he
  · next hfirst => exact absurd hok hfirst

theorem noAnchors_run {v i : Nat} {d : Database} (hi : i ≤ 24)
    (h : d.db.rows "exploration_files" = []) :
    (Enforced.applyPending v i (MIGRATIONS.drop i) d).1.db.rows "exploration_files" = [] := by
  induction hk : 24 - i generalizing i d with
  | zero =>
    obtain rfl : i = 24 := by omega
    exact h
  | succ k ih =>
    have hlt : i < 24 := by omega
    have hempty := runEnforced_keeps (P := fun d => d.rows "exploration_files" = [])
      (fun x hx d d' => noAnchors_kept hlt hx) h
    rw [drop_cons hlt, Enforced.applyPending]
    by_cases hv : i + 1 > v
    · simp only [hv, if_true]
      cases hb : runEnforced FOREIGN_KEYS (migrationAt i) d.db with
      | mk db ok =>
        rw [hb] at hempty
        cases ok with
        | false => exact hempty
        | true =>
          dsimp only
          cases hr : recordVersion (i + 1) { d with db := db } with
          | none => exact hempty
          | some d' =>
            exact ih hlt ((congrArg (fun db => db.rows "exploration_files")
              (recordVersion_db hr)).trans hempty) (by omega)
    · simp only [hv, if_false]
      exact ih hlt h (by omega)

/-- The migrations of a file that `020` finds no longer have an anchor. -/
theorem anchors_lost {d : Database} (hd : Consistent 14 d)
    (hok : (Enforced.runMigrations d).2 = .ok ()) :
    (Enforced.runMigrations d).1.db.rows "exploration_files" = [] := by
  obtain ⟨db, hdb, -, hr⟩ := hd.opens
  have hrefer : ∀ a ∈ db.rows "exploration_files",
      anchorKey.RefersTo (db.rows "explorations") a := by
    rw [opened_rows hr (by decide), opened_rows hr (by decide)]
    exact fun a ha => hd.references anchorKey (by decide) a ha (hd.anchored a ha)
  unfold Enforced.runMigrations at hok ⊢
  rw [Stmt.enforce_unkeyed rfl, hdb, hd.version] at hok ⊢
  have hskip : Enforced.applyPending 14 0 MIGRATIONS { d with db := db }
      = Enforced.applyPending 14 14 (migrationAt 14 :: MIGRATIONS.drop 15) { d with db := db } :=
    rfl
  dsimp only at hok ⊢
  rw [hskip, Enforced.applyPending] at hok ⊢
  simp only [Nat.lt_add_one, gt_iff_lt, if_true] at hok ⊢
  have hgone := rebuild_deletes hrefer
  cases hb : runEnforced FOREIGN_KEYS (migrationAt 14) db with
  | mk db' ok =>
    rw [hb] at hok hgone
    cases ok with
    | false => cases hok
    | true =>
      dsimp only at hok ⊢
      cases hv : recordVersion (14 + 1) { d with db := db' } with
      | none => rw [hv] at hok; cases hok
      | some d' =>
        exact noAnchors_run (by decide) ((congrArg (fun db => db.rows "exploration_files")
          (recordVersion_db hv)).trans (hgone rfl))

/-- The migrations of a consistent file at any version below the latest succeed and lose no map,
anchor, full-text row, chunk, answer or node exactly where it is not from before `010` with chunks
in it, nor at `019` with anchors in it. -/
theorem migrations_keep_data {v : Nat} {d : Database} (hd : Consistent v d)
    (hv : v < MIGRATIONS.length) :
    KeepsData v d ↔ (v ≤ 6 → d.db.rows "chunks" = []) ∧
      (v = 14 → d.db.rows "exploration_files" = []) := by
  constructor
  · rintro ⟨hok, hkept⟩
    refine ⟨fun h6 => ?_, ?_⟩
    · by_contra hc
      have hnone : d.db.rows "exploration_files" = [] :=
        hd.absent _ (noMaps_before (by omega) _ (.inr rfl))
      rw [enforced_same hd.toAtVersion fun _ => hnone] at hok
      exact hd.toAtVersion.stuck (by omega) hc hok
    · rintro rfl
      apply List.eq_nil_iff_forall_not_mem.mpr
      intro a ha
      obtain ⟨-, m, hm, hid⟩ := hd.references anchorKey (by decide) a ha (hd.anchored a ha)
      have hthere := hkept.anchors m hm a ha hid.symm
      rw [anchors_lost hd hok] at hthere
      cases hthere
  · rintro ⟨hc, ha⟩
    exact keepsData_of hd hc ha

/-! ### Files at `019` -/

def sampleMap : Cells := fun c =>
  if c ∈ ["id", "exploration_id", "project", "goal", "summary", "status"] then some "1" else none

def sampleAnchor : Cells := fun c =>
  if c ∈ ["exploration_rowid", "buffer_id", "path", "content_hash", "role"] then some "1" else none

/-- A file at `019` with one map. -/
def fileAt019 (anchors : List Cells) : Database where
  db := ⟨schemaAt 14, fun table =>
    if table = "explorations" then [sampleMap]
    else if table = "exploration_files" then anchors else []⟩
  versions := (List.range 14).map (· + 1)

theorem distinct_of_length {columns : List String} {rows : List Cells} (h : rows.length ≤ 1) :
    Distinct columns rows := by
  match rows, h with
  | [], _ => exact List.Pairwise.nil
  | [r], _ => exact List.pairwise_singleton ..

theorem indexHolds_of_length {i : IndexDef} {rows : List Cells} (h : rows.length ≤ 1) :
    i.Holds rows := by
  have hsub : (i.covered rows).length ≤ 1 := by
    refine le_trans ?_ h
    unfold IndexDef.covered
    split
    · exact Nat.le_refl _
    · exact List.length_filter_le ..
  exact fun _ => distinct_of_length hsub

theorem fileAt019_consistent {anchors : List Cells} (h : anchors = [] ∨ anchors = [sampleAnchor]) :
    Consistent 14 (fileAt019 anchors) := by
  obtain ⟨hmaps, -, hopened, hanchors, hids⟩ := schemaAt_fourteen
  have hshort : ∀ table, ((fileAt019 anchors).db.rows table).length ≤ 1 := by
    intro table
    show (if table = "explorations" then [sampleMap]
      else if table = "exploration_files" then anchors else []).length ≤ 1
    rcases h with rfl | rfl <;> split <;> [skip; split; skip; split] <;> decide
  have hanchor : ∀ a ∈ (fileAt019 anchors).db.rows "exploration_files", a = sampleAnchor := by
    intro a ha
    have ha : a ∈ anchors := ha
    rcases h with rfl | rfl
    · cases ha
    · exact List.mem_singleton.mp ha
  refine ⟨⟨by decide, rfl, hopened, fun name hn => ?_, fun t _ key _ => ?_, fun t ht hk r hr => ?_,
    fun i _ => ?_⟩, fun k hk => ?_, fun a ha => ?_⟩
  · show (if name = "explorations" then [sampleMap]
      else if name = "exploration_files" then anchors else []) = []
    split
    · next hname => rw [← hname, hn] at hmaps; cases hmaps
    · split
      · next hname => rw [← hname, hn] at hanchors; cases hanchors
      · rfl
  · exact distinct_of_length (hshort t.name)
  · have hne := hids t ht hk
    have hr : r ∈ (if t.name = "explorations" then [sampleMap]
      else if t.name = "exploration_files" then anchors else []) := hr
    rw [if_neg hne] at hr
    split at hr
    · rw [List.mem_singleton.mp hr]
      decide
    · cases hr
  · exact indexHolds_of_length (hshort i.table)
  · rcases h with rfl | rfl <;> revert k <;> decide
  · rw [hanchor a ha]
    decide

/-- A map without anchors comes through the rebuild. -/
theorem migrations_keep_data_map : KeepsData 14 (fileAt019 []) :=
  (migrations_keep_data (fileAt019_consistent (.inl rfl)) (by decide)).mpr
    ⟨fun h => absurd h (by decide), fun _ => rfl⟩

/-- The anchor of a map does not. -/
theorem migrations_keep_data_anchor :
    ¬ ∀ v d, Consistent v d → v < MIGRATIONS.length → KeepsData v d := by
  intro hall
  have hd : Consistent 14 (fileAt019 [sampleAnchor]) := fileAt019_consistent (.inr rfl)
  obtain ⟨hok, hkept⟩ := hall 14 (fileAt019 [sampleAnchor]) hd (by decide)
  have hmap : sampleMap ∈ (fileAt019 [sampleAnchor]).db.rows "explorations" :=
    List.mem_singleton_self sampleMap
  have hanchor : sampleAnchor ∈ (fileAt019 [sampleAnchor]).db.rows "exploration_files" :=
    List.mem_singleton_self sampleAnchor
  have hthere := hkept.anchors sampleMap hmap sampleAnchor hanchor (by decide)
  rw [anchors_lost hd hok] at hthere
  cases hthere

end Arags
