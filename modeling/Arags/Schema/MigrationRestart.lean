import Arags.Schema.Migrations
import Mathlib.Tactic.IntervalCases

/-!
# Arags.Schema.MigrationRestart

Where a cut run of `run_migrations` can start again.

* `schemaAt`, `AtVersion` — the files that a finished run leaves, at any of its versions and with
  any rows that the engine lets in.
* `RowsReady` — what the scripts still to come ask of the rows; each of them keeps it.
* `Resumable` — the statements of the unfinished script that a second run gets over.
* `migrations_restart` — the second run ends where the first one would have, exactly there.
-/

namespace Arags

open Sql

/-- The schema after the first `k` scripts. -/
def schemaAt (k : Nat) : Schema :=
  (reshapeAll (schemaVersion :: (MIGRATIONS.take k).flatten) Schema.empty).getD Schema.empty

/-- A file at version `k`, with rows that satisfy its constraints. A file that is new has not even
the table of versions. -/
structure AtVersion (k : Nat) (d : Database) : Prop where
  known : k ≤ MIGRATIONS.length
  version : d.currentVersion = k
  schema : schemaVersion.reshape d.db.schema = some (schemaAt k)
  absent : ∀ name, (schemaAt k).table? name = none → d.db.rows name = []
  keys : ∀ t ∈ (schemaAt k).tables, ∀ key ∈ t.keys, Distinct key (d.db.rows t.name)
  /-- A key column `id` is a row id or in a `STRICT` table: never `NULL`. -/
  ids : ∀ t ∈ (schemaAt k).tables, ["id"] ∈ t.keys → ∀ r ∈ d.db.rows t.name, r "id" ≠ none
  indexes : ∀ i ∈ (schemaAt k).indexes, i.Holds (d.db.rows i.table)

/-- The second run succeeds and ends at the version of the run that is not cut. -/
def RestartsSafely (d cut : Database) : Prop :=
  (runMigrations cut).2 = .ok () ∧
    (runMigrations cut).1.currentVersion = (runMigrations d).1.currentVersion

/-- What the statements already run of an unfinished script must not have done. -/
structure Resumable (ran : List Stmt) (rows : Rows) : Prop where
  /-- No column has been added. -/
  columns : ∀ t c v, .addColumn t c v ∉ ran
  /-- Rows have been copied only if there were none, or the table they came from is gone. -/
  copied : ∀ t u cs, .copyRows t u cs ∈ ran → .dropTable u ∉ ran → rows u = []
  /-- A dropped table has its successor in its place. -/
  dropped : ∀ u, .dropTable u ∈ ran → ∃ t, .renameTable t u ∈ ran

/-! ### The schema side -/

/-- The copy goes into the table that the rebuild makes, and no index but its keys watches it. -/
def rebuildsInto (s : Schema) : Bool :=
  match (Stmt.createTable explorationsNew).reshape s with
  | none => false
  | some s => s.table? "explorations_new" == some explorationsNew &&
    s.indexes.all fun i => i.table != "explorations_new"

/-- The schema side of the rebuild, started again from what `j` of its statements leave. -/
def reviewRestarts (s : Schema) (j : Nat) : Bool :=
  match reshapeAll ((migrationAt 14).take j) s with
  | none => false
  | some s' => rebuildsInto s' && reshapeAll (migrationAt 14) s' == reshapeAll (migrationAt 14) s

/-- After the copy the rebuilt table stands beside the old one. -/
def copiedBeside (s : Schema) : Bool :=
  match reshapeAll ((migrationAt 14).take 2) s with
  | none => false
  | some s' => s'.named "explorations_new" && s'.table? "explorations_new" == some explorationsNew

/-- After the drop there is nothing to copy from. -/
def droppedStops (s : Schema) : Bool :=
  match reshapeAll ((migrationAt 14).take 3) s with
  | none => false
  | some s' => (reshapeAll (migrationAt 14) s').isNone

theorem reviewRestarts_cut {s s' : Schema} {j : Nat} (h : reviewRestarts s j = true)
    (hs : reshapeAll ((migrationAt 14).take j) s = some s') :
    rebuildsInto s' = true ∧ reshapeAll (migrationAt 14) s' = reshapeAll (migrationAt 14) s := by
  unfold reviewRestarts at h
  rw [hs] at h
  obtain ⟨hinto, hsame⟩ := Bool.and_eq_true _ _ |>.mp h
  exact ⟨hinto, eq_of_beq hsame⟩

theorem copiedBeside_cut {s s' : Schema} (h : copiedBeside s = true)
    (hs : reshapeAll ((migrationAt 14).take 2) s = some s') :
    s'.named "explorations_new" = true ∧
      s'.table? "explorations_new" = some explorationsNew := by
  unfold copiedBeside at h
  rw [hs] at h
  obtain ⟨hnamed, htable⟩ := Bool.and_eq_true _ _ |>.mp h
  exact ⟨hnamed, eq_of_beq htable⟩

theorem droppedStops_cut {s s' : Schema} (h : droppedStops s = true)
    (hs : reshapeAll ((migrationAt 14).take 3) s = some s') :
    reshapeAll (migrationAt 14) s' = none := by
  unfold droppedStops at h
  rw [hs] at h
  exact Option.isNone_iff_eq_none.mp h

/-- What is asked of the schema before the script at position `k`. -/
def SchemaFacts (k : Nat) (s : Schema) : Prop :=
  (k < 7 → ((s.table? "chunks").all fun t => t.columns.contains "id") = true) ∧
  (k < 15 → s.table? "explorations_new" = none ∧ (s.table? "explorations" = none ∨
    ⟨"explorations", explorationsColumns, [["id"], ["exploration_id"]]⟩ ∈ s.tables)) ∧
  (k < 19 → s.table? "qa_cache" = none ∨
    ⟨"idx_qa_cache_project_question", "qa_cache", ["project", "question_hash"], true, none⟩
      ∈ s.indexes) ∧
  (k < 19 → s.table? "rlm_nodes" = none ∨
    ⟨"idx_rlm_nodes_subject", "rlm_nodes", ["project", "level", "subject"], true, none⟩
      ∈ s.indexes) ∧
  (k = 14 → (∀ j < 10, j ≠ 3 → reviewRestarts s j = true) ∧ copiedBeside s = true ∧
    droppedStops s = true)

instance (k : Nat) (s : Schema) : Decidable (SchemaFacts k s) :=
  inferInstanceAs (Decidable (_ ∧ _ ∧ _ ∧ _ ∧ _))

/-- The scripts go through one after another, with the facts before each of them. -/
def checkAlong : Nat → List (List Stmt) → Schema → Bool
  | k, [], s => decide (SchemaFacts k s)
  | k, b :: rest, s => decide (SchemaFacts k s) && match reshapeAll b s with
    | none => false
    | some s => checkAlong (k + 1) rest s

theorem checkAlong_take {k : Nat} {l : List (List Stmt)} {s : Schema}
    (h : checkAlong k l s = true) {n : Nat} (hn : n ≤ l.length) :
    ∃ s', reshapeAll (l.take n).flatten s = some s' ∧ SchemaFacts (k + n) s' := by
  induction l generalizing k s n with
  | nil =>
    have hn : n = 0 := Nat.le_zero.mp hn
    subst hn
    exact ⟨s, rfl, of_decide_eq_true h⟩
  | cons b l ih =>
    rw [checkAlong] at h
    obtain ⟨hf, h⟩ := Bool.and_eq_true _ _ |>.mp h
    cases n with
    | zero => exact ⟨s, rfl, of_decide_eq_true hf⟩
    | succ n =>
      cases hb : reshapeAll b s with
      | none => rw [hb] at h; cases h
      | some s₁ =>
        rw [hb] at h
        obtain ⟨s', hs', hfacts⟩ := ih h (Nat.le_of_succ_le_succ hn)
        refine ⟨s', ?_, ?_⟩
        · rw [List.take_succ_cons, List.flatten_cons, reshapeAll_append, hb]
          exact hs'
        · rwa [show k + (n + 1) = k + 1 + n by omega]

theorem scripts_checked : checkAlong 0 MIGRATIONS (schemaAt 0) = true := by decide +kernel

theorem migrations_length : MIGRATIONS.length = 24 := rfl

theorem take_succ_flatten {m : Nat} (hm : m < 24) :
    (MIGRATIONS.take (m + 1)).flatten = (MIGRATIONS.take m).flatten ++ migrationAt m := by
  have hm' : m < MIGRATIONS.length := hm
  rw [List.take_succ_eq_append_getElem hm', List.flatten_append]
  simp [migrationAt, List.getD_eq_getElem?_getD, List.getElem?_eq_getElem hm']

theorem schemaAt_checked {k : Nat} (hk : k ≤ 24) :
    reshapeAll (MIGRATIONS.take k).flatten (schemaAt 0) = some (schemaAt k) ∧
      SchemaFacts k (schemaAt k) := by
  obtain ⟨s, hs, hf⟩ := checkAlong_take scripts_checked (n := k) hk
  rw [Nat.zero_add] at hf
  have hat : schemaAt k = s := by
    show (reshapeAll (MIGRATIONS.take k).flatten (schemaAt 0)).getD Schema.empty = s
    rw [hs]
    rfl
  rw [hat]
  exact ⟨hs, hf⟩

theorem reshapeAll_migrationAt {m : Nat} (hm : m < 24) :
    reshapeAll (migrationAt m) (schemaAt m) = some (schemaAt (m + 1)) := by
  have h := (schemaAt_checked (k := m + 1) hm).1
  rw [take_succ_flatten hm, reshapeAll_append, (schemaAt_checked (Nat.le_of_lt hm)).1] at h
  exact h

/-! ### The rows side -/

/-- What the scripts from position `m` on ask of the rows. -/
structure RowsReady (m : Nat) (r : Rows) : Prop where
  chunks : m < 7 → r "chunks" = []
  maps : m < 15 →
    Distinct ["id"] (r "explorations") ∧ Distinct ["exploration_id"] (r "explorations")
  mapIds : m < 15 → ∀ x ∈ r "explorations", x "id" ≠ none
  rebuilt : m < 15 → r "explorations_new" = []
  answers : m < 19 → Distinct ["project", "question_hash"] (r "qa_cache")
  nodes : m < 19 → Distinct ["project", "level", "subject"] (r "rlm_nodes")

theorem RowsReady.mono {m n : Nat} {r : Rows} (h : RowsReady m r) (hmn : m ≤ n) :
    RowsReady n r where
  chunks hn := h.chunks (by omega)
  maps hn := h.maps (by omega)
  mapIds hn := h.mapIds (by omega)
  rebuilt hn := h.rebuilt (by omega)
  answers hn := h.answers (by omega)
  nodes hn := h.nodes (by omega)

/-- The statement puts no row into the tables that `RowsReady` is about and writes none of the
columns it compares. -/
def keepsKeys (x : Stmt) : Bool :=
  (["chunks", "explorations", "explorations_new", "qa_cache", "rlm_nodes"].all
    fun t => !x.feeds t) &&
  ([("explorations", "id"), ("explorations", "exploration_id"), ("qa_cache", "project"),
    ("qa_cache", "question_hash"), ("rlm_nodes", "project"), ("rlm_nodes", "level"),
    ("rlm_nodes", "subject")].all fun k => !x.sets k.1 k.2)

theorem RowsReady.carry {m : Nat} {x : Stmt} {s : Schema} {r r' : Rows} (h : RowsReady m r)
    (hx : keepsKeys x = true) (hr : x.carry s r = some r') : RowsReady m r' := by
  simp only [keepsKeys, List.all_cons, List.all_nil, Bool.and_true, Bool.and_eq_true,
    Bool.not_eq_true'] at hx
  obtain ⟨⟨hc, he, hn, hq, hl⟩, hei, hee, hqp, hqh, hlp, hll, hls⟩ := hx
  refine ⟨fun hm => ?_, fun hm => ⟨?_, ?_⟩, fun hm => ?_, fun hm => ?_, fun hm => ?_, fun hm => ?_⟩
  · exact Stmt.carry_empty hc hr (h.chunks hm)
  · exact Stmt.carry_distinct he (by simpa using hei) hr (h.maps hm).1
  · exact Stmt.carry_distinct he (by simpa using hee) hr (h.maps hm).2
  · exact Stmt.carry_forall he hei hr (h.mapIds hm)
  · exact Stmt.carry_empty hn hr (h.rebuilt hm)
  · exact Stmt.carry_distinct hq (by simpa using ⟨hqp, hqh⟩) hr (h.answers hm)
  · exact Stmt.carry_distinct hl (by simpa using ⟨hlp, hll, hls⟩) hr (h.nodes hm)

/-- The checks of the engine that `RowsReady` answers for. -/
def vouched (m : Nat) : Stmt → Bool
  | .addColumn t _ .expression => t == "chunks" && m < 7
  | .createIndex i => !i.unique || (m < 19 &&
    ((i.table == "qa_cache" && ["project", "question_hash"].all i.columns.contains) ||
      (i.table == "rlm_nodes" && ["project", "level", "subject"].all i.columns.contains)))
  | x => x.unchecked

theorem RowsReady.carries {m : Nat} {x : Stmt} {r : Rows} (h : RowsReady m r)
    (hx : vouched m x = true) (s : Schema) : ∃ r', x.carry s r = some r' := by
  by_cases hu : x.unchecked = true
  · exact Stmt.carry_isSome hu s r
  · cases x with
    | addColumn t c v =>
      cases v with
      | expression =>
        obtain ⟨ht, hm⟩ : t = "chunks" ∧ m < 7 := by simpa [vouched] using hx
        have he : r t = [] := by rw [ht]; exact h.chunks hm
        simp only [Stmt.carry, he, ne_eq, not_true_eq_false, and_false, if_false]
        exact ⟨_, rfl⟩
      | null => exact absurd rfl hu
      | constant => exact absurd rfl hu
    | createIndex i =>
      have hiu : i.unique = true := by simpa [Stmt.unchecked] using hu
      have hv : m < 19 ∧
          ((i.table = "qa_cache" ∧ "project" ∈ i.columns ∧ "question_hash" ∈ i.columns) ∨
            (i.table = "rlm_nodes" ∧ "project" ∈ i.columns ∧ "level" ∈ i.columns ∧
              "subject" ∈ i.columns)) := by
        simpa [vouched, hiu] using hx
      obtain ⟨hm, ⟨ht, hc⟩ | ⟨ht, hc⟩⟩ := hv
      · refine ⟨r, createIndex_carry ?_⟩
        rw [ht]
        exact (h.answers hm).index (by simpa using hc)
      · refine ⟨r, createIndex_carry ?_⟩
        rw [ht]
        exact (h.nodes hm).index (by simpa using hc)
    | copyRows => cases hx
    | createTable => exact absurd rfl hu
    | createView => exact absurd rfl hu
    | createTrigger => exact absurd rfl hu
    | backfill => exact absurd rfl hu
    | dropTable => exact absurd rfl hu
    | renameTable => exact absurd rfl hu
    | dropIndex => exact absurd rfl hu

theorem reaches_vouched {m : Nat} {b : List Stmt} {d : Db} {s : Schema}
    (hb : ∀ x ∈ b, keepsKeys x = true ∧ vouched m x = true) (hs : reshapeAll b d.schema = some s)
    (hr : RowsReady m d.rows) : ∃ d', Reaches b d d' ∧ d'.schema = s ∧ RowsReady m d'.rows := by
  refine reaches_of_invariant (fun x hx c r hI => ?_) hs hr
  obtain ⟨r', hr'⟩ := hI.carries (hb x hx).2 c
  exact ⟨r', hr', hI.carry (hb x hx).1 hr'⟩

theorem rowsReady_of_reaches {m : Nat} {b : List Stmt} {d d' : Db} (h : Reaches b d d')
    (hb : ∀ x ∈ b, keepsKeys x = true) (hr : RowsReady m d.rows) : RowsReady m d'.rows := by
  refine h.keeps (P := fun d => RowsReady m d.rows) (fun x hx d d' hd he => ?_) hr
  exact hd.carry (hb x hx) (Stmt.exec_eq_some.mp he).2

/-- Every script but the two below: its checks are vouched for. -/
theorem migrationAt_vouched : ∀ m < 24, m ≠ 7 → m ≠ 14 →
    ∀ x ∈ migrationAt m, keepsKeys x = true ∧ vouched m x = true := by
  decide

/-! ### The two scripts with a check of their own -/

theorem uuid_step {d : Db} {s : Schema} (hs : reshapeAll (migrationAt 7) d.schema = some s)
    (hr : RowsReady 7 d.rows) :
    ∃ d', Reaches (migrationAt 7) d d' ∧ d'.schema = s ∧ RowsReady 7 d'.rows := by
  have hb : migrationAt 7 = [.addColumn "buffers" "uuid" .null] ++
      [.createIndex ⟨"idx_buffers_uuid", "buffers", ["uuid"], true, none⟩] := rfl
  rw [hb, reshapeAll_append] at hs
  obtain ⟨s1, hs1, hs2⟩ := Option.bind_eq_some_iff.mp hs
  -- the new column is `NULL` in every row, and a unique index does not compare those
  let filled := Function.update d.rows "buffers"
    ((d.rows "buffers").map fun x => Function.update x "uuid" none)
  have hcarry : (Stmt.addColumn "buffers" "uuid" .null).carry d.schema d.rows = some filled := rfl
  have hfirst : Reaches [.addColumn "buffers" "uuid" .null] d ⟨s1, filled⟩ := by
    refine reaches_cons.mpr ⟨⟨s1, filled⟩, Stmt.exec_eq_some.mpr ⟨?_, hcarry⟩, reaches_nil.mpr rfl⟩
    rw [reshapeAll_cons] at hs1
    obtain ⟨s2, hx, h⟩ := Option.bind_eq_some_iff.mp hs1
    rw [hx]
    exact h
  have hready : RowsReady 7 filled := hr.carry (by decide) hcarry
  have hnull : ∀ x ∈ filled "buffers", x "uuid" = none := by
    intro x hx
    have hf : filled "buffers" = (d.rows "buffers").map fun x => Function.update x "uuid" none :=
      Function.update_self ..
    rw [hf] at hx
    obtain ⟨y, -, rfl⟩ := List.mem_map.mp hx
    exact Function.update_self ..
  have hholds : Distinct ["uuid"] (filled "buffers") := by
    refine List.pairwise_of_forall_mem_list ?_
    intro a ha b _ hclash
    exact (hclash "uuid" (by simp)).2 (hnull a ha)
  obtain ⟨d', hd', hs', hr'⟩ := reaches_of_invariant
    (I := fun r => RowsReady 7 r ∧ Distinct ["uuid"] (r "buffers")) (d := ⟨s1, filled⟩)
    (b := [.createIndex ⟨"idx_buffers_uuid", "buffers", ["uuid"], true, none⟩])
    (fun x hx s r hI => ⟨r, by
      rw [List.mem_singleton.mp hx]
      exact createIndex_carry (hI.2.index (by simp)), hI⟩) hs2 ⟨hready, hholds⟩
  exact ⟨d', hb ▸ reaches_append.mpr ⟨_, hfirst, hd'⟩, hs', hr'.1⟩

def rebuild : List Stmt :=
  [ .createTable explorationsNew,
    .copyRows "explorations_new" "explorations" explorationsColumns,
    .dropTable "explorations",
    .renameTable "explorations_new" "explorations"]

theorem distinct_pick {columns key : List String} {rows : List Cells}
    (hk : ∀ c ∈ key, c ∈ columns) (h : Distinct key rows) :
    Distinct key (rows.map (pick columns columns)) := by
  refine List.pairwise_map.mpr (h.imp ?_)
  intro a b hab hclash
  apply hab
  intro c hc
  have := hclash c hc
  rwa [pick_self (hk c hc), pick_self (hk c hc)] at this

/-- The rows of `explorations` come out of the rebuild as they went in. -/
theorem rebuild_step {d : Db} {s : Schema} (hs : reshapeAll rebuild d.schema = some s)
    (hf : rebuildsInto d.schema = true) (hr : RowsReady 14 d.rows) :
    ∃ d', Reaches rebuild d d' ∧ d'.schema = s ∧ RowsReady 14 d'.rows ∧
      d'.rows "explorations"
        = (d.rows "explorations").map (pick explorationsColumns explorationsColumns) := by
  obtain ⟨s1, hs1, hs⟩ := Option.bind_eq_some_iff.mp (reshapeAll_cons.symm.trans hs)
  obtain ⟨s2, hs2, hs⟩ := Option.bind_eq_some_iff.mp (reshapeAll_cons.symm.trans hs)
  obtain ⟨s3, hs3, hs⟩ := Option.bind_eq_some_iff.mp (reshapeAll_cons.symm.trans hs)
  obtain ⟨s4, hs4, hs⟩ := Option.bind_eq_some_iff.mp (reshapeAll_cons.symm.trans hs)
  have hs : s4 = s := Option.some.inj hs
  obtain ⟨htable, hindex⟩ : s1.table? "explorations_new" = some explorationsNew ∧
      ∀ i ∈ s1.indexes, i.table ≠ "explorations_new" := by
    simpa only [rebuildsInto, hs1, Bool.and_eq_true, beq_iff_eq, List.all_eq_true,
      bne_iff_ne] using hf
  obtain ⟨r1, hr1⟩ := Stmt.carry_isSome (x := .createTable explorationsNew) rfl d.schema d.rows
  have hready := hr.carry (by decide) hr1
  have hnew : r1 "explorations_new" = [] := hready.rebuilt (by omega)
  have hold : r1 "explorations" = d.rows "explorations" := by
    rcases createTable_carry hr1 with rfl | rfl
    · rfl
    · exact Function.update_of_ne (by decide) ..
  obtain ⟨hid, heid⟩ := hready.maps (by omega)
  let copied := (r1 "explorations").map (pick explorationsColumns explorationsColumns)
  have hcopy : (Stmt.copyRows "explorations_new" "explorations" explorationsColumns).carry s1 r1
      = some (Function.update r1 "explorations_new" copied) := by
    have hkeys : ∀ k ∈ [["id"], ["exploration_id"]], Distinct k copied := by
      intro k hk
      rcases List.mem_cons.mp hk with rfl | hk
      · exact distinct_pick (by decide) hid
      · rw [List.mem_singleton.mp hk]
        exact distinct_pick (by decide) heid
    have hidx : ∀ i ∈ s1.indexes, i.table = "explorations_new" → i.Holds copied :=
      fun i hi ht => absurd ht (hindex i hi)
    simp only [Stmt.carry, htable, hnew, List.nil_append, Option.map_some, Option.getD_some]
    exact if_pos ⟨hkeys, hidx⟩
  let r2 := Function.update r1 "explorations_new" copied
  let r3 := Function.update r2 "explorations" []
  let r4 := Function.update (Function.update r3 "explorations" (r3 "explorations_new"))
    "explorations_new" []
  have h1 := Stmt.exec_eq_some (d := d) (e := ⟨s1, r1⟩) |>.mpr ⟨hs1, hr1⟩
  have h2 := Stmt.exec_eq_some (d := ⟨s1, r1⟩) (e := ⟨s2, r2⟩) |>.mpr ⟨hs2, hcopy⟩
  have h3 := Stmt.exec_eq_some (d := ⟨s2, r2⟩) (e := ⟨s3, r3⟩) |>.mpr ⟨hs3, rfl⟩
  have h4 := Stmt.exec_eq_some (d := ⟨s3, r3⟩) (e := ⟨s4, r4⟩) |>.mpr ⟨hs4, rfl⟩
  have he : r4 "explorations" = copied := by simp [r4, r3, r2, Function.update]
  have hn : r4 "explorations_new" = [] := by simp [r4]
  have hq : r4 "qa_cache" = r1 "qa_cache" := by simp [r4, r3, r2, Function.update]
  have hl : r4 "rlm_nodes" = r1 "rlm_nodes" := by simp [r4, r3, r2, Function.update]
  refine ⟨⟨s4, r4⟩, reaches_cons.mpr ⟨_, h1, reaches_cons.mpr ⟨_, h2, reaches_cons.mpr ⟨_, h3,
    reaches_cons.mpr ⟨_, h4, reaches_nil.mpr rfl⟩⟩⟩⟩, hs, ?_, hold ▸ he⟩
  show RowsReady 14 r4
  refine ⟨fun h => absurd h (by decide), fun _ => ?_, fun _ => ?_, fun _ => hn, fun _ => ?_,
    fun _ => ?_⟩
  · rw [he]
    exact ⟨distinct_pick (by decide) hid, distinct_pick (by decide) heid⟩
  · intro x hx
    rw [he] at hx
    obtain ⟨y, hy, rfl⟩ := List.mem_map.mp hx
    rw [pick_self (by decide)]
    exact hready.mapIds (by omega) y hy
  · rw [hq]
    exact hready.answers (by omega)
  · rw [hl]
    exact hready.nodes (by omega)

theorem review_step {d : Db} {s : Schema} (hs : reshapeAll (migrationAt 14) d.schema = some s)
    (hf : rebuildsInto d.schema = true) (hr : RowsReady 14 d.rows) :
    ∃ d', Reaches (migrationAt 14) d d' ∧ d'.schema = s ∧ RowsReady 14 d'.rows := by
  have hb : migrationAt 14 = rebuild ++ (migrationAt 14).drop 4 := rfl
  rw [hb, reshapeAll_append] at hs
  obtain ⟨s1, hs1, hs2⟩ := Option.bind_eq_some_iff.mp hs
  obtain ⟨e, he, rfl, hre, -⟩ := rebuild_step hs1 hf hr
  obtain ⟨d', hd', hs', hr'⟩ := reaches_vouched (m := 14) (b := (migrationAt 14).drop 4)
    (by decide) hs2 hre
  exact ⟨d', hb ▸ reaches_append.mpr ⟨e, he, hd'⟩, hs', hr'⟩

/-- A script goes through wherever its schema side does. -/
theorem script_step {m : Nat} {d : Db} {s : Schema} (hm : m < 24)
    (hs : reshapeAll (migrationAt m) d.schema = some s)
    (hf : m = 14 → rebuildsInto d.schema = true) (hr : RowsReady m d.rows) :
    ∃ d', Reaches (migrationAt m) d d' ∧ d'.schema = s ∧ RowsReady (m + 1) d'.rows := by
  have hstep : ∃ d', Reaches (migrationAt m) d d' ∧ d'.schema = s ∧ RowsReady m d'.rows := by
    by_cases h7 : m = 7
    · subst h7
      exact uuid_step hs hr
    · by_cases h14 : m = 14
      · subst h14
        exact review_step hs (hf rfl) hr
      · exact reaches_vouched (migrationAt_vouched m hm h7 h14) hs hr
  obtain ⟨d', hd', hs', hr'⟩ := hstep
  exact ⟨d', hd', hs', hr'.mono (Nat.le_succ m)⟩

/-! ### Whole runs -/

/-- Before the script at position `m`, in a run that has gone well. -/
structure Ready (m : Nat) (d : Database) : Prop where
  schema : d.db.schema = schemaAt m
  rows : RowsReady m d.db.rows
  version : d.currentVersion = m

theorem le_currentVersion {d : Database} {v : Nat} (h : v ∈ d.versions) : v ≤ d.currentVersion := by
  unfold Database.currentVersion
  generalize d.versions = versions at h
  induction versions with
  | nil => cases h
  | cons a l ih =>
    simp only [List.foldr_cons]
    rcases List.mem_cons.mp h with rfl | h
    · exact Nat.le_max_left ..
    · exact (ih h).trans (Nat.le_max_right ..)

theorem recordVersion_next {m : Nat} {d : Database} (h : d.currentVersion = m) :
    ∃ d', recordVersion (m + 1) d = some d' ∧ d'.db = d.db ∧ d'.currentVersion = m + 1 := by
  have hnew : m + 1 ∉ d.versions := by
    intro hmem
    have := le_currentVersion hmem
    omega
  refine ⟨{ d with versions := (m + 1) :: d.versions }, if_neg hnew, rfl, ?_⟩
  show max (m + 1) d.currentVersion = m + 1
  omega

theorem applyPending_skip (l rest : List (List Stmt)) {v i : Nat} {d : Database}
    (h : i + l.length ≤ v) :
    applyPending v i (l ++ rest) d = applyPending v (i + l.length) rest d := by
  induction l generalizing i with
  | nil => rfl
  | cons b l ih =>
    have hlen : (b :: l).length = l.length + 1 := rfl
    rw [hlen] at h ⊢
    have hi : ¬ i + 1 > v := by omega
    rw [List.cons_append, applyPending]
    simp only [hi, if_false]
    rw [ih (by omega), show i + 1 + l.length = i + (l.length + 1) by omega]

theorem applyPending_cons {v i : Nat} {b : List Stmt} {rest : List (List Stmt)} {d : Database}
    {db : Db} {d' : Database} (hv : v ≤ i) (hb : Reaches b d.db db)
    (hr : recordVersion (i + 1) { d with db := db } = some d') :
    applyPending v i (b :: rest) d = applyPending v (i + 1) rest d' := by
  have hi : i + 1 > v := by omega
  have hb : runBatch b d.db = (db, true) := hb
  rw [applyPending]
  simp only [hi, if_true, hb, hr]

/-- A run that comes through has run the next script to its end. -/
theorem reaches_of_applyPending {v i : Nat} {b : List Stmt} {rest : List (List Stmt)}
    {d : Database} (hv : v ≤ i) (h : (applyPending v i (b :: rest) d).2 = .ok ()) :
    ∃ db d', Reaches b d.db db ∧ recordVersion (i + 1) { d with db := db } = some d' ∧
      (applyPending v (i + 1) rest d').2 = .ok () := by
  have hi : i + 1 > v := by omega
  rw [applyPending] at h
  simp only [hi, if_true] at h
  split at h
  · cases h
  · next db hb =>
    split at h
    · cases h
    · next d' hd' => exact ⟨db, d', hb, hd', h⟩

theorem drop_take_cons {m n : Nat} (hmn : m < n) (hn : n ≤ 24) :
    (MIGRATIONS.take n).drop m = migrationAt m :: (MIGRATIONS.take n).drop (m + 1) := by
  have hm : m < (MIGRATIONS.take n).length := by
    rw [List.length_take, migrations_length]
    omega
  rw [List.drop_eq_getElem_cons hm, List.getElem_take]
  have hm' : m < MIGRATIONS.length := by rw [migrations_length]; omega
  simp [migrationAt, List.getD_eq_getElem?_getD, List.getElem?_eq_getElem hm']

theorem review_facts : (∀ j < 10, j ≠ 3 → reviewRestarts (schemaAt 14) j = true) ∧
    copiedBeside (schemaAt 14) = true ∧ droppedStops (schemaAt 14) = true :=
  (schemaAt_checked (k := 14) (by decide)).2.2.2.2.2 rfl

theorem rebuildsInto_schemaAt : rebuildsInto (schemaAt 14) = true :=
  (reviewRestarts_cut (review_facts.1 0 (by decide) (by decide)) rfl).1

theorem Ready.script {m : Nat} {d : Database} (hm : m < 24) (h : Ready m d) :
    ∃ db d', Reaches (migrationAt m) d.db db ∧
      recordVersion (m + 1) { d with db := db } = some d' ∧ Ready (m + 1) d' := by
  obtain ⟨db, hb, hs, hr⟩ := script_step hm (h.schema ▸ reshapeAll_migrationAt hm)
    (by rintro rfl; rw [h.schema]; exact rebuildsInto_schemaAt) h.rows
  obtain ⟨d', hd', hdb, hv⟩ := recordVersion_next (d := { d with db := db }) h.version
  have hdb : d'.db = db := hdb
  exact ⟨db, d', hb, hd', ⟨hdb ▸ hs, hdb ▸ hr, hv⟩⟩

theorem Ready.run {v m n : Nat} {d : Database} (h : Ready m d) (hv : v ≤ m) (hmn : m ≤ n)
    (hn : n ≤ 24) :
    ∃ d', applyPending v m ((MIGRATIONS.take n).drop m) d = (d', .ok ()) ∧ Ready n d' := by
  induction hk : n - m generalizing m d with
  | zero =>
    have hmn : m = n := by omega
    subst hmn
    refine ⟨d, ?_, h⟩
    have hnil : (MIGRATIONS.take m).drop m = [] := by
      apply List.drop_eq_nil_of_le
      rw [List.length_take]
      omega
    rw [hnil]
    rfl
  | succ k ih =>
    obtain ⟨db, d', hb, hd', hready⟩ := h.script (by omega)
    obtain ⟨e, he, hre⟩ := ih hready (by omega) (by omega) (by omega)
    rw [drop_take_cons (by omega) hn, applyPending_cons hv hb hd']
    exact ⟨e, he, hre⟩

theorem applyPending_from {v n : Nat} (hvn : v ≤ n) (hn : n ≤ 24) (d : Database) :
    applyPending v 0 (MIGRATIONS.take n) d = applyPending v v ((MIGRATIONS.take n).drop v) d := by
  have hlen : ((MIGRATIONS.take n).take v).length = v := by
    rw [List.length_take, List.length_take, migrations_length]
    omega
  have hskip := applyPending_skip ((MIGRATIONS.take n).take v) ((MIGRATIONS.take n).drop v)
    (v := v) (i := 0) (d := d) (by omega)
  rw [List.take_append_drop, hlen, Nat.zero_add] at hskip
  exact hskip

theorem schemaVersion_kept : ∀ m < 24, ∀ x ∈ migrationAt m, x.removes "schema_version" = false := by
  decide

theorem schemaVersion_column : (schemaAt 0).HasColumn "schema_version" "version" :=
  ⟨⟨"schema_version", ["version", "applied_at"], [["version"]]⟩, by decide⟩

theorem schemaAt_versionTable {m : Nat} (hm : m ≤ 24) :
    (schemaAt m).HasColumn "schema_version" "version" := by
  induction m with
  | zero => exact schemaVersion_column
  | succ m ih =>
    exact (ih (by omega)).reshapeAll (schemaVersion_kept m (by omega))
      (reshapeAll_migrationAt (by omega))

/-- A second run finds the table of versions there. -/
theorem runMigrations_again {d : Database} {m : Nat}
    (hc : d.db.schema.HasColumn "schema_version" "version") (hv : d.currentVersion = m)
    (hm : m ≤ 24) : runMigrations d = applyPending m m (MIGRATIONS.drop m) d := by
  obtain ⟨t, ht, -⟩ := hc
  have hdone : schemaVersion.Done d.db.schema := by
    exact Schema.named_of_table? ht
  have hall : MIGRATIONS.take 24 = MIGRATIONS := rfl
  have hfrom := applyPending_from hm (Nat.le_refl 24) d
  rw [hall] at hfrom
  unfold runMigrations
  rw [hdone.exec, hv]
  exact hfrom

/-! ### The start of a run -/

theorem AtVersion.rowsReady {k : Nat} {d : Database} (hd : AtVersion k d)
    (hc : k < 7 → d.db.rows "chunks" = []) : RowsReady k d.db.rows where
  chunks := hc
  maps hk := by
    rcases (schemaAt_checked hd.known).2.2.1 hk |>.2 with h | h
    · rw [hd.absent _ h]
      exact ⟨List.Pairwise.nil, List.Pairwise.nil⟩
    · exact ⟨hd.keys _ h ["id"] (by simp), hd.keys _ h ["exploration_id"] (by simp)⟩
  mapIds hk := by
    rcases (schemaAt_checked hd.known).2.2.1 hk |>.2 with h | h
    · rw [hd.absent _ h]
      intro x hx
      cases hx
    · exact hd.ids _ h (by simp)
  rebuilt hk := hd.absent _ ((schemaAt_checked hd.known).2.2.1 hk).1
  answers hk := by
    rcases (schemaAt_checked hd.known).2.2.2.1 hk with h | h
    · rw [hd.absent _ h]
      exact List.Pairwise.nil
    · exact hd.indexes _ h rfl
  nodes hk := by
    rcases (schemaAt_checked hd.known).2.2.2.2.1 hk with h | h
    · rw [hd.absent _ h]
      exact List.Pairwise.nil
    · exact hd.indexes _ h rfl

/-- The table of versions is made, or is there. -/
theorem AtVersion.opens {k : Nat} {d : Database} (hd : AtVersion k d) :
    ∃ db, schemaVersion.exec d.db = some db ∧ db.schema = schemaAt k ∧
      schemaVersion.carry d.db.schema d.db.rows = some db.rows := by
  obtain ⟨r, hr⟩ := Stmt.carry_isSome (x := schemaVersion) rfl d.db.schema d.db.rows
  exact ⟨⟨schemaAt k, r⟩, Stmt.exec_eq_some.mpr ⟨hd.schema, hr⟩, rfl, hr⟩

theorem opened_rows {s : Schema} {r r' : Rows} (h : schemaVersion.carry s r = some r')
    {table : String} (ht : table ≠ "schema_version") : r' table = r table := by
  rcases createTable_carry h with rfl | rfl
  · rfl
  · exact Function.update_of_ne ht ..

theorem AtVersion.ready {k : Nat} {d : Database} {db : Db} (hd : AtVersion k d)
    (hc : k < 7 → d.db.rows "chunks" = []) (hs : db.schema = schemaAt k)
    (hr : schemaVersion.carry d.db.schema d.db.rows = some db.rows) :
    Ready k { d with db := db } :=
  ⟨hs, (hd.rowsReady hc).carry (by decide) hr, hd.version⟩

theorem AtVersion.run {k : Nat} {d : Database} (hd : AtVersion k d)
    (hc : k < 7 → d.db.rows "chunks" = []) :
    ∃ d', runMigrations d = (d', .ok ()) ∧ Ready 24 d' := by
  obtain ⟨db, hdb, hs, hr⟩ := hd.opens
  have hk : k ≤ 24 := hd.known
  obtain ⟨d', hd', hready⟩ := (hd.ready hc hs hr).run (Nat.le_refl k) hk (Nat.le_refl 24)
  refine ⟨d', ?_, hready⟩
  have hfrom := applyPending_from hk (Nat.le_refl 24) { d with db := db }
  unfold runMigrations
  simp only [hdb, hd.version]
  exact hfrom.trans hd'

/-- The cut run has come through the scripts before `m` and has run `j` statements of that one. -/
theorem AtVersion.cut {k m j : Nat} {d d' : Database} (hd : AtVersion k d)
    (hc : k < 7 → d.db.rows "chunks" = []) (hkm : k ≤ m) (hm : m ≤ 24)
    (hcut : interrupted m j d = some d') :
    ∃ d₀, Ready m d₀ ∧ Reaches ((migrationAt m).take j) d₀.db d'.db ∧
      d'.currentVersion = m := by
  obtain ⟨db, hdb, hs, hr⟩ := hd.opens
  obtain ⟨d₀, hd₀, hready⟩ := (hd.ready hc hs hr).run (Nat.le_refl k) hkm hm
  have hfrom := applyPending_from hkm hm { d with db := db }
  unfold interrupted at hcut
  simp only [hdb, hd.version, hfrom, hd₀] at hcut
  split at hcut
  · cases hcut
  · next e he =>
    cases hcut
    exact ⟨d₀, hready, he, hready.version⟩

/-! ### The second run -/

theorem schema_of_cut {m j : Nat} {d₀ : Database} {db : Db} (h : Ready m d₀)
    (hcut : Reaches ((migrationAt m).take j) d₀.db db) :
    reshapeAll ((migrationAt m).take j) (schemaAt m) = some db.schema := by
  rw [← h.schema]
  exact hcut.reshapeAll

theorem versionTable_of_cut {m j : Nat} {d₀ : Database} {db : Db} (hm : m ≤ 24) (h : Ready m d₀)
    (hcut : Reaches ((migrationAt m).take j) d₀.db db) :
    db.schema.HasColumn "schema_version" "version" := by
  by_cases hlt : m < 24
  · exact (schemaAt_versionTable hm).reshapeAll
      (fun x hx => schemaVersion_kept m hlt x (List.mem_of_mem_take hx)) (schema_of_cut h hcut)
  · have hm : m = 24 := by omega
    subst hm
    have hnil : (migrationAt 24).take j = [] := List.take_nil
    rw [hnil] at hcut
    rw [reaches_nil.mp hcut, h.schema]
    exact schemaAt_versionTable (Nat.le_refl 24)

/-- A script either guards every statement or begins with an `ADD COLUMN`; the rebuild does
neither. -/
theorem script_kinds : ∀ m < 24, m ≠ 14 → Replayable (migrationAt m) ∨
    ((migrationAt m).head?.any fun | .addColumn _ _ _ => true | _ => false) = true := by
  decide

/-- Without an added column, what has run of a script can run again. -/
theorem replayable_of_resumable {m j : Nat} {rows : Rows} (hm : m < 24) (h14 : m ≠ 14)
    (h : Resumable ((migrationAt m).take j) rows) : Replayable ((migrationAt m).take j) := by
  rcases script_kinds m hm h14 with hr | hhead
  · exact hr.take j
  · cases hb : migrationAt m with
    | nil => exact ⟨by simp, by simp⟩
    | cons x b =>
      cases j with
      | zero => exact ⟨by simp, by simp⟩
      | succ j =>
        rw [hb] at hhead h
        cases x with
        | addColumn t c v => exact absurd (by simp) (h.columns t c v)
        | createTable => cases hhead
        | createView => cases hhead
        | createIndex => cases hhead
        | createTrigger => cases hhead
        | backfill => cases hhead
        | copyRows => cases hhead
        | dropTable => cases hhead
        | renameTable => cases hhead
        | dropIndex => cases hhead

theorem take_review (j : Nat) : ∃ i < 10, (migrationAt 14).take j = (migrationAt 14).take i := by
  by_cases hj : j < 10
  · exact ⟨j, hj, rfl⟩
  · refine ⟨9, by decide, ?_⟩
    have hlen : (migrationAt 14).length = 9 := rfl
    rw [List.take_of_length_le (by omega), List.take_of_length_le (by omega)]

/-- The rows at a cut of the rebuild that a second run gets over. -/
theorem review_rows {j : Nat} {d₀ : Database} {db : Db} (h : Ready 14 d₀)
    (hcut : Reaches ((migrationAt 14).take j) d₀.db db) (hj : j < 10) (h3 : j ≠ 3)
    (hres : Resumable ((migrationAt 14).take j) db.rows) : RowsReady 14 db.rows := by
  by_cases h1 : j ≤ 1
  · refine rowsReady_of_reaches hcut (fun x hx => ?_) h.rows
    have hx : x ∈ (migrationAt 14).take 1 :=
      List.mem_of_mem_take (List.take_take .. ▸ (Nat.min_eq_left h1).symm ▸ hx)
    rw [List.mem_singleton.mp hx]
    decide
  · by_cases h2 : j = 2
    · subst h2
      -- nothing was there to copy
      have htake : (migrationAt 14).take 2 = [.createTable explorationsNew,
          .copyRows "explorations_new" "explorations" explorationsColumns] := rfl
      rw [htake] at hcut hres
      obtain ⟨e, he, hr⟩ := reaches_cons.mp hcut
      obtain ⟨f, hf, hr⟩ := reaches_cons.mp hr
      have hf' : db = f := reaches_nil.mp hr
      subst hf'
      have hready := h.rows.carry (by decide) (Stmt.exec_eq_some.mp he).2
      have hrows := copyRows_carry (Stmt.exec_eq_some.mp hf).2
      have hnone : db.rows "explorations" = [] := 
        hres.copied "explorations_new" "explorations" explorationsColumns (by simp) (by decide)
      have hsource : e.rows "explorations" = [] := by
        rw [hrows, Function.update_of_ne (by decide)] at hnone
        exact hnone
      rw [hsource, List.map_nil, List.append_nil, Function.update_eq_self] at hrows
      rw [hrows]
      exact hready
    · have hsplit : (migrationAt 14).take j
          = rebuild ++ ((migrationAt 14).drop 4).take (j - 4) := by
        have hb : migrationAt 14 = rebuild ++ (migrationAt 14).drop 4 := rfl
        have hlen : rebuild.length = 4 := rfl
        conv_lhs => rw [hb]
        rw [List.take_append, List.take_of_length_le (by omega), hlen]
      rw [hsplit] at hcut
      obtain ⟨e, he, hr⟩ := reaches_append.mp hcut
      have hs : reshapeAll rebuild d₀.db.schema = some e.schema := he.reshapeAll
      obtain ⟨f, hf, -, hready, -⟩ := rebuild_step hs (h.schema ▸ rebuildsInto_schemaAt) h.rows
      rw [← he.unique hf] at hready
      have hrest : ∀ x ∈ (migrationAt 14).drop 4, keepsKeys x = true := by decide
      exact rowsReady_of_reaches hr (fun x hx => hrest x (List.mem_of_mem_take hx)) hready

/-- From a cut that it gets over, the second run finishes the script. -/
theorem resumes {m j : Nat} {d₀ : Database} {db : Db} (hm : m < 24) (h : Ready m d₀)
    (hcut : Reaches ((migrationAt m).take j) d₀.db db)
    (hres : Resumable ((migrationAt m).take j) db.rows) :
    ∃ db', Reaches (migrationAt m) db db' ∧ db'.schema = schemaAt (m + 1) ∧
      RowsReady (m + 1) db'.rows := by
  by_cases h14 : m = 14
  · subst h14
    obtain ⟨i, hi, htake⟩ := take_review j
    rw [htake] at hcut hres
    have h3 : i ≠ 3 := by
      rintro rfl
      obtain ⟨t, ht⟩ := hres.dropped "explorations" (by decide)
      revert ht
      simp [migrationAt, MIGRATIONS, migration020AddExplorationReview]
    obtain ⟨hinto, hs⟩ := reviewRestarts_cut (review_facts.1 i hi h3) (schema_of_cut h hcut)
    exact script_step hm (hs.trans (reshapeAll_migrationAt hm)) (fun _ => hinto)
      (review_rows h hcut hi h3 hres)
  · obtain ⟨db', d', hwhole, -, hready⟩ := h.script hm
    obtain ⟨e, he, hs, hr⟩ := script_step hm (h.schema ▸ reshapeAll_migrationAt hm)
      (fun h => absurd h h14) h.rows
    have hparts : migrationAt m = (migrationAt m).take j ++ (migrationAt m).drop j :=
      (List.take_append_drop ..).symm
    rw [hparts] at he
    have hagain := Reaches.restart (replayable_of_resumable hm h14 hres) hcut he
    rw [← hparts] at hagain
    exact ⟨e, hagain, hs, hr⟩

/-! ### The cuts that stop it -/

theorem rebuilds_only_there : ∀ m < 24, m ≠ 14 → ∀ x ∈ migrationAt m,
    (match x with | .copyRows _ _ _ | .dropTable _ | .renameTable _ _ => false | _ => true)
      = true := by
  decide

theorem review_adds_nothing : ∀ x ∈ migrationAt 14,
    (match x with | .addColumn _ _ _ => false | _ => true) = true := by
  decide

/-- The second copy meets the row ids of the first. -/
theorem copied_of_reaches {d₀ : Database} {db db' : Db} (h : Ready 14 d₀)
    (hcut : Reaches ((migrationAt 14).take 2) d₀.db db) (hagain : Reaches (migrationAt 14) db db') :
    db.rows "explorations" = [] := by
  obtain ⟨hnamed, htable⟩ := copiedBeside_cut review_facts.2.1 (schema_of_cut h hcut)
  have htake : (migrationAt 14).take 2 = [.createTable explorationsNew,
      .copyRows "explorations_new" "explorations" explorationsColumns] := rfl
  rw [htake] at hcut
  obtain ⟨e, he, hr⟩ := reaches_cons.mp hcut
  obtain ⟨f, hf, hr⟩ := reaches_cons.mp hr
  have hf' : db = f := reaches_nil.mp hr
  subst hf'
  have hready := h.rows.carry (by decide) (Stmt.exec_eq_some.mp he).2
  have hrows := copyRows_carry (Stmt.exec_eq_some.mp hf).2
  have htable' : e.schema.table? "explorations_new" = some explorationsNew := by
    have hsame : db.schema = e.schema := by
      have hs := (Stmt.exec_eq_some.mp hf).1
      simp only [Stmt.reshape] at hs
      split at hs
      · split at hs
        · exact (Option.some.inj hs).symm
        · cases hs
      · cases hs
    exact hsame ▸ htable
  rw [htable', hready.rebuilt (by omega), List.nil_append] at hrows
  have hsource : db.rows "explorations" = e.rows "explorations" := by
    rw [hrows]
    exact Function.update_of_ne (by decide) ..
  have hcopied : db.rows "explorations_new"
      = (db.rows "explorations").map (pick explorationsColumns explorationsColumns) := by
    rw [hsource, hrows]
    exact Function.update_self ..
  -- the table is there, so the second run copies into the rows of the first
  have hdone : (Stmt.createTable explorationsNew).Done db.schema := hnamed
  have hb : migrationAt 14 = .createTable explorationsNew ::
      .copyRows "explorations_new" "explorations" explorationsColumns ::
        (migrationAt 14).drop 2 := rfl
  rw [hb] at hagain
  obtain ⟨g, hg, hr⟩ := reaches_cons.mp hagain
  have hg : db = g := Option.some.inj (hdone.exec.symm.trans hg)
  subst hg
  obtain ⟨g, hg, -⟩ := reaches_cons.mp hr
  have hcarry := (Stmt.exec_eq_some.mp hg).2
  simp only [Stmt.carry, htable, Option.map_some, Option.getD_some, hcopied] at hcarry
  split at hcarry
  · next hkeys =>
    have hid : Distinct ["id"] _ := hkeys.1 ["id"] (by simp [explorationsNew])
    have happend := (List.pairwise_append.mp hid).2.2
    by_contra hne
    obtain ⟨x, hx⟩ := List.exists_mem_of_ne_nil _ hne
    have hmem := List.mem_map_of_mem (f := pick explorationsColumns explorationsColumns) hx
    have hnull : x "id" ≠ none := hready.mapIds (by omega) x (hsource ▸ hx)
    apply happend _ hmem _ hmem
    intro c hc
    rw [List.mem_singleton.mp hc, pick_self (by decide)]
    exact ⟨rfl, hnull⟩
  · cases hcarry

/-- A second run that finishes the script started from a cut of the good kind. -/
theorem resumable_of_reaches {m j : Nat} {d₀ : Database} {db db' : Db} (hm : m < 24)
    (h : Ready m d₀) (hcut : Reaches ((migrationAt m).take j) d₀.db db)
    (hagain : Reaches (migrationAt m) db db') : Resumable ((migrationAt m).take j) db.rows := by
  by_cases h14 : m = 14
  · subst h14
    obtain ⟨i, hi, htake⟩ := take_review j
    rw [htake] at hcut ⊢
    have h3 : i ≠ 3 := by
      rintro rfl
      have hnone := droppedStops_cut review_facts.2.2 (schema_of_cut h hcut)
      rw [hagain.reshapeAll] at hnone
      cases hnone
    refine ⟨fun t c v hmem => ?_, fun t u cs hmem hkept => ?_, fun u hmem => ?_⟩
    · have := review_adds_nothing _ (List.mem_of_mem_take hmem)
      cases this
    · have hu : u = "explorations" := by
        have hall := List.mem_of_mem_take hmem
        simp [migrationAt, MIGRATIONS, migration020AddExplorationReview] at hall
        exact hall.2.1
      subst hu
      have h2 : i = 2 := by
        by_contra h2
        interval_cases i <;> revert hmem hkept <;>
          simp [migrationAt, MIGRATIONS, migration020AddExplorationReview] at h2 h3 ⊢
      subst h2
      exact copied_of_reaches h hcut hagain
    · have hu : u = "explorations" := by
        have hall := List.mem_of_mem_take hmem
        simpa [migrationAt, MIGRATIONS, migration020AddExplorationReview] using hall
      subst hu
      refine ⟨"explorations_new", ?_⟩
      interval_cases i <;> revert hmem <;>
        simp [migrationAt, MIGRATIONS, migration020AddExplorationReview] at h3 ⊢
  · refine ⟨fun t c v hmem => ?_, fun t u cs hmem _ => ?_, fun u hmem => ?_⟩
    · have hparts : migrationAt m = (migrationAt m).take j ++ (migrationAt m).drop j :=
        (List.take_append_drop ..).symm
      rw [hparts] at hagain
      refine hcut.stuck hmem (fun x hx => ?_) db' hagain
      have hx := rebuilds_only_there m hm h14 x (List.mem_of_mem_take hx)
      cases x <;> first | rfl | cases hx
    · have := rebuilds_only_there m hm h14 _ (List.mem_of_mem_take hmem)
      cases this
    · have := rebuilds_only_there m hm h14 _ (List.mem_of_mem_take hmem)
      cases this

/-- A table of chunks with rows, which the expression default of `010` does not go into. -/
def Populated (d : Db) : Prop := d.schema.HasColumn "chunks" "id" ∧ d.rows "chunks" ≠ []

theorem chunks_kept : ∀ m < 24, ∀ x ∈ migrationAt m,
    x.removes "chunks" = false ∧ x.feeds "chunks" = false := by
  decide

theorem Populated.exec {d d' : Db} {x : Stmt} (h : Populated d)
    (hx : x.removes "chunks" = false ∧ x.feeds "chunks" = false) (he : x.exec d = some d') :
    Populated d' := by
  obtain ⟨hs, hr⟩ := Stmt.exec_eq_some.mp he
  refine ⟨h.1.reshape hx.1 hs, Stmt.carry_populated hx.2 hx.1 ?_ hr h.2⟩
  obtain ⟨t, ht, -⟩ := h.1
  exact Schema.named_of_table? ht

theorem Populated.reaches {m j : Nat} {d d' : Db} (h : Populated d) (hm : m < 24)
    (hb : Reaches ((migrationAt m).take j) d d') : Populated d' :=
  hb.keeps (fun x hx _ _ hd he => hd.exec (chunks_kept m hm x (List.mem_of_mem_take hx)) he) h

/-- No run gets past `010` with chunks in the table. -/
theorem Populated.fails {v i n : Nat} {d : Database} (h : Populated d.db) (hv : v ≤ i)
    (hi : i ≤ 6) (hn : 6 < n) (hn' : n ≤ 24) :
    (applyPending v i ((MIGRATIONS.take n).drop i) d).2 ≠ .ok () := by
  intro hok
  induction hk : 6 - i generalizing i d with
  | zero =>
    have hi : i = 6 := by omega
    subst hi
    rw [drop_take_cons hn hn'] at hok
    obtain ⟨db, d', hb, -, -⟩ := reaches_of_applyPending hv hok
    have hmig : migrationAt 6 = .addColumn "chunks" "last_accessed_at" .expression ::
        (migrationAt 6).drop 1 := rfl
    rw [hmig] at hb
    obtain ⟨e, he, -⟩ := reaches_cons.mp hb
    have hcarry := (Stmt.exec_eq_some.mp he).2
    simp only [Stmt.carry, true_and] at hcarry
    rw [if_pos h.2] at hcarry
    cases hcarry
  | succ k ih =>
    rw [drop_take_cons (by omega) hn'] at hok
    obtain ⟨db, d', hb, hd', hok⟩ := reaches_of_applyPending hv hok
    have hwhole : (migrationAt i).take (migrationAt i).length = migrationAt i := List.take_length ..
    have hp : Populated db := h.reaches (by omega) (hwhole.symm ▸ hb)
    have hdb : d'.db = db := by
      unfold recordVersion at hd'
      split at hd'
      · cases hd'
      · cases hd'; rfl
    exact ih (hdb.symm ▸ hp) (by omega) (by omega) hok (by omega)

theorem Populated.run {v i n : Nat} {d e : Database} (h : Populated d.db)
    (hver : d.currentVersion = i) (hv : v ≤ i) (hin : i ≤ n) (hn : n ≤ 24)
    (hrun : applyPending v i ((MIGRATIONS.take n).drop i) d = (e, .ok ())) :
    Populated e.db ∧ e.currentVersion = n := by
  induction hk : n - i generalizing i d with
  | zero =>
    have hin : i = n := by omega
    subst hin
    have hnil : (MIGRATIONS.take i).drop i = [] := by
      apply List.drop_eq_nil_of_le
      rw [List.length_take]
      omega
    rw [hnil] at hrun
    have he : d = e := (Prod.ext_iff.mp hrun).1
    exact ⟨he ▸ h, he ▸ hver⟩
  | succ k ih =>
    rw [drop_take_cons (by omega) hn] at hrun
    have hok : (applyPending v i (migrationAt i :: (MIGRATIONS.take n).drop (i + 1)) d).2
        = .ok () := congrArg Prod.snd hrun
    obtain ⟨db, d', hb, hd', -⟩ := reaches_of_applyPending hv hok
    rw [applyPending_cons hv hb hd'] at hrun
    have hwhole : (migrationAt i).take (migrationAt i).length = migrationAt i := List.take_length ..
    have hp : Populated db := h.reaches (by omega) (hwhole.symm ▸ hb)
    obtain ⟨d'', hd'', hdb, hver'⟩ := recordVersion_next (d := { d with db := db }) hver
    have hsame : d'' = d' := Option.some.inj (hd''.symm.trans hd')
    subst hsame
    exact ih (hdb.symm ▸ hp) hver' (by omega) (by omega) hrun (by omega)

theorem Populated.never {d : Database} (h : Populated d.db) (hv : d.currentVersion ≤ 6) :
    (runMigrations d).2 ≠ .ok () := by
  unfold runMigrations
  cases hx : schemaVersion.exec d.db with
  | none => intro hok; cases hok
  | some db =>
    have hp : Populated db := h.exec (by decide) hx
    have hfrom := applyPending_from (v := d.currentVersion) (by omega) (Nat.le_refl 24)
      { d with db := db }
    have hall : MIGRATIONS.take 24 = MIGRATIONS := rfl
    rw [hall] at hfrom
    simp only [hfrom]
    exact Populated.fails (n := 24) (d := { d with db := db }) hp (Nat.le_refl _) hv (by decide)
      (Nat.le_refl 24)

theorem AtVersion.populated {k : Nat} {d : Database} {db : Db} (hd : AtVersion k d) (hk : k < 7)
    (hc : d.db.rows "chunks" ≠ []) (hs : db.schema = schemaAt k)
    (hr : schemaVersion.carry d.db.schema d.db.rows = some db.rows) : Populated db := by
  have hrows : db.rows "chunks" = d.db.rows "chunks" := opened_rows hr (by decide)
  refine ⟨?_, hrows.symm ▸ hc⟩
  have hid := (schemaAt_checked hd.known).2.1 hk
  rw [hs]
  cases ht : (schemaAt k).table? "chunks" with
  | none => exact absurd (hd.absent _ ht) hc
  | some t =>
    rw [ht] at hid
    exact ⟨t, ht, by simpa using hid⟩

/-- With chunks there before `010`, no run comes through. -/
theorem AtVersion.stuck {k : Nat} {d : Database} (hd : AtVersion k d) (hk : k < 7)
    (hc : d.db.rows "chunks" ≠ []) : (runMigrations d).2 ≠ .ok () := by
  obtain ⟨db, hdb, hs, hr⟩ := hd.opens
  have hp : Populated db := hd.populated hk hc hs hr
  have hk24 : k ≤ 24 := hd.known
  have hfrom := applyPending_from hk24 (Nat.le_refl 24) { d with db := db }
  have hall : MIGRATIONS.take 24 = MIGRATIONS := rfl
  rw [hall] at hfrom
  unfold runMigrations
  simp only [hdb, hd.version, hfrom]
  exact Populated.fails (n := 24) (d := { d with db := db }) hp (Nat.le_refl k) (by omega)
    (by decide) (Nat.le_refl 24)

/-- With chunks there before `010`, no cut of a run has a second run that comes through. -/
theorem populated_cut {k m j : Nat} {d d' : Database} (hd : AtVersion k d) (hk : k < 7)
    (hc : d.db.rows "chunks" ≠ []) (hkm : k ≤ m) (hm : m ≤ 24)
    (hcut : interrupted m j d = some d') : (runMigrations d').2 ≠ .ok () := by
  obtain ⟨db, hdb, hs, hr⟩ := hd.opens
  have hp : Populated db := hd.populated hk hc hs hr
  have hfrom := applyPending_from hkm hm { d with db := db }
  unfold interrupted at hcut
  simp only [hdb, hd.version, hfrom] at hcut
  split at hcut
  · cases hcut
  · next e u hrun =>
    by_cases h6 : 6 < m
    · exact absurd (congrArg Prod.snd hrun) (Populated.fails (d := { d with db := db }) hp
        (Nat.le_refl k) (by omega) h6 hm)
    · obtain ⟨hpe, hve⟩ := Populated.run (d := { d with db := db }) hp hd.version (Nat.le_refl k)
        hkm hm hrun
      split at hcut
      · cases hcut
      · next db' hb =>
        cases hcut
        have hp' : Populated db' := hpe.reaches (by omega) hb
        have hve' : ({ e with db := db' } : Database).currentVersion = m := hve
        exact Populated.never (d := { e with db := db' }) hp' (by omega)

/-- A run of the migrations that is cut, at any statement or before a version is recorded, can be
run again, and ends at the version of the run that is not cut, exactly where the part of the
script that has run is `Resumable`; a file from before `010` must have no chunks, or no run at
all gets past that script. -/
theorem migrations_restart {k m j : Nat} {d d' : Database} (hd : AtVersion k d) (hkm : k ≤ m)
    (hm : m ≤ MIGRATIONS.length) (hcut : interrupted m j d = some d') :
    RestartsSafely d d' ↔
      (k < 7 → d.db.rows "chunks" = []) ∧ Resumable ((migrationAt m).take j) d'.db.rows := by
  by_cases hc : k < 7 → d.db.rows "chunks" = []
  · obtain ⟨d₀, hready, hran, hver⟩ := hd.cut hc hkm hm hcut
    obtain ⟨e, he, hend⟩ := hd.run hc
    have htable := versionTable_of_cut hm hready hran
    have hagain := runMigrations_again htable hver hm
    unfold RestartsSafely
    rw [he, hagain, hend.version]
    by_cases hlt : m < 24
    · have hcons : MIGRATIONS.drop m = migrationAt m :: MIGRATIONS.drop (m + 1) :=
        drop_take_cons hlt (Nat.le_refl 24)
      rw [hcons]
      constructor
      · rintro ⟨hok, -⟩
        obtain ⟨db, d'', hb, -, -⟩ := reaches_of_applyPending (Nat.le_refl m) hok
        exact ⟨hc, resumable_of_reaches hlt hready hran hb⟩
      · rintro ⟨-, hres⟩
        obtain ⟨db, hb, hs, hr⟩ := resumes hlt hready hran hres
        obtain ⟨d'', hd'', hdb, hver'⟩ := recordVersion_next (d := { d' with db := db }) hver
        have hnext : Ready (m + 1) d'' := ⟨hdb ▸ hs, hdb ▸ hr, hver'⟩
        obtain ⟨f, hf, hlast⟩ := hnext.run (v := m) (by omega) (by omega) (Nat.le_refl 24)
        have hf : applyPending m (m + 1) (MIGRATIONS.drop (m + 1)) d'' = (f, .ok ()) := hf
        rw [applyPending_cons (Nat.le_refl m) hb hd'', hf]
        exact ⟨rfl, hlast.version⟩
    · have hm24 : m = 24 := by
        have : m ≤ 24 := hm
        omega
      subst hm24
      have hnil : (migrationAt 24).take j = [] := List.take_nil
      rw [hnil]
      constructor
      · intro _
        exact ⟨hc, ⟨by simp, by simp, by simp⟩⟩
      · intro _
        exact ⟨rfl, hver⟩
  · have hk : k < 7 := by
      by_contra hk
      exact hc fun h => absurd h hk
    have hrows : d.db.rows "chunks" ≠ [] := fun h => hc fun _ => h
    constructor
    · intro hsafe
      exact absurd hsafe.1 (populated_cut hd hk hrows hkm hm hcut)
    · rintro ⟨h, -⟩
      exact absurd h hc

/-- A file that has never been opened. -/
def newFile : Database := ⟨⟨Schema.empty, fun _ => []⟩, []⟩

theorem newFile_atVersion : AtVersion 0 newFile where
  known := Nat.zero_le _
  version := rfl
  schema := by decide
  absent _ _ := rfl
  keys _ _ _ _ := List.Pairwise.nil
  ids _ _ _ r hr := by cases hr
  indexes i _ := by
    intro _
    have hnil : i.covered [] = [] := by
      unfold IndexDef.covered
      split <;> rfl
    exact hnil.symm ▸ List.Pairwise.nil

/-- After three tables of the first script, the second run goes over them. -/
theorem migrations_restart_tables :
    ∃ d', interrupted 0 3 newFile = some d' ∧ RestartsSafely newFile d' := by
  have hsome : (interrupted 0 3 newFile).isSome = true := by decide +kernel
  obtain ⟨d', hcut⟩ := Option.isSome_iff_exists.mp hsome
  refine ⟨d', hcut, (migrations_restart newFile_atVersion (Nat.le_refl 0) (Nat.zero_le _)
    hcut).mpr ⟨fun _ => rfl, ?_⟩⟩
  constructor <;> simp [migrationAt, MIGRATIONS, migration001Initial]

/-- A new file whose first run stops right after the `ADD COLUMN` of `010` cannot be opened
again: the column is there and the version is not. -/
theorem migrations_restart_column : ¬ ∀ k m j d d', AtVersion k d → k ≤ m →
    interrupted m j d = some d' → RestartsSafely d d' := by
  intro hall
  have hfail : (interrupted 6 1 newFile).map (fun d => (runMigrations d).2)
      = some (.error "failed to apply migration 7") := by decide +kernel
  obtain ⟨d', hcut, hrun⟩ := Option.map_eq_some_iff.mp hfail
  have hsafe := hall 0 6 1 newFile d' newFile_atVersion (Nat.zero_le 6) hcut
  rw [hsafe.1] at hrun
  cases hrun

end Arags
