import Arags.Schema.MigrationData

/-!
# Arags.Schema.DeleteBuffer

Deleting a project: `delete_buffer` of `sqlite/buffers.rs` under `forget` of the memory engine, on
the tables of a file at the latest version.

* `deleteBuffer`, `forget`, `ensureProject` — the code.
* `TIES`, `BelongsTo` — what belongs to a project: a row of another table names its row, by a
  declared key or by a column that serves as one.
* `Deleted`        — what deleting a project should come to.
* `buffer_deleted` — it does where the tables that the code lists hold all of the project.
-/

namespace Arags

open Sql

/-! ## The code -/

/-- `column = ?1`. -/
def ofBuffer (column id : String) (r : Cells) : Bool := r column == some id

/-- `column IN (SELECT id FROM chunks WHERE buffer_id = ?1)`. -/
def ofChunks (column id : String) (rows : Rows) (r : Cells) : Bool :=
  r column != none &&
    ((rows "chunks").filter (ofBuffer "buffer_id" id)).any fun c => c "id" == r column

theorem ofBuffer_iff {column id : String} {r : Cells} :
    ofBuffer column id r = true ↔ r column = some id := beq_iff_eq

theorem ofChunks_iff {column id : String} {rows : Rows} {r : Cells} :
    ofChunks column id rows r = true ↔ r column ≠ none ∧
      ∃ c ∈ rows "chunks", c "buffer_id" = some id ∧ c "id" = r column := by
  unfold ofChunks
  simp only [Bool.and_eq_true, bne_iff_ne, List.any_filter, List.any_eq_true, ofBuffer_iff,
    beq_iff_eq]

/-- The statements of the transaction. -/
def deleteRows (id : String) (rows : Rows) : Option Rows := do
  let rows ← deleteWhere FOREIGN_KEYS "chunks_fts" (ofChunks "rowid" id rows) rows
  let rows ← deleteWhere FOREIGN_KEYS "chunk_entities" (ofChunks "chunk_id" id rows) rows
  let rows ← deleteWhere FOREIGN_KEYS "chunk_texts" (ofChunks "chunk_id" id rows) rows
  let rows ← deleteWhere FOREIGN_KEYS "chunks" (ofBuffer "buffer_id" id) rows
  deleteWhere FOREIGN_KEYS "buffers" (ofBuffer "id" id) rows

/-- A statement that fails takes the transaction back. -/
def deleteBuffer (id : String) (d : Database) : Database × Except String Unit :=
  match deleteRows id d.db.rows with
  | none => (d, .error "FOREIGN KEY constraint failed")
  | some rows => ({ d with db := { d.db with rows := rows } }, .ok ())

/-- `ProjectMemory::forget`. -/
def forget (name : String) (d : Database) : Database × Except String Unit :=
  match (d.db.rows "buffers").find? (ofBuffer "name" name) with
  | none => (d, .error "project not found")
  | some b =>
    match b "id" with
    | none => (d, .error "failed to find project")
    | some id =>
      let (d, result) := deleteBuffer id d
      (d, result.mapError fun _ => "failed to delete project")

/-- The row that `ensure_project` inserts; `new` is the next id and `now` the time. -/
def projectRow (new now uuid name path : String) : Cells := fun column =>
  [ ("id", new), ("name", name), ("path", path), ("uuid", uuid), ("total_chunks", "0"),
    ("total_files", "0"), ("created_at", now) ].lookup column

/-- `ensure_project`: `INSERT OR IGNORE`, and the id is read back by the name. -/
def ensureProjectRow (new now uuid name path : String) (rows : Rows) : Rows × Option String :=
  let taken := (rows "buffers").any fun r => ofBuffer "name" name r || ofBuffer "uuid" uuid r
  let rows := if taken then rows else
    Function.update rows "buffers" (rows "buffers" ++ [projectRow new now uuid name path])
  (rows, ((rows "buffers").find? (ofBuffer "name" name)).bind fun r => r "id")

/-! ## What belongs to a project -/

/-- The column names a row of the other table. -/
structure Tie where
  table : String
  column : String
  parent : String
  key : String
deriving DecidableEq

def Tie.ofKey (k : ForeignKey) : Tie := ⟨k.table, k.column, k.parent, k.key⟩

/-- The declared keys, then the columns that hold a buffer, a project, or a row of another table.
A row of `entities_fts` is an entity and says nothing of where it came from. -/
def TIES : List Tie :=
  FOREIGN_KEYS.map Tie.ofKey ++
  (["tasks", "qa_cache", "rlm_nodes", "rlm_jobs", "explorations", "exploration_files"].map
    fun table => ⟨table, "buffer_id", "buffers", "id"⟩) ++
  (["result_cache", "runs", "qa_cache", "rlm_nodes", "rlm_jobs", "explorations", "project_epochs",
    "pending_qa_jobs", "submissions", "audit_log"].map
    fun table => ⟨table, "project", "buffers", "name"⟩) ++
  [ ⟨"trajectories", "project_name", "buffers", "name"⟩,
    ⟨"chunks_fts", "rowid", "chunks", "id"⟩,
    ⟨"qa_cache_fts", "rowid", "qa_cache", "id"⟩,
    ⟨"rlm_fts", "rowid", "rlm_nodes", "id"⟩,
    ⟨"explorations_fts", "rowid", "explorations", "id"⟩,
    ⟨"pending_qa_jobs", "cache_id", "qa_cache", "cache_id"⟩,
    ⟨"rlm_job_exclusions", "generation_group_id", "rlm_jobs", "generation_group_id"⟩,
    ⟨"events", "run_id", "runs", "id"⟩]

/-- The row of the project itself, and each row that names one of the project's rows. -/
inductive BelongsTo (rows : Rows) (b : Cells) : String → Cells → Prop
  | self : BelongsTo rows b "buffers" b
  | tied {t : Tie} {p r : Cells} (ht : t ∈ TIES) (hp : p ∈ rows t.parent)
      (hb : BelongsTo rows b t.parent p) (hne : r t.column ≠ none)
      (he : p t.key = r t.column) : BelongsTo rows b t.table r

open Classical in
/-- The rows of a table that do not belong to the project. -/
noncomputable def rowsOfOthers (before : Rows) (b : Cells) (table : String) (l : List Cells) :
    List Cells := l.filter fun r => ¬ BelongsTo before b table r

/-- `delete_buffer` succeeds, nothing of the project is left and everything else is, and a project
that is created under the name later finds no answers, summaries or maps there. -/
structure Deleted (d : Database) (id : String) (b : Cells) : Prop where
  done : (deleteBuffer id d).2 = .ok ()
  gone : ∀ table, ∀ r ∈ (deleteBuffer id d).1.db.rows table, ¬ BelongsTo d.db.rows b table r
  others : ∀ table, rowsOfOthers d.db.rows b table ((deleteBuffer id d).1.db.rows table) =
    rowsOfOthers d.db.rows b table (d.db.rows table)
  fresh : ∀ name, b "name" = some name → ∀ new now uuid path,
    ∀ table ∈ ["qa_cache", "rlm_nodes", "explorations"],
    ∀ r ∈ (ensureProjectRow new now uuid name path (deleteBuffer id d).1.db.rows).1 table,
      r "project" ≠ some name

/-- The tables that `delete_buffer` lists, and the edges that follow their chunks. -/
def DELETED : List String :=
  ["chunks_fts", "chunk_entities", "chunk_texts", "chunks", "buffers", "rlm_edges"]

/-- No other table holds a row of the project. -/
def OnlyListed (d : Database) (b : Cells) : Prop :=
  ∀ table, table ∉ DELETED → ∀ r ∈ d.db.rows table, ¬ BelongsTo d.db.rows b table r

/-! ## What the transaction leaves -/

section Transaction

variable {rows : Rows} {b r : Cells} {id table : String}

/-- After the first three statements. -/
def withoutTexts (id : String) (rows : Rows) : Rows :=
  afterDelete FOREIGN_KEYS "chunk_texts" (ofChunks "chunk_id" id rows)
    (afterDelete FOREIGN_KEYS "chunk_entities" (ofChunks "chunk_id" id rows)
      (afterDelete FOREIGN_KEYS "chunks_fts" (ofChunks "rowid" id rows) rows))

def withoutChunks (id : String) (rows : Rows) : Rows :=
  afterDelete FOREIGN_KEYS "chunks" (ofBuffer "buffer_id" id) (withoutTexts id rows)

def withoutBuffer (id : String) (rows : Rows) : Rows :=
  afterDelete FOREIGN_KEYS "buffers" (ofBuffer "id" id) (withoutChunks id rows)

theorem flat_keys : Flat FOREIGN_KEYS "chunks" ∧ Flat FOREIGN_KEYS "buffers" := by decide

theorem texts_unreferenced : ∀ k ∈ FOREIGN_KEYS, k.parent ≠ "chunks_fts" ∧
    k.parent ≠ "chunk_entities" ∧ k.parent ≠ "chunk_texts" := by
  decide

theorem buffers_never_cascade : ∀ k ∈ FOREIGN_KEYS, k.parent = "buffers" →
    k.onDelete ≠ .cascade := by
  decide

theorem chunks_cascade : ∀ k ∈ FOREIGN_KEYS, k.parent = "chunks" → k.onDelete = .cascade →
    k.column = "chunk_id" ∧ k.key = "id" ∧
      (k.table = "chunk_entities" ∨ k.table = "rlm_edges") := by
  decide

theorem edge_key : ⟨"rlm_edges", "chunk_id", "chunks", "id", .cascade⟩ ∈ FOREIGN_KEYS := by decide

/-- No row follows the rows of a table that no key refers to. -/
theorem spared_of_unreferenced {gone : List Cells} {t : String}
    (h : ∀ k ∈ FOREIGN_KEYS, k.parent ≠ table) : Spared FOREIGN_KEYS table gone t r :=
  fun k hk hp => absurd hp (h k hk)

theorem mem_withoutTexts : r ∈ withoutTexts id rows table ↔ r ∈ rows table ∧
    ¬ (table = "chunks_fts" ∧ ofChunks "rowid" id rows r = true) ∧
    ¬ (table = "chunk_entities" ∧ ofChunks "chunk_id" id rows r = true) ∧
    ¬ (table = "chunk_texts" ∧ ofChunks "chunk_id" id rows r = true) := by
  have hfts := fun k hk => (texts_unreferenced k hk).1
  have hentities := fun k hk => (texts_unreferenced k hk).2.1
  have htexts := fun k hk => (texts_unreferenced k hk).2.2
  unfold withoutTexts
  rw [mem_afterDelete, mem_afterDelete, mem_afterDelete,
    and_iff_left (spared_of_unreferenced hfts), and_iff_left (spared_of_unreferenced hentities),
    and_iff_left (spared_of_unreferenced htexts), and_assoc, and_assoc]

theorem chunks_afterDelete {t : String} {p : Cells → Bool} (hne : "chunks" ≠ t)
    (h : ∀ k ∈ FOREIGN_KEYS, k.parent ≠ t) :
    afterDelete FOREIGN_KEYS t p rows "chunks" = rows "chunks" :=
  afterDelete_of_ne hne fun k hk hp => absurd hp (h k hk)

theorem ofChunks_congr {rows' : Rows} (column : String) (h : rows' "chunks" = rows "chunks") :
    ofChunks column id rows' = ofChunks column id rows := by
  funext r
  unfold ofChunks
  rw [h]

theorem withoutTexts_chunks : withoutTexts id rows "chunks" = rows "chunks" := by
  unfold withoutTexts
  rw [chunks_afterDelete (by decide) fun k hk => (texts_unreferenced k hk).2.2,
    chunks_afterDelete (by decide) fun k hk => (texts_unreferenced k hk).2.1,
    chunks_afterDelete (by decide) fun k hk => (texts_unreferenced k hk).1]

/-- The first three statements cannot fail, the other two can. -/
theorem deleteRows_eq (id : String) (rows : Rows) : deleteRows id rows =
    if ∀ k ∈ FOREIGN_KEYS, k.Survives (withoutTexts id rows) (withoutChunks id rows) then
      if ∀ k ∈ FOREIGN_KEYS, k.Survives (withoutChunks id rows) (withoutBuffer id rows) then
        some (withoutBuffer id rows)
      else none
    else none := by
  have hfts : ∀ k ∈ FOREIGN_KEYS, k.parent ≠ "chunks_fts" := fun k hk =>
    (texts_unreferenced k hk).1
  have hentities : ∀ k ∈ FOREIGN_KEYS, k.parent ≠ "chunk_entities" := fun k hk =>
    (texts_unreferenced k hk).2.1
  have htexts : ∀ k ∈ FOREIGN_KEYS, k.parent ≠ "chunk_texts" := fun k hk =>
    (texts_unreferenced k hk).2.2
  have hlast : deleteWhere FOREIGN_KEYS "chunks" (ofBuffer "buffer_id" id) (withoutTexts id rows) =
      if ∀ k ∈ FOREIGN_KEYS, k.Survives (withoutTexts id rows) (withoutChunks id rows) then
        some (withoutChunks id rows) else none := deleteWhere_flat flat_keys.1
  unfold deleteRows
  simp only [Option.bind_eq_bind]
  rw [deleteWhere_unreferenced hfts, Option.bind_some, deleteWhere_unreferenced hentities,
    Option.bind_some, deleteWhere_unreferenced htexts, Option.bind_some,
    ofChunks_congr "chunk_id" (chunks_afterDelete (by decide) hentities),
    ofChunks_congr "chunk_id" (chunks_afterDelete (by decide) hfts)]
  show (deleteWhere FOREIGN_KEYS "chunks" (ofBuffer "buffer_id" id)
    (withoutTexts id rows)).bind _ = _
  rw [hlast]
  split
  · rw [Option.bind_some, deleteWhere_flat flat_keys.2]
    rfl
  · rfl

/-! ### What belongs to the project -/

theorem belongs_cases (h : BelongsTo rows b table r) : (table = "buffers" ∧ r = b) ∨
    ∃ t ∈ TIES, t.table = table ∧ r t.column ≠ none ∧
      ∃ p ∈ rows t.parent, BelongsTo rows b t.parent p ∧ p t.key = r t.column := by
  cases h with
  | self => exact .inl ⟨rfl, rfl⟩
  | tied ht hp hb hne he => exact .inr ⟨_, ht, rfl, hne, _, hp, hb, he⟩

theorem ties_of_buffers : ∀ t ∈ TIES, t.table ≠ "buffers" := by decide

theorem ties_of_deleted : ∀ t ∈ TIES, t.table ∈ DELETED →
    t = ⟨"chunks", "buffer_id", "buffers", "id"⟩ ∨
    (t.parent = "chunks" ∧ t.key = "id" ∧ ((t.table = "chunks_fts" ∧ t.column = "rowid") ∨
      ((t.table = "chunk_entities" ∨ t.table = "chunk_texts" ∨ t.table = "rlm_edges") ∧
        t.column = "chunk_id"))) ∨
    (t.table = "rlm_edges" ∧ t.parent = "rlm_nodes") := by
  decide

theorem ties_of_chunks : ∀ t ∈ TIES, t.table = "chunks" →
    t = ⟨"chunks", "buffer_id", "buffers", "id"⟩ := by
  decide

theorem eq_of_belongs_buffers (h : BelongsTo rows b "buffers" r) : r = b := by
  rcases belongs_cases h with ⟨-, hr⟩ | ⟨t, ht, htable, -⟩
  · exact hr
  · exact absurd htable (ties_of_buffers t ht)

theorem ofBuffer_of_belongs (hid : b "id" = some id) (h : BelongsTo rows b "chunks" r) :
    ofBuffer "buffer_id" id r = true := by
  rcases belongs_cases h with ⟨hbad, -⟩ | ⟨t, ht, htable, hne, p, hp, hb, he⟩
  · exact absurd hbad (by decide)
  · obtain rfl := ties_of_chunks t ht htable
    have hpb : p = b := eq_of_belongs_buffers hb
    subst hpb
    have he : p "id" = r "buffer_id" := he
    exact ofBuffer_iff.mpr (he.symm.trans hid)

/-! ### What goes belongs to the project -/

theorem belongs_of_key {k : ForeignKey} {gone : List Cells} (hk : k ∈ FOREIGN_KEYS)
    (h : k.RefersTo gone r)
    (hgone : ∀ p ∈ gone, p ∈ rows k.parent ∧ BelongsTo rows b k.parent p) :
    BelongsTo rows b k.table r := by
  obtain ⟨hne, p, hp, he⟩ := h
  obtain ⟨hrow, hb⟩ := hgone p hp
  have ht : Tie.ofKey k ∈ TIES :=
    List.mem_append_left _ (List.mem_append_left _ (List.mem_append_left _
      (List.mem_map_of_mem hk)))
  exact .tied ht hrow hb hne he

section Project

variable (hb : b ∈ rows "buffers") (hid : b "id" = some id)

include hb hid

theorem belongs_chunk (h : ofBuffer "buffer_id" id r = true) : BelongsTo rows b "chunks" r := by
  have he : r "buffer_id" = some id := ofBuffer_iff.mp h
  have ht : ⟨"chunks", "buffer_id", "buffers", "id"⟩ ∈ TIES := by decide
  refine .tied ht hb .self ?_ (hid.trans he.symm)
  rw [he]
  exact Option.some_ne_none id

theorem belongs_ofChunks {column : String} (ht : ⟨table, column, "chunks", "id"⟩ ∈ TIES)
    (h : ofChunks column id rows r = true) : BelongsTo rows b table r := by
  obtain ⟨hne, c, hc, hbuffer, he⟩ := ofChunks_iff.mp h
  exact .tied ht hc (belongs_chunk hb hid (ofBuffer_iff.mpr hbuffer)) hne he

theorem stays_withoutTexts (hr : r ∈ rows table) (hno : ¬ BelongsTo rows b table r) :
    r ∈ withoutTexts id rows table := by
  refine mem_withoutTexts.mpr ⟨hr, ?_, ?_, ?_⟩
  · rintro ⟨rfl, h⟩
    exact hno (belongs_ofChunks hb hid (by decide) h)
  · rintro ⟨rfl, h⟩
    exact hno (belongs_ofChunks hb hid (by decide) h)
  · rintro ⟨rfl, h⟩
    exact hno (belongs_ofChunks hb hid (by decide) h)

theorem stays_withoutChunks (hr : r ∈ rows table) (hno : ¬ BelongsTo rows b table r) :
    r ∈ withoutChunks id rows table := by
  refine mem_afterDelete.mpr ⟨stays_withoutTexts hb hid hr hno, ?_, ?_⟩
  · rintro ⟨rfl, h⟩
    exact hno (belongs_chunk hb hid h)
  · rintro k hk hp _ rfl href
    refine hno (belongs_of_key hk href fun p hp' => ?_)
    obtain ⟨hrow, hbuffer⟩ := List.mem_filter.mp hp'
    rw [withoutTexts_chunks] at hrow
    rw [hp]
    exact ⟨hrow, belongs_chunk hb hid hbuffer⟩

/-- The ids of the buffers are distinct. -/
theorem stays_withoutBuffer (hids : ∀ r ∈ rows "buffers", r "id" = b "id" → r = b)
    (hr : r ∈ rows table) (hno : ¬ BelongsTo rows b table r) : r ∈ withoutBuffer id rows table := by
  refine mem_afterDelete.mpr ⟨stays_withoutChunks hb hid hr hno, ?_, ?_⟩
  · rintro ⟨rfl, h⟩
    have he : r "id" = b "id" := (ofBuffer_iff.mp h).trans hid.symm
    rw [hids r hr he] at hno
    exact hno .self
  · intro k hk hp hc
    exact absurd hc (buffers_never_cascade k hk hp)

end Project

/-- Nothing is left where the other tables hold nothing of the project. -/
theorem gone_of_clear (hid : b "id" = some id)
    (hclear : ∀ table, table ∉ DELETED → ∀ r ∈ rows table, ¬ BelongsTo rows b table r)
    (hr : r ∈ withoutBuffer id rows table) : ¬ BelongsTo rows b table r := by
  intro h
  obtain ⟨hchunks, hnotId, -⟩ := mem_afterDelete.mp hr
  obtain ⟨htexts, hnotBuffer, hspared⟩ := mem_afterDelete.mp hchunks
  obtain ⟨hrow, hnotFts, hnotEntity, hnotText⟩ := mem_withoutTexts.mp htexts
  by_cases hlisted : table ∈ DELETED
  · rcases belongs_cases h with ⟨rfl, rfl⟩ | ⟨t, ht, rfl, hne, p, hp, hb, he⟩
    · exact hnotId ⟨rfl, ofBuffer_iff.mpr hid⟩
    · rcases ties_of_deleted t ht hlisted with rfl | ⟨hparent, hkey, hcase⟩ | ⟨-, hnodes⟩
      · exact hnotBuffer ⟨rfl, ofBuffer_of_belongs hid h⟩
      · rw [hparent] at hp hb
        rw [hkey] at he
        have hbuffer := ofBuffer_of_belongs hid hb
        have hof : ofChunks t.column id rows r = true :=
          ofChunks_iff.mpr ⟨hne, p, hp, ofBuffer_iff.mp hbuffer, he⟩
        rcases hcase with ⟨htable, hcolumn⟩ | ⟨htable | htable | htable, hcolumn⟩
        · exact hnotFts ⟨htable, hcolumn ▸ hof⟩
        · exact hnotEntity ⟨htable, hcolumn ▸ hof⟩
        · exact hnotText ⟨htable, hcolumn ▸ hof⟩
        · refine hspared _ edge_key rfl rfl htable.symm ⟨?_, p, ?_, ?_⟩
          · exact hcolumn ▸ hne
          · rw [withoutTexts_chunks]
            exact List.mem_filter.mpr ⟨hp, hbuffer⟩
          · exact hcolumn ▸ he
      · exact hclear t.parent (by rw [hnodes]; decide) p hp hb
  · exact hclear table hlisted r hrow h

theorem withoutBuffer_of_ne (hne : table ≠ "buffers") :
    withoutBuffer id rows table = withoutChunks id rows table :=
  afterDelete_of_ne hne fun k hk hp hc => absurd hc (buffers_never_cascade k hk hp)

/-- The other tables stay as they are. -/
theorem withoutBuffer_unlisted (h : table ∉ DELETED) :
    withoutBuffer id rows table = rows table := by
  have hne : ∀ t ∈ DELETED, table ≠ t := fun t ht he => h (he ▸ ht)
  have hsame : ∀ {t : String} {p : Cells → Bool} {rows : Rows}, t ∈ DELETED →
      (∀ k ∈ FOREIGN_KEYS, k.parent ≠ t) → afterDelete FOREIGN_KEYS t p rows table = rows table :=
    fun ht hk => afterDelete_of_ne (hne _ ht) fun k hk' hp => absurd hp (hk k hk')
  have hchunks : withoutChunks id rows table = withoutTexts id rows table := by
    refine afterDelete_of_ne (hne _ (by decide)) fun k hk hp hc he => ?_
    obtain ⟨-, -, htable⟩ := chunks_cascade k hk hp hc
    rcases htable with htable | htable
    · exact hne "chunk_entities" (by decide) (he.symm.trans htable)
    · exact hne "rlm_edges" (by decide) (he.symm.trans htable)
  rw [withoutBuffer_of_ne (hne _ (by decide)), hchunks]
  unfold withoutTexts
  rw [hsame (by decide) fun k hk => (texts_unreferenced k hk).2.2,
    hsame (by decide) fun k hk => (texts_unreferenced k hk).2.1,
    hsame (by decide) fun k hk => (texts_unreferenced k hk).1]

theorem chunks_referred : ∀ k ∈ FOREIGN_KEYS, k.parent = "chunks" → k.table ≠ "buffers" := by
  decide

/-- The two statements that could fail do not. -/
theorem deleteRows_of_clear (hb : b ∈ rows "buffers") (hid : b "id" = some id)
    (hids : ∀ r ∈ rows "buffers", r "id" = b "id" → r = b)
    (hclear : ∀ table, table ∉ DELETED → ∀ r ∈ rows table, ¬ BelongsTo rows b table r) :
    deleteRows id rows = some (withoutBuffer id rows) := by
  have hchunks : ∀ k ∈ FOREIGN_KEYS, k.Survives (withoutTexts id rows) (withoutChunks id rows) := by
    refine survives_of_unreferenced flat_keys.1 fun k hk hp r hr href => ?_
    have hstays : r ∈ withoutBuffer id rows k.table := by
      rw [withoutBuffer_of_ne (chunks_referred k hk hp)]
      exact hr
    refine gone_of_clear hid hclear hstays (belongs_of_key hk href fun c hc => ?_)
    obtain ⟨hrow, hbuffer⟩ := List.mem_filter.mp hc
    rw [withoutTexts_chunks] at hrow
    rw [hp]
    exact ⟨hrow, belongs_chunk hb hid hbuffer⟩
  have hbuffer : ∀ k ∈ FOREIGN_KEYS,
      k.Survives (withoutChunks id rows) (withoutBuffer id rows) := by
    refine survives_of_unreferenced flat_keys.2 fun k hk hp r hr href => ?_
    refine gone_of_clear hid hclear hr (belongs_of_key hk href fun c hc => ?_)
    obtain ⟨hrow, hsame⟩ := List.mem_filter.mp hc
    have hrow : c ∈ rows "buffers" :=
      (mem_withoutTexts.mp (afterDelete_subset hrow)).1
    rw [hids c hrow ((ofBuffer_iff.mp hsame).trans hid.symm), hp]
    exact ⟨hb, .self⟩
  rw [deleteRows_eq, if_pos hchunks, if_pos hbuffer]

/-- Rows that all stay, stay in their order. -/
theorem filter_withoutBuffer {q : Cells → Bool}
    (h : ∀ r ∈ rows table, q r = true → r ∈ withoutBuffer id rows table) :
    (withoutBuffer id rows table).filter q = (rows table).filter q := by
  have hchunks : withoutBuffer id rows table ⊆ withoutChunks id rows table := afterDelete_subset
  have htexts : withoutChunks id rows table ⊆ withoutTexts id rows table := afterDelete_subset
  have hstays : ∀ r ∈ rows table, q r = true → r ∈ withoutTexts id rows table := fun r hr hq =>
    htexts (hchunks (h r hr hq))
  have hrow : withoutTexts id rows table ⊆ rows table := fun r hr => (mem_withoutTexts.mp hr).1
  refine (filter_afterDelete fun r hr hq => h r (hrow (htexts hr)) hq).trans ?_
  refine (filter_afterDelete fun r hr hq => hchunks (h r (hrow hr) hq)).trans ?_
  refine (filter_afterDelete fun r hr hq => ?_).trans ?_
  · exact hstays r (afterDelete_subset (afterDelete_subset hr)) hq
  refine (filter_afterDelete fun r hr hq => ?_).trans ?_
  · exact afterDelete_subset (hstays r (afterDelete_subset hr) hq)
  exact filter_afterDelete fun r hr hq => afterDelete_subset (afterDelete_subset (hstays r hr hq))

end Transaction

/-- Tables without an `id`. -/
def UNNUMBERED : List String := ["chunk_texts", "chunks_fts", "chunk_entities"]

theorem schemaAt_latest :
    schemaVersion.reshape (schemaAt 24) = some (schemaAt 24) ∧
    (∃ t ∈ (schemaAt 24).tables, t.name = "buffers" ∧ ["id"] ∈ t.keys ∧ ["name"] ∈ t.keys) ∧
    (∀ name ∈ UNNUMBERED ++ ["buffers", "chunks", "history", "qa_cache"],
      ((schemaAt 24).table? name).isSome = true) ∧
    ∀ t ∈ (schemaAt 24).tables, ["id"] ∈ t.keys → t.name ∉ UNNUMBERED := by
  decide +kernel

theorem Consistent.buffer_eq {d : Database} (hd : Consistent 24 d) {a b : Cells}
    (ha : a ∈ d.db.rows "buffers") (hb : b ∈ d.db.rows "buffers") (he : a "id" = b "id") :
    a = b := by
  obtain ⟨t, ht, hname, hkey, -⟩ := schemaAt_latest.2.1
  have hdistinct : Distinct ["id"] (d.db.rows "buffers") := hname ▸ hd.keys t ht _ hkey
  have hnone : a "id" ≠ none := hd.ids t ht hkey a (hname.symm ▸ ha)
  refine hdistinct.eq_of_clash ha hb fun c hc => ?_
  rw [List.mem_singleton.mp hc]
  exact ⟨he, hnone⟩

/-- The name leads `forget` to the row of the project. -/
theorem forget_eq {d : Database} (hd : Consistent 24 d) {b : Cells} {name id : String}
    (hb : b ∈ d.db.rows "buffers") (hname : b "name" = some name) (hid : b "id" = some id) :
    forget name d = ((deleteBuffer id d).1,
      (deleteBuffer id d).2.mapError fun _ => "failed to delete project") := by
  obtain ⟨t, ht, htable, -, hkey⟩ := schemaAt_latest.2.1
  have hdistinct : Distinct ["name"] (d.db.rows "buffers") := htable ▸ hd.keys t ht _ hkey
  unfold forget
  cases hfind : (d.db.rows "buffers").find? (ofBuffer "name" name) with
  | none =>
    have hno := List.find?_eq_none.mp hfind b hb
    exact absurd (ofBuffer_iff.mpr hname) hno
  | some a =>
    have ha : a "name" = some name := ofBuffer_iff.mp (List.find?_some hfind)
    have hab : a = b := by
      refine hdistinct.eq_of_clash (List.mem_of_find?_eq_some hfind) hb fun c hc => ?_
      rw [List.mem_singleton.mp hc, ha, hname]
      exact ⟨rfl, Option.some_ne_none name⟩
    subst hab
    dsimp only
    rw [hid]

theorem deleteBuffer_of_rows {d : Database} {id : String} {rows : Rows}
    (h : deleteRows id d.db.rows = some rows) :
    deleteBuffer id d = ({ d with db := { d.db with rows := rows } }, .ok ()) := by
  unfold deleteBuffer
  rw [h]

/-- The new project has a row of its own and leaves the other tables alone. -/
theorem ensureProjectRow_of_ne {new now uuid name path table : String} {rows : Rows}
    (h : table ≠ "buffers") :
    (ensureProjectRow new now uuid name path rows).1 table = rows table := by
  unfold ensureProjectRow
  dsimp only
  split
  · rfl
  · rw [Function.update_of_ne h]

theorem project_ties : ∀ table ∈ ["qa_cache", "rlm_nodes", "explorations"],
    table ≠ "buffers" ∧ ⟨table, "project", "buffers", "name"⟩ ∈ TIES := by
  decide

/-- Deleting a project deletes it exactly where no table but those that the code lists holds a
row of it. -/
theorem buffer_deleted {d : Database} {id : String} {b : Cells} (hd : Consistent 24 d)
    (hb : b ∈ d.db.rows "buffers") (hid : b "id" = some id) :
    Deleted d id b ↔ OnlyListed d b := by
  have hids : ∀ r ∈ d.db.rows "buffers", r "id" = b "id" → r = b := fun r hr he =>
    hd.buffer_eq hr hb he
  constructor
  · intro h table htable r hr
    have hdone := h.done
    have hgone := h.gone table r
    cases hrows : deleteRows id d.db.rows with
    | none =>
      unfold deleteBuffer at hdone
      rw [hrows] at hdone
      cases hdone
    | some rows =>
      rw [deleteBuffer_of_rows hrows] at hgone
      rw [deleteRows_eq] at hrows
      split at hrows
      · split at hrows
        · cases hrows
          have hkept : r ∈ withoutBuffer id d.db.rows table := by
            rw [withoutBuffer_unlisted htable]
            exact hr
          exact hgone hkept
        · cases hrows
      · cases hrows
  · intro hclear
    have hrows := deleteRows_of_clear hb hid hids hclear
    have hgone : ∀ table, ∀ r ∈ withoutBuffer id d.db.rows table,
        ¬ BelongsTo d.db.rows b table r := fun table r hr => gone_of_clear hid hclear hr
    have hrun := deleteBuffer_of_rows hrows
    refine ⟨by rw [hrun], by rw [hrun]; exact hgone, fun table => ?_, ?_⟩
    · rw [hrun]
      refine filter_withoutBuffer fun r hr hq => ?_
      exact stays_withoutBuffer hb hid hids hr (by simpa using hq)
    · intro name hname new now uuid path table htable r hr he
      obtain ⟨hne, htie⟩ := project_ties table htable
      rw [ensureProjectRow_of_ne hne, hrun] at hr
      have hrow : r ∈ d.db.rows table :=
        (mem_withoutTexts.mp (afterDelete_subset (afterDelete_subset hr))).1
      refine hgone table r hr (.tied htie hb .self ?_ (hname.trans he.symm))
      rw [he]
      exact Option.some_ne_none name

/-! ### Three projects -/

/-- A file with at most one row in each table. -/
def fileWith (entries : List (String × Cells)) : Database where
  db := ⟨schemaAt 24, fun table => (entries.lookup table).toList⟩
  versions := (List.range 24).map (· + 1)

def filled (columns : List String) : Cells := fun c => if c ∈ columns then some "1" else none

def project : String × Cells := ("buffers", filled ["id", "name", "path", "uuid"])

/-- A project with an indexed chunk. -/
def chunkedOnly : Database := fileWith
  [ project,
    ("chunks", filled ["id", "buffer_id", "file_path", "hash", "is_active"]),
    ("chunk_texts", filled ["chunk_id", "content"]),
    ("chunks_fts", filled ["rowid", "content"]),
    ("chunk_entities", filled ["chunk_id", "entity"]) ]

/-- A project that was searched once. -/
def searched : Database := fileWith [project, ("history", filled ["id", "buffer_id", "query"])]

def answer : Cells := filled ["id", "cache_id", "buffer_id", "project", "question_text",
  "question_hash", "answer_text", "is_active"]

/-- A project with a stored answer. -/
def answered : Database := fileWith [project, ("qa_cache", answer)]

theorem mem_fileWith {entries : List (String × Cells)} {table : String} {r : Cells}
    (hr : r ∈ (fileWith entries).db.rows table) : (table, r) ∈ entries := by
  have hr : r ∈ (entries.lookup table).toList := hr
  rw [Option.mem_toList] at hr
  obtain ⟨l, l', hl, -⟩ := List.lookup_eq_some_iff.mp hr
  rw [hl]
  exact List.mem_append_right l List.mem_cons_self

theorem known_latest : 24 ≤ MIGRATIONS.length := by rw [migrations_length]

theorem fileWith_version (entries : List (String × Cells)) :
    (fileWith entries).currentVersion = 24 := by
  have hmax : ((List.range 24).map (· + 1)).foldr max 0 = 24 := by decide
  exact hmax

theorem fileWith_consistent {entries : List (String × Cells)}
    (hknown : ∀ e ∈ entries, e.1 ∈ UNNUMBERED ++ ["buffers", "chunks", "history", "qa_cache"])
    (hids : ∀ e ∈ entries, e.1 ∉ UNNUMBERED → e.2 "id" ≠ none)
    (hkeys : ∀ k ∈ FOREIGN_KEYS, k.Holds (fileWith entries).db.rows) :
    Consistent 24 (fileWith entries) := by
  have hshort : ∀ table, ((fileWith entries).db.rows table).length ≤ 1 := fun table => by
    show (entries.lookup table).toList.length ≤ 1
    cases entries.lookup table with
    | none => exact Nat.zero_le 1
    | some r => exact Nat.le_refl 1
  have hopened : schemaVersion.reshape (fileWith entries).db.schema = some (schemaAt 24) := by
    dsimp only [fileWith]
    exact schemaAt_latest.1
  refine ⟨⟨known_latest, fileWith_version entries, hopened, fun name hn => ?_, fun t _ key _ => ?_,
    fun t ht hk r hr => hids _ (mem_fileWith hr) (schemaAt_latest.2.2.2 t ht hk),
    fun i _ => ?_⟩, hkeys, fun a ha => ?_⟩
  · refine List.eq_nil_iff_forall_not_mem.mpr fun r hr => ?_
    have hsome := schemaAt_latest.2.2.1 _ (hknown _ (mem_fileWith hr))
    rw [hn] at hsome
    cases hsome
  · exact distinct_of_length (hshort t.name)
  · exact indexHolds_of_length (hshort i.table)
  · have hanchors : "exploration_files" ∉ UNNUMBERED ++ ["buffers", "chunks", "history",
        "qa_cache"] := by
      decide
    exact absurd (hknown _ (mem_fileWith ha)) hanchors

theorem chunkedOnly_consistent : Consistent 24 chunkedOnly :=
  fileWith_consistent (by decide) (by decide) (by decide)

theorem searched_consistent : Consistent 24 searched :=
  fileWith_consistent (by decide) (by decide) (by decide)

theorem answered_consistent : Consistent 24 answered :=
  fileWith_consistent (by decide) (by decide) (by decide)

/-- A project with nothing but its chunks is deleted. -/
theorem buffer_deleted_indexed : Deleted chunkedOnly "1" project.2 := by
  refine (buffer_deleted chunkedOnly_consistent (List.mem_singleton_self _) rfl).mpr ?_
  intro table htable r hr
  have hmem := mem_fileWith hr
  have hlisted : ∀ e ∈ [project,
      ("chunks", filled ["id", "buffer_id", "file_path", "hash", "is_active"]),
      ("chunk_texts", filled ["chunk_id", "content"]),
      ("chunks_fts", filled ["rowid", "content"]),
      ("chunk_entities", filled ["chunk_id", "entity"])], e.1 ∈ DELETED := by
    decide
  exact absurd (hlisted _ hmem) htable

theorem searched_stuck : deleteRows "1" searched.db.rows = none := by
  rw [deleteRows_eq, if_pos (by decide +kernel), if_neg (by decide +kernel)]

theorem answered_deleted : deleteRows "1" answered.db.rows =
    some (withoutBuffer "1" answered.db.rows) := by
  rw [deleteRows_eq, if_pos (by decide +kernel), if_pos (by decide +kernel)]

/-- A project that was searched cannot be deleted. The answer of a project that is deleted stays
for the next one of the name. -/
theorem buffer_deleted_partly :
    (Consistent 24 searched ∧ (deleteBuffer "1" searched).2 =
      .error "FOREIGN KEY constraint failed" ∧ ¬ Deleted searched "1" project.2) ∧
    (Consistent 24 answered ∧ (deleteBuffer "1" answered).2 = .ok () ∧
      answer ∈ (ensureProjectRow "2" "0" "2" "1" "1"
        (deleteBuffer "1" answered).1.db.rows).1 "qa_cache" ∧
      ¬ Deleted answered "1" project.2) := by
  have hstuck : (deleteBuffer "1" searched).2 = .error "FOREIGN KEY constraint failed" := by
    unfold deleteBuffer
    rw [searched_stuck]
  have hleft : answer ∈ (ensureProjectRow "2" "0" "2" "1" "1"
      (deleteBuffer "1" answered).1.db.rows).1 "qa_cache" := by
    rw [deleteBuffer_of_rows answered_deleted, ensureProjectRow_of_ne (by decide)]
    show answer ∈ withoutBuffer "1" answered.db.rows "qa_cache"
    rw [withoutBuffer_unlisted (by decide)]
    exact List.mem_singleton_self answer
  refine ⟨⟨searched_consistent, hstuck, fun h => ?_⟩, answered_consistent, ?_, hleft, fun h => ?_⟩
  · have hdone := h.done
    rw [hstuck] at hdone
    cases hdone
  · rw [deleteBuffer_of_rows answered_deleted]
  · exact h.fresh "1" rfl "2" "0" "2" "1" "qa_cache" (by decide) answer hleft rfl

end Arags
