import Arags.Lib.Schema

/-!
# Arags.Schema.Migrations

`sqlite/schema.rs` and the scripts under `migrations/`. `run_migrations` runs each pending script
with `execute_batch` on a connection outside any transaction, so every statement commits by
itself, and records the version of a script with a statement of its own.

* `MIGRATIONS`   — the scripts, statement by statement. Column types, foreign keys and the
  bodies of views and triggers are left out: no check of a script looks at them.
* `runMigrations` — the whole run; the closing `ANALYZE` changes neither schema nor rows.
* `interrupted`  — the database after the scripts before one and some statements of that one.
-/

namespace Arags

open Sql

/-- `001_initial.sql` -/
def migration001Initial : List Stmt :=
  [ .createTable ⟨"schema_version", ["version", "applied_at"], [["version"]]⟩,
    .createTable ⟨"chunks", ["id", "buffer_id", "file_path", "offset_start", "offset_end",
      "line_start", "line_end", "hash", "language", "chunk_type", "token_count", "status",
      "created_at"], [["id"]]⟩,
    .createTable ⟨"chunk_texts", ["chunk_id", "content"], [["chunk_id"]]⟩,
    .createTable ⟨"buffers", ["id", "name", "path", "total_chunks", "total_files",
      "embedding_model", "embedding_dims", "last_indexed_at", "created_at"], [["id"], ["name"]]⟩,
    .createTable ⟨"tasks", ["id", "buffer_id", "chunk_id", "status", "assigned_to", "payload",
      "result", "created_at", "started_at", "finished_at"], [["id"]]⟩,
    .createTable ⟨"findings", ["id", "task_id", "chunk_id", "finding_type", "content", "confidence",
      "created_at"], [["id"]]⟩,
    .createTable ⟨"history", ["id", "buffer_id", "query", "query_type", "results_count",
      "duration_ms", "used_by", "result_hash", "created_at"], [["id"]]⟩,
    .createTable ⟨"patterns", ["id", "buffer_id", "pattern_type", "name", "description", "examples",
      "confidence", "created_at"], [["id"]]⟩,
    .createIndex ⟨"idx_chunks_file", "chunks", ["file_path"], false, none⟩,
    .createIndex ⟨"idx_chunks_hash", "chunks", ["hash"], false, none⟩,
    .createIndex ⟨"idx_chunks_buffer_hash", "chunks", ["buffer_id", "hash"], false, none⟩,
    .createIndex ⟨"idx_chunks_buffer_file", "chunks", ["buffer_id", "file_path"], false, none⟩,
    .createIndex ⟨"idx_tasks_buffer", "tasks", ["buffer_id"], false, none⟩,
    .createIndex ⟨"idx_tasks_status", "tasks", ["status"], false, none⟩,
    .createIndex ⟨"idx_tasks_pending", "tasks", ["buffer_id"], false, some ("status", "pending")⟩,
    .createIndex ⟨"idx_findings_task", "findings", ["task_id"], false, none⟩,
    .createIndex ⟨"idx_findings_chunk", "findings", ["chunk_id"], false, none⟩,
    .createIndex ⟨"idx_history_buffer", "history", ["buffer_id"], false, none⟩,
    .createIndex ⟨"idx_history_buffer_created", "history", ["buffer_id", "created_at"], false,
      none⟩,
    .createIndex ⟨"idx_patterns_buffer", "patterns", ["buffer_id"], false, none⟩]

/-- `004_add_runs_cost.sql` -/
def migration004AddRunsCost : List Stmt :=
  [ .createTable ⟨"runs", ["id", "task", "backend", "mode", "status", "agent", "started_at",
      "finished_at", "duration_ms", "total_cost", "total_tokens", "total_calls", "max_depth",
      "nodes_visited", "partial_answer", "error"], [["id"]]⟩,
    .createTable ⟨"run_model_usage", ["run_id", "model", "calls", "input_tokens", "output_tokens",
      "cost"], [["run_id", "model"]]⟩,
    .createTable ⟨"node_calls", ["id", "run_id", "node_id", "depth", "node_type", "model",
      "input_tokens", "output_tokens", "cost", "duration_ms", "status", "error", "created_at"],
      [["id"]]⟩,
    .createView "agent_cost_report",
    .createIndex ⟨"idx_runs_agent", "runs", ["agent"], false, none⟩,
    .createIndex ⟨"idx_runs_status", "runs", ["status"], false, none⟩,
    .createIndex ⟨"idx_runs_started", "runs", ["started_at"], false, none⟩,
    .createIndex ⟨"idx_node_calls_run", "node_calls", ["run_id"], false, none⟩]

/-- `005_add_trajectories.sql` -/
def migration005AddTrajectories : List Stmt :=
  [ .createTable ⟨"trajectories", ["id", "project_name", "agent", "root_json", "task", "task_hash",
      "total_cost", "created_at"], [["id"]]⟩,
    .createIndex ⟨"idx_traj_project", "trajectories", ["project_name"], false, none⟩,
    .createIndex ⟨"idx_traj_hash", "trajectories", ["task_hash"], false, none⟩]

/-- `007_add_result_cache.sql` -/
def migration007AddResultCache : List Stmt :=
  [ .createTable ⟨"result_cache", ["task_hash", "project", "result", "run_id", "created_at",
      "hit_count"], [["task_hash", "project"]]⟩]

/-- `008_add_events.sql` -/
def migration008AddEvents : List Stmt :=
  [ .createTable ⟨"events", ["id", "run_id", "event_json", "created_at"], [["id"]]⟩,
    .createIndex ⟨"idx_events_run", "events", ["run_id"], false, none⟩,
    .createIndex ⟨"idx_events_created", "events", ["created_at"], false, none⟩]

/-- `009_add_entities.sql` -/
def migration009AddEntities : List Stmt :=
  [ .createTable ⟨"chunk_entities", ["chunk_id", "entity"], [["chunk_id", "entity"]]⟩,
    .createIndex ⟨"idx_chunk_entities_entity", "chunk_entities", ["entity"], false, none⟩,
    .createTable ⟨"entities_fts", ["entity"], []⟩]

/-- `010_add_last_accessed_at.sql` -/
def migration010AddLastAccessedAt : List Stmt :=
  [ .addColumn "chunks" "last_accessed_at" .expression,
    .backfill "chunks" "last_accessed_at" "created_at",
    .createIndex ⟨"idx_chunks_last_accessed", "chunks", ["last_accessed_at"], false, none⟩]

/-- `011_add_uuid_to_buffers.sql` -/
def migration011AddUuidToBuffers : List Stmt :=
  [ .addColumn "buffers" "uuid" .null,
    .createIndex ⟨"idx_buffers_uuid", "buffers", ["uuid"], true, none⟩]

/-- `013_server_handlers.sql` -/
def migration013ServerHandlers : List Stmt :=
  [ .addColumn "runs" "project" .null,
    .addColumn "runs" "model" .null,
    .createTable ⟨"chunks_fts", ["content"], []⟩,
    .createIndex ⟨"idx_runs_project", "runs", ["project"], false, none⟩]

/-- `015_add_auth.sql` -/
def migration015AddAuth : List Stmt :=
  [ .createTable ⟨"auth_tokens", ["id", "username", "role", "token_hash", "created_at",
      "expires_at", "created_by", "revoked", "revoked_at", "revoked_by"], [["id"]]⟩,
    .createIndex ⟨"idx_auth_tokens_hash", "auth_tokens", ["token_hash"], false, none⟩,
    .createIndex ⟨"idx_auth_tokens_username", "auth_tokens", ["username"], false, none⟩,
    .createTable ⟨"auth_sessions", ["id", "token_id", "created_at", "expires_at"], [["id"]]⟩,
    .createIndex ⟨"idx_auth_sessions_token", "auth_sessions", ["token_id"], false, none⟩,
    .createIndex ⟨"idx_auth_sessions_expires", "auth_sessions", ["expires_at"], false, none⟩]

/-- `016_add_qa_cache.sql` -/
def migration016AddQaCache : List Stmt :=
  [ .createTable ⟨"qa_cache", ["id", "cache_id", "buffer_id", "project", "question_text",
      "question_hash", "answer_text", "source_chunk_ids", "source_hashes", "model", "confidence",
      "tier_snapshot", "token_count", "access_count", "created_at", "last_accessed_at", "stale",
      "invalidated_at", "invalidated_by", "invalidated_reason"], [["id"], ["cache_id"]]⟩,
    .createIndex ⟨"idx_qa_cache_project_question", "qa_cache", ["project", "question_hash"], true,
      none⟩,
    .createIndex ⟨"idx_qa_cache_cache_id", "qa_cache", ["cache_id"], false, none⟩,
    .createIndex ⟨"idx_qa_cache_buffer", "qa_cache", ["buffer_id"], false, none⟩,
    .createIndex ⟨"idx_qa_cache_stale", "qa_cache", ["stale", "project"], false, none⟩,
    .createTable ⟨"qa_cache_fts", ["question_text", "answer_text"], []⟩,
    .createTrigger "qa_cache_ai" "qa_cache",
    .createTrigger "qa_cache_ad" "qa_cache",
    .createTrigger "qa_cache_au" "qa_cache"]

/-- `017_add_history_user.sql` -/
def migration017AddHistoryUser : List Stmt :=
  [ .addColumn "history" "user" .null]

/-- `018_add_rlm.sql` -/
def migration018AddRlm : List Stmt :=
  [ .createTable ⟨"rlm_nodes", ["id", "node_id", "buffer_id", "project", "level", "subject",
      "summary_text", "source_hashes", "model", "volunteer_username", "template_version",
      "token_count", "confidence", "review_status", "reviewed_by", "reviewed_at", "access_count",
      "created_at", "updated_at", "last_accessed_at", "stale"], [["id"], ["node_id"]]⟩,
    .createIndex ⟨"idx_rlm_nodes_subject", "rlm_nodes", ["project", "level", "subject"], true,
      none⟩,
    .createIndex ⟨"idx_rlm_nodes_buffer", "rlm_nodes", ["buffer_id"], false, none⟩,
    .createIndex ⟨"idx_rlm_nodes_review", "rlm_nodes", ["project", "review_status"], false, none⟩,
    .createIndex ⟨"idx_rlm_nodes_stale", "rlm_nodes", ["stale", "project"], false, none⟩,
    .createTable ⟨"rlm_fts", ["subject", "summary_text"], []⟩,
    .createTrigger "rlm_fts_ai" "rlm_nodes",
    .createTrigger "rlm_fts_ad" "rlm_nodes",
    .createTrigger "rlm_fts_au" "rlm_nodes",
    .createTable ⟨"rlm_edges", ["parent_id", "child_node_id", "chunk_id"], [["parent_id",
      "child_node_id", "chunk_id"]]⟩,
    .createIndex ⟨"idx_rlm_edges_child", "rlm_edges", ["child_node_id"], false, none⟩,
    .createIndex ⟨"idx_rlm_edges_chunk", "rlm_edges", ["chunk_id"], false, none⟩,
    .createTable ⟨"rlm_jobs", ["id", "job_key", "buffer_id", "project", "level", "subject",
      "payload", "generation", "status", "priority", "claimed_by", "claimed_at", "lease_expires_at",
      "attempts", "last_error", "created_at", "updated_at"], [["id"], ["job_key"]]⟩,
    .createIndex ⟨"idx_rlm_jobs_claim", "rlm_jobs", ["status", "priority", "level"], false, none⟩,
    .createIndex ⟨"idx_rlm_jobs_project", "rlm_jobs", ["project", "status"], false, none⟩,
    .createIndex ⟨"idx_rlm_jobs_lease", "rlm_jobs", ["lease_expires_at"], false, some ("status",
      "claimed")⟩]

/-- The columns of `explorations`: the same ones in its first script, in its rebuild and in the
copy between them. -/
def explorationsColumns : List String :=
  ["id", "exploration_id", "project", "buffer_id", "goal", "body", "summary", "created_by", "model",
    "template_version", "epoch_created", "status", "stale_reason", "confirmed", "contradicted",
    "access_count", "token_count", "created_at", "updated_at", "last_accessed_at", "retired_at",
    "retired_by"]

/-- `019_add_explorations.sql` -/
def migration019AddExplorations : List Stmt :=
  [ .createTable ⟨"explorations", explorationsColumns, [["id"], ["exploration_id"]]⟩,
    .createIndex ⟨"idx_explorations_project", "explorations", ["project", "status"], false, none⟩,
    .createIndex ⟨"idx_explorations_buffer", "explorations", ["buffer_id"], false, none⟩,
    .createTable ⟨"exploration_files", ["exploration_rowid", "buffer_id", "path", "content_hash",
      "role"], [["exploration_rowid", "path"]]⟩,
    .createIndex ⟨"idx_exploration_files_buffer", "exploration_files", ["buffer_id"], false, none⟩,
    .createIndex ⟨"idx_exploration_files_path", "exploration_files", ["buffer_id", "path"], false,
      none⟩,
    .createTable ⟨"explorations_fts", ["goal", "summary"], []⟩,
    .createTrigger "explorations_fts_ai" "explorations",
    .createTrigger "explorations_fts_ad" "explorations",
    .createTrigger "explorations_fts_au" "explorations",
    .createTable ⟨"project_epochs", ["project", "epoch", "updated_at"], [["project"]]⟩]

/-- The rebuilt table; only its `CHECK` on the status differs. -/
def explorationsNew : TableDef :=
  ⟨"explorations_new", explorationsColumns, [["id"], ["exploration_id"]]⟩

/-- `020_add_exploration_review.sql` -/
def migration020AddExplorationReview : List Stmt :=
  [ .createTable explorationsNew,
    .copyRows "explorations_new" "explorations" explorationsColumns,
    .dropTable "explorations",
    .renameTable "explorations_new" "explorations",
    .createIndex ⟨"idx_explorations_project", "explorations", ["project", "status"], false, none⟩,
    .createIndex ⟨"idx_explorations_buffer", "explorations", ["buffer_id"], false, none⟩,
    .createTrigger "explorations_fts_ai" "explorations",
    .createTrigger "explorations_fts_ad" "explorations",
    .createTrigger "explorations_fts_au" "explorations"]

/-- `021_temporal_metadata.sql` -/
def migration021TemporalMetadata : List Stmt :=
  [ .addColumn "chunks" "version" (.constant "1"),
    .addColumn "chunks" "is_active" (.constant "1"),
    .addColumn "chunks" "superseded_by" .null,
    .addColumn "chunks" "epoch" (.constant "0"),
    .addColumn "chunks" "created_by" .null,
    .addColumn "chunks" "model" .null,
    .createIndex ⟨"idx_chunks_active", "chunks", ["buffer_id", "file_path"], false, some
      ("is_active", "1")⟩,
    .addColumn "qa_cache" "version" (.constant "1"),
    .addColumn "qa_cache" "is_active" (.constant "1"),
    .addColumn "qa_cache" "superseded_by" .null,
    .addColumn "qa_cache" "epoch" (.constant "0"),
    .addColumn "qa_cache" "created_by" .null,
    .createIndex ⟨"idx_qa_cache_active", "qa_cache", ["project", "buffer_id"], false, some
      ("is_active", "1")⟩,
    .addColumn "rlm_nodes" "version" (.constant "1"),
    .addColumn "rlm_nodes" "is_active" (.constant "1"),
    .addColumn "rlm_nodes" "superseded_by" .null,
    .addColumn "rlm_nodes" "epoch" (.constant "0"),
    .addColumn "rlm_nodes" "created_by" .null,
    .createIndex ⟨"idx_rlm_nodes_active", "rlm_nodes", ["project", "level", "subject"], false, some
      ("is_active", "1")⟩,
    .addColumn "explorations" "version" (.constant "1"),
    .addColumn "explorations" "is_active" (.constant "1"),
    .addColumn "explorations" "superseded_by" .null,
    .createIndex ⟨"idx_explorations_active", "explorations", ["project"], false, some ("is_active",
      "1")⟩]

/-- `022_vector_status.sql` -/
def migration022VectorStatus : List Stmt :=
  [ .addColumn "rlm_nodes" "vector_status" (.constant "indexed"),
    .addColumn "explorations" "vector_status" (.constant "indexed"),
    .addColumn "qa_cache" "vector_status" (.constant "indexed")]

/-- `023_inactive_retention.sql` -/
def migration023InactiveRetention : List Stmt :=
  [ .addColumn "chunks" "retired_at" .null,
    .createIndex ⟨"idx_chunks_retired", "chunks", ["retired_at"], false, some ("is_active", "0")⟩]

/-- `024_supersede_derived.sql` -/
def migration024SupersedeDerived : List Stmt :=
  [ .dropIndex "idx_qa_cache_project_question",
    .createIndex ⟨"idx_qa_cache_active_unique", "qa_cache", ["project", "buffer_id",
      "question_hash"], true, some ("is_active", "1")⟩,
    .dropIndex "idx_rlm_nodes_subject",
    .createIndex ⟨"idx_rlm_nodes_subject_active", "rlm_nodes", ["project", "level", "subject"],
      true, some ("is_active", "1")⟩]

/-- `025_pending_qa.sql` -/
def migration025PendingQa : List Stmt :=
  [ .createTable ⟨"pending_qa_jobs", ["id", "cache_id", "project", "preferred_user", "status",
      "leased_by", "leased_until", "created_at", "completed_at"], [["id"]]⟩,
    .createIndex ⟨"idx_pending_qa_status", "pending_qa_jobs", ["status"], false, none⟩,
    .createIndex ⟨"idx_pending_qa_cache", "pending_qa_jobs", ["cache_id", "status"], false, none⟩]

/-- `026_submissions.sql` -/
def migration026Submissions : List Stmt :=
  [ .createTable ⟨"submissions", ["id", "project", "subject_type", "subject_key", "candidate_text",
      "candidate_by", "similarity", "status", "created_at", "decided_at", "decided_by"], [["id"]]⟩,
    .createIndex ⟨"idx_submissions_pending", "submissions", ["project", "subject_type",
      "subject_key", "status"], false, none⟩,
    .createIndex ⟨"idx_submissions_by_volunteer", "submissions", ["candidate_by", "status"], false,
      none⟩,
    .createTable ⟨"volunteer_trust", ["username", "strikes", "trust_score"], [["username"]]⟩]

/-- `027_rlm_generation_group.sql` -/
def migration027RlmGenerationGroup : List Stmt :=
  [ .addColumn "rlm_jobs" "generation_group_id" .null,
    .createIndex ⟨"idx_rlm_jobs_group", "rlm_jobs", ["generation_group_id"], false, none⟩]

/-- `028_rlm_exclusions.sql` -/
def migration028RlmExclusions : List Stmt :=
  [ .createTable ⟨"rlm_job_exclusions", ["generation_group_id", "volunteer"],
      [["generation_group_id", "volunteer"]]⟩,
    .createIndex ⟨"idx_rlm_job_exclusions_volunteer", "rlm_job_exclusions", ["volunteer"], false,
      none⟩]

/-- `029_audit_log.sql` -/
def migration029AuditLog : List Stmt :=
  [ .createTable ⟨"audit_log", ["id", "project", "username", "action", "target", "detail",
      "created_at"], [["id"]]⟩,
    .createIndex ⟨"idx_audit_log_username_created", "audit_log", ["username", "created_at"], false,
      none⟩,
    .createIndex ⟨"idx_audit_log_project_created", "audit_log", ["project", "created_at"], false,
      none⟩]

def MIGRATIONS : List (List Stmt) :=
  [migration001Initial, migration004AddRunsCost, migration005AddTrajectories,
    migration007AddResultCache, migration008AddEvents, migration009AddEntities,
    migration010AddLastAccessedAt, migration011AddUuidToBuffers, migration013ServerHandlers,
    migration015AddAuth, migration016AddQaCache, migration017AddHistoryUser, migration018AddRlm,
    migration019AddExplorations, migration020AddExplorationReview, migration021TemporalMetadata,
    migration022VectorStatus, migration023InactiveRetention, migration024SupersedeDerived,
    migration025PendingQa, migration026Submissions, migration027RlmGenerationGroup,
    migration028RlmExclusions, migration029AuditLog]

/-- A database file: what the scripts work on, and the rows of `schema_version`. -/
structure Database where
  db : Db
  versions : List Nat

/-- `SELECT COALESCE(MAX(version), 0) FROM schema_version`. -/
def Database.currentVersion (d : Database) : Nat := d.versions.foldr max 0

/-- `INSERT INTO schema_version (version) VALUES (?1)`. -/
def recordVersion (version : Nat) (d : Database) : Option Database :=
  if version ∈ d.versions then none else some { d with versions := version :: d.versions }

def schemaVersion : Stmt :=
  .createTable ⟨"schema_version", ["version", "applied_at"], [["version"]]⟩

/-- The loop over the scripts from position `i` on. -/
def applyPending (currentVersion : Nat) :
    Nat → List (List Stmt) → Database → Database × Except String Unit
  | _, [], d => (d, .ok ())
  | i, migration :: rest, d =>
    let version := i + 1
    if version > currentVersion then
      match runBatch migration d.db with
      | (db, false) => ({ d with db := db }, .error s!"failed to apply migration {version}")
      | (db, true) =>
        match recordVersion version { d with db := db } with
        | none => ({ d with db := db }, .error "failed to record migration")
        | some d => applyPending currentVersion (i + 1) rest d
    else applyPending currentVersion (i + 1) rest d

def runMigrations (d : Database) : Database × Except String Unit :=
  match schemaVersion.exec d.db with
  | none => (d, .error "failed to create schema_version table")
  | some db => applyPending d.currentVersion 0 MIGRATIONS { d with db := db }

/-- The script at position `m`; past the last one there is nothing to run. -/
def migrationAt (m : Nat) : List Stmt := MIGRATIONS.getD m []

/-- A run that is cut after `j` statements of the script at position `m`, with its version not yet
recorded; `none` where the run fails before. -/
def interrupted (m j : Nat) (d : Database) : Option Database :=
  match schemaVersion.exec d.db with
  | none => none
  | some db =>
    match applyPending d.currentVersion 0 (MIGRATIONS.take m) { d with db := db } with
    | (_, .error _) => none
    | (d, .ok _) =>
      match runBatch ((migrationAt m).take j) d.db with
      | (_, false) => none
      | (db, true) => some { d with db := db }

end Arags
