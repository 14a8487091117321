import Arags.Explore.Maps
import Arags.Index.BufferCounts
import Arags.Index.Digests
import Mathlib.Data.List.AList

/-!
# Arags.Explore.Operations

The exploration maps of a server as a state machine: index streams with their hook, persists,
feedback, invalidation, the review gate and the vectors of the maps.

* `recordFeedback`, `invalidateExploration`, `reviewExploration` — the statements of
  `sqlite/explorations/feedback.rs`.
* `explorationHook` — the end of an index stream: a new epoch and the staleness marks.
* `stepMaps` — one operation; `MapServer` is what it works on.
-/

namespace Arags

open Sql

/-- `confirmed` and `contradicted`, both 0 in a new row. -/
structure FeedbackCount where
  confirmed : Int
  contradicted : Int
  deriving DecidableEq, Repr

inductive FeedbackKind where
  | confirm | contradict
  deriving DecidableEq, Repr

inductive InvalidateMode where
  | stale | delete
  deriving DecidableEq, Repr

/-- The index, the maps, their counters and their vectors. -/
structure MapServer (ε : Type) where
  index : IndexDb
  maps : ExplorationDb
  feedback : Int → FeedbackCount
  vectors : AList fun _ : Int => ε

def MapServer.empty {ε : Type} : MapServer ε :=
  ⟨IndexDb.empty, ExplorationDb.empty, fun _ => ⟨0, 0⟩, ∅⟩

/-! ## A persist -/

/-- The row that a new revision takes the place of. -/
def activeRevision (scan : ScanOrder ExplorationRow) (db : ExplorationDb) (project goal : String) :
    Option Int :=
  ((scan.order (db.explorations.select fun _ r => r.isRevisionOf project goal)).head?).map Prod.fst

/-- What a transaction that commits has written. -/
structure MapPersisted (scan : ScanOrder ExplorationRow) (db : ExplorationDb)
    (input : PersistExplorationInput) (explorationId : String) (now : Int) (db' : ExplorationDb)
    (id : Int) : Prop where
  files : db'.explorationFiles = db.explorationFiles ++ input.anchors.map fun a => (id, a)
  epochs : db'.projectEpochs = db.projectEpochs
  fresh : ∀ r, (id, r) ∉ db.explorations.rows
  row : ∀ i r, (i, r) ∈ db'.explorations.rows ↔
    (i = id ∧ r = input.row explorationId (currentProjectEpoch db input.project) now) ∨
    ∃ r₀, (i, r₀) ∈ db.explorations.rows ∧
      r = if some i = activeRevision scan db input.project input.goal then
        { r₀ with isActive := false, supersededBy := some id } else r₀

theorem activeRevision_mem {scan : ScanOrder ExplorationRow} {db : ExplorationDb}
    {project goal : String} {i : Int} (h : activeRevision scan db project goal = some i) :
    ∃ r, (i, r) ∈ db.explorations.rows ∧ r.project = project ∧ r.goal = goal ∧
      r.isActive = true := by
  unfold activeRevision at h
  obtain ⟨x, hx, rfl⟩ := Option.map_eq_some_iff.mp h
  obtain ⟨hm, hp⟩ := Table.mem_select.mp (scan.mem_order.mp (List.mem_of_head? hx))
  simp only [ExplorationRow.isRevisionOf, Bool.and_eq_true, beq_iff_eq] at hp
  exact ⟨x.2, hm, hp.1.1, hp.1.2, hp.2⟩

/-- The next row id is not one of the rows before an update. -/
theorem not_mem_nextId_update {ρ : Type} (t : Table ρ) (p : Int → ρ → Bool) (f : Int → ρ → ρ)
    (r : ρ) : ((t.update p f).nextId, r) ∉ t.rows := by
  intro hr
  have hm := Table.mem_update (p := p) (f := f).mpr ⟨r, hr, rfl⟩
  exact Int.lt_irrefl _ (Table.lt_nextId hm)

theorem persistExploration_ok {scan : ScanOrder ExplorationRow} {db db' : ExplorationDb}
    {input : PersistExplorationInput} {explorationId : String} {now id : Int}
    (h : persistExploration scan db input explorationId now = .ok (db', id)) :
    MapPersisted scan db input explorationId now db' id := by
  have hold : ((scan.order (db.explorations.select fun _ r =>
      r.isRevisionOf input.project input.goal)).head?).map Prod.fst =
    activeRevision scan db input.project input.goal := rfl
  unfold persistExploration at h
  dsimp only at h
  rw [hold] at h
  split at h
  · cases h
  split at h
  · cases h
  cases h
  have hfresh := not_mem_nextId_update db.explorations
    (fun i r => some i == activeRevision scan db input.project input.goal && r.isActive)
    fun _ r => { r with isActive := false }
  refine ⟨rfl, rfl, hfresh, fun i r => ?_⟩
  dsimp only
  rw [Table.mem_update]
  constructor
  · rintro ⟨r₁, hr₁, rfl⟩
    rcases Table.mem_insert.mp hr₁ with hr₁ | ⟨rfl, rfl⟩
    · obtain ⟨r₀, hr₀, rfl⟩ := Table.mem_update.mp hr₁
      refine .inr ⟨r₀, hr₀, ?_⟩
      by_cases hi : some i = activeRevision scan db input.project input.goal
      · obtain ⟨r', hr', -, -, ha⟩ := activeRevision_mem hi.symm
        obtain rfl := Table.eq_of_mem hr₀ hr'
        simp [hi, ha]
      · simp [hi]
    · refine .inl ⟨rfl, ?_⟩
      rw [if_neg]
      intro hi
      obtain ⟨r', hr', -⟩ := activeRevision_mem (beq_iff_eq.mp hi).symm
      exact hfresh r' hr'
  · rintro (⟨rfl, rfl⟩ | ⟨r₀, hr₀, rfl⟩)
    · refine ⟨_, Table.mem_insert.mpr (.inr ⟨rfl, rfl⟩), ?_⟩
      rw [if_neg]
      intro hi
      obtain ⟨r', hr', -⟩ := activeRevision_mem (beq_iff_eq.mp hi).symm
      exact hfresh r' hr'
    · refine ⟨_, Table.mem_insert.mpr (.inl (Table.mem_update.mpr ⟨r₀, hr₀, rfl⟩)), ?_⟩
      by_cases hi : some i = activeRevision scan db input.project input.goal
      · obtain ⟨r', hr', -, -, ha⟩ := activeRevision_mem hi.symm
        obtain rfl := Table.eq_of_mem hr₀ hr'
        simp [hi, ha]
      · simp [hi]

/-! ## Feedback and moderation -/

def getExplorationByUuid (db : ExplorationDb) (explorationId : String) :
    Option (Int × ExplorationRow) :=
  (db.explorations.select fun _ r => r.explorationId == explorationId).head?

/-- `UPDATE explorations SET status = … WHERE id = ?2 AND status != 'retired'`. -/
def setUnretired (db : ExplorationDb) (p : Int → ExplorationRow → Bool) (status : MapStatus)
    (now : Int) : ExplorationDb :=
  let maps := db.explorations.update (fun i r => p i r && r.status != .retired)
    fun _ r => { r with status := status, updatedAt := now }
  { db with explorations := maps }

section Moderation

variable {ε : Type} (s : MapServer ε)

/-- A contradiction of a map that is not retired counts, and may retire it. -/
def recordFeedback (explorationId : String) (kind : FeedbackKind) (contradictionLimit now : Int) :
    MapServer ε :=
  match getExplorationByUuid s.maps explorationId with
  | none => s
  | some (id, row) =>
    let count := s.feedback id
    let touched := s.maps.explorations.update
      (fun i r => i == id && (kind == .confirm || r.status != .retired))
      fun _ r => { r with updatedAt := now }
    let maps := { s.maps with explorations := touched }
    match kind with
    | .confirm =>
      { s with
        maps := maps
        feedback := Function.update s.feedback id { count with confirmed := count.confirmed + 1 } }
    | .contradict =>
      let contradicted :=
        if row.status = .retired then count.contradicted else count.contradicted + 1
      { s with
        maps := if 0 < contradictionLimit ∧ contradictionLimit ≤ contradicted then
          setUnretired maps (fun i _ => i == id) .retired now else maps
        feedback := Function.update s.feedback id { count with contradicted := contradicted } }

/-- The row that a feedback touches. -/
def touchedByFeedback (db : ExplorationDb) (id : Int) (kind : FeedbackKind) (now : Int) :
    ExplorationDb :=
  { db with
    explorations := db.explorations.update
      (fun i r => i == id && (kind == .confirm || r.status != .retired))
      fun _ r => { r with updatedAt := now } }

/-- A feedback touches the row, and may retire it. -/
theorem recordFeedback_keeps {P : ExplorationDb → Prop} (explorationId : String)
    (kind : FeedbackKind) (limit now : Int) (hsame : P s.maps)
    (htouched : ∀ id, P (touchedByFeedback s.maps id kind now))
    (hretired : ∀ id, P (setUnretired (touchedByFeedback s.maps id kind now) (fun i _ => i == id)
      .retired now)) : P (recordFeedback s explorationId kind limit now).maps := by
  unfold recordFeedback
  split
  · exact hsame
  rename_i id row _
  cases kind with
  | confirm => exact htouched id
  | contradict =>
    dsimp only
    generalize (if row.status = .retired then (s.feedback id).contradicted
      else (s.feedback id).contradicted + 1) = contradicted
    split
    · exact hretired id
    · exact htouched id

/-- `stale_reason = COALESCE(stale_reason, …) … WHERE exploration_id = ?2 AND status = 'fresh'`. -/
def invalidateExplorationStale (db : ExplorationDb) (explorationId reason : String) (now : Int) :
    ExplorationDb :=
  let maps := db.explorations.update
    (fun _ r => r.explorationId == explorationId && r.status == .fresh) fun _ r => { r with
      status := .stale, staleReason := some (r.staleReason.getD [reason]), updatedAt := now }
  { db with explorations := maps }

/-- The row with its anchors; the caller removes the vector. -/
def deleteExploration (db : ExplorationDb) (id : Int) : ExplorationDb :=
  { db with
    explorations := db.explorations.delete fun i _ => i == id
    explorationFiles := db.explorationFiles.filter fun f => f.1 != id }

def handleInvalidateExploration (explorationId reason : String) (mode : InvalidateMode)
    (now : Int) : MapServer ε :=
  match getExplorationByUuid s.maps explorationId, mode with
  | none, _ => s
  | some _, .stale =>
    let reason := if reason.isEmpty then "admin" else reason
    { s with maps := invalidateExplorationStale s.maps explorationId reason now }
  | some (id, _), .delete =>
    { s with
      maps := deleteExploration s.maps id
      feedback := Function.update s.feedback id ⟨0, 0⟩
      vectors := s.vectors.erase id }

/-- Approval from any status but retired; rejection retires. -/
def reviewExploration (db : ExplorationDb) (explorationId : String) (approved : Bool)
    (now : Int) : ExplorationDb :=
  setUnretired db (fun _ r => r.explorationId == explorationId)
    (if approved then .fresh else .retired) now

end Moderation

/-! ## The hook of a stream -/

def explorationHook (chunks : SeqTable Chunk) (db : ExplorationDb) (project : String) (now : Int) :
    ExplorationDb :=
  (markStaleIfAnchorsChanged chunks (bumpProjectEpoch db project).1 project now).1

/-- The project of a stream that is answered. -/
def streamProject (ix : Indexer) (db : IndexDb) (msgs : List IndexMsg) : Option String :=
  match runLoop ix db .start msgs with
  | (_, .ok st) => st.project
  | (_, .error _) => none

/-- A stream, and its hook when it is answered. -/
def indexWithMaps {ε : Type} (ix : Indexer) (enabled : Bool) (s : MapServer ε)
    (msgs : List IndexMsg) (now : Int) : MapServer ε :=
  let index := (indexStreamLoop ix s.index msgs).1
  match (indexStreamLoop ix s.index msgs).2, streamProject ix s.index msgs, enabled with
  | .ok _, some project, true =>
    { s with index := index, maps := explorationHook index.chunks s.maps project now }
  | _, _, _ => { s with index := index }

/-! ## The machine -/

inductive MapOp (ε : Type) where
  | stream (msgs : List IndexMsg) (now : Int)
  /-- The vector is that of the embedder, when it has one and its insert succeeds. -/
  | persist (req : PersistExplorationRequest) (username : String) (gate : ReviewGate)
      (explorationId : String) (now : Int) (vector : Option ε)
  | markStale (project : String) (now : Int)
  | feedback (explorationId : String) (kind : FeedbackKind) (contradictionLimit now : Int)
  | invalidate (explorationId reason : String) (mode : InvalidateMode) (now : Int)
  | review (explorationId : String) (approved : Bool) (now : Int)
  /-- A reconcile pass stores the vector of a map that is still there. -/
  | reconcile (id : Int) (vector : ε)

variable {ε : Type} (ix : Indexer) (scan : ScanOrder ExplorationRow) (enabled : Bool)

def stepMaps (s : MapServer ε) : MapOp ε → MapServer ε
  | .stream msgs now => indexWithMaps ix enabled s msgs now
  | .persist req username gate explorationId now vector =>
    match handlePersistExploration scan ix.scan enabled s.index s.maps req username gate
        explorationId now with
    | (maps, .ok (id, _, _)) =>
      { s with maps := maps, vectors := (vector.map (s.vectors.insert id)).getD s.vectors }
    | (_, .error _) => s
  | .markStale project now =>
    { s with maps := (markStaleIfAnchorsChanged s.index.chunks s.maps project now).1 }
  | .feedback explorationId kind limit now => recordFeedback s explorationId kind limit now
  | .invalidate explorationId reason mode now =>
    handleInvalidateExploration s explorationId reason mode now
  | .review explorationId approved now =>
    { s with maps := reviewExploration s.maps explorationId approved now }
  | .reconcile id vector =>
    if (s.maps.explorations.get? id).isSome then { s with vectors := s.vectors.insert id vector }
    else s

end Arags
