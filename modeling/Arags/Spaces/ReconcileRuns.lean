import Arags.Spaces.Reconcile
import Arags.Spaces.Rederivation

/-!
# Arags.Spaces.ReconcileRuns

Reconcile passes on the databases that a server reaches.

* `SpaceOps.Lawful.of_select`, `projects_apart` — the four spaces meet what `spaceHonest_iff`
  asks for.
* `VectorOp`, `stepVectors` — writes, marks, vectors and passes; `stepVectors_names` is what they
  keep.
* `reconcile_honest` — when every pass on a reachable database is right.
-/

namespace Arags

open Sql

/-! ## The four spaces -/

section Ops

variable {κ ρ τ ε β : Type}

theorem mem_selected_ids {scan : ScanOrder ρ} {t : Table ρ} {p : Int → Bool} {ids : List Int}
    {i : Int} :
    i ∈ (scan.order (t.select fun i _ => p i && ids.contains i)).map Prod.fst ↔
      i ∈ ids ∧ p i = true ∧ ∃ r, (i, r) ∈ t.rows := by
  rw [List.mem_map]
  constructor
  · rintro ⟨⟨j, r⟩, hx, rfl⟩
    obtain ⟨hr, hp⟩ := Table.mem_select.mp (scan.mem_order.mp hx)
    simp only [Bool.and_eq_true, List.contains_eq_mem, decide_eq_true_eq] at hp
    exact ⟨hp.2, hp.1, r, hr⟩
  · rintro ⟨hi, hp, r, hr⟩
    exact ⟨(i, r), scan.mem_order.mpr (Table.mem_select.mpr ⟨hr, by simp [hp, hi]⟩), rfl⟩

variable {o : SpaceOps κ ρ τ ε β}

/-- The inputs of a batch are the rows `p` of the table that are in it. -/
structure SpaceOps.Selects (o : SpaceOps κ ρ τ ε β) (scan : ScanOrder ρ) (t : Table ρ)
    (p : Int → Bool) (f : Int × ρ → τ) : Prop where
  inputs : ∀ ids, o.inputs ids = (scan.order (t.select fun i _ => p i && ids.contains i)).map f
  id : ∀ x, o.id (f x) = x.1

variable {scan : ScanOrder ρ} {t : Table ρ} {p : Int → Bool} {f : Int × ρ → τ}

theorem SpaceOps.Selects.ids (h : o.Selects scan t p f) (ids : List Int) :
    (o.inputs ids).map o.id =
      (scan.order (t.select fun i _ => p i && ids.contains i)).map Prod.fst := by
  rw [h.inputs, List.map_map]
  exact List.map_congr_left fun x _ => h.id x

theorem SpaceOps.Selects.hasText_iff (h : o.Selects scan t p f) {i : Int} :
    o.hasText i ↔ p i = true ∧ ∃ r, (i, r) ∈ t.rows := by
  unfold SpaceOps.hasText
  rw [h.ids, mem_selected_ids]
  simp

theorem SpaceOps.Selects.lawful (h : o.Selects scan t p f) : o.Lawful where
  inputs_nodup ids := by
    rw [h.ids]
    exact scan.ids_nodup t _
  mem_inputs ids i := by
    rw [h.ids, mem_selected_ids, h.hasText_iff]

end Ops

section Members

variable {ε : Type} (scan : TextScans) (db : TextDb)

theorem chunkOps_selects : (chunkOps (ε := ε) scan db).Selects scan.chunks
    db.chunkStore.chunks.toTable (fun i => !db.chunkStore.textless.contains i)
    (fun x => (x.1, x.2.bufferId, x.2.content)) :=
  ⟨fun _ => rfl, fun _ => rfl⟩

theorem qaOps_selects : (qaOps (ε := ε) scan db).Selects scan.qaCache db.qaCache (fun _ => true)
    (fun x => (x.1, x.2.questionText)) :=
  ⟨fun _ => rfl, fun _ => rfl⟩

theorem rlmOps_selects : (rlmOps (ε := ε) scan db).Selects scan.rlmNodes db.rlmNodes
    (fun _ => true) (fun x => (x.1, x.2.subject ++ "\n" ++ x.2.summaryText)) :=
  ⟨fun _ => rfl, fun _ => rfl⟩

theorem explorationOps_selects : (explorationOps (ε := ε) scan db).Selects scan.explorations
    db.explorations.explorations (fun _ => true)
    (fun x => (x.1, x.2.goal ++ "\n" ++ x.2.summary)) :=
  ⟨fun _ => rfl, fun _ => rfl⟩

/-- `name` is `UNIQUE` in `buffers`. -/
def NamesUnique (db : TextDb) : Prop := (db.buffers.rows.map fun x => x.2.name).Nodup

variable {db}

theorem listProjects_pairwise {α : Type} {f : ProjectRow → α} (h : (db.buffers.rows.map f).Nodup) :
    (listProjects db).Pairwise fun x y => f x ≠ f y := by
  have hperm := (List.perm_insertionSort (fun x y : ProjectRow => x.2.name ≤ y.2.name)
    db.buffers.rows).map f
  have hnodup := hperm.nodup_iff.mpr h
  rw [List.Nodup, List.pairwise_map] at hnodup
  exact hnodup

/-- A row is in one buffer. -/
theorem chunks_apart : (chunkOps (ε := ε) scan db).Apart (listProjects db) := by
  refine (listProjects_pairwise db.buffers.nodup).imp fun hne x _ h => ?_
  simp only [chunkOps, beq_iff_eq, beq_eq_false_iff_ne] at h ⊢
  rw [h]
  exact hne

theorem nodes_apart : (rlmOps (ε := ε) scan db).Apart (listProjects db) := by
  refine (listProjects_pairwise db.buffers.nodup).imp fun hne x _ h => ?_
  simp only [rlmOps, beq_iff_eq, beq_eq_false_iff_ne] at h ⊢
  rw [h]
  exact fun hc => hne (Option.some.inj hc)

theorem maps_apart : (explorationOps (ε := ε) scan db).Apart (listProjects db) := by
  refine (listProjects_pairwise db.buffers.nodup).imp fun hne x _ h => ?_
  simp only [explorationOps, beq_iff_eq, beq_eq_false_iff_ne] at h ⊢
  rw [h]
  exact fun hc => hne (Option.some.inj hc)

/-- An answer names its project. -/
theorem answers_apart (hn : NamesUnique db) : (qaOps (ε := ε) scan db).Apart (listProjects db) := by
  refine (listProjects_pairwise hn).imp fun hne x _ h => ?_
  simp only [qaOps, beq_iff_eq, beq_eq_false_iff_ne] at h ⊢
  rw [h]
  exact hne

end Members

/-! ## A pass, space by space -/

section Pass

variable {ε : Type} (opened : Space → Bool) (scan : TextScans) (sql : PassStatements)

/-- The projects whose rows of a space are worked on. -/
def visited (db : TextDb) (space : Space) : List ProjectRow :=
  if opened space then listProjects db else []

theorem foldl_opened {α σ : Type} (b : Bool) (step : σ → α → σ) (l : List α) (s : σ) :
    l.foldl (fun s a => if b then step s a else s) s = (if b then l else []).foldl step s := by
  cases b with
  | true => rfl
  | false =>
    induction l with
    | nil => rfl
    | cons a l ih => exact ih

variable (e : Embeds ε) (db : VectorDb ε)

theorem pass_chunks : (reconcilePendingVectors opened scan sql e db).chunks =
    (visited opened db.text .chunk).foldl
      (reconcileSpace (chunkOps scan db.text) sql e Prod.fst) (.start db.chunkSide) := by
  unfold reconcilePendingVectors visited
  rw [← foldl_opened]
  exact (List.foldl_hom PassRun.chunks fun _ _ => rfl).symm

theorem pass_qa : (reconcilePendingVectors opened scan sql e db).qa =
    (visited opened db.text .question).foldl
      (reconcileSpace (qaOps scan db.text) sql e Prod.fst) (.start db.questions) := by
  unfold reconcilePendingVectors visited
  rw [← foldl_opened]
  exact (List.foldl_hom PassRun.qa fun _ _ => rfl).symm

theorem pass_rlm : (reconcilePendingVectors opened scan sql e db).rlm =
    (visited opened db.text .node).foldl
      (reconcileSpace (rlmOps scan db.text) sql e Prod.fst) (.start db.nodes) := by
  unfold reconcilePendingVectors visited
  rw [← foldl_opened]
  exact (List.foldl_hom PassRun.rlm fun _ _ => rfl).symm

theorem pass_explorations : (reconcilePendingVectors opened scan sql e db).explorations =
    (visited opened db.text .map).foldl
      (reconcileSpace (explorationOps scan db.text) sql e Prod.fst) (.start db.maps) := by
  unfold reconcilePendingVectors visited
  rw [← foldl_opened]
  exact (List.foldl_hom PassRun.explorations fun _ _ => rfl).symm

end Pass

/-! ## Runs -/

/-- What happens on a server, between and during passes. A vector is put in or taken out by
another call. -/
inductive VectorOp (ε : Type) where
  | text (op : TextOp)
  | mark (space : Space) (bufferId : Int) (ids : List Int)
  | setVector (space : Space) (i bufferId : Int) (v : Option ε)
  | reconcile (sql : PassStatements) (e : Embeds ε)

section Runs

variable {ε : Type} (opened : Space → Bool) (ix : Indexer) (scan : TextScans)

/-- `insert` or `delete` of a vector. -/
def setValue {β : Type} (vectors : AList fun _ : Int => β) (i : Int) : Option β →
    AList fun _ : Int => β
  | some v => vectors.insert i v
  | none => vectors.erase i

/-- The mark of a row goes with the row. -/
def VectorDb.written (db : VectorDb ε) (text : TextDb) : VectorDb ε where
  text := text
  chunkVectors := db.chunkVectors
  questions := { db.questions with
    pending := db.questions.pending.filter (isAnswer text.qaCache) }
  nodes := { db.nodes with
    pending := db.nodes.pending.filter fun i => (text.rlmNodes.get? i).isSome }
  maps := { db.maps with
    pending := db.maps.pending.filter fun i => (text.explorations.explorations.get? i).isSome }

def VectorDb.marked (db : VectorDb ε) (bufferId : Int) (ids : List Int) : Space → VectorDb ε
  | .chunk => { db with text := { db.text with chunkStore := { db.text.chunkStore with
      pendingVector := markChunksPendingVector db.text.chunkStore.chunks
        db.text.chunkStore.pendingVector bufferId ids } } }
  | .question => { db with questions := { db.questions with
      pending := markQaCachePendingVector db.text.qaCache db.questions.pending ids } }
  | .node => { db with nodes := { db.nodes with
      pending := markRlmNodesPendingVector db.text.rlmNodes db.nodes.pending bufferId ids } }
  | .map => { db with maps := { db.maps with
      pending := markExplorationsPendingVector db.text.explorations.explorations db.maps.pending
        bufferId ids } }

def VectorDb.setVector (db : VectorDb ε) (i bufferId : Int) (v : Option ε) : Space → VectorDb ε
  | .chunk => { db with
      chunkVectors := setValue db.chunkVectors i (v.map fun v => (bufferId, v)) }
  | .question => { db with questions := { db.questions with
      vectors := setValue db.questions.vectors i v } }
  | .node => { db with nodes := { db.nodes with vectors := setValue db.nodes.vectors i v } }
  | .map => { db with maps := { db.maps with vectors := setValue db.maps.vectors i v } }

def stepVectors (db : VectorDb ε) : VectorOp ε → VectorDb ε
  | .text op => db.written (textStep ix scan db.text op)
  | .mark space bufferId ids => db.marked bufferId ids space
  | .setVector space i bufferId v => db.setVector i bufferId v space
  | .reconcile sql e => db.reconciled (reconcilePendingVectors opened scan sql e db)

/-- The database after `ops`, newest first. -/
def vectorRun (ops : List (VectorOp ε)) : VectorDb ε :=
  Lts.after (stepVectors opened ix scan) VectorDb.empty ops

/-! ## What a pass owes -/

structure HonestPass (db : VectorDb ε) (r : PassRun ε) : Prop where
  live : ∀ i ∈ r.chunks.cleared, ∀ row, (i, row) ∈ db.text.chunkStore.chunks.rows →
    row.isActive = true
  chunks : SpaceHonest (chunkOps (ε := ε) scan db.text) db.chunkSide r.chunks
  qa : SpaceHonest (qaOps (ε := ε) scan db.text) db.questions r.qa
  rlm : SpaceHonest (rlmOps (ε := ε) scan db.text) db.nodes r.rlm
  explorations : SpaceHonest (explorationOps (ε := ε) scan db.text) db.maps r.explorations

/-- Every marked row belongs to a project that the pass visits, and its batch is read. -/
def AllReached {ρ τ β : Type} (o : SpaceOps ProjectRow ρ τ ε β) (sql : PassStatements)
    (db : TextDb) (marked : List Int) : Prop :=
  ∀ i row, (i, row) ∈ o.table.rows → i ∈ marked →
    ∃ buf ∈ visited opened db o.space, i ∈ o.reached sql Prod.fst marked buf

/-- No chunk that waits for its vector, and has its text, is retired. -/
structure Reconcilable (sql : PassStatements) (db : VectorDb ε) : Prop where
  live : ∀ i row, (i, row) ∈ db.text.chunkStore.chunks.rows →
    i ∈ db.text.chunkStore.pendingVector → i ∉ db.text.chunkStore.textless → row.isActive = true
  chunks : AllReached opened (chunkOps (ε := ε) scan db.text) sql db.text db.chunkSide.pending
  qa : AllReached opened (qaOps (ε := ε) scan db.text) sql db.text db.questions.pending
  rlm : AllReached opened (rlmOps (ε := ε) scan db.text) sql db.text db.nodes.pending
  explorations : AllReached opened (explorationOps (ε := ε) scan db.text) sql db.text
    db.maps.pending

/-! ## What a run keeps -/

variable {opened ix scan}

theorem ensureProject_names {t : SeqTable Buffer} {name path : String}
    (h : (t.rows.map fun x => x.2.name).Nodup) :
    ((ensureProject t name path).1.rows.map fun x => x.2.name).Nodup := by
  unfold ensureProject
  dsimp only
  split
  · exact h
  rename_i hnew
  show ((t.rows ++ [_]).map fun x : Int × Buffer => x.2.name).Nodup
  rw [List.map_append, List.nodup_append]
  refine ⟨h, by simp, ?_⟩
  rintro x hx y hy rfl
  obtain ⟨row, hrow, hname⟩ := List.mem_map.mp hx
  simp only [List.map_cons, List.map_nil, List.mem_singleton] at hy
  exact hnew (List.any_eq_true.mpr ⟨row, hrow, by simp [hname, hy]⟩)

theorem textStep_names {db : TextDb} (h : NamesUnique db) (op : TextOp) :
    NamesUnique (textStep ix scan db op) := by
  cases op with
  | createProject name path => exact ensureProject_names h
  | completeNode input nodeId now =>
    simp only [textStep]
    split <;> exact h
  | publishNode project level subject summaryText volunteer nodeId now =>
    simp only [textStep]
    split <;> exact h
  | _ => exact h

theorem stepVectors_names {db : VectorDb ε} (h : NamesUnique db.text) (op : VectorOp ε) :
    NamesUnique (stepVectors opened ix scan db op).text := by
  cases op with
  | text op => exact textStep_names h op
  | mark space bufferId ids => cases space <;> exact h
  | setVector space i bufferId v => cases space <;> exact h
  | reconcile sql e => exact h

theorem vectorRun_names (ops : List (VectorOp ε)) :
    NamesUnique (vectorRun opened ix scan ops).text := by
  have h0 : NamesUnique (VectorDb.empty (ε := ε)).text := List.nodup_nil
  exact Lts.run_inv (I := fun _ (db : VectorDb ε) => NamesUnique db.text) h0
    (fun _ _ op h => stepVectors_names h op) ops

/-! ## The pass -/

theorem SpaceOps.Apart.visited {ρ τ β : Type} {o : SpaceOps ProjectRow ρ τ ε β} {db : TextDb}
    (h : o.Apart (listProjects db)) (opened : Space → Bool) (space : Space) :
    o.Apart (visited opened db space) := by
  unfold Arags.visited
  split
  · exact h
  · exact List.Pairwise.nil

/-- An embedder and a space in which nothing fails. -/
def Embeds.unfailing [Inhabited ε] : Embeds ε where
  embedBatch _ _ texts := some (texts.map fun _ => default)
  inserts _ _ := .inserted
  length_eq := by
    rintro space ids texts vs h
    cases h
    exact List.length_map _

theorem Embeds.unfailing_succeed [Inhabited ε] (space : Space) :
    (Embeds.unfailing (ε := ε)).Succeed space :=
  ⟨fun _ _ => by simp [unfailing], fun _ => rfl⟩

variable {db : VectorDb ε} {sql : PassStatements}

/-- Only a pending chunk with text is inserted. -/
theorem chunks_cleared (e : Embeds ε) {i : Int}
    (h : i ∈ (reconcilePendingVectors opened scan sql e db).chunks.cleared) :
    i ∈ db.text.chunkStore.pendingVector ∧ i ∉ db.text.chunkStore.textless := by
  have hw := projects_worked sql (e := e) (chunkOps_selects (ε := ε) scan db.text).lawful Prod.fst
    ((chunks_apart scan).visited opened .chunk) (.start db.chunkSide)
    fun _ _ _ _ _ _ => Iff.rfl
  rw [pass_chunks] at h
  rcases hw.cleared i h with hc | ⟨hc, ht⟩
  · cases hc
  · obtain ⟨buf, -, hp⟩ := List.mem_flatMap.mp (hw.read_sub i hc)
    obtain ⟨-, -, -, hm⟩ := mem_pendingVector.mp hp
    exact ⟨hm, by simpa using ((chunkOps_selects (ε := ε) scan db.text).hasText_iff.mp ht).1⟩

/-- If nothing fails, each that is reached is. -/
theorem chunks_inserted [Inhabited ε]
    (hr : AllReached opened (chunkOps (ε := ε) scan db.text) sql db.text db.chunkSide.pending)
    {i : Int} {row : Chunk} (hrow : (i, row) ∈ db.text.chunkStore.chunks.rows)
    (hp : i ∈ db.text.chunkStore.pendingVector) (ht : i ∉ db.text.chunkStore.textless) :
    i ∈ (reconcilePendingVectors opened scan sql .unfailing db).chunks.cleared := by
  have hw := projects_worked sql (e := .unfailing)
    (chunkOps_selects (ε := ε) scan db.text).lawful Prod.fst
    ((chunks_apart scan).visited opened .chunk) (.start db.chunkSide)
    fun _ _ _ _ _ _ => Iff.rfl
  rw [pass_chunks]
  refine hw.all (Embeds.unfailing_succeed _) i (List.mem_flatMap.mpr (hr i row hrow hp)) ?_
  exact (chunkOps_selects (ε := ε) scan db.text).hasText_iff.mpr ⟨by simpa using ht, row, hrow⟩

theorem honestPass_iff [Inhabited ε] (hn : NamesUnique db.text) :
    (∀ e, HonestPass scan db (reconcilePendingVectors opened scan sql e db)) ↔
      Reconcilable opened scan sql db := by
  have hchunks := fun e => spaceHonest_iff sql (e := e)
    (chunkOps_selects (ε := ε) scan db.text).lawful Prod.fst
    ((chunks_apart scan).visited opened .chunk) db.chunkSide
  have hqa := fun e => spaceHonest_iff sql (e := e)
    (qaOps_selects (ε := ε) scan db.text).lawful Prod.fst
    ((answers_apart scan hn).visited opened .question) db.questions
  have hrlm := fun e => spaceHonest_iff sql (e := e)
    (rlmOps_selects (ε := ε) scan db.text).lawful Prod.fst
    ((nodes_apart scan).visited opened .node) db.nodes
  have hmaps := fun e => spaceHonest_iff sql (e := e)
    (explorationOps_selects (ε := ε) scan db.text).lawful Prod.fst
    ((maps_apart scan).visited opened .map) db.maps
  simp only [← pass_chunks, ← pass_qa, ← pass_rlm, ← pass_explorations] at hchunks hqa hrlm hmaps
  constructor
  · intro h
    have hu := h .unfailing
    have hreached := (hchunks _).mp hu.chunks
    refine ⟨fun i row hrow hp ht => ?_, hreached, (hqa _).mp hu.qa, (hrlm _).mp hu.rlm,
      (hmaps _).mp hu.explorations⟩
    exact hu.live i (chunks_inserted hreached hrow hp ht) row hrow
  · intro h e
    refine ⟨fun i hi row hrow => ?_, (hchunks e).mpr h.chunks, (hqa e).mpr h.qa,
      (hrlm e).mpr h.rlm, (hmaps e).mpr h.explorations⟩
    obtain ⟨hp, ht⟩ := chunks_cleared e hi
    exact h.live i row hrow hp ht

/-- On every database that a server reaches, and whatever fails in the embedder and the spaces, a
pass is right exactly when no pending chunk with text is retired and every pending row is read
with its project. -/
theorem reconcile_honest [Inhabited ε] (opened : Space → Bool) (ix : Indexer) (scan : TextScans)
    (ops : List (VectorOp ε)) (sql : PassStatements) :
    (∀ e, HonestPass scan (vectorRun opened ix scan ops)
        (reconcilePendingVectors opened scan sql e (vectorRun opened ix scan ops))) ↔
      Reconcilable opened scan sql (vectorRun opened ix scan ops) :=
  honestPass_iff (vectorRun_names ops)

end Runs

/-- Every statement succeeds. -/
def allRun : PassStatements := ⟨fun _ _ => true, fun _ _ => true, fun _ _ => true⟩

/-- A file whose vectors were not stored is indexed again with another content, before the next
pass. -/
def changedWhilePending : List (VectorOp Unit) :=
  [.text (.indexFile 1 [(("a.txt", 1, 1), 1)] "a.txt" "b"),
    .mark .chunk 1 [1],
    .text (.indexFile 1 [] "a.txt" "a"),
    .text (.createProject "p" "/p")]

/-- The pass inserts a vector for the chunk that the second stream retired. -/
theorem reconcile_honest_retired :
    ¬ HonestPass rowScans (vectorRun (fun _ => true) sampleIndexer rowScans changedWhilePending)
      (reconcilePendingVectors (fun _ => true) rowScans allRun .unfailing
        (vectorRun (fun _ => true) sampleIndexer rowScans changedWhilePending)) := by
  intro h
  have hget : ((vectorRun (fun _ => true) sampleIndexer rowScans
      changedWhilePending).text.chunkStore.chunks.get? 1).map Chunk.isActive = some false := by
    decide +kernel
  obtain ⟨row, hrow, hactive⟩ := Option.map_eq_some_iff.mp hget
  have hlive := h.live 1 (by decide +kernel) row (Table.get?_eq_some.mp hrow)
  rw [hactive] at hlive
  cases hlive

end Arags
