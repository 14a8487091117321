import Arags.Archive.TimeTravel

/-!
# Arags.Archive.AsOf

What the reads of a past epoch return, over every interleaving of writes and new epochs.

* `chunkFamily_walk` — the walk ends, since a row is replaced by a later one.
* `persist_handler_wrote`, `storeAnswer_wrote`, `upsertNode_wrote` — what a write adds to a store.
* `ArchiveInv`, `Since` — what holds at all times, and of the end of an epoch and any later time.
* `time_travel`  — maps are always read right; the other stores only for subjects that nothing was
  written for after the epoch.
-/

namespace Arags

open Sql

/-! ## The walk along a chain -/

section Chain

/-- A row is replaced by a later one. -/
def ForwardLinks (t : SeqTable Chunk) : Prop :=
  ∀ x ∈ t.rows, ∀ j ∈ x.2.supersededBy, x.1 < j

theorem ForwardLinks.insert {t : SeqTable Chunk} (h : ForwardLinks t) {r : Chunk}
    (hr : r.supersededBy = none) : ForwardLinks (t.insert r) := by
  rintro ⟨i, s⟩ hx j hj
  rcases SeqTable.mem_insert.mp hx with hm | ⟨-, rfl⟩
  · exact h _ hm j hj
  · rw [hr] at hj
    cases hj

theorem ForwardLinks.retireRow {t : SeqTable Chunk} (h : ForwardLinks t) {i : Int}
    {by_ : Option Int} (hby : ∀ j ∈ by_, i < j) : ForwardLinks (retireRow t i by_) := by
  rintro ⟨k, s⟩ hx j hj
  obtain ⟨s₀, hs₀, rfl⟩ := SeqTable.mem_update.mp hx
  dsimp only at hj ⊢
  split at hj
  · rename_i hc
    rw [Bool.and_eq_true, beq_iff_eq] at hc
    exact hc.1 ▸ hby j hj
  · exact h _ hs₀ j hj

theorem forwardLinks_kept : KeptByStreams ForwardLinks := by
  refine ⟨fun hp h => ?_, fun ids h => ?_⟩
  · cases hp with
    | unchanged x _ _ _ ht _ => exact ht ▸ h
    | changed x _ hx _ ht _ =>
      rw [ht]
      refine (h.insert rfl).retireRow fun j hj => ?_
      obtain rfl := Option.some.inj hj
      exact Int.lt_add_one_iff.mpr (SeqTable.le_seq _ x (mem_activeAt.mp hx).1)
    | fresh _ ht _ => exact ht ▸ h.insert rfl
  · rename_i t
    induction ids generalizing t with
    | nil => exact h
    | cons i ids ih => exact ih (h.retireRow nofun)

/-- The rows before `i`: what a walk that stands at `i` can still visit. -/
def rowsBefore (t : SeqTable Chunk) (i : Int) : Nat := t.count fun j _ => decide (j < i)

theorem rowsBefore_lt {t : SeqTable Chunk} {i j : Int} {r : Chunk} (hr : (j, r) ∈ t.rows)
    (h : j < i) : rowsBefore t j < rowsBefore t i := by
  have hsplit := Table.count_except hr fun k _ => decide (k < i)
  rw [decide_eq_true h, if_pos rfl] at hsplit
  have hle : rowsBefore t j ≤ t.count fun k _ => k != j && decide (k < i) := by
    unfold rowsBefore Table.count Table.select
    simp only [← List.countP_eq_length_filter]
    refine List.countP_mono_left fun x _ hx => ?_
    simp only [decide_eq_true_eq, Bool.and_eq_true, bne_iff_ne] at hx ⊢
    omega
  unfold rowsBefore at hle ⊢
  omega

/-- The walk ends, and starts at the row it is asked for. -/
theorem chunkFamily_walk (scan : ScanOrder Chunk) {t : SeqTable Chunk} (h : ForwardLinks t)
    {fuel : Nat} {i : Int} {r : Chunk} (hr : (i, r) ∈ t.rows) (hf : rowsBefore t i < fuel) :
    ∃ older, chunkFamily scan t fuel i = some ((i, r) :: older) ∧ ∀ x ∈ older, x.1 < i := by
  induction fuel generalizing i r with
  | zero => omega
  | succ fuel ih =>
    unfold chunkFamily
    rw [Table.get?_eq_some.mpr hr]
    dsimp only
    cases hs : (scan.order (t.select fun _ r => r.supersededBy == some i)).head? with
    | none => exact ⟨[], rfl, nofun⟩
    | some y =>
      obtain ⟨j, s⟩ := y
      obtain ⟨hj, hlink⟩ := Table.mem_select.mp (scan.mem_order.mp (List.mem_of_head? hs))
      have hlt : j < i := h _ hj i (beq_iff_eq.mp hlink)
      have hless := rowsBefore_lt hj hlt
      obtain ⟨older, hwalk, hbelow⟩ := ih hj (by omega)
      refine ⟨(j, s) :: older, ?_, ?_⟩
      · dsimp only
        rw [if_pos (Int.ne_of_lt hlt), hwalk]
        rfl
      · intro x hx
        rcases List.mem_cons.mp hx with rfl | hx
        · exact hlt
        · exact Int.lt_trans (hbelow x hx) hlt

/-- No row is stamped, so the walk returns where it started. -/
theorem getChunkAsOf_eq {scan : ScanOrder Chunk} {t : SeqTable Chunk} (h : ForwardLinks t)
    {i : Int} {r : Chunk} (hr : (i, r) ∈ t.rows) (T : Nat) :
    getChunkAsOf scan t i T = some (some (i, r)) := by
  have hfuel : rowsBefore t i < t.rows.length + 1 :=
    Nat.lt_succ_of_le (List.length_filter_le _ _)
  obtain ⟨older, hwalk, hbelow⟩ := chunkFamily_walk scan h hr hfuel
  have hall : ((i, r) :: older).filter (fun x => decide (x.2.epoch ≤ (T : Int))) =
      (i, r) :: older := by
    refine List.filter_eq_self.mpr fun x _ => ?_
    simp [Chunk.epoch]
  unfold getChunkAsOf
  rw [hwalk, Option.map_some, hall, firstBy]
  cases hf : firstBy (fun x y : Int × Chunk => decide (y.2.epoch < x.2.epoch) ||
      (x.2.epoch == y.2.epoch && decide (y.1 < x.1))) older with
  | none => rfl
  | some y =>
    have hlt := hbelow y (firstBy_mem hf)
    dsimp only
    rw [if_neg]
    simpa [Chunk.epoch] using Int.le_of_lt hlt

end Chain

/-! ## What an operation writes -/

section Wrote

variable {db db' : ExplorationDb}

theorem isRevisionOf_iff {r : ExplorationRow} {project goal : String} :
    r.isRevisionOf project goal = true ↔
      explorationColumns.subject r = (project, goal) ∧ explorationColumns.live r = true := by
  simp [ExplorationRow.isRevisionOf, explorationColumns, and_assoc]

theorem persist_supersedes {scan : ScanOrder ExplorationRow} {input : PersistExplorationInput}
    {explorationId : String} {now id : Int}
    (hu : LiveUnique explorationColumns db.explorations)
    (h : persistExploration scan db input explorationId now = .ok (db', id)) :
    Supersedes explorationColumns db.explorations db'.explorations id
      (input.row explorationId (currentProjectEpoch db input.project) now) := by
  have hold : IsCurrent explorationColumns db.explorations (input.project, input.goal)
      (((scan.order (db.explorations.select fun _ r =>
        r.isRevisionOf input.project input.goal)).head?).map Prod.fst) :=
    isCurrent_scan fun _ => isRevisionOf_iff
  unfold persistExploration at h
  dsimp only at h
  split at h
  · cases h
  split at h
  · cases h
  cases h
  rw [nextId_update]
  exact hu.write (input.row explorationId (currentProjectEpoch db input.project) now) hold rfl
    (fun r => { r with isActive := false }) (fun r => { r with supersededBy := some _ })
    (fun _ => ⟨rfl, rfl, rfl⟩) fun _ => ⟨rfl, rfl, rfl⟩

theorem persist_wrote {scan : ScanOrder ExplorationRow} {input : PersistExplorationInput}
    {explorationId : String} {now id : Int} (hV : Versioned explorationColumns db.explorations)
    (h : persistExploration scan db input explorationId now = .ok (db', id)) :
    Wrote explorationColumns db.explorations db'.explorations
      [⟨id, (input.project, input.goal), currentProjectEpoch db input.project⟩] :=
  (persist_supersedes hV.liveUnique h).wrote hV

theorem markPending_marks (db : ExplorationDb) (id : Int) :
    Marks explorationColumns db.explorations (markExplorationPending db id).explorations :=
  .update db.explorations (p := fun i r => i == id && r.status == .fresh)
    (f := fun _ r => { r with status := .pendingReview }) (fun _ _ => rfl) (fun _ _ => rfl)
    fun _ _ => rfl

theorem persist_handler_wrote (scan : ScanOrder ExplorationRow) (chunkScan : ScanOrder Chunk)
    (index : IndexDb) (req : PersistExplorationRequest) (username : String)
    (gate : ReviewGate) (explorationId : String) (now : Int)
    (hV : Versioned explorationColumns db.explorations) :
    let r := handlePersistExploration scan chunkScan true index db req username gate
      explorationId now
    r.1.projectEpochs = db.projectEpochs ∧ ∃ new,
      Wrote explorationColumns db.explorations r.1.explorations new ∧
      ∀ rev ∈ new, rev.epoch = currentProjectEpoch db rev.subject.1 := by
  intro r
  have hsame : db.projectEpochs = db.projectEpochs ∧ ∃ new,
      Wrote explorationColumns db.explorations db.explorations new ∧
      ∀ rev ∈ new, rev.epoch = currentProjectEpoch db rev.subject.1 :=
    ⟨rfl, [], .refl hV, nofun⟩
  unfold r handlePersistExploration
  split
  · exact hsame
  split
  · exact hsame
  split
  · exact hsame
  dsimp only
  split
  · exact hsame
  rename_i stored id hp
  have hw := persist_wrote hV hp
  have hepochs := (persistExploration_ok hp).epochs
  refine ⟨?_, [⟨id, (req.project, Text.trim req.goal), currentProjectEpoch db req.project⟩],
    ?_, ?_⟩
  · dsimp only
    rw [apply_ite ExplorationDb.projectEpochs]
    exact (ite_self _).trans hepochs
  · dsimp only
    split
    · exact hw.marks (markPending_marks stored id)
    · exact hw
  · intro rev hrev
    rw [List.mem_singleton.mp hrev]

theorem markMaps_marks (chunks : SeqTable Chunk) (db : ExplorationDb) (project : String)
    (now : Int) : Marks explorationColumns db.explorations
      (markStaleIfAnchorsChanged chunks db project now).1.explorations :=
  .update db.explorations
    (p := fun i r => ((brokenAnchors chunks db project).map Prod.fst).contains i &&
      r.status == .fresh)
    (f := fun i r => { r with
      status := .stale, staleReason := some (staleReason (brokenAnchors chunks db project) i)
      updatedAt := now })
    (fun _ _ => rfl) (fun _ _ => rfl) fun _ _ => rfl

variable {t : Table QaCacheRow}

theorem storeAnswer_supersedes (scan : ScanOrder QaCacheRow) (hu : LiveUnique qaColumns t)
    (input : StoreAnswerInput) (cacheId : String) (now : Int) :
    ∃ version, Supersedes qaColumns t (storeAnswer scan t input cacheId now).1
      (storeAnswer scan t input cacheId now).2 (input.row cacheId version now) := by
  have hanswers : ∀ r, QaCacheRow.answers r input = true ↔ qaColumns.subject r =
      (input.project, input.bufferId, input.questionHash) ∧ qaColumns.live r = true := by
    intro r
    simp [QaCacheRow.answers, qaColumns, and_assoc]
  have hold : IsCurrent qaColumns t (input.project, input.bufferId, input.questionHash)
      (((scan.order (t.select fun _ r => r.answers input)).head?).map Prod.fst) :=
    isCurrent_scan hanswers
  unfold storeAnswer
  cases hs : (scan.order (t.select fun _ r => r.answers input)).head? with
  | none =>
    rw [hs] at hold
    exact ⟨1, supersedes_insert (input.row cacheId 1 now) hold rfl⟩
  | some old =>
    rw [hs] at hold
    have hw := hu.write (input.row cacheId (old.2.version + 1) now) hold rfl
      (fun r => { r with isActive := false }) (fun r => { r with supersededBy := some t.nextId })
      (fun _ => ⟨rfl, rfl, rfl⟩) fun _ => ⟨rfl, rfl, rfl⟩
    dsimp only
    rw [nextId_update]
    exact ⟨_, hw⟩

theorem storeAnswer_wrote (scan : ScanOrder QaCacheRow) (hV : Versioned qaColumns t)
    (input : StoreAnswerInput) (cacheId : String) (now : Int) :
    ∃ new, Wrote qaColumns t (storeAnswer scan t input cacheId now).1 new := by
  obtain ⟨version, hs⟩ := storeAnswer_supersedes scan hV.liveUnique input cacheId now
  exact ⟨_, hs.wrote hV⟩

theorem markQaStale_marks (t : Table QaCacheRow) (id : Int) (by_ reason : String) (now : Int) :
    Marks qaColumns t (markQaStale t id by_ reason now) :=
  .update t (fun _ _ => rfl) (fun _ _ => rfl) fun _ _ => rfl

theorem invalidate_marks (scan : ScanOrder QaCacheRow) (chunks : SeqTable Chunk)
    (t : Table QaCacheRow) (bufferId now : Int) :
    Marks qaColumns t (invalidateStaleCacheForBuffer scan chunks t bufferId now) := by
  unfold invalidateStaleCacheForBuffer
  dsimp only
  split
  · exact .refl t
  · generalize listQaHashesForBuffer scan t bufferId = rows
    induction rows generalizing t with
    | nil => exact .refl t
    | cons x rows ih =>
      rw [List.foldl_cons]
      split
      · exact (markQaStale_marks t x.1 "system" "chunk changed" now).trans (ih _)
      · exact ih t

/-- The row that the upsert inserts. -/
def NewRlmNode.row (input : NewRlmNode) (nodeId : String) (version now : Int) : RlmNode where
  nodeId := nodeId
  bufferId := input.bufferId
  project := input.project
  level := input.level
  subject := input.subject
  summaryText := input.summaryText
  sourceHashes := input.sourceHashes
  model := input.model
  volunteerUsername := input.volunteerUsername
  templateVersion := input.templateVersion
  tokenCount := input.tokenCount
  confidence := 1
  reviewStatus := .pending
  reviewedBy := none
  reviewedAt := none
  accessCount := 0
  createdAt := now
  updatedAt := now
  lastAccessedAt := now
  stale := false
  createdBy := input.createdBy
  isActive := true
  supersededBy := none
  epoch := 0
  version := version

variable {t : Table RlmNode}

theorem upsertNode_wrote {scan : ScanOrder RlmNode} {nodeId : String} {input : NewRlmNode}
    {now : Int} {t' : Table RlmNode} {out : Int × String} (hV : Versioned nodeColumns t)
    (h : upsertNodeStmt scan t nodeId input now = .ok (t', out)) :
    ∃ new, Wrote nodeColumns t t' new ∧ ∀ rev ∈ new, rev.epoch = 0 := by
  have hlive : ∀ n : RlmNode, (n.project == input.project && n.level == input.level &&
      n.subject == input.subject && n.isActive) = true ↔ nodeColumns.subject n =
        (input.project, input.level, input.subject) ∧ nodeColumns.live n = true := by
    intro n
    simp [nodeColumns, and_assoc]
  have hold : IsCurrent nodeColumns t (input.project, input.level, input.subject)
      (((scan.order (t.select fun _ n => n.project == input.project && n.level == input.level &&
        n.subject == input.subject && n.isActive)).head?).map Prod.fst) := isCurrent_scan hlive
  unfold upsertNodeStmt at h
  cases hs : (scan.order (t.select fun _ n => n.project == input.project &&
      n.level == input.level && n.subject == input.subject && n.isActive)).head? with
  | none =>
    rw [hs] at hold
    simp only [hs] at h
    split at h
    · cases h
    split at h
    · cases h
    cases h
    have hw := (supersedes_insert (input.row nodeId 1 now) hold rfl).wrote hV
    refine ⟨_, hw, fun rev hrev => ?_⟩
    rw [List.mem_singleton.mp hrev]
    rfl
  | some old =>
    rw [hs] at hold
    simp only [hs] at h
    split at h
    · cases h
    split at h
    · cases h
    cases h
    have hw := (hV.liveUnique.write (input.row nodeId (old.2.version + 1) now) hold rfl
      (fun n => { n with isActive := false }) (fun n => { n with supersededBy := some t.nextId })
      (fun _ => ⟨rfl, rfl, rfl⟩) fun _ => ⟨rfl, rfl, rfl⟩).wrote hV
    rw [nextId_update]
    refine ⟨_, hw, fun rev hrev => ?_⟩
    rw [List.mem_singleton.mp hrev]
    rfl

theorem publish_wrote {scan : TextScans} {pub : NodePublication} {now : Int}
    {t' : Table RlmNode} {out : Int × String} (hV : Versioned nodeColumns t)
    (h : pub.publish scan t now = .ok (t', out)) :
    ∃ new, Wrote nodeColumns t t' new ∧ ∀ rev ∈ new, rev.epoch = 0 := by
  unfold NodePublication.publish publishRlmNodeForSubject at h
  dsimp only at h
  split at h
  · cases h
  · rename_i nodes id nodeId hu
    cases h
    obtain ⟨new, hw, hzero⟩ := upsertNode_wrote hV hu
    have happrove := Marks.update (c := nodeColumns) nodes (p := fun i _ => i == id)
      (f := fun _ n => { n with
        reviewStatus := .approved, reviewedBy := some pub.decidedBy, reviewedAt := some now })
      (fun _ _ => rfl) (fun _ _ => rfl) fun _ _ => rfl
    exact ⟨new, hw.marks happrove, hzero⟩

theorem markNodes_marks (t : Table RlmNode) (bufferId : Int) (changedHashes : List String) :
    Marks nodeColumns t (markRlmStaleByHashes t bufferId changedHashes) := by
  unfold markRlmStaleByHashes
  split
  · exact .refl t
  · exact .update t (fun _ _ => rfl) (fun _ _ => rfl) fun _ _ => rfl

end Wrote

/-! ## Steps -/

section Steps

variable (ix : Indexer) (scan : TextScans)

theorem lookup_filter_ne {α : Type} (l : List (String × α)) {k k' : String} (h : k ≠ k') :
    (l.filter fun e => e.1 != k').lookup k = l.lookup k := by
  induction l with
  | nil => rfl
  | cons e l ih =>
    obtain ⟨j, a⟩ := e
    by_cases hj : j = k'
    · subst hj
      rw [List.filter_cons_of_neg (by simp), ih, List.lookup_cons, beq_eq_false_iff_ne.mpr h]
    · rw [List.filter_cons_of_pos (by simpa using hj), List.lookup_cons, List.lookup_cons, ih]

theorem bump_epoch (db : ExplorationDb) (project p : String) :
    currentProjectEpoch (bumpProjectEpoch db project).1 p =
      currentProjectEpoch db p + if p = project then 1 else 0 := by
  unfold currentProjectEpoch bumpProjectEpoch
  dsimp only
  by_cases hp : p = project
  · subst hp
    simp [currentProjectEpoch]
  · rw [List.lookup_cons, beq_eq_false_iff_ne.mpr hp, if_neg hp, Int.add_zero]
    dsimp only
    rw [lookup_filter_ne db.projectEpochs hp]

/-- What one operation does to the stores. -/
structure ArchiveStep (s s' : Archive) (newMaps : RevisionLog (String × String))
    (newAnswers : RevisionLog (String × Option Int × String))
    (newNodes : RevisionLog (String × Int × String)) : Prop where
  maps : Wrote explorationColumns s.maps.explorations s'.maps.explorations newMaps
  stamped : ∀ rev ∈ newMaps, s.epoch rev.subject.1 ≤ rev.epoch ∧ rev.epoch = s'.epoch rev.subject.1
  epochs : ∀ p, s.epoch p ≤ s'.epoch p
  answers : Wrote qaColumns s.qa s'.qa newAnswers
  nodes : Wrote nodeColumns s.nodes s'.nodes newNodes
  unstamped : ∀ rev ∈ newNodes, rev.epoch = 0
  chunks : Later s.index.chunks s'.index.chunks
  forward : ForwardLinks s'.index.chunks

/-- What holds in every state. -/
structure ArchiveInv (s : Archive) : Prop where
  maps : Versioned explorationColumns s.maps.explorations
  stamped : ∀ rev ∈ revisionLog explorationColumns s.maps.explorations,
    rev.epoch ≤ s.epoch rev.subject.1
  ordered : (revisionLog explorationColumns s.maps.explorations).Pairwise fun a b =>
    a.subject = b.subject → a.epoch ≤ b.epoch
  answers : Versioned qaColumns s.qa
  nodes : Versioned nodeColumns s.nodes
  unstamped : ∀ rev ∈ revisionLog nodeColumns s.nodes, rev.epoch = 0
  forward : ForwardLinks s.index.chunks

theorem ArchiveInv.empty : ArchiveInv Archive.empty where
  maps := .empty
  stamped _ hrev := nomatch hrev
  ordered := .nil
  answers := .empty
  nodes := .empty
  unstamped _ hrev := nomatch hrev
  forward _ hx := nomatch hx

theorem ArchiveStep.refl {s : Archive} (h : ArchiveInv s) : ArchiveStep s s [] [] [] where
  maps := .refl h.maps
  stamped _ hrev := nomatch hrev
  epochs _ := Int.le_refl _
  answers := .refl h.answers
  nodes := .refl h.nodes
  unstamped _ hrev := nomatch hrev
  chunks := .refl _
  forward := h.forward

theorem ArchiveInv.step {s s' : Archive} (h : ArchiveInv s) {maps answers nodes}
    (hs : ArchiveStep s s' maps answers nodes) : ArchiveInv s' where
  maps := hs.maps.versioned
  stamped rev hrev := by
    rw [hs.maps.log, List.mem_append] at hrev
    rcases hrev with hold | hnew
    · exact Int.le_trans (h.stamped rev hold) (hs.epochs _)
    · exact Int.le_of_eq (hs.stamped rev hnew).2
  ordered := by
    rw [hs.maps.log]
    refine List.pairwise_append.mpr ⟨h.ordered, ?_, ?_⟩
    · refine List.pairwise_of_forall_mem_list fun a ha b hb he => Int.le_of_eq ?_
      rw [(hs.stamped a ha).2, (hs.stamped b hb).2, he]
    · intro a ha b hb he
      have hle := h.stamped a ha
      rw [he] at hle
      exact Int.le_trans hle (hs.stamped b hb).1
  answers := hs.answers.versioned
  nodes := hs.nodes.versioned
  unstamped rev hrev := by
    rw [hs.nodes.log, List.mem_append] at hrev
    exact hrev.elim (h.unstamped rev) (hs.unstamped rev)
  forward := hs.forward

theorem step_archive (s : Archive) (op : ArchiveOp) (h : ArchiveInv s) :
    ∃ maps answers nodes, ArchiveStep s (stepArchive ix scan s op) maps answers nodes := by
  have hsame := ArchiveStep.refl h
  cases op with
  | bump project =>
    refine ⟨[], [], [], { hsame with stamped := nofun, epochs := fun p => ?_ }⟩
    have hb := bump_epoch s.maps project p
    unfold Archive.epoch stepArchive
    dsimp only
    rw [hb]
    split <;> omega
  | stream msgs =>
    exact ⟨[], [], [], { hsame with
      chunks := indexStreamLoop_later s.index msgs
      forward := forwardLinks_kept.indexStreamLoop s.index msgs h.forward }⟩
  | storeAnswer input cacheId now =>
    obtain ⟨new, hw⟩ := storeAnswer_wrote scan.qaCache h.answers input cacheId now
    exact ⟨[], new, [], { hsame with answers := hw }⟩
  | storeNode input nodeId now =>
    unfold stepArchive
    dsimp only
    split
    · rename_i nodes _ hu
      obtain ⟨new, hw, hzero⟩ := upsertNode_wrote h.nodes hu
      exact ⟨[], [], new, { hsame with nodes := hw, unstamped := hzero }⟩
    · exact ⟨[], [], [], hsame⟩
  | publishNode pub now =>
    unfold stepArchive
    dsimp only
    split
    · rename_i nodes _ hp
      obtain ⟨new, hw, hzero⟩ := publish_wrote h.nodes hp
      exact ⟨[], [], new, { hsame with nodes := hw, unstamped := hzero }⟩
    · exact ⟨[], [], [], hsame⟩
  | persist req username gate explorationId now =>
    obtain ⟨he, new, hw, hstamp⟩ := persist_handler_wrote scan.explorations ix.scan s.index req
      username gate explorationId now h.maps
    have hepoch : ∀ p, (stepArchive ix scan s
        (.persist req username gate explorationId now)).epoch p = s.epoch p := by
      intro p
      unfold Archive.epoch currentProjectEpoch stepArchive
      dsimp only
      rw [he]
    exact ⟨new, [], [], { hsame with
      maps := hw
      stamped := fun rev hrev =>
        ⟨Int.le_of_eq (hstamp rev hrev).symm, (hstamp rev hrev).trans (hepoch _).symm⟩
      epochs := fun p => Int.le_of_eq (hepoch p).symm }⟩
  | markMaps project now =>
    exact ⟨[], [], [], { hsame with
      maps := (Wrote.refl h.maps).marks (markMaps_marks s.index.chunks s.maps project now) }⟩
  | markAnswers bufferId now =>
    exact ⟨[], [], [], { hsame with
      answers := (Wrote.refl h.answers).marks (invalidate_marks scan.qaCache s.index.chunks
        s.qa bufferId now) }⟩
  | markNodes bufferId changedHashes =>
    exact ⟨[], [], [], { hsame with
      nodes := (Wrote.refl h.nodes).marks (markNodes_marks s.nodes bufferId changedHashes) }⟩

end Steps

/-! ## The end of an epoch and later -/

/-- What was written after the end of epoch `T` of a project. -/
structure Since (project : String) (T : Nat) (e t : Archive) : Prop where
  ended : ∀ rev ∈ revisionLog explorationColumns e.maps.explorations,
    rev.subject.1 = project → rev.epoch ≤ T
  maps : ∃ new, revisionLog explorationColumns t.maps.explorations =
      revisionLog explorationColumns e.maps.explorations ++ new ∧
    ∀ rev ∈ new, rev.subject.1 = project → (T : Int) < rev.epoch
  answers : ∃ new, revisionLog qaColumns t.qa = revisionLog qaColumns e.qa ++ new
  nodes : ∃ new, revisionLog nodeColumns t.nodes = revisionLog nodeColumns e.nodes ++ new
  chunks : Later e.index.chunks t.index.chunks

namespace Since

variable {project : String} {T : Nat} {e s s' : Archive}

theorem refl (h : ∀ rev ∈ revisionLog explorationColumns s.maps.explorations,
    rev.subject.1 = project → rev.epoch ≤ T) : Since project T s s where
  ended := h
  maps := ⟨[], (List.append_nil _).symm, nofun⟩
  answers := ⟨[], (List.append_nil _).symm⟩
  nodes := ⟨[], (List.append_nil _).symm⟩
  chunks := .refl _

theorem now (h : ArchiveInv s) (hT : s.epoch project ≤ T) : Since project T s s :=
  .refl fun rev hrev hp => Int.le_trans (hp ▸ h.stamped rev hrev) hT

/-- A step that is taken after the epoch. -/
theorem step (h : Since project T e s) {maps answers nodes}
    (hs : ArchiveStep s s' maps answers nodes) (hT : (T : Int) < s'.epoch project) :
    Since project T e s' where
  ended := h.ended
  maps := by
    obtain ⟨new, hlog, hnew⟩ := h.maps
    refine ⟨new ++ maps, by rw [hs.maps.log, hlog, List.append_assoc], fun rev hrev hp => ?_⟩
    rcases List.mem_append.mp hrev with hold | hrev
    · exact hnew rev hold hp
    · rw [(hs.stamped rev hrev).2, hp]
      exact hT
  answers := by
    obtain ⟨new, hlog⟩ := h.answers
    exact ⟨new ++ answers, by rw [hs.answers.log, hlog, List.append_assoc]⟩
  nodes := by
    obtain ⟨new, hlog⟩ := h.nodes
    exact ⟨new ++ nodes, by rw [hs.nodes.log, hlog, List.append_assoc]⟩
  chunks := h.chunks.trans hs.chunks

end Since

/-! ## What the reads return -/

section Reads

variable (ix : Indexer) (scan : TextScans)

/-- The run up to the end of epoch `T` of a project. -/
def endOfEpoch (project : String) (T : Nat) (ops : List ArchiveOp) : Archive :=
  Lts.after (stepArchive ix scan) Archive.empty
    (Lts.lastAt (stepArchive ix scan) Archive.empty
      (fun s => decide (s.epoch project ≤ T)) ops)

/-- What can be read in a project. A chunk is asked for by the live row a search has found. -/
inductive Subject where
  | chunk (id : Int)
  | answer (bufferId : Option Int) (questionHash : String)
  | node (level : Int) (subject : String)
  | map (goal : String)

/-- The row id is that of an active row, if there is one. -/
def ReadsActive (active : List Int) (read : Option Int) : Prop :=
  (∀ i ∈ read, i ∈ active) ∧ (read = none → active = [])

/-- The buffer of a live chunk is the project's. -/
def Archive.liveChunk (s : Archive) (project : String) (id : Int) (r : Chunk) : Prop :=
  (id, r) ∈ s.index.chunks.rows ∧ r.isActive = true ∧
    ∃ buffer, (r.bufferId, buffer) ∈ s.index.buffers.rows ∧ buffer.name = project

/-- The read of `T` at `now` returns what was active in `past`. -/
def ReadsPast (now past : Archive) (project : String) (T : Nat) : Subject → Prop
  | .chunk id => ∀ r, now.liveChunk project id r →
    ∃ read, getChunkAsOf ix.scan now.index.chunks id T = some read ∧
      ReadsActive ((activeAt past.index.chunks r.bufferId r.key).map Prod.fst)
        (read.map Prod.fst)
  | .answer bufferId questionHash =>
    (getCachedAnswerAsOf now.qa project questionHash bufferId T).map Prod.fst =
      liveRow qaColumns past.qa (project, bufferId, questionHash)
  | .node level subject =>
    (getRlmNodeAsOf now.nodes project level subject T).map Prod.fst =
      liveRow nodeColumns past.nodes (project, level, subject)
  | .map goal =>
    (getExplorationAsOf now.maps project goal T).map Prod.fst =
      liveRow explorationColumns past.maps.explorations (project, goal)

/-- Every row of the subject was there in `past`; of a chunk, the live row. -/
def NothingNew (now past : Archive) (project : String) : Subject → Prop
  | .chunk id => ∀ r, now.liveChunk project id r → ∃ x ∈ past.index.chunks.rows, x.1 = id
  | .answer bufferId questionHash => ∀ x ∈ now.qa.rows,
    qaColumns.subject x.2 = (project, bufferId, questionHash) → ∃ y ∈ past.qa.rows, y.1 = x.1
  | .node level subject => ∀ x ∈ now.nodes.rows,
    nodeColumns.subject x.2 = (project, level, subject) → ∃ y ∈ past.nodes.rows, y.1 = x.1
  | .map _ => True

variable {ix scan}

theorem archive_inv (ops : List ArchiveOp) :
    ArchiveInv (Lts.after (stepArchive ix scan) Archive.empty ops) := by
  refine Lts.run_inv (I := fun _ s => ArchiveInv s) .empty (fun _ s op h => ?_) ops
  obtain ⟨maps, answers, nodes, hs⟩ := step_archive ix scan s op h
  exact h.step hs

theorem endOfEpoch_since (ops : List ArchiveOp) (project : String) (T : Nat) :
    Since project T (endOfEpoch ix scan project T ops)
      (Lts.after (stepArchive ix scan) Archive.empty ops) := by
  refine Lts.lastAt_run (I := ArchiveInv) (R := Since project T) archive_inv (.refl nofun)
    (fun t hI hP => .now hI (of_decide_eq_true hP)) (fun e t op hI hR hP => ?_) ops
  obtain ⟨maps, answers, nodes, hs⟩ := step_archive ix scan t op hI
  exact hR.step hs (by simpa using hP)

variable {now past : Archive} {project : String} {T : Nat}

theorem readsPast_map (hnow : ArchiveInv now) (hpast : ArchiveInv past)
    (h : Since project T past now) (goal : String) :
    ReadsPast ix now past project T (.map goal) := by
  obtain ⟨new, hlog, hnew⟩ := h.maps
  have hboth : (revisionLog explorationColumns now.maps.explorations).Pairwise fun a b =>
      a.id < b.id ∧ (a.subject = (project, goal) → b.subject = (project, goal) →
        a.epoch ≤ b.epoch) := by
    refine hnow.maps.increasing.imp₂ (fun a b hid hle => ?_) hnow.ordered
    exact ⟨hid, fun ha hb => hle (ha.trans hb.symm)⟩
  dsimp only [ReadsPast]
  rw [getExplorationAsOf_id, asOf_eq_latest hboth, liveRow_eq_latest hpast.maps, hlog]
  refine latest_stamped (fun rev hrev hk => ?_) fun rev hrev hk => ?_
  · exact h.ended rev hrev (congrArg Prod.fst hk)
  · exact hnew rev hrev (congrArg Prod.fst hk)

theorem readsPast_answer (hnow : ArchiveInv now) (hpast : ArchiveInv past)
    (h : Since project T past now) (bufferId : Option Int) (questionHash : String) :
    ReadsPast ix now past project T (.answer bufferId questionHash) ↔
      NothingNew now past project (.answer bufferId questionHash) := by
  obtain ⟨new, hlog⟩ := h.answers
  have hzero : ∀ rev ∈ revisionLog qaColumns now.qa, rev.epoch = 0 := by
    intro rev hrev
    obtain ⟨x, -, rfl⟩ := mem_revisionLog.mp hrev
    rfl
  dsimp only [ReadsPast, NothingNew]
  rw [getCachedAnswerAsOf_id,
    asOf_unstamped hnow.answers.increasing hzero (Int.natCast_nonneg T)]
  exact latest_past_iff hpast.answers hnow.answers hlog _

theorem readsPast_node (hnow : ArchiveInv now) (hpast : ArchiveInv past)
    (h : Since project T past now) (level : Int) (subject : String) :
    ReadsPast ix now past project T (.node level subject) ↔
      NothingNew now past project (.node level subject) := by
  obtain ⟨new, hlog⟩ := h.nodes
  dsimp only [ReadsPast, NothingNew]
  rw [getRlmNodeAsOf_id,
    asOf_unstamped hnow.nodes.increasing hnow.unstamped (Int.natCast_nonneg T)]
  exact latest_past_iff hpast.nodes hnow.nodes hlog _

theorem readsPast_chunk (hnow : ArchiveInv now) (h : Since project T past now) (id : Int) :
    ReadsPast ix now past project T (.chunk id) ↔ NothingNew now past project (.chunk id) := by
  unfold ReadsPast NothingNew
  refine forall_congr' fun r => forall_congr' fun hlive => ?_
  obtain ⟨hr, ha, -⟩ := hlive
  rw [getChunkAsOf_eq hnow.forward hr]
  constructor
  · rintro ⟨read, hread, hactive, -⟩
    obtain rfl := Option.some.inj hread
    obtain ⟨x, hx, he⟩ := List.mem_map.mp (hactive id rfl)
    exact ⟨x, (mem_activeAt.mp hx).1, he⟩
  · rintro ⟨x, hx, rfl⟩
    obtain ⟨r₀, hr₀, hb, hk, -, hact⟩ := h.chunks.old _ hr (SeqTable.le_seq _ x hx)
    refine ⟨_, rfl, fun i hi => ?_, nofun⟩
    obtain rfl := Option.some.inj hi
    have hm : (x.1, r₀) ∈ activeAt past.index.chunks r.bufferId r.key :=
      mem_activeAt.mpr ⟨hr₀, hb.symm, hk.symm, hact ha⟩
    exact List.mem_map.mpr ⟨_, hm, rfl⟩

variable (ix scan)

/-- Maps are always read as they were. Nothing else is stamped with its epoch: what a read of the
past returns is the present, and that is right for what nothing was written for since. -/
theorem time_travel (ops : List ArchiveOp) (project : String) (T : Nat) (k : Subject) :
    ReadsPast ix (Lts.after (stepArchive ix scan) Archive.empty ops)
        (endOfEpoch ix scan project T ops) project T k ↔
      NothingNew (Lts.after (stepArchive ix scan) Archive.empty ops)
        (endOfEpoch ix scan project T ops) project k := by
  have hnow : ArchiveInv (Lts.after (stepArchive ix scan) Archive.empty ops) := archive_inv ops
  have hpast : ArchiveInv (endOfEpoch ix scan project T ops) := archive_inv _
  have hsince : Since project T (endOfEpoch ix scan project T ops) _ :=
    endOfEpoch_since ops project T
  cases k with
  | chunk id => exact readsPast_chunk hnow hsince id
  | answer bufferId questionHash => exact readsPast_answer hnow hpast hsince bufferId questionHash
  | node level subject => exact readsPast_node hnow hpast hsince level subject
  | map goal => exact iff_of_true (readsPast_map hnow hpast hsince goal) trivial

def scansByRowid : TextScans := ⟨.rowid, .rowid, .rowid, .rowid⟩

def answerOf (text : String) : StoreAnswerInput where
  bufferId := some 1
  project := "p"
  questionText := "what is a?"
  questionHash := "q1"
  answerText := text
  sourceChunkIds := []
  sourceHashes := []

def summaryOf (text : String) : NewRlmNode where
  bufferId := some 1
  project := "p"
  level := 1
  subject := "m.rs"
  summaryText := text
  sourceHashes := []
  model := none
  volunteerUsername := none
  createdBy := none
  templateVersion := none
  tokenCount := 0

/-- A file, its summary and an answer about it, all written anew after a bump of the epoch. -/
def rewritten : List ArchiveOp :=
  [.storeAnswer (answerOf "another file") "c2" 4, .storeNode (summaryOf "another file") "n2" 4,
    .stream (streamOf "p" "/p" [("m.rs", "b")]), .bump "p",
    .storeAnswer (answerOf "a file") "c1" 1, .storeNode (summaryOf "a file") "n1" 1,
    .stream (streamOf "p" "/p" [("m.rs", "a")])]

/-- Each read of epoch 0 returns what was written in epoch 1. -/
theorem time_travel_rewritten :
    let now := Lts.after (stepArchive sampleIndexer scansByRowid) Archive.empty rewritten
    let past := endOfEpoch sampleIndexer scansByRowid "p" 0 rewritten
    ¬ ReadsPast sampleIndexer now past "p" 0 (.answer (some 1) "q1") ∧
      ¬ ReadsPast sampleIndexer now past "p" 0 (.node 1 "m.rs") ∧
      ¬ ReadsPast sampleIndexer now past "p" 0 (.chunk 2) := by
  refine ⟨?_, ?_, fun h => ?_⟩
  · dsimp only [ReadsPast]
    decide +kernel
  · dsimp only [ReadsPast]
    decide +kernel
  · have hrow : ((Lts.after (stepArchive sampleIndexer scansByRowid) Archive.empty
        rewritten).index.chunks.get? 2).any (fun r => r.isActive && r.bufferId == 1 &&
          r.key == ("m.rs", 1, 1)) = true := by decide +kernel
    have hbuffer : (1, ⟨"p", "/p", 1, 2⟩) ∈ (Lts.after (stepArchive sampleIndexer scansByRowid)
        Archive.empty rewritten).index.buffers.rows := by decide +kernel
    have hread : (getChunkAsOf .rowid (Lts.after (stepArchive sampleIndexer scansByRowid)
        Archive.empty rewritten).index.chunks 2 0).map (Option.map Prod.fst) =
          some (some 2) := by decide +kernel
    have hpast : (activeAt (endOfEpoch sampleIndexer scansByRowid "p" 0 rewritten).index.chunks 1
        ("m.rs", 1, 1)).map Prod.fst = [1] := by decide +kernel
    obtain ⟨r, hr, hlive⟩ := (Option.any_eq_true ..).mp hrow
    simp only [Bool.and_eq_true, beq_iff_eq] at hlive
    obtain ⟨⟨hactive, hb⟩, hk⟩ := hlive
    obtain ⟨read, hget, hin, -⟩ := h r ⟨Table.get?_eq_some.mp hr, hactive, _, hb ▸ hbuffer, rfl⟩
    rw [hb, hk, hpast] at hin
    have hid : read.map Prod.fst = some 2 := by
      have := congrArg (Option.map (Option.map Prod.fst)) hget
      exact Option.some.inj (this.symm.trans hread)
    exact absurd (hin 2 hid) (by decide)

end Reads

end Arags
