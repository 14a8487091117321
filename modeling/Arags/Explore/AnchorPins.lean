import Arags.Explore.AnchorStaleness
import Arags.Explore.MapHistory

/-!
# Arags.Explore.AnchorPins

What a persist makes of the files that a map cites, over any chunk table, and what becomes of the
anchors while streams go on.

* `AnchorsPinned`, `Pins` — one anchor for each file with active chunks, and a stream that changes
  such a file breaks one of them.
* `FilesOwned`    — the rows of `exploration_files` are of maps that are there.
* `emptied`, `changing_stream` — some stream changes a file that has active chunks.
* `anchors_pin`   — when a persist pins its files, when it succeeds, and what it stores.
-/

namespace Arags

open Sql

/-! ## The property -/

/-- Some row of the file is there. -/
def hasRows (chunks : SeqTable Chunk) (bufferId : Int) (path : String) : Bool :=
  chunks.rows.any fun x => x.2.bufferId == bufferId && x.2.filePath == path

def activeRowsOf (chunks : SeqTable Chunk) (bufferId : Int) (path : String) : List (Int × Chunk) :=
  chunks.select fun _ r => r.bufferId == bufferId && r.filePath == path && r.isActive

/-- The content of a file: its active texts, each with its lines. -/
def fileTexts (chunks : SeqTable Chunk) (bufferId : Int) (path : String) :
    List (ChunkKey × String) :=
  (activeRowsOf chunks bufferId path).map fun x => (x.2.key, x.2.content)

def Changed (before after : List (ChunkKey × String)) : Prop := ∃ x, ¬ (x ∈ before ↔ x ∈ after)

section Streamed

variable {ε : Type} (ix : Indexer) (enabled : Bool)

/-- Index streams, the last one first, with their hooks. -/
def streamed (s : MapServer ε) (later : List (List IndexMsg × Int)) : MapServer ε :=
  Lts.after (fun s m => indexWithMaps ix enabled s m.1 m.2) s later

/-- Of a map that is stored under `id`, with its server. -/
structure AnchorsPinned (s : MapServer ε) (files : List String) (bufferId id : Int)
    (unresolved : List String) : Prop where
  once : ∀ path, ((citedAnchors s.maps id).map ExplorationAnchor.path).count path =
    if path ∈ files ∧ activeRowsOf s.index.chunks bufferId path ≠ [] then 1 else 0
  others : ∀ path, path ∈ unresolved ↔
    path ∈ files ∧ activeRowsOf s.index.chunks bufferId path = []
  pinned : ∀ path ∈ (citedAnchors s.maps id).map ExplorationAnchor.path, ∀ later m,
    Changed (fileTexts (streamed ix enabled s later).index.chunks bufferId path)
      (fileTexts (streamed ix enabled s (m :: later)).index.chunks bufferId path) →
    recheckAnchorsForRowid (streamed ix enabled s (m :: later)).index.chunks
      (streamed ix enabled s (m :: later)).maps id ≠ []

/-- The persist succeeds, and pins the files. -/
def Pins (scan : ScanOrder ExplorationRow) (s : MapServer ε) (req : PersistExplorationRequest)
    (username : String) (gate : ReviewGate) (explorationId : String) (now bufferId : Int) : Prop :=
  ∃ maps id text unresolved, handlePersistExploration scan ix.scan enabled s.index s.maps req
      username gate explorationId now = (maps, .ok (id, text, unresolved)) ∧
    AnchorsPinned ix enabled { s with maps := maps } req.files bufferId id unresolved

/-- A request that passes the checks, for a project that is there, under an id that is new. -/
structure PersistReady (s : MapServer ε) (req : PersistExplorationRequest)
    (explorationId : String) (bufferId : Int) : Prop where
  enabled : enabled = true
  valid : validatePersist req = .ok ()
  project : ((s.index.buffers.select fun _ r => r.name == req.project).head?).map Prod.fst =
    some bufferId
  new : ∀ x ∈ s.maps.explorations.rows, x.2.explorationId ≠ explorationId

end Streamed

/-! ## What a persist stores -/

section Persist

theorem hasRows_iff {chunks : SeqTable Chunk} {b : Int} {path : String} :
    hasRows chunks b path = true ↔
      ∃ x ∈ chunks.rows, x.2.bufferId = b ∧ x.2.filePath = path := by
  unfold hasRows
  simp only [List.any_eq_true, Bool.and_eq_true, beq_iff_eq]

theorem currentHash_isSome (scan : ScanOrder Chunk) (chunks : SeqTable Chunk) (b : Int)
    (path : String) : (((scan.order (chunks.select fun _ r =>
      r.bufferId == b && r.filePath == path)).head?).map fun x => hexEncode x.2.hash).isSome =
        hasRows chunks b path := by
  rw [Option.isSome_map, Bool.eq_iff_iff, hasRows_iff, List.isSome_head?]
  constructor
  · intro h
    obtain ⟨x, hx⟩ := List.exists_mem_of_ne_nil _ (by simpa using h)
    obtain ⟨hx, hp⟩ := Table.mem_select.mp (scan.mem_order.mp hx)
    simp only [Bool.and_eq_true, beq_iff_eq] at hp
    exact ⟨x, hx, hp⟩
  · rintro ⟨x, hx, hb, hp⟩
    have hmem : x ∈ scan.order (chunks.select fun _ r => r.bufferId == b && r.filePath == path) :=
      scan.mem_order.mpr (Table.mem_select.mpr ⟨hx, by simp [hb, hp]⟩)
    simpa using List.ne_nil_of_mem hmem

/-- A path is anchored where the file has rows, of whatever version, and as often as it is
cited. -/
theorem resolveAnchors_paths (scan : ScanOrder Chunk) (chunks : SeqTable Chunk) (b : Int)
    (files : List String) :
    (resolveAnchors scan chunks b files).1.map ExplorationAnchor.path =
        files.filter (hasRows chunks b) ∧
      (resolveAnchors scan chunks b files).2 = files.filter fun path => !hasRows chunks b path := by
  unfold resolveAnchors currentHashesForPaths
  dsimp only
  induction files with
  | nil => exact ⟨rfl, rfl⟩
  | cons path files ih =>
    obtain ⟨ihAnchors, ihOthers⟩ := ih
    have hsome := currentHash_isSome scan chunks b path
    rw [List.map_cons]
    cases hhash : ((scan.order (chunks.select fun _ r =>
        r.bufferId == b && r.filePath == path)).head?).map fun x => hexEncode x.2.hash with
    | none =>
      have hrows : hasRows chunks b path = false := by
        rw [← hsome, hhash]
        rfl
      simp only [List.filterMap_cons, Option.map_none, List.filter_cons, Option.isNone_none,
        if_true, List.map_cons, hrows, Bool.false_eq_true, if_false, Bool.not_false, ihAnchors,
        ihOthers, and_self]
    | some hash =>
      have hrows : hasRows chunks b path = true := by
        rw [← hsome, hhash]
        rfl
      simp only [List.filterMap_cons, Option.map_some, List.filter_cons, Option.isNone_some,
        Bool.false_eq_true, if_false, List.map_cons, hrows, if_true, Bool.not_true, ihAnchors,
        ihOthers, and_self]

/-- The handler, for a request that is ready. -/
theorem handlePersist_ready {ε : Type} {ix : Indexer} {scan : ScanOrder ExplorationRow}
    {enabled : Bool} {s : MapServer ε} {req : PersistExplorationRequest} {explorationId : String}
    {b : Int} (h : PersistReady enabled s req explorationId b) (username : String)
    (gate : ReviewGate) (now : Int) :
    handlePersistExploration scan ix.scan enabled s.index s.maps req username gate explorationId
        now =
      match persistExploration scan s.maps
        (req.input b (resolveAnchors ix.scan s.index.chunks b req.files).1 username) explorationId
          now with
      | .error e => (s.maps, .error e)
      | .ok (stored, id) =>
        (if gate.holds then markExplorationPending stored id else stored,
          .ok (id, mapEmbedText req, (resolveAnchors ix.scan s.index.chunks b req.files).2)) := by
  obtain ⟨⟨b', buffer⟩, hhead, hb⟩ := Option.map_eq_some_iff.mp h.project
  obtain rfl : b' = b := hb
  have hoff : (!enabled) = false := by rw [h.enabled]; rfl
  cases hrun : persistExploration scan s.maps (req.input b' (resolveAnchors ix.scan s.index.chunks
      b' req.files).1 username) explorationId now with
  | error e =>
    simp only [handlePersistExploration, hoff, Bool.false_eq_true, if_false, h.valid, hhead, hrun]
  | ok out =>
    simp only [handlePersistExploration, hoff, Bool.false_eq_true, if_false, h.valid, hhead, hrun]

/-- What the transaction of a persist that is ready comes to. -/
theorem persist_ready {ε : Type} (ix : Indexer) (scan : ScanOrder ExplorationRow)
    {enabled : Bool} {s : MapServer ε} {req : PersistExplorationRequest} {explorationId : String}
    {b : Int} (h : PersistReady enabled s req explorationId b) (username : String)
    (gate : ReviewGate) (now : Int) :
    (∃ out, (handlePersistExploration scan ix.scan enabled s.index s.maps req username gate
        explorationId now).2 = .ok out) ↔ (req.files.filter (hasRows s.index.chunks b)).Nodup := by
  have hpaths := (resolveAnchors_paths ix.scan s.index.chunks b req.files).1
  have hadmitted := @persistAdmitted_iff scan s.maps
    (req.input b (resolveAnchors ix.scan s.index.chunks b req.files).1 username) explorationId now
  have hnew : (s.maps.explorations.rows.any fun x => x.2.explorationId == explorationId) =
      false := by
    rw [List.any_eq_false]
    exact fun x hx => by simpa using h.new x hx
  unfold persistAdmitted at hadmitted
  rw [hnew, Bool.not_false, Bool.true_and, decide_eq_true_eq] at hadmitted
  have hnodup : (((req.input b (resolveAnchors ix.scan s.index.chunks b req.files).1
      username).anchors.map ExplorationAnchor.path).Nodup) ↔
        (req.files.filter (hasRows s.index.chunks b)).Nodup := by
    rw [← hpaths]
    exact Iff.rfl
  rw [← hnodup, hadmitted, handlePersist_ready h]
  constructor
  · rintro ⟨out, hout⟩
    split at hout
    · cases hout
    · rename_i stored hstored
      exact ⟨_, hstored⟩
  · rintro ⟨⟨stored, id⟩, hstored⟩
    rw [hstored]
    exact ⟨_, rfl⟩

end Persist

/-! ## The maps of the anchors -/

section Owned

variable {ε : Type}

/-- The foreign key of `exploration_files`. -/
def FilesOwned (db : ExplorationDb) : Prop :=
  ∀ f ∈ db.explorationFiles, f.1 ∈ db.explorations.rows.map Prod.fst

/-- A write that keeps the anchors and the ids. -/
theorem FilesOwned.of_ids {db db' : ExplorationDb} (h : FilesOwned db)
    (hfiles : db'.explorationFiles = db.explorationFiles)
    (hids : db'.explorations.rows.map Prod.fst = db.explorations.rows.map Prod.fst) :
    FilesOwned db' := by
  intro f hf
  rw [hids]
  exact h f (hfiles ▸ hf)

theorem FilesOwned.update {db : ExplorationDb} (h : FilesOwned db)
    (p : Int → ExplorationRow → Bool) (f : Int → ExplorationRow → ExplorationRow) :
    FilesOwned { db with explorations := db.explorations.update p f } :=
  h.of_ids rfl (Table.ids_update _ _ _)

theorem FilesOwned.setUnretired {db : ExplorationDb} (h : FilesOwned db)
    (p : Int → ExplorationRow → Bool) (status : MapStatus) (now : Int) :
    FilesOwned (setUnretired db p status now) := h.update _ _

theorem FilesOwned.markStale {db : ExplorationDb} (h : FilesOwned db) (chunks : SeqTable Chunk)
    (project : String) (now : Int) :
    FilesOwned (markStaleIfAnchorsChanged chunks db project now).1 := h.update _ _

theorem FilesOwned.feedback {s : MapServer ε} (h : FilesOwned s.maps) (explorationId : String)
    (kind : FeedbackKind) (limit now : Int) :
    FilesOwned (recordFeedback s explorationId kind limit now).maps := by
  have htouched : ∀ id, FilesOwned (touchedByFeedback s.maps id kind now) :=
    fun id => h.update _ _
  exact recordFeedback_keeps s explorationId kind limit now h htouched
    fun id => (htouched id).setUnretired _ _ _

theorem FilesOwned.delete {db : ExplorationDb} (h : FilesOwned db) (id : Int) :
    FilesOwned (deleteExploration db id) := by
  intro f hf
  obtain ⟨hf, hne⟩ := List.mem_filter.mp hf
  obtain ⟨x, hx, hxf⟩ := List.mem_map.mp (h f hf)
  refine List.mem_map.mpr ⟨x, ?_, hxf⟩
  rw [bne_iff_ne, ← hxf] at hne
  exact Table.mem_delete.mpr ⟨hx, beq_eq_false_iff_ne.mpr hne⟩

theorem FilesOwned.persist {scan : ScanOrder ExplorationRow} {db maps : ExplorationDb}
    {input : PersistExplorationInput} {explorationId : String} {now id : Int}
    (h : FilesOwned db)
    (hp : persistExploration scan db input explorationId now = .ok (maps, id)) :
    FilesOwned maps := by
  have hstored := persistExploration_ok hp
  intro f hf
  rw [hstored.files, List.mem_append] at hf
  obtain hf | hf := hf
  · obtain ⟨x, hx, hxf⟩ := List.mem_map.mp (h f hf)
    exact List.mem_map.mpr ⟨(x.1, _), (hstored.row x.1 _).mpr (.inr ⟨x.2, hx, rfl⟩), hxf⟩
  · obtain ⟨a, -, rfl⟩ := List.mem_map.mp hf
    exact List.mem_map.mpr ⟨(id, _), (hstored.row id _).mpr (.inl ⟨rfl, rfl⟩), rfl⟩

theorem stepMaps_owned {ix : Indexer} {scan : ScanOrder ExplorationRow} {enabled : Bool}
    {s : MapServer ε} (h : FilesOwned s.maps) (op : MapOp ε) :
    FilesOwned (stepMaps ix scan enabled s op).maps := by
  cases op with
  | stream msgs now =>
    unfold stepMaps indexWithMaps
    dsimp only
    split
    · exact FilesOwned.markStale (h.of_ids rfl rfl) _ _ _
    · exact h
  | persist req username gate explorationId now vector =>
    simp only [stepMaps]
    split
    · rename_i maps id _ _ hp
      obtain ⟨e, he⟩ | ⟨_, _, stored, _, -, hstored, he⟩ := handlePersistExploration_cases scan
        ix.scan enabled s.index s.maps req username gate explorationId now
      · rw [he] at hp
        cases hp
      rw [he] at hp
      cases hp
      dsimp only
      split
      · exact (h.persist hstored).update _ _
      · exact h.persist hstored
    · exact h
  | markStale project now => exact h.markStale _ _ _
  | feedback explorationId kind limit now => exact h.feedback _ _ _ _
  | invalidate explorationId reason mode now =>
    simp only [stepMaps, handleInvalidateExploration]
    split
    · exact h
    · exact h.update _ _
    · exact h.delete _
  | review explorationId approved now => exact h.setUnretired _ _ _
  | reconcile id vector =>
    simp only [stepMaps]
    split
    · exact h
    · exact h

theorem run_owned (ix : Indexer) (scan : ScanOrder ExplorationRow) (enabled : Bool)
    (ops : List (MapOp ε)) :
    FilesOwned (Lts.after (stepMaps ix scan enabled) (MapServer.empty : MapServer ε) ops).maps :=
  Lts.run_inv (I := fun _ (s : MapServer ε) => FilesOwned s.maps)
    (fun _ hf => absurd hf List.not_mem_nil) (fun _ _ op hs => stepMaps_owned hs op) ops

/-- The anchors under a new id are those of the persist. -/
theorem persisted_anchors {scan : ScanOrder ExplorationRow} {db maps : ExplorationDb}
    {input : PersistExplorationInput} {explorationId : String} {now id : Int}
    (h : FilesOwned db) (hcited : ∀ a ∈ input.anchors, a.role = .cited)
    (hp : persistExploration scan db input explorationId now = .ok (maps, id)) :
    citedAnchors maps id = input.anchors := by
  have hstored := persistExploration_ok hp
  have hold : db.explorationFiles.filter (fun f => f.1 == id && f.2.role == .cited) = [] := by
    refine List.filter_eq_nil_iff.mpr fun f hf hid => ?_
    obtain ⟨x, hx, hxf⟩ := List.mem_map.mp (h f hf)
    have hfid : f.1 = id := beq_iff_eq.mp (Bool.and_eq_true _ _ |>.mp hid).1
    have hxid : x.1 = id := hxf.trans hfid
    exact hstored.fresh x.2 (hxid ▸ hx)
  have hnew : (input.anchors.map fun a => (id, a)).filter
      (fun f => f.1 == id && f.2.role == .cited) = input.anchors.map fun a => (id, a) := by
    refine List.filter_eq_self.mpr fun f hf => ?_
    obtain ⟨a, ha, rfl⟩ := List.mem_map.mp hf
    simp [hcited a ha]
  unfold citedAnchors
  rw [hstored.files, List.filter_append, hold, hnew, List.nil_append, List.map_map]
  exact List.map_id _

theorem resolveAnchors_cited (scan : ScanOrder Chunk) (chunks : SeqTable Chunk) (b : Int)
    (files : List String) : ∀ a ∈ (resolveAnchors scan chunks b files).1, a.role = .cited := by
  intro a ha
  obtain ⟨x, -, hxa⟩ := List.mem_filterMap.mp ha
  obtain ⟨hash, -, rfl⟩ := Option.map_eq_some_iff.mp hxa
  rfl

/-- What a persist that succeeds has stored. -/
theorem handlePersist_stored {ix : Indexer} {scan : ScanOrder ExplorationRow} {enabled : Bool}
    {s : MapServer ε} {req : PersistExplorationRequest} {explorationId username : String}
    {gate : ReviewGate} {now b id : Int} {maps : ExplorationDb} {text : String}
    {unresolved : List String} (hs : FilesOwned s.maps)
    (h : PersistReady enabled s req explorationId b)
    (hp : handlePersistExploration scan ix.scan enabled s.index s.maps req username gate
      explorationId now = (maps, .ok (id, text, unresolved))) :
    citedAnchors maps id = (resolveAnchors ix.scan s.index.chunks b req.files).1 ∧
      unresolved = req.files.filter fun path => !hasRows s.index.chunks b path := by
  rw [handlePersist_ready h] at hp
  split at hp
  · cases hp
  rename_i stored id' hstored
  cases hp
  have hanchors := persisted_anchors hs (resolveAnchors_cited _ _ _ _) hstored
  refine ⟨?_, (resolveAnchors_paths _ _ _ _).2⟩
  split
  · exact hanchors
  · exact hanchors

end Owned

/-! ## The streams that follow -/

section Later

variable {ε : Type} {ix : Indexer} {enabled : Bool} {s : MapServer ε}

theorem indexWithMaps_kept (ix : Indexer) (enabled : Bool) (s : MapServer ε)
    (msgs : List IndexMsg) (now : Int) :
    (indexWithMaps ix enabled s msgs now).maps.explorationFiles = s.maps.explorationFiles ∧
      (indexWithMaps ix enabled s msgs now).index = (indexStreamLoop ix s.index msgs).1 := by
  unfold indexWithMaps
  dsimp only
  split
  · exact ⟨rfl, rfl⟩
  · exact ⟨rfl, rfl⟩

theorem streamed_kept (ix : Indexer) (enabled : Bool) (s : MapServer ε)
    (later : List (List IndexMsg × Int)) :
    (streamed ix enabled s later).maps.explorationFiles = s.maps.explorationFiles ∧
      Later s.index.chunks (streamed ix enabled s later).index.chunks := by
  induction later with
  | nil => exact ⟨rfl, .refl _⟩
  | cons m later ih =>
    obtain ⟨hfiles, hindex⟩ :=
      indexWithMaps_kept ix enabled (streamed ix enabled s later) m.1 m.2
    refine ⟨hfiles.trans ih.1, ?_⟩
    have hstep : (streamed ix enabled s (m :: later)).index =
        (indexStreamLoop ix (streamed ix enabled s later).index m.1).1 := hindex
    rw [hstep]
    exact ih.2.trans (indexStreamLoop_later _ _)

/-- No stream breaks an anchor that holds. -/
theorem streamed_unbroken {id : Int}
    (h : ∀ a ∈ citedAnchors s.maps id, a.broken s.index.chunks = false)
    (later : List (List IndexMsg × Int)) :
    recheckAnchorsForRowid (streamed ix enabled s later).index.chunks
      (streamed ix enabled s later).maps id = [] := by
  obtain ⟨hfiles, hlater⟩ := streamed_kept ix enabled s later
  unfold recheckAnchorsForRowid
  rw [hfiles, List.map_eq_nil_iff, List.filter_eq_nil_iff]
  intro f hf hbroken
  obtain ⟨hid, hbroken⟩ := Bool.and_eq_true _ _ |>.mp hbroken
  have hrole : (f.2.role == .cited) = true := (Bool.and_eq_true _ _ |>.mp hbroken).1
  have hcited : f.2 ∈ citedAnchors s.maps id :=
    List.mem_map.mpr ⟨f, List.mem_filter.mpr ⟨hf, by rw [hid, hrole]; rfl⟩, rfl⟩
  rw [broken_later hlater (h f.2 hcited)] at hbroken
  cases hbroken

/-! ## A stream that changes a file -/

/-- The stream of a project in which one file is left, without content. -/
def emptied (project path : String) : List IndexMsg := streamOf project "" [(path, "")]

theorem itemsOf_emptied (path : String) : itemsOf ix [(path, "")] = [] := by
  unfold itemsOf Chunker.chunksOf indexFileWith chunkLines
  simp

theorem activeRowsOf_retireAll (t : SeqTable Chunk) (ids : List Int) (b : Int) (path : String) :
    activeRowsOf (retireAll t ids) b path =
      (activeRowsOf t b path).filter fun x => !ids.contains x.1 := by
  induction ids generalizing t with
  | nil => exact (List.filter_eq_self.mpr fun _ _ => rfl).symm
  | cons i ids ih =>
    have hone : activeRowsOf (retireChunk t i none) b path =
        (activeRowsOf t b path).filter fun x => !(x.1 == i && x.2.isActive) :=
      Table.select_update_out (t := t.toTable)
        (p := fun _ r => r.bufferId == b && r.filePath == path && r.isActive)
        (q := fun j r => j == i && r.isActive)
        (f := fun _ r => { r with isActive := false, supersededBy := none })
        fun _ _ _ _ => Bool.and_false _
    refine (ih _).trans ?_
    rw [hone, List.filter_filter]
    refine List.filter_congr fun x hx => ?_
    have hactive : x.2.isActive = true := by
      have hp := (Table.mem_select.mp hx).2
      exact (Bool.and_eq_true _ _ |>.mp hp).2
    rw [hactive, Bool.and_true, List.contains_cons, Bool.not_or, Bool.and_comm]

/-- It retires a row of the file, if there is one, and adds none. -/
theorem emptied_rows {db : IndexDb} {project path : String} {b : Int}
    (hb : projectId db.buffers project = b) (hne : activeRowsOf db.chunks b path ≠ []) :
    projectId (indexStreamLoop ix db (emptied project path)).1.buffers project = b ∧
      (activeRowsOf (indexStreamLoop ix db (emptied project path)).1.chunks b path).length <
        (activeRowsOf db.chunks b path).length := by
  obtain ⟨st, hrun, hproj, hbuf, hsnap, hrem⟩ :=
    runLoop_stream ix db project "" (path, "") [] hb
  have hentries : (entriesOf ix [(path, "")]).map Prod.fst = [] := by
    unfold entriesOf
    rw [itemsOf_emptied]
    rfl
  rw [itemsOf_emptied] at hrun
  simp only [emptied, indexStreamLoop, hrun, finish, hproj, hbuf]
  refine ⟨by rw [projectId_increment, projectId_ensureProject, hb], ?_⟩
  rw [orphanPass_snapshot hsnap]
  have hsame : persistTable ix.scan b (snapshotActiveChunks ix.scan db.chunks b) db.chunks [] =
      db.chunks := rfl
  rw [hsame, activeRowsOf_retireAll]
  -- the snapshot holds one row at the lines of each active chunk
  obtain ⟨x, hx⟩ := List.exists_mem_of_ne_nil _ hne
  obtain ⟨hmem, hp⟩ := Table.mem_select.mp hx
  simp only [Bool.and_eq_true, beq_iff_eq] at hp
  have hat : x ∈ activeAt db.chunks b x.2.key := mem_activeAt.mpr ⟨hmem, hp.1.1, rfl, hp.2⟩
  have hkey : x.2.key ∈ st.remainingActive := by
    rw [hrem, hentries]
    exact ⟨List.ne_nil_of_mem hat, List.not_mem_nil⟩
  have hhas : (snapshotActiveChunks ix.scan db.chunks b).has x.2.key = true :=
    snapshot_has.mpr (List.ne_nil_of_mem hat)
  obtain ⟨i, hi⟩ := Option.isSome_iff_exists.mp hhas
  obtain ⟨r, hr⟩ := snapshot_lookup hi
  obtain ⟨hrmem, hrb, hrkey, hractive⟩ := mem_activeAt.mp hr
  have hpath : r.filePath = path := (congrArg Prod.fst hrkey).trans hp.1.2
  refine List.length_filter_lt_length_iff_exists.mpr ⟨(i, r), ?_, ?_⟩
  · refine Table.mem_select.mpr ⟨hrmem, ?_⟩
    rw [hrb, hpath, hractive, beq_self_eq_true, beq_self_eq_true]
    rfl
  · have hid : i ∈ st.remainingActive.filterMap fun k =>
        (snapshotActiveChunks ix.scan db.chunks b).lookup k :=
      List.mem_filterMap.mpr ⟨x.2.key, hkey, hi⟩
    rw [List.contains_iff_mem.mpr hid]
    simp

/-- Over streams that empty the project, one of them changes the file. -/
theorem changing_stream {project path : String} {b : Int} (n : Nat) : ∀ (s : MapServer ε),
    projectId s.index.buffers project = b → activeRowsOf s.index.chunks b path ≠ [] →
      (activeRowsOf s.index.chunks b path).length ≤ n → ∃ later m,
        Changed (fileTexts (streamed ix enabled s later).index.chunks b path)
          (fileTexts (streamed ix enabled s (m :: later)).index.chunks b path) := by
  induction n with
  | zero =>
    intro s _ hne hlen
    exact absurd (List.length_eq_zero_iff.mp (Nat.le_zero.mp hlen)) hne
  | succ n ih =>
    intro s hb hne hlen
    by_cases hchanged : Changed (fileTexts s.index.chunks b path)
        (fileTexts (indexWithMaps ix enabled s (emptied project path) 0).index.chunks b path)
    · exact ⟨[], (emptied project path, 0), hchanged⟩
    · -- the same texts, in fewer rows
      obtain ⟨hb', hless⟩ := @emptied_rows ix _ _ _ _ hb hne
      rw [← (indexWithMaps_kept ix enabled s (emptied project path) 0).2] at hb' hless
      have hne' : activeRowsOf (indexWithMaps ix enabled s (emptied project path) 0).index.chunks b
          path ≠ [] := by
        obtain ⟨x, hx⟩ := List.exists_mem_of_ne_nil _ hne
        have htext : (x.2.key, x.2.content) ∈ fileTexts s.index.chunks b path :=
          List.mem_map.mpr ⟨x, hx, rfl⟩
        have hkept : (x.2.key, x.2.content) ∈ fileTexts
            (indexWithMaps ix enabled s (emptied project path) 0).index.chunks b path := by
          by_contra hgone
          exact hchanged ⟨_, fun hiff => hgone (hiff.mp htext)⟩
        obtain ⟨y, hy, -⟩ := List.mem_map.mp hkept
        exact List.ne_nil_of_mem hy
      obtain ⟨later, m, hlater⟩ :=
        ih (indexWithMaps ix enabled s (emptied project path) 0) hb' hne' (by omega)
      refine ⟨later ++ [(emptied project path, 0)], m, ?_⟩
      unfold streamed at hlater ⊢
      rw [← List.cons_append, Lts.after_append, Lts.after_append]
      exact hlater

end Later

/-! ## The result -/

section Result

variable {ε : Type}

theorem hasRows_of_active {chunks : SeqTable Chunk} {b : Int} {path : String}
    (h : activeRowsOf chunks b path ≠ []) : hasRows chunks b path = true := by
  obtain ⟨x, hx⟩ := List.exists_mem_of_ne_nil _ h
  obtain ⟨hmem, hp⟩ := Table.mem_select.mp hx
  simp only [Bool.and_eq_true, beq_iff_eq] at hp
  exact hasRows_iff.mpr ⟨x, hmem, hp.1⟩

/-- The buffer that the handler finds is the one that a stream of the project goes to. -/
theorem PersistReady.projectId {enabled : Bool} {s : MapServer ε}
    {req : PersistExplorationRequest} {explorationId : String} {b : Int}
    (h : PersistReady enabled s req explorationId b) :
    projectId s.index.buffers req.project = b := by
  unfold Arags.projectId
  rw [h.project]
  rfl

/-- What a persist that is answered has stored and reported, and that no stream breaks it. -/
theorem persist_anchors {ix : Indexer} {scan : ScanOrder ExplorationRow} {enabled : Bool}
    {s : MapServer ε} {req : PersistExplorationRequest} {explorationId username : String}
    {gate : ReviewGate} {now b id : Int} {maps : ExplorationDb} {text : String}
    {unresolved : List String} (howned : FilesOwned s.maps)
    (h : PersistReady enabled s req explorationId b)
    (hrun : handlePersistExploration scan ix.scan enabled s.index s.maps req username gate
      explorationId now = (maps, .ok (id, text, unresolved))) :
    (citedAnchors maps id).map ExplorationAnchor.path =
        req.files.filter (hasRows s.index.chunks b) ∧
      unresolved = (req.files.filter fun path => !hasRows s.index.chunks b path) ∧
      ∀ later, recheckAnchorsForRowid
        (streamed ix enabled { s with maps := maps } later).index.chunks
        (streamed ix enabled { s with maps := maps } later).maps id = [] := by
  obtain ⟨hanchors, hothers⟩ := handlePersist_stored howned h hrun
  refine ⟨?_, hothers, streamed_unbroken ?_⟩
  · rw [hanchors]
    exact (resolveAnchors_paths _ _ _ _).1
  · rw [hanchors]
    exact resolveAnchors_founded

/-- A path with rows is anchored, and some streams change its file and break nothing. -/
theorem AnchorsPinned.unstored {ix : Indexer} {enabled : Bool} {s : MapServer ε} {project : String}
    {files : List String} {b id : Int} {unresolved : List String}
    (hpins : AnchorsPinned ix enabled s files b id unresolved)
    (hproject : projectId s.index.buffers project = b)
    (hpaths : (citedAnchors s.maps id).map ExplorationAnchor.path =
      files.filter (hasRows s.index.chunks b))
    (hunbroken : ∀ later, recheckAnchorsForRowid (streamed ix enabled s later).index.chunks
      (streamed ix enabled s later).maps id = []) :
    ∀ path ∈ files, hasRows s.index.chunks b path = false := by
  intro path hpath
  rw [Bool.eq_false_iff]
  intro hrows
  have hanchored : path ∈ (citedAnchors s.maps id).map ExplorationAnchor.path := by
    rw [hpaths]
    exact List.mem_filter.mpr ⟨hpath, hrows⟩
  by_cases hactive : activeRowsOf s.index.chunks b path = []
  · -- only retired rows: anchored all the same
    have hcount := hpins.once path
    rw [if_neg fun hc => hc.2 hactive] at hcount
    exact List.count_eq_zero.mp hcount hanchored
  · obtain ⟨later, m, hchanged⟩ := @changing_stream ε ix enabled _ _ _ _ s hproject hactive
      (Nat.le_refl _)
    exact hpins.pinned path hanchored later m hchanged (hunbroken (m :: later))

/-- Without rows nothing is anchored, and every path is reported. -/
theorem AnchorsPinned.of_unstored {ix : Indexer} {enabled : Bool} {s : MapServer ε}
    {files : List String} {b id : Int}
    (hnone : ∀ path ∈ files, hasRows s.index.chunks b path = false)
    (hpaths : (citedAnchors s.maps id).map ExplorationAnchor.path = []) :
    AnchorsPinned ix enabled s files b id
      (files.filter fun path => !hasRows s.index.chunks b path) := by
  have hinactive : ∀ path ∈ files, activeRowsOf s.index.chunks b path = [] := by
    intro path hpath
    by_contra hactive
    exact absurd (hasRows_of_active hactive) (by rw [hnone path hpath]; exact Bool.false_ne_true)
  refine ⟨fun path => ?_, fun path => ?_, ?_⟩
  · rw [hpaths, List.count_nil, if_neg fun hc => hc.2 (hinactive path hc.1)]
  · rw [List.mem_filter]
    constructor
    · exact fun hc => ⟨hc.1, hinactive path hc.1⟩
    · exact fun hc => ⟨hc.1, by rw [hnone path hc.1]; rfl⟩
  · intro path hpath
    rw [hpaths] at hpath
    cases hpath

/-- Over any chunk table. A persist pins the files that it cites only where none of them has a row.
It succeeds exactly when no path with rows is cited twice; it then anchors the paths with rows, of
whatever version, reports the others, and no stream breaks an anchor afterwards. -/
theorem anchors_pin (ix : Indexer) (scan : ScanOrder ExplorationRow) (enabled : Bool)
    (ops : List (MapOp ε)) (index : IndexDb) (req : PersistExplorationRequest) (username : String)
    (gate : ReviewGate) (explorationId : String) (now b : Int)
    (h : PersistReady enabled { Lts.after (stepMaps ix scan enabled) .empty ops with
      index := index } req explorationId b) :
    let s := { Lts.after (stepMaps ix scan enabled) (.empty : MapServer ε) ops with
      index := index }
    let run := handlePersistExploration scan ix.scan enabled index s.maps req username gate
      explorationId now
    (Pins ix enabled scan s req username gate explorationId now b ↔
      ∀ path ∈ req.files, hasRows index.chunks b path = false) ∧
    ((∃ out, run.2 = .ok out) ↔ (req.files.filter (hasRows index.chunks b)).Nodup) ∧
    ∀ maps id text unresolved, run = (maps, .ok (id, text, unresolved)) →
      (citedAnchors maps id).map ExplorationAnchor.path =
        req.files.filter (hasRows index.chunks b) ∧
      unresolved = (req.files.filter fun path => !hasRows index.chunks b path) ∧
      ∀ later, recheckAnchorsForRowid
        (streamed ix enabled { s with maps := maps } later).index.chunks
        (streamed ix enabled { s with maps := maps } later).maps id = [] := by
  intro s run
  have howned : FilesOwned s.maps := run_owned ix scan enabled ops
  have hstored := fun maps id text unresolved
      (hrun : run = (maps, .ok (id, text, unresolved))) => persist_anchors howned h hrun
  refine ⟨?_, persist_ready ix scan h username gate now, hstored⟩
  constructor
  · rintro ⟨maps, id, text, unresolved, hrun, hpins⟩
    obtain ⟨hpaths, -, hunbroken⟩ := hstored maps id text unresolved hrun
    exact hpins.unstored h.projectId hpaths hunbroken
  · intro hnone
    have hempty : req.files.filter (hasRows index.chunks b) = [] :=
      List.filter_eq_nil_iff.mpr fun path hpath hrows => by
        rw [hnone path hpath] at hrows
        cases hrows
    obtain ⟨⟨id, text, unresolved⟩, hout⟩ :=
      (persist_ready ix scan h username gate now).mpr (by rw [hempty]; exact List.nodup_nil)
    have hrun : run = (run.1, .ok (id, text, unresolved)) := Prod.ext rfl hout
    obtain ⟨hpaths, rfl, -⟩ := hstored run.1 id text unresolved hrun
    rw [hempty] at hpaths
    exact ⟨run.1, id, text, _, hrun, AnchorsPinned.of_unstored hnone hpaths⟩

end Result

/-- A server with one file in its index. -/
def pinServer : MapServer Nat :=
  { Lts.after (stepMaps sampleIndexer .rowid true) .empty [] with
    index := (indexStreamLoop sampleIndexer .empty (streamOf "p" "/p" [("m.rs", "a")])).1 }

/-- Another file is cited, one that is not in the index. -/
theorem anchors_pin_unresolved :
    Pins sampleIndexer true .rowid pinServer { sampleMapRequest with files := ["n.rs"] } "u"
      .approved "e1" 5 1 :=
  (anchors_pin sampleIndexer .rowid true [] pinServer.index
    { sampleMapRequest with files := ["n.rs"] } "u" .approved "e1" 5 1
    ⟨rfl, by decide +kernel, by decide +kernel, fun _ hx => absurd hx List.not_mem_nil⟩).1.mpr
      (by decide +kernel)

/-- The file is cited and then edited: the anchor still holds. Cited twice, it fails the call. -/
theorem anchors_pin_edited :
    ¬ Pins sampleIndexer true .rowid pinServer sampleMapRequest "u" .approved "e1" 5 1 ∧
    (handlePersistExploration .rowid sampleIndexer.scan true pinServer.index pinServer.maps
      { sampleMapRequest with files := ["m.rs", "m.rs"] } "u" .approved "e1" 5).2.toOption =
        none := by
  refine ⟨?_, by decide +kernel⟩
  rintro ⟨maps, id, text, unresolved, hrun, hpins⟩
  have hstate : (handlePersistExploration .rowid sampleIndexer.scan true pinServer.index
        pinServer.maps sampleMapRequest "u" .approved "e1" 5).2.toOption.map Prod.fst = some 1 ∧
      ("m.rs" ∈ (citedAnchors (handlePersistExploration .rowid sampleIndexer.scan true
        pinServer.index pinServer.maps sampleMapRequest "u" .approved "e1" 5).1 1).map
          ExplorationAnchor.path) ∧
      (("m.rs", 1, 1), "a") ∈ fileTexts pinServer.index.chunks 1 "m.rs" ∧
      (("m.rs", 1, 1), "a") ∉ fileTexts (indexStreamLoop sampleIndexer pinServer.index
        (streamOf "p" "/p" [("m.rs", "b")])).1.chunks 1 "m.rs" ∧
      recheckAnchorsForRowid (indexStreamLoop sampleIndexer pinServer.index
        (streamOf "p" "/p" [("m.rs", "b")])).1.chunks (handlePersistExploration .rowid
          sampleIndexer.scan true pinServer.index pinServer.maps sampleMapRequest "u" .approved
            "e1" 5).1 1 = [] := by
    decide +kernel
  obtain ⟨hid, hanchored, hbefore, hafter, hunbroken⟩ := hstate
  rw [hrun] at hid hanchored hunbroken
  obtain rfl : id = 1 := Option.some.inj hid
  refine hpins.pinned "m.rs" hanchored [] (streamOf "p" "/p" [("m.rs", "b")], 9) ?_ ?_
  · exact ⟨_, fun hiff => hafter (hiff.mp hbefore)⟩
  · exact hunbroken

end Arags
