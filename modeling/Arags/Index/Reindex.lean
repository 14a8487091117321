import Arags.Index.Stream
import Arags.Index.Versions
import Arags.Lib.Runs

/-!
# Arags.Index.Reindex

One stream over one project, and histories of such streams.

* `streamOf`        — `Init`, then a `File` for each delivery.
* `stream_view`     — the digests at every key after a stream, from those before it.
* `IsIndexOf`       — the active chunks are those of the last delivery of each file.
* `Repeatable`      — repeated deliveries of a stream do not leave a row behind.
* `reindex_history` — after each stream of a history the index is that of the stream, if and only
  if each stream is repeatable.
-/

namespace Arags

open Sql Keyed

/-- The messages of a stream over one project. -/
def streamOf (project root : String) (files : List (String × String)) : List IndexMsg :=
  .init project root :: files.map fun f => .file f.1 (some f.2)

variable (ix : Indexer)

/-- The chunks of the deliveries, in order. -/
def itemsOf (files : List (String × String)) : List (String × IndexedChunk) :=
  files.flatMap fun f => (ix.chunksOf f.1 f.2).map fun c => (f.1, c)

def entriesOf (files : List (String × String)) : List (ChunkKey × List UInt8) :=
  (itemsOf ix files).map entry

/-! ## The files of a stream -/

theorem phase1_spec (chunks : SeqTable Chunk) (b : Int) (path text : String) (st : LoopState)
    {snap : Snapshot} (hs : st.snapshot = some snap) :
    (phase1 ix chunks b path text st).1 =
        persistTable ix.scan b snap chunks (itemsOf ix [(path, text)]) ∧
      (phase1 ix chunks b path text st).2.project = st.project ∧
      (phase1 ix chunks b path text st).2.bufferId = st.bufferId ∧
      (phase1 ix chunks b path text st).2.snapshot = some snap ∧
      ∀ k, k ∈ (phase1 ix chunks b path text st).2.remainingActive ↔ k ∈ st.remainingActive ∧
        ¬ (snap.has k = true ∧ k ∈ (entriesOf ix [(path, text)]).map Prod.fst) := by
  have hitems : itemsOf ix [(path, text)] =
      (ix.chunksOf path text).map fun c => (path, c) := by simp [itemsOf]
  unfold phase1
  cases hc : ix.chunksOf path text with
  | nil =>
    rw [hc] at hitems
    simp [hs, entriesOf, hitems, persistTable, persistAll]
  | cons c cs =>
    simp only [List.isEmpty_cons, Bool.false_eq_true, if_false, insertChunksBatched_eq, hs,
      Option.getD_some, true_and, entriesOf, hitems, hc]
    refine ⟨rfl, fun k => ?_⟩
    have hh : (persistAll ix.scan b snap (chunks, .empty)
        ((c :: cs).map fun c => (path, c))).2.handledKeys = _ :=
      (persistAll_handled ix.scan b snap _ _).trans (List.nil_append _)
    simp only [persistAll] at hh
    rw [List.mem_filter, hh]
    refine and_congr_right fun _ => ?_
    simp only [Bool.not_eq_true', List.contains_eq_mem, decide_eq_false_iff_not, List.mem_filter,
      List.map_map, Function.comp_def, entry]
    exact not_congr and_comm

theorem runLoop_files (files : List (String × String)) (db : IndexDb) (st : LoopState) {b : Int}
    {snap : Snapshot} (hb : st.bufferId = some b) (hs : st.snapshot = some snap) :
    ∃ st', runLoop ix db st (files.map fun f => .file f.1 (some f.2)) =
        ({ db with chunks := persistTable ix.scan b snap db.chunks (itemsOf ix files) }, .ok st') ∧
      st'.project = st.project ∧ st'.bufferId = some b ∧ st'.snapshot = some snap ∧
      ∀ k, k ∈ st'.remainingActive ↔ k ∈ st.remainingActive ∧
        ¬ (snap.has k = true ∧ k ∈ (entriesOf ix files).map Prod.fst) := by
  induction files generalizing db st with
  | nil => exact ⟨st, rfl, rfl, hb, hs, by simp [entriesOf, itemsOf]⟩
  | cons f files ih =>
    obtain ⟨h1, h2, h3, h4, h5⟩ := phase1_spec ix db.chunks b f.1 f.2 st hs
    have hp0 : phase0 ix db.chunks b st = st := by simp only [phase0, hs]
    have happ : itemsOf ix (f :: files) = itemsOf ix [f] ++ itemsOf ix files := by
      simp [itemsOf]
    obtain ⟨st', hrun, hproj, hbuf, hsnap, hrem⟩ := ih
      { db with chunks := (phase1 ix db.chunks b f.1 f.2 st).1 }
      (phase1 ix db.chunks b f.1 f.2 st).2 (h3.trans hb) h4
    refine ⟨st', ?_, hproj.trans h2, hbuf, hsnap, fun k => ?_⟩
    · rw [List.map_cons, runLoop, stepMsg_file ix db st f.1 f.2 hb, hp0]
      dsimp only
      rw [hrun, happ, persistTable_append, h1]
    · rw [hrem, h5, entriesOf, entriesOf, entriesOf, happ]
      simp only [List.map_append, List.mem_append]
      tauto

/-! ## A whole stream -/

/-- The loop of a stream over one project: the snapshot is that of the table before it. -/
theorem runLoop_stream (db : IndexDb) (project root : String) (f : String × String)
    (files : List (String × String)) {b : Int} (hb : projectId db.buffers project = b) :
    ∃ st', runLoop ix db .start (streamOf project root (f :: files)) =
        ({ buffers := (ensureProject db.buffers project root).1
           chunks := persistTable ix.scan b (snapshotActiveChunks ix.scan db.chunks b) db.chunks
             (itemsOf ix (f :: files)) }, .ok st') ∧
      st'.project = some project ∧ st'.bufferId = some b ∧
      st'.snapshot = some (snapshotActiveChunks ix.scan db.chunks b) ∧
      ∀ k, k ∈ st'.remainingActive ↔ activeAt db.chunks b k ≠ [] ∧
        k ∉ (entriesOf ix (f :: files)).map Prod.fst := by
  -- the first `File` takes the snapshot; from there on it is the loop with the snapshot taken
  have hfirst : ∀ d st, st.bufferId = some b → st.snapshot = none →
      runLoop ix d st ((f :: files).map fun f => .file f.1 (some f.2)) =
        runLoop ix d (phase0 ix d.chunks b st)
          ((f :: files).map fun f => .file f.1 (some f.2)) := by
    intro d st hst hsn
    have hp : phase0 ix d.chunks b (phase0 ix d.chunks b st) = phase0 ix d.chunks b st := by
      simp only [phase0, hsn]
    have hpb : (phase0 ix d.chunks b st).bufferId = some b := by simp only [phase0, hsn, hst]
    rw [List.map_cons, runLoop, runLoop, stepMsg_file ix d st f.1 f.2 hst,
      stepMsg_file ix d _ f.1 f.2 hpb, hp]
  have hsn : (phase0 ix db.chunks b { LoopState.start with
      project := some project, bufferId := some b }).snapshot =
        some (snapshotActiveChunks ix.scan db.chunks b) := rfl
  obtain ⟨st', hrun, hproj, hbuf, hsnap, hrem⟩ := runLoop_files ix (f :: files)
    { db with buffers := (ensureProject db.buffers project root).1 } _ rfl hsn
  refine ⟨st', ?_, hproj, hbuf, hsnap, fun k => ?_⟩
  · rw [streamOf, runLoop, stepMsg_init, hb]
    dsimp only
    rw [hfirst _ _ rfl rfl]
    exact hrun
  · rw [hrem]
    have hk : k ∈ (phase0 ix db.chunks b
        { LoopState.start with project := some project, bufferId := some b }).remainingActive ↔
        (snapshotActiveChunks ix.scan db.chunks b).has k = true := mem_snapshot_keys
    rw [hk, snapshot_has]
    tauto

theorem orphanPass_snapshot {st : LoopState} {snap : Snapshot} (h : st.snapshot = some snap)
    (t : SeqTable Chunk) :
    orphanPass t st = retireAll t (st.remainingActive.filterMap fun k => snap.lookup k) := by
  simp only [orphanPass, h]
  rfl

/-- The orphan pass empties the keys nothing was delivered at, and touches no other. -/
theorem orphanPass_activeAt {t : SeqTable Chunk} {b : Int} {items : List (String × IndexedChunk)}
    {st : LoopState} (hU : Unique t b)
    (hsnap : st.snapshot = some (snapshotActiveChunks ix.scan t b))
    (hrem : ∀ k, k ∈ st.remainingActive ↔ activeAt t b k ≠ [] ∧ k ∉ (items.map entry).map Prod.fst)
    (b' : Int) (k : ChunkKey) :
    activeAt (orphanPass (persistTable ix.scan b (snapshotActiveChunks ix.scan t b) t items) st)
        b' k =
      if b' = b ∧ k ∉ (items.map entry).map Prod.fst then []
      else activeAt (persistTable ix.scan b (snapshotActiveChunks ix.scan t b) t items) b' k := by
  have hlater := persistTable_later ix.scan b (snapshotActiveChunks ix.scan t b) t items
  have hother := @persistTable_other ix.scan b (snapshotActiveChunks ix.scan t b) t items
  generalize persistTable ix.scan b (snapshotActiveChunks ix.scan t b) t items = t' at *
  have hid : ∀ i, i ∈ (st.remainingActive.filterMap
      fun k => (snapshotActiveChunks ix.scan t b).lookup k) →
      ∃ k₀ r, k₀ ∉ (items.map entry).map Prod.fst ∧ (i, r) ∈ activeAt t b k₀ := by
    intro i hi
    obtain ⟨k₀, hk₀, hl⟩ := List.mem_filterMap.mp hi
    obtain ⟨r, hr⟩ := snapshot_lookup hl
    exact ⟨k₀, r, ((hrem k₀).mp hk₀).2, hr⟩
  rw [orphanPass_snapshot hsnap, activeAt_retireAll]
  split
  · rename_i hc
    obtain ⟨rfl, hk⟩ := hc
    rw [hother fun _ => hk, List.filter_eq_nil_iff]
    intro x hx
    have hone : activeAt t b' k = [x] := eq_singleton_of_mem (hU k) hx
    have hlook : (snapshotActiveChunks ix.scan t b').lookup k = some x.1 := by
      have hhas : (snapshotActiveChunks ix.scan t b').has k = true :=
        snapshot_has.mpr (List.ne_nil_of_mem hx)
      obtain ⟨i, hi⟩ := Option.isSome_iff_exists.mp hhas
      obtain ⟨r, hr⟩ := snapshot_lookup hi
      rw [hone, List.mem_singleton] at hr
      rw [hi, ← hr]
    have hmem : x.1 ∈ st.remainingActive.filterMap
        fun k => (snapshotActiveChunks ix.scan t b').lookup k :=
      List.mem_filterMap.mpr ⟨k, (hrem k).mpr ⟨List.ne_nil_of_mem hx, hk⟩, hlook⟩
    simp [hmem]
  · rename_i hc
    rw [List.filter_eq_self]
    intro x hx
    rw [Bool.not_eq_true', Bool.eq_false_iff]
    intro hm
    rw [List.contains_iff_mem] at hm
    obtain ⟨k₀, r₀, hk₀, hr₀⟩ := hid x.1 hm
    have hle : x.1 ≤ t.seq := t.le_seq (x.1, r₀) (mem_activeAt.mp hr₀).1
    obtain ⟨r, hr⟩ := hlater.active hx hle
    obtain ⟨hm₀, hb₀, hkey₀, -⟩ := mem_activeAt.mp hr₀
    obtain ⟨hm₁, hb₁, hkey₁, -⟩ := mem_activeAt.mp hr
    obtain rfl := Table.eq_of_mem hm₀ hm₁
    exact hc ⟨hb₁.symm.trans hb₀, hkey₁ ▸ hkey₀ ▸ hk₀⟩

theorem view_eq_nil {t : SeqTable Chunk} {b : Int} {k : ChunkKey} :
    view t b k = [] ↔ activeAt t b k = [] := List.map_eq_nil_iff

/-- The digests at a key after a stream with files: where the key was active, the last one
delivered; where it was not, all of them. -/
theorem stream_view (db : IndexDb) (project root : String) (files : List (String × String))
    {b : Int} (hb : projectId db.buffers project = b) (hU : Unique db.chunks b) (hf : files ≠ []) :
    (∃ res, (indexStreamLoop ix db (streamOf project root files)).2 = .ok res) ∧
    projectId (indexStreamLoop ix db (streamOf project root files)).1.buffers project = b ∧
    ∀ k, view (indexStreamLoop ix db (streamOf project root files)).1.chunks b k =
      if view db.chunks b k = [] then valuesAt k (entriesOf ix files)
      else (valuesAt k (entriesOf ix files)).getLast?.toList := by
  obtain ⟨f, files, rfl⟩ := List.exists_cons_of_ne_nil hf
  obtain ⟨st', hrun, hproj, hbuf, hsnap, hrem⟩ := runLoop_stream ix db project root f files hb
  have hpass := orphanPass_activeAt ix hU hsnap hrem b
  simp only [indexStreamLoop, hrun, finish, hproj, hbuf]
  refine ⟨⟨_, rfl⟩, ?_, fun k => ?_⟩
  · rw [projectId_increment, projectId_ensureProject, hb]
  · rw [view, hpass k]
    by_cases hk : k ∈ (entriesOf ix (f :: files)).map Prod.fst
    · rw [if_neg fun h => h.2 hk, ← view, persistTable_view ix.scan b _ db.chunks _ k fun _ => hU k]
      cases hv : view db.chunks b k with
      | nil =>
        have hhas : (snapshotActiveChunks ix.scan db.chunks b).has k = false :=
          Bool.eq_false_iff.mpr fun h => snapshot_has.mp h (view_eq_nil.mp hv)
        rw [if_pos rfl, hhas]
        rfl
      | cons d ds =>
        have hhas : (snapshotActiveChunks ix.scan db.chunks b).has k = true :=
          snapshot_has.mpr fun h => by rw [view_eq_nil.mpr h] at hv; cases hv
        rw [if_neg (List.cons_ne_nil d ds), hhas]
        have hne : valuesAt k ((itemsOf ix (f :: files)).map entry) ≠ [] := fun h =>
          valuesAt_eq_nil.mp h hk
        rw [settle, if_pos rfl, entriesOf, List.getLast?_eq_some_getLast hne]
        rfl
    · rw [if_pos ⟨rfl, hk⟩, List.map_nil, valuesAt_eq_nil.mpr hk]
      split <;> rfl

/-! ## Histories -/

/-- The deliveries that no later one of the same path follows. -/
def lastDeliveries : List (String × String) → List (String × String)
  | [] => []
  | f :: fs => if fs.any (fun g => g.1 == f.1) then lastDeliveries fs else f :: lastDeliveries fs

/-- The active chunks are those of the last delivery of each file, one row for each key. -/
def IsIndexOf (t : SeqTable Chunk) (b : Int) (files : List (String × String)) : Prop :=
  ∀ k, view t b k = valuesAt k (entriesOf ix (lastDeliveries files)) ∧ (view t b k).length ≤ 1

/-- There is a delivery, or nothing to retire; and a key that was not active before is delivered
once and, like every delivered key, by the last delivery of its file. -/
def Repeatable (t : SeqTable Chunk) (b : Int) (files : List (String × String)) : Prop :=
  (files = [] → ∀ k, view t b k = []) ∧
  ∀ k ∈ (entriesOf ix files).map Prod.fst,
    k ∈ (entriesOf ix (lastDeliveries files)).map Prod.fst ∧
      (view t b k = [] → (valuesAt k (entriesOf ix files)).length = 1)

theorem entriesOf_cons (f : String × String) (fs : List (String × String)) :
    entriesOf ix (f :: fs) = entriesOf ix [f] ++ entriesOf ix fs := by
  simp [entriesOf, itemsOf]

theorem path_of_mem_entriesOf {k : ChunkKey} {files : List (String × String)}
    (h : k ∈ (entriesOf ix files).map Prod.fst) : ∃ f ∈ files, k.1 = f.1 := by
  simp only [entriesOf, itemsOf, List.map_flatMap, List.mem_flatMap, List.map_map,
    List.mem_map, Function.comp_apply] at h
  obtain ⟨f, hf, c, -, rfl⟩ := h
  exact ⟨f, hf, rfl⟩

theorem mem_lastDeliveries {f : String × String} {files : List (String × String)}
    (h : f ∈ lastDeliveries files) : f ∈ files := by
  induction files with
  | nil => cases h
  | cons g gs ih =>
    rw [lastDeliveries] at h
    split at h
    · exact List.mem_cons_of_mem g (ih h)
    · rcases List.mem_cons.mp h with rfl | h
      · exact List.mem_cons_self
      · exact List.mem_cons_of_mem g (ih h)

theorem lastDeliveries_nodup (files : List (String × String)) :
    ((lastDeliveries files).map Prod.fst).Nodup := by
  induction files with
  | nil => exact List.nodup_nil
  | cons f fs ih =>
    rw [lastDeliveries]
    split
    · exact ih
    · rename_i hany
      rw [List.map_cons, List.nodup_cons]
      refine ⟨?_, ih⟩
      intro hm
      obtain ⟨g, hg, he⟩ := List.mem_map.mp hm
      exact hany (List.any_eq_true.mpr ⟨g, mem_lastDeliveries hg, by simp [he]⟩)

/-- The keys of files with different paths are pairwise different. -/
theorem entriesOf_nodup {files : List (String × String)} (h : (files.map Prod.fst).Nodup) :
    ((entriesOf ix files).map Prod.fst).Nodup := by
  induction files with
  | nil => exact List.nodup_nil
  | cons f fs ih =>
    rw [List.map_cons, List.nodup_cons] at h
    rw [entriesOf_cons, List.map_append, List.nodup_append]
    refine ⟨?_, ih h.2, ?_⟩
    · have hstart := chunkLines_starts f.2 (tokensToLines ix.maxTokens)
        (tokensToLines ix.overlapTokens)
      have hmap : (entriesOf ix [f]).map Prod.fst = (chunkLines f.2 (tokensToLines ix.maxTokens)
          (tokensToLines ix.overlapTokens)).map fun c => (f.1, c.1, c.2.1) := by
        simp [entriesOf, itemsOf, Chunker.chunksOf, indexFileWith, entry, IndexedChunk.key]
      rw [hmap]
      refine List.Nodup.of_map (fun k : ChunkKey => k.2.1) ?_
      rw [List.map_map]
      exact hstart
    · intro k hk k' hk' he
      obtain ⟨g, hg, hp⟩ := path_of_mem_entriesOf ix hk
      obtain ⟨g', hg', hp'⟩ := path_of_mem_entriesOf ix hk'
      rw [List.mem_singleton] at hg
      subst hg
      exact h.1 (List.mem_map.mpr ⟨g', hg', hp'.symm.trans (he ▸ hp)⟩)

/-- The last deliveries come last at every key. -/
theorem lastDeliveries_suffix (files : List (String × String)) (k : ChunkKey) :
    valuesAt k (entriesOf ix (lastDeliveries files)) <:+ valuesAt k (entriesOf ix files) := by
  induction files with
  | nil => exact List.suffix_rfl
  | cons f fs ih =>
    rw [lastDeliveries, entriesOf_cons ix f fs, valuesAt_append]
    split
    · exact ih.trans (List.suffix_append _ _)
    · rename_i hany
      rw [entriesOf_cons, valuesAt_append]
      by_cases hk : k ∈ (entriesOf ix [f]).map Prod.fst
      · -- no later delivery has a chunk of this file
        have hfs : ∀ gs : List (String × String), (∀ g ∈ gs, g ∈ fs) →
            valuesAt k (entriesOf ix gs) = [] := by
          intro gs hgs
          refine valuesAt_eq_nil.mpr fun hm => ?_
          obtain ⟨g, hg, hp⟩ := path_of_mem_entriesOf ix hm
          obtain ⟨g', hg', hp'⟩ := path_of_mem_entriesOf ix hk
          rw [List.mem_singleton] at hg'
          subst hg'
          exact hany (List.any_eq_true.mpr ⟨g, hgs g hg, by simp [← hp, hp']⟩)
        simp only [hfs fs fun _ h => h, hfs (lastDeliveries fs) fun _ h => mem_lastDeliveries h,
          List.suffix_rfl]
      · rw [valuesAt_eq_nil.mpr hk]
        exact ih

/-- A stream without files leaves the chunks alone. -/
theorem stream_empty (db : IndexDb) (project root : String) {b : Int}
    (hb : projectId db.buffers project = b) :
    (∃ res, (indexStreamLoop ix db (streamOf project root [])).2 = .ok res) ∧
    projectId (indexStreamLoop ix db (streamOf project root [])).1.buffers project = b ∧
    (indexStreamLoop ix db (streamOf project root [])).1.chunks = db.chunks := by
  have hrun : indexStreamLoop ix db (streamOf project root []) =
      (⟨incrementBufferCounts (ensureProject db.buffers project root).1
          (projectId db.buffers project) 0 0, db.chunks⟩, .ok ⟨0, 0⟩) := by
    simp only [indexStreamLoop, streamOf, List.map_nil, runLoop, stepMsg_init]
    rfl
  rw [hrun]
  refine ⟨⟨_, rfl⟩, ?_, rfl⟩
  rw [projectId_increment, projectId_ensureProject, hb]

theorem lastDeliveries_one (files : List (String × String)) (k : ChunkKey) :
    (valuesAt k (entriesOf ix (lastDeliveries files))).length ≤ 1 :=
  length_valuesAt_le_one (entriesOf_nodup ix (lastDeliveries_nodup files)) k

/-- One stream leaves the index of its files if and only if it is repeatable. -/
theorem isIndexOf_iff {db : IndexDb} {project : String} (root : String)
    (files : List (String × String)) {b : Int} (hb : projectId db.buffers project = b)
    (hU : Unique db.chunks b) :
    IsIndexOf ix (indexStreamLoop ix db (streamOf project root files)).1.chunks b files ↔
      Repeatable ix db.chunks b files := by
  cases hf : files with
  | nil =>
    obtain ⟨-, -, hc⟩ := stream_empty ix db project root hb
    simp only [IsIndexOf, Repeatable, hc]
    constructor
    · intro h
      exact ⟨fun _ k => (h k).1, fun k hk => by cases hk⟩
    · rintro ⟨h, -⟩ k
      rw [h trivial k]
      exact ⟨rfl, Nat.zero_le _⟩
  | cons f fs =>
    rw [← hf]
    have hne : files ≠ [] := by rw [hf]; exact List.cons_ne_nil f fs
    obtain ⟨-, -, hview⟩ := stream_view ix db project root files hb hU hne
    simp only [IsIndexOf, Repeatable, hview]
    constructor
    · intro h
      refine ⟨fun h0 => absurd h0 hne, fun k hk => ?_⟩
      obtain ⟨heq, hlen⟩ := h k
      have hall : valuesAt k (entriesOf ix files) ≠ [] := fun h0 => valuesAt_eq_nil.mp h0 hk
      refine ⟨?_, ?_⟩
      · refine Decidable.byContradiction fun hlast => ?_
        rw [valuesAt_eq_nil.mpr hlast] at heq
        split at heq
        · exact hall heq
        · rw [List.getLast?_eq_some_getLast hall] at heq
          cases heq
      · intro hnil
        rw [if_pos hnil] at hlen
        have := List.length_pos_iff.mpr hall
        omega
    · rintro ⟨-, h⟩ k
      by_cases hk : k ∈ (entriesOf ix files).map Prod.fst
      · obtain ⟨hlast, hone⟩ := h k hk
        -- the last delivery at the key is the one of the last delivery of its file
        obtain ⟨d, hd⟩ : ∃ d, valuesAt k (entriesOf ix (lastDeliveries files)) = [d] := by
          have hle := lastDeliveries_one ix files k
          have hpos : valuesAt k (entriesOf ix (lastDeliveries files)) ≠ [] :=
            fun h0 => valuesAt_eq_nil.mp h0 hlast
          exact List.length_eq_one_iff.mp (by have := List.length_pos_iff.mpr hpos; omega)
        obtain ⟨l, hl⟩ := lastDeliveries_suffix ix files k
        rw [hd] at hl
        rw [hd, ← hl]
        split
        · rename_i hnil
          have hlen := hone hnil
          rw [← hl, List.length_append, List.length_singleton] at hlen
          have : l = [] := List.length_eq_zero_iff.mp (by omega)
          rw [this]
          exact ⟨rfl, Nat.le_refl _⟩
        · simp
      · have hlast : valuesAt k (entriesOf ix (lastDeliveries files)) = [] := by
          have hs := lastDeliveries_suffix ix files k
          rw [valuesAt_eq_nil.mpr hk] at hs
          exact List.suffix_nil.mp hs
        rw [hlast, valuesAt_eq_nil.mpr hk]
        split <;> simp

/-- A stream of a history: root path and deliveries. -/
def reindex (project : String) (db : IndexDb) (s : String × List (String × String)) :
    IndexDb × Except String IndexResponse :=
  indexStreamLoop ix db (streamOf project s.1 s.2)

theorem reindex_project {project : String} {db : IndexDb} (s : String × List (String × String))
    (hU : Unique db.chunks (projectId db.buffers project)) :
    (∃ res, (reindex ix project db s).2 = .ok res) ∧
    projectId (reindex ix project db s).1.buffers project = projectId db.buffers project := by
  by_cases hf : s.2 = []
  · obtain ⟨hok, hid, -⟩ := stream_empty ix db project s.1 rfl
    rw [reindex, hf]
    exact ⟨hok, hid⟩
  · obtain ⟨hok, hid, -⟩ := stream_view ix db project s.1 s.2 rfl hU hf
    exact ⟨hok, hid⟩

/-- After each stream of a history, newest first, the active chunks of the buffer are those of
the stream, if and only if each stream is repeatable on the table it finds. -/
theorem reindex_history (project : String) (db : IndexDb)
    (hist : List (String × List (String × String)))
    (hU : Unique db.chunks (projectId db.buffers project)) :
    Lts.Always (fun d s => (reindex ix project d s).1) db (fun _ d s =>
        (∃ res, (reindex ix project d s).2 = .ok res) ∧
        IsIndexOf ix (reindex ix project d s).1.chunks (projectId db.buffers project) s.2) hist ↔
      Lts.Always (fun d s => (reindex ix project d s).1) db (fun _ d s =>
        Repeatable ix d.chunks (projectId db.buffers project) s.2) hist := by
  -- while the index follows the streams, the buffer keeps its id and its keys one row each
  have hinv : ∀ hist, Lts.Always (fun d s => (reindex ix project d s).1) db (fun _ d s =>
      IsIndexOf ix (reindex ix project d s).1.chunks (projectId db.buffers project) s.2) hist →
      projectId (Lts.after (fun d s => (reindex ix project d s).1) db hist).buffers project =
          projectId db.buffers project ∧
        Unique (Lts.after (fun d s => (reindex ix project d s).1) db hist).chunks
          (projectId db.buffers project) := by
    refine Lts.guarded_inv (I := fun _ (d : IndexDb) => projectId d.buffers project =
      projectId db.buffers project ∧ Unique d.chunks (projectId db.buffers project)) ⟨rfl, hU⟩ ?_
    rintro _ d s ⟨hid, hu⟩ hidx
    have hu' : Unique d.chunks (projectId d.buffers project) := by rw [hid]; exact hu
    refine ⟨(reindex_project ix s hu').2.trans hid, fun k => ?_⟩
    have hlen := (hidx k).2
    rwa [view, List.length_map] at hlen
  induction hist with
  | nil => exact Iff.rfl
  | cons s hist ih =>
    constructor
    · rintro ⟨hr, -, hidx⟩
      have hrep := ih.mp hr
      obtain ⟨hid, hu⟩ := hinv hist (hr.mono fun _ _ _ h => h.2)
      exact ⟨hrep, (isIndexOf_iff ix s.1 s.2 hid hu).mp hidx⟩
    · rintro ⟨hr, hrep⟩
      have hall := ih.mpr hr
      obtain ⟨hid, hu⟩ := hinv hist (hall.mono fun _ _ _ h => h.2)
      refine ⟨hall, ?_, (isIndexOf_iff ix s.1 s.2 hid hu).mpr hrep⟩
      rw [← hid] at hu
      exact (reindex_project ix s hu).1

/-! ## Two histories -/

/-- SHA-256 on the texts of the runs below. -/
def sampleSha256 (text : String) : List UInt8 :=
  if text = "a" then
    [202, 151, 129, 18, 202, 27, 189, 202, 250, 194, 49, 179, 154, 35, 220, 77, 167, 134, 239, 248,
      20, 124, 78, 114, 185, 128, 119, 133, 175, 238, 72, 187]
  else if text = "b" then
    [62, 35, 232, 22, 0, 57, 89, 74, 51, 137, 79, 101, 100, 225, 177, 52, 139, 189, 122, 0, 136,
      212, 44, 74, 203, 115, 238, 174, 213, 156, 0, 157]
  else []

/-- The default budgets of the embedder configuration. -/
def sampleIndexer : Indexer := ⟨⟨sampleSha256, 512, 64⟩, 100, .rowid⟩

/-- The second stream drops one file and delivers the other twice, with a changed text. -/
def shrunkHistory : List (String × List (String × String)) :=
  [("/r", [("m.rs", "a"), ("m.rs", "b")]), ("/r", [("m.rs", "a"), ("n.rs", "b")])]

theorem reindex_history_shrunk :
    Lts.Always (fun d s => (reindex sampleIndexer "p" d s).1) IndexDb.empty (fun _ d s =>
        (∃ res, (reindex sampleIndexer "p" d s).2 = .ok res) ∧
        IsIndexOf sampleIndexer (reindex sampleIndexer "p" d s).1.chunks 1 s.2) shrunkHistory ∧
      view (Lts.after (fun d s => (reindex sampleIndexer "p" d s).1) IndexDb.empty
        shrunkHistory).chunks 1 ("n.rs", 1, 1) = [] := by
  have h₁ : Repeatable sampleIndexer IndexDb.empty.chunks 1 [("m.rs", "a"), ("n.rs", "b")] :=
    ⟨nofun, by decide⟩
  have h₂ : Repeatable sampleIndexer
      (reindex sampleIndexer "p" IndexDb.empty ("/r", [("m.rs", "a"), ("n.rs", "b")])).1.chunks 1
      [("m.rs", "a"), ("m.rs", "b")] := ⟨nofun, by decide⟩
  have hU : Unique IndexDb.empty.chunks (projectId IndexDb.empty.buffers "p") :=
    fun _ => Nat.zero_le _
  have hrun := (reindex_history sampleIndexer "p" IndexDb.empty shrunkHistory hU).mpr
    ⟨⟨trivial, h₁⟩, h₂⟩
  exact ⟨hrun, by decide⟩

/-- A file that is new and delivered twice in one stream keeps both rows. -/
theorem reindex_history_doubled :
    ¬ ∀ (ix : Indexer) (project : String) (hist : List (String × List (String × String))),
      Lts.Always (fun d s => (reindex ix project d s).1) IndexDb.empty (fun _ d s =>
        IsIndexOf ix (reindex ix project d s).1.chunks
          (projectId IndexDb.empty.buffers project) s.2) hist := by
  intro h
  have hidx := (h sampleIndexer "p" [("/r", [("m.rs", "a"), ("m.rs", "a")])]).2
  exact absurd (hidx ("m.rs", 1, 1)).2 (by decide)

end Arags
