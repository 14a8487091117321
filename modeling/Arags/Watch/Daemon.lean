import Arags.Index.Streams

/-!
# Arags.Watch.Daemon

The watch daemon, `dispatch/watch_daemon.rs`, with the index streams that a flush opens.

* `Tree`           — what the daemon sees of the file system when it flushes.
* `flushChanged`   — the files that changed, in two groups, a stream for each.
* `sendGroups_view` — after the streams the index is that of the last group with a readable file.
* `watch_keeps_index` — every flush leaves the index of the tree, if and only if each is `Covering`.
-/

namespace Arags

open Sql Keyed

/-- Modification time and size. -/
abbrev FileState := Nat × Nat

/-- The files `discover_files` returns, with what reading them and their metadata give. -/
structure Tree where
  files : List String
  nodup : files.Nodup
  read : String → Option String
  fileState : String → FileState

def Tree.uploads (t : Tree) : List (String × String) := Arags.uploads t.read t.files

/-- The daemon's fingerprints, beside the index of the server. -/
structure Daemon where
  db : IndexDb
  known : String → Option FileState

def snapshotState (t : Tree) (path : String) : Option FileState :=
  if path ∈ t.files then some (t.fileState path) else none

def toSend (known : String → Option FileState) (t : Tree) (changed : List String) : List String :=
  t.files.filter fun path => changed.contains path && known path != some (t.fileState path)

def watchUploadParallelism : Nat := 2

/-- The uploads of a flush, in the order its streams are opened. -/
def flushGroups (known : String → Option FileState) (t : Tree) (changed : List String) :
    List (List (String × String)) :=
  (partitionFiles (toSend known t changed) watchUploadParallelism).map (uploads t.read)

variable (ix : Indexer) (project root : String)

/-- A stream for each group, one after the other. -/
def sendGroups (db : IndexDb) : List (List (String × String)) → IndexDb × Except String Unit
  | [] => (db, .ok ())
  | g :: gs =>
    match indexStreamLoop ix db (streamOf project root g) with
    | (db', .ok _) => sendGroups db' gs
    | (db', .error e) => (db', .error e)

def flushChanged (d : Daemon) (t : Tree) (changed : List String) : Daemon × Except String Unit :=
  if changed.isEmpty then (d, .ok ())
  else
    let send := toSend d.known t changed
    if send.isEmpty then (d, .ok ())
    else
      match sendGroups ix project root d.db (flushGroups d.known t changed) with
      | (db, .ok ()) => (⟨db, fun path =>
          if path ∈ send then some (t.fileState path) else d.known path⟩, .ok ())
      | (db, .error e) => (⟨db, d.known⟩, .error e)

/-! ## Streams over files without a repetition -/

section Streams

variable {db : IndexDb} {b : Int}

theorem length_view (t : SeqTable Chunk) (b : Int) (k : ChunkKey) :
    (view t b k).length = (activeAt t b k).length := List.length_map _

/-- After a stream with files, no path twice, the index is that of the files. -/
theorem stream_index {files : List (String × String)} (hb : projectId db.buffers project = b)
    (hU : Unique db.chunks b) (hf : files ≠ []) (hn : (files.map Prod.fst).Nodup) :
    (∃ res, (indexStreamLoop ix db (streamOf project root files)).2 = .ok res) ∧
    projectId (indexStreamLoop ix db (streamOf project root files)).1.buffers project = b ∧
    ∀ k, view (indexStreamLoop ix db (streamOf project root files)).1.chunks b k =
      valuesAt k (entriesOf ix files) := by
  obtain ⟨hok, hid, hview⟩ := stream_view ix db project root files hb hU hf
  refine ⟨hok, hid, fun k => ?_⟩
  have hle := length_valuesAt_le_one (entriesOf_nodup ix hn) k
  rw [hview]
  split
  · rfl
  · cases hv : valuesAt k (entriesOf ix files) with
    | nil => rfl
    | cons d ds =>
      rw [hv, List.length_cons] at hle
      have hnil : ds = [] := List.length_eq_zero_iff.mp (by omega)
      rw [hnil]
      rfl

theorem unique_of_view {t : SeqTable Chunk} {files : List (String × String)}
    (hn : (files.map Prod.fst).Nodup) (hv : ∀ k, view t b k = valuesAt k (entriesOf ix files)) :
    Unique t b := by
  intro k
  rw [← length_view, hv]
  exact length_valuesAt_le_one (entriesOf_nodup ix hn) k

/-- The last group that has a file. -/
def lastGroup (groups : List (List (String × String))) : Option (List (String × String)) :=
  (groups.filter fun g => !g.isEmpty).getLast?

theorem lastGroup_cons (g : List (String × String)) (gs : List (List (String × String))) :
    lastGroup (g :: gs) = (lastGroup gs).or (if g = [] then none else some g) := by
  unfold lastGroup
  rw [List.filter_cons]
  cases g with
  | nil => simp
  | cons f fs =>
    simp only [List.isEmpty_cons, Bool.not_false, if_true, reduceCtorEq, if_false]
    cases gs.filter fun g => !g.isEmpty with
    | nil => rfl
    | cons h hs => rw [List.getLast?_cons_cons, List.getLast?_eq_some_getLast (by simp)]; rfl

theorem sendGroups_view {groups : List (List (String × String))}
    (hb : projectId db.buffers project = b) (hU : Unique db.chunks b)
    (hn : ∀ g ∈ groups, (g.map Prod.fst).Nodup) :
    (sendGroups ix project root db groups).2 = .ok () ∧
    projectId (sendGroups ix project root db groups).1.buffers project = b ∧
    ∀ k, view (sendGroups ix project root db groups).1.chunks b k =
      match lastGroup groups with
      | none => view db.chunks b k
      | some g => valuesAt k (entriesOf ix g) := by
  induction groups generalizing db with
  | nil => exact ⟨rfl, hb, fun _ => rfl⟩
  | cons g gs ih =>
    have hgs : ∀ g' ∈ gs, (g'.map Prod.fst).Nodup := fun g' hg => hn g' (List.mem_cons_of_mem g hg)
    rw [lastGroup_cons]
    cases hf : g with
    | nil =>
      obtain ⟨⟨res, hok⟩, hid, hc⟩ := stream_empty ix db project root hb
      have hs : sendGroups ix project root db ([] :: gs) =
          sendGroups ix project root (indexStreamLoop ix db (streamOf project root [])).1 gs := by
        rw [sendGroups]
        split
        · rename_i h; rw [h]
        · rename_i h; rw [h] at hok; cases hok
      rw [hs, if_pos rfl, Option.or_none]
      have := ih hid (by rw [hc]; exact hU) hgs
      rw [hc] at this
      exact this
    | cons f fs =>
      have hne : f :: fs ≠ [] := List.cons_ne_nil f fs
      have hgn : ((f :: fs).map Prod.fst).Nodup := hf ▸ hn g List.mem_cons_self
      obtain ⟨⟨res, hok⟩, hid, hview⟩ := stream_index ix project root hb hU hne hgn
      have hs : sendGroups ix project root db ((f :: fs) :: gs) = sendGroups ix project root
          (indexStreamLoop ix db (streamOf project root (f :: fs))).1 gs := by
        rw [sendGroups]
        split
        · rename_i h; rw [h]
        · rename_i h; rw [h] at hok; cases hok
      obtain ⟨hok', hid', hview'⟩ := ih hid (unique_of_view ix hgn hview) hgs
      rw [hs, if_neg hne]
      refine ⟨hok', hid', fun k => ?_⟩
      rw [hview' k]
      cases lastGroup gs with
      | none => exact hview k
      | some g' => rfl

end Streams

/-! ## A flush -/

/-- The active chunks are those of the files of the tree. -/
def IsTreeIndex (ix : Indexer) (t : SeqTable Chunk) (b : Int) (tree : Tree) : Prop :=
  ∀ k, view t b k = valuesAt k (entriesOf ix tree.uploads)

/-- Nothing is sent and the tree has the chunks it had; or the last group sent has every file of
the tree that has chunks. -/
def Covering (ix : Indexer) (known : String → Option FileState) (old tree : Tree)
    (changed : List String) : Prop :=
  match lastGroup (flushGroups known tree changed) with
  | none => ∀ k, valuesAt k (entriesOf ix tree.uploads) = valuesAt k (entriesOf ix old.uploads)
  | some g => ∀ f ∈ tree.uploads, f ∈ g ∨ ix.chunksOf f.1 f.2 = []

section Flush

variable {b : Int}

theorem uploads_nodup (t : Tree) : (t.uploads.map Prod.fst).Nodup :=
  t.nodup.sublist (uploads_sublist t.read t.files)

variable {ix} in
theorem IsTreeIndex.unique {t : SeqTable Chunk} {tree : Tree} (h : IsTreeIndex ix t b tree) :
    Unique t b := unique_of_view ix (uploads_nodup tree) h

theorem toSend_sublist (known : String → Option FileState) (t : Tree) (changed : List String) :
    (toSend known t changed).Sublist t.files := List.filter_sublist

theorem mem_flushGroups {known : String → Option FileState} {t : Tree} {changed : List String}
    {g : List (String × String)} (hg : g ∈ flushGroups known t changed) :
    (g.map Prod.fst).Nodup ∧ ∀ f ∈ g, f ∈ t.uploads := by
  obtain ⟨paths, hp, rfl⟩ := List.mem_map.mp hg
  have hsub := (partitionFiles_sublist hp).trans (toSend_sublist known t changed)
  refine ⟨(t.nodup.sublist hsub).sublist (uploads_sublist _ _), fun f hf => ?_⟩
  obtain ⟨hf, hr⟩ := mem_uploads.mp hf
  exact mem_uploads.mpr ⟨hsub.subset hf, hr⟩

/-- A flush opens the streams of its groups, also when there is nothing to send. -/
theorem flushChanged_spec {d : Daemon} {t : Tree} {changed : List String}
    (hb : projectId d.db.buffers project = b) (hU : Unique d.db.chunks b) :
    (flushChanged ix project root d t changed).2 = .ok () ∧
    (flushChanged ix project root d t changed).1.db =
      (sendGroups ix project root d.db (flushGroups d.known t changed)).1 := by
  have hnil : toSend d.known t changed = [] →
      sendGroups ix project root d.db (flushGroups d.known t changed) = (d.db, .ok ()) := by
    intro h
    rw [flushGroups, h]
    rfl
  have hn : ∀ g ∈ flushGroups d.known t changed, (g.map Prod.fst).Nodup :=
    fun g hg => (mem_flushGroups hg).1
  obtain ⟨hok, -, -⟩ := sendGroups_view ix project root hb hU hn
  unfold flushChanged
  split
  · rename_i hc
    have h0 : toSend d.known t changed = [] := by
      rw [List.isEmpty_iff] at hc
      simp [toSend, hc]
    rw [hnil h0]
    exact ⟨rfl, rfl⟩
  · dsimp only
    split
    · rename_i hs
      rw [hnil (List.isEmpty_iff.mp hs)]
      exact ⟨rfl, rfl⟩
    · split
      · rename_i h
        rw [h]
        exact ⟨rfl, rfl⟩
      · rename_i h
        rw [h] at hok
        cases hok

/-- A part of the files of a tree has the chunks of all of them when it leaves out no file that
has chunks. -/
theorem part_index {t : Tree} {g : List (String × String)} (hn : (g.map Prod.fst).Nodup)
    (hg : ∀ f ∈ g, f ∈ t.uploads) :
    (∀ k, valuesAt k (entriesOf ix g) = valuesAt k (entriesOf ix t.uploads)) ↔
      ∀ f ∈ t.uploads, f ∈ g ∨ ix.chunksOf f.1 f.2 = [] := by
  have hnt := entriesOf_nodup ix (uploads_nodup t)
  have hsub : ∀ e ∈ entriesOf ix g, e ∈ entriesOf ix t.uploads := by
    intro e he
    simp only [entriesOf, itemsOf, List.mem_map, List.mem_flatMap] at he ⊢
    obtain ⟨x, ⟨f, hf, hx⟩, he⟩ := he
    exact ⟨x, ⟨f, hg f hf, hx⟩, he⟩
  constructor
  · intro h f hf
    rw [or_iff_not_imp_right]
    intro hc
    obtain ⟨c, hc⟩ := List.exists_mem_of_ne_nil _ hc
    -- a chunk of the file is one of the part, and the path of its file is the same
    have he : (c.key f.1, c.hashBytes) ∈ entriesOf ix t.uploads := by
      simp only [entriesOf, itemsOf, List.mem_map, List.mem_flatMap]
      exact ⟨(f.1, c), ⟨f, hf, c, hc, rfl⟩, rfl⟩
    have hv := h (c.key f.1)
    rw [valuesAt_of_nodup hnt he] at hv
    have hk : c.key f.1 ∈ (entriesOf ix g).map Prod.fst := by
      refine Decidable.byContradiction fun hk => ?_
      rw [valuesAt_eq_nil.mpr hk] at hv
      cases hv
    obtain ⟨f', hf', hp⟩ := path_of_mem_entriesOf ix hk
    have hp : f.1 = f'.1 := hp
    have hr := (mem_uploads.mp hf).2
    have hr' := (mem_uploads.mp (hg f' hf')).2
    rw [hp, hr', Option.some_inj] at hr
    rw [show f = f' from Prod.ext hp hr.symm]
    exact hf'
  · intro h k
    rcases Decidable.em (k ∈ (entriesOf ix g).map Prod.fst) with hk | hk
    · obtain ⟨⟨k, d⟩, he, rfl⟩ := List.mem_map.mp hk
      rw [valuesAt_of_nodup (entriesOf_nodup ix hn) he, valuesAt_of_nodup hnt (hsub _ he)]
    · rw [valuesAt_eq_nil.mpr hk, eq_comm, valuesAt_eq_nil]
      intro hkt
      obtain ⟨e, he, rfl⟩ := List.mem_map.mp hkt
      simp only [entriesOf, itemsOf, List.mem_map, List.mem_flatMap] at he
      obtain ⟨x, ⟨f, hf, c, hc, rfl⟩, rfl⟩ := he
      rcases h f hf with hfg | hnil
      · refine hk (List.mem_map.mpr ⟨entry (f.1, c), ?_, rfl⟩)
        simp only [entriesOf, itemsOf, List.mem_map, List.mem_flatMap]
        exact ⟨(f.1, c), ⟨f, hfg, c, hc, rfl⟩, rfl⟩
      · rw [hnil] at hc
        cases hc

/-- One flush on the index of the tree that was there before. -/
theorem flush_index {d : Daemon} {old t : Tree} {changed : List String}
    (hb : projectId d.db.buffers project = b) (hold : IsTreeIndex ix d.db.chunks b old) :
    (flushChanged ix project root d t changed).2 = .ok () ∧
    projectId (flushChanged ix project root d t changed).1.db.buffers project = b ∧
    (IsTreeIndex ix (flushChanged ix project root d t changed).1.db.chunks b t ↔
      Covering ix d.known old t changed) := by
  have hn : ∀ g ∈ flushGroups d.known t changed, (g.map Prod.fst).Nodup :=
    fun g hg => (mem_flushGroups hg).1
  obtain ⟨hok, hdb⟩ := flushChanged_spec ix project root (t := t) hb hold.unique
  obtain ⟨-, hid, hview⟩ := sendGroups_view ix project root hb hold.unique hn
  refine ⟨hok, hdb ▸ hid, ?_⟩
  simp only [IsTreeIndex, Covering, hdb, hview]
  cases hl : lastGroup (flushGroups d.known t changed) with
  | none =>
    refine forall_congr' fun k => ?_
    rw [hold k]
    exact eq_comm
  | some g =>
    have hg : g ∈ flushGroups d.known t changed :=
      (List.mem_filter.mp (List.mem_of_getLast? hl)).1
    exact part_index ix (hn g hg) (mem_flushGroups hg).2

end Flush

/-! ## Runs -/

/-- The next flush of the daemon: the tree it finds and the paths that changed. -/
def Daemon.step (d : Daemon) (f : Tree × List String) : Daemon :=
  (flushChanged ix project root d f.1 f.2).1

/-- The tree of the last flush. -/
def lastTree (old : Tree) (past : List (Tree × List String)) : Tree :=
  (past.head?.map Prod.fst).getD old

/-- The daemon starts on the index of a tree: each flush succeeds and leaves the index of the tree
it finds, if and only if each flush is covering. -/
theorem watch_keeps_index (old : Tree) (db : IndexDb)
    (h0 : IsTreeIndex ix db.chunks (projectId db.buffers project) old)
    (run : List (Tree × List String)) :
    Lts.Always (Daemon.step ix project root) ⟨db, snapshotState old⟩ (fun _ d f =>
        (flushChanged ix project root d f.1 f.2).2 = .ok () ∧
        IsTreeIndex ix (d.step ix project root f).db.chunks (projectId db.buffers project) f.1)
        run ↔
      Lts.Always (Daemon.step ix project root) ⟨db, snapshotState old⟩ (fun past d f =>
        Covering ix d.known (lastTree old past) f.1 f.2) run := by
  -- while the index follows the tree, it is that of the last tree
  have hinv : ∀ run, Lts.Always (Daemon.step ix project root) ⟨db, snapshotState old⟩
      (fun _ d f => (flushChanged ix project root d f.1 f.2).2 = .ok () ∧
        IsTreeIndex ix (d.step ix project root f).db.chunks (projectId db.buffers project) f.1)
        run →
      projectId (Lts.after (Daemon.step ix project root) ⟨db, snapshotState old⟩
          run).db.buffers project = projectId db.buffers project ∧
        IsTreeIndex ix (Lts.after (Daemon.step ix project root) ⟨db, snapshotState old⟩
          run).db.chunks (projectId db.buffers project) (lastTree old run) := by
    refine Lts.guarded_inv (I := fun past (d : Daemon) => projectId d.db.buffers project =
      projectId db.buffers project ∧
      IsTreeIndex ix d.db.chunks (projectId db.buffers project) (lastTree old past)) ⟨rfl, h0⟩ ?_
    rintro past d f ⟨hid, hidx⟩ ⟨-, hnext⟩
    have hid' : projectId (flushChanged ix project root d f.1 f.2).1.db.buffers project =
        projectId db.buffers project := (flush_index ix project root hid hidx).2.1
    exact ⟨hid', hnext⟩
  induction run with
  | nil => exact Iff.rfl
  | cons f run ih =>
    constructor
    · rintro ⟨hr, -, hidx⟩
      obtain ⟨hid, hold⟩ := hinv run hr
      obtain ⟨-, -, hiff⟩ := flush_index ix project root (t := f.1) hid hold
      exact ⟨ih.mp hr, hiff.mp hidx⟩
    · rintro ⟨hr, hcov⟩
      have hall := ih.mpr hr
      obtain ⟨hid, hold⟩ := hinv run hall
      obtain ⟨hok, -, hiff⟩ := flush_index ix project root (t := f.1) hid hold
      exact ⟨hall, hok, hiff.mpr hcov⟩

/-! ## Two projects -/

/-- The index of a project that was empty before. -/
def sampleDb (files : List (String × String)) : IndexDb :=
  (indexStreamLoop sampleIndexer IndexDb.empty (streamOf "p" "/r" files)).1

theorem sampleDb_index {tree : Tree} (h : tree.uploads ≠ []) :
    IsTreeIndex sampleIndexer (sampleDb tree.uploads).chunks
      (projectId IndexDb.empty.buffers "p") tree :=
  (stream_index sampleIndexer "p" "/r" rfl (fun _ => Nat.zero_le _) h (uploads_nodup tree)).2.2

/-- One file, written at the given time. -/
def oneFile (text : String) (mtime : Nat) : Tree :=
  ⟨["m.rs"], by decide, fun _ => some text, fun _ => (mtime, text.length)⟩

/-- Two files, the first one written at the given time. -/
def twoFiles (text : String) (mtime : Nat) : Tree where
  files := ["m.rs", "n.rs"]
  nodup := by decide
  read path := some (if path = "m.rs" then text else "b")
  fileState path := if path = "m.rs" then (mtime, text.length) else (1, 1)

/-- The only file of a project changes, and then is touched. -/
theorem watch_keeps_index_one_file :
    Lts.Always (Daemon.step sampleIndexer "p" "/r")
      ⟨sampleDb (oneFile "a" 1).uploads, snapshotState (oneFile "a" 1)⟩ (fun _ d f =>
        (flushChanged sampleIndexer "p" "/r" d f.1 f.2).2 = .ok () ∧
        IsTreeIndex sampleIndexer (d.step sampleIndexer "p" "/r" f).db.chunks 1 f.1)
      [(oneFile "b" 2, ["m.rs"]), (oneFile "b" 2, ["m.rs"])] := by
  have h₁ : Covering sampleIndexer (snapshotState (oneFile "a" 1)) (oneFile "a" 1) (oneFile "b" 2)
      ["m.rs"] := by
    show ∀ f ∈ (oneFile "b" 2).uploads, f ∈ [("m.rs", "b")] ∨ _
    decide
  have h₂ : Covering sampleIndexer (Daemon.step sampleIndexer "p" "/r"
      ⟨sampleDb (oneFile "a" 1).uploads, snapshotState (oneFile "a" 1)⟩
      (oneFile "b" 2, ["m.rs"])).known (oneFile "b" 2) (oneFile "b" 2) ["m.rs"] := by
    show ∀ k, _ = _
    exact fun _ => rfl
  have h0 : IsTreeIndex sampleIndexer (sampleDb (oneFile "a" 1).uploads).chunks
      (projectId (sampleDb (oneFile "a" 1).uploads).buffers "p") (oneFile "a" 1) :=
    sampleDb_index (by decide)
  exact (watch_keeps_index sampleIndexer "p" "/r" (oneFile "a" 1) (sampleDb (oneFile "a" 1).uploads)
    h0 _).mpr ⟨⟨trivial, h₁⟩, h₂⟩

/-- One of two files changes: the chunk of the other one is retired. -/
theorem watch_keeps_index_unchanged_file :
    ¬ ∀ (ix : Indexer) (project root : String) (old : Tree) (db : IndexDb)
      (run : List (Tree × List String)),
      IsTreeIndex ix db.chunks (projectId db.buffers project) old →
      Lts.Always (Daemon.step ix project root) ⟨db, snapshotState old⟩ (fun _ d f =>
        (flushChanged ix project root d f.1 f.2).2 = .ok () →
        IsTreeIndex ix (d.step ix project root f).db.chunks (projectId db.buffers project) f.1)
        run := by
  intro h
  have hrun := h sampleIndexer "p" "/r" (twoFiles "a" 1) (sampleDb (twoFiles "a" 1).uploads)
    [(twoFiles "b" 2, ["m.rs"])] (sampleDb_index (by decide))
  exact absurd (hrun.2 (by decide) ("n.rs", 1, 1)) (by decide)

end Arags
