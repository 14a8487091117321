import Arags.Index.Reindex
import Arags.Rlm.L1Work

/-!
# Arags.Rlm.Staleness

Which nodes the hooks of an index stream mark as stale.

* `markRlmStaleBySubject_stale`, `markRlmStaleByHashes_stale` — the two marks, row by row.
* `enqueueRlmL1Work_stale` — the marks of a pass over files; `Reached` says how far it gets.
* `rlmHooks_stale` — both phases.
* `Drifted`, `rlm_staleness` — when that is what the chunk table calls for.
-/

namespace Arags

open Sql

def isNodeStale (t : Table RlmNode) (id : Int) : Bool := (t.get? id).any RlmNode.stale

theorem isNodeStale_of_get? {t : Table RlmNode} {id : Int} {n : RlmNode}
    (h : t.get? id = some n) : isNodeStale t id = n.stale := by
  unfold isNodeStale
  rw [h, Option.any_some]

/-- What no hook changes of a node. -/
structure RlmNode.SameSubject (n n' : RlmNode) : Prop where
  buffer : n'.bufferId = n.bufferId
  level : n'.level = n.level
  subject : n'.subject = n.subject
  hashes : n'.sourceHashes = n.sourceHashes

theorem RlmNode.sameSubject_markStale (n : RlmNode) : n.SameSubject n.markStale :=
  ⟨rfl, rfl, rfl, rfl⟩

/-- The row after an update that only marks. -/
theorem marked_row {t : Table RlmNode} {p : Int → RlmNode → Bool} {id : Int} {n : RlmNode}
    (h : t.get? id = some n) :
    ∃ n', (t.update p fun _ n => n.markStale).get? id = some n' ∧ n.SameSubject n' ∧
      (n'.stale = true ↔ n.stale = true ∨ p id n = true) := by
  rw [Table.get?_update, h]
  cases hp : p id n with
  | true =>
    refine ⟨n.markStale, by simp [hp], n.sameSubject_markStale, ?_⟩
    simp [RlmNode.markStale]
  | false => exact ⟨n, by simp [hp], ⟨rfl, rfl, rfl, rfl⟩, by simp⟩

theorem markRlmStaleBySubject_stale {t : Table RlmNode} {id : Int} {n : RlmNode}
    (h : t.get? id = some n) (bufferId level : Int) (subject : String) :
    ∃ n', (markRlmStaleBySubject t bufferId level subject).get? id = some n' ∧ n.SameSubject n' ∧
      (n'.stale = true ↔ n.stale = true ∨
        (n.bufferId = some bufferId ∧ n.level = level ∧ n.subject = subject)) := by
  obtain ⟨n', hn', hs, hstale⟩ := marked_row h (p := fun _ n => n.bufferId == some bufferId &&
    n.level == level && n.subject == subject && !n.stale)
  refine ⟨n', hn', hs, hstale.trans ?_⟩
  simp only [Bool.and_eq_true, beq_iff_eq, Bool.not_eq_true']
  cases n.stale <;> simp [and_assoc]

theorem markRlmStaleByHashes_stale {t : Table RlmNode} {id : Int} {n : RlmNode}
    (h : t.get? id = some n) (bufferId : Int) (changed : List String) :
    ∃ n', (markRlmStaleByHashes t bufferId changed).get? id = some n' ∧ n.SameSubject n' ∧
      (n'.stale = true ↔ n.stale = true ∨
        (n.bufferId = some bufferId ∧ ∃ x ∈ n.sourceHashes, x ∈ changed)) := by
  unfold markRlmStaleByHashes
  by_cases hc : changed = []
  · subst hc
    exact ⟨n, h, ⟨rfl, rfl, rfl, rfl⟩, by simp⟩
  · rw [if_neg (by simpa using hc)]
    obtain ⟨n', hn', hs, hstale⟩ := marked_row h (p := fun _ n => n.hitBy bufferId changed)
    refine ⟨n', hn', hs, hstale.trans ?_⟩
    simp only [RlmNode.hitBy, Bool.and_eq_true, beq_iff_eq, Bool.not_eq_true', List.any_eq_true,
      List.contains_eq_mem, decide_eq_true_eq]
    cases n.stale <;> simp

/-! ## A pass over files -/

section Pass

variable (codec : PayloadCodec) (scan : ScanOrder RlmNode) (jobScan : ScanOrder RlmJob)
variable (chunks : SeqTable Chunk) (bufferId : Int) (project : String) (now : Int)

/-- The file has no rows, or the node found for it is stale or records other hashes. -/
def fileDue (nodes : Table RlmNode) (file : String) : Bool :=
  let snapshot := rlmChunksSnapshot chunks bufferId file
  snapshot.isEmpty || (getRlmNodeBySubject scan nodes project 1 file).any fun x =>
    x.2.stale || !sameHashes x.2.sourceHashes (snapshotHashes snapshot)

/-- The pass gets to the file: the files before it are enqueued. -/
def Reached (db : RlmDb) (files : List String) (file : String) : Prop :=
  file ∈ files ∧ (enqueueRlmL1Work codec scan jobScan chunks bufferId project now db
    (files.takeWhile (· != file))).2.isOk = true

instance (db : RlmDb) (files : List String) (file : String) :
    Decidable (Reached codec scan jobScan chunks bufferId project now db files file) := by
  unfold Reached
  exact inferInstance

variable {codec scan jobScan chunks bufferId project now}

theorem enqueueL1File_nodes (db : RlmDb) (file : String) :
    (enqueueL1File codec scan jobScan chunks bufferId project now db file).1.rlmNodes =
      if fileDue scan chunks bufferId project db.rlmNodes file then
        markRlmStaleBySubject db.rlmNodes bufferId 1 file
      else db.rlmNodes := by
  unfold enqueueL1File fileDue enqueueL1Job
  dsimp only
  by_cases hs : (rlmChunksSnapshot chunks bufferId file).isEmpty = true
  · simp only [hs, if_true, Bool.true_or]
  · simp only [hs, Bool.false_eq_true, if_false, Bool.false_or]
    cases hg : getRlmNodeBySubject scan db.rlmNodes project 1 file with
    | none => simp [enqueueRlmJob_nodes]
    | some x =>
      rw [Option.any_some]
      cases hx : x.2.stale <;>
        cases hh : sameHashes x.2.sourceHashes
          (snapshotHashes (rlmChunksSnapshot chunks bufferId file)) <;>
        simp [hx, hh, enqueueRlmJob_nodes]

/-- A mark for one file does not change the node that is found for another. -/
theorem getRlmNodeBySubject_mark {nodes : Table RlmNode} {file other : String}
    (hne : file ≠ other) :
    getRlmNodeBySubject scan (markRlmStaleBySubject nodes bufferId 1 other) project 1 file =
      getRlmNodeBySubject scan nodes project 1 file := by
  have hselect : (markRlmStaleBySubject nodes bufferId 1 other).select
      (fun _ n => n.isLive project 1 file) = nodes.select fun _ n => n.isLive project 1 file := by
    unfold markRlmStaleBySubject
    have hmark : ∀ (i : Int) (n : RlmNode), n.markStale.isLive project 1 file =
        n.isLive project 1 file := fun _ _ => rfl
    refine (Table.select_update_in hmark).trans ?_
    refine (List.map_congr_left fun x hx => ?_).trans (List.map_id _)
    have hlive := (Table.mem_select.mp hx).2
    simp only [RlmNode.isLive, Bool.and_eq_true, beq_iff_eq] at hlive
    rw [if_neg]
    · rfl
    · simp [hlive.1.2, hne]
  unfold getRlmNodeBySubject
  rw [hselect]

theorem fileDue_mark {nodes : Table RlmNode} {file other : String} (hne : file ≠ other) :
    fileDue scan chunks bufferId project (markRlmStaleBySubject nodes bufferId 1 other) file =
      fileDue scan chunks bufferId project nodes file := by
  unfold fileDue
  rw [getRlmNodeBySubject_mark hne]

/-- The row of a node after one file. -/
theorem enqueueL1File_stale {db : RlmDb} {id : Int} {n : RlmNode}
    (h : db.rlmNodes.get? id = some n) (file : String) :
    ∃ n', (enqueueL1File codec scan jobScan chunks bufferId project now db
        file).1.rlmNodes.get? id = some n' ∧ n.SameSubject n' ∧
      (n'.stale = true ↔ n.stale = true ∨ (n.bufferId = some bufferId ∧ n.level = 1 ∧
        n.subject = file ∧ fileDue scan chunks bufferId project db.rlmNodes file = true)) := by
  rw [enqueueL1File_nodes]
  by_cases hd : fileDue scan chunks bufferId project db.rlmNodes file = true
  · rw [if_pos hd]
    simpa [hd] using markRlmStaleBySubject_stale h bufferId 1 file
  · rw [if_neg hd]
    exact ⟨n, h, ⟨rfl, rfl, rfl, rfl⟩, by simp [hd]⟩

theorem reached_head (db : RlmDb) (file : String) (files : List String) :
    Reached codec scan jobScan chunks bufferId project now db (file :: files) file := by
  refine ⟨List.mem_cons_self, ?_⟩
  rw [List.takeWhile_cons_of_neg (by simp)]
  rfl

theorem reached_later {db : RlmDb} {file other : String} {files : List String}
    (hne : other ≠ file) :
    Reached codec scan jobScan chunks bufferId project now db (file :: files) other ↔
      (enqueueL1File codec scan jobScan chunks bufferId project now db file).2.isOk = true ∧
      Reached codec scan jobScan chunks bufferId project now
        (enqueueL1File codec scan jobScan chunks bufferId project now db file).1 files other := by
  unfold Reached
  rw [List.takeWhile_cons_of_pos (by simpa using Ne.symm hne), enqueueRlmL1Work]
  generalize enqueueL1File codec scan jobScan chunks bufferId project now db file = r
  obtain ⟨db', res⟩ := r
  cases res with
  | error e => simp [Except.isOk, Except.toBool]
  | ok c =>
    simp only [List.mem_cons, hne, false_or]
    cases (enqueueRlmL1Work codec scan jobScan chunks bufferId project now db'
      (files.takeWhile (· != other))).2 <;> simp [Except.isOk, Except.toBool, Except.map]

/-- The file's own step is the only one that its test depends on. -/
theorem fileDue_later {db : RlmDb} {file other : String} (hne : other ≠ file) :
    fileDue scan chunks bufferId project
        (enqueueL1File codec scan jobScan chunks bufferId project now db file).1.rlmNodes other =
      fileDue scan chunks bufferId project db.rlmNodes other := by
  rw [enqueueL1File_nodes]
  split
  · exact fileDue_mark hne
  · rfl

/-- The pass after its first file. -/
theorem enqueueRlmL1Work_cons (db : RlmDb) (file : String) (files : List String) :
    (enqueueRlmL1Work codec scan jobScan chunks bufferId project now db (file :: files)).1 =
      let r := enqueueL1File codec scan jobScan chunks bufferId project now db file
      if r.2.isOk then (enqueueRlmL1Work codec scan jobScan chunks bufferId project now r.1
        files).1 else r.1 := by
  rw [enqueueRlmL1Work]
  generalize enqueueL1File codec scan jobScan chunks bufferId project now db file = r
  obtain ⟨db', res⟩ := r
  cases res <;> rfl

/-- A node of the buffer is marked when the pass reaches its file and finds it due. -/
theorem enqueueRlmL1Work_stale {files : List String} (hnodup : files.Nodup) {db : RlmDb}
    {id : Int} {n : RlmNode} (h : db.rlmNodes.get? id = some n) :
    isNodeStale (enqueueRlmL1Work codec scan jobScan chunks bufferId project now db
        files).1.rlmNodes id = true ↔
      n.stale = true ∨ (n.bufferId = some bufferId ∧ n.level = 1 ∧
        Reached codec scan jobScan chunks bufferId project now db files n.subject ∧
        fileDue scan chunks bufferId project db.rlmNodes n.subject = true) := by
  induction files generalizing db n with
  | nil => simp [enqueueRlmL1Work, isNodeStale_of_get? h, Reached]
  | cons file files ih =>
    obtain ⟨hfile, hnodup⟩ := List.nodup_cons.mp hnodup
    obtain ⟨n', hn', hsame, hstale⟩ :=
      @enqueueL1File_stale codec scan jobScan chunks bufferId project now db id n h file
    have hrest := ih hnodup hn'
    rw [hsame.buffer, hsame.level, hsame.subject, hstale] at hrest
    rw [enqueueRlmL1Work_cons]
    by_cases hsub : n.subject = file
    · subst hsub
      -- the files after it do not name it again
      have hunreached : ¬ Reached codec scan jobScan chunks bufferId project now
          (enqueueL1File codec scan jobScan chunks bufferId project now db n.subject).1 files
          n.subject := fun hr => hfile hr.1
      have hreached : Reached codec scan jobScan chunks bufferId project now db
          (n.subject :: files) n.subject := reached_head db n.subject files
      dsimp only
      split
      · rw [hrest]
        simp [hunreached, hreached]
      · rw [isNodeStale_of_get? hn', hstale]
        simp [hreached]
    · rw [reached_later hsub]
      dsimp only
      split
      · rename_i hok
        rw [hrest, fileDue_later hsub]
        simp [hok, hsub]
      · rename_i hok
        rw [isNodeStale_of_get? hn', hstale]
        simp [hok, hsub]

end Pass

/-! ## The texts that a stream persists -/

section Texts

variable {ix : Indexer}

/-- The chunk texts of the files of a stream. -/
def deliveredTexts (ix : Indexer) : List IndexMsg → List String
  | [] => []
  | .file path (some text) :: msgs =>
    (ix.chunksOf path text).map IndexedChunk.content ++ deliveredTexts ix msgs
  | _ :: msgs => deliveredTexts ix msgs

theorem phase1_texts (chunks : SeqTable Chunk) (b : Int) (path text : String) (st : LoopState) :
    (phase1 ix chunks b path text st).2.persistedAll.map Prod.snd =
      st.persistedAll.map Prod.snd ++ (ix.chunksOf path text).map IndexedChunk.content := by
  unfold phase1
  cases hc : ix.chunksOf path text with
  | nil => simp
  | cons c cs =>
    have h := persistAll_texts ix.scan b (st.snapshot.getD []) (chunks, .empty)
      ((c :: cs).map fun c => (path, c))
    simp only [List.isEmpty_cons, Bool.false_eq_true, if_false, insertChunksBatched_eq,
      List.map_append]
    refine congrArg _ (h.trans ?_)
    simp [BatchedInsert.empty]

theorem phase0_persistedAll (chunks : SeqTable Chunk) (b : Int) (st : LoopState) :
    (phase0 ix chunks b st).persistedAll = st.persistedAll := by
  unfold phase0
  split <;> rfl

theorem runLoop_texts {db db' : IndexDb} {st st' : LoopState} {msgs : List IndexMsg}
    (h : runLoop ix db st msgs = (db', .ok st')) :
    st'.persistedAll.map Prod.snd =
      st.persistedAll.map Prod.snd ++ deliveredTexts ix msgs := by
  induction msgs generalizing db st with
  | nil =>
    cases h
    simp [deliveredTexts]
  | cons m ms ih =>
    rw [runLoop] at h
    cases hm : stepMsg ix db st m with
    | error e => rw [hm] at h; cases h
    | ok r =>
      rw [hm] at h
      have hrest := ih h
      rcases stepMsg_cases hm with ⟨_, _, rfl, -, hst⟩ | ⟨path, text, b, rfl, hb, -, hst⟩ |
        ⟨rfl, -, hst⟩
      · rw [hrest, hst]
        rfl
      · rw [hrest, hst, phase1_texts, phase0_persistedAll, List.append_assoc]
        rfl
      · rw [hrest, hst]
        rfl

theorem streamEnd_texts {db : IndexDb} {msgs : List IndexMsg} {e : StreamEnd}
    (h : streamEnd ix db msgs = some e) :
    e.persistedAll.map Prod.snd = deliveredTexts ix msgs := by
  unfold streamEnd at h
  cases hr : runLoop ix db .start msgs with
  | mk db' res =>
    cases res with
    | error e => simp [hr] at h
    | ok st =>
      simp only [hr] at h
      split at h
      · cases h
        exact runLoop_texts hr
      · cases h

end Texts

/-! ## Both phases -/

section Hooks

variable (codec : PayloadCodec) (scan : ScanOrder RlmNode) (jobScan : ScanOrder RlmJob)
variable (enabled : Bool)

/-- A node that the hooks mark: its buffer is the one of the stream, and one of its hashes is
literally the text of a delivered chunk, or it is the node of a file that the stream persisted
and whose rows, of all versions, have other hashes. -/
def Hooked (texts : List String) (e : StreamEnd) (rlm : RlmDb) (now : Int) (n : RlmNode) : Prop :=
  enabled = true ∧ n.bufferId = some e.bufferId ∧
    ((∃ x ∈ n.sourceHashes, x ∈ texts) ∨
      (n.level = 1 ∧
        Reached codec scan jobScan e.chunks e.bufferId e.project now
          { rlm with rlmNodes := rlmStalenessHook e rlm.rlmNodes } e.files n.subject ∧
        fileDue scan e.chunks e.bufferId e.project (rlmStalenessHook e rlm.rlmNodes) n.subject =
          true))

instance (texts : List String) (e : StreamEnd) (rlm : RlmDb) (now : Int) (n : RlmNode) :
    Decidable (Hooked codec scan jobScan enabled texts e rlm now n) := by
  unfold Hooked
  exact inferInstance

/-- A hash of the node is the hash of no active chunk. -/
def Drifted (chunks : SeqTable Chunk) (n : RlmNode) : Prop :=
  ∃ x ∈ n.sourceHashes, ∀ row ∈ chunks.rows, row.2.isActive = true → sqlHex row.2.hash ≠ x

instance (chunks : SeqTable Chunk) (n : RlmNode) : Decidable (Drifted chunks n) := by
  unfold Drifted
  exact inferInstance

variable {codec scan jobScan enabled}

theorem rlmHooks_stale {texts : List String} {e : StreamEnd}
    (ht : e.persistedAll.map Prod.snd = texts) {rlm : RlmDb} {id now : Int} {n : RlmNode}
    (h : rlm.rlmNodes.get? id = some n) :
    isNodeStale (rlmHooks codec scan jobScan enabled e rlm now).rlmNodes id = true ↔
      n.stale = true ∨ Hooked codec scan jobScan enabled texts e rlm now n := by
  unfold rlmHooks Hooked
  cases enabled with
  | false => simp [isNodeStale_of_get? h]
  | true =>
    obtain ⟨n', hn', hsame, hstale⟩ := markRlmStaleByHashes_stale h e.bufferId texts
    have hrow : (rlmStalenessHook e rlm.rlmNodes).get? id = some n' := by
      unfold rlmStalenessHook
      rw [ht]
      exact hn'
    have hpass := @enqueueRlmL1Work_stale codec scan jobScan e.chunks e.bufferId e.project now
      e.files (List.nodup_dedup _) { rlm with rlmNodes := rlmStalenessHook e rlm.rlmNodes } id n'
      hrow
    rw [if_pos rfl, hpass, hstale, hsame.buffer, hsame.level, hsame.subject]
    constructor
    · rintro ((hs | ⟨hb, hx⟩) | ⟨hb, hl, hr, hd⟩)
      · exact .inl hs
      · exact .inr ⟨rfl, hb, .inl hx⟩
      · exact .inr ⟨rfl, hb, .inr ⟨hl, hr, hd⟩⟩
    · rintro (hs | ⟨-, hb, hx | ⟨hl, hr, hd⟩⟩)
      · exact .inl (.inl hs)
      · exact .inl (.inr ⟨hb, hx⟩)
      · exact .inr ⟨hb, hl, hr, hd⟩

/-- After a stream that completes, a node is as stale as the chunk table asks for exactly when it
was stale before, or the hooks reach it and it has drifted, or neither. -/
theorem rlm_staleness {ix : Indexer} {db : IndexDb} {msgs : List IndexMsg} {e : StreamEnd}
    (he : streamEnd ix db msgs = some e) {rlm : RlmDb} {id now : Int} {n : RlmNode}
    (hrow : rlm.rlmNodes.get? id = some n) :
    let after := (indexStreamRlm ix codec scan jobScan enabled db rlm msgs now).1
    (isNodeStale after.2.rlmNodes id = true ↔ n.stale = true ∨ Drifted after.1.chunks n) ↔
      n.stale = true ∨
        (Hooked codec scan jobScan enabled (deliveredTexts ix msgs) e rlm now n ↔
          Drifted e.chunks n) := by
  have hspec := @streamEnd_spec ix db msgs
  rw [he] at hspec
  have hnodes : (indexStreamRlm ix codec scan jobScan enabled db rlm msgs now).1.2 =
      rlmHooks codec scan jobScan enabled e rlm now := by
    unfold indexStreamRlm
    rw [he]
  have hchunks : (indexStreamRlm ix codec scan jobScan enabled db rlm msgs now).1.1.chunks =
      e.chunks := by
    unfold indexStreamRlm
    rw [he]
    exact hspec.1
  dsimp only
  rw [hnodes, hchunks, rlmHooks_stale (streamEnd_texts he) hrow]
  tauto

end Hooks

/-! ## A file that vanishes -/

/-- Two files are indexed. -/
def indexedFiles : IndexDb :=
  (indexStreamLoop sampleIndexer .empty
    [.init "p" "/r", .file "a.rs" (some "a"), .file "b.rs" (some "b")]).1

/-- The node of the first one, from its snapshot. -/
def summaryNode : NewRlmNode :=
  { fileSummary (snapshotHashes (rlmChunksSnapshot indexedFiles.chunks 1 "a.rs")) with
    subject := "a.rs" }

def oneSummary : RlmDb :=
  adminCompletes (enqueueRlmJob .rowid .empty { fileJob with subject := "a.rs" } [] 0).1
    summaryNode "n1" 1

def firstNode : RlmNode := (oneSummary.rlmNodes.get? 1).get (by decide +kernel)

def afterStream (msgs : List IndexMsg) : IndexDb × RlmDb :=
  (indexStreamRlm sampleIndexer themeCodec .rowid .rowid true indexedFiles oneSummary msgs 9).1

def changedFile : List IndexMsg := [.init "p" "/r", .file "a.rs" (some "b")]

def vanishedFile : List IndexMsg := [.init "p" "/r", .file "b.rs" (some "b")]

def changedEnd : StreamEnd :=
  (streamEnd sampleIndexer indexedFiles changedFile).get (by decide +kernel)

/-- The file changes: its node becomes stale, as it should. -/
theorem rlm_staleness_changed :
    isNodeStale (afterStream changedFile).2.rlmNodes 1 = true ↔
      firstNode.stale = true ∨ Drifted (afterStream changedFile).1.chunks firstNode := by
  have hend : streamEnd sampleIndexer indexedFiles changedFile = some changedEnd :=
    (Option.some_get _).symm
  have hrow : oneSummary.rlmNodes.get? 1 = some firstNode := (Option.some_get _).symm
  exact (rlm_staleness hend hrow).mpr (by decide +kernel)

/-- The file is gone: no active chunk has the hash of its node, and the node stays fresh. -/
theorem rlm_staleness_vanished :
    firstNode.isActive = true ∧ firstNode.bufferId = some 1 ∧
      firstNode.sourceHashes = snapshotHashes (rlmChunksSnapshot indexedFiles.chunks 1 "a.rs") ∧
      (indexStreamLoop sampleIndexer indexedFiles vanishedFile).2.isOk = true ∧
      ¬ (isNodeStale (afterStream vanishedFile).2.rlmNodes 1 = true ↔
        firstNode.stale = true ∨ Drifted (afterStream vanishedFile).1.chunks firstNode) := by
  decide +kernel

end Arags
