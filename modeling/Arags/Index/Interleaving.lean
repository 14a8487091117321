import Arags.Index.Streams

/-!
# Arags.Index.Interleaving

`k` streams over one project, each with files of its own, in any order of their steps.

* `Progress`, `next_did` — how far a stream has come, and what its next step does.
* `Reading`   — what holds at every moment, whatever the order: rows, snapshots and what was sent.
* `Kept`      — every chunk sent so far has an active row that no stream will retire.
* `Apart`     — the condition on a step under which it loses no chunk; `kept_step` says that it is
  exactly that.
* `concurrent_streams` — the index is that of all the files, if and only if every step is apart.
-/

namespace Arags

open Sql Keyed

/-- What a stream over these files has sent. -/
def sentOf (files : List (String × String)) (r : StreamRun) : List (String × String) :=
  files.take (files.length - r.todo.length)

variable (ix : Indexer)

def keysOf (files : List (String × String)) : List ChunkKey := (entriesOf ix files).map Prod.fst

theorem keysOf_append (files files' : List (String × String)) :
    keysOf ix (files ++ files') = keysOf ix files ++ keysOf ix files' := by
  simp [keysOf, entriesOf, itemsOf]

theorem mem_keysOf {files : List (String × String)} {key : ChunkKey} :
    key ∈ keysOf ix files ↔ ∃ d, (key, d) ∈ entriesOf ix files := by
  simp [keysOf]

/-! ## One stream -/

section Stream

variable (project root : String) (b : Int) (files : List (String × String))

/-- How far a stream over one project has come. -/
inductive Progress : StreamRun → Prop where
  | unread : Progress (.start (streamOf project root files))
  | opened : Progress ⟨files.map fun f => .file f.1 (some f.2),
      { LoopState.start with project := some project, bufferId := some b }, none⟩
  | reading (sent rest : List (String × String)) (st : LoopState) (snap : Snapshot)
      (hne : files ≠ []) (hf : files = sent ++ rest) (hp : st.project = some project)
      (hb : st.bufferId = some b) (hs : st.snapshot = some snap)
      (hrem : ∀ key, key ∈ st.remainingActive ↔ snap.has key = true ∧ key ∉ keysOf ix sent)
      (htot : st.totalChunks = (entriesOf ix sent).length) :
      Progress ⟨rest.map fun f => .file f.1 (some f.2), st, none⟩
  | answered (st : LoopState) (res : IndexResponse)
      (htot : st.totalChunks = (entriesOf ix files).length) : Progress ⟨[], st, some (.ok res)⟩

/-- What a step of a stream did to the chunks and to the stream. -/
inductive Did (t : SeqTable Chunk) (r : StreamRun) (t' : SeqTable Chunk) (r' : StreamRun) :
    Prop where
  | quiet (ht : t' = t) (hsent : sentOf files r' = sentOf files r)
      (hsnap : r'.st.snapshot = r.st.snapshot) (hres : r'.response = r.response)
      (hdue : r.snapshotDue = none) (hdel : r.delivery = [])
  | snapshot (ht : t' = t) (hsent : sentOf files r' = sentOf files r)
      (hnone : sentOf files r = []) (hold : r.st.snapshot = none)
      (hsnap : r'.st.snapshot = some (snapshotActiveChunks ix.scan t b))
      (hres : r.response = none) (hres' : r'.response = none) (hdue : r.snapshotDue = some b)
      (hdel : r.delivery = [])
  | delivered (f : String × String) (snap : Snapshot)
      (ht : t' = persistTable ix.scan b snap t (itemsOf ix [f]))
      (hf : ∃ rest, files = sentOf files r ++ f :: rest)
      (hsent : sentOf files r' = sentOf files r ++ [f]) (hold : r.st.snapshot = some snap)
      (hsnap : r'.st.snapshot = some snap) (hres : r.response = none) (hres' : r'.response = none)
      (hdue : r.snapshotDue = none) (hdel : r.delivery = [f])
  | ended (ht : t' = orphanPass t r.st) (hall : sentOf files r = files)
      (hsent : sentOf files r' = files) (hold : r.st.snapshot ≠ none ↔ files ≠ [])
      (hsnap : r'.st.snapshot = r.st.snapshot)
      (hrem : ∀ snap, r.st.snapshot = some snap →
        ∀ key, key ∈ r.st.remainingActive ↔ snap.has key = true ∧ key ∉ keysOf ix files)
      (hres : r.response = none) (hres' : r'.response ≠ none) (hdue : r.snapshotDue = none)
      (hdel : r.delivery = [])

theorem sentOf_map (sent rest : List (String × String)) (st : LoopState)
    (res : Option (Except String IndexResponse)) :
    sentOf (sent ++ rest) ⟨rest.map fun f => .file f.1 (some f.2), st, res⟩ = sent := by
  simp [sentOf]

theorem phase1_total (chunks : SeqTable Chunk) (path text : String) (st : LoopState) :
    (phase1 ix chunks b path text st).2.totalChunks =
      st.totalChunks + (entriesOf ix [(path, text)]).length := by
  unfold phase1
  cases hc : ix.chunksOf path text with
  | nil => simp [entriesOf, itemsOf, hc]
  | cons c cs => simp [entriesOf, itemsOf, hc]

/-- The end of the stream. -/
theorem next_did_end {db : IndexDb} {sent : List (String × String)} {st : LoopState}
    {snap : Snapshot} (hb : projectId db.buffers project = b) (hne : sent ≠ [])
    (hpr : st.project = some project) (hbu : st.bufferId = some b) (hs : st.snapshot = some snap)
    (hrem : ∀ key, key ∈ st.remainingActive ↔ snap.has key = true ∧ key ∉ keysOf ix sent)
    (htot : st.totalChunks = (entriesOf ix sent).length) :
    Progress ix project root b sent (StreamRun.next ix db ⟨[], st, none⟩).2 ∧
      projectId (StreamRun.next ix db ⟨[], st, none⟩).1.buffers project = b ∧
      Did ix b sent db.chunks ⟨[], st, none⟩ (StreamRun.next ix db ⟨[], st, none⟩).1.chunks
        (StreamRun.next ix db ⟨[], st, none⟩).2 := by
  rw [next_end]
  have hfin : finish db st = ({ db with
      chunks := orphanPass db.chunks st
      buffers := incrementBufferCounts db.buffers b st.netChunks st.netFiles },
    .ok ⟨st.distinctFiles, st.totalChunks⟩) := by simp only [finish, hpr, hbu]
  rw [hfin]
  refine ⟨.answered _ _ htot, ?_, .ended rfl ?_ ?_ ?_ rfl ?_ rfl (by simp) ?_ ?_⟩
  · exact (projectId_increment _ _ _ _ _).trans hb
  · simp [sentOf]
  · simp [sentOf]
  · exact iff_of_true (by rw [hs]; simp) hne
  · intro snap' hs' key
    obtain rfl : snap = snap' := Option.some.inj (hs.symm.trans hs')
    exact hrem key
  · rfl
  · rfl

/-- One more file. -/
theorem next_did_file {db : IndexDb} {sent rest : List (String × String)} {f : String × String}
    {st : LoopState} {snap : Snapshot} (hb : projectId db.buffers project = b)
    (hne : sent ++ f :: rest ≠ []) (hpr : st.project = some project)
    (hbu : st.bufferId = some b) (hs : st.snapshot = some snap)
    (hrem : ∀ key, key ∈ st.remainingActive ↔ snap.has key = true ∧ key ∉ keysOf ix sent)
    (htot : st.totalChunks = (entriesOf ix sent).length) :
    let r : StreamRun := ⟨(f :: rest).map fun f => .file f.1 (some f.2), st, none⟩
    Progress ix project root b (sent ++ f :: rest) (r.next ix db).2 ∧
      projectId (r.next ix db).1.buffers project = b ∧
      Did ix b (sent ++ f :: rest) db.chunks r (r.next ix db).1.chunks (r.next ix db).2 := by
  dsimp only
  have hdue : StreamRun.snapshotDue ⟨(f :: rest).map fun f => .file f.1 (some f.2), st, none⟩ =
      none := by simp [StreamRun.snapshotDue, hs]
  obtain ⟨h1, h2, h3, h4, h5⟩ := phase1_spec ix db.chunks b f.1 f.2 st hs
  have hp0 : phase0 ix db.chunks b st = st := by simp only [phase0, hs]
  have hm := stepMsg_file ix db st f.1 f.2 hbu
  rw [hp0] at hm
  rw [List.map_cons] at hdue ⊢
  rw [next_ok hdue hm]
  have happ : sent ++ f :: rest = (sent ++ [f]) ++ rest := by simp
  refine ⟨?_, hb, .delivered f snap h1 ⟨rest, ?_⟩ ?_ hs h4 rfl rfl hdue ?_⟩
  · refine .reading (sent ++ [f]) rest _ snap hne happ (h2.trans hpr) (h3.trans hbu) h4 ?_ ?_
    · intro key
      rw [h5, hrem, keysOf_append, List.mem_append, keysOf, keysOf]
      tauto
    · rw [phase1_total, htot]
      simp [entriesOf, itemsOf]
  · rw [← List.map_cons (f := fun f : String × String => IndexMsg.file f.1 (some f.2)),
      sentOf_map]
  · rw [← List.map_cons (f := fun f : String × String => IndexMsg.file f.1 (some f.2)),
      sentOf_map, happ, sentOf_map]
  · simp [StreamRun.delivery, hs]

theorem next_did {db : IndexDb} {r : StreamRun} (hp : Progress ix project root b files r)
    (hb : projectId db.buffers project = b) :
    Progress ix project root b files (r.next ix db).2 ∧
      projectId (r.next ix db).1.buffers project = b ∧
      Did ix b files db.chunks r (r.next ix db).1.chunks (r.next ix db).2 := by
  cases hp with
  | unread =>
    have hn : StreamRun.next ix db (.start (streamOf project root files)) =
        ({ db with buffers := (ensureProject db.buffers project root).1 },
          ⟨files.map fun f => .file f.1 (some f.2),
            { LoopState.start with project := some project, bufferId := some b }, none⟩) := by
      refine next_ok rfl ?_
      rw [stepMsg_init, hb]
    rw [hn]
    refine ⟨.opened, (projectId_ensureProject _ _ _).trans hb, .quiet rfl ?_ rfl rfl rfl rfl⟩
    simp [sentOf, StreamRun.start, streamOf]
  | opened =>
    cases files with
    | nil =>
      rw [List.map_nil, next_end]
      refine ⟨.answered _ _ rfl, ?_, .ended rfl rfl rfl ?_ rfl ?_ rfl (by simp) rfl rfl⟩
      · exact (projectId_increment _ _ _ _ _).trans hb
      · exact iff_of_false (fun h => h rfl) fun h => h rfl
      · intro snap hs
        cases hs
    | cons f rest =>
      have hdue : StreamRun.snapshotDue ⟨(f :: rest).map fun f => .file f.1 (some f.2),
          { LoopState.start with project := some project, bufferId := some b }, none⟩ = some b :=
        rfl
      rw [List.map_cons, next_snapshot hdue]
      have h0 : sentOf (f :: rest) ⟨(f :: rest).map fun f => .file f.1 (some f.2),
          { LoopState.start with project := some project, bufferId := some b }, none⟩ = [] := by
        simp [sentOf]
      refine ⟨.reading [] (f :: rest) _ (snapshotActiveChunks ix.scan db.chunks b)
        (List.cons_ne_nil f rest) rfl rfl rfl rfl ?_ rfl, hb,
        .snapshot rfl rfl h0 rfl rfl rfl rfl rfl rfl⟩
      intro key
      have hk : key ∈ (phase0 ix db.chunks b { LoopState.start with
          project := some project, bufferId := some b }).remainingActive ↔ _ := mem_snapshot_keys
      simp [hk, keysOf, entriesOf, itemsOf]
  | reading sent rest st snap hne hf hpr hbu hs hrem htot =>
    subst hf
    cases rest with
    | nil =>
      rw [List.append_nil] at hne ⊢
      exact next_did_end ix project root b hb hne hpr hbu hs hrem htot
    | cons f rest => exact next_did_file ix project root b hb hne hpr hbu hs hrem htot
  | answered st res htot =>
    have hn : StreamRun.next ix db ⟨[], st, some (.ok res)⟩ = (db, ⟨[], st, some (.ok res)⟩) := rfl
    rw [hn]
    exact ⟨.answered st res htot, hb, .quiet rfl rfl rfl rfl rfl rfl⟩

end Stream

/-! ## All streams -/

variable {k : Nat} (p : Partition k)

/-- Nobody has sent this key yet. -/
def Unsent (s : Service k) (key : ChunkKey) : Prop :=
  ∀ j, key ∉ keysOf ix (sentOf (p.files j) (s.runs j))

/-- What holds in every order of steps. -/
structure Reading (project root : String) (b : Int) (t₀ : SeqTable Chunk) (s : Service k) :
    Prop where
  progress : ∀ i, Progress ix project root b (p.files i) (s.runs i)
  buffer : projectId s.db.buffers project = b
  unique : Unique s.db.chunks b
  delivered : ∀ i, ∀ e ∈ entriesOf ix (sentOf (p.files i) (s.runs i)),
    ∀ x ∈ activeAt s.db.chunks b e.1, x.2.hash = e.2
  known : ∀ i snap, (s.runs i).st.snapshot = some snap → ∀ key id, snap.lookup key = some id →
    ∃ r, (id, r) ∈ s.db.chunks.rows ∧ r.key = key
  missed : ∀ i snap, (s.runs i).st.snapshot = some snap → ∀ key, Unsent ix p s key →
    ∀ x ∈ activeAt s.db.chunks b key, snap.lookup key = some x.1
  swept : ∀ i, (s.runs i).response ≠ none → p.files i ≠ [] → ∀ key, Unsent ix p s key →
    activeAt s.db.chunks b key = []
  idle : (∀ i, p.files i = []) → s.db.chunks = t₀

section Facts

variable {ix p}

theorem step_self (s : Service k) (i : Fin k) :
    (s.step ix i).runs i = ((s.runs i).next ix s.db).2 := by simp [Service.step]

theorem step_ne (s : Service k) {i j : Fin k} (h : j ≠ i) : (s.step ix i).runs j = s.runs j := by
  simp [Service.step, h]

/-- A fact about the runs after a step: one about the stream that took it, and one about others. -/
theorem forall_runs (ix : Indexer) (s : Service k) (i : Fin k) {P : Fin k → StreamRun → Prop}
    (hi : P i ((s.runs i).next ix s.db).2) (ho : ∀ j, j ≠ i → P j (s.runs j)) :
    ∀ j, P j ((s.step ix i).runs j) := by
  intro j
  rcases Decidable.em (j = i) with rfl | hj
  · rw [step_self]
    exact hi
  · rw [step_ne s hj]
    exact ho j hj

theorem sentOf_sublist (files : List (String × String)) (r : StreamRun) :
    (sentOf files r).Sublist files := List.take_sublist _ _

theorem keysOf_subset {files files' : List (String × String)} (h : files.Sublist files')
    {key : ChunkKey} (hk : key ∈ keysOf ix files) : key ∈ keysOf ix files' := by
  obtain ⟨d, hd⟩ := (mem_keysOf ix).mp hk
  refine (mem_keysOf ix).mpr ⟨d, ?_⟩
  simp only [entriesOf, itemsOf, List.mem_map, List.mem_flatMap] at hd ⊢
  obtain ⟨x, ⟨f, hf, hx⟩, he⟩ := hd
  exact ⟨x, ⟨f, h.subset hf, hx⟩, he⟩

/-- A key belongs to one stream. -/
theorem owner_unique {i j : Fin k} {key : ChunkKey} (hi : key ∈ keysOf ix (p.files i))
    (hj : key ∈ keysOf ix (p.files j)) : i = j := by
  obtain ⟨f, hf, he⟩ := path_of_mem_entriesOf ix hi
  obtain ⟨g, hg, he'⟩ := path_of_mem_entriesOf ix hj
  exact p.disjoint f hf g hg (he.symm.trans he')

/-- The keys of the file a stream sends next are keys that nobody has sent. -/
theorem unsent_of_next {s : Service k} {i : Fin k} {f : String × String}
    {rest : List (String × String)} (hf : p.files i = sentOf (p.files i) (s.runs i) ++ f :: rest)
    {key : ChunkKey} (hk : key ∈ keysOf ix [f]) : Unsent ix p s key := by
  intro j hj
  have hki : key ∈ keysOf ix (p.files i) := by
    rw [hf]
    exact keysOf_subset ((List.singleton_sublist.mpr List.mem_cons_self).trans
      (List.sublist_append_right _ _)) hk
  obtain rfl := owner_unique hki (keysOf_subset (sentOf_sublist _ _) hj)
  have hnd := entriesOf_nodup ix (p.nodup i)
  have happ : keysOf ix (p.files i) = keysOf ix (sentOf (p.files i) (s.runs i)) ++
      (keysOf ix [f] ++ keysOf ix rest) := by
    rw [← keysOf_append, ← keysOf_append, List.singleton_append, ← hf]
  have hnd' : (keysOf ix (p.files i)).Nodup := hnd
  rw [happ, List.nodup_append] at hnd'
  exact hnd'.2.2 key hj key (List.mem_append_left _ hk) rfl

/-- What is sent after a delivery was sent before, or is of the file delivered. -/
theorem sent_of_delivered {s s' : Service k} {i : Fin k} {f : String × String}
    {rest : List (String × String)} (hf : p.files i = sentOf (p.files i) (s.runs i) ++ f :: rest)
    (hsent : sentOf (p.files i) (s'.runs i) = sentOf (p.files i) (s.runs i) ++ [f])
    (hne : ∀ j, j ≠ i → s'.runs j = s.runs j) {j : Fin k} {e : ChunkKey × List UInt8}
    (he : e ∈ entriesOf ix (sentOf (p.files j) (s'.runs j))) :
    (e ∈ entriesOf ix (sentOf (p.files j) (s.runs j)) ∧ e.1 ∉ keysOf ix [f]) ∨
      (j = i ∧ e ∈ entriesOf ix [f]) := by
  have hnew : e ∈ entriesOf ix (sentOf (p.files j) (s.runs j)) → e.1 ∉ keysOf ix [f] :=
    fun hold hk => unsent_of_next hf hk j ((mem_keysOf ix).mpr ⟨e.2, hold⟩)
  rcases Decidable.em (j = i) with rfl | hj
  · have happ : entriesOf ix (sentOf (p.files j) (s.runs j) ++ [f]) =
        entriesOf ix (sentOf (p.files j) (s.runs j)) ++ entriesOf ix [f] := by
      simp [entriesOf, itemsOf]
    rw [hsent, happ, List.mem_append] at he
    exact he.imp (fun hold => ⟨hold, hnew hold⟩) fun h => ⟨rfl, h⟩
  · rw [hne j hj] at he
    exact .inl ⟨he, hnew he⟩

theorem Later.key {t t' : SeqTable Chunk} (h : Later t t') {id : Int} {r : Chunk}
    (hr : (id, r) ∈ t.rows) : ∃ r', (id, r') ∈ t'.rows ∧ r'.key = r.key := by
  obtain ⟨r', hr'⟩ := h.kept _ hr
  obtain ⟨r₀, hr₀, -, hk, -⟩ := h.old _ hr' (t.le_seq (id, r) hr)
  obtain rfl := Table.eq_of_mem hr hr₀
  exact ⟨r', hr', hk⟩

theorem orphanPass_later (t : SeqTable Chunk) (st : LoopState) : Later t (orphanPass t st) := by
  cases hs : st.snapshot with
  | none => simp only [orphanPass, hs]; exact .refl t
  | some snap =>
    rw [orphanPass_snapshot hs]
    exact retireAll_later t _

/-- The orphan pass takes a row away when its key is unmatched and it is the row of the snapshot. -/
theorem mem_orphanPass {t : SeqTable Chunk} {st : LoopState} {snap : Snapshot}
    (hs : st.snapshot = some snap)
    (hk : ∀ key id, snap.lookup key = some id → ∃ r, (id, r) ∈ t.rows ∧ r.key = key) {b : Int}
    {key : ChunkKey} {x : Int × Chunk} : x ∈ activeAt (orphanPass t st) b key ↔
      x ∈ activeAt t b key ∧ ¬ (key ∈ st.remainingActive ∧ snap.lookup key = some x.1) := by
  rw [orphanPass_snapshot hs, activeAt_retireAll, List.mem_filter]
  refine and_congr_right fun hx => ?_
  simp only [Bool.not_eq_true', List.contains_eq_mem, decide_eq_false_iff_not, List.mem_filterMap]
  refine not_congr ⟨?_, fun h => ⟨key, h⟩⟩
  rintro ⟨key', hr, hl⟩
  obtain ⟨r, hr', rfl⟩ := hk key' x.1 hl
  obtain ⟨hxm, -, hxk, -⟩ := mem_activeAt.mp hx
  obtain rfl : x.2 = r := Table.eq_of_mem hxm hr'
  rw [hxk] at hr hl
  exact ⟨hr, hl⟩

theorem length_orphanPass_le (t : SeqTable Chunk) (st : LoopState) (b : Int) (key : ChunkKey) :
    (activeAt (orphanPass t st) b key).length ≤ (activeAt t b key).length := by
  cases hs : st.snapshot with
  | none => simp only [orphanPass, hs]; exact Nat.le_refl _
  | some snap =>
    rw [orphanPass_snapshot hs, activeAt_retireAll]
    exact List.length_filter_le _ _

end Facts

namespace Reading

variable {ix p} {project root : String} {b : Int} {t₀ : SeqTable Chunk} {s s' : Service k}

theorem start (db : IndexDb) (hb : projectId db.buffers project = b) (hU : Unique db.chunks b) :
    Reading ix p project root b db.chunks (.start db project root p) where
  progress i := .unread
  buffer := hb
  unique := hU
  delivered i e he := by simp [Service.start, StreamRun.start, sentOf, streamOf, entriesOf,
    itemsOf] at he
  known i snap hs := by cases hs
  missed i snap hs := by cases hs
  swept i hr := by simp [Service.start, StreamRun.start] at hr
  idle _ := rfl

/-- A step that leaves the chunks alone, and takes a snapshot at most. -/
theorem of_same (h : Reading ix p project root b t₀ s)
    (hprog : ∀ j, Progress ix project root b (p.files j) (s'.runs j))
    (hbuf : projectId s'.db.buffers project = b) (ht : s'.db.chunks = s.db.chunks)
    (hsent : ∀ j, sentOf (p.files j) (s'.runs j) = sentOf (p.files j) (s.runs j))
    (hsnap : ∀ j snap, (s'.runs j).st.snapshot = some snap →
      (s.runs j).st.snapshot = some snap ∨ snap = snapshotActiveChunks ix.scan s.db.chunks b)
    (hres : ∀ j, (s'.runs j).response ≠ none → (s.runs j).response ≠ none) :
    Reading ix p project root b t₀ s' := by
  have huns : ∀ key, Unsent ix p s' key → Unsent ix p s key := by
    intro key hu j
    rw [← hsent]
    exact hu j
  refine ⟨hprog, hbuf, ht ▸ h.unique, ?_, ?_, ?_, ?_, fun hi => ht.trans (h.idle hi)⟩
  · intro j
    rw [hsent, ht]
    exact h.delivered j
  · intro j snap hs key id hl
    rw [ht]
    rcases hsnap j snap hs with hs | rfl
    · exact h.known j snap hs key id hl
    · obtain ⟨r, hr⟩ := snapshot_lookup hl
      exact ⟨r, (mem_activeAt.mp hr).1, (mem_activeAt.mp hr).2.2.1⟩
  · intro j snap hs key hu x hx
    rw [ht] at hx
    rcases hsnap j snap hs with hs | rfl
    · exact h.missed j snap hs key (huns key hu) x hx
    · have hhas : (snapshotActiveChunks ix.scan s.db.chunks b).has key = true :=
        snapshot_has.mpr (List.ne_nil_of_mem hx)
      obtain ⟨id, hid⟩ := Option.isSome_iff_exists.mp hhas
      obtain ⟨r, hr⟩ := snapshot_lookup hid
      rw [eq_singleton_of_mem (h.unique key) hx, List.mem_singleton] at hr
      rw [hid, ← hr]
  · intro j hr hf key hu
    rw [ht]
    exact h.swept j (hres j hr) hf key (huns key hu)

/-- A stream about to insert a file meets at most one row at each key of it, and knows it. -/
theorem put (h : Reading ix p project root b t₀ s) {i : Fin k} {f : String × String}
    {rest : List (String × String)} {snap : Snapshot}
    (hf : p.files i = sentOf (p.files i) (s.runs i) ++ f :: rest)
    (hs : (s.runs i).st.snapshot = some snap) {e : ChunkKey × List UInt8}
    (he : e ∈ entriesOf ix [f]) :
    ∃ x, activeAt (persistTable ix.scan b snap s.db.chunks (itemsOf ix [f])) b e.1 = [x] ∧
      x.2.hash = e.2 ∧ (activeAt s.db.chunks b e.1 = [x] ∨
        (s.db.chunks.seq < x.1 ∧ e.2 ∉ view s.db.chunks b e.1)) := by
  have hk : e.1 ∈ keysOf ix [f] := (mem_keysOf ix).mpr ⟨e.2, he⟩
  refine persistTable_once ix.scan b snap ?_ he ?_ (h.unique e.1)
  · exact entriesOf_nodup ix (List.nodup_singleton f.1)
  · rw [or_iff_not_imp_right]
    intro hne
    obtain ⟨x, hx⟩ := List.exists_mem_of_ne_nil _ hne
    exact Option.isSome_of_eq_some (h.missed i snap hs e.1 (unsent_of_next hf hk) x hx)

theorem of_delivered (h : Reading ix p project root b t₀ s) {i : Fin k} {f : String × String}
    {snap : Snapshot} (hprog : ∀ j, Progress ix project root b (p.files j) (s'.runs j))
    (hbuf : projectId s'.db.buffers project = b)
    (hf : ∃ rest, p.files i = sentOf (p.files i) (s.runs i) ++ f :: rest)
    (hs : (s.runs i).st.snapshot = some snap)
    (ht : s'.db.chunks = persistTable ix.scan b snap s.db.chunks (itemsOf ix [f]))
    (hsent : sentOf (p.files i) (s'.runs i) = sentOf (p.files i) (s.runs i) ++ [f])
    (hne : ∀ j, j ≠ i → s'.runs j = s.runs j)
    (hsnap : ∀ j, (s'.runs j).st.snapshot = (s.runs j).st.snapshot)
    (hres : ∀ j, (s'.runs j).response ≠ none → (s.runs j).response ≠ none) :
    Reading ix p project root b t₀ s' := by
  obtain ⟨rest, hf⟩ := hf
  have hother : ∀ key, key ∉ keysOf ix [f] →
      activeAt s'.db.chunks b key = activeAt s.db.chunks b key := by
    intro key hk
    rw [ht]
    exact persistTable_other ix.scan b snap s.db.chunks _ fun _ => hk
  have huns : ∀ key, Unsent ix p s' key → Unsent ix p s key ∧ key ∉ keysOf ix [f] := by
    intro key hu
    have hi := hu i
    rw [hsent, keysOf_append, List.mem_append, not_or] at hi
    refine ⟨fun j => ?_, hi.2⟩
    rcases Decidable.em (j = i) with rfl | hj
    · exact hi.1
    · rw [← hne j hj]
      exact hu j
  refine ⟨hprog, hbuf, ?_, ?_, ?_, ?_, ?_, ?_⟩
  · intro key
    rcases Decidable.em (key ∈ keysOf ix [f]) with hk | hk
    · obtain ⟨d, hd⟩ := (mem_keysOf ix).mp hk
      obtain ⟨x, hx, -⟩ := h.put hf hs hd
      rw [ht, hx]
      exact Nat.le_refl _
    · rw [hother key hk]
      exact h.unique key
  · intro j e he x hx
    rcases sent_of_delivered hf hsent hne he with ⟨he, hk⟩ | ⟨-, he⟩
    · rw [hother _ hk] at hx
      exact h.delivered j e he x hx
    · obtain ⟨y, hy, hd, -⟩ := h.put hf hs he
      rw [ht, hy, List.mem_singleton] at hx
      rw [hx, hd]
  · intro j snap' hs' key id hl
    rw [hsnap] at hs'
    obtain ⟨r, hr, rfl⟩ := h.known j snap' hs' key id hl
    rw [ht]
    exact (persistTable_later ix.scan b snap s.db.chunks _).key hr
  · intro j snap' hs' key hu x hx
    rw [hsnap] at hs'
    rw [hother key (huns key hu).2] at hx
    exact h.missed j snap' hs' key (huns key hu).1 x hx
  · intro j hr hfi key hu
    rw [hother key (huns key hu).2]
    exact h.swept j (hres j hr) hfi key (huns key hu).1
  · intro hi
    rw [hi i] at hf
    simp at hf

theorem of_ended (h : Reading ix p project root b t₀ s) {i : Fin k}
    (hprog : ∀ j, Progress ix project root b (p.files j) (s'.runs j))
    (hbuf : projectId s'.db.buffers project = b)
    (ht : s'.db.chunks = orphanPass s.db.chunks (s.runs i).st)
    (hsent : ∀ j, sentOf (p.files j) (s'.runs j) = sentOf (p.files j) (s.runs j))
    (hall : sentOf (p.files i) (s.runs i) = p.files i)
    (hold : (s.runs i).st.snapshot ≠ none ↔ p.files i ≠ [])
    (hrem : ∀ snap, (s.runs i).st.snapshot = some snap → ∀ key,
      key ∈ (s.runs i).st.remainingActive ↔ snap.has key = true ∧ key ∉ keysOf ix (p.files i))
    (hsnap : ∀ j, (s'.runs j).st.snapshot = (s.runs j).st.snapshot)
    (hres : ∀ j, j ≠ i → (s'.runs j).response ≠ none → (s.runs j).response ≠ none) :
    Reading ix p project root b t₀ s' := by
  have huns : ∀ key, Unsent ix p s' key → Unsent ix p s key := by
    intro key hu j
    rw [← hsent]
    exact hu j
  have hsub : ∀ key, ∀ x ∈ activeAt s'.db.chunks b key, x ∈ activeAt s.db.chunks b key := by
    intro key x hx
    rw [ht] at hx
    cases hs : (s.runs i).st.snapshot with
    | none => simpa only [orphanPass, hs] using hx
    | some snap => exact ((mem_orphanPass hs (h.known i snap hs)).mp hx).1
  refine ⟨hprog, hbuf, ?_, ?_, ?_, ?_, ?_, ?_⟩
  · intro key
    rw [ht]
    exact (length_orphanPass_le _ _ _ _).trans (h.unique key)
  · intro j e he x hx
    rw [hsent] at he
    exact h.delivered j e he x (hsub e.1 x hx)
  · intro j snap hs key id hl
    rw [hsnap] at hs
    obtain ⟨r, hr, rfl⟩ := h.known j snap hs key id hl
    rw [ht]
    exact (orphanPass_later _ _).key hr
  · intro j snap hs key hu x hx
    rw [hsnap] at hs
    exact h.missed j snap hs key (huns key hu) x (hsub key x hx)
  · intro j hr hf key hu
    rw [List.eq_nil_iff_forall_not_mem]
    intro x hx
    rcases Decidable.em (j = i) with rfl | hj
    · -- the row is that of the snapshot, and the pass takes it away
      obtain ⟨snap, hs⟩ := Option.ne_none_iff_exists'.mp (hold.mpr hf)
      have hl := h.missed j snap hs key (huns key hu) x (hsub key x hx)
      have hkey : key ∈ (s.runs j).st.remainingActive := by
        refine (hrem snap hs key).mpr ⟨Option.isSome_of_eq_some hl, ?_⟩
        rw [← hall]
        exact huns key hu j
      rw [ht] at hx
      exact ((mem_orphanPass hs (h.known j snap hs)).mp hx).2 ⟨hkey, hl⟩
    · have hnil := h.swept j (hres j hj hr) hf key (huns key hu)
      have := hsub key x hx
      rw [hnil] at this
      cases this
  · intro hi
    have hs : (s.runs i).st.snapshot = none := by
      rw [← Option.not_isSome_iff_eq_none]
      intro hsome
      exact hold.mp (Option.isSome_iff_ne_none.mp hsome) (hi i)
    rw [ht, ← h.idle hi]
    simp only [orphanPass, hs]

theorem step (h : Reading ix p project root b t₀ s) (i : Fin k) :
    Reading ix p project root b t₀ (s.step ix i) := by
  obtain ⟨hprog, hbuf, hdid⟩ := next_did ix project root b (p.files i) (h.progress i) h.buffer
  have hne : ∀ j, j ≠ i → (s.step ix i).runs j = s.runs j := fun j hj => step_ne s hj
  have hprog' := forall_runs ix s i
    (P := fun j r => Progress ix project root b (p.files j) r) hprog fun j _ => h.progress j
  have hsents := fun hi => forall_runs ix s i
    (P := fun j r => sentOf (p.files j) r = sentOf (p.files j) (s.runs j)) hi fun _ _ => rfl
  have htaken := fun hi => forall_runs ix s i
    (P := fun j r => ∀ snap, r.st.snapshot = some snap → (s.runs j).st.snapshot = some snap ∨
      snap = snapshotActiveChunks ix.scan s.db.chunks b) hi fun j _ snap hs => .inl hs
  have hsnaps := fun hi => forall_runs ix s i
    (P := fun j r => r.st.snapshot = (s.runs j).st.snapshot) hi fun _ _ => rfl
  have hress := fun hi => forall_runs ix s i
    (P := fun j r => r.response ≠ none → (s.runs j).response ≠ none) hi fun _ _ => id
  cases hdid with
  | quiet ht hsent hsnap hres _ _ =>
    exact h.of_same hprog' hbuf ht (hsents hsent) (htaken fun snap hs => .inl (hsnap ▸ hs))
      (hress fun hr => hres ▸ hr)
  | snapshot ht hsent _ _ hsnap _ hres' _ _ =>
    exact h.of_same hprog' hbuf ht (hsents hsent)
      (htaken fun snap hs => .inr (Option.some.inj (hs.symm.trans hsnap)))
      (hress fun hr => absurd hres' hr)
  | delivered f snap ht hf hsent hold hsnap _ hres' _ _ =>
    refine h.of_delivered hprog' hbuf hf hold ht ?_ hne (hsnaps (hsnap.trans hold.symm))
      (hress fun hr => absurd hres' hr)
    rw [step_self]
    exact hsent
  | ended ht hall hsent hold hsnap hrem _ _ _ _ =>
    refine h.of_ended hprog' hbuf ht (hsents (hsent.trans hall.symm)) hall hold hrem
      (hsnaps hsnap) ?_
    intro j hj hr
    rwa [hne j hj] at hr

end Reading

/-! ## The condition on a step -/

/-- Every chunk sent so far has an active row, and no other stream will retire it. -/
def Kept (b : Int) (s : Service k) : Prop :=
  ∀ j, ∀ e ∈ entriesOf ix (sentOf (p.files j) (s.runs j)), ∃ x ∈ activeAt s.db.chunks b e.1,
    ∀ i, i ≠ j → (s.runs i).response = none → ∀ snap, (s.runs i).st.snapshot = some snap →
      snap.lookup e.1 ≠ some x.1

/-- A snapshot is taken before any other stream has sent a chunk; and a chunk that is already
there is sent while no other stream is between its snapshot and its end. -/
def Apart (b : Int) (s : Service k) (i : Fin k) : Prop :=
  ((s.runs i).snapshotDue ≠ none → ∀ j, j ≠ i → (s.runs j).st.totalChunks = 0) ∧
  ∀ e ∈ entriesOf ix (s.runs i).delivery, e.2 ∈ view s.db.chunks b e.1 →
    ∀ j, j ≠ i → (s.runs j).response = none → (s.runs j).st.snapshot = none

instance (b : Int) (s : Service k) (i : Fin k) : Decidable (Apart ix b s i) :=
  inferInstanceAs (Decidable (_ ∧ _))

section Kept

variable {ix p} {project root : String} {b : Int} {t₀ : SeqTable Chunk} {s s' : Service k}

theorem Progress.total {files : List (String × String)} {r : StreamRun}
    (h : Progress ix project root b files r) :
    r.st.totalChunks = (entriesOf ix (sentOf files r)).length := by
  cases h with
  | unread => simp [StreamRun.start, LoopState.start, sentOf, streamOf, entriesOf, itemsOf]
  | opened => simp [LoopState.start, sentOf, entriesOf, itemsOf]
  | reading sent rest st snap _ hf _ _ _ _ htot =>
    subst hf
    rw [sentOf_map]
    exact htot
  | answered st res htot => simpa [sentOf] using htot

/-- A step that sends nothing and leaves the chunks alone. -/
theorem kept_of_same (ht : s'.db.chunks = s.db.chunks)
    (hsent : ∀ j, sentOf (p.files j) (s'.runs j) = sentOf (p.files j) (s.runs j))
    (hsnap : ∀ j snap, (s.runs j).response = none → (s.runs j).st.snapshot = some snap →
      (s'.runs j).response = none ∧ (s'.runs j).st.snapshot = some snap)
    (h : Kept ix p b s') : Kept ix p b s := by
  intro j e he
  rw [← hsent] at he
  obtain ⟨x, hx, hk⟩ := h j e he
  refine ⟨x, ht ▸ hx, fun i hi hr snap hs => ?_⟩
  obtain ⟨hr', hs'⟩ := hsnap i snap hr hs
  exact hk i hi hr' snap hs'

/-- A snapshot dooms the chunks that others have sent, and no other step on its kind does. -/
theorem kept_snapshot {i : Fin k} (h : Reading ix p project root b t₀ s)
    (ht : s'.db.chunks = s.db.chunks)
    (hsent : ∀ j, sentOf (p.files j) (s'.runs j) = sentOf (p.files j) (s.runs j))
    (hnone : sentOf (p.files i) (s.runs i) = []) (hold : (s.runs i).st.snapshot = none)
    (hsnap : (s'.runs i).st.snapshot = some (snapshotActiveChunks ix.scan s.db.chunks b))
    (hres : (s'.runs i).response = none) (hne : ∀ j, j ≠ i → s'.runs j = s.runs j)
    (hdue : (s.runs i).snapshotDue = some b) (hdel : (s.runs i).delivery = []) :
    Kept ix p b s' ↔ Kept ix p b s ∧ Apart ix b s i := by
  constructor
  · intro hk
    refine ⟨kept_of_same ht hsent ?_ hk, ?_, ?_⟩
    · intro j snap hr hs
      rcases Decidable.em (j = i) with rfl | hj
      · rw [hold] at hs
        cases hs
      · rw [hne j hj]
        exact ⟨hr, hs⟩
    · intro _ j hj
      rw [(h.progress j).total, List.length_eq_zero_iff, List.eq_nil_iff_forall_not_mem]
      intro e he
      rw [← hsent] at he
      obtain ⟨x, hx, hx'⟩ := hk j e he
      rw [ht] at hx
      have hhas : (snapshotActiveChunks ix.scan s.db.chunks b).has e.1 = true :=
        snapshot_has.mpr (List.ne_nil_of_mem hx)
      obtain ⟨id, hid⟩ := Option.isSome_iff_exists.mp hhas
      obtain ⟨r, hr⟩ := snapshot_lookup hid
      rw [eq_singleton_of_mem (h.unique e.1) hx, List.mem_singleton] at hr
      exact hx' i hj.symm hres _ hsnap (by rw [hid, ← hr])
    · rw [hdel]
      intro e he
      cases he
  · rintro ⟨-, hapart, -⟩ j e he
    rw [hsent] at he
    rcases Decidable.em (j = i) with rfl | hj
    · rw [hnone] at he
      cases he
    · have h0 := hapart (by rw [hdue]; simp) j hj
      rw [(h.progress j).total, List.length_eq_zero_iff] at h0
      rw [h0] at he
      cases he

theorem kept_delivered {i : Fin k} {f : String × String} {snap : Snapshot}
    (h : Reading ix p project root b t₀ s)
    (ht : s'.db.chunks = persistTable ix.scan b snap s.db.chunks (itemsOf ix [f]))
    (hf : ∃ rest, p.files i = sentOf (p.files i) (s.runs i) ++ f :: rest)
    (hsent : sentOf (p.files i) (s'.runs i) = sentOf (p.files i) (s.runs i) ++ [f])
    (hold : (s.runs i).st.snapshot = some snap)
    (hsnap : ∀ j, (s'.runs j).st.snapshot = (s.runs j).st.snapshot)
    (hres : ∀ j, (s'.runs j).response = (s.runs j).response)
    (hne : ∀ j, j ≠ i → s'.runs j = s.runs j)
    (hdue : (s.runs i).snapshotDue = none) (hdel : (s.runs i).delivery = [f]) :
    Kept ix p b s' ↔ Kept ix p b s ∧ Apart ix b s i := by
  obtain ⟨rest, hf⟩ := hf
  have hother : ∀ key, key ∉ keysOf ix [f] →
      activeAt s'.db.chunks b key = activeAt s.db.chunks b key := by
    intro key hk
    rw [ht]
    exact persistTable_other ix.scan b snap s.db.chunks _ fun _ => hk
  have hnew : ∀ e ∈ entriesOf ix [f], e ∈ entriesOf ix (sentOf (p.files i) (s'.runs i)) := by
    intro e he
    rw [hsent]
    simp only [entriesOf, itemsOf, List.flatMap_append, List.map_append, List.mem_append]
    exact .inr he
  constructor
  · intro hk
    refine ⟨?_, fun hd => absurd hdue hd, ?_⟩
    · intro j e he
      have hold' : e.1 ∉ keysOf ix [f] := fun hkey =>
        unsent_of_next hf hkey j ((mem_keysOf ix).mpr ⟨e.2, he⟩)
      have he' : e ∈ entriesOf ix (sentOf (p.files j) (s'.runs j)) := by
        rcases Decidable.em (j = i) with rfl | hj
        · rw [hsent]
          simp only [entriesOf, itemsOf, List.flatMap_append, List.map_append, List.mem_append]
          exact .inl he
        · rwa [hne j hj]
      obtain ⟨x, hx, hx'⟩ := hk j e he'
      rw [hother _ hold'] at hx
      refine ⟨x, hx, fun l hl hr snap' hs => ?_⟩
      exact hx' l hl ((hres l).trans hr) snap' ((hsnap l).trans hs)
    · rw [hdel]
      intro e he hv j hj hr
      -- the row of an unchanged chunk is in every snapshot taken so far
      obtain ⟨x, hx, hd, hrow⟩ := h.put hf hold he
      rcases hrow with hrow | ⟨-, hnv⟩
      · obtain ⟨y, hy, hy'⟩ := hk i e (hnew e he)
        rw [ht, hx, List.mem_singleton] at hy
        subst hy
        rw [← Option.not_isSome_iff_eq_none]
        intro hsome
        obtain ⟨snap', hs'⟩ := Option.isSome_iff_exists.mp hsome
        have hkey : e.1 ∈ keysOf ix [f] := (mem_keysOf ix).mpr ⟨e.2, he⟩
        refine hy' j hj ((hres j).trans hr) snap' ((hsnap j).trans hs') ?_
        exact h.missed j snap' hs' e.1 (unsent_of_next hf hkey) y
          (by rw [hrow]; exact List.mem_cons_self)
      · exact absurd hv hnv
  · rintro ⟨hk, -, hapart⟩ j e he
    rcases sent_of_delivered hf hsent hne he with ⟨he, hkey⟩ | ⟨rfl, he⟩
    · obtain ⟨x, hx, hx'⟩ := hk j e he
      rw [← hother _ hkey] at hx
      refine ⟨x, hx, fun l hl hr snap' hs => ?_⟩
      exact hx' l hl ((hres l).symm.trans hr) snap' ((hsnap l).symm.trans hs)
    · obtain ⟨x, hx, hd, hrow⟩ := h.put hf hold he
      refine ⟨x, by rw [ht, hx]; exact List.mem_cons_self, fun l hl hr snap' hs => ?_⟩
      rw [hsnap] at hs
      rw [hres] at hr
      rcases hrow with hrow | ⟨hseq, -⟩
      · have hv : e.2 ∈ view s.db.chunks b e.1 := by
          rw [view, hrow, List.map_singleton, hd]
          exact List.mem_cons_self
        rw [hdel] at hapart
        rw [hapart e he hv l hl hr] at hs
        cases hs
      · intro hl'
        obtain ⟨r, hr', -⟩ := h.known l snap' hs e.1 x.1 hl'
        have := s.db.chunks.le_seq (x.1, r) hr'
        omega

theorem kept_ended {i : Fin k} (h : Reading ix p project root b t₀ s)
    (ht : s'.db.chunks = orphanPass s.db.chunks (s.runs i).st)
    (hsent : ∀ j, sentOf (p.files j) (s'.runs j) = sentOf (p.files j) (s.runs j))
    (hall : sentOf (p.files i) (s.runs i) = p.files i)
    (hrem : ∀ snap, (s.runs i).st.snapshot = some snap → ∀ key,
      key ∈ (s.runs i).st.remainingActive ↔ snap.has key = true ∧ key ∉ keysOf ix (p.files i))
    (hsnap : ∀ j, (s'.runs j).st.snapshot = (s.runs j).st.snapshot)
    (hres : (s.runs i).response = none) (hres' : (s'.runs i).response ≠ none)
    (hne : ∀ j, j ≠ i → s'.runs j = s.runs j)
    (hdue : (s.runs i).snapshotDue = none) (hdel : (s.runs i).delivery = []) :
    Kept ix p b s' ↔ Kept ix p b s ∧ Apart ix b s i := by
  have hmem : ∀ key x, x ∈ activeAt s'.db.chunks b key ↔ x ∈ activeAt s.db.chunks b key ∧
      ∀ snap, (s.runs i).st.snapshot = some snap → snap.lookup key = some x.1 →
        key ∈ keysOf ix (p.files i) := by
    intro key x
    rw [ht]
    cases hs : (s.runs i).st.snapshot with
    | none => simp [orphanPass, hs]
    | some snap =>
      rw [mem_orphanPass hs (h.known i snap hs), hrem snap hs]
      refine and_congr_right fun _ => ⟨?_, ?_⟩
      · intro hn snap' hs' hl
        obtain rfl := Option.some.inj hs'
        refine Decidable.byContradiction fun hk => ?_
        exact hn ⟨⟨Option.isSome_of_eq_some hl, hk⟩, hl⟩
      · rintro hin ⟨⟨-, hk⟩, hl⟩
        exact hk (hin snap rfl hl)
  constructor
  · intro hk
    refine ⟨?_, fun hd => absurd hdue hd, ?_⟩
    · intro j e he
      rw [← hsent] at he
      obtain ⟨x, hx, hx'⟩ := hk j e he
      obtain ⟨hx, hin⟩ := (hmem e.1 x).mp hx
      refine ⟨x, hx, fun l hl hr snap hs hlook => ?_⟩
      rcases Decidable.em (l = i) with rfl | hli
      · rw [hsent] at he
        have hkey : e.1 ∈ keysOf ix (p.files j) :=
          keysOf_subset (sentOf_sublist _ _) ((mem_keysOf ix).mpr ⟨e.2, he⟩)
        exact hl (owner_unique (hin snap hs hlook) hkey)
      · refine hx' l hl ?_ snap ((hsnap l).trans hs) hlook
        rw [hne l hli]
        exact hr
    · rw [hdel]
      intro e he
      cases he
  · rintro ⟨hk, -⟩ j e he
    rw [hsent] at he
    obtain ⟨x, hx, hx'⟩ := hk j e he
    refine ⟨x, (hmem e.1 x).mpr ⟨hx, ?_⟩, ?_⟩
    · intro snap hs hl
      rcases Decidable.em (i = j) with rfl | hij
      · rw [hall] at he
        exact (mem_keysOf ix).mpr ⟨e.2, he⟩
      · exact absurd hl (hx' i hij hres snap hs)
    · intro l hl hr snap hs
      rcases Decidable.em (l = i) with rfl | hli
      · exact absurd hr hres'
      · rw [hne l hli] at hr hs
        exact hx' l hl hr snap hs

theorem kept_step (h : Reading ix p project root b t₀ s) (i : Fin k) :
    Kept ix p b (s.step ix i) ↔ Kept ix p b s ∧ Apart ix b s i := by
  obtain ⟨-, -, hdid⟩ := next_did ix project root b (p.files i) (h.progress i) h.buffer
  have hne : ∀ j, j ≠ i → (s.step ix i).runs j = s.runs j := fun j hj => step_ne s hj
  have hself : (s.step ix i).runs i = ((s.runs i).next ix s.db).2 := step_self s i
  have hsents := fun hi => forall_runs ix s i
    (P := fun j r => sentOf (p.files j) r = sentOf (p.files j) (s.runs j)) hi fun _ _ => rfl
  have hsnaps := fun hi => forall_runs ix s i
    (P := fun j r => r.st.snapshot = (s.runs j).st.snapshot) hi fun _ _ => rfl
  have hress := fun hi => forall_runs ix s i
    (P := fun j r => r.response = (s.runs j).response) hi fun _ _ => rfl
  cases hdid with
  | quiet ht hsent hsnap hres hdue hdel =>
    have hapart : Apart ix b s i := by
      refine ⟨fun hd => absurd hdue hd, ?_⟩
      rw [hdel]
      intro e he
      cases he
    constructor
    · intro hk
      refine ⟨kept_of_same ht (hsents hsent) (fun j snap hr hs => ?_) hk, hapart⟩
      exact ⟨(hress hres j).trans hr, (hsnaps hsnap j).trans hs⟩
    · rintro ⟨hk, -⟩
      refine kept_of_same ht.symm (fun j => (hsents hsent j).symm) (fun j snap hr hs => ?_) hk
      exact ⟨(hress hres j).symm.trans hr, (hsnaps hsnap j).symm.trans hs⟩
  | snapshot ht hsent hnone hold hsnap _ hres' hdue hdel =>
    refine kept_snapshot h ht (hsents hsent) hnone hold ?_ ?_ hne hdue hdel
    · rw [hself]
      exact hsnap
    · rw [hself]
      exact hres'
  | delivered f snap ht hf hsent hold hsnap hres hres' hdue hdel =>
    refine kept_delivered h ht hf ?_ hold (hsnaps (hsnap.trans hold.symm))
      (hress (hres'.trans hres.symm)) hne hdue hdel
    rw [hself]
    exact hsent
  | ended ht hall hsent _ hsnap hrem hres hres' hdue hdel =>
    refine kept_ended h ht (hsents (hsent.trans hall.symm)) hall hrem (hsnaps hsnap) hres ?_ hne
      hdue hdel
    rw [hself]
    exact hres'

/-! ## Whole runs -/

theorem reading_run (db : IndexDb) (hb : projectId db.buffers project = b)
    (hU : Unique db.chunks b) (sched : List (Fin k)) :
    Reading ix p project root b db.chunks
      (Lts.after (Service.step ix) (.start db project root p) sched) :=
  Lts.run_inv (I := fun _ s => Reading ix p project root b db.chunks s) (.start db hb hU)
    (fun _ _ i h => h.step i) sched

theorem kept_run (db : IndexDb) (hb : projectId db.buffers project = b) (hU : Unique db.chunks b)
    (sched : List (Fin k)) :
    Kept ix p b (Lts.after (Service.step ix) (.start db project root p) sched) ↔
      Lts.Always (Service.step ix) (.start db project root p) (fun _ s i => Apart ix b s i)
        sched := by
  induction sched with
  | nil =>
    refine iff_of_true (fun j e he => ?_) trivial
    simp [Service.start, StreamRun.start, sentOf, streamOf, entriesOf, itemsOf] at he
  | cons i sched ih => exact (kept_step (reading_run db hb hU sched) i).trans (and_congr_left' ih)

/-- Once all streams have ended, the index is that of their files when what was sent is kept. -/
theorem union_iff_kept (h : Reading ix p project root b t₀ s)
    (hend : ∀ i, (s.runs i).response ≠ none) :
    (∀ key, view s.db.chunks b key = valuesAt key (entriesOf ix p.union)) ↔
      ((∃ i, p.files i ≠ []) ∨ ∀ key, view t₀ b key = []) ∧ Kept ix p b s := by
  have hall : ∀ i, sentOf (p.files i) (s.runs i) = p.files i := by
    intro i
    have hr := hend i
    have hp := h.progress i
    generalize s.runs i = r at hr hp
    cases hp with
    | unread | opened | reading => exact absurd rfl hr
    | answered => simp [sentOf]
  have hnd := entriesOf_nodup ix p.union_nodup
  have hmem : ∀ e, e ∈ entriesOf ix p.union ↔ ∃ i, e ∈ entriesOf ix (p.files i) := by
    intro e
    simp only [entriesOf, itemsOf, List.mem_map, List.mem_flatMap, Partition.mem_union]
    constructor
    · rintro ⟨x, ⟨f, ⟨i, hf⟩, hx⟩, he⟩
      exact ⟨i, x, ⟨f, hf, hx⟩, he⟩
    · rintro ⟨i, x, ⟨f, hf, hx⟩, he⟩
      exact ⟨x, ⟨f, ⟨i, hf⟩, hx⟩, he⟩
  constructor
  · intro hv
    refine ⟨?_, fun j e he => ?_⟩
    · rw [or_iff_not_imp_left]
      intro hnone key
      have hnil : ∀ i, p.files i = [] := fun i =>
        Decidable.byContradiction fun hi => hnone ⟨i, hi⟩
      rw [← h.idle hnil, hv key, valuesAt_eq_nil]
      intro hk
      obtain ⟨d, hd⟩ := (mem_keysOf ix).mp hk
      obtain ⟨i, hi⟩ := (hmem _).mp hd
      rw [hnil i] at hi
      cases hi
    · rw [hall] at he
      have hval := valuesAt_of_nodup hnd ((hmem e).mpr ⟨j, he⟩)
      have hne : activeAt s.db.chunks b e.1 ≠ [] := by
        rw [Ne, ← view_eq_nil, hv, hval]
        exact List.cons_ne_nil _ _
      obtain ⟨x, hx⟩ := List.exists_mem_of_ne_nil _ hne
      exact ⟨x, hx, fun i _ hr => absurd hr (hend i)⟩
  · rintro ⟨hstart, hk⟩ key
    rcases Decidable.em (key ∈ keysOf ix p.union) with hkey | hkey
    · obtain ⟨d, hd⟩ := (mem_keysOf ix).mp hkey
      obtain ⟨j, hj⟩ := (hmem _).mp hd
      rw [← hall j] at hj
      obtain ⟨x, hx, -⟩ := hk j _ hj
      rw [valuesAt_of_nodup hnd hd, view, eq_singleton_of_mem (h.unique key) hx, List.map_singleton,
        h.delivered j _ hj x hx]
    · rw [valuesAt_eq_nil.mpr hkey]
      have huns : Unsent ix p s key := by
        intro j hj
        rw [hall] at hj
        obtain ⟨d, hd⟩ := (mem_keysOf ix).mp hj
        exact hkey ((mem_keysOf ix).mpr ⟨d, (hmem _).mpr ⟨j, hd⟩⟩)
      rcases Decidable.em (∃ i, p.files i ≠ []) with ⟨i, hi⟩ | hnone
      · exact view_eq_nil.mpr (h.swept i (hend i) hi key huns)
      · have hnil : ∀ i, p.files i = [] := fun i =>
          Decidable.byContradiction fun hi => hnone ⟨i, hi⟩
        rw [h.idle hnil]
        exact (hstart.resolve_left hnone) key

end Kept

/-- `k` streams over one project, each with files of its own, in any order of their steps: when
all have ended cleanly, the active chunks are those of all the files if and only if some stream
had a file (or nothing was active) and every step was apart. -/
theorem concurrent_streams (project root : String) (db : IndexDb) (sched : List (Fin k))
    (hU : Unique db.chunks (projectId db.buffers project))
    (hend : ∀ i, ∃ res, ((Lts.after (Service.step ix) (.start db project root p) sched).runs
      i).response = some (.ok res)) :
    (∀ key, view (Lts.after (Service.step ix) (.start db project root p) sched).db.chunks
        (projectId db.buffers project) key = valuesAt key (entriesOf ix p.union)) ↔
      ((∃ i, p.files i ≠ []) ∨ ∀ key, view db.chunks (projectId db.buffers project) key = []) ∧
      Lts.Always (Service.step ix) (.start db project root p)
        (fun _ s i => Apart ix (projectId db.buffers project) s i) sched := by
  have h : Reading ix p project root (projectId db.buffers project) db.chunks
      (Lts.after (Service.step ix) (.start db project root p) sched) :=
    reading_run db rfl hU sched
  refine (union_iff_kept h fun i => ?_).trans (and_congr_right fun _ => kept_run db rfl hU sched)
  obtain ⟨res, hres⟩ := hend i
  rw [hres]
  exact Option.some_ne_none _

/-- Two streams with a file each. -/
def samplePartition : Partition 2 where
  files i := if i = 0 then [("m.rs", "a")] else [("n.rs", "b")]
  nodup := by decide
  disjoint := by decide

/-- Both take their snapshot before either sends its file. -/
theorem concurrent_streams_together :
    (∀ i, ∃ res, ((Lts.after (Service.step sampleIndexer)
      (.start IndexDb.empty "p" "/r" samplePartition) [1, 0, 1, 0, 1, 0, 1, 0]).runs i).response =
        some (.ok res)) ∧
    ∀ key, view (Lts.after (Service.step sampleIndexer)
        (.start IndexDb.empty "p" "/r" samplePartition) [1, 0, 1, 0, 1, 0, 1, 0]).db.chunks 1 key =
      valuesAt key (entriesOf sampleIndexer samplePartition.union) := by
  have hU : Unique IndexDb.empty.chunks (projectId IndexDb.empty.buffers "p") :=
    fun _ => Nat.zero_le _
  have hend : ∀ i, ∃ res, ((Lts.after (Service.step sampleIndexer)
      (.start IndexDb.empty "p" "/r" samplePartition) [1, 0, 1, 0, 1, 0, 1, 0]).runs i).response =
        some (.ok res) := fun i => ⟨⟨1, 1⟩, by revert i; decide⟩
  refine ⟨hend, ?_⟩
  exact (concurrent_streams sampleIndexer samplePartition "p" "/r" IndexDb.empty _ hU hend).mpr
    ⟨.inl ⟨0, by decide⟩, by decide⟩

/-- The second stream takes its snapshot when the first has sent its file, and retires it. -/
theorem concurrent_streams_overtaken :
    ¬ ∀ (ix : Indexer) (k : Nat) (p : Partition k) (project root : String) (sched : List (Fin k)),
      (∀ i, ∃ res, ((Lts.after (Service.step ix) (.start IndexDb.empty project root p) sched).runs
        i).response = some (.ok res)) →
      ∀ key, view (Lts.after (Service.step ix) (.start IndexDb.empty project root p)
          sched).db.chunks (projectId IndexDb.empty.buffers project) key =
        valuesAt key (entriesOf ix p.union) := by
  intro h
  have hrun := h sampleIndexer 2 samplePartition "p" "/r" [1, 0, 1, 1, 1, 0, 0, 0]
    fun i => ⟨⟨1, 1⟩, by revert i; decide⟩
  exact absurd (hrun ("m.rs", 1, 1)) (by decide)

end Arags
