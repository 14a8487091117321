import Arags.Index.StreamBuffers

/-!
# Arags.Index.BufferTotals

The totals of one buffer over a history of streams of its project.

* `TotalsExact`  — `total_chunks` is the number of active rows, `total_files` that of their files.
* `TotalsAdd`    — the recorded totals, what a stream sends and what it retires at its end add up.
* `pathsIn_end`  — the files that are active after a stream: those it sent, and those of rows it
  has neither delivered nor retired.
* `buffer_totals` — the totals are exact after the streams for which they add up, and no others;
  `totalsAdd_iff` says which these are for a buffer whose totals are exact.
-/

namespace Arags

open Sql

variable (ix : Indexer)

/-! ## The property -/

/-- The files of the active rows of a buffer. -/
def pathsIn (t : SeqTable Chunk) (b : Int) : List String :=
  ((t.select fun _ r => r.bufferId == b && r.isActive).map fun x => x.2.filePath).dedup

theorem pathsIn_nodup (t : SeqTable Chunk) (b : Int) : (pathsIn t b).Nodup := List.nodup_dedup _

def TotalsExact (db : IndexDb) (project : String) : Prop :=
  let b := projectId db.buffers project
  countsOf db.buffers b =
    ((activeIn db.chunks (· == b) : Int), ((pathsIn db.chunks b).length : Int))

instance (db : IndexDb) (project : String) : Decidable (TotalsExact db project) := by
  unfold TotalsExact
  exact inferInstance

/-- A stream over one buffer. -/
def OfProject (project : String) (msgs : List IndexMsg) : Prop :=
  ∀ p root, .init p root ∈ msgs → p = project

/-- The keys left over at the end. A stream without a file has taken no snapshot. -/
def goneKeys (db : IndexDb) (msgs : List IndexMsg) : List ChunkKey :=
  match firstBuffer (routed (db.buffers, none) msgs) with
  | none => []
  | some b => orphanKeys ix db msgs b

/-- The files of the rows of a buffer that the stream leaves as they are. -/
def untouched (db : IndexDb) (msgs : List IndexMsg) (b : Int) : List String :=
  let sent := sentKeys ix (routed (db.buffers, none) msgs)
  let gone := (goneKeys ix db msgs).filterMap fun k =>
    (snapshotActiveChunks ix.scan db.chunks b).lookup k
  (db.chunks.select fun i r => r.bufferId == b && r.isActive && !sent.contains r.key &&
    !gone.contains i).map fun x => x.2.filePath

def sentPaths (db : IndexDb) (msgs : List IndexMsg) : List String :=
  (sentFiles ix (routed (db.buffers, none) msgs)).map fun x => x.2.1

/-- `total_chunks` is right already; `total_files`, and the files with chunks that are streamed,
are the files that will be active and those that lose a key. -/
def TotalsAdd (db : IndexDb) (project : String) (msgs : List IndexMsg) : Prop :=
  let b := projectId db.buffers project
  (countsOf db.buffers b).1 = activeIn db.chunks (· == b) ∧
  (countsOf db.buffers b).2 + (sentPaths ix db msgs).length =
    ((sentPaths ix db msgs ++ untouched ix db msgs b).dedup.length : Int) +
      ((goneKeys ix db msgs).map Prod.fst).dedup.length

instance (db : IndexDb) (project : String) (msgs : List IndexMsg) :
    Decidable (TotalsAdd ix db project msgs) := by
  unfold TotalsAdd
  exact inferInstance

/-! ## One project -/

section OneProject

variable {ix} {db d : IndexDb} {project : String} {msgs : List IndexMsg}

theorem routed_project {r : Route} {b : Int} (hp : OfProject project msgs)
    (hid : projectId r.1 project = b) (hr : r.2 = none ∨ r.2 = some b) :
    ((routeAfter r msgs).2 = none ∨ (routeAfter r msgs).2 = some b) ∧
      ∀ x ∈ routed r msgs, x.1 = b := by
  induction msgs generalizing r with
  | nil => exact ⟨hr, nofun⟩
  | cons m msgs ih =>
    have hstep : projectId (routeStep r m).1 project = b ∧
        ((routeStep r m).2 = none ∨ (routeStep r m).2 = some b) := by
      cases m with
      | init p root =>
        have he : p = project := hp p root List.mem_cons_self
        subst he
        exact ⟨(projectId_ensureProject ..).trans hid, .inr (congrArg some hid)⟩
      | file _ _ | empty | error _ => exact ⟨hid, hr⟩
    obtain ⟨hlast, hrest⟩ := ih (fun p root h => hp p root (List.mem_cons_of_mem m h))
      hstep.1 hstep.2
    refine ⟨hlast, fun x hx => ?_⟩
    rw [routed, List.mem_append] at hx
    rcases hx with hx | hx
    · cases m with
      | file path content =>
        cases content with
        | none => cases hx
        | some text =>
          obtain ⟨b', hb', rfl⟩ := List.mem_map.mp hx
          rw [Option.mem_toList] at hb'
          rcases hr with hr | hr <;> rw [hr] at hb' <;> cases hb'
          rfl
      | init _ _ | empty | error _ => cases hx
    · exact hrest x hx

theorem projectId_end {res : IndexResponse} (hp : OfProject project msgs)
    (h : (indexStreamLoop ix db msgs).2 = .ok res) :
    projectId (indexStreamLoop ix db msgs).1.buffers project = projectId db.buffers project := by
  obtain ⟨d, st, last, hrun, hlast, -, hend⟩ := stream_end h
  obtain ⟨hR, -⟩ := loopInv ix hrun
  have hone := (routed_project (r := (db.buffers, none)) hp rfl (.inl rfl)).1
  have hb : st.bufferId = some last := by
    rw [← hlast, ← hR.route]
  rw [hlast, Option.some.injEq] at hone
  have hpid := hR.buffer
  rw [hb] at hpid
  obtain ⟨p, hst, hlp⟩ := Option.map_eq_some_iff.mp hpid.symm
  have hname : p = project := by
    rw [hR.project, lastInit] at hst
    obtain ⟨m, hm, hmp⟩ := List.mem_filterMap.mp (List.mem_of_getLast? hst)
    cases m with
    | init p' root =>
      cases hmp
      exact hp p root hm
    | file _ _ | empty | error _ => cases hmp
  subst hname
  rw [hend, projectId_increment, hlp]
  exact hone.resolve_left nofun

end OneProject

/-! ## Delivered keys -/

section Delivered

theorem Persisted.keeps {t t' : SeqTable Chunk} {res res' : BatchedInsert} {b b' : Int}
    {path : String} {c : IndexedChunk} {known : Bool} {k : ChunkKey}
    (h : Persisted t t' res res' b path c known) (hk : activeAt t b' k ≠ []) :
    activeAt t' b' k ≠ [] := by
  by_cases he : b' = b ∧ k = c.key path
  · obtain ⟨rfl, rfl⟩ := he
    exact h.nonempty
  · rw [h.other he]
    exact hk

variable (scan : ScanOrder Chunk) (b : Int) (active : Snapshot)

theorem persistAll_keeps (acc : SeqTable Chunk × BatchedInsert)
    (items : List (String × IndexedChunk)) {b' : Int} {k : ChunkKey}
    (hk : activeAt acc.1 b' k ≠ []) :
    activeAt (persistAll scan b active acc items).1 b' k ≠ [] := by
  induction items generalizing acc with
  | nil => exact hk
  | cons item items ih =>
    exact ih _ ((persistChunk_persisted scan b active acc.1 acc.2 item.1 item.2).keeps hk)

/-- Each chunk that is inserted leaves its key with an active row. -/
theorem persistAll_delivered (acc : SeqTable Chunk × BatchedInsert)
    (items : List (String × IndexedChunk)) :
    ∀ it ∈ items, activeAt (persistAll scan b active acc items).1 b (it.2.key it.1) ≠ [] := by
  induction items generalizing acc with
  | nil => nofun
  | cons item items ih =>
    intro it hit
    have hcons : persistAll scan b active acc (item :: items) =
      persistAll scan b active (persistChunk scan b active acc item) items := rfl
    rw [hcons]
    rcases List.mem_cons.mp hit with rfl | hit
    · exact persistAll_keeps scan b active _ _
        (persistChunk_persisted scan b active acc.1 acc.2 it.1 it.2).nonempty
    · exact ih _ it hit

variable {db d : IndexDb} {msgs : List IndexMsg} {st : LoopState}

/-- The keys that were sent to a buffer are active in it. -/
def SentActive (R : Deliveries) (chunks : SeqTable Chunk) : Prop :=
  ∀ x ∈ R, ∀ k ∈ keysOf ix [x.2], activeAt chunks x.1 k ≠ []

variable {ix} in
theorem loop_sentActive (h : runLoop ix db .start msgs = (d, .ok st)) :
    SentActive ix (routed (db.buffers, none) msgs) d.chunks := by
  refine runLoop_inv ix (P := fun msgs d _ =>
    SentActive ix (routed (db.buffers, none) msgs) d.chunks) nofun ?_ h
  intro msgs d st m d' st' hrun hI hm
  obtain ⟨hR, hC⟩ := loopInv ix hrun
  rw [routed_concat, ← hR.route]
  rcases stepMsg_cases hm with ⟨project, root, rfl, rfl, rfl⟩ | ⟨path, text, b, rfl, hb, rfl, rfl⟩ |
    ⟨rfl, rfl, rfl⟩
  · rw [show delivered (d.buffers, st.bufferId) (.init project root) = [] from rfl,
      List.append_nil]
    exact hI
  · rw [show delivered (d.buffers, st.bufferId) (.file path (some text)) = [(b, path, text)] by
      rw [delivered, hb]; rfl]
    obtain ⟨htab, -⟩ := phase1_report ix d.chunks b path text _ (hC.snapshot b).taken
    intro x hx k hk
    dsimp only
    rw [htab]
    rcases List.mem_append.mp hx with hx | hx
    · exact persistAll_keeps ix.scan b _ _ _ (hI x hx k hk)
    · obtain rfl := List.mem_singleton.mp hx
      obtain ⟨e, he, rfl⟩ := List.mem_map.mp hk
      obtain ⟨it, hit, rfl⟩ := List.mem_map.mp he
      exact persistAll_delivered ix.scan b _ _ _ it hit
  · rw [show delivered (d'.buffers, st'.bufferId) .empty = [] from rfl, List.append_nil]
    exact hI

end Delivered

/-! ## The files that are active afterwards -/

section End

variable {ix} {db d : IndexDb} {msgs : List IndexMsg} {st : LoopState} {b : Int}

theorem mem_pathsIn {t : SeqTable Chunk} {b : Int} {path : String} :
    path ∈ pathsIn t b ↔ ∃ k, k.1 = path ∧ activeAt t b k ≠ [] := by
  unfold pathsIn
  rw [List.mem_dedup, List.mem_map]
  constructor
  · rintro ⟨x, hx, rfl⟩
    obtain ⟨hm, hp⟩ := Table.mem_select.mp hx
    rw [Bool.and_eq_true, beq_iff_eq] at hp
    exact ⟨x.2.key, rfl, List.ne_nil_of_mem (mem_activeAt.mpr ⟨hm, hp.1, rfl, hp.2⟩)⟩
  · rintro ⟨k, rfl, hk⟩
    obtain ⟨x, hx⟩ := List.exists_mem_of_ne_nil _ hk
    obtain ⟨hm, hb, rfl, ha⟩ := mem_activeAt.mp hx
    exact ⟨x, Table.mem_select.mpr ⟨hm, by simp [hb, ha]⟩, rfl⟩

/-- The paths of the keys that were sent are those of the files with chunks. -/
theorem mem_sentPaths {path : String} : path ∈ sentPaths ix db msgs ↔
    ∃ k ∈ sentKeys ix (routed (db.buffers, none) msgs), k.1 = path := by
  unfold sentPaths sentFiles sentKeys keysOf entriesOf itemsOf
  constructor
  · intro h
    obtain ⟨x, hx, rfl⟩ := List.mem_map.mp h
    obtain ⟨hx, hc⟩ := List.mem_filter.mp hx
    obtain ⟨c, hc⟩ := List.exists_mem_of_ne_nil (ix.chunksOf x.2.1 x.2.2) (by simpa using hc)
    refine ⟨c.key x.2.1, ?_, rfl⟩
    simp only [List.map_map, List.mem_map, List.mem_flatMap]
    exact ⟨(x.2.1, c), ⟨x.2, ⟨x, hx, rfl⟩, c, hc, rfl⟩, rfl⟩
  · rintro ⟨k, hk, rfl⟩
    simp only [List.map_map, List.mem_map, List.mem_flatMap] at hk
    obtain ⟨it, ⟨f, ⟨x, hx, rfl⟩, c, hc, rfl⟩, rfl⟩ := hk
    refine List.mem_map.mpr ⟨x, List.mem_filter.mpr ⟨hx, ?_⟩, rfl⟩
    cases hl : ix.chunksOf x.2.1 x.2.2 with
    | nil => rw [hl] at hc; cases hc
    | cons _ _ => rfl

theorem firstBuffer_one {R : Deliveries} {b₀ : Int} (hone : ∀ x ∈ R, x.1 = b)
    (h : firstBuffer R = some b₀) : b₀ = b := by
  rw [firstBuffer, Option.map_eq_some_iff] at h
  obtain ⟨x, hx, rfl⟩ := h
  exact hone x (List.mem_of_head? hx)

theorem remaining_gone (hrun : runLoop ix db .start msgs = (d, .ok st)) :
    st.remainingActive = goneKeys ix db msgs := by
  obtain ⟨-, hC⟩ := loopInv ix hrun
  unfold goneKeys
  cases hb : firstBuffer (routed (db.buffers, none) msgs) with
  | none => exact (orphanIds_unread hC hb).2
  | some b₀ => exact (hC.first b₀ hb).remaining

section Run

variable (hrun : runLoop ix db .start msgs = (d, .ok st))
  (hone : ∀ x ∈ routed (db.buffers, none) msgs, x.1 = b)

include hrun hone

theorem orphanIds_gone : orphanIds st = (goneKeys ix db msgs).filterMap fun k =>
    (snapshotActiveChunks ix.scan db.chunks b).lookup k := by
  obtain ⟨-, hC⟩ := loopInv ix hrun
  rw [← remaining_gone hrun]
  cases hb : firstBuffer (routed (db.buffers, none) msgs) with
  | none =>
    obtain ⟨hids, hrem⟩ := orphanIds_unread hC hb
    rw [hids, hrem]
    rfl
  | some b₀ =>
    obtain rfl := firstBuffer_one hone hb
    rw [orphanIds, (hC.first b₀ hb).taken]

omit hone in
/-- No row of a key that was sent is retired at the end. -/
theorem orphanIds_unsent {x : Int × Chunk} (hx : x ∈ d.chunks.rows) (hi : x.1 ∈ orphanIds st) :
    x.2.key ∉ sentKeys ix (routed (db.buffers, none) msgs) := by
  obtain ⟨-, hC⟩ := loopInv ix hrun
  cases hb : firstBuffer (routed (db.buffers, none) msgs) with
  | none =>
    rw [(orphanIds_unread hC hb).1] at hi
    cases hi
  | some b₀ =>
    obtain ⟨r, hr, -, -, hk, -⟩ := (orphanPass_of hC hb).row x.1 hi
    have he : x.2 = r := Table.eq_of_mem hx hr
    rw [(hC.first b₀ hb).remaining, unmatched, List.mem_filter] at hk
    rw [he]
    simpa using hk.2

theorem mem_untouched {path : String} : path ∈ untouched ix db msgs b ↔
    ∃ x ∈ db.chunks.rows, x.2.filePath = path ∧ x.2.bufferId = b ∧ x.2.isActive = true ∧
      x.2.key ∉ sentKeys ix (routed (db.buffers, none) msgs) ∧ x.1 ∉ orphanIds st := by
  rw [orphanIds_gone hrun hone]
  unfold untouched
  rw [List.mem_map]
  refine exists_congr fun x => ?_
  rw [Table.mem_select]
  simp only [Bool.and_eq_true, beq_iff_eq, Bool.not_eq_true', List.contains_eq_mem,
    decide_eq_false_iff_not]
  tauto

/-- The files that are active when the stream has ended. -/
theorem mem_pathsIn_end {path : String} : path ∈ pathsIn (orphanPass d.chunks st) b ↔
    path ∈ sentPaths ix db msgs ++ untouched ix db msgs b := by
  obtain ⟨-, hC⟩ := loopInv ix hrun
  have hend : ∀ k, activeAt (orphanPass d.chunks st) b k =
      (activeAt d.chunks b k).filter fun x => !(orphanIds st).contains x.1 := by
    intro k
    rw [orphanPass_retireAll, activeAt_retireAll]
  rw [mem_pathsIn, List.mem_append, mem_sentPaths, mem_untouched hrun hone]
  constructor
  · rintro ⟨k, rfl, hk⟩
    by_cases hs : k ∈ sentKeys ix (routed (db.buffers, none) msgs)
    · exact .inl ⟨k, hs, rfl⟩
    · rw [hend, hC.kept b k hs] at hk
      obtain ⟨x, hx⟩ := List.exists_mem_of_ne_nil _ hk
      obtain ⟨hx, hn⟩ := List.mem_filter.mp hx
      obtain ⟨hm, hb, rfl, ha⟩ := mem_activeAt.mp hx
      exact .inr ⟨x, hm, rfl, hb, ha, hs, by simpa using hn⟩
  · rintro (⟨k, hk, rfl⟩ | ⟨x, hm, rfl, hb, ha, hs, hn⟩)
    · refine ⟨k, rfl, ?_⟩
      have hact : activeAt d.chunks b k ≠ [] := by
        obtain ⟨e, he, rfl⟩ := List.mem_map.mp hk
        obtain ⟨it, hit, rfl⟩ := List.mem_map.mp he
        obtain ⟨f, hf, hitf⟩ := List.mem_flatMap.mp hit
        obtain ⟨x, hx, rfl⟩ := List.mem_map.mp hf
        rw [← hone x hx]
        refine loop_sentActive hrun x hx _ ?_
        refine List.mem_map_of_mem (List.mem_map_of_mem ?_)
        exact List.mem_flatMap.mpr ⟨x.2, List.mem_singleton_self _, hitf⟩
      obtain ⟨x, hx⟩ := List.exists_mem_of_ne_nil _ hact
      rw [hend]
      refine List.ne_nil_of_mem (List.mem_filter.mpr ⟨hx, ?_⟩)
      obtain ⟨hm, -, rfl, -⟩ := mem_activeAt.mp hx
      have hn : x.1 ∉ orphanIds st := fun hi => orphanIds_unsent hrun hm hi hk
      simpa using hn
    · refine ⟨x.2.key, rfl, ?_⟩
      have hx : x ∈ activeAt db.chunks b x.2.key := mem_activeAt.mpr ⟨hm, hb, rfl, ha⟩
      rw [hend, hC.kept b _ hs]
      exact List.ne_nil_of_mem (List.mem_filter.mpr ⟨hx, by simpa using hn⟩)

theorem pathsIn_end : (pathsIn (orphanPass d.chunks st) b).length =
    (sentPaths ix db msgs ++ untouched ix db msgs b).dedup.length := by
  refine (List.perm_ext_iff_of_nodup (List.nodup_dedup _) (List.nodup_dedup _)).mpr
    (fun path => ?_) |>.length_eq
  rw [List.mem_dedup (l := sentPaths ix db msgs ++ untouched ix db msgs b)]
  exact mem_pathsIn_end hrun hone

end Run

/-- What a stream over one project does to its totals. -/
theorem totalsExact_iff {project : String} {res : IndexResponse} (hp : OfProject project msgs)
    (h : (indexStreamLoop ix db msgs).2 = .ok res) :
    TotalsExact (indexStreamLoop ix db msgs).1 project ↔ TotalsAdd ix db project msgs := by
  have hpid := projectId_end hp h
  obtain ⟨d, st, last, hrun, hlast, hrow, hend⟩ := stream_end h
  obtain ⟨hR, hC⟩ := loopInv ix hrun
  obtain ⟨hlb, hone⟩ := routed_project (r := (db.buffers, none))
    (b := projectId db.buffers project) hp rfl (.inl rfl)
  have hchunks : (indexStreamLoop ix db msgs).1.chunks = orphanPass d.chunks st := by rw [hend]
  rw [hlast, Option.some.injEq] at hlb
  obtain rfl := hlb.resolve_left nofun
  have hbal : CountsBalance ix db msgs := by
    intro first hf last hl
    rw [hlast, Option.mem_some_iff] at hl
    subst hl
    have he := firstBuffer_one hone hf
    refine ⟨fun x hx => .inr (hone x (List.mem_of_mem_filter hx)), fun hne => absurd he hne⟩
  have hcontr := (counts_iff_balance hrun hlast hchunks).mpr hbal (projectId db.buffers project)
  rw [if_pos rfl, contribution_eq hrun hchunks, Prod.mk.injEq] at hcontr
  have hfiles : st.netFiles = ((sentPaths ix db msgs).length : Int) -
      ((goneKeys ix db msgs).map Prod.fst).dedup.length := by
    rw [LoopState.netFiles, hC.files, remaining_gone hrun, sentPaths, List.length_map]
  obtain ⟨r, hr⟩ := hrow
  have hcounts := countsOf_increment hr st.netChunks st.netFiles (projectId db.buffers project)
  rw [if_pos rfl, hR.counts] at hcounts
  unfold TotalsExact TotalsAdd
  dsimp only
  rw [hpid, hend]
  dsimp only
  rw [hcounts, pathsIn_end hrun hone, Prod.mk.injEq, hfiles]
  constructor <;> rintro ⟨hc, hf⟩ <;> constructor <;> omega

end End

/-! ## A buffer whose totals are exact -/

section Exact

theorem dedup_length_eq {α : Type} [DecidableEq α] {l : List α} :
    l.dedup.length = l.length ↔ l.Nodup := by
  rw [← List.dedup_eq_self]
  exact ⟨(List.dedup_sublist l).eq_of_length, fun h => by rw [h]⟩

theorem length_eq_of_subset {α : Type} {l l' : List α} (hl : l.Nodup) (hl' : l'.Nodup)
    (hs : l ⊆ l') : l.length = l'.length ↔ l' ⊆ l := by
  have hsub : l.Subperm l' := hl.subperm hs
  constructor
  · intro h
    exact (hsub.perm_of_length_le (Nat.le_of_eq h.symm)).symm.subset
  · intro h
    exact Nat.le_antisymm hsub.length_le (hl'.subperm h).length_le

variable {ix} {db : IndexDb} {project : String} {msgs : List IndexMsg}

variable (ix) in
/-- Where no key has two active rows, a snapshot has each active row. -/
theorem lookup_of_unique {t : SeqTable Chunk} {b : Int} (hU : Unique t b) {x : Int × Chunk}
    (hx : x ∈ t.rows) (hb : x.2.bufferId = b) (ha : x.2.isActive = true) :
    (snapshotActiveChunks ix.scan t b).lookup x.2.key = some x.1 := by
  have hm : x ∈ activeAt t b x.2.key := mem_activeAt.mpr ⟨hx, hb, rfl, ha⟩
  obtain ⟨i, hi⟩ := Option.isSome_iff_exists.mp (snapshot_has.mpr (List.ne_nil_of_mem hm))
  obtain ⟨r, hr⟩ := snapshot_lookup hi
  rw [eq_singleton_of_mem (hU x.2.key) hm, List.mem_singleton] at hr
  rw [hi, ← hr]

/-- Exact totals stay exact when no file is delivered twice and every file that the buffer has
loses a key. -/
theorem totalsAdd_iff (hp : OfProject project msgs) (he : TotalsExact db project)
    (hU : Unique db.chunks (projectId db.buffers project)) :
    TotalsAdd ix db project msgs ↔ (sentPaths ix db msgs).Nodup ∧
      ∀ path ∈ pathsIn db.chunks (projectId db.buffers project), ∃ k, k.1 = path ∧
        activeAt db.chunks (projectId db.buffers project) k ≠ [] ∧
        k ∉ sentKeys ix (routed (db.buffers, none) msgs) := by
  obtain ⟨-, hone⟩ := routed_project (r := (db.buffers, none))
    (b := projectId db.buffers project) hp rfl (.inl rfl)
  unfold TotalsExact at he
  unfold TotalsAdd
  dsimp only at he ⊢
  rw [he]
  generalize projectId db.buffers project = b at hU hone
  dsimp only
  rw [← dedup_length_eq]
  cases hb : firstBuffer (routed (db.buffers, none) msgs) with
  | none =>
    have hR : routed (db.buffers, none) msgs = [] := by
      rwa [firstBuffer, Option.map_eq_none_iff, List.head?_eq_none_iff] at hb
    have hsent : sentPaths ix db msgs = [] := by rw [sentPaths, hR]; rfl
    have hgone : goneKeys ix db msgs = [] := by rw [goneKeys, hb]
    have hall : untouched ix db msgs b =
        (db.chunks.select fun _ r => r.bufferId == b && r.isActive).map fun x => x.2.filePath := by
      unfold untouched
      rw [hR, hgone]
      simp [sentKeys, keysOf, entriesOf, itemsOf]
    rw [hsent, hgone, hall]
    refine iff_of_true ⟨rfl, by simp [pathsIn]⟩ ⟨rfl, fun path hpath => ?_⟩
    obtain ⟨k, hk, hact⟩ := mem_pathsIn.mp hpath
    exact ⟨k, hk, hact, by rw [hR]; exact List.not_mem_nil⟩
  | some b₀ =>
    obtain rfl := firstBuffer_one hone hb
    have hgone : goneKeys ix db msgs = orphanKeys ix db msgs b₀ := by rw [goneKeys, hb]
    have hmem : ∀ k, k ∈ orphanKeys ix db msgs b₀ ↔ activeAt db.chunks b₀ k ≠ [] ∧
        k ∉ sentKeys ix (routed (db.buffers, none) msgs) := by
      intro k
      rw [orphanKeys, unmatched, List.mem_filter, mem_snapshot_keys, snapshot_has]
      simp
    have hun : untouched ix db msgs b₀ = [] := by
      unfold untouched
      dsimp only
      rw [List.map_eq_nil_iff, hgone]
      refine List.filter_eq_nil_iff.mpr fun x hx => ?_
      simp only [Bool.and_eq_true, beq_iff_eq, Bool.not_eq_true', List.contains_eq_mem,
        decide_eq_false_iff_not, not_and, not_not]
      rintro ⟨⟨hxb, ha⟩, hs⟩
      have hlook := lookup_of_unique ix hU hx hxb ha
      have hact : x ∈ activeAt db.chunks b₀ x.2.key := mem_activeAt.mpr ⟨hx, hxb, rfl, ha⟩
      refine List.mem_filterMap.mpr ⟨x.2.key, (hmem _).mpr ⟨List.ne_nil_of_mem hact, hs⟩, ?_⟩
      rw [hlook]
    have hsub : ((orphanKeys ix db msgs b₀).map Prod.fst).dedup ⊆ pathsIn db.chunks b₀ := by
      intro path hpath
      obtain ⟨k, hk, rfl⟩ := List.mem_map.mp (List.mem_dedup.mp hpath)
      exact mem_pathsIn.mpr ⟨k, rfl, ((hmem k).mp hk).1⟩
    have hlose : (∀ path ∈ pathsIn db.chunks b₀, ∃ k, k.1 = path ∧
        activeAt db.chunks b₀ k ≠ [] ∧ k ∉ sentKeys ix (routed (db.buffers, none) msgs)) ↔
        pathsIn db.chunks b₀ ⊆ ((orphanKeys ix db msgs b₀).map Prod.fst).dedup := by
      refine forall_congr' fun path => forall_congr' fun _ => ?_
      rw [List.mem_dedup, List.mem_map]
      refine exists_congr fun k => ?_
      rw [hmem, and_comm]
    rw [hlose, ← length_eq_of_subset (List.nodup_dedup _) (pathsIn_nodup _ _) hsub, hun, hgone,
      List.append_nil]
    have hle₁ := (List.dedup_sublist (sentPaths ix db msgs)).length_le
    have hle₂ := ((List.nodup_dedup _).subperm hsub).length_le
    constructor
    · rintro ⟨-, hf⟩
      constructor <;> omega
    · rintro ⟨h₁, h₂⟩
      exact ⟨rfl, by omega⟩

end Exact

/-! ## Histories -/

/-- The totals are exact after each stream that is answered, if and only if they add up before
it. A stream that breaks off may be anywhere in the history. -/
theorem buffer_totals (project : String) (db : IndexDb) (hist : List (List IndexMsg))
    (hp : ∀ msgs ∈ hist, OfProject project msgs) :
    Lts.Always (fun d msgs => (indexStreamLoop ix d msgs).1) db (fun _ d msgs =>
        (∃ res, (indexStreamLoop ix d msgs).2 = .ok res) →
          TotalsExact (indexStreamLoop ix d msgs).1 project) hist ↔
      Lts.Always (fun d msgs => (indexStreamLoop ix d msgs).1) db (fun _ d msgs =>
        (∃ res, (indexStreamLoop ix d msgs).2 = .ok res) → TotalsAdd ix d project msgs) hist := by
  induction hist with
  | nil => exact Iff.rfl
  | cons msgs hist ih =>
    refine and_congr (ih fun m hm => hp m (List.mem_cons_of_mem msgs hm)) ?_
    refine forall_congr' ?_
    rintro ⟨res, hres⟩
    exact totalsExact_iff (hp msgs List.mem_cons_self) hres

/-- A file is indexed, and replaced by another one. -/
theorem buffer_totals_replaced :
    Lts.Always (fun d msgs => (indexStreamLoop sampleIndexer d msgs).1) IndexDb.empty
      (fun _ d msgs => (∃ res, (indexStreamLoop sampleIndexer d msgs).2 = .ok res) →
        TotalsExact (indexStreamLoop sampleIndexer d msgs).1 "p")
      [streamOf "p" "/p" [("n.rs", "b")], streamOf "p" "/p" [("m.rs", "a")]] := by
  have hp : ∀ msgs ∈ [streamOf "p" "/p" [("n.rs", "b")], streamOf "p" "/p" [("m.rs", "a")]],
      OfProject "p" msgs := by
    intro msgs hm p root hi
    simp only [streamOf, List.mem_cons, List.not_mem_nil, or_false, List.map_cons,
      List.map_nil] at hm
    rcases hm with rfl | rfl <;> simp_all
  exact (buffer_totals sampleIndexer "p" IndexDb.empty _ hp).mpr
    ⟨⟨trivial, fun _ => by decide +kernel⟩, fun _ => by decide +kernel⟩

/-- The same tree is indexed again: nothing changes, and its file is counted twice. -/
theorem buffer_totals_again :
    (indexStreamLoop sampleIndexer (indexStreamLoop sampleIndexer IndexDb.empty
      (streamOf "p" "/p" [("m.rs", "a")])).1 (streamOf "p" "/p" [("m.rs", "a")])).2 = .ok ⟨1, 1⟩ ∧
    ¬ Lts.Always (fun d msgs => (indexStreamLoop sampleIndexer d msgs).1) IndexDb.empty
      (fun _ d msgs => (∃ res, (indexStreamLoop sampleIndexer d msgs).2 = .ok res) →
        TotalsExact (indexStreamLoop sampleIndexer d msgs).1 "p")
      [streamOf "p" "/p" [("m.rs", "a")], streamOf "p" "/p" [("m.rs", "a")]] := by
  refine ⟨by decide +kernel, fun h => ?_⟩
  exact absurd (h.2 ⟨⟨1, 1⟩, by decide +kernel⟩) (by decide +kernel)

end Arags
