import Arags.Index.BufferCounts
import Arags.Index.VectorCoverage

/-!
# Arags.Index.StreamBuffers

What a stream that is answered has done to each buffer.

* `StreamConsistent` — each file stays in the buffer of the last `Init` before it, the end of the
  stream retires keys of the buffer they were seen in, and each buffer's counts change by what the
  stream did to it.
* `OrphanPass`       — the end of a stream retires rows of one buffer, a row for each key.
* `CountsBalance`, `stream_buffers` — the files and the retired keys are right in every stream; for
  which streams the counts are too.
-/

namespace Arags

open Sql

variable (ix : Indexer)

/-! ## The property -/

/-- The database when these messages have been read. -/
def midDb (db : IndexDb) (msgs : List IndexMsg) : IndexDb := (runLoop ix db .start msgs).1

/-- The buffer of the project of the last `Init`. -/
def bufferAfter (db : IndexDb) (pre : List IndexMsg) : Option Int :=
  (lastInit pre).map (projectId (midDb ix db pre).buffers)

/-- `pre` is what a stream reads before its first `File` for a buffer. -/
structure FirstFile (db : IndexDb) (msgs pre : List IndexMsg) (b : Int) : Prop where
  next : ∃ path content post, msgs = pre ++ .file path content :: post
  buffer : bufferAfter ix db pre = some b
  first : ∀ pre' path content post, pre = pre' ++ .file path content :: post →
    bufferAfter ix db pre' ≠ some b

/-- The files of a buffer that lost chunks at the end of a stream. -/
def orphanedFiles (mid fin : SeqTable Chunk) (b : Int) : List String :=
  ((mid.rows.filter fun x => x.2.bufferId == b && !fin.rows.contains x).map
    fun x => x.2.filePath).dedup

/-- The active rows a buffer has gained, and the files with chunks it was sent less those that
lost chunks at the end. -/
def contribution (db : IndexDb) (msgs : List IndexMsg) (b : Int) : Int × Int :=
  let mid := midDb ix db msgs
  let fin := (indexStreamLoop ix db msgs).1
  let sent := (sentFiles ix (routed (db.buffers, none) msgs)).countP fun x => x.1 == b
  ((activeIn fin.chunks (· == b) : Int) - activeIn db.chunks (· == b),
    (sent : Int) - (orphanedFiles mid.chunks fin.chunks b).length)

/-- The keys of a snapshot that the stream has not delivered, to whichever buffer. -/
def orphanKeys (db : IndexDb) (msgs : List IndexMsg) (b : Int) : List ChunkKey :=
  unmatched (snapshotActiveChunks ix.scan db.chunks b)
    (sentKeys ix (routed (db.buffers, none) msgs))

/-- Every file with chunks goes to the buffer of the first file or to that of the last `Init`, and
if these are two, the first neither gains nor loses. -/
def CountsBalance (db : IndexDb) (msgs : List IndexMsg) : Prop :=
  let R := routed (db.buffers, none) msgs
  ∀ first ∈ firstBuffer R, ∀ last ∈ (routeAfter (db.buffers, none) msgs).2,
    (∀ x ∈ sentFiles ix R, x.1 = first ∨ x.1 = last) ∧
    (first ≠ last →
      (sentFiles ix R).countP (fun x => x.1 == first) =
        ((orphanKeys ix db msgs first).map Prod.fst).dedup.length ∧
      (itemsOf ix (filesFor R first)).countP (fun it =>
          !(snapshotActiveChunks ix.scan db.chunks first).has (it.2.key it.1)) =
        (orphanKeys ix db msgs first).length)

instance (db : IndexDb) (msgs : List IndexMsg) : Decidable (CountsBalance ix db msgs) := by
  unfold CountsBalance
  exact inferInstance

structure StreamConsistent (db : IndexDb) (msgs : List IndexMsg) : Prop where
  files : ∀ pre path content post, msgs = pre ++ .file path content :: post →
    ∃ b, bufferAfter ix db pre = some b ∧
      Stays b (midDb ix db pre).chunks (midDb ix db (pre ++ [.file path content])).chunks
  orphans : ∀ x ∈ (midDb ix db msgs).chunks.rows, x ∉ (indexStreamLoop ix db msgs).1.chunks.rows →
    ∃ pre, FirstFile ix db msgs pre x.2.bufferId ∧
      activeAt (midDb ix db pre).chunks x.2.bufferId x.2.key ≠ []
  counts : ∀ b, countsOf (indexStreamLoop ix db msgs).1.buffers b =
    countsOf db.buffers b + contribution ix db msgs b

/-! ## The files -/

section Files

variable {ix} {db d : IndexDb} {msgs : List IndexMsg} {st : LoopState}

theorem midDb_eq (h : runLoop ix db .start msgs = (d, .ok st)) : midDb ix db msgs = d := by
  rw [midDb, h]

theorem bufferAfter_eq (h : runLoop ix db .start msgs = (d, .ok st)) :
    bufferAfter ix db msgs = st.bufferId := by
  obtain ⟨hR, -⟩ := loopInv ix h
  rw [bufferAfter, midDb_eq h, hR.buffer, hR.project]

/-- A file that is read goes to the buffer of the last `Init`. -/
theorem file_read {pre post : List IndexMsg} {path : String} {content : Option String}
    (h : runLoop ix db .start (pre ++ .file path content :: post) = (d, .ok st)) :
    ∃ text b, content = some text ∧ bufferAfter ix db pre = some b ∧
      (routeAfter (db.buffers, none) pre).2 = some b ∧
      Stays b (midDb ix db pre).chunks (midDb ix db (pre ++ [.file path content])).chunks := by
  have hsplit : pre ++ .file path content :: post = (pre ++ [.file path content]) ++ post := by
    simp
  rw [hsplit] at h
  obtain ⟨next, stNext, hnext, -⟩ := runLoop_prefix ix h
  obtain ⟨mid, stMid, hmid, hlast⟩ := runLoop_prefix ix hnext
  obtain ⟨hR, hC⟩ := loopInv ix hmid
  rw [runLoop] at hlast
  cases hm : stepMsg ix mid stMid (.file path content) with
  | error e => rw [hm] at hlast; cases hlast
  | ok x =>
    rw [hm] at hlast
    cases hlast
    rcases stepMsg_cases hm with ⟨_, _, he, -⟩ | ⟨path', text, b, he, hb, hd, -⟩ | ⟨he, -⟩
    · cases he
    · cases he
      obtain ⟨htab, -⟩ := phase1_report ix mid.chunks b path text _ (hC.snapshot b).taken
      refine ⟨text, b, rfl, (bufferAfter_eq hmid).trans hb, ?_, ?_⟩
      · rw [← hR.route]
        exact hb
      · rw [midDb_eq hmid, midDb_eq hnext, hd]
        dsimp only
        rw [htab]
        exact persistAll_stays ix.scan b _ (mid.chunks, .empty) _
    · cases he

theorem routed_head {r : Route} {b : Int} (h : firstBuffer (routed r msgs) = some b) :
    ∃ pre path text post, msgs = pre ++ .file path (some text) :: post ∧
      (routeAfter r pre).2 = some b ∧ routed r pre = [] := by
  induction msgs generalizing r with
  | nil => cases h
  | cons m msgs ih =>
    rw [routed] at h
    cases hm : delivered r m with
    | nil =>
      rw [hm, List.nil_append] at h
      obtain ⟨pre, path, text, post, rfl, hb, hpre⟩ := ih h
      exact ⟨m :: pre, path, text, post, rfl, hb, by rw [routed, hm, hpre]; rfl⟩
    | cons x l =>
      rw [hm] at h
      cases m with
      | file path content =>
        cases content with
        | none => cases hm
        | some text =>
          obtain ⟨b', hb', rfl⟩ := List.mem_map.mp (hm ▸ List.mem_cons_self (a := x))
          rw [Option.mem_toList] at hb'
          cases h
          exact ⟨[], path, text, msgs, rfl, hb', rfl⟩
      | init _ _ | empty | error _ => cases hm

/-- Before the first file of a stream the chunks are as they were. -/
theorem firstBuffer_first (h : runLoop ix db .start msgs = (d, .ok st)) {b : Int}
    (hb : firstBuffer (routed (db.buffers, none) msgs) = some b) :
    ∃ pre, FirstFile ix db msgs pre b ∧ (midDb ix db pre).chunks = db.chunks := by
  obtain ⟨pre, path, text, post, rfl, hbuf, hnone⟩ := routed_head hb
  obtain ⟨mid, stMid, hmid, -⟩ := runLoop_prefix ix h
  obtain ⟨hR, hC⟩ := loopInv ix hmid
  refine ⟨pre, ⟨⟨path, some text, post, rfl⟩, ?_, ?_⟩, ?_⟩
  · rw [bufferAfter_eq hmid, ← hbuf, ← hR.route]
  · rintro pre' path' content' post' rfl
    obtain ⟨text', b', rfl, -, hb', -⟩ := file_read hmid
    rw [routed_append, routed] at hnone
    simp [delivered, hb'] at hnone
  · rw [midDb_eq hmid]
    rw [hnone] at hC
    exact (hC.unread rfl).2.1

/-! ## The end of the stream -/

/-- The rows that the end of a stream retires: of one buffer, one row for each key left. -/
structure OrphanPass (db : IndexDb) (t : SeqTable Chunk) (st : LoopState) (b : Int) : Prop where
  nodup : (orphanIds st).Nodup
  length : (orphanIds st).length = st.remainingActive.length
  row : ∀ i ∈ orphanIds st, ∃ r, (i, r) ∈ t.rows ∧ r.isActive = true ∧ r.bufferId = b ∧
    r.key ∈ st.remainingActive ∧ activeAt db.chunks b r.key ≠ []
  key : ∀ k ∈ st.remainingActive, ∃ i ∈ orphanIds st, ∃ r, (i, r) ∈ t.rows ∧ r.isActive = true ∧
    r.bufferId = b ∧ r.key = k

theorem orphanPass_of (hC : CountInv ix db (routed (db.buffers, none) msgs) d.chunks st) {b : Int}
    (hb : firstBuffer (routed (db.buffers, none) msgs) = some b) :
    OrphanPass db d.chunks st b := by
  have hS := hC.first b hb
  have hids : orphanIds st = st.remainingActive.filterMap fun k =>
      (snapshotActiveChunks ix.scan db.chunks b).lookup k := by
    rw [orphanIds, hS.taken]
  have hmem : ∀ k ∈ st.remainingActive,
      (snapshotActiveChunks ix.scan db.chunks b).has k = true ∧
        k ∉ sentKeys ix (routed (db.buffers, none) msgs) := by
    intro k hk
    rw [hS.remaining, unmatched, List.mem_filter, mem_snapshot_keys] at hk
    simpa using hk
  -- the row of a key that is left has not moved since the snapshot
  have hrow : ∀ k ∈ st.remainingActive, ∀ i,
      (snapshotActiveChunks ix.scan db.chunks b).lookup k = some i →
      ∃ r, (i, r) ∈ activeAt d.chunks b k := by
    intro k hk i hi
    rw [hC.kept b k (hmem k hk).2]
    exact snapshot_lookup hi
  refine ⟨?_, ?_, ?_, ?_⟩
  · rw [hids]
    refine List.Nodup.filterMap ?_ ?_
    · intro k k' i hi hi'
      obtain ⟨r, hr⟩ := snapshot_lookup hi
      obtain ⟨r', hr'⟩ := snapshot_lookup hi'
      obtain ⟨hm, -, hk, -⟩ := mem_activeAt.mp hr
      obtain ⟨hm', -, hk', -⟩ := mem_activeAt.mp hr'
      rw [← hk, ← hk', Table.eq_of_mem hm hm']
    · rw [hS.remaining]
      exact (List.nodup_dedup _).filter _
  · rw [hids, List.filterMap_length_eq_length]
    exact fun k hk => (hmem k hk).1
  · intro i hi
    rw [hids] at hi
    obtain ⟨k, hk, hki⟩ := List.mem_filterMap.mp hi
    obtain ⟨r, hr⟩ := hrow k hk i hki
    obtain ⟨hm, hrb, hrk, ha⟩ := mem_activeAt.mp hr
    dsimp only at hrk
    subst hrk
    exact ⟨r, hm, ha, hrb, hk, snapshot_has.mp (hmem _ hk).1⟩
  · intro k hk
    obtain ⟨i, hi⟩ := Option.isSome_iff_exists.mp (hmem k hk).1
    obtain ⟨r, hr⟩ := hrow k hk i hi
    obtain ⟨hm, hrb, hrk, ha⟩ := mem_activeAt.mp hr
    exact ⟨i, hids ▸ List.mem_filterMap.mpr ⟨k, hk, hi⟩, r, hm, ha, hrb, hrk⟩

/-- Without a file there is nothing to retire. -/
theorem orphanIds_unread (hC : CountInv ix db (routed (db.buffers, none) msgs) d.chunks st)
    (hb : firstBuffer (routed (db.buffers, none) msgs) = none) :
    orphanIds st = [] ∧ st.remainingActive = [] := by
  obtain ⟨hs, -, hr⟩ := hC.unread hb
  exact ⟨by rw [orphanIds, hs], hr⟩

/-- The end of a stream that is answered. -/
theorem stream_end {res : IndexResponse} (h : (indexStreamLoop ix db msgs).2 = .ok res) :
    ∃ d st last, runLoop ix db .start msgs = (d, .ok st) ∧
      (routeAfter (db.buffers, none) msgs).2 = some last ∧ (∃ r, (last, r) ∈ d.buffers.rows) ∧
      (indexStreamLoop ix db msgs).1 = {
        buffers := incrementBufferCounts d.buffers last st.netChunks st.netFiles
        chunks := orphanPass d.chunks st } := by
  unfold indexStreamLoop at h ⊢
  cases hrun : runLoop ix db .start msgs with
  | mk d out =>
    rw [hrun] at h
    cases out with
    | error e => cases h
    | ok st =>
      obtain ⟨hR, -⟩ := loopInv ix hrun
      dsimp only at h ⊢
      unfold finish at h ⊢
      cases hp : st.project with
      | none => simp only [hp] at h; cases h
      | some project =>
        cases hb : st.bufferId with
        | none => simp only [hp, hb] at h; cases h
        | some last =>
          refine ⟨d, st, last, rfl, ?_, hR.row last hb, rfl⟩
          rw [← hR.route, hb]

section Counts

variable {b₀ : Int}

/-- Whoever is gone after the end of the stream was an active row of the first buffer. -/
theorem mem_orphaned (hO : OrphanPass db d.chunks st b₀) {x : Int × Chunk}
    (hx : x ∈ d.chunks.rows) (hn : x ∉ (orphanPass d.chunks st).rows) :
    x.2.bufferId = b₀ ∧ x.2.key ∈ st.remainingActive ∧ activeAt db.chunks b₀ x.2.key ≠ [] := by
  rw [orphanPass_retireAll, not_mem_retireAll hx] at hn
  obtain ⟨r, hr, -, hb, hk, hact⟩ := hO.row x.1 hn.1
  have he : x.2 = r := Table.eq_of_mem hx hr
  subst he
  exact ⟨hb, hk, hact⟩

theorem orphanedFiles_length (hO : OrphanPass db d.chunks st b₀) (b : Int) :
    (orphanedFiles d.chunks (orphanPass d.chunks st) b).length =
      if b = b₀ then (st.remainingActive.map Prod.fst).dedup.length else 0 := by
  unfold orphanedFiles
  split
  · rename_i hb
    subst hb
    refine (List.Perm.length_eq ((List.perm_ext_iff_of_nodup (List.nodup_dedup _)
      (List.nodup_dedup _)).mpr fun path => ?_))
    rw [List.mem_dedup, List.mem_dedup, List.mem_map, List.mem_map]
    constructor
    · rintro ⟨x, hx, rfl⟩
      obtain ⟨hm, hp⟩ := List.mem_filter.mp hx
      simp only [Bool.and_eq_true, Bool.not_eq_true', List.contains_eq_mem,
        decide_eq_false_iff_not] at hp
      exact ⟨x.2.key, (mem_orphaned hO hm hp.2).2.1, rfl⟩
    · rintro ⟨k, hk, rfl⟩
      obtain ⟨i, hi, r, hr, ha, hb, rfl⟩ := hO.key k hk
      refine ⟨(i, r), List.mem_filter.mpr ⟨hr, ?_⟩, rfl⟩
      have hgone : (i, r) ∉ (orphanPass d.chunks st).rows := by
        rw [orphanPass_retireAll]
        exact (not_mem_retireAll hr).mpr ⟨hi, ha⟩
      simp [hb, hgone]
  · rename_i hb
    rw [List.length_eq_zero_iff, List.dedup_eq_nil, List.map_eq_nil_iff, List.filter_eq_nil_iff]
    intro x hx hp
    simp only [Bool.and_eq_true, beq_iff_eq, Bool.not_eq_true', List.contains_eq_mem,
      decide_eq_false_iff_not] at hp
    exact hb (hp.1.symm.trans (mem_orphaned hO hx hp.2).1)

theorem orphanPass_activeIn (hO : OrphanPass db d.chunks st b₀) (q : Int → Bool) :
    activeIn d.chunks q = activeIn (orphanPass d.chunks st) q +
      if q b₀ then st.remainingActive.length else 0 := by
  rw [orphanPass_retireAll, ← hO.length]
  refine retireAll_activeIn hO.nodup ?_ q
  intro i hi
  obtain ⟨r, hr, ha, hb, -, -⟩ := hO.row i hi
  exact ⟨r, hr, ha, hb⟩

theorem length_of_two {R : Deliveries} {b c : Int} (h : ∀ x ∈ R, x.1 = c ∨ x.1 = b) : R.length =
    R.countP (fun x => x.1 == b) + if c = b then 0 else R.countP fun x => x.1 == c := by
  induction R with
  | nil => simp
  | cons x R ih =>
    have hx := h x List.mem_cons_self
    have hR := ih fun y hy => h y (List.mem_cons_of_mem x hy)
    rw [List.length_cons, hR, List.countP_cons, List.countP_cons]
    by_cases hc : c = b
    · rw [hc, or_self] at hx
      simp [hx, hc]
    · rcases hx with hx | hx
      · simp [hx, hc]
        omega
      · simp [hx, hc, Ne.symm hc]
        omega

section Contribution

variable (hC : CountInv ix db (routed (db.buffers, none) msgs) d.chunks st)
  (hO : OrphanPass db d.chunks st b₀) (hrun : runLoop ix db .start msgs = (d, .ok st))
  (hend : (indexStreamLoop ix db msgs).1.chunks = orphanPass d.chunks st)

include hrun hend

theorem contribution_eq (b : Int) : contribution ix db msgs b =
    ((activeIn (orphanPass d.chunks st) (· == b) : Int) - activeIn db.chunks (· == b),
      (((sentFiles ix (routed (db.buffers, none) msgs)).countP fun x => x.1 == b : Nat) : Int) -
        (orphanedFiles d.chunks (orphanPass d.chunks st) b).length) := by
  unfold contribution
  dsimp only
  rw [hend, midDb_eq hrun]

include hC hO

/-- A buffer that no file with chunks goes to and no key is taken from. -/
theorem contribution_other {b : Int} (hb : b ≠ b₀)
    (hs : ∀ x ∈ sentFiles ix (routed (db.buffers, none) msgs), x.1 ≠ b) :
    contribution ix db msgs b = (0, 0) := by
  have hpass := orphanPass_activeIn hO (· == b)
  have hkept := hC.others (· == b) fun x hx => beq_eq_false_iff_ne.mpr (hs x hx)
  have hsent : (sentFiles ix (routed (db.buffers, none) msgs)).countP (fun x => x.1 == b) = 0 :=
    List.countP_eq_zero.mpr fun x hx => by simpa using hs x hx
  rw [if_neg (by simpa using hb.symm)] at hpass
  rw [contribution_eq hrun hend, orphanedFiles_length hO, if_neg hb, hsent]
  exact Prod.ext (by dsimp only; omega) (by simp)

theorem contribution_first (hb : firstBuffer (routed (db.buffers, none) msgs) = some b₀) :
    contribution ix db msgs b₀ =
      ((((itemsOf ix (filesFor (routed (db.buffers, none) msgs) b₀)).countP fun it =>
          !(snapshotActiveChunks ix.scan db.chunks b₀).has (it.2.key it.1) : Nat) : Int) -
        (orphanKeys ix db msgs b₀).length,
      (((sentFiles ix (routed (db.buffers, none) msgs)).countP fun x => x.1 == b₀ : Nat) : Int) -
        ((orphanKeys ix db msgs b₀).map Prod.fst).dedup.length) := by
  have hpass := orphanPass_activeIn hO (· == b₀)
  have hfresh := (hC.first b₀ hb).fresh
  have hkeys : orphanKeys ix db msgs b₀ = st.remainingActive := (hC.first b₀ hb).remaining.symm
  rw [if_pos (beq_self_eq_true b₀)] at hpass
  rw [contribution_eq hrun hend, orphanedFiles_length hO, if_pos rfl, hkeys]
  exact Prod.ext (by dsimp only; omega) rfl

/-- What the counters hold, when the files with chunks went to two buffers at most. -/
theorem contribution_total {last : Int}
    (hs : ∀ x ∈ sentFiles ix (routed (db.buffers, none) msgs), x.1 = b₀ ∨ x.1 = last) :
    (st.netChunks, st.netFiles) = contribution ix db msgs last +
      if b₀ = last then (0, 0) else contribution ix db msgs b₀ := by
  have hpass := orphanPass_activeIn hO
  have hrest : activeIn (orphanPass d.chunks st) (fun i => i != last && i != b₀) =
      activeIn db.chunks fun i => i != last && i != b₀ := by
    have hkept := hC.others (fun i => i != last && i != b₀) fun x hx => by
      rcases hs x hx with h | h <;> simp [h]
    have h := hpass fun i => i != last && i != b₀
    simpa [hkept] using h.symm
  have hchunks := activeIn_two hrest
  have hall := hpass fun _ => true
  have hnet := hC.net
  have hfiles := length_of_two hs
  rw [if_pos rfl] at hall
  simp only [contribution_eq hrun hend, orphanedFiles_length hO, LoopState.netChunks,
    LoopState.netFiles, hC.files, LoopState.net] at hnet ⊢
  by_cases hl : b₀ = last
  · subst hl
    simp only [if_true] at hchunks hfiles ⊢
    exact Prod.ext (by dsimp only [Prod.fst_add]; omega) (by dsimp only [Prod.snd_add]; omega)
  · simp only [if_neg hl, if_neg (Ne.symm hl), if_true] at hchunks hfiles ⊢
    exact Prod.ext (by dsimp only [Prod.fst_add]; omega) (by dsimp only [Prod.snd_add]; omega)

end Contribution

theorem add_no_counts (c : Int × Int) : c + (0, 0) = c := add_zero c

/-- The counts of one buffer are raised, by the counters. -/
theorem counts_iff {last : Int} (hR : RouteInv db msgs d st)
    (hrow : ∃ r, (last, r) ∈ d.buffers.rows) :
    (∀ b, countsOf (incrementBufferCounts d.buffers last st.netChunks st.netFiles) b =
      countsOf db.buffers b + contribution ix db msgs b) ↔
    ∀ b, contribution ix db msgs b = if b = last then (st.netChunks, st.netFiles) else (0, 0) := by
  obtain ⟨r, hr⟩ := hrow
  refine forall_congr' fun b => ?_
  rw [countsOf_increment hr, hR.counts]
  split
  · have hsum : ((countsOf db.buffers b).1 + st.netChunks,
        (countsOf db.buffers b).2 + st.netFiles) =
      countsOf db.buffers b + (st.netChunks, st.netFiles) := rfl
    rw [hsum, add_right_inj, eq_comm]
  · constructor
    · intro h
      exact add_left_cancel (h.symm.trans (add_no_counts _).symm)
    · intro h
      rw [h, add_no_counts]

/-- A stream without files changes nothing. -/
theorem contribution_unread {last : Int}
    (hC : CountInv ix db (routed (db.buffers, none) msgs) d.chunks st)
    (hb : firstBuffer (routed (db.buffers, none) msgs) = none)
    (hrun : runLoop ix db .start msgs = (d, .ok st))
    (hend : (indexStreamLoop ix db msgs).1.chunks = orphanPass d.chunks st) (b : Int) :
    contribution ix db msgs b = if b = last then (st.netChunks, st.netFiles) else (0, 0) := by
  obtain ⟨-, hdb, -⟩ := hC.unread hb
  obtain ⟨hids, hrem⟩ := orphanIds_unread hC hb
  have hR : routed (db.buffers, none) msgs = [] := by
    rw [firstBuffer, Option.map_eq_none_iff, List.head?_eq_none_iff] at hb
    exact hb
  have hpass : orphanPass d.chunks st = db.chunks := by
    rw [orphanPass_retireAll, hids, hdb]
    rfl
  have hnet := hC.net
  have hfiles := hC.files
  rw [hdb] at hnet
  rw [hR] at hfiles
  have hzero : (st.netChunks, st.netFiles) = (0, 0) := by
    have h : st.net = 0 := by omega
    rw [LoopState.netChunks, LoopState.netFiles, hfiles, hrem, ← LoopState.net, h]
    rfl
  have hgone : orphanedFiles db.chunks db.chunks b = [] := by
    rw [orphanedFiles, List.dedup_eq_nil, List.map_eq_nil_iff, List.filter_eq_nil_iff]
    intro x hx
    simp [hx]
  rw [contribution_eq hrun hend, hpass, hdb, hR, hgone, hzero, ite_self, Int.sub_self]
  rfl

end Counts

end Files

/-! ## The result -/

variable {ix} in
theorem counts_iff_balance {db d : IndexDb} {msgs : List IndexMsg} {st : LoopState} {last : Int}
    (hrun : runLoop ix db .start msgs = (d, .ok st))
    (hlast : (routeAfter (db.buffers, none) msgs).2 = some last)
    (hend : (indexStreamLoop ix db msgs).1.chunks = orphanPass d.chunks st) :
    (∀ b, contribution ix db msgs b = if b = last then (st.netChunks, st.netFiles) else (0, 0)) ↔
      CountsBalance ix db msgs := by
  obtain ⟨-, hC⟩ := loopInv ix hrun
  cases hb : firstBuffer (routed (db.buffers, none) msgs) with
  | none =>
    refine iff_of_true (contribution_unread hC hb hrun hend) ?_
    intro first hfirst
    rw [hb] at hfirst
    cases hfirst
  | some b₀ =>
    have hO := orphanPass_of hC hb
    have hfirst := contribution_first hC hO hrun hend hb
    constructor
    · intro h first hfb last' hl
      rw [hb, Option.mem_some_iff] at hfb
      rw [hlast, Option.mem_some_iff] at hl
      subst hfb hl
      refine ⟨fun x hx => ?_, fun hne => ?_⟩
      · by_contra hc
        rw [not_or] at hc
        have hzero := h x.1
        rw [if_neg hc.2, contribution_eq hrun hend, orphanedFiles_length hO, if_neg hc.1] at hzero
        have hpos : 0 < (sentFiles ix (routed (db.buffers, none) msgs)).countP
            fun y => y.1 == x.1 := List.countP_pos_iff.mpr ⟨x, hx, beq_self_eq_true _⟩
        have hsnd := congrArg Prod.snd hzero
        dsimp only at hsnd
        omega
      · have hzero := h b₀
        rw [if_neg hne, hfirst] at hzero
        have hfst := congrArg Prod.fst hzero
        have hsnd := congrArg Prod.snd hzero
        dsimp only at hfst hsnd
        exact ⟨by omega, by omega⟩
    · intro h b
      obtain ⟨htwo, hbal⟩ := h b₀ hb last hlast
      have hzero : b₀ ≠ last → contribution ix db msgs b₀ = (0, 0) := by
        intro hne
        obtain ⟨hf, hc⟩ := hbal hne
        rw [hfirst, hf, hc, Int.sub_self, Int.sub_self]
      have htotal := contribution_total hC hO hrun hend htwo
      split
      · rename_i he
        subst he
        rw [htotal]
        split
        · rw [add_no_counts]
        · rename_i hne
          rw [hzero hne, add_no_counts]
      · rename_i hne
        by_cases hf : b = b₀
        · subst hf
          exact hzero hne
        · refine contribution_other hC hO hrun hend hf fun x hx he => ?_
          rcases htwo x hx with h | h
          · exact hf (he.symm.trans h)
          · exact hne (he.symm.trans h)

/-- The counts of a stream all go to the buffer of the last `Init`. -/
theorem stream_buffers {db : IndexDb} {msgs : List IndexMsg} {res : IndexResponse}
    (h : (indexStreamLoop ix db msgs).2 = .ok res) :
    StreamConsistent ix db msgs ↔ CountsBalance ix db msgs := by
  obtain ⟨d, st, last, hrun, hlast, hrow, hend⟩ := stream_end h
  obtain ⟨hR, hC⟩ := loopInv ix hrun
  have hchunks : (indexStreamLoop ix db msgs).1.chunks = orphanPass d.chunks st := by rw [hend]
  have hcounts : (∀ b, countsOf (incrementBufferCounts d.buffers last st.netChunks st.netFiles) b =
      countsOf db.buffers b + contribution ix db msgs b) ↔ CountsBalance ix db msgs :=
    (counts_iff hR hrow).trans (counts_iff_balance hrun hlast hchunks)
  constructor
  · intro hs
    refine hcounts.mp ?_
    have := hs.counts
    rwa [hend] at this
  · intro hbal
    refine ⟨?_, ?_, ?_⟩
    · rintro pre path content post rfl
      obtain ⟨_, b, -, hb, -, hs⟩ := file_read hrun
      exact ⟨b, hb, hs⟩
    · intro x hx hn
      rw [midDb_eq hrun] at hx
      rw [hchunks] at hn
      cases hb : firstBuffer (routed (db.buffers, none) msgs) with
      | none =>
        rw [orphanPass_retireAll, (orphanIds_unread hC hb).1] at hn
        exact absurd hx hn
      | some b₀ =>
        obtain ⟨hxb, -, hact⟩ := mem_orphaned (orphanPass_of hC hb) hx hn
        obtain ⟨pre, hpre, hsame⟩ := firstBuffer_first hrun hb
        exact ⟨pre, hxb ▸ hpre, by rwa [hsame, hxb]⟩
    · rw [hend]
      exact hcounts.mpr hbal

/-- Two projects are named before the first file, and one after it is the same again. -/
theorem stream_buffers_same_project :
    StreamConsistent sampleIndexer IndexDb.empty
      [.init "p" "/p", .init "q" "/q", .file "m.rs" (some "a"), .init "q" "/q",
        .file "n.rs" (some "b")] := by
  have hok : (indexStreamLoop sampleIndexer IndexDb.empty
      [.init "p" "/p", .init "q" "/q", .file "m.rs" (some "a"), .init "q" "/q",
        .file "n.rs" (some "b")]).2 = .ok ⟨2, 2⟩ := by decide +kernel
  exact (stream_buffers sampleIndexer hok).mpr (by decide +kernel)

/-- The file of `p` is counted for `q`, which is named after it. -/
theorem stream_buffers_init_last :
    ¬ ∀ (ix : Indexer) (db : IndexDb) (msgs : List IndexMsg) (res : IndexResponse),
      (indexStreamLoop ix db msgs).2 = .ok res → StreamConsistent ix db msgs := by
  intro h
  have hs := h sampleIndexer IndexDb.empty
    [.init "p" "/p", .file "m.rs" (some "a"), .init "q" "/q"] ⟨1, 1⟩ (by decide +kernel)
  exact absurd (hs.counts 1) (by decide +kernel)

end Arags
