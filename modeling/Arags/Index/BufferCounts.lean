import Arags.Index.ActiveRows
import Arags.Index.Interleaving

/-!
# Arags.Index.BufferCounts

A stream whose `Init` messages name several projects. The loop keeps one snapshot, one set of
unmatched keys and one pair of counters for all of them.

* `Route`, `routed` — the files of a stream, each with the buffer of the last `Init` before it.
* `RouteInv` — the project and the buffer the loop is at.
* `CountInv`, `SnapshotInv` — the counters, the snapshot and the active rows, from the files so far.
* `loopInv`  — both hold after every prefix that is read.
-/

namespace Arags

open Sql

variable (ix : Indexer)

/-! ## Where the files go -/

/-- The buffers, and the buffer of the last `Init`. -/
abbrev Route := SeqTable Buffer × Option Int

def routeStep (r : Route) : IndexMsg → Route
  | .init project root => ((ensureProject r.1 project root).1, some (projectId r.1 project))
  | _ => r

def routeAfter (r : Route) (msgs : List IndexMsg) : Route := msgs.foldl routeStep r

/-- A file, its text and the buffer it goes to. -/
def delivered (r : Route) : IndexMsg → List (Int × String × String)
  | .file path (some text) => r.2.toList.map fun b => (b, path, text)
  | _ => []

def routed (r : Route) : List IndexMsg → List (Int × String × String)
  | [] => []
  | m :: ms => delivered r m ++ routed (routeStep r m) ms

theorem routeAfter_concat (r : Route) (msgs : List IndexMsg) (m : IndexMsg) :
    routeAfter r (msgs ++ [m]) = routeStep (routeAfter r msgs) m := by
  simp [routeAfter]

theorem routed_append (r : Route) (msgs msgs' : List IndexMsg) :
    routed r (msgs ++ msgs') = routed r msgs ++ routed (routeAfter r msgs) msgs' := by
  induction msgs generalizing r with
  | nil => rfl
  | cons m msgs ih => simp [routed, routeAfter, ih]

theorem routed_concat (r : Route) (msgs : List IndexMsg) (m : IndexMsg) :
    routed r (msgs ++ [m]) = routed r msgs ++ delivered (routeAfter r msgs) m := by
  rw [routed_append, routed, routed, List.append_nil]

def lastInit (msgs : List IndexMsg) : Option String :=
  (msgs.filterMap fun
    | .init project _ => some project
    | _ => none).getLast?

theorem lastInit_concat (msgs : List IndexMsg) (m : IndexMsg) :
    lastInit (msgs ++ [m]) = match m with
      | .init project _ => some project
      | _ => lastInit msgs := by
  unfold lastInit
  rw [List.filterMap_append]
  cases m <;> simp

/-! ## Runs of the loop -/

/-- The loop of a prefix that is read without an error. -/
theorem runLoop_prefix {db d : IndexDb} {st st' : LoopState} {pre post : List IndexMsg}
    (h : runLoop ix db st (pre ++ post) = (d, .ok st')) :
    ∃ mid stMid, runLoop ix db st pre = (mid, .ok stMid) ∧
      runLoop ix mid stMid post = (d, .ok st') := by
  induction pre generalizing db st with
  | nil => exact ⟨db, st, rfl, h⟩
  | cons m pre ih =>
    rw [List.cons_append, runLoop] at h
    rw [runLoop]
    cases hm : stepMsg ix db st m with
    | error e => rw [hm] at h; cases h
    | ok x =>
      rw [hm] at h
      exact ih h

/-- An invariant of the messages read so far and the state they lead to. -/
theorem runLoop_inv {db : IndexDb} {P : List IndexMsg → IndexDb → LoopState → Prop}
    (h0 : P [] db .start)
    (hs : ∀ msgs d st m d' st', runLoop ix db .start msgs = (d, .ok st) → P msgs d st →
      stepMsg ix d st m = .ok (d', st') → P (msgs ++ [m]) d' st') :
    ∀ {msgs d st}, runLoop ix db .start msgs = (d, .ok st) → P msgs d st := by
  intro msgs
  induction msgs using List.reverseRecOn with
  | nil =>
    intro d st h
    cases h
    exact h0
  | append_singleton msgs m ih =>
    intro d st h
    obtain ⟨mid, stMid, hmid, hlast⟩ := runLoop_prefix ix h
    rw [runLoop] at hlast
    cases hm : stepMsg ix mid stMid m with
    | error e => rw [hm] at hlast; cases hlast
    | ok x =>
      rw [hm] at hlast
      cases hlast
      exact hs msgs mid stMid m _ _ hmid (ih hmid) hm

/-! ## What a stream delivers -/

abbrev Deliveries := List (Int × String × String)

/-- The files with chunks. -/
def sentFiles (R : Deliveries) : Deliveries :=
  R.filter fun x => !(ix.chunksOf x.2.1 x.2.2).isEmpty

/-- The files that go to a buffer. -/
def filesFor (R : Deliveries) (b : Int) : List (String × String) :=
  (R.filter fun x => x.1 == b).map Prod.snd

/-- The keys delivered to any buffer. -/
def sentKeys (R : Deliveries) : List ChunkKey := keysOf ix (R.map Prod.snd)

/-- The buffer of the first file, of which the loop takes the snapshot. -/
def firstBuffer (R : Deliveries) : Option Int := R.head?.map Prod.fst

section Concat

variable (R : Deliveries) (b : Int) (path text : String)

theorem sentFiles_concat : sentFiles ix (R ++ [(b, path, text)]) = sentFiles ix R ++
    if (ix.chunksOf path text).isEmpty then [] else [(b, path, text)] := by
  unfold sentFiles
  rw [List.filter_append]
  cases hc : (ix.chunksOf path text).isEmpty <;> simp [hc]

theorem filesFor_concat (b' : Int) : filesFor (R ++ [(b, path, text)]) b' = filesFor R b' ++
    if b = b' then [(path, text)] else [] := by
  unfold filesFor
  rw [List.filter_append, List.map_append]
  by_cases h : b = b' <;> simp [h]

theorem sentKeys_concat : sentKeys ix (R ++ [(b, path, text)]) =
    sentKeys ix R ++ keysOf ix [(path, text)] := by
  unfold sentKeys
  rw [List.map_append, keysOf_append]
  rfl

theorem firstBuffer_concat : firstBuffer (R ++ [(b, path, text)]) =
    some ((firstBuffer R).getD b) := by
  cases R <;> rfl

end Concat

/-! ## The invariant of the loop -/

def LoopState.net (st : LoopState) : Int := (st.totalInserted : Int) - st.totalRetired

/-- The keys of a snapshot that no file has delivered. -/
def unmatched (snap : Snapshot) (sent : List ChunkKey) : List ChunkKey :=
  (snap.map Prod.fst).dedup.filter fun k => !sent.contains k

/-- What the first file fixes: the snapshot, and from then on the rows of its buffer. -/
structure SnapshotInv (db : IndexDb) (R : Deliveries) (chunks : SeqTable Chunk) (st : LoopState)
    (b : Int) : Prop where
  taken : st.snapshot = some (snapshotActiveChunks ix.scan db.chunks b)
  remaining : st.remainingActive =
    unmatched (snapshotActiveChunks ix.scan db.chunks b) (sentKeys ix R)
  covered : Covered (snapshotActiveChunks ix.scan db.chunks b) chunks b
  fresh : (activeIn chunks (· == b) : Int) = activeIn db.chunks (· == b) +
    ((itemsOf ix (filesFor R b)).countP fun it =>
      !(snapshotActiveChunks ix.scan db.chunks b).has (it.2.key it.1) : Nat)

/-- The counters and the rows, from the files so far. -/
structure CountInv (db : IndexDb) (R : Deliveries) (chunks : SeqTable Chunk) (st : LoopState) :
    Prop where
  net : (activeIn chunks (fun _ => true) : Int) = activeIn db.chunks (fun _ => true) + st.net
  files : st.distinctFiles = (sentFiles ix R).length
  others : ∀ q, (∀ x ∈ sentFiles ix R, q x.1 = false) → activeIn chunks q = activeIn db.chunks q
  kept : ∀ b k, k ∉ sentKeys ix R → activeAt chunks b k = activeAt db.chunks b k
  unread : firstBuffer R = none →
    st.snapshot = none ∧ chunks = db.chunks ∧ st.remainingActive = []
  first : ∀ b, firstBuffer R = some b → SnapshotInv ix db R chunks st b

/-- `total_chunks` and `total_files` of a buffer; a buffer that is not there has none. -/
def countsOf (t : SeqTable Buffer) (b : Int) : Int × Int :=
  ((t.get? b).map fun r => (r.totalChunks, r.totalFiles)).getD (0, 0)

/-- Where the loop is. -/
structure RouteInv (db : IndexDb) (msgs : List IndexMsg) (d : IndexDb) (st : LoopState) :
    Prop where
  route : (d.buffers, st.bufferId) = routeAfter (db.buffers, none) msgs
  project : st.project = lastInit msgs
  buffer : st.bufferId = st.project.map (projectId d.buffers)
  row : ∀ b, st.bufferId = some b → ∃ r, (b, r) ∈ d.buffers.rows
  counts : ∀ b, countsOf d.buffers b = countsOf db.buffers b

/-- The insert of a file, as the loop does it. -/
def fileReport (chunks : SeqTable Chunk) (b : Int) (snap : Snapshot) (path text : String) :
    SeqTable Chunk × BatchedInsert :=
  persistAll ix.scan b snap (chunks, .empty) (itemsOf ix [(path, text)])

theorem itemsOf_singleton (path text : String) :
    itemsOf ix [(path, text)] = (ix.chunksOf path text).map fun c => (path, c) := by
  simp [itemsOf]

theorem phase1_report (chunks : SeqTable Chunk) (b : Int) (path text : String) (st : LoopState)
    {snap : Snapshot} (hs : st.snapshot = some snap) :
    (phase1 ix chunks b path text st).1 = (fileReport ix chunks b snap path text).1 ∧
    (phase1 ix chunks b path text st).2.net =
      st.net + (fileReport ix chunks b snap path text).2.net ∧
    (phase1 ix chunks b path text st).2.distinctFiles =
      st.distinctFiles + (if (ix.chunksOf path text).isEmpty then 0 else 1) ∧
    (phase1 ix chunks b path text st).2.remainingActive = st.remainingActive.filter fun k =>
      !(fileReport ix chunks b snap path text).2.handledKeys.contains k := by
  unfold phase1 fileReport
  rw [itemsOf_singleton]
  cases hc : ix.chunksOf path text with
  | nil => simp [persistAll, BatchedInsert.net, BatchedInsert.empty]
  | cons c cs =>
    simp only [List.isEmpty_cons, Bool.false_eq_true, if_false, insertChunksBatched_eq, hs,
      Option.getD_some, LoopState.net, BatchedInsert.net, persistAll, true_and, and_true]
    push_cast
    omega

theorem phase0_net (chunks : SeqTable Chunk) (st : LoopState) (b : Int) :
    (phase0 ix chunks b st).net = st.net ∧
      (phase0 ix chunks b st).distinctFiles = st.distinctFiles := by
  unfold phase0
  split <;> exact ⟨rfl, rfl⟩

theorem fileReport_handled (chunks : SeqTable Chunk) (b : Int) (snap : Snapshot)
    (path text : String) : (fileReport ix chunks b snap path text).2.handledKeys =
      (keysOf ix [(path, text)]).filter snap.has := by
  refine (persistAll_handled ix.scan b snap _ _).trans ?_
  simp [BatchedInsert.empty, keysOf, entriesOf, entry, Function.comp_def]

theorem fileReport_activeIn (chunks : SeqTable Chunk) (b : Int) (snap : Snapshot)
    (path text : String) (q : Int → Bool) :
    (activeIn (fileReport ix chunks b snap path text).1 q : Int) = activeIn chunks q +
      if q b then (fileReport ix chunks b snap path text).2.net else 0 := by
  have h := persistAll_activeIn ix.scan b snap (chunks, .empty) (itemsOf ix [(path, text)]) q
  have hzero : BatchedInsert.empty.net = 0 := rfl
  rw [hzero, Int.sub_zero] at h
  exact h

theorem fileReport_fresh {chunks : SeqTable Chunk} {b : Int} {snap : Snapshot}
    (path text : String) (hc : Covered snap chunks b) :
    (fileReport ix chunks b snap path text).2.net =
      ((itemsOf ix [(path, text)]).countP fun it => !snap.has (it.2.key it.1) : Nat) := by
  have h := persistAll_fresh ix.scan b snap (chunks, .empty) (itemsOf ix [(path, text)]) hc
  have hzero : BatchedInsert.empty.net = 0 := rfl
  rw [hzero, Int.zero_add] at h
  exact h

theorem unmatched_concat (snap : Snapshot) (sent new : List ChunkKey) :
    unmatched snap (sent ++ new) =
      (unmatched snap sent).filter fun k => !(new.filter snap.has).contains k := by
  unfold unmatched
  rw [List.filter_filter]
  refine List.filter_congr fun k hk => ?_
  have hhas : snap.has k = true := by
    rw [List.mem_dedup] at hk
    obtain ⟨x, hx, rfl⟩ := List.mem_map.mp hk
    rw [Snapshot.has, List.lookup_isSome_iff]
    exact ⟨x, hx, by simp⟩
  rw [Bool.eq_iff_iff]
  simp [hhas, and_comm]

namespace SnapshotInv

variable {ix} {db : IndexDb} {R : Deliveries} {chunks : SeqTable Chunk} {st : LoopState} {b₀ : Int}

/-- The first file finds the chunks as they were. -/
theorem start (st : LoopState) (b : Int) (hs : st.snapshot = none) :
    SnapshotInv ix db [] db.chunks (phase0 ix db.chunks b st) b := by
  unfold phase0
  rw [hs]
  refine ⟨rfl, ?_, fun k hk => snapshot_has.mp hk, ?_⟩
  · simp [unmatched, sentKeys, keysOf, entriesOf, itemsOf]
  · simp [filesFor, itemsOf]

theorem file (hI : SnapshotInv ix db R chunks st b₀) (b : Int) (path text : String) :
    SnapshotInv ix db (R ++ [(b, path, text)]) (phase1 ix chunks b path text st).1
      (phase1 ix chunks b path text st).2 b₀ := by
  obtain ⟨htab, -, -, hrem⟩ := phase1_report ix chunks b path text st hI.taken
  obtain ⟨-, -, -, htaken, -⟩ := phase1_spec ix chunks b path text st hI.taken
  refine ⟨htaken, ?_, ?_, ?_⟩
  · rw [hrem, fileReport_handled, hI.remaining, sentKeys_concat, unmatched_concat]
  · rw [htab]
    exact persistAll_covered ix.scan b _ _ _ hI.covered
  · rw [htab, fileReport_activeIn, hI.fresh, filesFor_concat]
    by_cases hb : b = b₀
    · subst hb
      have happ : itemsOf ix (filesFor R b ++ [(path, text)]) =
          itemsOf ix (filesFor R b) ++ itemsOf ix [(path, text)] := by simp [itemsOf]
      rw [if_pos (beq_self_eq_true b), if_pos rfl, fileReport_fresh ix path text hI.covered, happ,
        List.countP_append]
      push_cast
      omega
    · rw [if_neg (by simpa using hb), if_neg hb, List.append_nil, Int.add_zero]

end SnapshotInv

namespace CountInv

variable {ix} {db : IndexDb} {R : Deliveries} {chunks : SeqTable Chunk} {st : LoopState}

theorem start (db : IndexDb) : CountInv ix db [] db.chunks .start where
  net := by simp [LoopState.net, LoopState.start]
  files := rfl
  others := fun _ _ => rfl
  kept := fun _ _ _ => rfl
  unread := fun _ => ⟨rfl, rfl, rfl⟩
  first := by intro b h; cases h

/-- The snapshot is there when the file is inserted. -/
theorem snapshot (hI : CountInv ix db R chunks st) (b : Int) :
    SnapshotInv ix db R chunks (phase0 ix chunks b st) ((firstBuffer R).getD b) := by
  cases hf : firstBuffer R with
  | none =>
    obtain ⟨hs, hc, -⟩ := hI.unread hf
    have hR : R = [] := by
      unfold firstBuffer at hf
      rwa [Option.map_eq_none_iff, List.head?_eq_none_iff] at hf
    subst hc hR
    exact .start st b hs
  | some b₀ =>
    have h := hI.first b₀ hf
    have hp : phase0 ix chunks b st = st := by
      unfold phase0
      rw [h.taken]
    rw [hp]
    exact h

theorem file (hI : CountInv ix db R chunks st) (b : Int) (path text : String) :
    CountInv ix db (R ++ [(b, path, text)])
      (phase1 ix chunks b path text (phase0 ix chunks b st)).1
      (phase1 ix chunks b path text (phase0 ix chunks b st)).2 := by
  have hsnap := hI.snapshot b
  obtain ⟨hnet₀, hfiles₀⟩ := phase0_net ix chunks st b
  obtain ⟨htab, hnet, hfiles, -⟩ := phase1_report ix chunks b path text _ hsnap.taken
  refine ⟨?_, ?_, ?_, ?_, ?_, ?_⟩
  · rw [htab, hnet, hnet₀, fileReport_activeIn, if_pos rfl, hI.net, Int.add_assoc]
  · rw [hfiles, hfiles₀, hI.files, sentFiles_concat, List.length_append]
    split <;> rfl
  · intro q hq
    rw [sentFiles_concat] at hq
    rw [htab, ← hI.others q fun x hx => hq x (List.mem_append_left _ hx)]
    by_cases hc : (ix.chunksOf path text).isEmpty = true
    · rw [fileReport, itemsOf_singleton, List.isEmpty_iff.mp hc]
      rfl
    · have hqb : q b = false := hq (b, path, text) (by simp [hc])
      have hsame := fileReport_activeIn ix chunks b
        (snapshotActiveChunks ix.scan db.chunks ((firstBuffer R).getD b)) path text q
      rw [hqb, if_neg Bool.false_ne_true, Int.add_zero] at hsame
      exact Int.ofNat.inj hsame
  · intro b' k hk
    rw [sentKeys_concat, List.mem_append, not_or] at hk
    rw [htab, ← hI.kept b' k hk.1]
    exact persistAll_other ix.scan b _ _ _ fun _ => hk.2
  · intro h
    rw [firstBuffer_concat] at h
    cases h
  · intro b' h
    rw [firstBuffer_concat, Option.some.injEq] at h
    subst h
    exact hsnap.file b path text

end CountInv

/-! ## Buffers -/

theorem get?_insert (t : SeqTable Buffer) (r : Buffer) (b : Int) :
    (t.insert r).get? b = if b = t.seq + 1 then some r else t.get? b := by
  split
  · rename_i hb
    exact Table.get?_eq_some.mpr (SeqTable.mem_insert.mpr (.inr ⟨hb, rfl⟩))
  · rename_i hb
    cases h : t.get? b with
    | some s =>
      exact Table.get?_eq_some.mpr (SeqTable.mem_insert.mpr (.inl (Table.get?_eq_some.mp h)))
    | none =>
      refine Table.get?_eq_none.mpr fun s hs => ?_
      rcases SeqTable.mem_insert.mp hs with hs | ⟨he, -⟩
      · exact Table.get?_eq_none.mp h s hs
      · exact hb he

/-- A new buffer starts with nothing. -/
theorem countsOf_ensureProject (t : SeqTable Buffer) (project root : String) (b : Int) :
    countsOf (ensureProject t project root).1 b = countsOf t b := by
  unfold ensureProject
  dsimp only
  split
  · rfl
  · unfold countsOf
    rw [get?_insert]
    split
    · rename_i hb
      have hnone : t.get? b = none := by
        refine Table.get?_eq_none.mpr fun r hr => ?_
        have := t.le_seq (b, r) hr
        dsimp only at this
        omega
      rw [hnone]
      rfl
    · rfl

theorem countsOf_increment {t : SeqTable Buffer} {b : Int} {r : Buffer} (hr : (b, r) ∈ t.rows)
    (dc df : Int) (b' : Int) : countsOf (incrementBufferCounts t b dc df) b' =
      if b' = b then ((countsOf t b').1 + dc, (countsOf t b').2 + df) else countsOf t b' := by
  have hget := Table.get?_update t.toTable (fun i _ => i == b) (fun _ r => { r with
    totalChunks := r.totalChunks + dc, totalFiles := r.totalFiles + df }) b'
  have hget : (incrementBufferCounts t b dc df).get? b' = _ := hget
  unfold countsOf
  rw [hget]
  by_cases hb : b' = b
  · subst hb
    rw [Table.get?_eq_some.mpr hr, if_pos rfl]
    simp
  · rw [if_neg hb]
    cases t.get? b' with
    | none => rfl
    | some s => simp [hb]

theorem ensureProject_row (t : SeqTable Buffer) (project root : String) :
    ∃ r, (projectId t project, r) ∈ (ensureProject t project root).1.rows := by
  have h := ensureProject_id t project root
  have hsel : (ensureProject t project root).2 =
      ((ensureProject t project root).1.select fun _ r => r.name == project).head?.map
        Prod.fst := rfl
  rw [hsel, Option.map_eq_some_iff] at h
  obtain ⟨⟨i, r⟩, hx, hi⟩ := h
  dsimp only at hi
  subst hi
  exact ⟨r, (Table.mem_select.mp (List.mem_of_head? hx)).1⟩

/-! ## The loop -/

theorem phase1_route (chunks : SeqTable Chunk) (b : Int) (path text : String) (st : LoopState) :
    (phase1 ix chunks b path text (phase0 ix chunks b st)).2.project = st.project ∧
      (phase1 ix chunks b path text (phase0 ix chunks b st)).2.bufferId = st.bufferId := by
  have h0 : (phase0 ix chunks b st).project = st.project ∧
      (phase0 ix chunks b st).bufferId = st.bufferId := by
    unfold phase0
    split <;> exact ⟨rfl, rfl⟩
  unfold phase1
  dsimp only
  split <;> exact h0

theorem RouteInv.start (db : IndexDb) : RouteInv db [] db .start where
  route := rfl
  project := rfl
  buffer := rfl
  row := by intro b h; cases h
  counts := fun _ => rfl

variable {ix} in
theorem RouteInv.step {db d d' : IndexDb} {msgs : List IndexMsg} {st st' : LoopState}
    {m : IndexMsg} (hI : RouteInv db msgs d st) (h : stepMsg ix d st m = .ok (d', st')) :
    RouteInv db (msgs ++ [m]) d' st' := by
  rcases stepMsg_cases h with ⟨project, root, rfl, rfl, rfl⟩ | ⟨path, text, b, rfl, hb, rfl, rfl⟩ |
    ⟨rfl, rfl, rfl⟩
  · refine ⟨?_, ?_, ?_, ?_, ?_⟩
    · rw [routeAfter_concat, ← hI.route]
      rfl
    · rw [lastInit_concat]
    · simp only [Option.map_some, projectId_ensureProject]
    · intro b hb
      rw [Option.some.injEq] at hb
      subst hb
      exact ensureProject_row d.buffers project root
    · intro b
      exact (countsOf_ensureProject ..).trans (hI.counts b)
  · obtain ⟨hp, hbuf⟩ := phase1_route ix d.chunks b path text st
    refine ⟨?_, ?_, ?_, ?_, hI.counts⟩
    · rw [routeAfter_concat, ← hI.route, hbuf]
      rfl
    · rw [lastInit_concat, hp]
      exact hI.project
    · rw [hbuf, hp]
      exact hI.buffer
    · rw [hbuf]
      exact hI.row
  · refine ⟨?_, ?_, hI.buffer, hI.row, hI.counts⟩
    · rw [routeAfter_concat]
      exact hI.route
    · rw [lastInit_concat]
      exact hI.project

theorem loopInv {db d : IndexDb} {msgs : List IndexMsg} {st : LoopState}
    (h : runLoop ix db .start msgs = (d, .ok st)) :
    RouteInv db msgs d st ∧ CountInv ix db (routed (db.buffers, none) msgs) d.chunks st := by
  refine runLoop_inv ix (P := fun msgs d st => RouteInv db msgs d st ∧
    CountInv ix db (routed (db.buffers, none) msgs) d.chunks st) ⟨.start db, .start db⟩ ?_ h
  rintro msgs d st m d' st' - ⟨hR, hC⟩ hm
  refine ⟨hR.step hm, ?_⟩
  rw [routed_concat, ← hR.route]
  rcases stepMsg_cases hm with ⟨project, root, rfl, rfl, rfl⟩ | ⟨path, text, b, rfl, hb, rfl, rfl⟩ |
    ⟨rfl, rfl, rfl⟩
  · rw [show delivered (d.buffers, st.bufferId) (.init project root) = [] from rfl,
      List.append_nil]
    exact ⟨hC.net, hC.files, hC.others, hC.kept, hC.unread, fun b hb =>
      ⟨(hC.first b hb).taken, (hC.first b hb).remaining, (hC.first b hb).covered,
        (hC.first b hb).fresh⟩⟩
  · rw [show delivered (d.buffers, st.bufferId) (.file path (some text)) = [(b, path, text)] by
      rw [delivered, hb]; rfl]
    exact hC.file b path text
  · rw [show delivered (d'.buffers, st'.bufferId) .empty = [] from rfl, List.append_nil]
    exact hC

end Arags
