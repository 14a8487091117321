import Arags.Index.Reindex
import Mathlib.Data.Fintype.Pi
import Mathlib.Logic.Function.Iterate

/-!
# Arags.Index.Streams

Several index streams on one server. The handlers share the database and nothing else; each has a
loop of its own, and between two of its storage accesses any other may go.

* `StreamRun.next` — the next step of a stream: the snapshot before its first `File`, a message,
  or the end.
* `next_alone`     — a stream that nothing interrupts is `indexStreamLoop`.
* `Service.step`   — the next step of one of `k` streams.
* `Partition`      — the files of a project, shared out among `k` streams; `partitionFiles` is how
  the client does it.
-/

namespace Arags

open Sql

/-- What a stream has still to read, its loop, and its answer. -/
structure StreamRun where
  todo : List IndexMsg
  st : LoopState
  response : Option (Except String IndexResponse)

def StreamRun.start (msgs : List IndexMsg) : StreamRun := ⟨msgs, .start, none⟩

/-- The buffer whose snapshot is the next thing the stream takes. -/
def StreamRun.snapshotDue (r : StreamRun) : Option Int :=
  match r.response, r.todo, r.st.snapshot with
  | none, .file _ _ :: _, none => r.st.bufferId
  | _, _, _ => none

/-- The file that the next step of the stream inserts. -/
def StreamRun.delivery (r : StreamRun) : List (String × String) :=
  match r.response, r.todo, r.st.snapshot with
  | none, .file path (some text) :: _, some _ => [(path, text)]
  | _, _, _ => []

variable (ix : Indexer)

def StreamRun.next (db : IndexDb) (r : StreamRun) : IndexDb × StreamRun :=
  match r.response, r.todo with
  | some _, _ => (db, r)
  | none, [] =>
    let e := finish db r.st
    (e.1, { r with response := some e.2 })
  | none, m :: ms =>
    match r.snapshotDue with
    | some b => (db, { r with st := phase0 ix db.chunks b r.st })
    | none =>
      match stepMsg ix db r.st m with
      | .ok (db', st') => (db', { r with todo := ms, st := st' })
      | .error e => (db, { r with response := some (.error e) })

/-! ## One stream -/

section Alone

variable {ix}

theorem next_end (db : IndexDb) (st : LoopState) :
    StreamRun.next ix db ⟨[], st, none⟩ = ((finish db st).1, ⟨[], st, some (finish db st).2⟩) := rfl

theorem next_ok {db db' : IndexDb} {st st' : LoopState} {m : IndexMsg} {ms : List IndexMsg}
    (hd : StreamRun.snapshotDue ⟨m :: ms, st, none⟩ = none)
    (hm : stepMsg ix db st m = .ok (db', st')) :
    StreamRun.next ix db ⟨m :: ms, st, none⟩ = (db', ⟨ms, st', none⟩) := by
  simp only [StreamRun.next, hd, hm]

theorem next_error {db : IndexDb} {st : LoopState} {m : IndexMsg} {ms : List IndexMsg} {e : String}
    (hd : StreamRun.snapshotDue ⟨m :: ms, st, none⟩ = none) (hm : stepMsg ix db st m = .error e) :
    StreamRun.next ix db ⟨m :: ms, st, none⟩ = (db, ⟨m :: ms, st, some (.error e)⟩) := by
  simp only [StreamRun.next, hd, hm]

theorem next_snapshot {db : IndexDb} {st : LoopState} {m : IndexMsg} {ms : List IndexMsg} {b : Int}
    (hd : StreamRun.snapshotDue ⟨m :: ms, st, none⟩ = some b) :
    StreamRun.next ix db ⟨m :: ms, st, none⟩ =
      (db, ⟨m :: ms, phase0 ix db.chunks b st, none⟩) := by
  simp only [StreamRun.next, hd]

/-- The snapshot of its own changes nothing for the message that follows. -/
theorem stepMsg_phase0 {db : IndexDb} {st : LoopState} {m : IndexMsg} {ms : List IndexMsg} {b : Int}
    (hd : StreamRun.snapshotDue ⟨m :: ms, st, none⟩ = some b) :
    stepMsg ix db (phase0 ix db.chunks b st) m = stepMsg ix db st m := by
  cases m with
  | file path content =>
    have hsnap : st.snapshot = none := by
      cases hs : st.snapshot with
      | none => rfl
      | some snap => simp [StreamRun.snapshotDue, hs] at hd
    have hb : st.bufferId = some b := by simpa [StreamRun.snapshotDue, hsnap] using hd
    have hp : phase0 ix db.chunks b (phase0 ix db.chunks b st) = phase0 ix db.chunks b st := by
      simp only [phase0, hsnap]
    have hpb : (phase0 ix db.chunks b st).bufferId = some b := by simp only [phase0, hsnap, hb]
    simp only [stepMsg, hpb, hb, hp]
  | init _ _ | empty | error _ => simp [StreamRun.snapshotDue] at hd

theorem snapshotDue_phase0 {chunks : SeqTable Chunk} {st : LoopState} {ms : List IndexMsg}
    {b : Int} : StreamRun.snapshotDue ⟨ms, phase0 ix chunks b st, none⟩ = none := by
  unfold StreamRun.snapshotDue phase0
  cases hs : st.snapshot <;> split <;> simp_all

/-- What is left of a stream, without interruption, is what is left of the handler. -/
theorem next_alone (msgs : List IndexMsg) (db : IndexDb) (st : LoopState) :
    ∃ n r, (fun x : IndexDb × StreamRun => StreamRun.next ix x.1 x.2)^[n] (db, ⟨msgs, st, none⟩) =
        ((match runLoop ix db st msgs with
          | (db', .ok st') => finish db' st'
          | (db', .error e) => (db', .error e)).1, r) ∧
      r.response = some (match runLoop ix db st msgs with
        | (db', .ok st') => finish db' st'
        | (db', .error e) => (db', .error e)).2 := by
  induction msgs generalizing db st with
  | nil => exact ⟨1, _, rfl, rfl⟩
  | cons m ms ih =>
    -- after the snapshot, if it is due, the message is handled
    have hmsg : ∀ st₀, StreamRun.snapshotDue ⟨m :: ms, st₀, none⟩ = none →
        stepMsg ix db st₀ m = stepMsg ix db st m →
        ∃ n r, (fun x : IndexDb × StreamRun => StreamRun.next ix x.1 x.2)^[n]
            (db, ⟨m :: ms, st₀, none⟩) = ((match runLoop ix db st (m :: ms) with
              | (db', .ok st') => finish db' st'
              | (db', .error e) => (db', .error e)).1, r) ∧
          r.response = some (match runLoop ix db st (m :: ms) with
            | (db', .ok st') => finish db' st'
            | (db', .error e) => (db', .error e)).2 := by
      intro st₀ hd he
      rw [runLoop]
      cases hs : stepMsg ix db st m with
      | error e =>
        rw [hs] at he
        exact ⟨1, _, next_error hd he, rfl⟩
      | ok x =>
        obtain ⟨db', st'⟩ := x
        rw [hs] at he
        obtain ⟨n, r, hn, hr⟩ := ih db' st'
        refine ⟨n + 1, r, ?_, hr⟩
        rw [Function.iterate_succ_apply, next_ok hd he]
        exact hn
    cases hd : StreamRun.snapshotDue ⟨m :: ms, st, none⟩ with
    | none => exact hmsg st hd rfl
    | some b =>
      obtain ⟨n, r, hn, hr⟩ := hmsg (phase0 ix db.chunks b st) snapshotDue_phase0
        (stepMsg_phase0 hd)
      refine ⟨n + 1, r, ?_, hr⟩
      rw [Function.iterate_succ_apply, next_snapshot hd]
      exact hn

/-- A stream that nothing interrupts is `indexStreamLoop`. -/
theorem start_alone (msgs : List IndexMsg) (db : IndexDb) :
    ∃ n r, (fun x : IndexDb × StreamRun => StreamRun.next ix x.1 x.2)^[n] (db, .start msgs) =
        ((indexStreamLoop ix db msgs).1, r) ∧
      r.response = some (indexStreamLoop ix db msgs).2 := next_alone msgs db .start

end Alone

/-! ## Several streams -/

structure Service (k : Nat) where
  db : IndexDb
  runs : Fin k → StreamRun

def Service.step {k : Nat} (s : Service k) (i : Fin k) : Service k :=
  let x := (s.runs i).next ix s.db
  ⟨x.1, Function.update s.runs i x.2⟩

/-- Paths and texts that `k` streams deliver, no path twice. -/
structure Partition (k : Nat) where
  files : Fin k → List (String × String)
  nodup : ∀ i, ((files i).map Prod.fst).Nodup
  disjoint : ∀ {i j}, ∀ f ∈ files i, ∀ g ∈ files j, f.1 = g.1 → i = j

def Partition.union {k : Nat} (p : Partition k) : List (String × String) :=
  (List.finRange k).flatMap p.files

theorem Partition.mem_union {k : Nat} {p : Partition k} {f : String × String} :
    f ∈ p.union ↔ ∃ i, f ∈ p.files i := by
  simp [Partition.union]

theorem Partition.union_nodup {k : Nat} (p : Partition k) : (p.union.map Prod.fst).Nodup := by
  rw [Partition.union, List.map_flatMap, List.nodup_flatMap]
  refine ⟨fun i _ => p.nodup i, (List.nodup_finRange k).imp ?_⟩
  intro i j hij path hi hj
  obtain ⟨f, hf, rfl⟩ := List.mem_map.mp hi
  obtain ⟨g, hg, he⟩ := List.mem_map.mp hj
  exact hij (p.disjoint f hf g hg he.symm)

/-- The streams of one project, none of them read from yet. -/
def Service.start {k : Nat} (db : IndexDb) (project root : String) (p : Partition k) : Service k :=
  ⟨db, fun i => .start (streamOf project root (p.files i))⟩

/-! ## The groups of a client -/

/-- File `i` goes to group `i % n`; groups without files are dropped. -/
def partitionFiles {α : Type} (files : List α) (n : Nat) : List (List α) :=
  let n := min (max n 1) (max files.length 1)
  ((List.range n).map fun g => (files.zipIdx.filter fun x => x.2 % n == g).map Prod.fst).filter
    fun g => !g.isEmpty

section Groups

variable {α : Type} {files : List α} {n : Nat}

theorem mem_partitionFiles {group : List α} (h : group ∈ partitionFiles files n) :
    ∃ m g, group = (files.zipIdx.filter fun x => x.2 % m == g).map Prod.fst := by
  obtain ⟨g, -, hg⟩ := List.mem_map.mp (List.mem_filter.mp h).1
  exact ⟨_, g, hg.symm⟩

theorem partitionFiles_sublist {group : List α} (h : group ∈ partitionFiles files n) :
    group.Sublist files := by
  obtain ⟨m, g, rfl⟩ := mem_partitionFiles h
  have hs : ((files.zipIdx.filter fun x => x.2 % m == g).map Prod.fst).Sublist
      (files.zipIdx.map Prod.fst) := List.filter_sublist.map _
  rwa [List.zipIdx_map_fst] at hs

theorem mem_flatten_partitionFiles {f : α} :
    f ∈ (partitionFiles files n).flatten ↔ f ∈ files := by
  constructor
  · intro h
    obtain ⟨group, hg, hf⟩ := List.mem_flatten.mp h
    exact (partitionFiles_sublist hg).subset hf
  · intro hf
    obtain ⟨i, hi, rfl⟩ := List.getElem_of_mem hf
    unfold partitionFiles
    set m := min (max n 1) (max files.length 1)
    have hm : 0 < m := by omega
    have hmem : files[i] ∈ (files.zipIdx.filter fun x => x.2 % m == i % m).map Prod.fst :=
      List.mem_map.mpr ⟨(files[i], i), List.mem_filter.mpr
        ⟨List.mem_zipIdx_iff_getElem?.mpr (List.getElem?_eq_getElem hi), by simp⟩, rfl⟩
    refine List.mem_flatten.mpr ⟨_, List.mem_filter.mpr ⟨List.mem_map.mpr
      ⟨i % m, List.mem_range.mpr (Nat.mod_lt i hm), rfl⟩, ?_⟩, hmem⟩
    simpa using List.ne_nil_of_mem hmem

/-- Two groups have nothing in common. -/
theorem partitionFiles_pairwise (h : files.Nodup) :
    (partitionFiles files n).Pairwise fun l l' => ∀ f ∈ l, f ∉ l' := by
  unfold partitionFiles
  refine List.Pairwise.filter _ ?_
  rw [List.pairwise_map]
  refine List.nodup_range.imp ?_
  intro a c hac f hf hg
  obtain ⟨⟨f, i⟩, hi, rfl⟩ := List.mem_map.mp hf
  obtain ⟨⟨g, j⟩, hj, rfl⟩ := List.mem_map.mp hg
  obtain ⟨hi, hia⟩ := List.mem_filter.mp hi
  obtain ⟨hj, hjc⟩ := List.mem_filter.mp hj
  rw [List.mem_zipIdx_iff_getElem?] at hi hj
  have hij : i = j :=
    (List.getElem?_inj (List.getElem?_eq_some_iff.mp hi).1 h).mp (hi.trans hj.symm)
  rw [beq_iff_eq] at hia hjc
  exact hac (by rw [← hia, ← hjc, hij])

/-- What a group of paths is uploaded as: files that cannot be read are skipped. -/
def uploads (read : String → Option String) (paths : List String) : List (String × String) :=
  paths.filterMap fun path => (read path).map fun text => (path, text)

theorem mem_uploads {read : String → Option String} {paths : List String} {f : String × String} :
    f ∈ uploads read paths ↔ f.1 ∈ paths ∧ read f.1 = some f.2 := by
  unfold uploads
  rw [List.mem_filterMap]
  constructor
  · rintro ⟨path, hp, he⟩
    obtain ⟨text, ht, rfl⟩ := Option.map_eq_some_iff.mp he
    exact ⟨hp, ht⟩
  · rintro ⟨hp, hr⟩
    exact ⟨f.1, hp, by rw [hr]; rfl⟩

theorem uploads_sublist (read : String → Option String) (paths : List String) :
    ((uploads read paths).map Prod.fst).Sublist paths := by
  unfold uploads
  induction paths with
  | nil => exact .slnil
  | cons path paths ih =>
    rw [List.filterMap_cons]
    cases read path with
    | none => exact ih.cons path
    | some text => exact ih.cons_cons path

/-- The streams of `run_index` over the files that were found. -/
def Partition.ofPaths (read : String → Option String) (paths : List String) (n : Nat)
    (h : paths.Nodup) : Partition (partitionFiles paths n).length where
  files i := uploads read ((partitionFiles paths n).get i)
  nodup i := (h.sublist (partitionFiles_sublist (List.get_mem _ i))).sublist (uploads_sublist _ _)
  disjoint := by
    intro i j f hf g hg he
    have hpw := List.pairwise_iff_get.mp (partitionFiles_pairwise (n := n) h)
    have hf := (mem_uploads.mp hf).1
    have hg := (mem_uploads.mp hg).1
    rcases Decidable.em (i = j) with hij | hij
    · exact hij
    · rcases Fin.lt_or_lt_of_ne hij with hlt | hlt
      · exact absurd (he ▸ hg) (hpw i j hlt f.1 hf)
      · exact absurd (he ▸ hf) (hpw j i hlt g.1 hg)

theorem Partition.mem_union_ofPaths {read : String → Option String} {paths : List String} {n : Nat}
    {h : paths.Nodup} {f : String × String} :
    f ∈ (Partition.ofPaths read paths n h).union ↔ f ∈ uploads read paths := by
  rw [Partition.mem_union, mem_uploads, ← mem_flatten_partitionFiles (n := n), List.mem_flatten]
  constructor
  · rintro ⟨i, hi⟩
    obtain ⟨hf, hr⟩ := mem_uploads.mp hi
    exact ⟨⟨_, List.get_mem _ i, hf⟩, hr⟩
  · rintro ⟨⟨group, hg, hf⟩, hr⟩
    obtain ⟨i, rfl⟩ := List.get_of_mem hg
    exact ⟨i, mem_uploads.mpr ⟨hf, hr⟩⟩

end Groups

end Arags
