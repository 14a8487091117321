import Arags.Explore.Operations
import Arags.Index.Reindex
import Arags.Index.VectorCoverage

/-!
# Arags.Explore.AnchorStaleness

What the staleness hook and the read-time recheck make of the anchors of a map, in every state a
server reaches.

* `Founded`  — each anchor is carried by some row of the index, of whatever version.
* `stepMaps_founded` — every operation keeps it: no stream removes a row.
* `markStale_founded` — the hook, which looks at all versions, then marks nothing.
* `anchor_staleness` — for which maps that is right.
-/

namespace Arags

open Sql

/-! ## The property -/

def ExplorationAnchor.carriedBy (a : ExplorationAnchor) (r : Chunk) : Bool :=
  r.bufferId == a.bufferId && r.filePath == a.path &&
    (hexEncode r.hash).toList == a.contentHash.toList.map Char.toLower

/-- Some active chunk of the anchored file has the recorded hash. -/
def ExplorationAnchor.current (chunks : SeqTable Chunk) (a : ExplorationAnchor) : Bool :=
  chunks.rows.any fun x => x.2.isActive && a.carriedBy x.2

def citedAnchors (db : ExplorationDb) (id : Int) : List ExplorationAnchor :=
  (db.explorationFiles.filter fun f => f.1 == id && f.2.role == .cited).map Prod.snd

def recheckAnchorsForRowid (chunks : SeqTable Chunk) (db : ExplorationDb) (id : Int) :
    List String :=
  (db.explorationFiles.filter fun f => f.1 == id && f.2.broken chunks).map fun f => f.2.path

/-- The status a map is shown with: `stale` when the recheck finds a broken anchor. -/
def recheckedStatus (chunks : SeqTable Chunk) (db : ExplorationDb) (id : Int)
    (row : ExplorationRow) : MapStatus :=
  if (recheckAnchorsForRowid chunks db id).isEmpty then row.status else .stale

structure AnchorsExact (chunks : SeqTable Chunk) (db : ExplorationDb) (project : String)
    (now id : Int) (row : ExplorationRow) : Prop where
  marked : ∀ row',
    (markStaleIfAnchorsChanged chunks db project now).1.explorations.get? id = some row' →
    (row'.status = .stale ↔
      row.status = .stale ∨ ∃ a ∈ citedAnchors db id, a.current chunks = false)
  rechecked : row.status = .stale → recheckedStatus chunks db id row = .fresh →
    ∀ a ∈ citedAnchors db id, a.current chunks = true

/-! ## Streams keep the rows -/

section Streams

variable {ix : Indexer}

theorem Later.row {t t' : SeqTable Chunk} (h : Later t t') {x : Int × Chunk} (hx : x ∈ t.rows) :
    ∃ r, (x.1, r) ∈ t'.rows ∧ r.bufferId = x.2.bufferId ∧ r.key = x.2.key ∧ r.hash = x.2.hash := by
  obtain ⟨r, hr⟩ := h.kept x hx
  obtain ⟨r₀, hr₀, hb, hk, hh, -⟩ := h.old _ hr (t.le_seq x hx)
  have he : x.2 = r₀ := Table.eq_of_mem hx hr₀
  exact ⟨r, hr, he ▸ hb, he ▸ hk, he ▸ hh⟩

/-- What the insert of a chunk and the retirement of rows keep. -/
structure KeptByStreams (P : SeqTable Chunk → Prop) : Prop where
  persisted : ∀ {t t' res res' b path c known}, Persisted t t' res res' b path c known → P t → P t'
  retired : ∀ {t} ids, P t → P (retireAll t ids)

namespace KeptByStreams

variable {P : SeqTable Chunk → Prop} (hP : KeptByStreams P)
include hP

theorem persistAll (scan : ScanOrder Chunk) (b : Int) (active : Snapshot)
    (items : List (String × IndexedChunk)) (acc : SeqTable Chunk × BatchedInsert) (h : P acc.1) :
    P (persistAll scan b active acc items).1 := by
  induction items generalizing acc with
  | nil => exact h
  | cons item items ih =>
    exact ih _ (hP.persisted
      (persistChunk_persisted scan b active acc.1 acc.2 item.1 item.2) h)

theorem stepMsg {db db' : IndexDb} {st st' : LoopState} {m : IndexMsg}
    (hm : stepMsg ix db st m = .ok (db', st')) (h : P db.chunks) : P db'.chunks := by
  rcases stepMsg_cases hm with ⟨_, _, -, rfl, -⟩ | ⟨path, text, b, -, -, rfl, -⟩ | ⟨-, rfl, -⟩
  · exact h
  · dsimp only
    rw [phase1_fileInsert]
    unfold fileInsert
    rw [insertChunksBatched_eq]
    exact hP.persistAll ix.scan b _ _ (db.chunks, .empty) h
  · exact h

theorem runLoop {db : IndexDb} {st : LoopState} {msgs : List IndexMsg} (h : P db.chunks) :
    P (runLoop ix db st msgs).1.chunks := by
  induction msgs generalizing db st with
  | nil => exact h
  | cons m msgs ih =>
    unfold Arags.runLoop
    cases hm : Arags.stepMsg ix db st m with
    | error e => exact h
    | ok x => exact ih (hP.stepMsg hm h)

theorem indexStreamLoop (db : IndexDb) (msgs : List IndexMsg) (h : P db.chunks) :
    P (indexStreamLoop ix db msgs).1.chunks := by
  have hrun : P (Arags.runLoop ix db .start msgs).1.chunks := hP.runLoop h
  unfold Arags.indexStreamLoop
  generalize Arags.runLoop ix db .start msgs = r at hrun ⊢
  obtain ⟨d, e | st⟩ := r
  · exact hrun
  · dsimp only
    rw [finish_chunks, orphanPass_retireAll]
    exact hP.retired _ hrun

end KeptByStreams

theorem indexStreamLoop_later (db : IndexDb) (msgs : List IndexMsg) :
    Later db.chunks (indexStreamLoop ix db msgs).1.chunks := by
  have hkept : KeptByStreams (Later db.chunks) := {
    persisted := fun hp h => h.trans hp.stays.later
    retired := fun ids h => h.trans (retireAll_later _ ids) }
  exact hkept.indexStreamLoop db msgs (.refl _)

theorem broken_later {t t' : SeqTable Chunk} (h : Later t t') {a : ExplorationAnchor}
    (ha : a.broken t = false) : a.broken t' = false := by
  unfold ExplorationAnchor.broken at ha ⊢
  cases hr : a.role == .cited with
  | false => rfl
  | true =>
    rw [hr, Bool.true_and, Bool.not_eq_false', List.any_eq_true] at ha
    obtain ⟨x, hx, hc⟩ := ha
    obtain ⟨r, hr, hb, hk, hh⟩ := h.row hx
    rw [Bool.true_and, Bool.not_eq_false', List.any_eq_true]
    have hpath : r.filePath = x.2.filePath := congrArg Prod.fst hk
    exact ⟨_, hr, by simpa only [hb, hpath, hh] using hc⟩

end Streams

/-! ## Every anchor is founded -/

section Founded

variable {ε : Type}

def Founded (s : MapServer ε) : Prop :=
  ∀ f ∈ s.maps.explorationFiles, f.2.broken s.index.chunks = false

theorem hexDigit_toLower (n : Nat) : (hexDigit n).toLower = hexDigit n := by
  by_cases h : n < 16
  · have hall : ∀ k : Fin 16, (hexDigit k).toLower = hexDigit k := by decide
    exact hall ⟨n, h⟩
  · have hdefault : hexDigit n = '0' := by
      unfold hexDigit
      rw [List.getD_eq_getElem?_getD, List.getElem?_eq_none (by simpa using h)]
      rfl
    rw [hdefault]
    rfl

theorem hexEncode_toLower (bytes : List UInt8) :
    (hexEncode bytes).toList.map Char.toLower = (hexEncode bytes).toList := by
  unfold hexEncode
  rw [String.toList_ofList]
  induction bytes with
  | nil => rfl
  | cons b bytes ih =>
    simp only [List.flatMap_cons, List.map_append, ih, List.map_cons, List.map_nil,
      hexDigit_toLower]

/-- An anchor takes its hash from a row. -/
theorem resolveAnchors_founded {scan : ScanOrder Chunk} {chunks : SeqTable Chunk} {b : Int}
    {files : List String} : ∀ a ∈ (resolveAnchors scan chunks b files).1,
      a.broken chunks = false := by
  intro a ha
  obtain ⟨x, hx, hxa⟩ := List.mem_filterMap.mp ha
  obtain ⟨path, -, rfl⟩ := List.mem_map.mp hx
  dsimp only at hxa
  obtain ⟨h, hh, rfl⟩ := Option.map_eq_some_iff.mp hxa
  obtain ⟨y, hy, rfl⟩ := Option.map_eq_some_iff.mp hh
  obtain ⟨hm, hp⟩ := Table.mem_select.mp (scan.mem_order.mp (List.mem_of_head? hy))
  unfold ExplorationAnchor.broken
  rw [Bool.and_eq_false_iff, Bool.not_eq_false', List.any_eq_true]
  refine .inr ⟨y, hm, ?_⟩
  dsimp only
  rw [hexEncode_toLower, beq_self_eq_true, Bool.and_true]
  exact hp

theorem start_founded : Founded (MapServer.empty : MapServer ε) := by
  intro f hf
  cases hf

theorem Founded.of_files {s s' : MapServer ε} (h : Founded s)
    (hf : ∀ f ∈ s'.maps.explorationFiles, f ∈ s.maps.explorationFiles)
    (hi : s'.index = s.index) : Founded s' := by
  intro f hm
  rw [hi]
  exact h f (hf f hm)

/-- A persist adds the anchors it has resolved. -/
theorem persist_files {scan : ScanOrder ExplorationRow} {chunkScan : ScanOrder Chunk}
    {enabled : Bool} {index : IndexDb} {db maps : ExplorationDb} {req : PersistExplorationRequest}
    {username : String} {gate : ReviewGate} {explorationId : String} {now id : Int}
    {out : String × List String}
    (h : handlePersistExploration scan chunkScan enabled index db req username gate explorationId
      now = (maps, .ok (id, out))) :
    ∃ b, maps.explorationFiles = db.explorationFiles ++
      (resolveAnchors chunkScan index.chunks b req.files).1.map fun a => (id, a) := by
  obtain ⟨e, he⟩ | ⟨b, _, stored, _, -, hp, he⟩ := handlePersistExploration_cases scan chunkScan
    enabled index db req username gate explorationId now
  · rw [he] at h
    cases h
  · rw [he] at h
    cases h
    have hfiles := (persistExploration_ok hp).files
    exact ⟨b, by split <;> exact hfiles⟩

@[simp] theorem explorationHook_files (chunks : SeqTable Chunk) (db : ExplorationDb)
    (project : String) (now : Int) :
    (explorationHook chunks db project now).explorationFiles = db.explorationFiles := rfl

theorem recordFeedback_files (s : MapServer ε) (explorationId : String) (kind : FeedbackKind)
    (limit now : Int) :
    (recordFeedback s explorationId kind limit now).maps.explorationFiles =
        s.maps.explorationFiles ∧
      (recordFeedback s explorationId kind limit now).index = s.index := by
  constructor
  · exact recordFeedback_keeps s
      (P := fun db => db.explorationFiles = s.maps.explorationFiles) explorationId kind limit now
      rfl (fun _ => rfl) fun _ => rfl
  · unfold recordFeedback
    split
    · rfl
    · cases kind <;> rfl

theorem stepMaps_founded {ix : Indexer} {scan : ScanOrder ExplorationRow} {enabled : Bool}
    {s : MapServer ε} (h : Founded s) (op : MapOp ε) : Founded (stepMaps ix scan enabled s op) := by
  cases op with
  | stream msgs now =>
    have hl : Later s.index.chunks (indexStreamLoop ix s.index msgs).1.chunks :=
      indexStreamLoop_later s.index msgs
    have hkept : ∀ s' : MapServer ε, s'.maps.explorationFiles = s.maps.explorationFiles →
        s'.index = (indexStreamLoop ix s.index msgs).1 → Founded s' := by
      intro s' hf hi f hm
      rw [hi]
      exact broken_later hl (h f (hf ▸ hm))
    unfold stepMaps indexWithMaps
    dsimp only
    split
    · exact hkept _ rfl rfl
    · exact hkept _ rfl rfl
  | persist req username gate explorationId now vector =>
    simp only [stepMaps]
    split
    · rename_i maps id _ _ hp
      obtain ⟨b, hf⟩ := persist_files hp
      intro f hm
      dsimp only at hm ⊢
      rw [hf, List.mem_append] at hm
      rcases hm with hm | hm
      · exact h f hm
      · obtain ⟨a, ha, rfl⟩ := List.mem_map.mp hm
        exact resolveAnchors_founded a ha
    · exact h
  | markStale project now => exact h.of_files (fun _ hm => hm) rfl
  | feedback explorationId kind limit now =>
    obtain ⟨hf, hi⟩ := recordFeedback_files s explorationId kind limit now
    refine h.of_files (fun f hm => ?_) hi
    rw [← hf]
    exact hm
  | invalidate explorationId reason mode now =>
    simp only [stepMaps, handleInvalidateExploration]
    split
    · exact h
    · exact h.of_files (fun _ hm => hm) rfl
    · exact h.of_files (fun _ hm => List.mem_of_mem_filter hm) rfl
  | review explorationId approved now => exact h.of_files (fun _ hm => hm) rfl
  | reconcile id vector =>
    simp only [stepMaps]
    split
    · exact h.of_files (fun _ hm => hm) rfl
    · exact h

/-- Without a broken anchor the hook marks nothing. -/
theorem markStale_founded {chunks : SeqTable Chunk} {db : ExplorationDb}
    (h : ∀ f ∈ db.explorationFiles, f.2.broken chunks = false) (project : String) (now : Int) :
    (markStaleIfAnchorsChanged chunks db project now).1 = db := by
  have hnone : brokenAnchors chunks db project = [] := by
    unfold brokenAnchors
    rw [List.map_eq_nil_iff, List.filter_eq_nil_iff]
    intro f hf
    simp [h f hf]
  have hkeep : ∀ i r, (i, r) ∈ db.explorations.rows →
      (((brokenAnchors chunks db project).map Prod.fst).contains i && r.status == .fresh) = false :=
    fun i r _ => by rw [hnone]; rfl
  unfold markStaleIfAnchorsChanged
  dsimp only
  rw [Table.update_of_none hkeep]

end Founded

/-! ## The result -/

section Result

variable {ε : Type} (ix : Indexer) (scan : ScanOrder ExplorationRow) (enabled : Bool)

theorem run_founded (ops : List (MapOp ε)) :
    Founded (Lts.after (stepMaps ix scan enabled) MapServer.empty ops) :=
  Lts.run_inv (I := fun _ => Founded) start_founded (fun _ _ op hI => stepMaps_founded hI op) ops

/-- The staleness of a map is exact when it is stale already, or all its anchors are current. -/
theorem anchor_staleness (ops : List (MapOp ε)) (project : String) (now id : Int)
    (row : ExplorationRow) :
    let s := Lts.after (stepMaps ix scan enabled) MapServer.empty ops
    (id, row) ∈ s.maps.explorations.rows →
      (AnchorsExact s.index.chunks s.maps project now id row ↔
        (row.status = .stale ∨ ∀ a ∈ citedAnchors s.maps id, a.current s.index.chunks = true)) := by
  intro s hrow
  have hsame : (markStaleIfAnchorsChanged s.index.chunks s.maps project now).1 = s.maps :=
    markStale_founded (run_founded ix scan enabled ops) project now
  have hget : s.maps.explorations.get? id = some row := Table.get?_eq_some.mpr hrow
  constructor
  · intro hex
    have hm := hex.marked row (by rw [hsame]; exact hget)
    by_cases hs : row.status = .stale
    · exact .inl hs
    · refine .inr fun a ha => ?_
      by_contra hc
      exact hs (hm.mpr (.inr ⟨a, ha, Bool.eq_false_iff.mpr hc⟩))
  · intro hcond
    refine ⟨fun row' hr' => ?_, fun hs hf => ?_⟩
    · rw [hsame, hget, Option.some.injEq] at hr'
      subst hr'
      rcases hcond with hs | hall
      · exact iff_of_true hs (.inl hs)
      · refine ⟨.inl, ?_⟩
        rintro (hs | ⟨a, ha, hc⟩)
        · exact hs
        · rw [hall a ha] at hc
          cases hc
    · unfold recheckedStatus at hf
      split at hf
      · rw [hs] at hf
        cases hf
      · cases hf

def sampleMapRequest : PersistExplorationRequest where
  project := "p"
  goal := "where is m"
  summary := "m is a file"
  bodyMarkdown := "# m"
  files := ["m.rs"]
  model := ""

/-- A file is indexed and a map is anchored to it. -/
def anchoredMap : List (MapOp Nat) :=
  [.persist sampleMapRequest "u" .approved "e1" 5 none,
    .stream (streamOf "p" "/p" [("m.rs", "a")]) 3]

/-- The row of the map, and its anchor. -/
def anchoredRow : ExplorationRow :=
  (sampleMapRequest.input 1 [⟨1, "m.rs", hexEncode (sampleSha256 "a"), .cited⟩] "u").row "e1" 1 5

/-- Another file is indexed by a second stream. -/
theorem anchor_staleness_kept :
    let s := Lts.after (stepMaps sampleIndexer .rowid true) MapServer.empty
      (.stream (streamOf "p" "/p" [("m.rs", "a"), ("n.rs", "b")]) 9 :: anchoredMap)
    AnchorsExact s.index.chunks s.maps "p" 10 1 anchoredRow :=
  (anchor_staleness sampleIndexer .rowid true
    (.stream (streamOf "p" "/p" [("m.rs", "a"), ("n.rs", "b")]) 9 :: anchoredMap) "p" 10 1
    anchoredRow (by decide +kernel)).mpr (.inr (by decide +kernel))

/-- The file is edited. The chunk the map cites was active when it was persisted and is retired
now, but its row is still there, and the map stays fresh. -/
theorem anchor_staleness_edited :
    let before := Lts.after (stepMaps sampleIndexer .rowid true) MapServer.empty anchoredMap
    let s := Lts.after (stepMaps sampleIndexer .rowid true) MapServer.empty
      (.stream (streamOf "p" "/p" [("m.rs", "b")]) 9 :: anchoredMap)
    (∀ a ∈ citedAnchors before.maps 1, a.current before.index.chunks = true) ∧
      s.maps.explorations.get? 1 = some anchoredRow ∧
      ¬ AnchorsExact s.index.chunks s.maps "p" 10 1 anchoredRow := by
  intro before s
  have hstate : (∀ a ∈ citedAnchors before.maps 1, a.current before.index.chunks = true) ∧
      s.maps.explorations.get? 1 = some anchoredRow ∧
      (markStaleIfAnchorsChanged s.index.chunks s.maps "p" 10).1.explorations.get? 1 =
        some anchoredRow ∧
      (∃ a ∈ citedAnchors s.maps 1, a.current s.index.chunks = false) ∧
      anchoredRow.status ≠ .stale := by
    decide +kernel
  obtain ⟨hcurrent, hrow, hkept, hgone, hfresh⟩ := hstate
  exact ⟨hcurrent, hrow, fun h => hfresh ((h.marked anchoredRow hkept).mpr (.inr hgone))⟩

end Result

end Arags
