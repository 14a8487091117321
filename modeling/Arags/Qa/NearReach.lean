import Arags.Index.BufferCounts
import Arags.Index.VectorCoverage
import Arags.Qa.DigestPlan
import Arags.Qa.NearHit
import Arags.Search.Hybrid

/-!
# Arags.Qa.NearReach

The answer cache with the search that it really calls, `hybrid_search` of `grpc/search/hybrid.rs`.

* `grpcHybridSearch` — the fused tiers, the retry with any word, the age decay, the rows.
* `ReachDb`, `stepReach` — the chunks and their vectors over whole runs; no row is in buffer `0`.
* `NearHitDue`      — a fresh answer whose sources are what the new question finds.
* `near_reach`      — the sources that the near hit compares it with are always none.
-/

namespace Arags

open Sql

/-- The chunk tables and the vector store, if there is one. -/
structure ReachDb (ε : Type) where
  search : SearchDb
  vectors : Option (VectorStore ε)

structure ReachEnv (ε : Type) extends HybridEnv ε where
  /-- The embedder, in the space of the chunks. -/
  embed : String → Option ε
  chunkAgesHours : List Int → Except String (List (Int × Rat))

/-! ## The search -/

section Search

variable {ε : Type} (env : ReachEnv ε) (s : ReachDb ε)

def F32_EPSILON : Rat := 1 / 2 ^ 23

/-- To `[0, 1]`, the best first. -/
def normalizeScores (results : List SearchResult) : List SearchResult :=
  match results.map SearchResult.score with
  | [] => []
  | score :: scores =>
    let low := scores.foldl min score
    let high := scores.foldl max score
    results.map fun r =>
      { r with score := if high - low < F32_EPSILON then 1 else (r.score - low) / (high - low) }

/-- A chunk without a row is skipped. -/
def buildSearchResults (fused : List (Int × Rat)) : List SearchResult :=
  fused.filterMap fun hit => (s.search.tables.chunks.get? hit.1).map fun c =>
    ⟨hit.1, c.content, hit.2, c.filePath, c.lineStart, c.lineEnd, c.version⟩

def fusedSearch (ftsQuery query : String) (bufferId : Int) (tier : HybridTier) (topK : Nat) :
    List (Int × Rat) :=
  hybridSearch env.toHybridEnv s.search.tables s.vectors query (env.embed ftsQuery) bufferId tier
    (topK * 3) none

/-- `hybrid_search`. -/
def grpcHybridSearch (bufferId : Int) (ftsQuery : String) (tier : HybridTier) (topK : Nat) :
    List SearchResult :=
  let words := Text.splitWhitespace ftsQuery
  let all := fusedSearch env s ftsQuery ftsQuery bufferId tier topK
  let fused := if all.isEmpty && 1 < words.length then
      fusedSearch env s ftsQuery (" OR ".intercalate words) bufferId tier topK
    else all
  let fused := match env.chunkAgesHours (fused.map Prod.fst) with
    | .ok ages => if fused.isEmpty then fused else applyDecay env.toHybridEnv fused ages
    | .error _ => fused
  normalizeScores (buildSearchResults s fused)

/-- The environment of a query, with this search. -/
def ReachDb.queryEnv (query : QueryEnv) : QueryEnv :=
  { query with
    hybridSearch := fun bufferId question k =>
      .ok (grpcHybridSearch env s bufferId (sanitizeQuery env.toHybridEnv question) .vector k) }

end Search

/-! ## Runs -/

inductive ReachOp (ε : Type) where
  | tables (op : SearchTableOp)
  /-- Vectors of chunks of a project, by a stream or by a reconcile pass. -/
  | embed (project : String) (vectors : List (Int × ε))
  | deleteVectors (ids : List Int)

section Runs

variable {ε : Type} (ix : Indexer) (rules : EntityRules)

def stepReach (s : ReachDb ε) : ReachOp ε → ReachDb ε
  | .tables op => { s with search := stepSearchTables ix rules s.search op }
  | .embed project vectors =>
    match resolveBuffer s.search.buffers project 0 with
    | none => s
    | some bufferId =>
      { s with vectors := s.vectors.map fun vs =>
          insertVectors vs (vectors.map fun v => ⟨v.1, bufferId, v.2⟩) }
  | .deleteVectors ids => { s with vectors := s.vectors.map fun vs => deleteChunkIds vs ids }

def ReachDb.start (vectorStore : Bool) : ReachDb ε :=
  ⟨SearchDb.empty, if vectorStore then some ∅ else none⟩

/-- Buffers are numbered from `1`, and chunks are in such buffers. -/
structure BuffersNumbered (db : IndexDb) : Prop where
  seq : 0 ≤ db.buffers.seq
  buffers : ∀ x ∈ db.buffers.rows, 0 < x.1
  chunks : ∀ x ∈ db.chunks.rows, 0 < x.2.bufferId

variable {ix rules} {db : IndexDb}

theorem BuffersNumbered.projectId (h : BuffersNumbered db) (name : String) :
    0 < projectId db.buffers name := by
  have hseq := h.seq
  unfold Arags.projectId
  cases hs : (db.buffers.select fun _ r => r.name == name).head? with
  | none =>
    show 0 < db.buffers.seq + 1
    omega
  | some x => exact h.buffers x (Table.mem_select.mp (List.mem_of_head? hs)).1

theorem BuffersNumbered.ensureProject (h : BuffersNumbered db) (name root : String) :
    BuffersNumbered { db with buffers := (ensureProject db.buffers name root).1 } := by
  have hseq := h.seq
  unfold Arags.ensureProject
  dsimp only
  split
  · exact h
  · refine ⟨?_, ?_, h.chunks⟩
    · show 0 ≤ db.buffers.seq + 1
      omega
    · rintro ⟨i, r⟩ hx
      rcases SeqTable.mem_insert.mp hx with hx | ⟨rfl, -⟩
      · exact h.buffers _ hx
      · show 0 < db.buffers.seq + 1
        omega

/-- New rows are in the given buffer and old ones stay where they are. -/
theorem BuffersNumbered.stays (h : BuffersNumbered db) {b : Int} (hb : 0 < b)
    {chunks : SeqTable Chunk} (hs : Stays b db.chunks chunks) :
    BuffersNumbered { db with chunks := chunks } where
  seq := h.seq
  buffers := h.buffers
  chunks := by
    intro x hx
    by_cases hnew : db.chunks.seq < x.1
    · rw [hs.inserted x hx hnew]
      exact hb
    · obtain ⟨r, hr, hbuf, -⟩ := hs.later.old x hx (by omega)
      rw [hbuf]
      exact h.chunks _ hr

theorem phase1_stays (chunks : SeqTable Chunk) (b : Int) (path text : String) (st : LoopState) :
    Stays b chunks (phase1 ix chunks b path text st).1 := by
  unfold phase1
  dsimp only
  split
  · exact .refl _
  · rw [insertChunksBatched_eq]
    exact persistAll_stays ix.scan b (st.snapshot.getD []) (chunks, .empty) _

/-- A message, and the buffer that the loop has after it. -/
theorem stepMsg_numbered {db' : IndexDb} {st st' : LoopState} {m : IndexMsg}
    (h : BuffersNumbered db) (hst : ∀ b ∈ st.bufferId, 0 < b)
    (hm : stepMsg ix db st m = .ok (db', st')) :
    BuffersNumbered db' ∧ ∀ b ∈ st'.bufferId, 0 < b := by
  rcases stepMsg_cases hm with ⟨project, root, -, rfl, rfl⟩ | ⟨path, text, b, -, hb, rfl, rfl⟩ |
    ⟨-, rfl, rfl⟩
  · refine ⟨h.ensureProject project root, fun b hb => ?_⟩
    cases hb
    exact h.projectId project
  · refine ⟨h.stays (hst b hb) (phase1_stays ..), ?_⟩
    rw [(phase1_route ix db.chunks b path text st).2]
    exact hst
  · exact ⟨h, hst⟩

theorem runLoop_numbered (msgs : List IndexMsg) (st : LoopState) (h : BuffersNumbered db)
    (hst : ∀ b ∈ st.bufferId, 0 < b) : BuffersNumbered (runLoop ix db st msgs).1 := by
  induction msgs generalizing db st with
  | nil => exact h
  | cons m msgs ih =>
    rw [runLoop]
    cases hm : stepMsg ix db st m with
    | error e => exact h
    | ok x =>
      obtain ⟨hdb, hst⟩ := stepMsg_numbered h hst hm
      exact ih x.2 hdb hst

theorem BuffersNumbered.retireRow (h : BuffersNumbered db) (i : Int) (by_ : Option Int) :
    BuffersNumbered { db with chunks := retireRow db.chunks i by_ } where
  seq := h.seq
  buffers := h.buffers
  chunks := by
    rintro ⟨j, r⟩ hx
    obtain ⟨r', hr', rfl⟩ := SeqTable.mem_update.mp hx
    dsimp only
    split <;> exact h.chunks _ hr'

theorem finish_numbered (st : LoopState) (h : BuffersNumbered db) :
    BuffersNumbered (finish db st).1 := by
  have hretired : ∀ (ids : List Int) (chunks : SeqTable Chunk),
      BuffersNumbered { db with chunks := chunks } →
        BuffersNumbered { db with chunks := retireAll chunks ids } := by
    intro ids
    induction ids with
    | nil => exact fun _ h => h
    | cons i ids ih => exact fun chunks h => ih _ (h.retireRow i none)
  have horphans : BuffersNumbered { db with chunks := orphanPass db.chunks st } := by
    rw [orphanPass_retireAll]
    exact hretired _ _ h
  unfold finish
  dsimp only
  split
  · refine ⟨horphans.seq, ?_, horphans.chunks⟩
    rintro ⟨i, r⟩ hx
    obtain ⟨r', hr', -⟩ := SeqTable.mem_update.mp hx
    exact h.buffers (i, r') hr'
  · exact horphans
  · exact horphans

theorem indexStreamLoop_numbered (msgs : List IndexMsg) (h : BuffersNumbered db) :
    BuffersNumbered (indexStreamLoop ix db msgs).1 := by
  have hloop : BuffersNumbered (runLoop ix db .start msgs).1 :=
    runLoop_numbered msgs .start h fun b hb => by cases hb
  unfold indexStreamLoop
  cases hrun : runLoop ix db .start msgs with
  | mk db' res =>
    rw [hrun] at hloop
    cases res with
    | ok st => exact finish_numbered st hloop
    | error e => exact hloop

/-- Nothing is in buffer `0`, neither a chunk nor a vector. -/
structure NoneInZero {ε : Type} (s : ReachDb ε) : Prop where
  numbered : BuffersNumbered s.search.index
  vectors : ∀ vs ∈ s.vectors, ∀ i x, vs.lookup i = some x → 0 < x.1

theorem lookup_insertVectors {ε : Type} {vs : VectorStore ε} {entries : List (VectorEntry ε)}
    {i : Int} {x : Int × ε} (h : (insertVectors vs entries).lookup i = some x) :
    vs.lookup i = some x ∨ ∃ e ∈ entries, x.1 = e.bufferId := by
  unfold insertVectors at h
  induction entries generalizing vs with
  | nil => exact .inl h
  | cons e entries ih =>
    rw [List.foldl_cons] at h
    rcases ih h with h | ⟨e', he', hx⟩
    · by_cases hi : i = e.chunkId
      · rw [hi, AList.lookup_insert] at h
        cases h
        exact .inr ⟨e, List.mem_cons_self, rfl⟩
      · rw [AList.lookup_insert_ne hi] at h
        exact .inl h
    · exact .inr ⟨e', List.mem_cons_of_mem e he', hx⟩

theorem lookup_deleteChunkIds {ε : Type} {vs : VectorStore ε} {ids : List Int} {i : Int}
    {x : Int × ε} (h : (deleteChunkIds vs ids).lookup i = some x) : vs.lookup i = some x := by
  unfold deleteChunkIds at h
  induction ids generalizing vs with
  | nil => exact h
  | cons j ids ih =>
    rw [List.foldl_cons] at h
    have h := ih h
    by_cases hi : i = j
    · rw [hi, AList.lookup_erase] at h
      cases h
    · rwa [AList.lookup_erase_ne hi] at h

theorem stepSearchTables_numbered {s : SearchDb} (h : BuffersNumbered s.index)
    (op : SearchTableOp) : BuffersNumbered (stepSearchTables ix rules s op).index := by
  cases op with
  | stream msgs =>
    rw [stepSearchTables_stream]
    exact indexStreamLoop_numbered msgs h
  | populateFts => exact h
  | insertChunkEntities chunkId entities =>
    simp only [stepSearchTables, ChunkTables.insertChunkEntities]
    split <;> exact h
  | deleteChunks ids =>
    exact ⟨h.seq, h.buffers, fun x hx => h.chunks x (SeqTable.mem_delete.mp hx).1⟩

theorem stepReach_none {ε : Type} {s : ReachDb ε} (h : NoneInZero s) (op : ReachOp ε) :
    NoneInZero (stepReach ix rules s op) := by
  cases op with
  | tables op => exact ⟨stepSearchTables_numbered h.numbered op, h.vectors⟩
  | embed project vectors =>
    cases hb : resolveBuffer s.search.buffers project 0 with
    | none =>
      simp only [stepReach, hb]
      exact h
    | some bufferId =>
      simp only [stepReach, hb]
      refine ⟨h.numbered, fun vs' hvs' i x hx => ?_⟩
      obtain ⟨vs, hvs, rfl⟩ := Option.map_eq_some_iff.mp hvs'
      rcases lookup_insertVectors hx with hx | ⟨e, he, hx⟩
      · exact h.vectors vs hvs i x hx
      · obtain ⟨v, -, rfl⟩ := List.mem_map.mp he
        obtain ⟨row, hrow, hid⟩ := Option.map_eq_some_iff.mp hb
        rw [hx, ← hid]
        exact h.numbered.buffers row (Table.mem_select.mp (List.mem_of_head? hrow)).1
  | deleteVectors ids =>
    refine ⟨h.numbered, fun vs' hvs' i x hx => ?_⟩
    obtain ⟨vs, hvs, rfl⟩ := Option.map_eq_some_iff.mp hvs'
    exact h.vectors vs hvs i x (lookup_deleteChunkIds hx)

theorem reach_none {ε : Type} (vectorStore : Bool) (ops : List (ReachOp ε)) :
    NoneInZero (Lts.after (stepReach ix rules) (.start vectorStore) ops) := by
  have hstart : NoneInZero (ReachDb.start vectorStore : ReachDb ε) := by
    constructor
    · exact ⟨Int.le_refl 0, fun x hx => absurd hx List.not_mem_nil,
        fun x hx => absurd hx List.not_mem_nil⟩
    · intro vs hvs i x hx
      cases vectorStore with
      | true =>
        cases hvs
        cases hx
      | false => cases hvs
  exact Lts.run_inv (I := fun _ s => NoneInZero s) hstart (fun _ _ op h => stepReach_none h op) ops

end Runs

/-! ## The sources of a near hit -/

section Reach

variable {ε : Type} {env : ReachEnv ε} {s : ReachDb ε}

theorem semanticTier_buffer {env : HybridEnv ε} {vectors : Option (VectorStore ε)}
    {queryVector : Option ε} {bufferId : Int} {tier : HybridTier} {topK : Nat} {i : Int}
    (h : i ∈ semanticTier env vectors queryVector bufferId tier topK) :
    ∃ vs ∈ vectors, ∃ x, vs.lookup i = some x ∧ x.1 = bufferId := by
  unfold semanticTier at h
  split at h
  · rename_i vs v
    split at h
    · cases h
    · obtain ⟨x, hx, hb⟩ := (Option.any_eq_true _ _).mp (List.mem_filter.mp h).2
      exact ⟨vs, rfl, x, hx, beq_iff_eq.mp hb⟩
  · cases h

/-- No tier finds anything in buffer `0`. -/
theorem fusedSearch_zero (h : NoneInZero s) (ftsQuery query : String) (tier : HybridTier)
    (topK : Nat) : fusedSearch env s ftsQuery query 0 tier topK = [] := by
  have hchunk : ∀ i, inChunkBuffer s.search.tables 0 i = false := by
    intro i
    by_contra hi
    obtain ⟨r, hr, hb⟩ := (Option.any_eq_true _ _).mp (Bool.not_eq_false _ ▸ hi)
    have hpos : 0 < r.bufferId := h.numbered.chunks (i, r) (Table.get?_eq_some.mp hr)
    have hzero : r.bufferId = 0 := beq_iff_eq.mp hb
    omega
  refine List.eq_nil_iff_forall_not_mem.mpr fun hit hhit => ?_
  rcases mem_hybridSearch hhit with hmem | hmem | hmem
  · have hin := (mem_bm25Tier hmem).2
    rw [hchunk] at hin
    cases hin
  · have hin := (mem_entityTier hmem).2
    rw [hchunk] at hin
    cases hin
  · obtain ⟨vs, hvs, x, hx, hzero⟩ := semanticTier_buffer hmem
    have hpos := h.vectors vs hvs _ x hx
    omega

theorem grpcHybridSearch_zero (h : NoneInZero s) (ftsQuery : String) (tier : HybridTier)
    (topK : Nat) : grpcHybridSearch env s 0 ftsQuery tier topK = [] := by
  unfold grpcHybridSearch
  simp only [fusedSearch_zero h, ite_self, List.isEmpty_nil, if_true]
  split <;> rfl

/-- The sources that a near hit is compared with. -/
theorem topChunkIds_reach (h : NoneInZero s) (query : QueryEnv) (question : String) (k : Nat) :
    topChunkIds (s.queryEnv env query) question k = [] := by
  unfold topChunkIds ReachDb.queryEnv
  dsimp only
  rw [grpcHybridSearch_zero h]
  rfl

@[simp] theorem jaccardSimilarity_nil (ids : List String) : jaccardSimilarity [] ids = 0 := by
  unfold jaccardSimilarity
  simp

variable (env s) (query : QueryEnv) (qa : Table QaCacheRow) (project question : String)

/-- The best `k` chunks of a project for a question. -/
def projectTop (bufferId : Int) (k : Nat) : List String :=
  ((grpcHybridSearch env s bufferId (sanitizeQuery env.toHybridEnv question) .vector k).take k).map
    fun r => toString r.chunkId

/-- The nearest cached question is near enough, its answer is fresh and verified, nothing is
served before it, and its sources are the best chunks for the new question. -/
structure NearHitDue (explicit now bufferId id : Int) (similarity : Rat) (row : QaCacheRow) :
    Prop where
  asked : Text.isBlank project = false ∧ Text.isBlank question = false
  buffer : resolveBuffer s.search.buffers project explicit = some bufferId
  first : exactServes (s.queryEnv env query) s.search.index qa project question = false
  nearest : nearCandidate (s.queryEnv env query) (afterExact (s.queryEnv env query)
    s.search.index qa project question now) project question = some (id, similarity, row)
  near : ∃ step ∈ query.thresholds.tierSteps, step ≤ similarity
  verified : Verified s.search.tables.chunks row
  sources : row.sourceChunkIds = projectTop env s question bufferId query.thresholds.provenanceK
  found : row.sourceChunkIds ≠ []

instance (explicit now bufferId id : Int) (similarity : Rat) (row : QaCacheRow) : Decidable
    (NearHitDue env s query qa project question explicit now bufferId id similarity row) :=
  decidable_of_iff ((Text.isBlank project = false ∧ Text.isBlank question = false) ∧
      resolveBuffer s.search.buffers project explicit = some bufferId ∧
      exactServes (s.queryEnv env query) s.search.index qa project question = false ∧
      nearCandidate (s.queryEnv env query) (afterExact (s.queryEnv env query) s.search.index qa
        project question now) project question = some (id, similarity, row) ∧
      (∃ step ∈ query.thresholds.tierSteps, step ≤ similarity) ∧
      Verified s.search.tables.chunks row ∧
      row.sourceChunkIds = projectTop env s question bufferId query.thresholds.provenanceK ∧
      row.sourceChunkIds ≠ [])
    ⟨fun ⟨h1, h2, h3, h4, h5, h6, h7, h8⟩ => ⟨h1, h2, h3, h4, h5, h6, h7, h8⟩,
      fun h => ⟨h.asked, h.buffer, h.first, h.nearest, h.near, h.verified, h.sources, h.found⟩⟩

/-- The two sets of sources are found equal and the answer is served. -/
def NearReached (now id : Int) (row : QaCacheRow) : Prop :=
  jaccardSimilarity (topChunkIds (s.queryEnv env query) question query.thresholds.novelK)
      row.sourceChunkIds = 1 ∧
    nearServed (s.queryEnv env query) s.search.index qa project question now = some (id, row)

end Reach

/-- In no state that is reached are the sources of an answer found again: nothing is compared with
them. A neighbour is served only where no overlap is asked for. -/
theorem near_reach {ε : Type} (ix : Indexer) (env : ReachEnv ε) (query : QueryEnv)
    (vectorStore : Bool) (ops : List (ReachOp ε)) (qa : Table QaCacheRow)
    (project question : String) (now id : Int) (row : QaCacheRow) :
    let s := Lts.after (stepReach ix env.rules) (.start vectorStore) ops
    ¬ NearReached env s query qa project question now id row ∧
      topChunkIds (s.queryEnv env query) question query.thresholds.novelK = [] ∧
      ∀ served ∈ nearServed (s.queryEnv env query) s.search.index qa project question now,
        query.thresholds.jaccardMin ≤ 0 := by
  intro s
  have hnone : NoneInZero s := reach_none vectorStore ops
  have htop : topChunkIds (s.queryEnv env query) question query.thresholds.novelK = [] :=
    topChunkIds_reach hnone query question query.thresholds.novelK
  refine ⟨?_, htop, ?_⟩
  · rintro ⟨hone, -⟩
    rw [htop, jaccardSimilarity_nil] at hone
    exact absurd hone (by decide)
  · rintro ⟨id', row'⟩ hserved
    obtain ⟨-, -, -, similarity, -, -, hplan⟩ := nearServed_some.mp hserved
    by_contra hmin
    have hmiss : nearPlan (s.queryEnv env query) question similarity row' =
        missPlan query.thresholds := by
      unfold nearPlan
      refine resolvePlan_miss (.inr (.inr ?_))
      rw [show (s.queryEnv env query).thresholds = query.thresholds from rfl, htop,
        jaccardSimilarity_nil]
      exact Rat.not_le.mp hmin
    rw [hmiss] at hplan
    cases hplan

/-! ## A file and an answer about it -/

def reachEnv : ReachEnv Unit where
  toHybridEnv := sampleHybrid
  embed := fun _ => none
  chunkAgesHours := fun _ => .ok []

/-- The thresholds of a default configuration, and one cached question that is always near. -/
def reachQuery : QueryEnv :=
  { askEnv with thresholds := .default, questionSearch := fun _ _ => some [(1, 95 / 100)] }

def reachDb : ReachDb Unit :=
  Lts.after (stepReach sampleIndexer sampleRules) (.start false)
    [.tables (ofFiles [("n.rs", "a")])]

def reachAnswer : StoreAnswerInput :=
  { answerTo "what is a" "1" (hashText sampleSha256 "a") with
    questionHash := questionHash reachQuery "what is a" }

def reachQa : Table QaCacheRow := (storeAnswer .rowid Table.empty reachAnswer "c1" 5).1

/-- The answer is due, and the query is a miss. -/
theorem near_reach_dead :
    NearHitDue reachEnv reachDb reachQuery reachQa "p" "a" 0 9 1 1 (95 / 100)
        (reachAnswer.row "c1" 1 5) ∧
      (handleQueryWithCache (reachDb.queryEnv reachEnv reachQuery) reachDb.search.index reachQa "p"
        "a" 0 9).2.map (fun resp => (resp.hit, resp.similarity)) = .ok (false, 95 / 100) := by
  decide +kernel

end Arags
