import Arags.Index.ChunkWrites
import Arags.Index.Reindex
import Arags.Index.Vectors
import Arags.Search.Unified

/-!
# Arags.Search.Hybrid

The tiers over the chunks, `HybridSearch::search` of `arags-search`, and the tables that its
lexical and its entity tier read.

* `extractEntities` — `sqlite/entities.rs`; the matches of its patterns are an argument.
* `ChunkTables`, `ChunkTables.write` — `chunks_fts` and the entities beside the chunks, and what a
  write to `chunks` does to them.
* `bm25Search`, `searchEntities`, `hybridSearch` — the tiers and their fusion.
* `TablesClean`     — no row of a tier belongs to a retired chunk.
* `hybrid_live`     — in runs of steps that keep this no search returns a retired chunk.
-/

namespace Arags

open Sql

/-! ## Entities -/

def MAX_ENTITIES_PER_CHUNK : Nat := 10

structure EntityRules where
  /-- The first group of each match of `FUNCTION_RE`, of `IMPORT_RE`, of `IDENTIFIER_RE`. -/
  functionNames : String → List String
  importPaths : String → List String
  identifiers : String → List String
  toLowercase : String → String
  fileStem : String → Option String

/-- `path.split([':', '/', '.']).next_back()`. -/
def lastSegment (path : String) : String :=
  String.ofList (path.toList.reverse.takeWhile fun c => !(c == ':' || c == '/' || c == '.')).reverse

def extractEntities (rules : EntityRules) (content filePath : String) : List String :=
  let functions := (rules.functionNames content).map rules.toLowercase
  let imports := ((rules.importPaths content).map lastSegment).filter fun last => !last.isEmpty
  let identifiers := ((rules.identifiers content).map rules.toLowercase).filter fun val =>
    3 ≤ val.utf8ByteSize
  let stem := (rules.fileStem filePath).toList.map rules.toLowercase
  let entities := functions ++ imports.map rules.toLowercase ++ identifiers ++ stem
  ((entities.insertionSort (· ≤ ·)).dedup).take MAX_ENTITIES_PER_CHUNK

/-! ## The tables -/

/-- `chunks` with their texts, `chunks_fts`, `chunk_entities` and `entities_fts`. -/
structure ChunkTables where
  chunks : SeqTable Chunk
  chunksFts : List (Int × String)
  chunkEntities : List (Int × String)
  entitiesFts : List String

def ChunkTables.empty : ChunkTables := ⟨SeqTable.empty, [], [], []⟩

namespace ChunkTables

/-- `INSERT OR IGNORE INTO chunk_entities`, and a row of `entities_fts` each time. -/
def addEntities (t : ChunkTables) (chunkId : Int) (entities : List String) : ChunkTables :=
  { t with
    chunkEntities := entities.foldl (fun rows e =>
      if rows.contains (chunkId, e) then rows else rows ++ [(chunkId, e)]) t.chunkEntities
    entitiesFts := t.entitiesFts ++ entities }

/-- `insert_active_chunk` and `retire_row`. -/
def write (rules : EntityRules) (t : ChunkTables) : ChunkWrite → ChunkTables
  | .insert bufferId filePath c hashBytes version =>
    let (chunks, chunkId) := insertActiveChunk t.chunks bufferId filePath c hashBytes version
    addEntities { t with
      chunks := chunks
      chunksFts := t.chunksFts ++ [(chunkId, c.content)] } chunkId
      (extractEntities rules c.content filePath)
  | .retire chunkId supersededBy =>
    { t with
      chunks := retireRow t.chunks chunkId supersededBy
      chunksFts := t.chunksFts.filter fun f => f.1 != chunkId }

def populateFts (t : ChunkTables) : ChunkTables :=
  { t with chunksFts := t.chunks.rows.map fun x => (x.1, x.2.content) }

/-- A chunk that does not exist fails the foreign key. -/
def insertChunkEntities (t : ChunkTables) (chunkId : Int) (entities : List String) : ChunkTables :=
  if (t.chunks.get? chunkId).isSome then t.addEntities chunkId entities else t

/-- The deletes of `purge_inactive_chunks`, of `delete_chunks_for_buffer` and of the decay sweep,
over the ids that each of them selects. -/
def deleteChunks (t : ChunkTables) (ids : List Int) : ChunkTables :=
  { t with
    chunks := t.chunks.delete fun i _ => ids.contains i
    chunksFts := t.chunksFts.filter fun f => !ids.contains f.1
    chunkEntities := t.chunkEntities.filter fun x => !ids.contains x.1 }

end ChunkTables

/-! ## The tiers -/

structure HybridEnv (ε : Type) where
  rules : EntityRules
  isAlphanumeric : Char → Bool
  /-- FTS5: the query parses, it matches a text, and the order of the matches by `bm25`. -/
  parses : String → Bool
  matchesText : String → String → Bool
  rank : String → ScanOrder String
  /-- `EntitySearch::new` succeeds. -/
  entityReady : Bool
  /-- The keys that the vector index finds, nearest first. -/
  similar : VectorStore ε → ε → Int → Nat → Except String (List Int)
  /-- The order in which the map of the scores is iterated. -/
  hashOrder : ScanOrder Rat
  decayEnabled : Bool
  /-- `decay.score`, of a score and an age in hours. -/
  decayScore : Rat → Rat → Rat

section Tiers

variable {ε : Type} (env : HybridEnv ε) (t : ChunkTables)

def sanitizeQuery (query : String) : String :=
  query.map fun c => if env.isAlphanumeric c || Text.isWhiteSpace c then c else ' '

/-- `JOIN chunks … AND buffer_id = ?2`. -/
def inChunkBuffer (bufferId chunkId : Int) : Bool :=
  (t.chunks.get? chunkId).any fun r => r.bufferId == bufferId

/-- The ids by `bm25`; the scores themselves are not used. -/
def bm25Search (query : String) (bufferId : Int) (topK : Nat) : Except String (List Int) :=
  let safeQuery := sanitizeQuery env query
  if (Text.splitWhitespace safeQuery).isEmpty then .ok []
  else if !env.parses safeQuery then .error "failed to collect BM25 results"
  else .ok ((((env.rank safeQuery).order (t.chunksFts.filter fun f =>
    env.matchesText safeQuery f.2 && inChunkBuffer t bufferId f.1)).take topK).map Prod.fst)

/-- A row of `entities_fts` joins each chunk that has its entity. -/
def entityJoin (query : String) (bufferId : Int) : List (Int × String) :=
  (t.entitiesFts.filter (env.matchesText query)).flatMap fun entity =>
    t.chunkEntities.filter fun x => x.2 == entity && inChunkBuffer t bufferId x.1

/-- The rows of a query that does not parse are dropped with its error. -/
def searchEntities (queryEntities : List String) (bufferId : Int) (topK : Nat) : List Int :=
  queryEntities.flatMap fun entity =>
    let safeEntity := String.ofList (entity.toList.filter fun c =>
      env.isAlphanumeric c || c == '_')
    let ftsQuery := safeEntity ++ "*"
    if safeEntity.isEmpty || !env.parses ftsQuery then []
    else (((env.rank ftsQuery).order (entityJoin env t ftsQuery bufferId)).take topK).map Prod.fst

variable (vectors : Option (VectorStore ε)) (query : String) (queryVector : Option ε)
variable (bufferId : Int) (tier : HybridTier) (topK : Nat)

/-- Tier 0. Where all words together yield nothing, any of them. -/
def bm25Tier : List Int :=
  match bm25Search env t query bufferId (topK * 3) with
  | .error _ => []
  | .ok results =>
    if !results.isEmpty then results
    else
      let words := Text.splitWhitespace (sanitizeQuery env query)
      if words.length > 1 then
        match bm25Search env t (" OR ".intercalate words) bufferId (topK * 3) with
        | .error _ => []
        | .ok results => results
      else []

/-- Tier 1 and above. -/
def entityTier : List Int :=
  if tier = .fts || !env.entityReady then []
  else searchEntities env t (extractEntities env.rules query "") bufferId (topK * 3)

/-- Tier 2. The index is searched with a filter on the buffer of a key. -/
def semanticTier : List Int :=
  match tier, vectors, queryVector with
  | .vector, some vs, some v =>
    match env.similar vs v bufferId (topK * 3 * 2) with
    | .error _ => []
    | .ok keys => keys.filter fun key => (vs.lookup key).any fun x => x.1 == bufferId
  | _, _, _ => []

/-- `*scores.entry(id).or_insert(0.0) += score`. -/
def addScore (scores : List (Int × Rat)) (id : Int) (score : Rat) : List (Int × Rat) :=
  if scores.any fun s => s.1 == id then
    scores.map fun s => if s.1 == id then (s.1, s.2 + score) else s
  else scores ++ [(id, score)]

def addRanking (scores : List (Int × Rat)) (ranking : List Int) : List (Int × Rat) :=
  ranking.zipIdx.foldl (fun scores x => addScore scores x.1 (rrfScore x.2 RRF_K)) scores

def applyDecay (results ages : List (Int × Rat)) : List (Int × Rat) :=
  if !env.decayEnabled || ages.isEmpty then results
  else
    Ranking.best Prod.snd (results.map fun r =>
      match ages.lookup r.1 with
      | some age => (r.1, env.decayScore r.2 age)
      | none => r)

/-- The reciprocal ranks of the three tiers, added up. -/
def fusedScores : List (Int × Rat) :=
  addRanking (addRanking (addRanking [] (bm25Tier env t query bufferId topK))
    (entityTier env t query bufferId tier topK))
    (semanticTier env vectors queryVector bufferId tier topK)

/-- `HybridSearch::search`. -/
def hybridSearch (chunkAges : Option (List (Int × Rat))) : List (Int × Rat) :=
  let scores := fusedScores env t vectors query queryVector bufferId tier topK
  let results := (Ranking.best Prod.snd (env.hashOrder.order scores)).take topK
  match chunkAges with
  | none => results
  | some ages => (applyDecay env results ages).take topK

end Tiers

/-! ## What the tiers return -/

section Membership

variable {ε : Type} {env : HybridEnv ε} {t : ChunkTables}

theorem mem_addScore {scores : List (Int × Rat)} {id i : Int} {x : Rat}
    (h : i ∈ (addScore scores id x).map Prod.fst) : i ∈ scores.map Prod.fst ∨ i = id := by
  unfold addScore at h
  split at h
  · obtain ⟨s, hs, rfl⟩ := List.mem_map.mp h
    obtain ⟨s', hs', rfl⟩ := List.mem_map.mp hs
    refine .inl (List.mem_map.mpr ⟨s', hs', ?_⟩)
    split <;> rfl
  · rw [List.map_append, List.mem_append] at h
    simpa using h

theorem mem_addRanking {scores : List (Int × Rat)} {ranking : List Int} {i : Int}
    (h : i ∈ (addRanking scores ranking).map Prod.fst) :
    i ∈ scores.map Prod.fst ∨ i ∈ ranking := by
  have hfold : ∀ (l : List (Int × Nat)) (scores : List (Int × Rat)),
      i ∈ (l.foldl (fun scores x => addScore scores x.1 (rrfScore x.2 RRF_K)) scores).map
        Prod.fst → i ∈ scores.map Prod.fst ∨ i ∈ l.map Prod.fst := by
    intro l
    induction l with
    | nil => exact fun scores h => .inl h
    | cons x l ih =>
      intro scores h
      rw [List.foldl_cons] at h
      rw [List.map_cons, List.mem_cons]
      rcases ih _ h with h | h
      · rcases mem_addScore h with h | h
        · exact .inl h
        · exact .inr (.inl h)
      · exact .inr (.inr h)
  have hranking := hfold ranking.zipIdx scores h
  rw [List.zipIdx_map_fst] at hranking
  exact hranking

theorem mem_applyDecay {results ages : List (Int × Rat)} {i : Int}
    (h : i ∈ (applyDecay env results ages).map Prod.fst) : i ∈ results.map Prod.fst := by
  unfold applyDecay at h
  split at h
  · exact h
  · obtain ⟨r, hr, rfl⟩ := List.mem_map.mp h
    obtain ⟨r', hr', rfl⟩ := List.mem_map.mp ((List.perm_insertionSort _ _).mem_iff.mp hr)
    refine List.mem_map.mpr ⟨r', hr', ?_⟩
    split <;> rfl

/-- A result comes from one of the tiers. -/
theorem mem_hybridSearch {vectors : Option (VectorStore ε)} {query : String}
    {queryVector : Option ε} {bufferId : Int} {tier : HybridTier} {topK : Nat}
    {chunkAges : Option (List (Int × Rat))} {hit : Int × Rat}
    (h : hit ∈ hybridSearch env t vectors query queryVector bufferId tier topK chunkAges) :
    hit.1 ∈ bm25Tier env t query bufferId topK ∨ hit.1 ∈ entityTier env t query bufferId tier topK ∨
      hit.1 ∈ semanticTier env vectors queryVector bufferId tier topK := by
  unfold hybridSearch at h
  dsimp only at h
  generalize hscores : fusedScores env t vectors query queryVector bufferId tier topK = scores at h
  have htop : ∀ i, i ∈ ((Ranking.best Prod.snd (env.hashOrder.order scores)).take topK).map
      Prod.fst → i ∈ scores.map Prod.fst := by
    intro i hi
    obtain ⟨s, hs, rfl⟩ := List.mem_map.mp hi
    have hs := (List.perm_insertionSort _ _).mem_iff.mp (List.mem_of_mem_take hs)
    exact List.mem_map_of_mem (env.hashOrder.mem_order.mp hs)
  have hmem : hit.1 ∈ scores.map Prod.fst := by
    cases chunkAges with
    | none => exact htop _ (List.mem_map_of_mem h)
    | some ages => exact htop _ (mem_applyDecay (List.mem_map_of_mem (List.mem_of_mem_take h)))
  rw [← hscores, fusedScores] at hmem
  rcases mem_addRanking hmem with hmem | hmem
  · rcases mem_addRanking hmem with hmem | hmem
    · rcases mem_addRanking hmem with hmem | hmem
      · cases hmem
      · exact .inl hmem
    · exact .inr (.inl hmem)
  · exact .inr (.inr hmem)

/-- All that the tiers found, when there is room for it. -/
theorem hybridSearch_all {vectors : Option (VectorStore ε)} {query : String}
    {queryVector : Option ε} {bufferId : Int} {tier : HybridTier} {topK : Nat} {i : Int}
    (hroom : (fusedScores env t vectors query queryVector bufferId tier topK).length ≤ topK)
    (hi : i ∈ (fusedScores env t vectors query queryVector bufferId tier topK).map Prod.fst) :
    i ∈ (hybridSearch env t vectors query queryVector bufferId tier topK none).map Prod.fst := by
  unfold hybridSearch
  dsimp only
  generalize fusedScores env t vectors query queryVector bufferId tier topK = scores at hroom hi ⊢
  have hperm : (Ranking.best Prod.snd (env.hashOrder.order scores)).Perm scores :=
    (List.perm_insertionSort _ _).trans (env.hashOrder.perm scores)
  rw [List.take_of_length_le (hperm.length_eq.trans_le hroom)]
  exact (hperm.map Prod.fst).mem_iff.mpr hi

theorem mem_bm25Search {query : String} {bufferId : Int} {topK : Nat} {results : List Int}
    (h : bm25Search env t query bufferId topK = .ok results) {i : Int} (hi : i ∈ results) :
    (∃ text, (i, text) ∈ t.chunksFts) ∧ inChunkBuffer t bufferId i = true := by
  unfold bm25Search at h
  dsimp only at h
  split at h
  · cases h
    cases hi
  split at h
  · cases h
  cases h
  obtain ⟨f, hf, rfl⟩ := List.mem_map.mp hi
  obtain ⟨hf, hp⟩ := List.mem_filter.mp
    ((ScanOrder.mem_order _).mp (List.mem_of_mem_take hf))
  rw [Bool.and_eq_true] at hp
  exact ⟨⟨f.2, hf⟩, hp.2⟩

theorem mem_bm25Tier {query : String} {bufferId : Int} {topK : Nat} {i : Int}
    (h : i ∈ bm25Tier env t query bufferId topK) :
    (∃ text, (i, text) ∈ t.chunksFts) ∧ inChunkBuffer t bufferId i = true := by
  unfold bm25Tier at h
  cases hall : bm25Search env t query bufferId (topK * 3) with
  | error e =>
    rw [hall] at h
    cases h
  | ok results =>
    rw [hall] at h
    dsimp only at h
    split at h
    · exact mem_bm25Search hall h
    split at h
    · cases hany : bm25Search env t (" OR ".intercalate (Text.splitWhitespace
          (sanitizeQuery env query))) bufferId (topK * 3) with
      | error e =>
        rw [hany] at h
        cases h
      | ok results =>
        rw [hany] at h
        exact mem_bm25Search hany h
    · cases h

theorem mem_entityTier {query : String} {bufferId : Int} {tier : HybridTier} {topK : Nat} {i : Int}
    (h : i ∈ entityTier env t query bufferId tier topK) :
    (∃ entity, (i, entity) ∈ t.chunkEntities) ∧ inChunkBuffer t bufferId i = true := by
  unfold entityTier at h
  split at h
  · cases h
  unfold searchEntities at h
  obtain ⟨entity, -, h⟩ := List.mem_flatMap.mp h
  dsimp only at h
  split at h
  · cases h
  obtain ⟨x, hx, rfl⟩ := List.mem_map.mp h
  unfold entityJoin at hx
  obtain ⟨joined, -, hx⟩ := List.mem_flatMap.mp
    ((ScanOrder.mem_order _).mp (List.mem_of_mem_take hx))
  obtain ⟨hx, hp⟩ := List.mem_filter.mp hx
  rw [Bool.and_eq_true] at hp
  exact ⟨⟨x.2, hx⟩, hp.2⟩

theorem mem_semanticTier {vectors : Option (VectorStore ε)} {queryVector : Option ε}
    {bufferId : Int} {tier : HybridTier} {topK : Nat} {i : Int}
    (h : i ∈ semanticTier env vectors queryVector bufferId tier topK) :
    ∃ vs, vectors = some vs ∧ i ∈ vs := by
  unfold semanticTier at h
  split at h
  · rename_i vs v
    split at h
    · cases h
    · obtain ⟨-, hp⟩ := List.mem_filter.mp h
      refine ⟨vs, rfl, AList.lookup_isSome.mp ?_⟩
      cases hl : vs.lookup i with
      | none =>
        rw [hl] at hp
        cases hp
      | some x => rfl
  · cases h

end Membership

/-! ## Clean tables -/

/-- A row with the id of a chunk belongs to an active one. -/
def ChunkTables.Live (t : ChunkTables) (chunkId : Int) : Prop :=
  ∀ x ∈ t.chunks.rows, x.1 = chunkId → x.2.isActive = true

structure TablesClean (t : ChunkTables) : Prop where
  fts : ∀ f ∈ t.chunksFts, t.Live f.1
  entities : ∀ x ∈ t.chunkEntities, t.Live x.1

/-- Over a vector store of active keys, every search returns active chunks only. -/
def HidesRetired {ε : Type} (env : HybridEnv ε) (t : ChunkTables) : Prop :=
  ∀ vectors : Option (VectorStore ε),
    (∀ vs, vectors = some vs → ∀ i ∈ vs, ∃ r, (i, r) ∈ t.chunks.rows ∧ r.isActive = true) →
    ∀ query queryVector bufferId tier topK chunkAges,
      ∀ hit ∈ hybridSearch env t vectors query queryVector bufferId tier topK chunkAges,
        ∃ r, (hit.1, r) ∈ t.chunks.rows ∧ r.isActive = true

theorem TablesClean.hides {ε : Type} (env : HybridEnv ε) {t : ChunkTables} (h : TablesClean t) :
    HidesRetired env t := by
  intro vectors hvectors query queryVector bufferId tier topK chunkAges hit hhit
  have hactive : t.Live hit.1 → inChunkBuffer t bufferId hit.1 = true →
      ∃ r, (hit.1, r) ∈ t.chunks.rows ∧ r.isActive = true := by
    intro hlive hin
    obtain ⟨r, hr, -⟩ := (Option.any_eq_true _ _).mp hin
    have hrow := Table.get?_eq_some.mp hr
    exact ⟨r, hrow, hlive _ hrow rfl⟩
  rcases mem_hybridSearch hhit with hmem | hmem | hmem
  · obtain ⟨⟨text, hf⟩, hin⟩ := mem_bm25Tier hmem
    exact hactive (h.fts _ hf) hin
  · obtain ⟨⟨entity, hx⟩, hin⟩ := mem_entityTier hmem
    exact hactive (h.entities _ hx) hin
  · obtain ⟨vs, rfl, hi⟩ := mem_semanticTier hmem
    exact hvectors vs rfl _ hi

/-! ## Runs -/

structure SearchDb where
  buffers : SeqTable Buffer
  tables : ChunkTables

def SearchDb.empty : SearchDb := ⟨SeqTable.empty, .empty⟩

def SearchDb.index (s : SearchDb) : IndexDb := ⟨s.buffers, s.tables.chunks⟩

inductive SearchTableOp where
  | stream (msgs : List IndexMsg)
  | populateFts
  | insertChunkEntities (chunkId : Int) (entities : List String)
  | deleteChunks (ids : List Int)

section Runs

variable (ix : Indexer) (rules : EntityRules)

def stepSearchTables (s : SearchDb) : SearchTableOp → SearchDb
  | .stream msgs =>
    { buffers := (indexStreamLoop ix s.index msgs).1.buffers
      tables := Lts.after (ChunkTables.write rules) s.tables
        (streamWrites ix s.index msgs).reverse }
  | .populateFts => { s with tables := s.tables.populateFts }
  | .insertChunkEntities chunkId entities =>
    { s with tables := s.tables.insertChunkEntities chunkId entities }
  | .deleteChunks ids => { s with tables := s.tables.deleteChunks ids }

theorem write_chunks (t : ChunkTables) (w : ChunkWrite) :
    (t.write rules w).chunks = writeChunk t.chunks w := by
  cases w <;> rfl

/-- The chunks are those of the stream. -/
theorem stepSearchTables_stream (s : SearchDb) (msgs : List IndexMsg) :
    (stepSearchTables ix rules s (.stream msgs)).index = (indexStreamLoop ix s.index msgs).1 := by
  have hfold : ∀ (ws : List ChunkWrite) (t : ChunkTables),
      (ws.foldl (ChunkTables.write rules) t).chunks = ws.foldl writeChunk t.chunks := by
    intro ws
    induction ws with
    | nil => exact fun _ => rfl
    | cons w ws ih =>
      intro t
      rw [List.foldl_cons, List.foldl_cons, ih, write_chunks]
  have hchunks := hfold (streamWrites ix s.index msgs) s.tables
  rw [← Lts.after_reverse] at hchunks
  have hstream := streamWrites_chunks ix s.index msgs
  show IndexDb.mk (indexStreamLoop ix s.index msgs).1.buffers
    (Lts.after (ChunkTables.write rules) s.tables
      (streamWrites ix s.index msgs).reverse).chunks = _
  rw [hchunks]
  exact congrArg (IndexDb.mk _) hstream.symm

/-- A write retires no active chunk that has entities. -/
def RetiresUntagged (t : ChunkTables) : ChunkWrite → Prop
  | .insert .. => True
  | .retire chunkId _ => ∀ x ∈ t.chunks.rows, x.1 = chunkId → x.2.isActive = true →
      ∀ y ∈ t.chunkEntities, y.1 ≠ chunkId

instance (t : ChunkTables) (w : ChunkWrite) : Decidable (RetiresUntagged t w) :=
  match w with
  | .insert .. => inferInstanceAs (Decidable True)
  | .retire chunkId _ => inferInstanceAs (Decidable (∀ x ∈ t.chunks.rows, x.1 = chunkId →
      x.2.isActive = true → ∀ y ∈ t.chunkEntities, y.1 ≠ chunkId))

/-- The step gives no row of a tier to a retired chunk. -/
def KeepsTables (s : SearchDb) : SearchTableOp → Prop
  | .stream msgs =>
    Lts.Always (ChunkTables.write rules) s.tables (fun _ t w => RetiresUntagged t w)
      (streamWrites ix s.index msgs).reverse
  | .populateFts => ∀ x ∈ s.tables.chunks.rows, x.2.isActive = true
  | .insertChunkEntities chunkId entities => entities ≠ [] →
      ∀ x ∈ s.tables.chunks.rows, x.1 = chunkId → x.2.isActive = true
  | .deleteChunks _ => True

instance (s : SearchDb) (op : SearchTableOp) : Decidable (KeepsTables ix rules s op) :=
  match op with
  | .stream msgs => inferInstanceAs (Decidable (Lts.Always (ChunkTables.write rules) s.tables
      (fun _ t w => RetiresUntagged t w) (streamWrites ix s.index msgs).reverse))
  | .populateFts =>
    inferInstanceAs (Decidable (∀ x ∈ s.tables.chunks.rows, x.2.isActive = true))
  | .insertChunkEntities chunkId entities => inferInstanceAs (Decidable (entities ≠ [] →
      ∀ x ∈ s.tables.chunks.rows, x.1 = chunkId → x.2.isActive = true))
  | .deleteChunks _ => inferInstanceAs (Decidable True)

variable {ix rules} {t : ChunkTables} {s : SearchDb}

theorem mem_addEntities {chunkId : Int} {entities : List String} {x : Int × String}
    (h : x ∈ (t.addEntities chunkId entities).chunkEntities) :
    x ∈ t.chunkEntities ∨ (x.1 = chunkId ∧ entities ≠ []) := by
  have hfold : ∀ (es : List String) (rows : List (Int × String)),
      x ∈ es.foldl (fun rows e =>
        if rows.contains (chunkId, e) then rows else rows ++ [(chunkId, e)]) rows →
      x ∈ rows ∨ (x.1 = chunkId ∧ es ≠ []) := by
    intro es
    induction es with
    | nil => exact fun _ h => .inl h
    | cons e es ih =>
      intro rows h
      rw [List.foldl_cons] at h
      rcases ih _ h with h | ⟨h, -⟩
      · split at h
        · exact .inl h
        · rcases List.mem_append.mp h with h | h
          · exact .inl h
          · rw [List.mem_singleton] at h
            exact .inr ⟨by rw [h], by simp⟩
      · exact .inr ⟨h, by simp⟩
  exact hfold entities t.chunkEntities h

theorem TablesClean.addEntities (h : TablesClean t) {chunkId : Int} {entities : List String}
    (hlive : entities ≠ [] → t.Live chunkId) : TablesClean (t.addEntities chunkId entities) where
  fts := h.fts
  entities := by
    intro x hx
    rcases mem_addEntities hx with hx | ⟨hid, hne⟩
    · exact h.entities x hx
    · rw [hid]
      exact hlive hne

theorem TablesClean.write (h : TablesClean t) {w : ChunkWrite} (hw : RetiresUntagged t w) :
    TablesClean (t.write rules w) := by
  cases w with
  | insert bufferId filePath c hashBytes version =>
    have hlive : ∀ i, (i = t.chunks.seq + 1 ∨ t.Live i) →
        (t.write rules (.insert bufferId filePath c hashBytes version)).Live i := by
      intro i hi x hx hid
      rcases SeqTable.mem_insert.mp hx with hx | ⟨-, hx⟩
      · rcases hi with hi | hi
        · have hle := t.chunks.le_seq x hx
          omega
        · exact hi x hx hid
      · rw [hx]
        rfl
    constructor
    · intro f hf
      rcases List.mem_append.mp hf with hf | hf
      · exact hlive f.1 (.inr (h.fts f hf))
      · rw [List.mem_singleton] at hf
        rw [hf]
        exact hlive _ (.inl rfl)
    · intro x hx
      rcases mem_addEntities hx with hx | ⟨hid, -⟩
      · exact hlive x.1 (.inr (h.entities x hx))
      · rw [hid]
        exact hlive _ (.inl rfl)
  | retire chunkId supersededBy =>
    have hlive : ∀ i, t.Live i → (∀ x ∈ t.chunks.rows, x.1 = chunkId → x.2.isActive = true →
        i ≠ chunkId) → (t.write rules (.retire chunkId supersededBy)).Live i := by
      intro i hi hne x hx hid
      obtain ⟨r, hr, he⟩ := SeqTable.mem_update.mp hx
      split at he
      · rename_i hp
        rw [Bool.and_eq_true, beq_iff_eq] at hp
        exact absurd (hid.symm.trans hp.1) (hne _ hr hp.1 hp.2)
      · rw [he]
        exact hi _ hr hid
    constructor
    · intro f hf
      obtain ⟨hf, hne⟩ := List.mem_filter.mp hf
      exact hlive f.1 (h.fts f hf) fun _ _ _ _ => bne_iff_ne.mp hne
    · intro x hx
      exact hlive x.1 (h.entities x hx) fun y hy hid hactive => hw y hy hid hactive x hx

theorem stepSearchTables_clean (h : TablesClean s.tables) {op : SearchTableOp}
    (hop : KeepsTables ix rules s op) : TablesClean (stepSearchTables ix rules s op).tables := by
  cases op with
  | stream msgs =>
    exact Lts.guarded_inv (I := fun _ t => TablesClean t) h
      (fun _ _ _ ht hw => ht.write hw) _ hop
  | populateFts =>
    constructor
    · intro f _ x hx _
      exact hop x hx
    · exact h.entities
  | insertChunkEntities chunkId entities =>
    simp only [stepSearchTables, ChunkTables.insertChunkEntities]
    split
    · exact h.addEntities hop
    · exact h
  | deleteChunks ids =>
    have hlive : ∀ i, s.tables.Live i → (s.tables.deleteChunks ids).Live i :=
      fun i hi x hx => hi x (SeqTable.mem_delete.mp hx).1
    constructor
    · intro f hf
      exact hlive f.1 (h.fts f (List.mem_filter.mp hf).1)
    · intro x hx
      exact hlive x.1 (h.entities x (List.mem_filter.mp hx).1)

end Runs

theorem TablesClean.empty : TablesClean .empty :=
  ⟨fun _ hf => absurd hf List.not_mem_nil, fun _ hx => absurd hx List.not_mem_nil⟩

/-- In a run whose steps give no row of a tier to a retired chunk, no search returns one. -/
theorem hybrid_live {ε : Type} (ix : Indexer) (env : HybridEnv ε) (ops : List SearchTableOp)
    (hkept : Lts.Always (stepSearchTables ix env.rules) .empty
      (fun _ s op => KeepsTables ix env.rules s op) ops) :
    Lts.Always (stepSearchTables ix env.rules) .empty
      (fun _ s op => HidesRetired env (stepSearchTables ix env.rules s op).tables) ops := by
  induction ops with
  | nil => exact trivial
  | cons op ops ih =>
    have hclean := Lts.guarded_inv (I := fun _ (s : SearchDb) => TablesClean s.tables) .empty
      (fun _ _ _ h hop => stepSearchTables_clean h hop) ops hkept.1
    exact ⟨ih hkept.1, (stepSearchTables_clean hclean hkept.2).hides env⟩

/-! ## A file that is edited -/

/-- The patterns, on words in camel case and on the names of the files below. -/
def sampleRules : EntityRules where
  functionNames := fun _ => []
  importPaths := fun _ => []
  identifiers := fun text => (Text.splitWhitespace text).filter fun word =>
    word.toList.head?.any Char.isUpper && 2 ≤ word.toList.length
  toLowercase := fun s => s.map Char.toLower
  fileStem := fun path => if path = "Loader.rs" then some "Loader" else none

/-- A text matches when it has a word of the query, or one with the prefix of `query*`. -/
def sampleHybrid : HybridEnv Unit where
  rules := sampleRules
  isAlphanumeric := Char.isAlphanum
  parses := fun _ => true
  matchesText := fun query text => (Text.splitWhitespace query).any fun word =>
    (Text.splitWhitespace text).any fun token =>
      if word.toList.getLast? = some '*' then word.toList.dropLast.isPrefixOf token.toList
      else word == token
  rank := fun _ => .rowid
  entityReady := true
  similar := fun _ _ _ _ => .ok []
  hashOrder := .rowid
  decayEnabled := false
  decayScore := fun score _ => score

def ofFiles (files : List (String × String)) : SearchTableOp := .stream (streamOf "p" "/p" files)

/-- A file is indexed, then another one beside it, and the lexical index is rebuilt. -/
theorem hybrid_live_grown :
    Lts.Always (stepSearchTables sampleIndexer sampleRules) .empty
      (fun _ s op => HidesRetired sampleHybrid
        (stepSearchTables sampleIndexer sampleRules s op).tables)
      [.populateFts, ofFiles [("Loader.rs", "a"), ("n.rs", "b")], ofFiles [("Loader.rs", "a")]] :=
  hybrid_live sampleIndexer sampleHybrid _ (by decide +kernel)

/-- The file is edited. Its old text is retired and the entity tier returns it; after a rebuild of
the lexical index so does the lexical tier. -/
theorem hybrid_live_edited :
    let edited := [ofFiles [("Loader.rs", "b")], ofFiles [("Loader.rs", "a")]]
    let s := Lts.after (stepSearchTables sampleIndexer sampleRules) .empty edited
    (s.tables.chunks.get? 1).map Chunk.isActive = some false ∧
      1 ∈ (hybridSearch sampleHybrid s.tables none "Loader" none 1 .entity 5 none).map Prod.fst ∧
      1 ∈ (hybridSearch sampleHybrid s.tables.populateFts none "a" none 1 .fts 5 none).map
        Prod.fst ∧
      ¬ Lts.Always (stepSearchTables sampleIndexer sampleRules) .empty
        (fun _ s op => HidesRetired sampleHybrid
          (stepSearchTables sampleIndexer sampleRules s op).tables) edited := by
  intro edited s
  let entities := fusedScores sampleHybrid s.tables none "Loader" none 1 .entity 5
  let words := fusedScores sampleHybrid s.tables.populateFts none "a" none 1 .fts 5
  have hstate : (s.tables.chunks.get? 1).map Chunk.isActive = some false ∧
      (entities.length ≤ 5 ∧ 1 ∈ entities.map Prod.fst) ∧
      words.length ≤ 5 ∧ 1 ∈ words.map Prod.fst := by
    decide +kernel
  obtain ⟨hretired, ⟨hroom, hentity⟩, hwords, hword⟩ := hstate
  have hfound : 1 ∈ (hybridSearch sampleHybrid s.tables none "Loader" none 1 .entity 5 none).map
      Prod.fst := hybridSearch_all hroom hentity
  refine ⟨hretired, hfound, hybridSearch_all hwords hword, ?_⟩
  rintro ⟨-, hides⟩
  obtain ⟨hit, hhit, hid⟩ := List.mem_map.mp hfound
  obtain ⟨r, hr, hactive⟩ := hides none (fun _ h => by cases h) _ _ _ _ _ _ hit hhit
  rw [hid] at hr
  have hget : s.tables.chunks.get? 1 = some r := Table.get?_eq_some.mpr hr
  rw [hget, Option.map_some, hactive] at hretired
  exact absurd hretired (by decide)

end Arags
