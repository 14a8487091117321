import Arags.Explore.Search
import Arags.Search.Summary
import Mathlib.Data.Rat.Floor

/-!
# Arags.Search.Unified

The `Search` call, `handle_search` of `grpc/search/query.rs`, after authentication and the record
of the query in the history.

* `applyChunkAsOf` — chunk candidates at a past epoch, of `grpc/search/context.rs`.
* `splitSummaryBudget`, `unifySummaries`, `attachExplorations` — the three parts of `unify_query`.
* `handleSearch`  — the response; the tiers over the chunks are an argument.
-/

namespace Arags

open Sql

inductive SearchTier where
  | unspecified | bm25 | semantic | hybrid | entity | summary
  deriving DecidableEq, Repr

/-- `arags_search::SearchTier`. -/
inductive HybridTier where
  | fts | entity | vector
  deriving DecidableEq, Repr

structure SearchConfig where
  tier : String
  topK : Nat
  summaryRatio : Rat
  summaryMinScore : Rat
  explorationEnabled : Bool
  explorationLimit : Nat
  deriving DecidableEq, Repr

def SearchConfig.default : SearchConfig := ⟨"hybrid", 10, 6 / 10, 35 / 100, true, 2⟩

structure SearchRequest where
  project : String
  query : String
  maxResults : Int
  tier : SearchTier
  asOfEpoch : Int
  deriving DecidableEq, Repr

/-- The columns of `chunks` that no write fills. -/
structure ChunkOrigin where
  epoch : Int
  createdBy : Option String
  model : Option String
  deriving DecidableEq, Repr

/-- `arags_search::SearchResult`. -/
structure ChunkResult where
  chunkId : Int
  score : Rat
  filePath : String
  lineStart : Int
  lineEnd : Int
  content : String
  language : Option String
  epoch : Int
  createdBy : Option String
  model : Option String
  version : Int
  deriving DecidableEq, Repr

/-- The `SearchResult` of the protocol. -/
structure SearchItem where
  chunkId : Int
  text : String
  score : Rat
  filePath : String
  startLine : Int
  endLine : Int
  epoch : Int
  createdBy : String
  model : String
  version : Int
  deriving DecidableEq, Repr

structure SummaryHit where
  nodeId : String
  rowid : Int
  level : Int
  subject : String
  summaryText : String
  score : Rat
  epoch : Int
  createdBy : String
  model : String
  version : Int
  deriving DecidableEq, Repr

structure ExplorationRef where
  explorationId : String
  goal : String
  summary : String
  confidence : Rat
  deriving DecidableEq, Repr

/-- Each map with the candidate behind it. -/
structure SearchResponse where
  results : List SearchItem
  totalCount : Int
  summaries : List SummaryHit
  explorations : List (MapCandidate × ExplorationRef)

/-- What the call reads: the maps with their index, the summary nodes, and columns by row id. -/
structure SearchServer (ε : Type) where
  maps : MapServer ε
  nodes : Table RlmNode
  nodeVectors : AList fun _ : Int => ε
  bufferUuid : Int → Option String
  chunkOrigin : Int → ChunkOrigin

structure SearchServerEnv (ε : Type) where
  summary : SummaryEnv ε
  maps : SearchEnv ε
  /-- The hydrated candidates of the tiers over a buffer's chunks, best first. -/
  hybridSearch : IndexDb → Int → String → HybridTier → Nat → Except String (List ChunkResult)
  chunkScan : ScanOrder Chunk
  bufferScan : ScanOrder Buffer
  isAlphanumeric : Char → Bool
  cfg : SearchConfig
  now : Int

/-! ## Chunks at a past epoch -/

/-- `get_chunk_as_of`, with the epochs that the column holds; `none` is a walk without end. -/
def chunkAsOf (scan : ScanOrder Chunk) (t : SeqTable Chunk) (epoch : Int → Int)
    (chunkId asOfEpoch : Int) : Option (Option (Int × Chunk)) :=
  (chunkFamily scan t (t.rows.length + 1) chunkId).map fun family =>
    firstBy (fun x y => decide (epoch y.1 < epoch x.1) ||
        (epoch x.1 == epoch y.1 && decide (y.1 < x.1)))
      (family.filter fun x => decide (epoch x.1 ≤ asOfEpoch))

/-- In a database whose epochs nothing has filled. -/
theorem chunkAsOf_unfilled (scan : ScanOrder Chunk) (t : SeqTable Chunk) (chunkId T : Int) :
    chunkAsOf scan t (fun _ => 0) chunkId T = getChunkAsOf scan t chunkId T := rfl

section Call

variable {ε : Type} (env : SearchServerEnv ε) (s : SearchServer ε)

/-- The revision behind a candidate, with the candidate's score. -/
def chunkRevision (asOfEpoch : Int) (c : ChunkResult) : Option (Option ChunkResult) :=
  (chunkAsOf env.chunkScan s.maps.index.chunks (fun i => (s.chunkOrigin i).epoch) c.chunkId
    asOfEpoch).map fun found => found.map fun (id, chunk) => {
      chunkId := id
      score := c.score
      filePath := chunk.filePath
      lineStart := chunk.lineStart
      lineEnd := chunk.lineEnd
      content := chunk.content
      language := chunk.language
      epoch := (s.chunkOrigin id).epoch
      createdBy := (s.chunkOrigin id).createdBy
      model := (s.chunkOrigin id).model
      version := chunk.version }

/-- A candidate without a revision at the epoch is dropped. -/
def applyChunkAsOf (asOfEpoch : Int) (candidates : List ChunkResult) :
    Option (List ChunkResult) :=
  if asOfEpoch ≤ 0 then some candidates
  else (candidates.mapM (chunkRevision env s asOfEpoch)).map List.reduceOption

/-- A line number beyond `i32` clamps. -/
def protoLine (v : Int) : Int := if -2 ^ 31 ≤ v ∧ v < 2 ^ 31 then v else 2 ^ 31 - 1

def toProtoResult (r : ChunkResult) : SearchItem where
  chunkId := r.chunkId
  text := r.content
  score := r.score
  filePath := r.filePath
  startLine := protoLine r.lineStart
  endLine := protoLine r.lineEnd
  epoch := r.epoch
  createdBy := r.createdBy.getD ""
  model := r.model.getD ""
  version := r.version

/-! ## The unified query -/

def summaryToResult (s : SummaryCandidate) : SearchItem where
  chunkId := s.rowid
  text := s.text
  score := s.score
  filePath := "[summary:" ++ toString s.level ++ "] " ++ s.subject
  startLine := 0
  endLine := 0
  epoch := s.epoch
  createdBy := s.createdBy.getD ""
  model := s.model.getD ""
  version := s.version

def summaryHitFrom (s : SummaryCandidate) : SummaryHit where
  nodeId := s.nodeId
  rowid := s.rowid
  level := if -2 ^ 31 ≤ s.level ∧ s.level < 2 ^ 31 then s.level else 0
  subject := s.subject
  summaryText := s.text
  score := s.score
  epoch := s.epoch
  createdBy := s.createdBy.getD ""
  model := s.model.getD ""
  version := s.version

/-- How many slots go to summaries, and how many stay with chunks. -/
def splitSummaryBudget (maxResults : Nat) (ratio : Rat) (qualifying : Nat) : Nat × Nat :=
  if maxResults ≤ 1 || ratio ≤ 0 then (0, maxResults)
  else
    let want := ⌊(maxResults : Rat) * ratio⌋.toNat
    let take := min want qualifying
    -- one slot stays with verbatim code
    let take := if take ≥ maxResults then maxResults - 1 else take
    if take = 0 then (0, maxResults) else (take, maxResults - take)

def clampRatio (ratio : Rat) : Rat := max 0 (min ratio 1)

/-- The summaries of the live nodes that take slots from the chunks; a failed search takes
none. -/
def unifySummaries (bufferId : Int) (project ftsQuery : String) (candidates : List SearchItem)
    (maxResults : Nat) : List SearchItem × List SummaryHit :=
  let ratio := clampRatio env.cfg.summaryRatio
  if ratio > 0 && maxResults > 1 then
    match summarySearch env.summary s.nodes s.nodeVectors bufferId project ftsQuery maxResults 0
      with
    | .error _ => (candidates, [])
    | .ok all =>
      let qualifying := all.filter fun x => decide (env.cfg.summaryMinScore ≤ x.score)
      let budget := splitSummaryBudget maxResults ratio qualifying.length
      if budget.1 > 0 then
        (candidates.take budget.2, (qualifying.take budget.1).map summaryHitFrom)
      else (candidates, [])
  else (candidates, [])

/-- The live maps; a failed search attaches none. -/
def attachExplorations (project rawQuery : String) : List (MapCandidate × ExplorationRef) :=
  if env.cfg.explorationEnabled && env.cfg.explorationLimit > 0 then
    match searchHits env.maps s.maps project rawQuery env.cfg.explorationLimit false 0 env.now with
    | .error _ => []
    | .ok hits => hits.map fun h =>
      (h.1, ⟨h.2.explorationId, h.2.goal, h.2.summary, h.2.confidence⟩)
  else []

/-! ## The call -/

/-- `SELECT id FROM buffers WHERE name = ?1 OR uuid = ?1`. -/
def bufferIdFor (project : String) : Option Int :=
  ((env.bufferScan.order (s.maps.index.buffers.select fun i b =>
    b.name == project || s.bufferUuid i == some project)).head?).map Prod.fst

def sanitizeFts (query : String) : String :=
  query.map fun c => if env.isAlphanumeric c || Text.isWhiteSpace c then c else ' '

def hybridTierOf (tier : SearchTier) : HybridTier :=
  match tier with
  | .bm25 => .fts
  | .entity => .entity
  | .semantic => .vector
  | .hybrid => .vector
  | _ =>
    let configured := env.cfg.tier.map Char.toLower
    if configured == "fts" || configured == "bm25" then .fts
    else if configured == "entity" then .entity
    else .vector

def maxResultsOf (req : SearchRequest) : Nat :=
  if req.maxResults > 0 then req.maxResults.toNat else env.cfg.topK

def totalCountOf (results : List SearchItem) : Int := min results.length (2 ^ 31 - 1)

/-- `none` is a chunk walk without end. -/
def handleSearch (req : SearchRequest) : Option (Except String SearchResponse) :=
  if Text.isBlank req.query then some (.error "search query is required")
  else
    match bufferIdFor env s req.project with
    | none => some (.error "project not found")
    | some bufferId =>
      let maxResults := maxResultsOf env req
      let ftsQuery := sanitizeFts env req.query
      if req.tier = .summary then
        some ((summarySearch env.summary s.nodes s.nodeVectors bufferId req.project ftsQuery
          maxResults req.asOfEpoch).map fun summaries =>
            let results := summaries.map summaryToResult
            ⟨results, totalCountOf results, summaries.map summaryHitFrom, []⟩)
      else
        match env.hybridSearch s.maps.index bufferId ftsQuery (hybridTierOf env req.tier)
            maxResults with
        | .error e => some (.error e)
        | .ok candidates =>
          (applyChunkAsOf env s req.asOfEpoch candidates).map fun candidates =>
            let unified := unifySummaries env s bufferId req.project ftsQuery
              (candidates.map toProtoResult) maxResults
            .ok ⟨unified.1, totalCountOf unified.1, unified.2,
              attachExplorations env s req.project req.query⟩

end Call

end Arags
