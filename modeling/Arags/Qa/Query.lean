import Arags.Index.Stream
import Arags.Lib.Text
import Arags.Qa.Cache

/-!
# Arags.Qa.Query

A query against the answer cache, `handle_query_with_cache` of `grpc/query_cache/query.rs`
without `as_of_epoch`.

* `resolvePlan`, `jaccardSimilarity` — the pure part: the tier of a near hit.
* `chunkHashesMatch`, `provenanceIntact` — the check of a row before it is served.
* `handleQueryWithCache` — exact hit, near hit, miss; `nearCandidate` is the neighbour that the
  second step looks at.
* Embedding, vector search and hybrid search are arguments.
-/

namespace Arags

open Sql

/-! ## Plans -/

structure QaThresholds where
  novelK : Nat
  provenanceK : Nat
  simHigh : Rat
  simFloor : Rat
  tierSteps : List Rat
  jaccardMin : Rat
  deriving DecidableEq, Repr

def QaThresholds.default : QaThresholds :=
  ⟨20, 5, 9 / 10, 4 / 10, [9 / 10, 8 / 10, 7 / 10, 6 / 10, 5 / 10], 5 / 10⟩

structure QaPlan where
  digestK : Nat
  provenanceK : Nat
  isMiss : Bool
  tier : Int
  deriving DecidableEq, Repr

def DIGEST_SCHEDULE : List Nat := [10, 12, 13, 15, 18]
def PROV_SCHEDULE : List Nat := [5, 6, 7, 8, 10]

def missPlan (t : QaThresholds) : QaPlan := ⟨t.novelK, t.provenanceK, true, -1⟩

def resolvePlan (similarity jaccard : Rat) (t : QaThresholds) : QaPlan :=
  if similarity < t.simFloor then missPlan t
  else
    match t.tierSteps.findIdx? fun step => decide (similarity ≥ step) with
    | none => missPlan t
    | some tierIdx =>
      if jaccard < t.jaccardMin then missPlan t
      else
        let digestK := min ((DIGEST_SCHEDULE[tierIdx]?).getD t.novelK) t.novelK
        let provenanceK := max (min ((PROV_SCHEDULE[tierIdx]?).getD t.provenanceK) digestK) 1
        ⟨digestK, provenanceK, false, tierIdx⟩

/-- `|a ∩ b| / |a ∪ b|` of the two sets. -/
def jaccardSimilarity (a b : List String) : Rat :=
  if a.isEmpty && b.isEmpty then 0
  else
    let inter := (a.dedup.filter b.contains).length
    let union := (a ++ b).dedup.length
    if union = 0 then 0 else (inter : Rat) / union

/-! ## Provenance -/

/-- `LOWER(HEX(hash))` of every id against the expected one; a missing id is drift. -/
def chunkHashesMatch (chunks : SeqTable Chunk) (pairs : List (Int × String)) : Bool :=
  pairs.all fun p => (chunks.get? p.1).any fun c => Text.eqIgnoreAsciiCase (hexEncode c.hash) p.2

/-- Ids and hashes by position; an id that is no number is skipped. -/
def provenancePairs (row : QaCacheRow) : List (Int × String) :=
  (row.sourceChunkIds.zip row.sourceHashes).filterMap fun p =>
    (Text.parseInt64 p.1).map fun i => (i, p.2)

def provenanceIntact (chunks : SeqTable Chunk) (qa : Table QaCacheRow) (id : Int)
    (row : QaCacheRow) (now : Int) : Table QaCacheRow × Bool :=
  if row.sourceChunkIds.isEmpty || row.sourceHashes.isEmpty then (qa, true)
  else if (provenancePairs row).isEmpty then (qa, true)
  else if chunkHashesMatch chunks (provenancePairs row) then (qa, true)
  else (markQaStale qa id "system" "provenance drift" now, false)

structure SearchResult where
  chunkId : Int
  text : String
  score : Rat
  filePath : String
  startLine : Int
  endLine : Int
  version : Int
  deriving DecidableEq, Repr

/-- The first `k` ids that are numbers, those of them that are rows. -/
def provenanceChunks (chunks : SeqTable Chunk) (ids : List String) (k : Nat) :
    List SearchResult :=
  ((ids.filterMap Text.parseInt64).take (max k 1)).filterMap fun i =>
    (chunks.get? i).map fun c => ⟨i, c.content, 1, c.filePath, c.lineStart, c.lineEnd, c.version⟩

/-! ## The handler -/

/-- Task prefix of the question space. -/
def QUESTION_PREFIX : String := "search_query: "
def NEAR_HIT_CANDIDATES : Nat := 10

/-- What the handler calls outside the two tables. -/
structure QueryEnv where
  sha256 : String → List UInt8
  toLowercase : String → String
  thresholds : QaThresholds
  /-- Neighbours of the embedding of a text in the question space, best first. -/
  questionSearch : String → Nat → Option (List (Int × Rat))
  /-- Hybrid search in a buffer; `0` is the id of none. -/
  hybridSearch : Int → String → Nat → Except String (List SearchResult)
  scan : ScanOrder QaCacheRow

structure QueryWithCacheResponse where
  cacheId : String
  hit : Bool
  tier : Int
  similarity : Rat
  answerText : String
  provenance : List SearchResult
  candidates : List SearchResult
  digestK : Nat
  provenanceK : Nat
  answerVersion : Int
  deriving DecidableEq, Repr

section Handler

variable (env : QueryEnv)

/-- Without white space, in lower case. -/
def questionHash (question : String) : String :=
  hexEncode (env.sha256 (env.toLowercase
    (String.ofList (question.toList.filter fun c => !Text.isWhiteSpace c))))

def resolveBuffer (buffers : SeqTable Buffer) (project : String) (explicit : Int) : Option Int :=
  if explicit > 0 then some explicit
  else (buffers.select fun _ r => r.name == project).head?.map Prod.fst

/-- A failed search gives no ids, and so no near hit. -/
def topChunkIds (question : String) (k : Nat) : List String :=
  match env.hybridSearch 0 question k with
  | .ok results => results.map fun r => toString r.chunkId
  | .error _ => []

def missResponse (bufferId : Option Int) (question : String) (bestSim : Rat) :
    Except String QueryWithCacheResponse :=
  (env.hybridSearch (bufferId.getD 0) question env.thresholds.novelK).map fun candidates => {
    cacheId := ""
    hit := false
    tier := -1
    similarity := bestSim
    answerText := ""
    provenance := []
    candidates := candidates
    digestK := env.thresholds.novelK
    provenanceK := env.thresholds.provenanceK
    answerVersion := 0 }

def hitResponse (chunks : SeqTable Chunk) (row : QaCacheRow) (tier : Int) (similarity : Rat)
    (digestK provenanceK : Nat) : QueryWithCacheResponse where
  cacheId := row.cacheId
  hit := true
  tier := tier
  similarity := similarity
  answerText := row.answerText
  provenance := provenanceChunks chunks row.sourceChunkIds env.thresholds.provenanceK
  candidates := []
  digestK := digestK
  provenanceK := provenanceK
  answerVersion := row.version

/-- The best neighbour of the question. -/
def nearest (question : String) : Option (Int × Rat) :=
  (env.questionSearch (QUESTION_PREFIX ++ question) NEAR_HIT_CANDIDATES).bind List.head?

/-- Its row, when it is near enough, of the project and not stale. -/
def nearCandidate (qa : Table QaCacheRow) (project question : String) :
    Option (Int × Rat × QaCacheRow) :=
  (nearest env question).bind fun best =>
    if best.2 ≥ env.thresholds.simFloor then
      (getQaByRowid qa best.1).bind fun cand =>
        if cand.project == project && !cand.stale then some (best.1, best.2, cand) else none
    else none

/-- Near hit or miss. -/
def queryNear (chunks : SeqTable Chunk) (qa : Table QaCacheRow) (project question : String)
    (bufferId : Option Int) (now : Int) :
    Table QaCacheRow × Except String QueryWithCacheResponse :=
  let bestSim := ((nearest env question).map Prod.snd).getD 0
  match nearCandidate env qa project question with
  | none => (qa, missResponse env bufferId question bestSim)
  | some (id, similarity, cand) =>
    let checked := provenanceIntact chunks qa id cand now
    if !checked.2 then (checked.1, missResponse env bufferId question bestSim)
    else
      let newIds := topChunkIds env question env.thresholds.novelK
      let plan := resolvePlan similarity (jaccardSimilarity newIds cand.sourceChunkIds)
        env.thresholds
      if plan.isMiss then (checked.1, missResponse env bufferId question bestSim)
      else (touchQa checked.1 id now,
        .ok (hitResponse env chunks cand plan.tier similarity plan.digestK plan.provenanceK))

def handleQueryWithCache (db : IndexDb) (qa : Table QaCacheRow) (project question : String)
    (explicit now : Int) : Table QaCacheRow × Except String QueryWithCacheResponse :=
  if Text.isBlank project then (qa, .error "project is required")
  else if Text.isBlank question then (qa, .error "question is required")
  else
    let bufferId := resolveBuffer db.buffers project explicit
    match getCachedAnswer env.scan qa project (questionHash env question) with
    | none => queryNear env db.chunks qa project question bufferId now
    | some (id, row) =>
      let checked := provenanceIntact db.chunks qa id row now
      if checked.2 then (touchQa checked.1 id now,
        .ok (hitResponse env db.chunks row 0 1 0 env.thresholds.provenanceK))
      else queryNear env db.chunks checked.1 project question bufferId now

end Handler

end Arags
