import Arags.Archive.TimeTravel
import Arags.Lib.Ranking
import Arags.Lib.Text
import Mathlib.Algebra.Order.Group.Unbundled.Abs
import Mathlib.Algebra.Order.Ring.Unbundled.Rat
import Mathlib.Algebra.Ring.Rat

/-!
# Arags.Search.Summary

The search over the summary nodes, `summary_search` of `grpc/search/summary.rs`.

* `summaryLexical`, `summarySemantic` — the two rankings; the full-text index and the vector index
  cut their hits before the filter of the buffer.
* `fuseSummaries`  — Reciprocal Rank Fusion, the candidates in the order of their row ids.
* `reviseAt`       — a candidate at a past epoch; without a revision there it stays as it is.
* `summarySearch`  — order, normalised scores and limit.
-/

namespace Arags

open Sql

structure SummaryCandidate where
  nodeId : String
  rowid : Int
  level : Int
  subject : String
  text : String
  score : Rat
  epoch : Int
  createdBy : Option String
  model : Option String
  version : Int
  deriving DecidableEq, Repr

/-- What the search calls outside the table of nodes. -/
structure SummaryEnv (ε : Type) where
  /-- The row ids that `rlm_fts` matches, by rank; the index holds the nodes of every project. -/
  matchFts : Table RlmNode → String → Except String (List Int)
  scan : ScanOrder RlmNode
  embed : String → Option ε
  /-- The store of the summary vectors is there. -/
  available : Bool
  search : (AList fun _ : Int => ε) → ε → Nat → Except String (List (Int × Rat))

def RRF_K : Rat := 60

def rrfScore (rank : Nat) (k : Rat) : Rat := 1 / (k + rank + 1)

/-- What a ranking adds to the score of a row. -/
def rrfSum (ranking : List (Int × RlmNode)) (rowid : Int) : Rat :=
  ((ranking.zipIdx.filter fun x => x.1.1 == rowid).map fun x => rrfScore x.2 RRF_K).sum

section Search

variable {ε : Type} (env : SummaryEnv ε) (nodes : Table RlmNode)

/-- `search_rlm_fts`: the limit is inside the subquery, the buffer outside. -/
def searchRlmFtsLimited (bufferId : Int) (query : String) (limit : Nat) :
    Except String (List (Int × RlmNode)) :=
  (env.matchFts nodes query).map fun hits =>
    searchRlmFts env.scan nodes bufferId (hits.take limit)

/-- Where all words together yield nothing, any of them. -/
def summaryLexical (bufferId : Int) (ftsQuery : String) (topK : Nat) :
    Except String (List (Int × RlmNode)) :=
  let words := Text.splitWhitespace ftsQuery
  match searchRlmFtsLimited env nodes bufferId ftsQuery topK with
  | .error e => .error e
  | .ok found =>
    if found.isEmpty && words.length > 1 then
      searchRlmFtsLimited env nodes bufferId (" OR ".intercalate words) topK
    else .ok found

def summarySemantic (vectors : AList fun _ : Int => ε) (bufferId : Int) (ftsQuery : String)
    (topK : Nat) : Except String (List (Int × RlmNode)) :=
  if !env.available then .ok []
  else
    match env.embed ftsQuery with
    | none => .ok []
    | some vec =>
      match env.search vectors vec topK with
      | .error e => .error e
      | .ok found =>
        let neighbours := Ranking.best Prod.snd found
        let approved := getApprovedRlmNodes env.scan nodes (neighbours.map Prod.fst) bufferId
        .ok (neighbours.filterMap fun nb => approved.find? fun x => x.1 == nb.1)

end Search

def candidateOf (rowid : Int) (n : RlmNode) (score : Rat) : SummaryCandidate where
  nodeId := n.nodeId
  rowid := rowid
  level := n.level
  subject := n.subject
  text := n.summaryText
  score := score
  epoch := n.epoch
  createdBy := n.createdBy
  model := n.model
  version := n.version

def fuseSummaries (lexical semantic : List (Int × RlmNode)) : List SummaryCandidate :=
  let ranked := lexical ++ semantic
  ((ranked.map Prod.fst).dedup.insertionSort (· ≤ ·)).filterMap fun rowid =>
    (ranked.reverse.find? fun x => x.1 == rowid).map fun x =>
      candidateOf rowid x.2 (rrfSum lexical rowid + rrfSum semantic rowid)

/-- The revision of the candidate's `(project, level, subject)` at the epoch, if there is one. -/
def reviseAt (nodes : Table RlmNode) (project : String) (asOfEpoch : Int) (s : SummaryCandidate) :
    SummaryCandidate :=
  match getRlmNodeAsOf nodes project s.level s.subject asOfEpoch with
  | none => s
  | some (_, node) => { s with
    text := node.summaryText
    subject := node.subject
    epoch := node.epoch
    createdBy := node.createdBy
    model := node.model
    version := node.version }

/-- `f32::EPSILON`. -/
def EPSILON : Rat := 1 / 2 ^ 23

/-- A score between the least and the greatest. -/
def normalizedScore (scores : List Rat) (score : Rat) : Rat :=
  let min_ := scores.min?.getD 0
  let max_ := scores.max?.getD 0
  if scores.length < 2 then 1
  else if |max_ - min_| < EPSILON then 1
  else (score - min_) / (max_ - min_)

def normalizeSummaries (summaries : List SummaryCandidate) : List SummaryCandidate :=
  summaries.map fun s =>
    { s with score := normalizedScore (summaries.map SummaryCandidate.score) s.score }

/-- The candidates of both rankings, before they are put in order. -/
def summaryFused {ε : Type} (env : SummaryEnv ε) (nodes : Table RlmNode)
    (vectors : AList fun _ : Int => ε) (bufferId : Int) (ftsQuery : String) (topK : Nat) :
    Except String (List SummaryCandidate) :=
  match summaryLexical env nodes bufferId ftsQuery topK with
  | .error e => .error e
  | .ok lexical =>
    match summarySemantic env nodes vectors bufferId ftsQuery topK with
    | .error e => .error e
    | .ok semantic => .ok (fuseSummaries lexical semantic)

def summarySearch {ε : Type} (env : SummaryEnv ε) (nodes : Table RlmNode)
    (vectors : AList fun _ : Int => ε) (bufferId : Int) (project ftsQuery : String) (topK : Nat)
    (asOfEpoch : Int) : Except String (List SummaryCandidate) :=
  (summaryFused env nodes vectors bufferId ftsQuery topK).map fun fused =>
    let revised := if asOfEpoch > 0 then fused.map (reviseAt nodes project asOfEpoch) else fused
    -- by descending score, of equals the smaller row id
    (normalizeSummaries (Ranking.best SummaryCandidate.score revised)).take topK

end Arags
