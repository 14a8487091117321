import Arags.Rlm.Submissions
import Mathlib.Algebra.Ring.Rat

/-!
# Arags.Rlm.Consensus

The agreement test of `quorum.rs` on a set of candidates, over exact rationals.

* `bestAgreeingClique` — the largest set of candidates that agree pairwise, found by running
  through the bit masks of a `u32`.
* `agreeingSet`     — what a decision takes as the agreeing set, with the bound `minClique`.
* `choosePublished` — the candidate whose text is published.
-/

namespace Arags

inductive FusionStrategy where
  | consensus | average | longest
  deriving DecidableEq, Repr

structure QuorumConfig where
  n : Nat
  quorumSimThreshold : Rat
  fusionStrategy : FusionStrategy
  strikesLimit : Nat
  deriving Repr

abbrev Embedding := List Rat

/-- The embedding model and the cosine of two vectors, with its square roots. -/
structure Embedder where
  embedBatch : List String → Option (List Embedding)
  cosineSimilarity : Embedding → Embedding → Rat

/-! ## Cliques -/

/-- The similarities of the pairs of a list of candidates. -/
def pairSims (sims : List (List Rat)) : List Nat → List Rat
  | [] => []
  | a :: rest => rest.map (fun b => (sims.getD a []).getD b 0) ++ pairSims sims rest

/-- `mask & (1u32 << i) != 0`; a shift count is taken modulo 32. -/
def membersOf (n mask : Nat) : List Nat := (List.range n).filter fun i => mask.testBit (i % 32)

/-- The best clique so far; `none` is the initial `NEG_INFINITY`. -/
structure BestClique where
  members : List Nat
  minSim : Option Rat
  deriving DecidableEq, Repr

def considerMask (sims : List (List Rat)) (threshold : Rat) (best : BestClique) (mask : Nat) :
    BestClique :=
  let members := membersOf sims.length mask
  let pairs := pairSims sims members
  if members.length < 2 then best
  else if pairs.all (fun s => decide (threshold ≤ s)) &&
      (decide (best.members.length < members.length) ||
        (members.length == best.members.length &&
          best.minSim.all fun m => pairs.min?.all fun s => decide (m < s))) then
    ⟨members, pairs.min?⟩
  else best

/-- `for mask in 1..(1u32 << n)`. -/
def bestAgreeingClique (sims : List (List Rat)) (threshold : Rat) : List Nat :=
  if sims.length < 2 then []
  else
    ((List.range' 1 (2 ^ (sims.length % 32) - 1)).foldl (considerMask sims threshold)
      ⟨[], none⟩).members

/-- The `2f + 1` bound for `f = (n - 1) / 3`. -/
def minClique (n : Nat) : Nat := 2 * ((n - 1) / 3) + 1

def similarityMatrix (e : Embedder) (vectors : List Embedding) : List (List Rat) :=
  vectors.map fun v => vectors.map fun w => e.cosineSimilarity v w

def agreeingSet (e : Embedder) (cfg : QuorumConfig) (vectors : List Embedding) : List Nat :=
  if max cfg.n 1 = 1 then [0]
  else bestAgreeingClique (similarityMatrix e vectors) cfg.quorumSimThreshold

/-! ## Fusion -/

/-- Mean vector of the agreeing candidates. -/
def centroid (agreeing : List Nat) (vectors : List Embedding) : Embedding :=
  (List.range ((vectors.head?.map List.length).getD 0)).map fun d =>
    (agreeing.map fun i => (vectors.getD i []).getD d 0).sum / (max agreeing.length 1 : Nat)

/-- `read_trust`: strikes and trust score, `(0, 1.0)` if never seen. -/
def readTrust (ledger : List VolunteerTrust) (volunteer : String) : Int × Rat :=
  ((ledger.find? fun vt => vt.username == volunteer).map
    fun vt => (vt.strikes, vt.trustScore)).getD (0, 1)

def candidateScore (e : Embedder) (strategy : FusionStrategy) (center : Embedding)
    (candidate : Submission) (vector : Embedding) (trust : Rat) : Rat :=
  let base : Rat := match strategy with
    | .longest => (candidate.candidateText.utf8ByteSize : Nat)
    | .consensus | .average => e.cosineSimilarity center vector
  base * (1 / 2 + 1 / 2 * max trust 0)

/-- The first member of the agreeing set with the highest score. -/
def choosePublished (e : Embedder) (cfg : QuorumConfig) (agreeing : List Nat)
    (pending : List (Int × Submission)) (vectors : List Embedding)
    (ledger : List VolunteerTrust) : Nat :=
  let center := centroid agreeing vectors
  let score := fun i => (pending[i]?.map fun s => candidateScore e cfg.fusionStrategy center s.2
    (vectors.getD i []) (readTrust ledger s.2.candidateBy).2).getD 0
  (agreeing.foldl (fun (best : Nat × Option Rat) i =>
    if best.2.all fun b => decide (b < score i) then (i, some (score i)) else best)
    (agreeing.headD 0, none)).1

end Arags
