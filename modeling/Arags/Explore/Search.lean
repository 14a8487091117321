import Arags.Archive.AsOf
import Arags.Explore.Operations
import Arags.Lib.Ranking
import Mathlib.Algebra.Order.Ring.Unbundled.Rat

/-!
# Arags.Explore.Search

The search over exploration maps, `search_explorations_core` of `grpc/exploration/search.rs`.

* `confidenceScore`, `claimText` — the pure parts of `arags-core/src/exploration.rs`.
* `groundCandidate` — verify-on-hit; embedding and the chunk search are arguments.
* `searchHits`     — candidates, gates, order and limit; each hit with the candidate behind it.
* `mapServer_liveLast` — what holds of the maps in every state.
* `live_search`    — when every hit is the active revision of its question.
-/

namespace Arags

open Sql

/-! ## Confidence -/

structure ConfidenceConfig where
  hitHigh : Rat
  hitLow : Rat
  driftWeight : Rat
  driftFloor : Rat
  ageWeight : Rat
  ageFloor : Rat
  feedbackWeight : Rat
  maxAgeDays : Rat
  deriving DecidableEq, Repr

def ConfidenceConfig.default : ConfidenceConfig :=
  ⟨72 / 100, 55 / 100, 1 / 10, 1 / 4, 3 / 10, 4 / 10, 1 / 10, 90⟩

inductive HitClass where
  | none | related | strong
  deriving DecidableEq, Repr

def ConfidenceConfig.classify (cfg : ConfidenceConfig) (similarity : Rat) : HitClass :=
  if similarity ≥ cfg.hitHigh then .strong
  else if similarity ≥ cfg.hitLow then .related
  else .none

def MANTISSA_LIMIT : Nat := 2 ^ 24

def exactCount (value : Nat) : Rat := (min value MANTISSA_LIMIT : Nat)

def clamp01 (value : Rat) : Rat := max 0 (min value 1)

def confidenceScore (similarity : Rat) (epochDrift ageDays confirmed contradicted : Nat)
    (cfg : ConfidenceConfig) : Rat :=
  let driftFactor := max (1 - cfg.driftWeight * exactCount epochDrift) cfg.driftFloor
  let ageRatio := if cfg.maxAgeDays ≤ 0 then 1 else exactCount ageDays / cfg.maxAgeDays
  let ageFactor := max (1 - cfg.ageWeight * ageRatio) cfg.ageFloor
  let total := exactCount confirmed + exactCount contradicted
  let feedback :=
    if total = 0 then 0 else (exactCount confirmed - exactCount contradicted) / total
  clamp01 (clamp01 similarity * driftFactor * ageFactor + cfg.feedbackWeight * feedback)

/-! ## Grounding -/

/-- The text before the first `sep`, and the text after it. -/
def splitOnce (sep : List Char) : List Char → Option (List Char × List Char)
  | [] => if sep.isEmpty then some ([], []) else none
  | c :: cs =>
    if sep.isPrefixOf (c :: cs) then some ([], (c :: cs).drop sep.length)
    else (splitOnce sep cs).map fun p => (c :: p.1, p.2)

/-- The trimmed text of a section, up to the next heading. -/
def sectionText (body heading : String) : Option String :=
  (splitOnce heading.toList body.toList).bind fun p =>
    let content := ((splitOnce "\n## ".toList p.2).map Prod.fst).getD p.2
    let text := Text.trim (String.ofList content)
    if text.isEmpty then none else some text

def claimText (bodyMarkdown : String) : String :=
  let body := Text.trim bodyMarkdown
  (((["## Conexões", "## Mapa"].filterMap (sectionText body)).head?).getD body)

inductive Grounding where
  | supported | unsupported
  deriving DecidableEq, Repr

def GROUNDING_TOP_K : Nat := 5

/-- What the search calls outside the maps. -/
structure SearchEnv (ε : Type) where
  /-- The store of the map vectors is there. -/
  available : Bool
  embedLenient : String → Option ε
  search : (AList fun _ : Int => ε) → ε → Nat → Except String (List (Int × Rat))
  /-- Distances of the chunks of a buffer, nearest first. -/
  searchSimilar : ε → Int → Nat → Except String (List Rat)
  /-- `verify_on_hit`, with a store of the chunk vectors. -/
  verify : Bool
  groundingMinSimilarity : Rat
  cfg : ConfidenceConfig

def groundCandidate {ε : Type} (env : SearchEnv ε) (row : ExplorationRow) : Option Grounding :=
  let claim := claimText row.body
  if claim.isEmpty then some .unsupported
  else
    match env.embedLenient claim with
    | none => none
    | some claimVec =>
      match env.searchSimilar claimVec (max (row.bufferId.getD 0) 0) GROUNDING_TOP_K with
      | .error _ => none
      | .ok matches_ =>
        -- without a match the distance is infinite
        let best := (matches_.head?.map fun d => clamp01 (1 - d / 2)).getD 0
        if best ≥ env.groundingMinSimilarity then some .supported else some .unsupported

/-! ## The search -/

structure MapCandidate where
  id : Int
  row : ExplorationRow
  count : FeedbackCount
  broken : List String
  similarity : Rat

structure ExplorationHit where
  explorationId : String
  goal : String
  summary : String
  confidence : Rat
  similarity : Rat
  status : MapStatus
  staleReason : List String
  epochDrift : Int
  confirmed : Int
  contradicted : Int
  createdBy : String
  model : String
  epoch : Int
  deriving DecidableEq, Repr

namespace MapCandidate

def isStale (c : MapCandidate) : Bool := !c.broken.isEmpty || c.row.status != .fresh

/-- `u32::try_from(value.clamp(0, u32::MAX))`. -/
def saturateU32 (value : Int) : Nat := (min (max value 0) (2 ^ 32 - 1)).toNat

def MS_PER_DAY : Int := 86400000

def confidence (c : MapCandidate) (cfg : ConfidenceConfig) (epoch now : Int) : Rat :=
  confidenceScore c.similarity (saturateU32 (epoch - c.row.epochCreated))
    (saturateU32 (max (now - c.row.createdAt) 0 / MS_PER_DAY)) (saturateU32 c.count.confirmed)
    (saturateU32 c.count.contradicted) cfg

def hitFrom (c : MapCandidate) (confidence : Rat) (epoch : Int) : ExplorationHit where
  explorationId := c.row.explorationId
  goal := c.row.goal
  summary := c.row.summary
  confidence := confidence
  similarity := c.similarity
  status := if c.broken.isEmpty then c.row.status else .stale
  staleReason := if c.broken.isEmpty then c.row.staleReason.getD [] else c.broken
  epochDrift := min (max (epoch - c.row.epochCreated) 0) (2 ^ 31 - 1)
  confirmed := c.count.confirmed
  contradicted := c.count.contradicted
  createdBy := c.row.createdBy
  model := c.row.model.getD ""
  epoch := c.row.epochCreated

end MapCandidate

def SEARCH_MARGIN : Nat := 3

section Core

variable {ε : Type} (env : SearchEnv ε) (s : MapServer ε) (project query : String) (limit : Nat)
variable (includeStale : Bool) (asOfEpoch now : Int)

/-- `recheck_anchors_for_rowid`. -/
def recheckAnchors (rowid : Int) : List String :=
  (s.maps.explorationFiles.filter fun f => f.1 == rowid && f.2.broken s.index.chunks).map
    fun f => f.2.path

/-- The row behind a neighbour; with `asOfEpoch`, the revision of its question at that epoch. The
anchors are those of the neighbour itself. -/
def hydrate (neighbour : Int × Rat) : Option MapCandidate :=
  (s.maps.explorations.get? neighbour.1).bind fun found =>
    let resolved := if asOfEpoch > 0 then
        getExplorationAsOf s.maps found.project found.goal asOfEpoch
      else some (neighbour.1, found)
    resolved.bind fun x =>
      if x.2.project != project then none
      else some {
        id := x.1
        row := x.2
        count := s.feedback x.1
        broken := recheckAnchors s neighbour.1
        similarity := neighbour.2 }

/-- The gates: what surfaces of a candidate, with its score. -/
def surface (c : MapCandidate) : Option (Rat × ExplorationHit) :=
  let epoch := currentProjectEpoch s.maps project
  if c.row.status == .retired || c.row.status == .pendingReview then none
  else if !includeStale && c.isStale then none
  else if env.cfg.classify c.similarity == .none then none
  else
    let grounding := if env.verify then groundCandidate env c.row else none
    if grounding == some .unsupported then
      if !includeStale then none
      else some (0, { c.hitFrom 0 epoch with
        status := .stale
        confidence := 0
        staleReason := ["grounding weak: no supporting chunks found"] })
    else
      let score := c.confidence env.cfg epoch now
      some (score, c.hitFrom score epoch)

/-- The candidates that surface, in the order of the neighbours. -/
def surfacing (neighbours : List (Int × Rat)) : List (MapCandidate × Rat × ExplorationHit) :=
  (neighbours.filterMap (hydrate s project asOfEpoch)).filterMap fun c =>
    (surface env s project includeStale now c).map fun hit => (c, hit)

/-- The hits, each with its candidate. A hit is also touched, in columns that are not kept here. -/
def searchHits : Except String (List (MapCandidate × ExplorationHit)) :=
  if limit = 0 then .ok []
  else if !env.available then .ok []
  else
    match env.embedLenient query with
    | none => .error "embedding unavailable"
    | some queryVec =>
      match env.search s.vectors queryVec (limit + SEARCH_MARGIN) with
      | .error e => .error e
      | .ok neighbours =>
        let ranked := Ranking.best (fun x : MapCandidate × Rat × ExplorationHit => x.2.1)
          (surfacing env s project includeStale asOfEpoch now neighbours)
        .ok ((ranked.take limit).map fun x => (x.1, x.2.2))

def searchExplorationsCore : Except String (List ExplorationHit) :=
  (searchHits env s project query limit includeStale asOfEpoch now).map fun hits =>
    hits.map Prod.snd

end Core

/-! ## The maps of a run -/

section Run

variable {ε : Type} (ix : Indexer) (scan : ScanOrder ExplorationRow) (enabled : Bool)

theorem setUnretired_marks (db : ExplorationDb) (p : Int → ExplorationRow → Bool)
    (status : MapStatus) (now : Int) :
    Marks explorationColumns db.explorations (setUnretired db p status now).explorations :=
  .update db.explorations (p := fun i r => p i r && r.status != .retired)
    (f := fun _ r => { r with status := status, updatedAt := now })
    (fun _ _ => rfl) (fun _ _ => rfl) fun _ _ => rfl

theorem invalidateStale_marks (db : ExplorationDb) (explorationId reason : String) (now : Int) :
    Marks explorationColumns db.explorations
      (invalidateExplorationStale db explorationId reason now).explorations :=
  .update db.explorations (p := fun _ r => r.explorationId == explorationId && r.status == .fresh)
    (f := fun _ r => { r with
      status := .stale, staleReason := some (r.staleReason.getD [reason]), updatedAt := now })
    (fun _ _ => rfl) (fun _ _ => rfl) fun _ _ => rfl

theorem persist_liveLast {db : ExplorationDb} (h : LiveLast explorationColumns db.explorations)
    (chunkScan : ScanOrder Chunk) (index : IndexDb) (req : PersistExplorationRequest)
    (username : String) (gate : ReviewGate) (explorationId : String) (now : Int) :
    LiveLast explorationColumns (handlePersistExploration scan chunkScan enabled index db req
      username gate explorationId now).1.explorations := by
  obtain ⟨e, he⟩ | ⟨_, _, stored, id, -, hp, he⟩ := handlePersistExploration_cases scan chunkScan
    enabled index db req username gate explorationId now
  · rw [he]
    exact h
  · rw [he]
    have hstored := h.supersede (persist_supersedes h.liveUnique hp)
    dsimp only
    split
    · exact hstored.marks (markPending_marks stored id)
    · exact hstored

theorem feedback_marks (s : MapServer ε) (explorationId : String) (kind : FeedbackKind)
    (limit now : Int) : Marks explorationColumns s.maps.explorations
      (recordFeedback s explorationId kind limit now).maps.explorations := by
  have htouched : ∀ id, Marks explorationColumns s.maps.explorations
      (touchedByFeedback s.maps id kind now).explorations :=
    fun id => .update s.maps.explorations
      (p := fun i r => i == id && (kind == .confirm || r.status != .retired))
      (f := fun _ r => { r with updatedAt := now }) (fun _ _ => rfl) (fun _ _ => rfl) fun _ _ => rfl
  exact recordFeedback_keeps s
    (P := fun db => Marks explorationColumns s.maps.explorations db.explorations) explorationId kind
    limit now (.refl _) htouched fun id => (htouched id).trans (setUnretired_marks _ _ _ now)

theorem stepMaps_liveLast (s : MapServer ε) (op : MapOp ε)
    (h : LiveLast explorationColumns s.maps.explorations) :
    LiveLast explorationColumns (stepMaps ix scan enabled s op).maps.explorations := by
  cases op with
  | stream msgs now =>
    unfold stepMaps indexWithMaps
    dsimp only
    split
    · exact h.marks (markMaps_marks ..)
    · exact h
  | persist req username gate explorationId now vector =>
    have hp := persist_liveLast scan enabled h ix.scan s.index req username gate explorationId now
    unfold stepMaps
    dsimp only
    split
    · rename_i heq
      rw [heq] at hp
      exact hp
    · exact h
  | markStale project now => exact h.marks (markMaps_marks ..)
  | feedback explorationId kind limit now => exact h.marks (feedback_marks ..)
  | invalidate explorationId reason mode now =>
    unfold stepMaps handleInvalidateExploration
    dsimp only
    split
    · exact h
    · exact h.marks (invalidateStale_marks ..)
    · exact h.delete fun i _ => i == _
  | review explorationId approved now => exact h.marks (setUnretired_marks ..)
  | reconcile id vector =>
    unfold stepMaps
    dsimp only
    split <;> exact h

theorem mapServer_liveLast (ops : List (MapOp ε)) : LiveLast explorationColumns
    (Lts.after (stepMaps ix scan enabled) .empty ops).maps.explorations :=
  Lts.run_inv (I := fun _ s => LiveLast explorationColumns s.maps.explorations) .empty
    (fun _ s op h => stepMaps_liveLast ix scan enabled s op h) ops

end Run

/-! ## Live maps -/

section Live

variable {ε : Type} (env : SearchEnv ε) (s : MapServer ε) (project query : String) (limit : Nat)
variable (includeStale : Bool) (now : Int)

/-- The map of a hit, as the searched state holds it. -/
structure MapLive (c : MapCandidate) : Prop where
  stored : (c.id, c.row) ∈ s.maps.explorations.rows
  active : c.row.isActive = true
  current : latest (revisionLog explorationColumns s.maps.explorations) (c.row.project, c.row.goal)
    = some c.id
  approved : c.row.status ≠ .pendingReview
  unretired : c.row.status ≠ .retired
  project_eq : c.row.project = project

/-- What the index returns for the query. -/
def mapNeighbours : Option (List (Int × Rat)) :=
  if limit = 0 || !env.available then none
  else
    (env.embedLenient query).bind fun queryVec =>
      (env.search s.vectors queryVec (limit + SEARCH_MARGIN)).toOption

/-- A neighbour that passes the gates, with its score and its hit. -/
def surfaced (neighbour : Int × Rat) : Option (MapCandidate × Rat × ExplorationHit) :=
  (hydrate s project 0 neighbour).bind fun c =>
    (surface env s project includeStale now c).map fun hit => (c, hit)

def surfacedScore (neighbour : Int × Rat) : Option Rat :=
  (surfaced env s project includeStale now neighbour).map fun x => x.2.1

/-- A neighbour whose row has `p` fails a gate, or `limit` others are ahead of it. -/
def RowsOutranked (p : ExplorationRow → Prop) : Prop :=
  ∀ neighbours, mapNeighbours env s query limit = some neighbours →
    ∀ pre n post, neighbours = pre ++ n :: post →
      ∀ row, s.maps.explorations.get? n.1 = some row → p row →
        ∀ score, surfacedScore env s project includeStale now n = some score →
          limit ≤ pre.countP (fun m => (surfacedScore env s project includeStale now m).any
              fun other => decide (score ≤ other)) +
            post.countP fun m => (surfacedScore env s project includeStale now m).any
              fun other => decide (score < other)

/-- A superseded map among the neighbours fails a gate, or `limit` others are ahead of it. -/
def SupersededOutranked : Prop :=
  ∀ neighbours, mapNeighbours env s query limit = some neighbours →
    ∀ pre n post, neighbours = pre ++ n :: post →
      ∀ row, s.maps.explorations.get? n.1 = some row → row.isActive = false →
        ∀ score, surfacedScore env s project includeStale now n = some score →
          limit ≤ pre.countP (fun m => (surfacedScore env s project includeStale now m).any
              fun other => decide (score ≤ other)) +
            post.countP fun m => (surfacedScore env s project includeStale now m).any
              fun other => decide (score < other)

variable {env s project query limit includeStale now}

theorem surfaced_some {n : Int × Rat} {x : MapCandidate × Rat × ExplorationHit}
    (h : surfaced env s project includeStale now n = some x) :
    x.1.id = n.1 ∧ s.maps.explorations.get? n.1 = some x.1.row ∧ x.1.row.project = project ∧
      x.1.row.status ≠ .retired ∧ x.1.row.status ≠ .pendingReview := by
  obtain ⟨c, hc, hx⟩ := Option.bind_eq_some_iff.mp h
  obtain ⟨hit, hhit, rfl⟩ := Option.map_eq_some_iff.mp hx
  obtain ⟨row, hrow, hc⟩ := Option.bind_eq_some_iff.mp hc
  have hstatus : c.row.status ≠ .retired ∧ c.row.status ≠ .pendingReview := by
    unfold surface at hhit
    dsimp only at hhit
    split at hhit
    · cases hhit
    · rename_i hgate
      simpa using hgate
  simp only [gt_iff_lt, Int.lt_irrefl, if_false, Option.bind_some] at hc
  split at hc
  · cases hc
  · rename_i hproject
    rw [Option.some.injEq] at hc
    subst hc
    exact ⟨rfl, hrow, by simpa using hproject, hstatus⟩

theorem surfacing_eq (neighbours : List (Int × Rat)) :
    surfacing env s project includeStale 0 now neighbours =
      neighbours.filterMap (surfaced env s project includeStale now) :=
  List.filterMap_filterMap

/-- A hit is a neighbour that surfaces with less than `limit` others ahead. -/
theorem mem_searchHits {h : MapCandidate × ExplorationHit} :
    (∃ hits, searchHits env s project query limit includeStale 0 now = .ok hits ∧ h ∈ hits) ↔
      ∃ neighbours, mapNeighbours env s query limit = some neighbours ∧
        ∃ pre n post, neighbours = pre ++ n :: post ∧ ∃ score,
          surfaced env s project includeStale now n = some (h.1, score, h.2) ∧
          Ranking.aheadOf (surfaced env s project includeStale now) (fun x => x.2.1) pre post
            (h.1, score, h.2) < limit := by
  have hranked : ∀ neighbours,
      h ∈ ((Ranking.best (fun x : MapCandidate × Rat × ExplorationHit => x.2.1)
        (surfacing env s project includeStale 0 now neighbours)).take limit).map
          (fun x => (x.1, x.2.2)) ↔
      ∃ pre n post, neighbours = pre ++ n :: post ∧ ∃ score,
        surfaced env s project includeStale now n = some (h.1, score, h.2) ∧
        Ranking.aheadOf (surfaced env s project includeStale now) (fun x => x.2.1) pre post
          (h.1, score, h.2) < limit := by
    intro neighbours
    rw [surfacing_eq, List.mem_map]
    constructor
    · rintro ⟨⟨c, score, hit⟩, hx, rfl⟩
      obtain ⟨pre, n, post, hl, hn, hk⟩ := Ranking.mem_take_best_filterMap.mp hx
      exact ⟨pre, n, post, hl, score, hn, hk⟩
    · rintro ⟨pre, n, post, hl, score, hn, hk⟩
      exact ⟨_, Ranking.mem_take_best_filterMap.mpr ⟨pre, n, post, hl, hn, hk⟩, rfl⟩
  unfold searchHits mapNeighbours
  by_cases hlimit : limit = 0
  · simp [hlimit]
  cases havailable : env.available with
  | false => simp [hlimit]
  | true =>
    cases hquery : env.embedLenient query with
    | none => simp [hlimit]
    | some queryVec =>
      cases hsearch : env.search s.vectors queryVec (limit + SEARCH_MARGIN) with
      | error e => simp [hlimit, hsearch, Except.toOption]
      | ok neighbours =>
        simp only [hlimit, hsearch, Except.toOption, if_false, Bool.not_true, Bool.or_false,
          decide_false, Bool.false_eq_true, Option.bind_some, Except.ok.injEq, Option.some.injEq,
          exists_eq_left', hranked]

/-- Those ahead by what they surface with. -/
theorem aheadOf_surfaced (pre post : List (Int × Rat)) (x : MapCandidate × Rat × ExplorationHit) :
    Ranking.aheadOf (surfaced env s project includeStale now) (fun x => x.2.1) pre post x =
      pre.countP (fun m => (surfacedScore env s project includeStale now m).any
          fun other => decide (x.2.1 ≤ other)) +
        post.countP fun m => (surfacedScore env s project includeStale now m).any
          fun other => decide (x.2.1 < other) := by
  simp only [Ranking.aheadOf, surfacedScore, Option.any_map]

/-- No hit has a row with `p` exactly when those with `p` are outranked. -/
theorem searchHits_outranked {p : ExplorationRow → Prop} :
    (∀ hits, searchHits env s project query limit includeStale 0 now = .ok hits →
      ∀ h ∈ hits, ¬ p h.1.row) ↔
    RowsOutranked env s project query limit includeStale now p := by
  constructor
  · intro hall neighbours hn pre n post hl row hrow hp score hscore
    obtain ⟨⟨c, score, hit⟩, hx, rfl⟩ := Option.map_eq_some_iff.mp hscore
    by_contra hlt
    rw [not_le] at hlt
    have hahead := (aheadOf_surfaced pre post (c, score, hit)).trans_lt hlt
    obtain ⟨hits, hok, hmem⟩ := (mem_searchHits (h := (c, hit))).mpr
      ⟨neighbours, hn, pre, n, post, hl, score, hx, hahead⟩
    obtain ⟨-, hget, -⟩ := surfaced_some hx
    rw [hrow, Option.some.injEq] at hget
    exact hall hits hok (c, hit) hmem (hget ▸ hp)
  · intro hout hits hok h hmem hp
    obtain ⟨neighbours, hn, pre, n, post, hl, score, hx, hk⟩ :=
      mem_searchHits.mp ⟨hits, hok, hmem⟩
    obtain ⟨-, hget, -⟩ := surfaced_some hx
    have hscore : surfacedScore env s project includeStale now n = some score := by
      rw [surfacedScore, hx, Option.map_some]
    have hle := hout neighbours hn pre n post hl h.1.row hget hp score hscore
    rw [aheadOf_surfaced] at hk
    exact absurd hk (not_lt.mpr hle)

/-- Over a table whose active rows are the last of their questions. -/
theorem searchHits_live (hs : LiveLast explorationColumns s.maps.explorations) :
    (∀ hits, searchHits env s project query limit includeStale 0 now = .ok hits →
      ∀ h ∈ hits, MapLive s project h.1) ↔
    SupersededOutranked env s project query limit includeStale now := by
  refine Iff.trans ?_ (searchHits_outranked (p := fun row => row.isActive = false))
  refine forall_congr' fun hits => forall_congr' fun hok => forall_congr' fun h =>
    forall_congr' fun hmem => ?_
  rw [Bool.not_eq_false]
  constructor
  · exact MapLive.active
  · intro hactive
    obtain ⟨neighbours, -, -, n, -, -, score, hx, -⟩ := mem_searchHits.mp ⟨hits, hok, hmem⟩
    obtain ⟨hid, hget, hproject, hretired, hpending⟩ := surfaced_some hx
    have hstored : (h.1.id, h.1.row) ∈ s.maps.explorations.rows :=
      hid ▸ Table.get?_eq_some.mp hget
    exact {
      stored := hstored
      active := hactive
      current := hs.last _ hstored hactive
      approved := hpending
      unretired := hretired
      project_eq := hproject }

end Live

/-- In every run the hits of a search are live maps exactly when no superseded map outranks
enough of the others to be one. -/
theorem live_search {ε : Type} (ix : Indexer) (scan : ScanOrder ExplorationRow) (enabled : Bool)
    (ops : List (MapOp ε)) (env : SearchEnv ε) (project query : String) (limit : Nat)
    (includeStale : Bool) (now : Int) :
    let s := Lts.after (stepMaps ix scan enabled) .empty ops
    (∀ hits, searchHits env s project query limit includeStale 0 now = .ok hits →
      ∀ h ∈ hits, MapLive s project h.1) ↔
    SupersededOutranked env s project query limit includeStale now :=
  searchHits_live (mapServer_liveLast ix scan enabled ops)

/-- An index that finds every vector, all of one similarity. -/
def findsAll : SearchEnv Nat where
  available := true
  embedLenient := fun text => some text.length
  search := fun vectors _ k => .ok ((vectors.entries.take k).map fun e => (e.1, 9 / 10))
  searchSimilar := fun _ _ _ => .ok []
  verify := false
  groundingMinSimilarity := 45 / 100
  cfg := .default

/-- A question that is mapped twice. -/
def mappedTwice : List (MapOp Nat) :=
  [.persist { sampleMapRequest with bodyMarkdown := "# m, again" } "u" .approved "e2" 8 (some 3),
    .persist sampleMapRequest "u" .approved "e1" 5 (some 3),
    .stream (streamOf "p" "/p" [("m.rs", "a")]) 3]

/-- The first map is superseded. The search returns both. -/
theorem live_search_superseded :
    let s := Lts.after (stepMaps sampleIndexer .rowid true) .empty mappedTwice
    (searchExplorationsCore findsAll s "p" "where is m" 5 false 0 9).map
        (List.map ExplorationHit.explorationId) = .ok ["e2", "e1"] ∧
      ¬ ∀ hits, searchHits findsAll s "p" "where is m" 5 false 0 9 = .ok hits →
        ∀ h ∈ hits, MapLive s "p" h.1 := by
  intro s
  refine ⟨by decide +kernel, fun hlive => ?_⟩
  have hrun : (searchHits findsAll s "p" "where is m" 5 false 0 9).map
      (List.map fun h => h.1.row.isActive) = .ok [true, false] := by decide +kernel
  cases hhits : searchHits findsAll s "p" "where is m" 5 false 0 9 with
  | error e =>
    rw [hhits] at hrun
    cases hrun
  | ok hits =>
    rw [hhits] at hrun
    have hactive : ∀ a ∈ hits.map fun h => h.1.row.isActive, a = true := by
      intro a ha
      obtain ⟨h, hmem, rfl⟩ := List.mem_map.mp ha
      exact (hlive hits hhits h hmem).active
    have hlist : (hits.map fun h => h.1.row.isActive) = [true, false] := Except.ok.inj hrun
    rw [hlist] at hactive
    exact absurd (hactive false (by decide)) (by decide)

end Arags
