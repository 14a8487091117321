import Arags.Search.Sealed

/-!
# Arags.Search.Budget

How many items a response of `Search` holds. Summaries take their slots from the chunks; maps come
on top, under a limit of their own, and the tier of the summaries returns each of them twice.

* `unifySummaries_length` — where summaries take slots, the chunks are cut to the rest.
* `BudgetKept`, `search_budget` — the limit, part by part.
-/

namespace Arags

open Sql

/-! ## The slots -/

/-- Slots that are taken are taken from the chunks, and one stays. -/
theorem splitSummaryBudget_sum (maxResults : Nat) (ratio : Rat) (qualifying : Nat) :
    (splitSummaryBudget maxResults ratio qualifying).1 +
        (splitSummaryBudget maxResults ratio qualifying).2 = maxResults ∧
      (splitSummaryBudget maxResults ratio qualifying).1 ≤ maxResults - 1 := by
  unfold splitSummaryBudget
  generalize ⌊(maxResults : Rat) * ratio⌋.toNat = want
  dsimp only
  split_ifs with hnone hall hzero hzero
  · exact ⟨by dsimp only; omega, Nat.zero_le _⟩
  · exact ⟨by dsimp only; omega, Nat.zero_le _⟩
  · exact ⟨by dsimp only; omega, by dsimp only; omega⟩
  · exact ⟨by dsimp only; omega, Nat.zero_le _⟩
  · exact ⟨by dsimp only; omega, by dsimp only; omega⟩

section Call

variable {ε : Type} {env : SearchServerEnv ε} {s : SearchServer ε} {req : SearchRequest}

/-- Either no summary takes a slot and the chunks stay, or both fit. -/
theorem unifySummaries_length (env : SearchServerEnv ε) (s : SearchServer ε) (bufferId : Int)
    (project ftsQuery : String) (candidates : List SearchItem) (maxResults : Nat) :
    unifySummaries env s bufferId project ftsQuery candidates maxResults = (candidates, []) ∨
      (unifySummaries env s bufferId project ftsQuery candidates maxResults).1.length +
          (unifySummaries env s bufferId project ftsQuery candidates maxResults).2.length ≤
            maxResults ∧
        (unifySummaries env s bufferId project ftsQuery candidates maxResults).2.length ≤
          maxResults - 1 := by
  unfold unifySummaries
  dsimp only
  split
  · split
    · exact .inl rfl
    · rename_i all _
      generalize (all.filter fun x => decide (env.cfg.summaryMinScore ≤ x.score)) = qualifying
      obtain ⟨hsum, hone⟩ := splitSummaryBudget_sum maxResults (clampRatio env.cfg.summaryRatio)
        qualifying.length
      generalize splitSummaryBudget maxResults (clampRatio env.cfg.summaryRatio)
        qualifying.length = budget at hsum hone
      split
      · refine .inr ?_
        rw [List.length_map]
        have hchunks : (candidates.take budget.2).length ≤ budget.2 := List.length_take_le _ _
        have hhits : (qualifying.take budget.1).length ≤ budget.1 := List.length_take_le _ _
        dsimp only
        omega
      · exact .inl rfl
  · exact .inl rfl

theorem mapM_length {α β : Type} {f : α → Option β} {l : List α} {l' : List β}
    (h : l.mapM f = some l') : l'.length = l.length := by
  induction l generalizing l' with
  | nil =>
    cases h
    rfl
  | cons a l ih =>
    rw [List.mapM_cons] at h
    obtain ⟨b, -, h⟩ := Option.bind_eq_some_iff.mp h
    obtain ⟨rest, hrest, h⟩ := Option.bind_eq_some_iff.mp h
    cases h
    rw [List.length_cons, List.length_cons, ih hrest]

/-- A candidate has one revision at an epoch, or none. -/
theorem applyChunkAsOf_length {T : Int} {candidates found : List ChunkResult}
    (h : applyChunkAsOf env s T candidates = some found) : found.length ≤ candidates.length := by
  unfold applyChunkAsOf at h
  split at h
  · obtain rfl := Option.some.inj h
    exact Nat.le_refl _
  · obtain ⟨revised, hrevised, rfl⟩ := Option.map_eq_some_iff.mp h
    rw [← mapM_length hrevised]
    exact List.reduceOption_length_le _

theorem summarySearch_length {senv : SummaryEnv ε} {nodes : Table RlmNode}
    {vectors : AList fun _ : Int => ε} {bufferId : Int} {project ftsQuery : String} {topK : Nat}
    {asOfEpoch : Int} {found : List SummaryCandidate}
    (h : summarySearch senv nodes vectors bufferId project ftsQuery topK asOfEpoch = .ok found) :
    found.length ≤ topK := by
  unfold summarySearch at h
  cases hfused : summaryFused senv nodes vectors bufferId ftsQuery topK with
  | error e =>
    rw [hfused] at h
    cases h
  | ok fused =>
    rw [hfused] at h
    obtain rfl := Except.ok.inj h
    exact List.length_take_le _ _

theorem searchHits_length {senv : SearchEnv ε} {m : MapServer ε} {project query : String}
    {limit : Nat} {includeStale : Bool} {asOfEpoch now : Int}
    {hits : List (MapCandidate × ExplorationHit)}
    (h : searchHits senv m project query limit includeStale asOfEpoch now = .ok hits) :
    hits.length ≤ limit := by
  unfold searchHits at h
  split at h
  · obtain rfl := Except.ok.inj h
    exact Nat.zero_le _
  split at h
  · obtain rfl := Except.ok.inj h
    exact Nat.zero_le _
  split at h
  · cases h
  split at h
  · cases h
  obtain rfl := Except.ok.inj h
  rw [List.length_map]
  exact List.length_take_le _ _

/-- The maps that a configuration lets a response carry. -/
def mapLimit (cfg : SearchConfig) : Nat :=
  if cfg.explorationEnabled then cfg.explorationLimit else 0

theorem attachExplorations_length (project rawQuery : String) :
    (attachExplorations env s project rawQuery).length ≤ mapLimit env.cfg := by
  unfold attachExplorations mapLimit
  cases henabled : env.cfg.explorationEnabled with
  | false => exact Nat.zero_le _
  | true =>
    by_cases hlimit : env.cfg.explorationLimit > 0
    · simp only [hlimit, decide_true, Bool.and_self, if_true]
      cases hhits : searchHits env.maps s.maps project rawQuery env.cfg.explorationLimit false 0
          env.now with
      | error e => exact Nat.zero_le _
      | ok hits =>
        rw [List.length_map]
        exact searchHits_length hhits
    · simp [hlimit]

/-! ## The response -/

/-- The chunk search finds no more than the limit. -/
def ChunksWithin (env : SearchServerEnv ε) (s : SearchServer ε) (req : SearchRequest) : Prop :=
  ∀ bufferId found, bufferIdFor env s req.project = some bufferId →
    env.hybridSearch s.maps.index bufferId (sanitizeFts env req.query) (hybridTierOf env req.tier)
      (maxResultsOf env req) = .ok found → found.length ≤ maxResultsOf env req

structure BudgetKept (env : SearchServerEnv ε) (s : SearchServer ε) (req : SearchRequest)
    (resp : SearchResponse) : Prop where
  /-- Chunks and summaries share the limit. -/
  shared : req.tier ≠ .summary → resp.summaries ≠ [] ∨ ChunksWithin env s req →
    resp.results.length + resp.summaries.length ≤ maxResultsOf env req
  /-- One slot is for code. -/
  grounded : req.tier ≠ .summary → resp.summaries.length ≤ maxResultsOf env req - 1
  /-- In their own tier the summaries are in the response in both shapes, without maps. -/
  summaries : req.tier = .summary → resp.summaries.length ≤ maxResultsOf env req ∧
    resp.results.map SearchItem.chunkId = resp.summaries.map SummaryHit.rowid ∧
    resp.explorations = []
  maps : resp.explorations.length ≤ mapLimit env.cfg

/-- Whatever a response holds, it is within the limit in every part that the limit is for. -/
theorem search_budget {resp : SearchResponse} (h : handleSearch env s req = some (.ok resp)) :
    BudgetKept env s req resp := by
  unfold handleSearch at h
  split at h
  · cases h
  split at h
  · cases h
  rename_i bufferId hbuffer
  dsimp only at h
  split at h
  · rename_i htier
    cases hfound : summarySearch env.summary s.nodes s.nodeVectors bufferId req.project
        (sanitizeFts env req.query) (maxResultsOf env req) req.asOfEpoch with
    | error e =>
      rw [hfound] at h
      cases h
    | ok found =>
      rw [hfound] at h
      obtain rfl := Except.ok.inj (Option.some.inj h)
      refine ⟨fun hne => absurd htier hne, fun hne => absurd htier hne, fun _ => ⟨?_, ?_, rfl⟩,
        Nat.zero_le _⟩
      · rw [List.length_map]
        exact summarySearch_length hfound
      · rw [List.map_map, List.map_map]
        rfl
  · rename_i htier
    split at h
    · cases h
    rename_i candidates hcandidates
    obtain ⟨found, hfound, hresp⟩ := Option.map_eq_some_iff.mp h
    obtain rfl := Except.ok.inj hresp
    have hlength : (found.map toProtoResult).length ≤ candidates.length := by
      rw [List.length_map]
      exact applyChunkAsOf_length hfound
    refine ⟨fun _ hwithin => ?_, fun _ => ?_, fun ht => absurd ht htier,
      attachExplorations_length _ _⟩
    · obtain hnone | ⟨hle, -⟩ := unifySummaries_length env s bufferId req.project
        (sanitizeFts env req.query) (found.map toProtoResult) (maxResultsOf env req)
      · rw [hnone] at hwithin ⊢
        obtain hsome | hwithin := hwithin
        · exact absurd rfl hsome
        · exact hlength.trans (hwithin bufferId candidates hbuffer hcandidates)
      · exact hle
    · obtain hnone | ⟨-, hle⟩ := unifySummaries_length env s bufferId req.project
        (sanitizeFts env req.query) (found.map toProtoResult) (maxResultsOf env req)
      · rw [hnone]
        exact Nat.zero_le _
      · exact hle

end Call

/-- The chunks of a buffer are found, whatever the query. -/
def chunksAndMaps : SearchServerEnv Nat :=
  { mapsOnly with
    hybridSearch := fun db bufferId _ _ _ =>
      .ok ((db.chunks.select fun _ r => r.bufferId == bufferId && r.isActive).map fun x =>
        { chunkId := x.1
          score := 1
          filePath := x.2.filePath
          lineStart := x.2.lineStart
          lineEnd := x.2.lineEnd
          content := x.2.content
          language := x.2.language
          epoch := 0
          createdBy := none
          model := none
          version := x.2.version }) }

/-- One result is asked for. -/
def requestOne : SearchRequest := ⟨"p", "where is m", 1, .hybrid, 0⟩

/-- One chunk is found, and a map. -/
theorem chunksAndMaps_response : ∃ resp,
    handleSearch chunksAndMaps lateServer requestOne = some (.ok resp) ∧
      resp.results.length = 1 ∧ resp.explorations.length = 1 := by
  have hrun : (handleSearch chunksAndMaps lateServer requestOne).map (fun r => r.map fun resp =>
      (resp.results.length, resp.explorations.length)) = some (.ok (1, 1)) := by
    decide +kernel
  obtain ⟨r, hr, hresp⟩ := Option.map_eq_some_iff.mp hrun
  cases r with
  | error e => cases hresp
  | ok resp =>
    obtain ⟨hresults, hmaps⟩ := Prod.mk.inj (Except.ok.inj hresp)
    exact ⟨resp, hr, hresults, hmaps⟩

theorem search_budget_one : ∃ resp,
    handleSearch chunksAndMaps lateServer requestOne = some (.ok resp) ∧
      BudgetKept chunksAndMaps lateServer requestOne resp := by
  obtain ⟨resp, hresp, -⟩ := chunksAndMaps_response
  exact ⟨resp, hresp, search_budget hresp⟩

/-- The map comes on top. -/
theorem search_budget_maps : ∃ resp,
    handleSearch chunksAndMaps lateServer requestOne = some (.ok resp) ∧
      ¬ ((resp.results.length + resp.summaries.length + resp.explorations.length : Nat) : Int) ≤
        requestOne.maxResults := by
  obtain ⟨resp, hresp, hresults, hmaps⟩ := chunksAndMaps_response
  refine ⟨resp, hresp, fun hle => ?_⟩
  rw [hresults, hmaps] at hle
  have hone : requestOne.maxResults = 1 := rfl
  omega

end Arags
