import Arags.Search.Hybrid
import Mathlib.Algebra.BigOperators.Group.List.Basic

/-!
# Arags.Search.Fusion

The fusion of rankings, in `HybridSearch::search` and in `rrf_fuse` beside it. Both add reciprocal
ranks in a hash map; the first sorts what the map yields by score alone, the second breaks ties.

* `rrfFuse`        — `hybrid/rrf.rs`; `rrfFuse_order` says that the map's order does not show.
* `fuseRankings`   — the same without the tie-break, as the search has it.
* `fused_perm`     — what the map holds: each hit with the sum of its reciprocal ranks.
* `hybrid_fusion_fixed` — for which hits the search has one result.
-/

namespace Arags

open Sql

/-- `rrf_fuse`. -/
def rrfFuse (hashOrder : ScanOrder Rat) (resultsList : List (List Int)) (topK : Nat) :
    List (Int × Rat) :=
  (Ranking.bestBy Prod.snd Prod.fst (hashOrder.order (resultsList.foldl addRanking []))).take topK

/-- The fusion of `HybridSearch::search`. -/
def fuseRankings (hashOrder : ScanOrder Rat) (rankings : List (List Int)) (topK : Nat) :
    List (Int × Rat) :=
  (Ranking.best Prod.snd (hashOrder.order (rankings.foldl addRanking []))).take topK

/-! ## The sum of the reciprocal ranks -/

/-- Every term that the fusion adds. -/
def votes (rankings : List (List Int)) : List (Int × Rat) :=
  rankings.flatMap fun r => r.zipIdx.map fun x => (x.1, rrfScore x.2 RRF_K)

/-- The sum of a chunk's reciprocal ranks. -/
def rankSum (rankings : List (List Int)) (id : Int) : Rat :=
  (((votes rankings).filter fun v => v.1 == id).map Prod.snd).sum

/-- The chunks that occur in a ranking. -/
def hitIds (rankings : List (List Int)) : List Int := rankings.flatten.dedup

theorem votes_ids (rankings : List (List Int)) : (votes rankings).map Prod.fst =
    rankings.flatten := by
  unfold votes
  rw [List.map_flatMap, List.flatten_eq_flatMap]
  refine List.flatMap_congr fun r _ => ?_
  rw [List.map_map]
  exact List.zipIdx_map_fst 0 r

theorem foldl_addRanking (rankings : List (List Int)) (scores : List (Int × Rat)) :
    rankings.foldl addRanking scores =
      (votes rankings).foldl (fun scores v => addScore scores v.1 v.2) scores := by
  induction rankings generalizing scores with
  | nil => rfl
  | cons r rankings ih =>
    rw [List.foldl_cons, ih]
    unfold votes
    rw [List.flatMap_cons, List.foldl_append, List.foldl_map]
    rfl

/-- What is in the map: each key once, with the sum of what was added for it. -/
structure Summed (votes scores : List (Int × Rat)) : Prop where
  keys : (scores.map Prod.fst).Nodup
  ids : ∀ i, i ∈ scores.map Prod.fst ↔ i ∈ votes.map Prod.fst
  sums : ∀ s ∈ scores, s.2 = ((votes.filter fun v => v.1 == s.1).map Prod.snd).sum

theorem Summed.add {vs scores : List (Int × Rat)} (h : Summed vs scores) (chunk : Int) (x : Rat) :
    Summed (vs ++ [(chunk, x)]) (addScore scores chunk x) := by
  have hother : ∀ i : Int, i ≠ chunk → ((vs ++ [(chunk, x)]).filter fun v => v.1 == i) =
      vs.filter fun v => v.1 == i := by
    intro i hi
    rw [List.filter_append, List.filter_cons_of_neg (by simpa using Ne.symm hi), List.filter_nil,
      List.append_nil]
  have hthis : (((vs ++ [(chunk, x)]).filter fun v => v.1 == chunk).map Prod.snd).sum =
      ((vs.filter fun v => v.1 == chunk).map Prod.snd).sum + x := by
    rw [List.filter_append, List.filter_cons_of_pos (by simp), List.filter_nil, List.map_append,
      List.sum_append, List.map_singleton, List.sum_singleton]
  unfold addScore
  split
  · rename_i hin
    obtain ⟨s, hs, hid⟩ := List.any_eq_true.mp hin
    have hmem : chunk ∈ scores.map Prod.fst := List.mem_map.mpr ⟨s, hs, beq_iff_eq.mp hid⟩
    have hkeys : (scores.map fun s => if s.1 == chunk then (s.1, s.2 + x) else s).map Prod.fst =
        scores.map Prod.fst := by
      rw [List.map_map]
      refine List.map_congr_left fun s _ => ?_
      rw [Function.comp_apply]
      split <;> rfl
    refine ⟨?_, fun i => ?_, fun s' hs' => ?_⟩
    · rw [hkeys]
      exact h.keys
    · rw [hkeys, h.ids, List.map_append, List.mem_append]
      refine ⟨.inl, ?_⟩
      rintro (hi | hi)
      · exact hi
      · rw [List.map_singleton, List.mem_singleton] at hi
        rw [hi]
        exact (h.ids chunk).mp hmem
    · obtain ⟨s, hs, rfl⟩ := List.mem_map.mp hs'
      by_cases hid : s.1 = chunk
      · rw [if_pos (beq_iff_eq.mpr hid)]
        dsimp only
        rw [hid, hthis, h.sums s hs, hid]
      · rw [if_neg (by simpa using hid), hother _ hid]
        exact h.sums s hs
  · rename_i hout
    have hnew : chunk ∉ scores.map Prod.fst := by
      intro hmem
      obtain ⟨s, hs, rfl⟩ := List.mem_map.mp hmem
      exact hout (List.any_eq_true.mpr ⟨s, hs, beq_self_eq_true _⟩)
    refine ⟨?_, fun i => ?_, fun s hs => ?_⟩
    · rw [List.map_append, List.map_singleton, List.nodup_append]
      refine ⟨h.keys, List.nodup_singleton _, fun a ha b hb hab => ?_⟩
      rw [List.mem_singleton] at hb
      rw [hab, hb] at ha
      exact hnew ha
    · rw [List.map_append, List.mem_append, h.ids, List.map_append, List.mem_append]
    · obtain hold | hlast := List.mem_append.mp hs
      · have hmem : s.1 ∈ scores.map Prod.fst := List.mem_map_of_mem hold
        have hne : s.1 ≠ chunk := fun he => hnew (he ▸ hmem)
        rw [hother _ hne]
        exact h.sums s hold
      · rw [List.mem_singleton] at hlast
        subst hlast
        have hnone : (vs.filter fun v => v.1 == chunk) = [] := by
          rw [List.filter_eq_nil_iff]
          intro v hv he
          exact hnew ((h.ids chunk).mpr (List.mem_map.mpr ⟨v, hv, beq_iff_eq.mp he⟩))
        rw [hthis, hnone, List.map_nil, List.sum_nil, zero_add]

theorem summed_fold (rankings : List (List Int)) :
    Summed (votes rankings) (rankings.foldl addRanking []) := by
  have hfold : ∀ (vs done scores : List (Int × Rat)), Summed done scores →
      Summed (done ++ vs) (vs.foldl (fun scores v => addScore scores v.1 v.2) scores) := by
    intro vs
    induction vs with
    | nil =>
      intro done scores h
      rw [List.append_nil]
      exact h
    | cons v vs ih =>
      intro done scores h
      rw [List.append_cons]
      exact ih _ _ (h.add v.1 v.2)
  rw [foldl_addRanking]
  exact hfold (votes rankings) [] [] ⟨List.nodup_nil, fun _ => Iff.rfl, nofun⟩

/-- The map holds every hit once, with its sum. -/
theorem fused_perm (rankings : List (List Int)) :
    (rankings.foldl addRanking []).Perm
      ((hitIds rankings).map fun id => (id, rankSum rankings id)) := by
  have h := summed_fold rankings
  have hpairs : rankings.foldl addRanking [] =
      ((rankings.foldl addRanking []).map Prod.fst).map fun id => (id, rankSum rankings id) := by
    rw [List.map_map]
    refine (List.map_id _).symm.trans (List.map_congr_left fun s hs => ?_)
    exact Prod.ext rfl (h.sums s hs)
  rw [hpairs]
  refine List.Perm.map _ ((List.perm_ext_iff_of_nodup h.keys (List.nodup_dedup _)).mpr fun i => ?_)
  rw [h.ids, votes_ids, List.mem_dedup]

/-! ## One result -/

/-- Two hits with one sum are both behind `topK` others. -/
def HitsUntied (rankings : List (List Int)) (topK : Nat) : Prop :=
  ∀ a ∈ hitIds rankings, ∀ b ∈ hitIds rankings, a ≠ b →
    rankSum rankings a = rankSum rankings b →
      topK ≤ (hitIds rankings).countP fun c => decide (rankSum rankings a < rankSum rankings c)

/-- Whatever the order of the maps, the fusion is one list, in order with ties broken by the chunk
id, and it is that of `rrf_fuse`. -/
structure FusionFixed (rankings : List (List Int)) (topK : Nat) : Prop where
  fixed : ∀ o o', fuseRankings o rankings topK = fuseRankings o' rankings topK
  sorted : ∀ o, (fuseRankings o rankings topK).Pairwise fun a b =>
    b.2 < a.2 ∨ a.2 = b.2 ∧ a.1 ≤ b.1
  rrf : ∀ o o', fuseRankings o rankings topK = rrfFuse o' rankings topK

theorem hitsUntied_iff (rankings : List (List Int)) (topK : Nat) :
    Ranking.Untied Prod.snd (rankings.foldl addRanking []) topK ↔ HitsUntied rankings topK := by
  have hmap : Ranking.Untied Prod.snd
      ((hitIds rankings).map fun id => (id, rankSum rankings id)) topK ↔
        HitsUntied rankings topK := by
    unfold Ranking.Untied HitsUntied
    simp only [List.forall_mem_map, List.countP_map]
    refine forall₂_congr fun a _ => forall₂_congr fun b _ => ?_
    refine imp_congr ?_ Iff.rfl
    exact not_congr ⟨fun h => (Prod.mk.inj h).1, fun h => by rw [h]⟩
  rw [← hmap]
  exact ⟨Ranking.Untied.perm (fused_perm rankings),
    Ranking.Untied.perm (fused_perm rankings).symm⟩

/-- The keys of the map are unique, so the order in which `rrf_fuse` reads it does not show. -/
theorem rrfFuse_order (o : ScanOrder Rat) (rankings : List (List Int)) (topK : Nat) :
    rrfFuse o rankings topK =
      (Ranking.bestBy Prod.snd Prod.fst (rankings.foldl addRanking [])).take topK := by
  have hkeys := (summed_fold rankings).keys
  unfold rrfFuse
  rw [Ranking.bestBy_congr (o.perm _)]
  intro a ha b hb hab
  exact List.inj_on_of_nodup_map hkeys ((o.perm _).mem_iff.mp ha) ((o.perm _).mem_iff.mp hb) hab

/-- An iteration order that yields a given arrangement of its entries. -/
def arranged (m : List (Int × Rat)) : ScanOrder Rat where
  order l := if m.isPerm l then m else l
  perm l := by
    split
    · rename_i h
      exact List.isPerm_iff.mp h
    · exact .refl l

theorem arranged_order {m l : List (Int × Rat)} (h : m.Perm l) : (arranged m).order l = m :=
  if_pos (List.isPerm_iff.mpr h)

theorem fusionFixed_iff (rankings : List (List Int)) (topK : Nat) :
    FusionFixed rankings topK ↔ HitsUntied rankings topK := by
  rw [← hitsUntied_iff, ← Ranking.stable_iff_untied Prod.fst]
  constructor
  · intro h m hm
    have hrrf := h.rrf (arranged m) .rowid
    rw [rrfFuse_order, fuseRankings, arranged_order hm] at hrrf
    exact hrrf
  · intro h
    have hone : ∀ o o', fuseRankings o rankings topK = rrfFuse o' rankings topK := by
      intro o o'
      rw [rrfFuse_order]
      exact h _ (o.perm _)
    refine ⟨fun o o' => (hone o o).trans (hone o' o).symm, fun o => ?_, hone⟩
    rw [hone o o]
    exact (Ranking.bestBy_sorted Prod.fst _).take

/-- The fusion of a search over its three tiers, and what salience decay makes of it. -/
theorem hybridSearch_eq {ε : Type} (env : HybridEnv ε) (o : ScanOrder Rat) (t : ChunkTables)
    (vectors : Option (VectorStore ε)) (query : String) (queryVector : Option ε) (bufferId : Int)
    (tier : HybridTier) (topK : Nat) (chunkAges : Option (List (Int × Rat))) :
    hybridSearch { env with hashOrder := o } t vectors query queryVector bufferId tier topK
        chunkAges =
      (let fused := fuseRankings o [bm25Tier env t query bufferId topK,
        entityTier env t query bufferId tier topK,
        semanticTier env vectors queryVector bufferId tier topK] topK
      match chunkAges with
      | none => fused
      | some ages => (applyDecay env fused ages).take topK) := by
  cases chunkAges <;> rfl

/-- The fusion has one result exactly where equal sums come behind the limit; a search over tiers
with such hits then has one result too, with and without the ages of the chunks. -/
theorem hybrid_fusion_fixed {ε : Type} (env : HybridEnv ε) (t : ChunkTables)
    (vectors : Option (VectorStore ε)) (query : String) (queryVector : Option ε) (bufferId : Int)
    (tier : HybridTier) (topK : Nat) :
    (∀ rankings : List (List Int), FusionFixed rankings topK ↔ HitsUntied rankings topK) ∧
    let search := fun o => hybridSearch { env with hashOrder := o } t vectors query queryVector
      bufferId tier topK
    let rankings := [bm25Tier env t query bufferId topK,
      entityTier env t query bufferId tier topK,
      semanticTier env vectors queryVector bufferId tier topK]
    ((∀ o o', search o none = rrfFuse o' rankings topK) ↔ HitsUntied rankings topK) ∧
      (HitsUntied rankings topK → ∀ o o' ages, search o ages = search o' ages) := by
  refine ⟨fun rankings => fusionFixed_iff rankings topK, ?_⟩
  dsimp only
  refine ⟨⟨fun h => ?_, fun h => ?_⟩, fun h o o' ages => ?_⟩
  · rw [← hitsUntied_iff, ← Ranking.stable_iff_untied Prod.fst]
    intro m hm
    have hrrf := h (arranged m) .rowid
    rw [hybridSearch_eq, rrfFuse_order, fuseRankings, arranged_order hm] at hrrf
    exact hrrf
  · intro o o'
    rw [hybridSearch_eq]
    exact ((fusionFixed_iff _ _).mpr h).rrf o o'
  · rw [hybridSearch_eq, hybridSearch_eq, ((fusionFixed_iff _ _).mpr h).fixed o o']

/-- Two tiers with their first two hits the other way round, and a limit of one. -/
theorem hybrid_fusion_swapped :
    ¬ ∀ (rankings : List (List Int)) (topK : Nat), FusionFixed rankings topK := by
  intro h
  have hfixed := (h [[1, 2], [2, 1]] 1).fixed .rowid (arranged [(2, 1 / 62 + 1 / 61),
    (1, 1 / 61 + 1 / 62)])
  revert hfixed
  decide +kernel

end Arags
