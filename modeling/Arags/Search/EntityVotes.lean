import Arags.Search.Fusion
import Mathlib.Algebra.Order.BigOperators.Group.List

/-!
# Arags.Search.EntityVotes

How often a tier of the hybrid search names one chunk. The fusion adds a reciprocal rank each time.
`entities_fts` gets a row for each pair of a chunk and an entity, and the entity tier joins it with
`chunk_entities`, once for each entity of the query.

* `readings`        — over how many pairs of a query entity and such a row a chunk is reached.
* `TablesKeyed`     — `chunks_fts` and `chunk_entities` have no row twice; kept by every step.
* `tiers_vote_once` — when each tier names each chunk once.
-/

namespace Arags

open Sql

section Tier

variable {ε : Type} (env : HybridEnv ε) (t : ChunkTables)

/-- The full-text queries of the entity tier. -/
def entityQueries (query : String) : List String :=
  (extractEntities env.rules query "").filterMap fun entity =>
    let safeEntity := String.ofList (entity.toList.filter fun c =>
      env.isAlphanumeric c || c == '_')
    let ftsQuery := safeEntity ++ "*"
    if safeEntity.isEmpty || !env.parses ftsQuery then none else some ftsQuery

/-- The pairs of a query entity and a row of `entities_fts` over which a chunk is reached. -/
def readings (query : String) (bufferId chunkId : Int) : Nat :=
  ((entityQueries env query).map fun ftsQuery => t.entitiesFts.countP fun entity =>
    env.matchesText ftsQuery entity && (t.chunkEntities.contains (chunkId, entity) &&
      inChunkBuffer t bufferId chunkId)).sum

/-- No tier names a chunk twice. -/
def VotesOnce (vectors : Option (VectorStore ε)) (query : String) (queryVector : Option ε)
    (bufferId : Int) (tier : HybridTier) (topK : Nat) : Prop :=
  ∀ chunkId, (bm25Tier env t query bufferId topK).count chunkId ≤ 1 ∧
    (entityTier env t query bufferId tier topK).count chunkId ≤ 1 ∧
    (semanticTier env vectors queryVector bufferId tier topK).count chunkId ≤ 1

/-- The vector index finds no key twice. -/
def DistinctKeys : Prop :=
  ∀ vs v bufferId limit keys, env.similar vs v bufferId limit = .ok keys → keys.Nodup

variable {env t}

theorem searchEntities_eq (query : String) (bufferId : Int) (limit : Nat) :
    searchEntities env t (extractEntities env.rules query "") bufferId limit =
      (entityQueries env query).flatMap fun ftsQuery =>
        (((env.rank ftsQuery).order (entityJoin env t ftsQuery bufferId)).take limit).map
          Prod.fst := by
  unfold searchEntities entityQueries
  induction extractEntities env.rules query "" with
  | nil => rfl
  | cons entity entities ih =>
    rw [List.flatMap_cons, ih, List.filterMap_cons]
    dsimp only
    split
    · rfl
    · rfl

/-- What the join has for a chunk: each matching row of `entities_fts` with an entity of it. -/
theorem count_entityJoin (h : t.chunkEntities.Nodup) (ftsQuery : String)
    (bufferId chunkId : Int) :
    ((entityJoin env t ftsQuery bufferId).map Prod.fst).count chunkId =
      t.entitiesFts.countP fun entity => env.matchesText ftsQuery entity &&
        (t.chunkEntities.contains (chunkId, entity) && inChunkBuffer t bufferId chunkId) := by
  have hone : ∀ entity, ((t.chunkEntities.filter fun x => x.2 == entity &&
      inChunkBuffer t bufferId x.1).map Prod.fst).count chunkId =
        if t.chunkEntities.contains (chunkId, entity) && inChunkBuffer t bufferId chunkId then 1
        else 0 := by
    intro entity
    rw [List.count_eq_countP, List.countP_map, List.countP_filter]
    cases hin : inChunkBuffer t bufferId chunkId with
    | false =>
      rw [Bool.and_false, if_neg Bool.false_ne_true, List.countP_eq_zero]
      rintro x - hx
      simp only [Function.comp_apply, Bool.and_eq_true, beq_iff_eq] at hx
      rw [hx.1, hin] at hx
      exact Bool.false_ne_true hx.2.2
    | true =>
      have hcount : (t.chunkEntities.countP fun x => (decide (x.1 = chunkId) && (x.2 == entity &&
          inChunkBuffer t bufferId x.1))) = t.chunkEntities.count (chunkId, entity) := by
        rw [List.count_eq_countP]
        refine List.countP_congr fun x _ => ?_
        simp only [Bool.and_eq_true, decide_eq_true_eq, beq_iff_eq]
        constructor
        · rintro ⟨h1, h2, -⟩
          exact Prod.ext h1 h2
        · rintro rfl
          exact ⟨rfl, rfl, hin⟩
      rw [Bool.and_true]
      refine hcount.trans ?_
      by_cases hmem : (chunkId, entity) ∈ t.chunkEntities
      · rw [List.count_eq_one_of_mem h hmem, if_pos (List.contains_iff_mem.mpr hmem)]
      · rw [List.count_eq_zero_of_not_mem hmem, if_neg (mt List.contains_iff_mem.mp hmem)]
  unfold entityJoin
  induction t.entitiesFts with
  | nil => rfl
  | cons entity rows ih =>
    rw [List.countP_cons, ← ih]
    cases hm : env.matchesText ftsQuery entity with
    | false =>
      rw [List.filter_cons_of_neg (by rw [hm]; exact Bool.false_ne_true), Bool.false_and,
        if_neg Bool.false_ne_true, Nat.add_zero]
    | true =>
      rw [List.filter_cons_of_pos hm, List.flatMap_cons, List.map_append, List.count_append, hone,
        Bool.true_and, Nat.add_comm]

/-- The order that puts the rows of one chunk first. -/
def chunkFirst (chunkId : Int) : ScanOrder String where
  order l := (l.filter fun x => x.1 == chunkId) ++ l.filter fun x => !(x.1 == chunkId)
  perm l := List.filter_append_perm _ l

theorem count_take_chunkFirst (chunkId : Int) (l : List (Int × String)) (k : Nat) :
    min k ((l.map Prod.fst).count chunkId) ≤
      ((((chunkFirst chunkId).order l).take k).map Prod.fst).count chunkId := by
  have hlen : ∀ m : List (Int × String), (∀ x ∈ m, x.1 = chunkId) →
      (m.map Prod.fst).count chunkId = m.length := by
    intro m hm
    rw [List.count_eq_length.mpr, List.length_map]
    intro i hi
    obtain ⟨x, hx, rfl⟩ := List.mem_map.mp hi
    exact (hm x hx).symm
  have hfirst : ∀ x ∈ l.filter fun x => x.1 == chunkId, x.1 = chunkId :=
    fun x hx => beq_iff_eq.mp (List.mem_filter.mp hx).2
  have hcount : (l.map Prod.fst).count chunkId = (l.filter fun x => x.1 == chunkId).length := by
    rw [List.count_eq_countP, List.countP_map, ← List.countP_eq_length_filter]
    exact List.countP_congr fun x _ => Iff.rfl
  have htake := hlen ((l.filter fun x => x.1 == chunkId).take k)
    fun x hx => hfirst x (List.mem_of_mem_take hx)
  show _ ≤ ((((l.filter fun x => x.1 == chunkId) ++
    l.filter fun x => !(x.1 == chunkId)).take k).map Prod.fst).count chunkId
  rw [List.take_append, List.map_append, List.count_append, htake, List.length_take, hcount]
  exact Nat.le_add_right _ _

theorem min_sum_le (k : Nat) (counts : List Nat) :
    min k counts.sum ≤ (counts.map fun c => min k c).sum := by
  induction counts with
  | nil => exact Nat.min_le_right _ _
  | cons c counts ih =>
    rw [List.map_cons, List.sum_cons, List.sum_cons]
    omega

/-- No order of the matches makes more of a chunk than its readings. -/
theorem count_entityTier_le (h : t.chunkEntities.Nodup) (query : String) (bufferId : Int)
    (tier : HybridTier) (topK : Nat) (chunkId : Int) :
    (entityTier env t query bufferId tier topK).count chunkId ≤
      readings env t query bufferId chunkId := by
  unfold entityTier
  split
  · exact Nat.zero_le _
  · rw [searchEntities_eq, List.count_flatMap]
    refine List.sum_le_sum fun ftsQuery _ => ?_
    rw [← count_entityJoin h, Function.comp_apply]
    refine (List.Sublist.count_le _ ((List.take_sublist _ _).map _)).trans ?_
    exact (((env.rank ftsQuery).perm _).map Prod.fst).count_eq _ |>.le

theorem count_entityTier_ge (h : t.chunkEntities.Nodup) (query : String) (bufferId : Int)
    {tier : HybridTier} (topK : Nat) (chunkId : Int) (htier : tier ≠ .fts)
    (hready : env.entityReady = true) :
    min (topK * 3) (readings env t query bufferId chunkId) ≤
      (entityTier { env with rank := fun _ => chunkFirst chunkId } t query bufferId tier
        topK).count chunkId := by
  unfold entityTier
  rw [if_neg (by simp [htier, hready])]
  rw [searchEntities_eq, List.count_flatMap]
  refine (min_sum_le _ _).trans ?_
  rw [List.map_map]
  refine List.sum_le_sum fun ftsQuery _ => ?_
  rw [Function.comp_apply, Function.comp_apply, ← count_entityJoin h]
  exact count_take_chunkFirst chunkId _ _

/-! ## The other tiers -/

theorem bm25Tier_nodup (h : (t.chunksFts.map Prod.fst).Nodup) (query : String) (bufferId : Int)
    (topK : Nat) : (bm25Tier env t query bufferId topK).Nodup := by
  have hsearch : ∀ query results, bm25Search env t query bufferId (topK * 3) = .ok results →
      results.Nodup := by
    intro query results hok
    unfold bm25Search at hok
    dsimp only at hok
    split at hok
    · cases hok
      exact List.nodup_nil
    split at hok
    · cases hok
    cases hok
    have hfound : ((t.chunksFts.filter fun f => env.matchesText (sanitizeQuery env query) f.2 &&
        inChunkBuffer t bufferId f.1).map Prod.fst).Nodup := h.sublist (List.filter_sublist.map _)
    have hordered := (((env.rank (sanitizeQuery env query)).perm _).map Prod.fst).nodup_iff.mpr
      hfound
    exact hordered.sublist ((List.take_sublist _ _).map _)
  unfold bm25Tier
  cases hall : bm25Search env t query bufferId (topK * 3) with
  | error e => exact List.nodup_nil
  | ok results =>
    dsimp only
    split
    · exact hsearch _ _ hall
    split
    · cases hany : bm25Search env t (" OR ".intercalate (Text.splitWhitespace
          (sanitizeQuery env query))) bufferId (topK * 3) with
      | error e => exact List.nodup_nil
      | ok results => exact hsearch _ _ hany
    · exact List.nodup_nil

theorem semanticTier_nodup (h : DistinctKeys env) (vectors : Option (VectorStore ε))
    (queryVector : Option ε) (bufferId : Int) (tier : HybridTier) (topK : Nat) :
    (semanticTier env vectors queryVector bufferId tier topK).Nodup := by
  unfold semanticTier
  split
  · rename_i vs v
    cases hs : env.similar vs v bufferId (topK * 3 * 2) with
    | error e => exact List.nodup_nil
    | ok keys => exact (h _ _ _ _ _ hs).filter _
  · exact List.nodup_nil

end Tier

/-! ## The tables of a run -/

structure TablesKeyed (t : ChunkTables) : Prop where
  fts : (t.chunksFts.map Prod.fst).Nodup
  given : ∀ f ∈ t.chunksFts, f.1 ≤ t.chunks.seq
  entities : t.chunkEntities.Nodup

theorem TablesKeyed.empty : TablesKeyed .empty :=
  ⟨List.nodup_nil, fun _ hf => absurd hf List.not_mem_nil, List.nodup_nil⟩

theorem TablesKeyed.addEntities {t : ChunkTables} (h : TablesKeyed t) (chunkId : Int)
    (entities : List String) : TablesKeyed (t.addEntities chunkId entities) where
  fts := h.fts
  given := h.given
  entities := by
    have hfold : ∀ (es : List String) (rows : List (Int × String)), rows.Nodup →
        (es.foldl (fun rows e =>
          if rows.contains (chunkId, e) then rows else rows ++ [(chunkId, e)]) rows).Nodup := by
      intro es
      induction es with
      | nil => exact fun _ h => h
      | cons e es ih =>
        intro rows hrows
        rw [List.foldl_cons]
        refine ih _ ?_
        split
        · exact hrows
        · rename_i hnew
          rw [List.nodup_append]
          refine ⟨hrows, List.nodup_singleton _, fun a ha b hb hab => ?_⟩
          rw [List.mem_singleton] at hb
          rw [hab, hb] at ha
          exact hnew (List.contains_iff_mem.mpr ha)
    exact hfold entities t.chunkEntities h.entities

theorem TablesKeyed.write {rules : EntityRules} {t : ChunkTables} (h : TablesKeyed t)
    (w : ChunkWrite) : TablesKeyed (t.write rules w) := by
  cases w with
  | insert bufferId filePath c hashBytes version =>
    refine have hbase : TablesKeyed { t with
        chunks := (insertActiveChunk t.chunks bufferId filePath c hashBytes version).1
        chunksFts := t.chunksFts ++ [((insertActiveChunk t.chunks bufferId filePath c hashBytes
          version).2, c.content)] } := ?_
      hbase.addEntities _ _
    refine ⟨?_, fun f hf => ?_, h.entities⟩
    · rw [List.map_append, List.nodup_append]
      refine ⟨h.fts, List.nodup_singleton _, fun a ha b hb hab => ?_⟩
      obtain ⟨f, hf, rfl⟩ := List.mem_map.mp ha
      have hle := h.given f hf
      rw [List.map_singleton, List.mem_singleton] at hb
      have hid : b = t.chunks.seq + 1 := hb
      omega
    · have hseq : ∀ i : Int, i ≤ t.chunks.seq + 1 →
          i ≤ (insertActiveChunk t.chunks bufferId filePath c hashBytes version).1.seq :=
        fun i hi => hi
      obtain hf | hf := List.mem_append.mp hf
      · have hle := h.given f hf
        exact hseq f.1 (by omega)
      · rw [List.mem_singleton] at hf
        rw [hf]
        exact hseq _ (Int.le_refl _)
  | retire chunkId supersededBy =>
    refine ⟨h.fts.sublist (List.filter_sublist.map _), fun f hf => ?_, h.entities⟩
    exact h.given f (List.mem_filter.mp hf).1

theorem TablesKeyed.step {ix : Indexer} {rules : EntityRules} {s : SearchDb}
    (h : TablesKeyed s.tables) (op : SearchTableOp) :
    TablesKeyed (stepSearchTables ix rules s op).tables := by
  cases op with
  | stream msgs =>
    exact Lts.run_inv (I := fun _ t => TablesKeyed t) h (fun _ _ w ht => ht.write w) _
  | populateFts =>
    refine ⟨?_, fun f hf => ?_, h.entities⟩
    · show ((s.tables.chunks.rows.map fun x => (x.1, x.2.content)).map Prod.fst).Nodup
      rw [List.map_map]
      exact s.tables.chunks.nodup
    · obtain ⟨x, hx, rfl⟩ := List.mem_map.mp hf
      exact s.tables.chunks.le_seq x hx
  | insertChunkEntities chunkId entities =>
    simp only [stepSearchTables, ChunkTables.insertChunkEntities]
    split
    · exact h.addEntities chunkId entities
    · exact h
  | deleteChunks ids =>
    refine ⟨h.fts.sublist (List.filter_sublist.map _), fun f hf => ?_, h.entities.filter _⟩
    exact h.given f (List.mem_filter.mp hf).1

theorem tablesKeyed_run (ix : Indexer) (rules : EntityRules) (ops : List SearchTableOp) :
    TablesKeyed (Lts.after (stepSearchTables ix rules) .empty ops).tables :=
  Lts.run_inv (I := fun _ (s : SearchDb) => TablesKeyed s.tables)
    .empty (fun _ _ op h => h.step op) ops

/-- In every state of a run, and whatever order the full-text index gives equal matches, no tier
names a chunk twice exactly when the entity tier is not searched or leads to each chunk over one
pair of a query entity and a row of `entities_fts` at most. -/
theorem tiers_vote_once {ε : Type} (ix : Indexer) (env : HybridEnv ε) (hkeys : DistinctKeys env)
    (ops : List SearchTableOp) (vectors : Option (VectorStore ε)) (query : String)
    (queryVector : Option ε) (bufferId : Int) (tier : HybridTier) (topK : Nat) :
    let t := (Lts.after (stepSearchTables ix env.rules) .empty ops).tables
    (∀ rank, VotesOnce { env with rank := rank } t vectors query queryVector bufferId tier topK) ↔
      tier = .fts ∨ env.entityReady = false ∨ topK = 0 ∨
        ∀ chunkId, readings env t query bufferId chunkId ≤ 1 := by
  intro t
  have hkeyed : TablesKeyed t := tablesKeyed_run ix env.rules ops
  constructor
  · intro h
    by_contra hno
    simp only [not_or, not_forall, Nat.not_le, Bool.not_eq_false] at hno
    obtain ⟨htier, hready, htop, chunkId, htwo⟩ := hno
    have hge := count_entityTier_ge hkeyed.entities query bufferId topK chunkId htier hready
    have hle := (h (fun _ => chunkFirst chunkId) chunkId).2.1
    omega
  · intro h rank chunkId
    have hlex : (bm25Tier { env with rank := rank } t query bufferId topK).Nodup :=
      bm25Tier_nodup hkeyed.fts query bufferId topK
    have hsem : (semanticTier { env with rank := rank } vectors queryVector bufferId tier
        topK).Nodup := semanticTier_nodup hkeys vectors queryVector bufferId tier topK
    refine ⟨List.nodup_iff_count_le_one.mp hlex chunkId, ?_,
      List.nodup_iff_count_le_one.mp hsem chunkId⟩
    obtain htier | hready | htop | hone := h
    · rw [entityTier, if_pos (by simp [htier])]
      exact Nat.zero_le _
    · rw [entityTier, if_pos (by simp [hready])]
      exact Nat.zero_le _
    · have hempty : entityTier { env with rank := rank } t query bufferId tier topK = [] := by
        unfold entityTier
        split
        · rfl
        · rw [searchEntities_eq, htop]
          simp
      rw [hempty]
      exact Nat.zero_le _
    · exact (count_entityTier_le hkeyed.entities query bufferId tier topK chunkId).trans
        (hone chunkId)

/-- One file with one entity. -/
theorem tiers_vote_once_single :
    VotesOnce sampleHybrid (Lts.after (stepSearchTables sampleIndexer sampleRules) .empty
      [ofFiles [("Loader.rs", "a")]]).tables none "Loader" none 1 .entity 5 := by
  refine (tiers_vote_once sampleIndexer sampleHybrid ?_ [ofFiles [("Loader.rs", "a")]] none
    "Loader" none 1 .entity 5).mpr (.inr (.inr (.inr fun chunkId => ?_))) sampleHybrid.rank
  · intro vs v bufferId limit keys h
    obtain rfl := Except.ok.inj h
    exact List.nodup_nil
  · refine Nat.le_trans (m := (((entityQueries sampleHybrid "Loader").map fun ftsQuery =>
      (Lts.after (stepSearchTables sampleIndexer sampleRules) .empty
        [ofFiles [("Loader.rs", "a")]]).tables.entitiesFts.countP
          (sampleHybrid.matchesText ftsQuery)).sum)) (List.sum_le_sum fun ftsQuery _ => ?_) ?_
    · exact List.countP_mono_left fun entity _ h => ((Bool.and_eq_true _ _).mp h).1
    · decide +kernel

/-- The file is edited: its stem is in `entities_fts` twice. -/
theorem tiers_vote_once_edited :
    ¬ VotesOnce sampleHybrid (Lts.after (stepSearchTables sampleIndexer sampleRules) .empty
      [ofFiles [("Loader.rs", "b")], ofFiles [("Loader.rs", "a")]]).tables none "Loader" none 1
        .entity 5 := by
  intro h
  have hone := (h 2).2.1
  revert hone
  decide +kernel

end Arags
