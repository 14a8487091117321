import Arags.Archive.AsOf
import Arags.Qa.ServeGate

/-!
# Arags.Qa.NearHit

The answer cache with its question vectors, over whole runs, and what a query reads from them.

* `handleStoreAnswer` — `grpc/query_cache/store.rs`: the answer, then the vector of its question.
* `stepAnswers` — one operation on `AnswerServer`; `AnswersInv` holds after each.
* `nearServed` — the row that `handle_query_with_cache` serves from its semantic path;
  `handleQueryWithCache_served`.
* `near_hit_current` — when that row is the active revision of its question.
-/

namespace Arags

open Sql

/-- The index, the answers and the vectors of their questions. -/
structure AnswerServer (ε : Type) where
  index : IndexDb
  qa : Table QaCacheRow
  vectors : AList fun _ : Int => ε

def AnswerServer.empty {ε : Type} : AnswerServer ε := ⟨IndexDb.empty, Table.empty, ∅⟩

/-- The embedder, and the search of a vector store. -/
structure QuestionSpace (ε : Type) where
  embed : String → Option ε
  search : (AList fun _ : Int => ε) → ε → Nat → Option (List (Int × Rat))

structure StoreAnswerRequest where
  project : String
  bufferId : Int
  question : String
  answer : String
  sourceChunkIds : List String
  sourceHashes : List String

section Machine

variable {ε : Type} (ix : Indexer) (env : QueryEnv) (space : QuestionSpace ε)

/-- `embed_query`. -/
def embedQuery (question : String) : Option ε := space.embed (QUESTION_PREFIX ++ question)

/-- The environment of a query, with the search in the vectors that are stored. -/
def AnswerServer.queryEnv (s : AnswerServer ε) : QueryEnv :=
  { env with questionSearch := fun text k => (space.embed text).bind fun v =>
      space.search s.vectors v k }

/-- `inserted` says whether the insert of the vector succeeds, if there is one. -/
def handleStoreAnswer (s : AnswerServer ε) (req : StoreAnswerRequest) (cacheId : String)
    (now : Int) (inserted : Bool) : AnswerServer ε × Except String String :=
  if Text.isBlank req.project then (s, .error "project is required")
  else if Text.isBlank req.question then (s, .error "question is required")
  else if Text.isBlank req.answer then (s, .error "answer is required")
  else
    let input : StoreAnswerInput := {
      bufferId := resolveBuffer s.index.buffers req.project req.bufferId
      project := req.project
      questionText := req.question
      questionHash := questionHash env req.question
      answerText := req.answer
      sourceChunkIds := req.sourceChunkIds
      sourceHashes := req.sourceHashes }
    let stored := storeAnswer env.scan s.qa input cacheId now
    let vector := if inserted then embedQuery space req.question else none
    ({ s with qa := stored.1, vectors := (vector.map (s.vectors.insert stored.2)).getD s.vectors },
      .ok cacheId)

inductive AnswerOp (ε : Type) where
  | store (req : StoreAnswerRequest) (cacheId : String) (now : Int) (inserted : Bool)
  | query (project question : String) (explicit now : Int)
  | stream (msgs : List IndexMsg)
  /-- The hook after a stream. -/
  | invalidate (bufferId now : Int)
  | markStale (id : Int) (invalidatedBy reason : String) (now : Int)
  /-- By a request, which erases the vector, or by eviction. -/
  | delete (id : Int) (erased : Bool)
  /-- A reconcile pass stores the vector of an answer that is still there. -/
  | reconcile (id : Int) (vector : ε)

def stepAnswers (s : AnswerServer ε) : AnswerOp ε → AnswerServer ε
  | .store req cacheId now inserted => (handleStoreAnswer env space s req cacheId now inserted).1
  | .query project question explicit now =>
    let answered := handleQueryWithCache (s.queryEnv env space) s.index s.qa project question
      explicit now
    { s with qa := answered.1 }
  | .stream msgs => { s with index := (indexStreamLoop ix s.index msgs).1 }
  | .invalidate bufferId now =>
    { s with qa := invalidateStaleCacheForBuffer env.scan s.index.chunks s.qa bufferId now }
  | .markStale id invalidatedBy reason now =>
    { s with qa := markQaStale s.qa id invalidatedBy reason now }
  | .delete id erased =>
    { s with
      qa := s.qa.delete fun i _ => i == id
      vectors := if erased then s.vectors.erase id else s.vectors }
  | .reconcile id vector =>
    if (s.qa.get? id).isSome then { s with vectors := s.vectors.insert id vector } else s

end Machine

/-! ## The invariant -/

section Invariant

variable {t : Table QaCacheRow}

/-- Checks, touches and marks leave the revisions alone. -/
theorem touchQa_marks (t : Table QaCacheRow) (id now : Int) :
    Marks qaColumns t (touchQa t id now) :=
  .update t (fun _ _ => rfl) (fun _ _ => rfl) fun _ _ => rfl

theorem provenanceIntact_marks (chunks : SeqTable Chunk) (t : Table QaCacheRow) (id : Int)
    (row : QaCacheRow) (now : Int) :
    Marks qaColumns t (provenanceIntact chunks t id row now).1 := by
  rw [provenanceIntact_eq]
  split
  · exact .refl t
  · exact markQaStale_marks t ..

theorem queryNear_marks (env : QueryEnv) (chunks : SeqTable Chunk) (t : Table QaCacheRow)
    (project question : String) (bufferId : Option Int) (now : Int) :
    Marks qaColumns t (queryNear env chunks t project question bufferId now).1 := by
  unfold queryNear
  dsimp only
  split
  · exact .refl t
  · rename_i id similarity cand _
    have hchecked := provenanceIntact_marks chunks t id cand now
    split
    · exact hchecked
    · split
      · exact hchecked
      · exact hchecked.trans (touchQa_marks _ id now)

theorem query_marks (env : QueryEnv) (db : IndexDb) (t : Table QaCacheRow)
    (project question : String) (explicit now : Int) :
    Marks qaColumns t (handleQueryWithCache env db t project question explicit now).1 := by
  unfold handleQueryWithCache
  split
  · exact .refl t
  split
  · exact .refl t
  dsimp only
  split
  · exact queryNear_marks env ..
  · rename_i id row _
    have hchecked := provenanceIntact_marks db.chunks t id row now
    split
    · exact hchecked.trans (touchQa_marks _ id now)
    · exact hchecked.trans (queryNear_marks env ..)

variable {ε : Type} (ix : Indexer) (env : QueryEnv) (space : QuestionSpace ε)

theorem stepAnswers_liveLast (s : AnswerServer ε) (op : AnswerOp ε)
    (h : LiveLast qaColumns s.qa) : LiveLast qaColumns (stepAnswers ix env space s op).qa := by
  cases op with
  | store req cacheId now inserted =>
    unfold stepAnswers handleStoreAnswer
    dsimp only
    split
    · exact h
    split
    · exact h
    split
    · exact h
    dsimp only
    generalize StoreAnswerInput.mk _ _ _ _ _ _ _ = input
    obtain ⟨version, hs⟩ := storeAnswer_supersedes env.scan h.liveUnique input cacheId now
    exact h.supersede hs
  | query project question explicit now => exact h.marks (query_marks (s.queryEnv env space) ..)
  | stream msgs => exact h
  | invalidate bufferId now => exact h.marks (invalidate_marks ..)
  | markStale id by_ reason now => exact h.marks (markQaStale_marks ..)
  | delete id erased => exact h.delete fun i _ => i == id
  | reconcile id vector =>
    unfold stepAnswers
    dsimp only
    split <;> exact h

theorem answers_liveLast (ops : List (AnswerOp ε)) :
    LiveLast qaColumns (Lts.after (stepAnswers ix env space) .empty ops).qa :=
  Lts.run_inv (I := fun _ s => LiveLast qaColumns s.qa) .empty
    (fun _ s op h => stepAnswers_liveLast ix env space s op h) ops

end Invariant

/-! ## The semantic path -/

section Served

variable (env : QueryEnv) (db : IndexDb) (qa : Table QaCacheRow) (project question : String)

/-- The answer comes from the first step. -/
def exactServes : Bool :=
  (exactRow env qa project question).any fun x => decide (Verified db.chunks x.2)

/-- The plan for a neighbour. -/
def nearPlan (similarity : Rat) (row : QaCacheRow) : QaPlan :=
  resolvePlan similarity (jaccardSimilarity
    (topChunkIds env question env.thresholds.novelK) row.sourceChunkIds) env.thresholds

/-- The row that is served as a near hit. -/
def nearServed (now : Int) : Option (Int × QaCacheRow) :=
  if Text.isBlank project || Text.isBlank question || exactServes env db qa project question then
    none
  else
    (nearCandidate env (afterExact env db qa project question now) project question).bind fun c =>
      if Verified db.chunks c.2.2 ∧ (nearPlan env question c.2.1 c.2.2).isMiss = false then
        some (c.1, c.2.2)
      else none

variable {env db qa project question}

theorem nearServed_some {now id : Int} {row : QaCacheRow} :
    nearServed env db qa project question now = some (id, row) ↔
      Text.isBlank project = false ∧ Text.isBlank question = false ∧
      exactServes env db qa project question = false ∧ ∃ similarity,
        nearCandidate env (afterExact env db qa project question now) project question =
          some (id, similarity, row) ∧
        Verified db.chunks row ∧ (nearPlan env question similarity row).isMiss = false := by
  unfold nearServed
  constructor
  · intro h
    split at h
    · cases h
    rename_i hcond
    simp only [Bool.or_eq_true, not_or, Bool.not_eq_true] at hcond
    obtain ⟨⟨id', similarity, cand⟩, hc, h⟩ := Option.bind_eq_some_iff.mp h
    split at h
    · rename_i hp
      cases h
      exact ⟨hcond.1.1, hcond.1.2, hcond.2, similarity, hc, hp⟩
    · cases h
  · rintro ⟨hp, hq, he, similarity, hc, hv, hm⟩
    rw [if_neg (by simp [hp, hq, he]), hc, Option.bind_some, if_pos ⟨hv, hm⟩]

theorem not_verified_of_exactServes (h : exactServes env db qa project question = false) :
    ∀ x, exactRow env qa project question = some x → ¬ Verified db.chunks x.2 := by
  intro x hx hv
  unfold exactServes at h
  rw [hx, Option.any_some, decide_eq_false_iff_not] at h
  exact h hv

/-- What the handler answers: the row that the first step serves, the near hit, or nothing. -/
theorem handleQueryWithCache_served (explicit now : Int) :
    match nearServed env db qa project question now with
    | some (_, row) => ∃ similarity, (handleQueryWithCache env db qa project question explicit
        now).2 = .ok (hitResponse env db.chunks row (nearPlan env question similarity row).tier
          similarity (nearPlan env question similarity row).digestK
          (nearPlan env question similarity row).provenanceK)
    | none => exactServes env db qa project question = true ∨ ∀ resp,
        (handleQueryWithCache env db qa project question explicit now).2 = .ok resp →
          resp.hit = false := by
  cases h : nearServed env db qa project question now with
  | some x =>
    obtain ⟨id, row⟩ := x
    obtain ⟨hp, hq, he, similarity, hc, hv, hm⟩ := nearServed_some.mp h
    refine ⟨similarity, ?_⟩
    rw [handleQueryWithCache_near hp hq explicit now (not_verified_of_exactServes he)]
    unfold nearPlan at hm ⊢
    unfold queryNear
    simp only [hc, provenanceIntact_eq, hv, if_true, Bool.not_true, Bool.false_eq_true, if_false,
      hm]
  | none =>
    by_cases he : exactServes env db qa project question = true
    · exact .inl he
    refine .inr fun resp hresp => ?_
    have he := Bool.eq_false_iff.mpr he
    by_cases hp : Text.isBlank project = true
    · simp [handleQueryWithCache, hp] at hresp
    have hp := Bool.eq_false_iff.mpr hp
    by_cases hq : Text.isBlank question = true
    · simp [handleQueryWithCache, hp, hq] at hresp
    have hq := Bool.eq_false_iff.mpr hq
    rw [handleQueryWithCache_near hp hq explicit now (not_verified_of_exactServes he)] at hresp
    unfold queryNear at hresp
    dsimp only at hresp
    split at hresp
    · exact missResponse_hit hresp
    rename_i id similarity cand hc
    split at hresp
    · exact missResponse_hit hresp
    rename_i hchecked
    split at hresp
    · exact missResponse_hit hresp
    rename_i hmiss
    have hv : Verified db.chunks cand := by
      by_contra hv
      rw [provenanceIntact_eq, if_neg hv] at hchecked
      exact hchecked rfl
    have hsome := nearServed_some.mpr ⟨hp, hq, he, similarity, hc, hv, Bool.eq_false_iff.mpr hmiss⟩
    rw [h] at hsome
    cases hsome

/-- The active revision of its question, of the project, and fresh. -/
structure ServesCurrent (qa : Table QaCacheRow) (project : String) (id : Int) (row : QaCacheRow) :
    Prop where
  stored : qa.get? id = some row
  active : row.isActive = true
  latest : latest (revisionLog qaColumns qa) (qaColumns.subject row) = some id
  project_eq : row.project = project
  fresh : row.stale = false

variable (env db qa project question)

/-- The nearest question vector is not that of a superseded row, or the row does not pass: the
request is blank, the first step serves, or the row is too far, of another project, stale, drifted
or without a plan. -/
def SupersededRejected : Prop :=
  ∀ best ∈ nearest env question, ∀ row ∈ qa.get? best.1, row.isActive = false →
    Text.isBlank project = true ∨ Text.isBlank question = true ∨
      exactServes env db qa project question = true ∨ best.2 < env.thresholds.simFloor ∨
      row.project ≠ project ∨ row.stale = true ∨ ¬ Verified db.chunks row ∨
      (nearPlan env question best.2 row).isMiss = true

variable {env db qa project question}

theorem exactRow_active {id : Int} {row : QaCacheRow}
    (h : exactRow env qa project question = some (id, row)) : row.isActive = true := by
  unfold exactRow getCachedAnswer at h
  have hmem := env.scan.mem_order.mp (List.mem_of_mem_head? h)
  have hp := (Table.mem_select.mp hmem).2
  simp only [Bool.and_eq_true] at hp
  exact hp.1.2

/-- The first step does not touch a superseded row. -/
theorem get?_afterExact {now id : Int} {row : QaCacheRow} (h : qa.get? id = some row)
    (hactive : row.isActive = false) :
    (afterExact env db qa project question now).get? id = some row := by
  unfold afterExact
  split
  · rename_i i exact_ hexact
    rw [provenanceIntact_eq]
    split
    · exact h
    · have hne : i ≠ id := by
        rintro rfl
        have hrow := (exactRow_some hexact).1
        rw [h, Option.some.injEq] at hrow
        rw [hrow, exactRow_active hexact] at hactive
        cases hactive
      unfold markQaStale
      rw [Table.get?_update, h]
      simp [hne.symm]
  · exact h

theorem near_served_current (hlast : LiveLast qaColumns qa) (now : Int) :
    (∀ id row, nearServed env db qa project question now = some (id, row) →
      ServesCurrent qa project id row) ↔
      SupersededRejected env db qa project question := by
  constructor
  · intro h best hbest row hrow hinactive
    by_contra hno
    simp only [not_or, Bool.not_eq_true, Rat.not_lt, ne_eq, not_not] at hno
    obtain ⟨hp, hq, he, hfloor, hproject, hfresh, hv, hm⟩ := hno
    have hc : nearCandidate env (afterExact env db qa project question now) project question =
        some (best.1, best.2, row) := by
      unfold nearCandidate
      rw [Option.mem_def.mp hbest, Option.bind_some, if_pos hfloor, getQaByRowid,
        get?_afterExact hrow hinactive, Option.bind_some, if_pos (by simp [hproject, hfresh])]
    have hserved := nearServed_some.mpr ⟨hp, hq, he, best.2, hc, hv, hm⟩
    have hactive := (h _ _ hserved).active
    rw [hinactive] at hactive
    cases hactive
  · intro h id row hserved
    obtain ⟨hp, hq, he, similarity, hc, hv, hm⟩ := nearServed_some.mp hserved
    obtain ⟨hnearest, hfloor, hrow, hproject, hfresh⟩ := nearCandidate_some hc
    have hstored := fresh_before_exact hrow hfresh
    have hactive : row.isActive = true := by
      by_contra hinactive
      have hgates := h (id, similarity) hnearest row hstored (Bool.eq_false_iff.mpr hinactive)
      dsimp only at hgates
      rw [hp, hq, he, hfresh, hm] at hgates
      rcases hgates with h' | h' | h' | h' | h' | h' | h' | h'
      · cases h'
      · cases h'
      · cases h'
      · exact Rat.not_lt.mpr hfloor h'
      · exact h' hproject
      · cases h'
      · exact h' hv
      · cases h'
    refine ⟨hstored, hactive, ?_, hproject, hfresh⟩
    exact hlast.last (id, row) (Table.get?_eq_some.mp hstored) hactive

end Served

/-- In every state that is reached, a near hit is the active revision of its question exactly when
a superseded one is rejected. -/
theorem near_hit_current {ε : Type} (ix : Indexer) (env : QueryEnv) (space : QuestionSpace ε)
    (ops : List (AnswerOp ε)) (project question : String) (now : Int) :
    let s := Lts.after (stepAnswers ix env space) .empty ops
    (∀ id row, nearServed (s.queryEnv env space) s.index s.qa project question now =
        some (id, row) → ServesCurrent s.qa project id row) ↔
      SupersededRejected (s.queryEnv env space) s.index s.qa project question :=
  near_served_current (answers_liveLast ix env space ops) now

/-- Vectors are lengths, and neighbours are nearer the less the lengths differ. -/
def lengthSpace : QuestionSpace Nat where
  embed := fun text => some text.length
  search := fun vectors v k =>
    let near := vectors.entries.map fun e => (e.1, 1 - (max e.2 v - min e.2 v : Nat) / (100 : Rat))
    some ((near.insertionSort fun a b => a.2 ≥ b.2).take k)

def storeRequest (question answer : String) : StoreAnswerRequest where
  project := "p"
  bufferId := 1
  question := question
  answer := answer
  sourceChunkIds := ["2"]
  sourceHashes := []

/-- The same question twice, with other blanks, and another answer. -/
def answeredTwice : List (AnswerOp Nat) :=
  [ .store (storeRequest "what is b" "new") "c2" 6 true,
    .store (storeRequest "what  is  b" "old") "c1" 5 true ]

def twiceAnswered : AnswerServer Nat :=
  Lts.after (stepAnswers sampleIndexer askEnv lengthSpace) .empty answeredTwice

def twiceServed : Option (Int × QaCacheRow) :=
  nearServed (twiceAnswered.queryEnv askEnv lengthSpace) twiceAnswered.index twiceAnswered.qa "p"
    "what is the b" 9

/-- The query is nearer to the first wording: it is answered with the superseded answer. -/
theorem near_hit_current_superseded :
    (handleQueryWithCache (twiceAnswered.queryEnv askEnv lengthSpace) twiceAnswered.index
      twiceAnswered.qa "p" "what is the b" 0 9).2.map (fun resp => (resp.hit, resp.answerText)) =
        .ok (true, "old") ∧
      ¬ ∀ id row, twiceServed = some (id, row) → ServesCurrent twiceAnswered.qa "p" id row := by
  refine ⟨by decide +kernel, fun h => ?_⟩
  have hold : twiceServed.map (fun x => x.2.isActive) = some false := by decide +kernel
  obtain ⟨⟨id, row⟩, hserved, hinactive⟩ := Option.map_eq_some_iff.mp hold
  have hactive := (h id row hserved).active
  exact absurd (hactive.symm.trans hinactive) (by decide)

end Arags
