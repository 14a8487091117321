import Arags.Qa.Query
import Arags.Qa.Staleness

/-!
# Arags.Qa.ServeGate

What the check before serving guarantees, from any state of the two tables.

* `Verified` — every numbered source of a row is a stored chunk with the recorded hash.
* `provenanceIntact_eq` — the check passes such rows and marks the others.
* `Served` — what is known of an answer that is returned; `queryNear_hit`.
* `serve_gate` — the handler: exact hit, near hit and miss.
-/

namespace Arags

open Sql

/-- Each id that is a number, against the hash at its position. -/
def Verified (chunks : SeqTable Chunk) (row : QaCacheRow) : Prop :=
  ∀ p ∈ row.sourceChunkIds.zip row.sourceHashes, ∀ i, Text.parseInt64 p.1 = some i →
    ∃ c, chunks.get? i = some c ∧ Text.eqIgnoreAsciiCase (hexEncode c.hash) p.2 = true

theorem chunkHashesMatch_iff {chunks : SeqTable Chunk} {row : QaCacheRow} :
    chunkHashesMatch chunks (provenancePairs row) = true ↔ Verified chunks row := by
  simp only [chunkHashesMatch, provenancePairs, List.all_eq_true, List.mem_filterMap,
    Option.map_eq_some_iff, Option.any_eq_true]
  constructor
  · intro h p hp i hi
    exact h (i, p.2) ⟨p, hp, i, hi, rfl⟩
  · rintro h _ ⟨p, hp, i, hi, rfl⟩
    exact h p hp i hi

instance (chunks : SeqTable Chunk) (row : QaCacheRow) : Decidable (Verified chunks row) :=
  decidable_of_iff _ chunkHashesMatch_iff

/-- A row without numbered sources passes like one whose sources are all there. -/
theorem provenanceIntact_eq (chunks : SeqTable Chunk) (qa : Table QaCacheRow) (id : Int)
    (row : QaCacheRow) (now : Int) :
    provenanceIntact chunks qa id row now =
      if Verified chunks row then (qa, true)
      else (markQaStale qa id "system" "provenance drift" now, false) := by
  unfold provenanceIntact
  by_cases he : (row.sourceChunkIds.isEmpty || row.sourceHashes.isEmpty) = true
  · have hzip : row.sourceChunkIds.zip row.sourceHashes = [] := by
      rcases Bool.or_eq_true _ _ ▸ he with h | h
      · rw [List.isEmpty_iff.mp h, List.zip_nil_left]
      · rw [List.isEmpty_iff.mp h, List.zip_nil_right]
    have hv : Verified chunks row := by
      intro p hp
      rw [hzip] at hp
      cases hp
    rw [if_pos he, if_pos hv]
  · rw [if_neg he]
    by_cases hp : (provenancePairs row).isEmpty = true
    · have hv : Verified chunks row := by
        rw [← chunkHashesMatch_iff, List.isEmpty_iff.mp hp]
        rfl
      rw [if_pos hp, if_pos hv]
    · rw [if_neg hp]
      simp only [chunkHashesMatch_iff]

/-! ## Rows after the updates -/

theorem get?_touchQa (t : Table QaCacheRow) (i now id : Int) :
    (touchQa t i now).get? id = (t.get? id).map fun r => if id == i then
      { r with accessCount := r.accessCount + 1, lastAccessedAt := now } else r :=
  Table.get?_update ..

theorem isStale_touchQa (t : Table QaCacheRow) (i now id : Int) :
    isStale (touchQa t i now) id = isStale t id := by
  unfold isStale
  rw [get?_touchQa]
  cases t.get? id with
  | none => rfl
  | some r =>
    simp only [Option.map_some, Option.any_some]
    split <;> rfl

/-- A row that a mark leaves fresh was there before. -/
theorem fresh_before_mark {t : Table QaCacheRow} {i id now : Int} {by_ reason : String}
    {row : QaCacheRow} (h : (markQaStale t i by_ reason now).get? id = some row)
    (hf : row.stale = false) : t.get? id = some row := by
  rw [get?_markQaStale] at h
  obtain ⟨r, hr, he⟩ := Option.map_eq_some_iff.mp h
  split at he
  · rw [← he] at hf
    cases hf
  · rw [hr, he]

/-- The check only ever marks. -/
theorem fresh_before_check {chunks : SeqTable Chunk} {qa : Table QaCacheRow} {i id now : Int}
    {row r : QaCacheRow} (h : (provenanceIntact chunks qa i r now).1.get? id = some row)
    (hf : row.stale = false) : qa.get? id = some row := by
  rw [provenanceIntact_eq] at h
  split at h
  · exact h
  · exact fresh_before_mark h hf

theorem nearCandidate_some {env : QueryEnv} {qa : Table QaCacheRow} {project question : String}
    {id : Int} {similarity : Rat} {cand : QaCacheRow}
    (h : nearCandidate env qa project question = some (id, similarity, cand)) :
    nearest env question = some (id, similarity) ∧ similarity ≥ env.thresholds.simFloor ∧
      qa.get? id = some cand ∧ cand.project = project ∧ cand.stale = false := by
  unfold nearCandidate at h
  obtain ⟨best, hbest, h⟩ := Option.bind_eq_some_iff.mp h
  split at h
  · rename_i hfloor
    obtain ⟨r, hr, h⟩ := Option.bind_eq_some_iff.mp h
    split at h
    · rename_i hgate
      simp only [Bool.and_eq_true, beq_iff_eq, Bool.not_eq_true'] at hgate
      cases h
      exact ⟨hbest, hfloor, hr, hgate⟩
    · cases h
  · cases h

/-! ## An answer that is served -/

/-- The row behind a response, with what was checked. -/
structure Served (chunks : SeqTable Chunk) (qa qa' : Table QaCacheRow) (project : String)
    (resp : QueryWithCacheResponse) (id : Int) (row : QaCacheRow) : Prop where
  stored : qa.get? id = some row
  project_eq : row.project = project
  fresh : row.stale = false
  verified : Verified chunks row
  answer : resp.cacheId = row.cacheId ∧ resp.answerText = row.answerText
  stays : isStale qa' id = false

theorem isStale_of_fresh {t : Table QaCacheRow} {id : Int} {row : QaCacheRow}
    (h : t.get? id = some row) (hf : row.stale = false) : isStale t id = false := by
  unfold isStale
  rw [h, Option.any_some, hf]

theorem missResponse_hit {env : QueryEnv} {b : Option Int} {question : String} {s : Rat}
    {resp : QueryWithCacheResponse} (h : missResponse env b question s = .ok resp) :
    resp.hit = false := by
  unfold missResponse at h
  cases hs : env.hybridSearch (b.getD 0) question env.thresholds.novelK with
  | error e => rw [hs] at h; cases h
  | ok candidates => rw [hs] at h; cases h; rfl

section Near

variable {env : QueryEnv} {chunks : SeqTable Chunk} {qa : Table QaCacheRow}
  {project question : String} {bufferId : Option Int} {now : Int}

theorem queryNear_hit {resp : QueryWithCacheResponse}
    (h : (queryNear env chunks qa project question bufferId now).2 = .ok resp)
    (hhit : resp.hit = true) :
    ∃ id row, Served chunks qa (queryNear env chunks qa project question bufferId now).1 project
      resp id row := by
  unfold queryNear at h ⊢
  dsimp only at h ⊢
  cases hc : nearCandidate env qa project question with
  | none =>
    rw [hc] at h
    rw [missResponse_hit h] at hhit
    cases hhit
  | some x =>
    obtain ⟨id, similarity, cand⟩ := x
    obtain ⟨-, -, hrow, hproject, hfresh⟩ := nearCandidate_some hc
    simp only [hc, provenanceIntact_eq] at h ⊢
    by_cases hv : Verified chunks cand
    · simp only [hv, if_true, Bool.not_true, Bool.false_eq_true, if_false] at h ⊢
      split at h
      · rw [missResponse_hit h] at hhit
        cases hhit
      · rename_i hplan
        rw [if_neg hplan]
        cases h
        refine ⟨id, cand, hrow, hproject, hfresh, hv, ⟨rfl, rfl⟩, ?_⟩
        rw [isStale_touchQa]
        exact isStale_of_fresh hrow hfresh
    · simp only [hv, if_false, Bool.not_false, if_true] at h
      rw [missResponse_hit h] at hhit
      cases hhit

/-- A neighbour that fails the check forces a miss. -/
theorem queryNear_drift {id : Int} {similarity : Rat} {cand : QaCacheRow}
    (hc : nearCandidate env qa project question = some (id, similarity, cand))
    (hv : ¬ Verified chunks cand) :
    queryNear env chunks qa project question bufferId now =
      (markQaStale qa id "system" "provenance drift" now,
        missResponse env bufferId question similarity) := by
  unfold queryNear
  simp only [hc, provenanceIntact_eq, hv, if_false, Bool.not_false, if_true,
    (nearCandidate_some hc).1, Option.map_some, Option.getD_some]

/-- What the second step leaves stale stays stale. -/
theorem queryNear_stale {id : Int} (h : isStale qa id = true) :
    isStale (queryNear env chunks qa project question bufferId now).1 id = true := by
  unfold queryNear
  dsimp only
  split
  · exact h
  · rename_i i s cand _
    rw [provenanceIntact_eq]
    split
    · simp only [Bool.not_true, Bool.false_eq_true, if_false]
      split
      · exact h
      · rw [isStale_touchQa]
        exact h
    · simp only [Bool.not_false, if_true]
      rw [isStale_markQaStale, h, Bool.true_or]

end Near

/-! ## The handler -/

section Handler

variable (env : QueryEnv) (db : IndexDb) (qa : Table QaCacheRow) (project question : String)

/-- The row of the first step. -/
def exactRow : Option (Int × QaCacheRow) :=
  getCachedAnswer env.scan qa project (questionHash env question)

/-- The answers after the first step, when it does not serve. -/
def afterExact (now : Int) : Table QaCacheRow :=
  match exactRow env qa project question with
  | some (id, row) => (provenanceIntact db.chunks qa id row now).1
  | none => qa

variable {env db qa project question}

theorem exactRow_some {id : Int} {row : QaCacheRow}
    (h : exactRow env qa project question = some (id, row)) :
    qa.get? id = some row ∧ row.project = project ∧ row.stale = false := by
  unfold exactRow getCachedAnswer at h
  have hmem := env.scan.mem_order.mp (List.mem_of_mem_head? h)
  obtain ⟨hrow, hp⟩ := Table.mem_select.mp hmem
  simp only [Bool.and_eq_true, beq_iff_eq, Bool.not_eq_true'] at hp
  exact ⟨Table.get?_eq_some.mpr hrow, hp.1.1.1, hp.2⟩

theorem fresh_before_exact {id now : Int} {row : QaCacheRow}
    (h : (afterExact env db qa project question now).get? id = some row)
    (hf : row.stale = false) : qa.get? id = some row := by
  unfold afterExact at h
  split at h
  · exact fresh_before_check h hf
  · exact h

/-- The handler, with the first step taken apart. -/
theorem handleQueryWithCache_eq (hp : Text.isBlank project = false)
    (hq : Text.isBlank question = false) (explicit now : Int) :
    handleQueryWithCache env db qa project question explicit now =
      match exactRow env qa project question with
      | some (id, row) =>
        if Verified db.chunks row then (touchQa qa id now,
          .ok (hitResponse env db.chunks row 0 1 0 env.thresholds.provenanceK))
        else queryNear env db.chunks (afterExact env db qa project question now) project
          question (resolveBuffer db.buffers project explicit) now
      | none => queryNear env db.chunks (afterExact env db qa project question now) project
          question (resolveBuffer db.buffers project explicit) now := by
  unfold handleQueryWithCache afterExact exactRow
  rw [if_neg (by simp [hp]), if_neg (by simp [hq])]
  cases getCachedAnswer env.scan qa project (questionHash env question) with
  | none => rfl
  | some x =>
    dsimp only
    rw [provenanceIntact_eq]
    by_cases hv : Verified db.chunks x.2
    · simp only [hv, if_true]
    · simp only [hv, if_false, Bool.false_eq_true]

/-- When the first step does not serve, the second one decides. -/
theorem handleQueryWithCache_near (hp : Text.isBlank project = false)
    (hq : Text.isBlank question = false) (explicit now : Int)
    (hx : ∀ x, exactRow env qa project question = some x → ¬ Verified db.chunks x.2) :
    handleQueryWithCache env db qa project question explicit now =
      queryNear env db.chunks (afterExact env db qa project question now) project question
        (resolveBuffer db.buffers project explicit) now := by
  rw [handleQueryWithCache_eq hp hq]
  cases h : exactRow env qa project question with
  | none => rfl
  | some x =>
    have hv : ¬ Verified db.chunks x.2 := hx x h
    simp only [hv, if_false]

theorem handleQueryWithCache_exact (hp : Text.isBlank project = false)
    (hq : Text.isBlank question = false) (explicit now : Int) {id : Int} {row : QaCacheRow}
    (hx : exactRow env qa project question = some (id, row)) (hv : Verified db.chunks row) :
    handleQueryWithCache env db qa project question explicit now =
      (touchQa qa id now,
        .ok (hitResponse env db.chunks row 0 1 0 env.thresholds.provenanceK)) := by
  rw [handleQueryWithCache_eq hp hq]
  simp only [hx, hv, if_true]

/-- Whatever the tables hold: an answer is served only when its numbered sources are stored
chunks with the recorded hashes. An exact answer that passes is served. One that fails becomes
stale and leaves the query to the near hit, where a neighbour that fails becomes stale and the
query is a miss. -/
theorem serve_gate (hp : Text.isBlank project = false) (hq : Text.isBlank question = false)
    (explicit now : Int) :
    let r := handleQueryWithCache env db qa project question explicit now
    (∀ resp, r.2 = .ok resp → resp.hit = true →
      ∃ id row, Served db.chunks qa r.1 project resp id row) ∧
    (∀ id row, exactRow env qa project question = some (id, row) →
      if Verified db.chunks row then
        r.2 = .ok (hitResponse env db.chunks row 0 1 0 env.thresholds.provenanceK)
      else isStale r.1 id = true) ∧
    ((∀ x, exactRow env qa project question = some x → ¬ Verified db.chunks x.2) →
      ∀ id similarity cand,
        nearCandidate env (afterExact env db qa project question now) project question =
            some (id, similarity, cand) →
          ¬ Verified db.chunks cand →
            isStale r.1 id = true ∧
              r.2 = missResponse env (resolveBuffer db.buffers project explicit) question
                similarity) := by
  dsimp only
  by_cases hx : ∃ x, exactRow env qa project question = some x ∧ Verified db.chunks x.2
  · -- the exact row is served
    obtain ⟨⟨id, row⟩, hsome, hv⟩ := hx
    obtain ⟨hrow, hproject, hfresh⟩ := exactRow_some hsome
    rw [handleQueryWithCache_exact hp hq explicit now hsome hv]
    refine ⟨?_, ?_, ?_⟩
    · intro resp hresp _
      cases hresp
      refine ⟨id, row, hrow, hproject, hfresh, hv, ⟨rfl, rfl⟩, ?_⟩
      rw [isStale_touchQa]
      exact isStale_of_fresh hrow hfresh
    · intro id' row' h
      rw [hsome] at h
      cases h
      rw [if_pos hv]
    · intro hnone
      exact absurd hv (hnone _ hsome)
  · have hx : ∀ x, exactRow env qa project question = some x → ¬ Verified db.chunks x.2 := by
      intro x hsome hv
      exact hx ⟨x, hsome, hv⟩
    rw [handleQueryWithCache_near hp hq explicit now hx]
    refine ⟨?_, ?_, ?_⟩
    · intro resp hresp hhit
      obtain ⟨id, row, hs⟩ := queryNear_hit hresp hhit
      exact ⟨id, row, { hs with stored := fresh_before_exact hs.stored hs.fresh }⟩
    · intro id row hsome
      have hv : ¬ Verified db.chunks row := hx _ hsome
      rw [if_neg hv]
      refine queryNear_stale ?_
      unfold afterExact
      simp only [hsome, provenanceIntact_eq, hv, if_false]
      rw [isStale_markQaStale, (exactRow_some hsome).1]
      simp
    · intro _ id similarity cand hc hv
      rw [queryNear_drift hc hv]
      refine ⟨?_, rfl⟩
      rw [isStale_markQaStale, (nearCandidate_some hc).2.2.1]
      simp

end Handler

/-! ## Drift behind an exact answer -/

/-- The nearest stored question is always the second one. No overlap of the sources is asked for,
so that the search for them, in no buffer, does not matter. -/
def askEnv : QueryEnv where
  sha256 := fun text => text.toList.map fun c => UInt8.ofNat c.toNat
  toLowercase := String.toLower
  thresholds := { QaThresholds.default with jaccardMin := 0 }
  questionSearch := fun _ _ => some [(2, 95 / 100)]
  hybridSearch := fun bufferId _ _ =>
    .ok (if bufferId = 0 then [] else [⟨2, "b", 1, "b.txt", 1, 1, 1⟩])
  scan := .rowid

/-- An answer about a chunk that gives the recorded hash. -/
def answerTo (question chunkId hash : String) : StoreAnswerInput where
  bufferId := some 1
  project := "p"
  questionText := question
  questionHash := questionHash askEnv question
  answerText := "a file"
  sourceChunkIds := [chunkId]
  sourceHashes := [hash]

/-- Both files are indexed. -/
def bothFiles : IndexDb :=
  indexHistory digestIndexer [[.init "p" "/p", .file "a.txt" (some "a"), .file "b.txt" (some "b")]]

/-- Then the first one changes. -/
def supersededFile : IndexDb :=
  indexHistory digestIndexer [[.init "p" "/p", .file "a.txt" (some "b"), .file "b.txt" (some "b")],
    [.init "p" "/p", .file "a.txt" (some "a"), .file "b.txt" (some "b")]]

/-- The first answer has a hash that its chunk does not have, the second one is right. -/
def driftedAnswer : Table QaCacheRow :=
  let one := storeAnswer .rowid Table.empty
    (answerTo "what is a?" "1" (hashText sampleDigest "b")) "c1" 5
  (storeAnswer .rowid one.1 (answerTo "what is b?" "2" (hashText sampleDigest "b")) "c2" 6).1

/-- An answer with the hash of the version of its chunk that was replaced. -/
def supersededAnswer : Table QaCacheRow :=
  (storeAnswer .rowid Table.empty
    (answerTo "what is a?" "1" (hashText sampleDigest "a")) "c1" 5).1

/-- The drifted answer becomes stale, and what is served instead passes the check. -/
theorem serve_gate_drifted :
    let r := handleQueryWithCache askEnv bothFiles driftedAnswer "p" "what is a?" 0 9
    isStale r.1 1 = true ∧
      ∀ resp, r.2 = .ok resp → resp.hit = true →
        ∃ id row, Served bothFiles.chunks driftedAnswer r.1 "p" resp id row := by
  have hgate := @serve_gate askEnv bothFiles driftedAnswer "p" "what is a?" (by decide) (by decide)
    0 9
  refine ⟨?_, hgate.1⟩
  have hdrift := hgate.2.1 1 ((answerTo "what is a?" "1" (hashText sampleDigest "b")).row "c1" 1 5)
    (by decide +kernel)
  rwa [if_neg (by decide +kernel)] at hdrift

/-- The exact answer has drifted, and the query is a hit all the same; and an answer about a
retired chunk is served. -/
theorem serve_gate_fallthrough :
    ((exactRow askEnv driftedAnswer "p" "what is a?").any fun x =>
        !decide (Verified bothFiles.chunks x.2)) = true ∧
      (handleQueryWithCache askEnv bothFiles driftedAnswer "p" "what is a?" 0 9).2.map
        (fun resp => (resp.hit, resp.cacheId)) = .ok (true, "c2") ∧
      (supersededFile.chunks.get? 1).map Chunk.isActive = some false ∧
      (handleQueryWithCache askEnv supersededFile supersededAnswer "p" "what is a?" 0 9).2.map
        (fun resp => (resp.hit, resp.cacheId)) = .ok (true, "c1") := by
  decide +kernel

end Arags
