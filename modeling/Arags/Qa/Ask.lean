import Arags.Cli.ThinkTags
import Arags.Llm.Families
import Arags.Qa.NearReach
import Arags.Qa.ReadYourWrites

/-!
# Arags.Qa.Ask

A question asked through the cache, `run_ask` of the client's `commands/qa_cache.rs`: a hit is
shown; on a miss the user's model digests the candidates, and the answer is stored with their ids
and hashes. Anything may happen at the server before it is stored, and after.

* `digestChunks`, `runAsk` — the client.
* `SaysAs`, `Addressed` — streams retire rows, they do not change what a row says, and every row
  has the digest of its text.
* `OnlyCites` — the rows with one id keep what they cite.
* `Drawn`     — the candidates are rows of the chunk table.
* `asked_answer_served` — the answer passes the check for ever, and is served with its sources.
-/

namespace Arags

open Sql

/-! ## The client -/

/-- One candidate in the prompt. -/
def digestContext (candidates : List SearchResult) : String :=
  candidates.foldl (fun context c =>
    context ++ "# " ++ c.filePath ++ "\n```\n" ++ c.text ++ "\n```\n") ""

def buildDigestPrompt (question context : String) : String :=
  "Based on the following project context, answer this question concisely and with provenance:" ++
    "\n\nQuestion: " ++ question ++ "\n\nContext:\n" ++ context

/-- `0.3_f32`. -/
def DIGEST_TEMPERATURE : Llm.F32 := .finite false (10066330 / 33554432)

def digestRequest (prompt model : String) : Llm.CompletionRequest where
  model := model
  messages := [⟨.user, prompt⟩]
  temperature := some DIGEST_TEMPERATURE
  maxTokens := some 2048
  stop := none
  seed := none
  tools := none

/-- The digest of the client, and the user's model: the content of a completion. -/
structure AskEnv where
  sha256 : String → List UInt8
  complete : Llm.CompletionRequest → Except String String
  defaultModel : Option String

structure AskedAnswer where
  text : String
  sources : List SearchResult
  cacheId : String
  digested : Bool

section Client

variable (ask : AskEnv)

/-- The stripper never panics, by `Cli.stripCot_eq`. -/
def digestChunks (prompt model : String) : Except String String :=
  (ask.complete (digestRequest prompt model)).map fun content =>
    String.ofList ((Cli.stripCot content.toList).getD [])

/-- What is shown, and what is sent back to be stored. -/
def runAsk (question : String) (model : Option String) (project : String)
    (resp : QueryWithCacheResponse) : Except String (AskedAnswer × Option StoreAnswerRequest) :=
  if resp.hit then .ok (⟨resp.answerText, resp.provenance, resp.cacheId, false⟩, none)
  else do
    let prompt := buildDigestPrompt question (digestContext resp.candidates)
    let answer ← digestChunks ask prompt ((model.or ask.defaultModel).getD "llama3")
    return (⟨answer, resp.candidates, resp.cacheId, true⟩, some {
      project := project
      bufferId := 0
      question := question
      answer := answer
      sourceChunkIds := resp.candidates.map fun c => toString c.chunkId
      sourceHashes := resp.candidates.map fun c => hashText ask.sha256 c.text })

end Client

/-! ## Rows that streams leave behind -/

/-- A row without the marks of its retirement. -/
def Chunk.source (r : Chunk) : Chunk := { r with isActive := true, supersededBy := none }

/-- The row `i` says what `r` says. -/
def SaysAs (i : Int) (r : Chunk) (t : SeqTable Chunk) : Prop :=
  ∃ s, t.get? i = some s ∧ s.source = r.source

section Streams

variable {ix : Indexer} {i : Int} {r : Chunk}

theorem SaysAs.insert {t : SeqTable Chunk} (h : SaysAs i r t) (x : Chunk) :
    SaysAs i r (t.insert x) := by
  obtain ⟨s, hs, hsame⟩ := h
  exact ⟨s, Table.get?_eq_some.mpr (SeqTable.mem_insert.mpr (.inl (Table.get?_eq_some.mp hs))),
    hsame⟩

theorem SaysAs.retireRow {t : SeqTable Chunk} (h : SaysAs i r t) (j : Int) (by_ : Option Int) :
    SaysAs i r (retireRow t j by_) := by
  obtain ⟨s, hs, hsame⟩ := h
  refine ⟨_, Table.get?_eq_some.mpr (SeqTable.mem_update.mpr
    ⟨s, Table.get?_eq_some.mp hs, rfl⟩), ?_⟩
  rw [← hsame]
  split <;> rfl

theorem saysAs_kept (i : Int) (r : Chunk) : KeptByStreams (SaysAs i r) := by
  refine ⟨fun hp h => ?_, fun ids h => ?_⟩
  · cases hp with
    | unchanged _ _ _ _ ht _ => exact ht ▸ h
    | changed _ _ _ _ ht _ => exact ht ▸ (h.insert _).retireRow _ _
    | fresh _ ht _ => exact ht ▸ h.insert _
  · rename_i t
    induction ids generalizing t with
    | nil => exact h
    | cons j ids ih => exact ih (h.retireRow j none)

/-- Every row has the digest of its text. -/
def Addressed (ix : Indexer) (t : SeqTable Chunk) : Prop :=
  ∀ x ∈ t.rows, x.2.hash = ix.sha256 x.2.content

theorem Addressed.insert {t : SeqTable Chunk} (h : Addressed ix t) {x : Chunk}
    (hx : x.hash = ix.sha256 x.content) : Addressed ix (t.insert x) := by
  rintro ⟨j, s⟩ hs
  rcases SeqTable.mem_insert.mp hs with hs | ⟨-, rfl⟩
  · exact h (j, s) hs
  · exact hx

theorem Addressed.retireRow {t : SeqTable Chunk} (h : Addressed ix t) (j : Int)
    (by_ : Option Int) : Addressed ix (retireRow t j by_) := by
  rintro ⟨k, s⟩ hs
  obtain ⟨s₀, hs₀, rfl⟩ := SeqTable.mem_update.mp hs
  dsimp only
  split <;> exact h (k, s₀) hs₀

theorem Addressed.retireAll {t : SeqTable Chunk} (h : Addressed ix t) (ids : List Int) :
    Addressed ix (retireAll t ids) := by
  induction ids generalizing t with
  | nil => exact h
  | cons i ids ih => exact ih (h.retireRow i none)

theorem Addressed.persistAll (b : Int) (active : Snapshot)
    (acc : SeqTable Chunk × BatchedInsert) (h : Addressed ix acc.1)
    {items : List (String × IndexedChunk)}
    (hi : ∀ item ∈ items, item.2.hashBytes = ix.sha256 item.2.content) :
    Addressed ix (persistAll ix.scan b active acc items).1 := by
  induction items generalizing acc with
  | nil => exact h
  | cons item items ih =>
    have hitem := hi item List.mem_cons_self
    refine ih _ ?_ fun x hx => hi x (List.mem_cons_of_mem _ hx)
    cases persistChunk_persisted ix.scan b active acc.1 acc.2 item.1 item.2 with
    | unchanged _ _ _ _ ht _ => exact ht ▸ h
    | changed _ _ _ _ ht _ => exact ht ▸ (Addressed.insert h hitem).retireRow _ _
    | fresh _ ht _ => exact ht ▸ Addressed.insert h hitem

theorem Addressed.stepMsg {db db' : IndexDb} {st st' : LoopState} {m : IndexMsg}
    (hm : stepMsg ix db st m = .ok (db', st')) (h : Addressed ix db.chunks) :
    Addressed ix db'.chunks := by
  rcases stepMsg_cases hm with ⟨_, _, -, rfl, -⟩ | ⟨path, text, b, -, -, rfl, -⟩ | ⟨-, rfl, -⟩
  · exact h
  · dsimp only
    rw [phase1_fileInsert]
    unfold fileInsert
    rw [insertChunksBatched_eq]
    refine Addressed.persistAll b _ (db.chunks, .empty) h fun item hitem => ?_
    obtain ⟨c, hc, rfl⟩ := List.mem_map.mp hitem
    exact chunksOf_hashBytes c hc
  · exact h

theorem Addressed.runLoop {db : IndexDb} {st : LoopState} {msgs : List IndexMsg}
    (h : Addressed ix db.chunks) : Addressed ix (runLoop ix db st msgs).1.chunks := by
  induction msgs generalizing db st with
  | nil => exact h
  | cons m msgs ih =>
    unfold Arags.runLoop
    cases hm : Arags.stepMsg ix db st m with
    | error e => exact h
    | ok x => exact ih (Addressed.stepMsg hm h)

theorem Addressed.indexStreamLoop (db : IndexDb) (msgs : List IndexMsg)
    (h : Addressed ix db.chunks) : Addressed ix (indexStreamLoop ix db msgs).1.chunks := by
  have hrun : Addressed ix (Arags.runLoop ix db .start msgs).1.chunks := Addressed.runLoop h
  unfold Arags.indexStreamLoop
  generalize Arags.runLoop ix db .start msgs = r at hrun ⊢
  obtain ⟨d, e | st⟩ := r
  · exact hrun
  · dsimp only
    rw [finish_chunks, orphanPass_retireAll]
    exact Addressed.retireAll hrun _

end Streams

/-! ## Runs of the server -/

section Server

variable {ε : Type} {ix : Indexer} {env : QueryEnv} {space : QuestionSpace ε}

/-- Only a stream writes to the index. -/
theorem stepAnswers_index (s : AnswerServer ε) (op : AnswerOp ε) :
    (stepAnswers ix env space s op).index = s.index ∨
      ∃ msgs, (stepAnswers ix env space s op).index = (indexStreamLoop ix s.index msgs).1 := by
  cases op with
  | store req cacheId now inserted =>
    refine .inl ?_
    unfold stepAnswers handleStoreAnswer
    dsimp only
    split
    · rfl
    split
    · rfl
    split <;> rfl
  | stream msgs => exact .inr ⟨msgs, rfl⟩
  | reconcile id vector =>
    refine .inl ?_
    unfold stepAnswers
    dsimp only
    split <;> rfl
  | _ => exact .inl rfl

theorem index_kept {P : SeqTable Chunk → Prop}
    (hP : ∀ db msgs, P db.chunks → P (indexStreamLoop ix db msgs).1.chunks)
    {s : AnswerServer ε} (h : P s.index.chunks) (ops : List (AnswerOp ε)) :
    P (Lts.after (stepAnswers ix env space) s ops).index.chunks := by
  refine Lts.run_inv (I := fun _ (s : AnswerServer ε) => P s.index.chunks) h ?_ ops
  intro _ s op h
  rcases stepAnswers_index s op with he | ⟨msgs, he⟩
  · rw [he]
    exact h
  · rw [he]
    exact hP _ msgs h

end Server

/-! ## Rows of one answer -/

/-- What a row says and cites. -/
structure Citation where
  cacheId : String
  project : String
  questionHash : String
  answerText : String
  sourceChunkIds : List String
  sourceHashes : List String

def QaCacheRow.citation (r : QaCacheRow) : Citation :=
  ⟨r.cacheId, r.project, r.questionHash, r.answerText, r.sourceChunkIds, r.sourceHashes⟩

def StoreAnswerRequest.citation (req : StoreAnswerRequest) (env : QueryEnv) (cacheId : String) :
    Citation :=
  ⟨cacheId, req.project, questionHash env req.question, req.answer, req.sourceChunkIds,
    req.sourceHashes⟩

/-- Every row cites as some row did before. -/
structure CitesAs (t t' : Table QaCacheRow) : Prop where
  rows : ∀ x ∈ t'.rows, ∃ y ∈ t.rows, x.2.citation = y.2.citation

/-- The rows with its id have this citation. -/
def OnlyCites (c : Citation) (t : Table QaCacheRow) : Prop :=
  ∀ x ∈ t.rows, x.2.cacheId = c.cacheId → x.2.citation = c

section Citations

variable {t t' t'' : Table QaCacheRow} {c : Citation}

theorem CitesAs.refl (t : Table QaCacheRow) : CitesAs t t := ⟨fun x hx => ⟨x, hx, rfl⟩⟩

theorem CitesAs.trans (h : CitesAs t t') (h' : CitesAs t' t'') : CitesAs t t'' := by
  constructor
  intro x hx
  obtain ⟨y, hy, hxy⟩ := h'.rows x hx
  obtain ⟨z, hz, hyz⟩ := h.rows y hy
  exact ⟨z, hz, hxy.trans hyz⟩

theorem CitesAs.update (t : Table QaCacheRow) {p : Int → QaCacheRow → Bool}
    {f : Int → QaCacheRow → QaCacheRow} (hf : ∀ i r, (f i r).citation = r.citation) :
    CitesAs t (t.update p f) := by
  constructor
  rintro ⟨i, r'⟩ hx
  obtain ⟨r, hr, rfl⟩ := Table.mem_update.mp hx
  refine ⟨(i, r), hr, ?_⟩
  dsimp only
  split
  · exact hf i r
  · rfl

theorem OnlyCites.citesAs (h : OnlyCites c t) (hc : CitesAs t t') : OnlyCites c t' := by
  intro x hx hid
  obtain ⟨y, hy, hxy⟩ := hc.rows x hx
  have hyid : y.2.cacheId = c.cacheId := (congrArg Citation.cacheId hxy).symm.trans hid
  rw [hxy]
  exact h y hy hyid

theorem OnlyCites.insert (h : OnlyCites c t) {r : QaCacheRow}
    (hr : r.cacheId = c.cacheId → r.citation = c) : OnlyCites c (t.insert r) := by
  rintro ⟨i, r'⟩ hx
  rcases Table.mem_insert.mp hx with hx | ⟨-, rfl⟩
  · exact h (i, r') hx
  · exact hr

theorem citesAs_markQaStale (t : Table QaCacheRow) (id : Int) (by_ reason : String) (now : Int) :
    CitesAs t (markQaStale t id by_ reason now) := .update t fun _ _ => rfl

theorem citesAs_touchQa (t : Table QaCacheRow) (id now : Int) : CitesAs t (touchQa t id now) :=
  .update t fun _ _ => rfl

theorem citesAs_provenanceIntact (chunks : SeqTable Chunk) (t : Table QaCacheRow) (id : Int)
    (row : QaCacheRow) (now : Int) : CitesAs t (provenanceIntact chunks t id row now).1 := by
  rw [provenanceIntact_eq]
  split
  · exact .refl t
  · exact citesAs_markQaStale t ..

theorem citesAs_queryNear (env : QueryEnv) (chunks : SeqTable Chunk) (t : Table QaCacheRow)
    (project question : String) (bufferId : Option Int) (now : Int) :
    CitesAs t (queryNear env chunks t project question bufferId now).1 := by
  unfold queryNear
  dsimp only
  split
  · exact .refl t
  · rename_i id similarity cand _
    have hchecked := citesAs_provenanceIntact chunks t id cand now
    split
    · exact hchecked
    · split
      · exact hchecked
      · exact hchecked.trans (citesAs_touchQa _ id now)

theorem citesAs_query (env : QueryEnv) (db : IndexDb) (t : Table QaCacheRow)
    (project question : String) (explicit now : Int) :
    CitesAs t (handleQueryWithCache env db t project question explicit now).1 := by
  unfold handleQueryWithCache
  split
  · exact .refl t
  split
  · exact .refl t
  dsimp only
  split
  · exact citesAs_queryNear env ..
  · rename_i id row _
    have hchecked := citesAs_provenanceIntact db.chunks t id row now
    split
    · exact hchecked.trans (citesAs_touchQa _ id now)
    · exact hchecked.trans (citesAs_queryNear env ..)

theorem citesAs_invalidate (scan : ScanOrder QaCacheRow) (chunks : SeqTable Chunk)
    (t : Table QaCacheRow) (b now : Int) :
    CitesAs t (invalidateStaleCacheForBuffer scan chunks t b now) := by
  unfold invalidateStaleCacheForBuffer
  dsimp only
  split
  · exact .refl t
  · generalize listQaHashesForBuffer scan t b = rows
    induction rows generalizing t with
    | nil => exact .refl t
    | cons x rows ih =>
      refine CitesAs.trans ?_ (ih _)
      dsimp only
      split
      · exact citesAs_markQaStale t ..
      · exact .refl t

theorem OnlyCites.storeAnswer (h : OnlyCites c t) (scan : ScanOrder QaCacheRow)
    {input : StoreAnswerInput} {cacheId : String}
    (hinput : cacheId = c.cacheId → ∀ version now, (input.row cacheId version now).citation = c)
    (now : Int) : OnlyCites c (storeAnswer scan t input cacheId now).1 := by
  unfold Arags.storeAnswer
  split
  · rename_i oldId old _
    have hretired : OnlyCites c (t.update (fun i r => i == oldId && r.isActive)
        fun _ r => { r with isActive := false }) := h.citesAs (.update t fun _ _ => rfl)
    have hinserted := hretired.insert fun hid => hinput hid (old.version + 1) now
    dsimp only
    refine hinserted.citesAs (.update _ ?_)
    exact fun _ _ => rfl
  · exact h.insert fun hid => hinput hid _ _

end Citations

section Server

variable {ε : Type} {ix : Indexer} {env : QueryEnv} {space : QuestionSpace ε}

theorem OnlyCites.step {req : StoreAnswerRequest} {cacheId : String} {s : AnswerServer ε}
    (h : OnlyCites (req.citation env cacheId) s.qa) {op : AnswerOp ε}
    (hop : ∀ req' now inserted, op = .store req' cacheId now inserted → req' = req) :
    OnlyCites (req.citation env cacheId) (stepAnswers ix env space s op).qa := by
  cases op with
  | store req' cacheId' now inserted =>
    unfold stepAnswers handleStoreAnswer
    dsimp only
    split
    · exact h
    split
    · exact h
    split
    · exact h
    refine OnlyCites.storeAnswer h env.scan (fun hid version at_ => ?_) now
    obtain rfl : cacheId' = cacheId := hid
    rw [hop req' now inserted rfl]
    rfl
  | query project question explicit now => exact h.citesAs (citesAs_query ..)
  | stream msgs => exact h
  | invalidate bufferId now => exact h.citesAs (citesAs_invalidate ..)
  | markStale id by_ reason now => exact h.citesAs (citesAs_markQaStale ..)
  | delete id erased =>
    refine h.citesAs ⟨fun x hx => ⟨x, ?_, rfl⟩⟩
    exact (Table.mem_delete.mp hx).1
  | reconcile id vector =>
    unfold stepAnswers
    dsimp only
    split <;> exact h

theorem onlyCites_run {req : StoreAnswerRequest} {cacheId : String} {ops : List (AnswerOp ε)}
    (huuid : ∀ req' now inserted, AnswerOp.store req' cacheId now inserted ∈ ops → req' = req) :
    OnlyCites (req.citation env cacheId)
      (Lts.after (stepAnswers ix env space) .empty ops).qa := by
  induction ops with
  | nil =>
    intro x hx
    cases hx
  | cons op ops ih =>
    refine OnlyCites.step (ih fun req' now inserted h =>
      huuid req' now inserted (List.mem_cons_of_mem op h)) fun req' now inserted he => ?_
    exact huuid req' now inserted (he ▸ List.mem_cons_self)

end Server

/-! ## What the server makes of it -/

/-- A row as a result with this score. -/
def Chunk.result (r : Chunk) (id : Int) (score : Rat) : SearchResult :=
  ⟨id, r.content, score, r.filePath, r.lineStart, r.lineEnd, r.version⟩

theorem result_of_source {r s : Chunk} (h : s.source = r.source) (id : Int) (score : Rat) :
    s.result id score = r.result id score := by
  have hresult : s.source.result id score = r.source.result id score := by rw [h]
  exact hresult

/-- The candidates are rows of the table; ids are `i64`. -/
def Drawn (chunks : SeqTable Chunk) (candidates : List SearchResult) : Prop :=
  ∀ c ∈ candidates, -9223372036854775808 ≤ c.chunkId ∧ c.chunkId ≤ 9223372036854775807 ∧
    ∃ r, chunks.get? c.chunkId = some r ∧ c = r.result c.chunkId c.score

/-- Streams keep the rows of the candidates, with what they say. -/
theorem drawn_kept {ix : Indexer} {candidates : List SearchResult} (db : IndexDb)
    (msgs : List IndexMsg) (h : Drawn db.chunks candidates) :
    Drawn (indexStreamLoop ix db msgs).1.chunks candidates := by
  intro c hc
  obtain ⟨hlo, hhi, r, hr, he⟩ := h c hc
  obtain ⟨s, hs, hsame⟩ := (saysAs_kept c.chunkId r).indexStreamLoop db msgs ⟨r, hr, rfl⟩
  exact ⟨hlo, hhi, s, hs, he.trans (result_of_source hsame c.chunkId c.score).symm⟩

theorem mem_normalizeScores {results : List SearchResult} {c : SearchResult}
    (h : c ∈ normalizeScores results) : ∃ r ∈ results, c = { r with score := c.score } := by
  unfold normalizeScores at h
  split at h
  · cases h
  · obtain ⟨r, hr, rfl⟩ := List.mem_map.mp h
    exact ⟨r, hr, rfl⟩

/-- What the hybrid search finds is drawn from the chunks it searches. -/
theorem grpcHybridSearch_drawn {ε : Type} (env : ReachEnv ε) {s : ReachDb ε}
    (hids : ∀ x ∈ s.search.tables.chunks.rows,
      -9223372036854775808 ≤ x.1 ∧ x.1 ≤ 9223372036854775807)
    (bufferId : Int) (ftsQuery : String) (tier : HybridTier) (topK : Nat) :
    Drawn s.search.tables.chunks (grpcHybridSearch env s bufferId ftsQuery tier topK) := by
  intro c hc
  obtain ⟨r, hr, he⟩ := mem_normalizeScores hc
  obtain ⟨hit, -, hrow⟩ := List.mem_filterMap.mp hr
  obtain ⟨row, hget, rfl⟩ := Option.map_eq_some_iff.mp hrow
  obtain ⟨hlo, hhi⟩ := hids _ (Table.get?_eq_some.mp hget)
  rw [he]
  exact ⟨hlo, hhi, row, hget, rfl⟩

section Served

variable {env : QueryEnv} {db : IndexDb} {qa : Table QaCacheRow} {project question : String}

/-- A check does not mark a row that passes. -/
theorem provenanceIntact_keeps {chunks : SeqTable Chunk} {id i : Int} (now : Int) {row r : QaCacheRow}
    (hr : qa.get? i = some r) (hv : Verified chunks r) (hrow : qa.get? id = some row) :
    (provenanceIntact chunks qa id row now).1.get? i = some r := by
  rw [provenanceIntact_eq]
  split
  · exact hr
  · rename_i hfails
    have hne : i ≠ id := by
      rintro rfl
      rw [hrow, Option.some.injEq] at hr
      exact hfails (hr ▸ hv)
    rw [get?_markQaStale, hr]
    simp [hne]

theorem queryNear_keeps {chunks : SeqTable Chunk} {i now : Int} {r : QaCacheRow}
    {bufferId : Option Int} (hr : qa.get? i = some r) (hv : Verified chunks r) :
    isStale (queryNear env chunks qa project question bufferId now).1 i = r.stale := by
  have hstale : ∀ t : Table QaCacheRow, t.get? i = some r → isStale t i = r.stale := by
    intro t ht
    rw [isStale, ht, Option.any_some]
  unfold queryNear
  dsimp only
  split
  · exact hstale _ hr
  · rename_i id similarity cand hc
    have hkept := provenanceIntact_keeps now hr hv (nearCandidate_some hc).2.2.1
    split
    · exact hstale _ hkept
    · split
      · exact hstale _ hkept
      · rw [isStale_touchQa]
        exact hstale _ hkept

/-- No query marks a row that passes the check. -/
theorem query_keeps {i : Int} {r : QaCacheRow} (hr : qa.get? i = some r)
    (hv : Verified db.chunks r) (explicit now : Int) :
    isStale (handleQueryWithCache env db qa project question explicit now).1 i = r.stale := by
  have hsame : isStale qa i = r.stale := by
    rw [isStale, hr, Option.any_some]
  unfold handleQueryWithCache
  split
  · exact hsame
  split
  · exact hsame
  dsimp only
  split
  · exact queryNear_keeps hr hv
  · rename_i id row hexact
    have hkept := provenanceIntact_keeps now hr hv (exactRow_some hexact).1
    split
    · rw [isStale_touchQa, isStale, hkept, Option.any_some]
    · exact queryNear_keeps hkept hv

/-- The only fresh live answer to a question is the exact hit. -/
theorem exactRow_eq (hu : LiveUnique qaColumns qa) {x : Int × QaCacheRow} (hx : x ∈ qa.rows)
    (hproject : x.2.project = project) (hhash : x.2.questionHash = questionHash env question)
    (hactive : x.2.isActive = true) (hfresh : x.2.stale = false)
    (halone : Unrivalled qa project (questionHash env question) x.2.bufferId) :
    exactRow env qa project question = some x := by
  have hmatches : x ∈ env.scan.order (qa.select fun _ r => r.project == project &&
      r.questionHash == questionHash env question && r.isActive && !r.stale) :=
    env.scan.mem_order.mpr (Table.mem_select.mpr ⟨hx, by simp [hproject, hhash, hactive, hfresh]⟩)
  unfold exactRow getCachedAnswer
  cases hs : env.scan.order (qa.select fun _ r => r.project == project &&
      r.questionHash == questionHash env question && r.isActive && !r.stale) with
  | nil => rw [hs] at hmatches; cases hmatches
  | cons y l =>
    have hy := Table.mem_select.mp (env.scan.mem_order.mp (hs ▸ List.mem_cons_self : y ∈ _))
    simp only [Bool.and_eq_true, beq_iff_eq, Bool.not_eq_true'] at hy
    obtain ⟨hm, ⟨⟨hp, hq⟩, ha⟩, hf⟩ := hy
    have hid : y.1 = x.1 := hu y hm x hx ha hactive (by
      simp [qaColumns, hp, hq, hproject, hhash, halone y hm hp hq ha hf])
    rw [List.head?_cons, Option.some.injEq]
    exact Prod.ext hid (Table.eq_of_mem hm (hid ▸ hx : (y.1, x.2) ∈ qa.rows))

end Served

section Sources

variable {ix : Indexer} {ask : AskEnv} {chunks : SeqTable Chunk} {candidates : List SearchResult}

theorem verified_of_drawn (hsha : ask.sha256 = ix.sha256) (haddressed : Addressed ix chunks)
    (hdrawn : Drawn chunks candidates) {row : QaCacheRow}
    (hids : row.sourceChunkIds = candidates.map fun c => toString c.chunkId)
    (hhashes : row.sourceHashes = candidates.map fun c => hashText ask.sha256 c.text) :
    Verified chunks row := by
  intro p hp i hi
  rw [hids, hhashes, List.zip_map', List.mem_map] at hp
  obtain ⟨c, hc, rfl⟩ := hp
  obtain ⟨hlo, hhi, r, hr, htext⟩ := hdrawn c hc
  have hparsed : Text.parseInt64 (toString c.chunkId) = some c.chunkId :=
    Text.parseInt64_repr hlo hhi
  rw [hparsed, Option.some.injEq] at hi
  subst hi
  refine ⟨r, hr, ?_⟩
  have hcontent : r.content = c.text := (congrArg SearchResult.text htext).symm
  have hhash : r.hash = ix.sha256 r.content := haddressed (_, r) (Table.get?_eq_some.mp hr)
  rw [hhash, hcontent, ← hsha]
  exact beq_self_eq_true _

/-- The served sources are the first candidates. -/
theorem provenanceChunks_drawn (hdrawn : Drawn chunks candidates) (k : Nat) :
    provenanceChunks chunks (candidates.map fun c => toString c.chunkId) k =
      (candidates.take (max k 1)).map fun c => { c with score := 1 } := by
  have hids : ((candidates.map fun c => toString c.chunkId).filterMap Text.parseInt64) =
      candidates.map SearchResult.chunkId := by
    rw [List.filterMap_map, List.filterMap_eq_map_iff_forall_eq_some]
    intro c hc
    obtain ⟨hlo, hhi, -⟩ := hdrawn c hc
    exact Text.parseInt64_repr hlo hhi
  unfold provenanceChunks
  rw [hids, ← List.map_take, List.filterMap_map, List.filterMap_eq_map_iff_forall_eq_some]
  intro c hc
  obtain ⟨-, -, r, hr, he⟩ := hdrawn c (List.mem_of_mem_take hc)
  rw [Function.comp_apply, hr, Option.map_some, he]
  rfl

end Sources

/-! ## The round of a question -/

theorem runAsk_stores {ask : AskEnv} {question project : String} {model : Option String}
    {resp : QueryWithCacheResponse} {shown : AskedAnswer} {req : StoreAnswerRequest}
    (h : runAsk ask question model project resp = .ok (shown, some req)) :
    req.project = project ∧ req.question = question ∧ req.answer = shown.text ∧
      req.sourceChunkIds = resp.candidates.map (fun c => toString c.chunkId) ∧
      req.sourceHashes = resp.candidates.map fun c => hashText ask.sha256 c.text := by
  unfold runAsk at h
  split at h
  · cases h
  · dsimp only at h
    cases hd : digestChunks ask (buildDigestPrompt question (digestContext resp.candidates))
        ((model.or ask.defaultModel).getD "llama3") with
    | error e =>
      rw [hd] at h
      cases h
    | ok answer =>
      rw [hd] at h
      cases h
      exact ⟨rfl, rfl, rfl, rfl, rfl⟩

theorem query_not_blank {env : QueryEnv} {db : IndexDb} {qa : Table QaCacheRow}
    {project question : String} {explicit now : Int} {resp : QueryWithCacheResponse}
    (h : (handleQueryWithCache env db qa project question explicit now).2 = .ok resp) :
    Text.isBlank project = false ∧ Text.isBlank question = false := by
  unfold handleQueryWithCache at h
  split at h
  · cases h
  split at h
  · cases h
  · rename_i hp hq
    exact ⟨Bool.eq_false_iff.mpr hp, Bool.eq_false_iff.mpr hq⟩

/-- A question is asked, and its answer is stored, once or again, under an id that no other answer
gets. Whatever is streamed, asked, marked and deleted in between and afterwards, its rows pass
the check, no query marks them, and a fresh live one that has no rival answers the question with
the text that was shown and the first of the candidates it was digested from. -/
theorem asked_answer_served {ε : Type} (ix : Indexer) (env : QueryEnv) (space : QuestionSpace ε)
    (ask : AskEnv) (hsha : ask.sha256 = ix.sha256) (before since : List (AnswerOp ε))
    (project question : String) (explicit askedAt : Int) (model : Option String)
    (cacheId : String) {resp : QueryWithCacheResponse} {shown : AskedAnswer}
    {req : StoreAnswerRequest} :
    let asked := Lts.after (stepAnswers ix env space) .empty before
    let run := since ++ .query project question explicit askedAt :: before
    let read := Lts.after (stepAnswers ix env space) .empty run
    let served project question explicit now := handleQueryWithCache (read.queryEnv env space)
      read.index read.qa project question explicit now
    (handleQueryWithCache (asked.queryEnv env space) asked.index asked.qa project question explicit
      askedAt).2 = .ok resp →
    Drawn asked.index.chunks resp.candidates →
    runAsk ask question model project resp = .ok (shown, some req) →
    (∀ req' now inserted, .store req' cacheId now inserted ∈ run → req' = req) →
    ∀ x ∈ read.qa.rows, x.2.cacheId = cacheId →
      Verified read.index.chunks x.2 ∧
      (∀ project question explicit now,
        isStale (served project question explicit now).1 x.1 = x.2.stale) ∧
      (x.2.isActive = true → x.2.stale = false →
        Unrivalled read.qa project (questionHash env question) x.2.bufferId →
        ∀ explicit now, ∃ r, (served project question explicit now).2 = .ok r ∧ r.hit = true ∧
          r.cacheId = cacheId ∧ r.answerText = shown.text ∧
          r.provenance = (resp.candidates.take (max env.thresholds.provenanceK 1)).map
            fun c => { c with score := 1 }) := by
  intro asked run read served hresp hdrawn hask huuid x hx hid
  obtain ⟨hproject, hquestion, hanswer, hids, hhashes⟩ := runAsk_stores hask
  obtain ⟨hp, hq⟩ := query_not_blank hresp
  have hcites : x.2.citation = req.citation env cacheId :=
    onlyCites_run huuid x hx hid
  have haddressed : Addressed ix read.index.chunks := by
    refine index_kept Addressed.indexStreamLoop ?_ run
    intro y hy
    cases hy
  have hstill : Drawn read.index.chunks resp.candidates := by
    have hrun : read = Lts.after (stepAnswers ix env space) asked
        (since ++ [.query project question explicit askedAt]) := by
      rw [← Lts.after_append, List.append_assoc]
      rfl
    rw [hrun]
    exact index_kept (P := fun t => Drawn t resp.candidates) drawn_kept hdrawn _
  have hrowids : x.2.sourceChunkIds = resp.candidates.map fun c => toString c.chunkId :=
    (congrArg Citation.sourceChunkIds hcites).trans hids
  have hverified : Verified read.index.chunks x.2 :=
    verified_of_drawn hsha haddressed hstill hrowids
      ((congrArg Citation.sourceHashes hcites).trans hhashes)
  have hrow : read.qa.get? x.1 = some x.2 := Table.get?_eq_some.mpr hx
  refine ⟨hverified, fun _ _ explicit now => query_keeps hrow hverified explicit now, ?_⟩
  intro hactive hfresh halone explicit now
  have hexact : exactRow (read.queryEnv env space) read.qa project question = some (x.1, x.2) :=
    exactRow_eq (answers_liveLast ix env space run).liveUnique hx
      ((congrArg Citation.project hcites).trans hproject)
      ((congrArg Citation.questionHash hcites).trans (congrArg (questionHash env) hquestion))
      hactive hfresh halone
  refine ⟨_, congrArg Prod.snd (handleQueryWithCache_exact hp hq explicit now hexact hverified),
    rfl, hid, (congrArg Citation.answerText hcites).trans hanswer, ?_⟩
  show provenanceChunks read.index.chunks x.2.sourceChunkIds env.thresholds.provenanceK = _
  rw [hrowids]
  exact provenanceChunks_drawn hstill _

/-! ## A chunk that changes in between -/

/-- Hybrid search finds the first chunk as it was, whatever is asked. -/
def firstChunkEnv : QueryEnv where
  sha256 := sampleDigest
  toLowercase := String.toLower
  thresholds := .default
  questionSearch := fun _ _ => none
  hybridSearch := fun _ _ _ => .ok [⟨1, "a", 1 / 2, "a.txt", 1, 1, 1⟩]
  scan := .rowid

def thinkingAsk : AskEnv where
  sha256 := sampleDigest
  complete := fun _ => .ok "<think>hm</think>a file"
  defaultModel := none

def firstChunkMiss : QueryWithCacheResponse :=
  ⟨"", false, -1, 0, "", [], [⟨1, "a", 1 / 2, "a.txt", 1, 1, 1⟩], 20, 5, 0⟩

def firstChunkRequest : StoreAnswerRequest :=
  ⟨"p", 0, "a?", "a file", ["1"], [hashText sampleDigest "a"]⟩

/-- The file is changed before the answer is stored. -/
def changedMeanwhile : List (AnswerOp Nat) :=
  [.store firstChunkRequest "c1" 7 true, .stream [.init "p" "/p", .file "a.txt" (some "b")]]

def changedServer : AnswerServer Nat :=
  Lts.after (stepAnswers digestIndexer firstChunkEnv lengthSpace) .empty
    (changedMeanwhile ++ [.query "p" "a?" 0 6, .stream answeredFile])

theorem firstChunkMiss_drawn :
    Drawn (Lts.after (stepAnswers digestIndexer firstChunkEnv lengthSpace) .empty
      [.stream answeredFile]).index.chunks firstChunkMiss.candidates := by
  intro c hc
  obtain rfl := List.mem_singleton.mp hc
  exact ⟨by decide, by decide, _, (Option.some_get (by decide +kernel)).symm, by decide +kernel⟩

/-- The chunk is superseded when the answer comes, and the answer is served with it. -/
theorem asked_answer_served_changed :
    (changedServer.index.chunks.get? 1).map (fun r => r.isActive) = some false ∧
    changedServer.qa.rows.length = 1 ∧
    ∀ x ∈ changedServer.qa.rows, Verified changedServer.index.chunks x.2 ∧
      ∀ explicit now, ∃ r, (handleQueryWithCache (changedServer.queryEnv firstChunkEnv lengthSpace)
        changedServer.index changedServer.qa "p" "a?" explicit now).2 = .ok r ∧
          r.answerText = "a file" ∧ r.provenance = [⟨1, "a", 1, "a.txt", 1, 1, 1⟩] := by
  have hrows : ∀ x ∈ changedServer.qa.rows, x.2.cacheId = "c1" ∧ x.2.isActive = true ∧
      x.2.stale = false ∧
        Unrivalled changedServer.qa "p" (questionHash firstChunkEnv "a?") x.2.bufferId := by
    decide +kernel
  have hshown : runAsk thinkingAsk "a?" none "p" firstChunkMiss =
      .ok (⟨"a file", firstChunkMiss.candidates, "", true⟩, some firstChunkRequest) := by
    have hdigest : digestChunks thinkingAsk
        (buildDigestPrompt "a?" (digestContext firstChunkMiss.candidates)) "llama3" =
          .ok "a file" := by
      decide +kernel
    have hhit : firstChunkMiss.hit = false := rfl
    unfold runAsk
    rw [if_neg (by simp [hhit])]
    exact congrArg (fun digested => digested >>= fun answer => _) hdigest
  refine ⟨by decide +kernel, by decide +kernel, fun x hx => ?_⟩
  obtain ⟨hid, hactive, hfresh, halone⟩ := hrows x hx
  have h := asked_answer_served digestIndexer firstChunkEnv lengthSpace thinkingAsk rfl
    [.stream answeredFile] changedMeanwhile "p" "a?" 0 6 none "c1" (by decide +kernel)
    firstChunkMiss_drawn hshown (by simp [changedMeanwhile]) x hx hid
  refine ⟨h.1, fun explicit now => ?_⟩
  obtain ⟨r, hr, -, -, htext, hsources⟩ := h.2.2 hactive hfresh halone explicit now
  exact ⟨r, hr, htext, hsources⟩

end Arags
