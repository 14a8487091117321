import Arags.Explore.Maps
import Arags.Index.Digests
import Arags.Index.Vectors
import Arags.Qa.Query
import Arags.Rlm.Nodes

/-!
# Arags.Spaces.EmbedTexts

The texts behind the four vector spaces: what the write path of a record embeds, and what the
reconcile worker and the bootstrap read back for it.

* `getQaEmbedInputs`, `allQaEmbedInputs` and their kin — the reads, one pair for each table.
* `Written` — what a client wrote; `Written.embedded` is the text of the write path.
* `TextOp`, `textStep`, `textOut` — the statements of all write paths, and every other statement
  on the four tables as one that leaves the text columns alone.
-/

namespace Arags

open Sql

/-! ## Reads -/

/-- `SELECT id, … FROM t WHERE …`. -/
def selectTexts {ρ : Type} (scan : ScanOrder ρ) (t : Table ρ) (p : Int → Bool) (text : ρ → String) :
    List (Int × String) :=
  (scan.order (t.select fun i _ => p i)).map fun x => (x.1, text x.2)

theorem mem_selectTexts {ρ : Type} {scan : ScanOrder ρ} {t : Table ρ} {p : Int → Bool}
    {text : ρ → String} {i : Int} {s : String} :
    (i, s) ∈ selectTexts scan t p text ↔ ∃ r, (i, r) ∈ t.rows ∧ p i = true ∧ s = text r := by
  unfold selectTexts
  simp only [List.mem_map, Prod.exists, Prod.mk.injEq]
  constructor
  · rintro ⟨j, r, hm, rfl, rfl⟩
    obtain ⟨hr, hp⟩ := Table.mem_select.mp (scan.mem_order.mp hm)
    exact ⟨r, hr, hp, rfl⟩
  · rintro ⟨r, hr, hp, rfl⟩
    exact ⟨i, r, scan.mem_order.mpr (Table.mem_select.mpr ⟨hr, hp⟩), rfl, rfl⟩

def getQaEmbedInputs (scan : ScanOrder QaCacheRow) (t : Table QaCacheRow) (ids : List Int) :
    List (Int × String) :=
  selectTexts scan t ids.contains QaCacheRow.questionText

def allQaEmbedInputs (scan : ScanOrder QaCacheRow) (t : Table QaCacheRow) : List (Int × String) :=
  selectTexts scan t (fun _ => true) QaCacheRow.questionText

def getRlmEmbedInputs (scan : ScanOrder RlmNode) (t : Table RlmNode) (ids : List Int) :
    List (Int × String) :=
  selectTexts scan t ids.contains fun n => n.subject ++ "\n" ++ n.summaryText

def allRlmEmbedInputs (scan : ScanOrder RlmNode) (t : Table RlmNode) : List (Int × String) :=
  selectTexts scan t (fun _ => true) fun n => n.subject ++ "\n" ++ n.summaryText

def getExplorationEmbedInputs (scan : ScanOrder ExplorationRow) (t : Table ExplorationRow)
    (ids : List Int) : List (Int × String) :=
  selectTexts scan t ids.contains fun m => m.goal ++ "\n" ++ m.summary

def allExplorationEmbedInputs (scan : ScanOrder ExplorationRow) (t : Table ExplorationRow) :
    List (Int × String) :=
  selectTexts scan t (fun _ => true) fun m => m.goal ++ "\n" ++ m.summary

/-! ## The four spaces -/

inductive Space where
  | chunk | question | node | map
  deriving DecidableEq, Repr

structure TextDb where
  buffers : SeqTable Buffer
  chunkStore : ChunkStore
  qaCache : Table QaCacheRow
  rlmNodes : Table RlmNode
  explorations : ExplorationDb

def TextDb.empty : TextDb :=
  ⟨SeqTable.empty, ⟨SeqTable.empty, [], []⟩, Table.empty, Table.empty, .empty⟩

def TextDb.index (db : TextDb) : IndexDb := ⟨db.buffers, db.chunkStore.chunks⟩

/-- The order in which each table is scanned. -/
structure TextScans where
  chunks : ScanOrder Chunk
  qaCache : ScanOrder QaCacheRow
  rlmNodes : ScanOrder RlmNode
  explorations : ScanOrder ExplorationRow

section Spaces

variable (scan : TextScans)

/-- What the reconcile worker embeds for the records `ids` of a space. -/
def reconcileTexts (db : TextDb) (ids : List Int) : Space → List (Int × String)
  | .chunk => (getChunkEmbedInputs scan.chunks db.chunkStore ids).map fun x => (x.1, x.2.2)
  | .question => getQaEmbedInputs scan.qaCache db.qaCache ids
  | .node => getRlmEmbedInputs scan.rlmNodes db.rlmNodes ids
  | .map => getExplorationEmbedInputs scan.explorations db.explorations.explorations ids

/-- What the bootstrap embeds for a space. -/
def bootstrapTexts (db : TextDb) : Space → List (Int × String)
  | .chunk => (allChunkEmbedInputs scan.chunks db.chunkStore).map fun x => (x.1, x.2.2)
  | .question => allQaEmbedInputs scan.qaCache db.qaCache
  | .node => allRlmEmbedInputs scan.rlmNodes db.rlmNodes
  | .map => allExplorationEmbedInputs scan.explorations db.explorations.explorations

end Spaces

/-! ## Writes -/

/-- What a client wrote, as far as it is embedded. The summary of a node is already trimmed; goal
and summary of a map are those of the request. -/
inductive Written where
  | chunk (content : String)
  | question (questionText : String)
  | node (subject summaryText : String)
  | map (goal summary : String)
  deriving DecidableEq, Repr

def Written.space : Written → Space
  | .chunk _ => .chunk
  | .question _ => .question
  | .node _ _ => .node
  | .map _ _ => .map

/-- The text that the write path hands to the embedder. -/
def Written.embedded : Written → String
  | .chunk content => content
  | .question questionText => QUESTION_PREFIX ++ questionText
  | .node subject summaryText => subject ++ "\n" ++ summaryText
  | .map goal summary => goal ++ "\n" ++ summary

/-- Row functions that keep a column. -/
abbrev Keeping {ρ τ : Type} (column : ρ → τ) :=
  { f : Int → ρ → ρ // ∀ i r, column (f i r) = column r }

/-- The write paths, and the other statements on their tables. -/
inductive TextOp where
  | createProject (name path : String)
  | indexFile (bufferId : Int) (active : Snapshot) (path content : String)
  | storeAnswer (input : StoreAnswerInput) (cacheId : String) (now : Int)
  | completeNode (input : NewRlmNode) (nodeId : String) (now : Int)
  | publishNode (project : String) (level : Int) (subject summaryText : String)
      (volunteerUsername : Option String) (nodeId : String) (now : Int)
  | persistExploration (req : PersistExplorationRequest) (username : String) (gate : ReviewGate)
      (explorationId : String) (now : Int)
  | updateChunks (p : Int → Chunk → Bool) (f : Keeping fun c : Chunk => (c.content, c.hash))
  | updateAnswers (p : Int → QaCacheRow → Bool) (f : Keeping QaCacheRow.questionText)
  | updateNodes (p : Int → RlmNode → Bool)
      (f : Keeping fun n : RlmNode => (n.subject, n.summaryText))
  | updateMaps (p : Int → ExplorationRow → Bool)
      (f : Keeping fun m : ExplorationRow => (m.goal, m.summary))
  | purgeTexts (ids : List Int)
  | deleteAnswers (p : Int → QaCacheRow → Bool)
  | deleteMaps (p : Int → ExplorationRow → Bool)

section Step

variable (ix : Indexer) (scan : TextScans)

/-- The inserts of one file of a stream, under the snapshot of the stream. -/
def indexFileResult (db : TextDb) (bufferId : Int) (active : Snapshot) (path content : String) :
    SeqTable Chunk × BatchedInsert :=
  insertChunksBatched ix.scan db.chunkStore.chunks bufferId
    ((ix.chunksOf path content).map fun c => (path, c)) ix.maxBatchSize active

def publishResult (db : TextDb) (project : String) (level : Int) (subject summaryText : String)
    (volunteerUsername : Option String) (nodeId : String) (now : Int) :
    Except String (Table RlmNode × Int × String) :=
  publishRlmNodeForSubject scan.rlmNodes db.rlmNodes project level subject summaryText []
    volunteerUsername none none "quorum" nodeId now

def persistResult (db : TextDb) (req : PersistExplorationRequest) (username : String)
    (gate : ReviewGate) (explorationId : String) (now : Int) :
    ExplorationDb × Except String (Int × String × List String) :=
  handlePersistExploration scan.explorations scan.chunks true db.index db.explorations req username
    gate explorationId now

def textStep (db : TextDb) : TextOp → TextDb
  | .createProject name path => { db with buffers := (ensureProject db.buffers name path).1 }
  | .indexFile bufferId active path content =>
    let chunks := (indexFileResult ix db bufferId active path content).1
    { db with chunkStore := { db.chunkStore with chunks := chunks } }
  | .storeAnswer input cacheId now =>
    { db with qaCache := (storeAnswer scan.qaCache db.qaCache input cacheId now).1 }
  | .completeNode input nodeId now =>
    match upsertNodeStmt scan.rlmNodes db.rlmNodes nodeId input now with
    | .ok (nodes, _) => { db with rlmNodes := nodes }
    | .error _ => db
  | .publishNode project level subject summaryText volunteer nodeId now =>
    match publishResult scan db project level subject summaryText volunteer nodeId now with
    | .ok (nodes, _) => { db with rlmNodes := nodes }
    | .error _ => db
  | .persistExploration req username gate explorationId now =>
    { db with explorations := (persistResult scan db req username gate explorationId now).1 }
  | .updateChunks p f =>
    let chunks := db.chunkStore.chunks.update p f.1
    { db with chunkStore := { db.chunkStore with chunks := chunks } }
  | .updateAnswers p f => { db with qaCache := db.qaCache.update p f.1 }
  | .updateNodes p f => { db with rlmNodes := db.rlmNodes.update p f.1 }
  | .updateMaps p f =>
    let maps := db.explorations.explorations.update p f.1
    { db with explorations := { db.explorations with explorations := maps } }
  | .purgeTexts ids =>
    { db with chunkStore := { db.chunkStore with textless := db.chunkStore.textless ++ ids } }
  | .deleteAnswers p => { db with qaCache := db.qaCache.delete p }
  | .deleteMaps p =>
    let maps := db.explorations.explorations.delete p
    { db with explorations := { db.explorations with explorations := maps } }

/-- The records that a statement embeds, newest first. -/
def textOut (db : TextDb) : TextOp → List ((Space × Int) × Written)
  | .indexFile bufferId active path content =>
    ((indexFileResult ix db bufferId active path content).2.persisted.map
      fun p => ((.chunk, p.1), .chunk p.2)).reverse
  | .storeAnswer input cacheId now =>
    [((.question, (storeAnswer scan.qaCache db.qaCache input cacheId now).2),
      .question input.questionText)]
  | .completeNode input nodeId now =>
    match upsertNodeStmt scan.rlmNodes db.rlmNodes nodeId input now with
    | .ok (_, id, _) => [((.node, id), .node input.subject input.summaryText)]
    | .error _ => []
  | .publishNode project level subject summaryText volunteer nodeId now =>
    match publishResult scan db project level subject summaryText volunteer nodeId now with
    | .ok (_, id, _) => [((.node, id), .node subject summaryText)]
    | .error _ => []
  | .persistExploration req username gate explorationId now =>
    match (persistResult scan db req username gate explorationId now).2 with
    | .ok (id, _, _) => [((.map, id), .map req.goal req.summary)]
    | .error _ => []
  | _ => []

end Step

end Arags
