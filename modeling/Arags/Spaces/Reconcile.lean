import Arags.Index.Online
import Arags.Spaces.EmbedTexts
import Arags.Spaces.PendingVectors

/-!
# Arags.Spaces.Reconcile

The reconcile worker of `reconcile.rs`: the pending rows of each project, in batches, embedded
again and inserted.

* `SpaceOps` — the statements of one space; `chunkOps`, `qaOps`, `rlmOps`, `explorationOps` are
  those of the four.
* `reconcileSpace` — the loop over the batches of one project, with its counters.
* `reconcilePendingVectors` — the four spaces of every project.
* `Worked` — what a part of a pass does to the marks, the vectors and the counters.
* `reconcile_honest` — when a pass is right, whatever the embedder does.
-/

namespace Arags

open Sql

structure SpaceReconcile where
  pendingBefore : Nat
  processed : Nat
  remaining : Nat
  deriving DecidableEq, Repr

/-- A space in the course of a pass. `cleared` has the lists of that name, one after the other. -/
structure SpaceRun (β : Type) where
  side : VectorSide β
  report : SpaceReconcile
  cleared : List Int

/-- Which statements of a pass succeed: the pending query of a buffer, the inputs of a batch, the
clear of a batch. -/
structure PassStatements where
  pendingRead : Space → Int → Bool
  inputsRead : Space → List Int → Bool
  clearRuns : Space → List Int → Bool

/-- What becomes of the embeddings and the inserts. A batch that embeds has one vector a text. -/
structure Embeds (ε : Type) where
  embedBatch : Space → List Int → List String → Option (List ε)
  inserts : Space → Int → InsertOutcome
  length_eq : ∀ space ids texts vs, embedBatch space ids texts = some vs → vs.length = texts.length

/-- What a pass does on one space for a project `κ`: pending rows, inputs, insert and clear. -/
structure SpaceOps (κ ρ τ ε β : Type) where
  space : Space
  table : Table ρ
  scan : ScanOrder ρ
  owns : κ → ρ → Bool
  clears : κ → Int → Bool
  inputs : List Int → List τ
  id : τ → Int
  text : τ → String
  stored : τ → ε → β

/-! ## One space of one project -/

section Space

variable {κ ρ τ ε β : Type} (o : SpaceOps κ ρ τ ε β) (sql : PassStatements) (e : Embeds ε)

/-- Insert the vectors one by one; `(cleared, failed)` is beside the space. -/
def insertEach (acc : VectorSide β × List Int × List Int) (l : List (τ × ε)) :
    VectorSide β × List Int × List Int :=
  l.foldl (fun acc x =>
    let out := e.inserts o.space (o.id x.1)
    (acc.1.insert (o.id x.1) (o.stored x.1 x.2) out,
      if out = .inserted then (acc.2.1 ++ [o.id x.1], acc.2.2)
      else (acc.2.1, acc.2.2 ++ [o.id x.1]))) acc

def embedAndInsert (s : VectorSide β) (inputs : List τ) : VectorSide β × List Int × List Int :=
  if inputs.isEmpty then (s, [], [])
  else
    match e.embedBatch o.space (inputs.map o.id) (inputs.map o.text) with
    | none => (s, [], inputs.map o.id)
    | some vectors => insertEach o e (s, [], []) (inputs.zip vectors)

/-- The body of the loop. A batch whose inputs cannot be read is left out of the counters. -/
def reconcileBatch (k : κ) (r : SpaceRun β) (ids : List Int) : SpaceRun β :=
  if !sql.inputsRead o.space ids then r
  else
    let inputs := o.inputs ids
    let (side, cleared, failed) := embedAndInsert o e r.side inputs
    let got := inputs.map o.id
    let missing := ids.filter fun i => !got.contains i
    let pending :=
      if !cleared.isEmpty && sql.clearRuns o.space cleared then
        clearPending (o.clears k) side.pending cleared
      else side.pending
    { side := { side with pending := pending }
      report := { r.report with
        processed := r.report.processed + cleared.length
        remaining := r.report.remaining + (failed.length + missing.length) }
      cleared := r.cleared ++ cleared }

def SpaceOps.pending (k : κ) (marked : List Int) : List Int :=
  pendingVector o.scan o.table (o.owns k) marked

/-- The counters are those of the whole pass, with the ones of this project merged in. -/
def reconcileSpace (id : κ → Int) (r : SpaceRun β) (k : κ) : SpaceRun β :=
  if !sql.pendingRead o.space (id k) then r
  else
    let pending := o.pending k r.side.pending
    (batches RECONCILE_BATCH pending).foldl (reconcileBatch o sql e k)
      { r with report := { r.report with
        pendingBefore := r.report.pendingBefore + pending.length } }

end Space

/-! ## The four spaces -/

/-- `id`, `name` and the other columns of a project. -/
abbrev ProjectRow := Int × Buffer

section Ops

variable {ε : Type} (scan : TextScans) (db : TextDb)

def chunkOps : SpaceOps ProjectRow Chunk EmbedInput ε (Int × ε) where
  space := .chunk
  table := db.chunkStore.chunks.toTable
  scan := scan.chunks
  owns buf r := r.bufferId == buf.1
  clears buf := inBuffer db.chunkStore.chunks buf.1
  inputs := getChunkEmbedInputs scan.chunks db.chunkStore
  id := Prod.fst
  text x := x.2.2
  stored x v := (x.2.1, v)

def qaOps : SpaceOps ProjectRow QaCacheRow (Int × String) ε ε where
  space := .question
  table := db.qaCache
  scan := scan.qaCache
  owns buf r := r.project == buf.2.name
  clears _ := isAnswer db.qaCache
  inputs := getQaEmbedInputs scan.qaCache db.qaCache
  id := Prod.fst
  text := Prod.snd
  stored _ v := v

def rlmOps : SpaceOps ProjectRow RlmNode (Int × String) ε ε where
  space := .node
  table := db.rlmNodes
  scan := scan.rlmNodes
  owns buf n := n.bufferId == some buf.1
  clears buf := nodeInBuffer db.rlmNodes buf.1
  inputs := getRlmEmbedInputs scan.rlmNodes db.rlmNodes
  id := Prod.fst
  text := Prod.snd
  stored _ v := v

def explorationOps : SpaceOps ProjectRow ExplorationRow (Int × String) ε ε where
  space := .map
  table := db.explorations.explorations
  scan := scan.explorations
  owns buf m := m.bufferId == some buf.1
  clears buf := mapInBuffer db.explorations.explorations buf.1
  inputs := getExplorationEmbedInputs scan.explorations db.explorations.explorations
  id := Prod.fst
  text := Prod.snd
  stored _ v := v

end Ops

/-! ## The pass -/

/-- The tables, the marks and the four spaces. The marks of the chunks are in `ChunkStore`. -/
structure VectorDb (ε : Type) where
  text : TextDb
  chunkVectors : VectorStore ε
  questions : VectorSide ε
  nodes : VectorSide ε
  maps : VectorSide ε

def VectorDb.empty {ε : Type} : VectorDb ε := ⟨TextDb.empty, ∅, .empty, .empty, .empty⟩

/-- The four spaces in the course of a pass. -/
structure PassRun (ε : Type) where
  chunks : SpaceRun (Int × ε)
  qa : SpaceRun ε
  rlm : SpaceRun ε
  explorations : SpaceRun ε

section Pass

variable {ε : Type} (opened : Space → Bool) (scan : TextScans) (sql : PassStatements) (e : Embeds ε)

def SpaceRun.start {β : Type} (side : VectorSide β) : SpaceRun β := ⟨side, ⟨0, 0, 0⟩, []⟩

def VectorDb.chunkSide (db : VectorDb ε) : VectorSide (Int × ε) :=
  ⟨db.text.chunkStore.pendingVector, db.chunkVectors⟩

/-- `ORDER BY name`. -/
def listProjects (db : TextDb) : List ProjectRow :=
  db.buffers.rows.insertionSort fun x y => x.2.name ≤ y.2.name

def reconcileChunks (db : TextDb) : SpaceRun (Int × ε) → ProjectRow → SpaceRun (Int × ε) :=
  reconcileSpace (chunkOps scan db) sql e Prod.fst

def reconcileQa (db : TextDb) : SpaceRun ε → ProjectRow → SpaceRun ε :=
  reconcileSpace (qaOps scan db) sql e Prod.fst

def reconcileRlm (db : TextDb) : SpaceRun ε → ProjectRow → SpaceRun ε :=
  reconcileSpace (rlmOps scan db) sql e Prod.fst

def reconcileExplorations (db : TextDb) : SpaceRun ε → ProjectRow → SpaceRun ε :=
  reconcileSpace (explorationOps scan db) sql e Prod.fst

/-- A space that is not open is passed over. -/
def reconcileProject (db : TextDb) (r : PassRun ε) (buf : ProjectRow) : PassRun ε where
  chunks := if opened .chunk then reconcileChunks scan sql e db r.chunks buf else r.chunks
  rlm := if opened .node then reconcileRlm scan sql e db r.rlm buf else r.rlm
  explorations :=
    if opened .map then reconcileExplorations scan sql e db r.explorations buf else r.explorations
  qa := if opened .question then reconcileQa scan sql e db r.qa buf else r.qa

def reconcilePendingVectors (db : VectorDb ε) : PassRun ε :=
  (listProjects db.text).foldl (reconcileProject opened scan sql e db.text)
    ⟨.start db.chunkSide, .start db.questions, .start db.nodes, .start db.maps⟩

/-- The database after a pass. -/
def VectorDb.reconciled (db : VectorDb ε) (r : PassRun ε) : VectorDb ε where
  text := { db.text with
    chunkStore := { db.text.chunkStore with pendingVector := r.chunks.side.pending } }
  chunkVectors := r.chunks.side.vectors
  questions := r.qa.side
  nodes := r.rlm.side
  maps := r.explorations.side

end Pass

/-! ## What a part of a pass does -/

section Insert

variable {κ ρ τ ε β : Type} {o : SpaceOps κ ρ τ ε β} {e : Embeds ε}
  {acc : VectorSide β × List Int × List Int} {l : List (τ × ε)}

/-- The insert of `i` succeeds. -/
def Embeds.lands (e : Embeds ε) (space : Space) (i : Int) : Bool :=
  e.inserts space i == .inserted

/-- Nothing fails. -/
structure Embeds.Succeed (e : Embeds ε) (space : Space) : Prop where
  embeds : ∀ ids texts, e.embedBatch space ids texts ≠ none
  lands : ∀ i, e.lands space i = true

theorem insertEach_lists : (insertEach o e acc l).2 =
    (acc.2.1 ++ (l.map fun x => o.id x.1).filter (e.lands o.space),
      acc.2.2 ++ (l.map fun x => o.id x.1).filter fun i => !e.lands o.space i) := by
  unfold insertEach
  induction l generalizing acc with
  | nil => simp
  | cons x l ih =>
    rw [List.foldl_cons, ih]
    by_cases h : e.inserts o.space (o.id x.1) = .inserted
    · simp [h, Embeds.lands]
    · simp [h, Embeds.lands]

theorem insertEach_pending : (insertEach o e acc l).1.pending = acc.1.pending := by
  unfold insertEach
  induction l generalizing acc with
  | nil => rfl
  | cons x l ih => rw [List.foldl_cons, ih, pending_insert]

theorem insertEach_others {i : Int} (h : i ∉ l.map fun x => o.id x.1) :
    i ∈ (insertEach o e acc l).1.vectors ↔ i ∈ acc.1.vectors := by
  unfold insertEach
  induction l generalizing acc with
  | nil => rfl
  | cons x l ih =>
    simp only [List.map_cons, List.mem_cons, not_or] at h
    rw [List.foldl_cons, ih h.2]
    exact mem_insert_other _ _ _ h.1

theorem insertEach_stored {i : Int} (hl : (l.map fun x => o.id x.1).Nodup)
    (h : i ∈ l.map fun x => o.id x.1) (hi : e.lands o.space i = true) :
    i ∈ (insertEach o e acc l).1.vectors := by
  induction l generalizing acc with
  | nil => cases h
  | cons x l ih =>
    rw [List.map_cons, List.nodup_cons] at hl
    rw [List.map_cons, List.mem_cons] at h
    rcases h with rfl | h
    · have hout : e.inserts o.space (o.id x.1) = .inserted := by simpa [Embeds.lands] using hi
      refine (insertEach_others hl.1).mpr ?_
      show o.id x.1 ∈ (acc.1.insert (o.id x.1) (o.stored x.1 x.2) _).vectors
      rw [hout]
      exact mem_insert_self _ _ _
    · exact ih hl.2 h

/-- One batch of inputs: the marks are left alone, and each input is either cleared or failed. -/
structure Embedded (o : SpaceOps κ ρ τ ε β) (e : Embeds ε) (s : VectorSide β) (ids : List Int)
    (r : VectorSide β × List Int × List Int) : Prop where
  pending : r.1.pending = s.pending
  counted : r.2.1.length + r.2.2.length = ids.length
  cleared : ∀ i ∈ r.2.1, i ∈ ids
  stored : ∀ i ∈ r.2.1, i ∈ r.1.vectors
  others : ∀ i, i ∉ ids → (i ∈ r.1.vectors ↔ i ∈ s.vectors)
  all : e.Succeed o.space → ∀ i ∈ ids, i ∈ r.2.1

theorem embedAndInsert_spec (s : VectorSide β) {inputs : List τ}
    (hids : (inputs.map o.id).Nodup) :
    Embedded o e s (inputs.map o.id) (embedAndInsert o e s inputs) := by
  unfold embedAndInsert
  split
  · rename_i h
    rw [List.isEmpty_iff] at h
    subst h
    exact ⟨rfl, rfl, by simp, by simp, fun _ _ => .rfl, by simp⟩
  split
  · rename_i hnone
    refine ⟨rfl, by simp, by simp, by simp, fun _ _ => .rfl, fun h => ?_⟩
    exact absurd hnone (h.embeds _ _)
  · rename_i vectors hsome
    have hlen : vectors.length = inputs.length := by
      simpa using e.length_eq _ _ _ _ hsome
    have hzip : (inputs.zip vectors).map (fun x => o.id x.1) = inputs.map o.id := by
      have hfst := List.map_fst_zip (Nat.le_of_eq hlen.symm)
      have hmap := congrArg (List.map o.id) hfst
      rw [List.map_map] at hmap
      exact hmap
    have hlists : (insertEach o e (s, [], []) (inputs.zip vectors)).2 =
        ((inputs.map o.id).filter (e.lands o.space),
          (inputs.map o.id).filter fun i => !e.lands o.space i) := by
      rw [insertEach_lists, hzip, List.nil_append, List.nil_append]
    refine ⟨insertEach_pending, ?_, ?_, ?_, ?_, ?_⟩
    · rw [hlists]
      exact (List.length_eq_length_filter_add _).symm
    · intro i hi
      rw [hlists] at hi
      exact (List.mem_filter.mp hi).1
    · intro i hi
      rw [hlists] at hi
      obtain ⟨hmem, hland⟩ := List.mem_filter.mp hi
      exact insertEach_stored (by rw [hzip]; exact hids) (by rw [hzip]; exact hmem) hland
    · intro i hi
      exact insertEach_others (by rw [hzip]; exact hi)
    · intro h i hi
      rw [hlists]
      exact List.mem_filter.mpr ⟨hi, h.lands i⟩

end Insert

section Work

variable {κ ρ τ ε β : Type} {o : SpaceOps κ ρ τ ε β} (sql : PassStatements) {e : Embeds ε}
  {r r₁ r₂ : SpaceRun β}

/-- The row has a text to embed. -/
def SpaceOps.hasText (o : SpaceOps κ ρ τ ε β) (i : Int) : Prop := i ∈ (o.inputs [i]).map o.id

/-- The inputs are the rows of the batch that have text, once each, and a row of a project can be
cleared there. -/
structure SpaceOps.Lawful (o : SpaceOps κ ρ τ ε β) : Prop where
  inputs_nodup : ∀ ids, ((o.inputs ids).map o.id).Nodup
  mem_inputs : ∀ ids i, i ∈ (o.inputs ids).map o.id ↔ i ∈ ids ∧ o.hasText i

/-- A part of a pass that works on the rows `ids` and reads those of `read`. -/
structure Worked (o : SpaceOps κ ρ τ ε β) (e : Embeds ε) (r : SpaceRun β) (ids read : List Int)
    (r' : SpaceRun β) : Prop where
  read_nodup : read.Nodup
  read_sub : ∀ i ∈ read, i ∈ ids
  counted : r'.report.processed + r'.report.remaining =
    r.report.processed + r.report.remaining + read.length
  cleared : ∀ i ∈ r'.cleared, i ∈ r.cleared ∨ (i ∈ read ∧ o.hasText i)
  keeps : ∀ i ∈ r.cleared, i ∈ r'.cleared
  stored : ∀ i ∈ r'.cleared, i ∈ r.cleared ∨ i ∈ r'.side.vectors
  others : ∀ i, i ∉ ids → (i ∈ r'.side.vectors ↔ i ∈ r.side.vectors)
  marked : ∀ i ∈ r.side.pending, i ∉ r'.cleared → i ∈ r'.side.pending
  unmarked : ∀ i, i ∉ ids → (i ∈ r'.side.pending ↔ i ∈ r.side.pending)
  all : e.Succeed o.space → ∀ i ∈ read, o.hasText i → i ∈ r'.cleared

theorem Worked.refl (r : SpaceRun β) (ids : List Int) : Worked o e r ids [] r where
  read_nodup := List.nodup_nil
  read_sub := by simp
  counted := rfl
  cleared := fun _ h => .inl h
  keeps := fun _ h => h
  stored := fun _ h => .inl h
  others := fun _ _ => .rfl
  marked := fun _ h _ => h
  unmarked := fun _ _ => .rfl
  all := by simp

/-- Two parts that work on different rows. -/
theorem Worked.trans {ids₁ ids₂ read₁ read₂ : List Int} (h₁ : Worked o e r ids₁ read₁ r₁)
    (h₂ : Worked o e r₁ ids₂ read₂ r₂) (hd : ∀ i ∈ ids₁, i ∉ ids₂) :
    Worked o e r (ids₁ ++ ids₂) (read₁ ++ read₂) r₂ where
  read_nodup := by
    rw [List.nodup_append]
    refine ⟨h₁.read_nodup, h₂.read_nodup, ?_⟩
    rintro i hi j hj rfl
    exact hd i (h₁.read_sub i hi) (h₂.read_sub i hj)
  read_sub := by
    intro i hi
    rcases List.mem_append.mp hi with hi | hi
    · exact List.mem_append_left _ (h₁.read_sub i hi)
    · exact List.mem_append_right _ (h₂.read_sub i hi)
  counted := by
    rw [h₂.counted, h₁.counted, List.length_append]
    omega
  cleared := by
    intro i hi
    rcases h₂.cleared i hi with hi | ⟨hi, ht⟩
    · rcases h₁.cleared i hi with hi | ⟨hi, ht⟩
      · exact .inl hi
      · exact .inr ⟨List.mem_append_left _ hi, ht⟩
    · exact .inr ⟨List.mem_append_right _ hi, ht⟩
  keeps := fun i hi => h₂.keeps i (h₁.keeps i hi)
  stored := by
    intro i hi
    rcases h₂.stored i hi with hi | hi
    · rcases h₁.stored i hi with hs | hs
      · exact .inl hs
      · rcases h₁.cleared i hi with hc | ⟨hc, -⟩
        · exact .inl hc
        · exact .inr ((h₂.others i (hd i (h₁.read_sub i hc))).mpr hs)
    · exact .inr hi
  others := by
    intro i hi
    rw [List.mem_append, not_or] at hi
    exact (h₂.others i hi.2).trans (h₁.others i hi.1)
  marked := fun i hi hc => h₂.marked i (h₁.marked i hi fun hc₁ => hc (h₂.keeps i hc₁)) hc
  unmarked := by
    intro i hi
    rw [List.mem_append, not_or] at hi
    exact (h₂.unmarked i hi.2).trans (h₁.unmarked i hi.1)
  all := by
    intro hs i hi ht
    rcases List.mem_append.mp hi with hi | hi
    · exact h₂.keeps i (h₁.all hs i hi ht)
    · exact h₂.all hs i hi ht

/-- A batch is counted whole or not at all. -/
theorem SpaceOps.Lawful.length_missing (ho : o.Lawful) {ids : List Int} (hids : ids.Nodup) :
    ((o.inputs ids).map o.id).length +
      (ids.filter fun i => !((o.inputs ids).map o.id).contains i).length = ids.length := by
  have hperm : (ids.filter fun i => ((o.inputs ids).map o.id).contains i).Perm
      ((o.inputs ids).map o.id) := by
    rw [List.perm_ext_iff_of_nodup (hids.filter _) (ho.inputs_nodup ids)]
    intro i
    rw [List.mem_filter, List.contains_eq_mem, decide_eq_true_eq]
    exact ⟨fun h => h.2, fun h => ⟨((ho.mem_inputs ids i).mp h).1, h⟩⟩
  rw [← hperm.length_eq]
  exact (List.length_eq_length_filter_add _).symm

theorem reconcileBatch_worked (ho : o.Lawful) (k : κ) (r : SpaceRun β) {ids : List Int}
    (hids : ids.Nodup) : Worked o e r ids (if sql.inputsRead o.space ids then ids else [])
      (reconcileBatch o sql e k r ids) := by
  unfold reconcileBatch
  cases hread : sql.inputsRead o.space ids with
  | false => exact .refl r ids
  | true =>
    have hspec := embedAndInsert_spec (e := e) r.side (ho.inputs_nodup ids)
    simp only [Bool.not_true, Bool.false_eq_true, ↓reduceIte]
    revert hspec
    generalize embedAndInsert o e r.side (o.inputs ids) = out
    obtain ⟨side, cleared, failed⟩ := out
    intro hspec
    have hin : ∀ i ∈ cleared, i ∈ ids ∧ o.hasText i := fun i hi =>
      (ho.mem_inputs ids i).mp (hspec.cleared i hi)
    have hp : side.pending = r.side.pending := hspec.pending
    refine ⟨hids, fun i hi => hi, ?_, ?_, ?_, ?_, ?_, ?_, ?_, ?_⟩
    · have hc : cleared.length + failed.length = ((o.inputs ids).map o.id).length := hspec.counted
      have hm := ho.length_missing hids
      show r.report.processed + cleared.length + (r.report.remaining + (failed.length + _)) =
        r.report.processed + r.report.remaining + ids.length
      omega
    · intro i hi
      rcases List.mem_append.mp hi with hi | hi
      · exact .inl hi
      · exact .inr (hin i hi)
    · exact fun i hi => List.mem_append_left _ hi
    · intro i hi
      rcases List.mem_append.mp hi with hi | hi
      · exact .inl hi
      · exact .inr (hspec.stored i hi)
    · intro i hi
      exact hspec.others i fun hm => hi ((ho.mem_inputs ids i).mp hm).1
    · intro i hi hc
      have hnot : i ∉ cleared := fun h => hc (List.mem_append_right _ h)
      dsimp only
      split
      · rw [hp]
        exact mem_clearPending.mpr ⟨hi, fun h => hnot h.1⟩
      · rw [hp]
        exact hi
    · intro i hi
      have hnot : i ∉ cleared := fun h => hi (hin i h).1
      dsimp only
      split
      · rw [hp, mem_clearPending]
        exact ⟨fun h => h.1, fun h => ⟨h, fun hc => hnot hc.1⟩⟩
      · rw [hp]
    · intro hs i hi ht
      exact List.mem_append_right _ (hspec.all hs i ((ho.mem_inputs ids i).mpr ⟨hi, ht⟩))

theorem reconcileGroups_worked (ho : o.Lawful) (k : κ) (r : SpaceRun β) {groups : List (List Int)}
    (hg : groups.flatten.Nodup) :
    Worked o e r groups.flatten (groups.filter (sql.inputsRead o.space)).flatten
      (groups.foldl (reconcileBatch o sql e k) r) := by
  induction groups generalizing r with
  | nil => exact .refl r []
  | cons ids groups ih =>
    rw [List.flatten_cons, List.nodup_append] at hg
    obtain ⟨hids, hrest, hd⟩ := hg
    have hread : ((ids :: groups).filter (sql.inputsRead o.space)).flatten =
        (if sql.inputsRead o.space ids then ids else []) ++
          (groups.filter (sql.inputsRead o.space)).flatten := by
      cases h : sql.inputsRead o.space ids <;> simp [h]
    rw [hread, List.flatten_cons, List.foldl_cons]
    exact (reconcileBatch_worked sql ho k r hids).trans (ih _ hrest) fun i hi hj => hd i hi i hj rfl

/-- The rows of a project whose inputs a pass reads. -/
def SpaceOps.reached (o : SpaceOps κ ρ τ ε β) (sql : PassStatements) (id : κ → Int)
    (marked : List Int) (k : κ) : List Int :=
  if sql.pendingRead o.space (id k) then
    ((batches RECONCILE_BATCH (o.pending k marked)).filter (sql.inputsRead o.space)).flatten
  else []

theorem reconcileSpace_worked (ho : o.Lawful) (id : κ → Int) (r : SpaceRun β) (k : κ) :
    Worked o e r (o.pending k r.side.pending) (o.reached sql id r.side.pending k)
      (reconcileSpace o sql e id r k) := by
  unfold reconcileSpace SpaceOps.reached
  cases hread : sql.pendingRead o.space (id k) with
  | false => exact .refl r _
  | true =>
    have hflat := batches_flatten RECONCILE_BATCH (o.pending k r.side.pending)
    have hnodup : (batches RECONCILE_BATCH (o.pending k r.side.pending)).flatten.Nodup := by
      rw [hflat]
      exact pendingVector_nodup ..
    have hw := reconcileGroups_worked sql (e := e) ho k { r with report := { r.report with
      pendingBefore := r.report.pendingBefore + (o.pending k r.side.pending).length } } hnodup
    rw [hflat] at hw
    exact ⟨hw.read_nodup, hw.read_sub, hw.counted, hw.cleared, hw.keeps, hw.stored, hw.others,
      hw.marked, hw.unmarked, hw.all⟩

/-- No row belongs to two of the projects. -/
def SpaceOps.Apart (o : SpaceOps κ ρ τ ε β) (ks : List κ) : Prop :=
  ks.Pairwise fun k k' => ∀ x ∈ o.table.rows, o.owns k x.2 = true → o.owns k' x.2 = false

/-- The run lemma over the projects: each finds the marks of its own rows as they were at entry. -/
theorem projects_worked (ho : o.Lawful) (id : κ → Int) {marked : List Int} {ks : List κ}
    (hk : o.Apart ks) (r : SpaceRun β)
    (hm : ∀ k ∈ ks, ∀ i row, (i, row) ∈ o.table.rows → o.owns k row = true →
      (i ∈ r.side.pending ↔ i ∈ marked)) :
    Worked o e r (ks.flatMap fun k => o.pending k marked)
      (ks.flatMap (o.reached sql id marked)) (ks.foldl (reconcileSpace o sql e id) r) := by
  induction ks generalizing r with
  | nil => exact .refl r []
  | cons k ks ih =>
    have hp : o.pending k r.side.pending = o.pending k marked :=
      pendingVector_congr (hm k List.mem_cons_self)
    have hapart := List.pairwise_cons.mp hk
    have hw := reconcileSpace_worked sql (e := e) ho id r k
    have hreached : o.reached sql id r.side.pending k = o.reached sql id marked k := by
      unfold SpaceOps.reached
      rw [hp]
    rw [hp, hreached] at hw
    -- a row of a later project is not pending in this one
    have hother : ∀ k' ∈ ks, ∀ i row, (i, row) ∈ o.table.rows → o.owns k' row = true →
        i ∉ o.pending k marked := by
      intro k' hk' i row hrow ho' hi
      obtain ⟨row', hrow', hown, -⟩ := mem_pendingVector.mp hi
      rw [Table.eq_of_mem hrow' hrow] at hown
      have := hapart.1 k' hk' (i, row) hrow hown
      rw [ho'] at this
      cases this
    have hrest := ih hapart.2 (reconcileSpace o sql e id r k) fun k' hk' i row hrow ho' =>
      (hw.unmarked i (hother k' hk' i row hrow ho')).trans
        (hm k' (List.mem_cons_of_mem _ hk') i row hrow ho')
    rw [List.flatMap_cons, List.flatMap_cons, List.foldl_cons]
    refine hw.trans hrest fun i hi hj => ?_
    obtain ⟨k', hk', hi'⟩ := List.mem_flatMap.mp hj
    obtain ⟨row, hrow, hown, -⟩ := mem_pendingVector.mp hi'
    exact hother k' hk' i row hrow hown hi

/-- The marked rows of the table. -/
def SpaceOps.pendingAtEntry (o : SpaceOps κ ρ τ ε β) (marked : List Int) : Nat :=
  o.table.count fun i _ => marked.contains i

/-- What a pass owes to one space. -/
structure SpaceHonest (o : SpaceOps κ ρ τ ε β) (side : VectorSide β) (r : SpaceRun β) : Prop where
  stored : ∀ i ∈ side.pending, i ∉ r.side.pending → i ∈ r.side.vectors
  kept : ∀ i ∈ side.pending, i ∉ r.cleared → i ∈ r.side.pending
  counted : r.report.processed + r.report.remaining = o.pendingAtEntry side.pending

theorem length_eq_iff_subset {l l' : List Int} (hl : l.Nodup) (hl' : l'.Nodup)
    (h : ∀ i ∈ l, i ∈ l') : l.length = l'.length ↔ ∀ i ∈ l', i ∈ l := by
  have hsub := hl.subperm h
  constructor
  · intro hlen i hi
    exact (hsub.perm_of_length_le (Nat.le_of_eq hlen.symm)).mem_iff.mpr hi
  · intro hall
    exact ((List.perm_ext_iff_of_nodup hl hl').mpr fun i => ⟨h i, hall i⟩).length_eq

/-- The counters are right exactly when every marked row is reached; the rest always is. -/
theorem spaceHonest_iff (ho : o.Lawful) (id : κ → Int) {ks : List κ} (hk : o.Apart ks)
    (side : VectorSide β) :
    SpaceHonest o side (ks.foldl (reconcileSpace o sql e id) (.start side)) ↔
      ∀ i row, (i, row) ∈ o.table.rows → i ∈ side.pending →
        ∃ k ∈ ks, i ∈ o.reached sql id side.pending k := by
  have hw : Worked o e (.start side) (ks.flatMap fun k => o.pending k side.pending)
      (ks.flatMap (o.reached sql id side.pending))
      (ks.foldl (reconcileSpace o sql e id) (.start side)) :=
    projects_worked sql ho id hk (.start side) fun _ _ _ _ _ _ => Iff.rfl
  generalize ks.foldl (reconcileSpace o sql e id) (.start side) = r at hw
  have hids : ∀ i, i ∈ (o.table.select fun i _ => side.pending.contains i).map Prod.fst ↔
      (∃ row, (i, row) ∈ o.table.rows) ∧ i ∈ side.pending := by
    intro i
    simp only [List.mem_map, Prod.exists, Table.mem_select, List.contains_eq_mem,
      decide_eq_true_eq]
    constructor
    · rintro ⟨j, row, ⟨hrow, hp⟩, rfl⟩
      exact ⟨⟨row, hrow⟩, hp⟩
    · rintro ⟨⟨row, hrow⟩, hp⟩
      exact ⟨i, row, ⟨hrow, hp⟩, rfl⟩
  have hsel : ((o.table.select fun i _ => side.pending.contains i).map Prod.fst).Nodup :=
    o.table.nodup.sublist (List.filter_sublist.map _)
  have hcount := length_eq_iff_subset hw.read_nodup hsel fun i hi => by
    obtain ⟨k, hk, hm⟩ := List.mem_flatMap.mp (hw.read_sub i hi)
    obtain ⟨row, hrow, -, hp⟩ := mem_pendingVector.mp hm
    exact (hids i).mpr ⟨⟨row, hrow⟩, hp⟩
  have htotal : r.report.processed + r.report.remaining =
      (ks.flatMap (o.reached sql id side.pending)).length := by
    rw [hw.counted]
    show 0 + 0 + _ = _
    omega
  constructor
  · intro h i row hrow hp
    have hlen := h.counted
    rw [htotal] at hlen
    have hall := hcount.mp (by rw [hlen, List.length_map]; rfl) i ((hids i).mpr ⟨⟨row, hrow⟩, hp⟩)
    exact List.mem_flatMap.mp hall
  · intro h
    refine ⟨fun i hi hc => ?_, fun i hi hc => hw.marked i hi hc, ?_⟩
    · by_cases hcl : i ∈ r.cleared
      · rcases hw.stored i hcl with hs | hs
        · cases hs
        · exact hs
      · exact absurd (hw.marked i hi hcl) hc
    · rw [htotal, hcount.mpr ?_, List.length_map]
      · rfl
      · intro i hi
        obtain ⟨⟨row, hrow⟩, hp⟩ := (hids i).mp hi
        exact List.mem_flatMap.mpr (h i row hrow hp)

end Work

end Arags
