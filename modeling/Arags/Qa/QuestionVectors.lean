import Arags.Qa.AnswerHistory
import Arags.Spaces.Reconcile
import Arags.Spaces.WritePaths

/-!
# Arags.Qa.QuestionVectors

The question space beside `qa_cache`: each vector with the text it was computed from. Rows go by
eviction and by `invalidate_qa_entry`; only the second erases the vector, and both free a row id
that the table gives out again.

* `QuestionVector`, `questionOps` — the space, and a reconcile pass over it.
* `invalidateQaEntry` — one answer, and its neighbours within a radius. The jobs of a stale mark are
  those of `AnswerTables.markStale`.
* `stepQuestions`     — what is run against the two stores.
* `VectorsOwned`      — each vector is that of the question of its row.
* `question_vectors`  — it holds in every state of a run exactly when no step takes a row and
  leaves its vector.
-/

namespace Arags

open Sql

/-- A vector, and the question it was computed from. -/
abbrev QuestionVector (ε : Type) := String × ε

def EmbedOutcome.of {ε : Type} (text : String) : EmbedOutcome ε → EmbedOutcome (QuestionVector ε)
  | .vector v insert => .vector (text, v) insert
  | .empty => .empty
  | .error => .error
  | .panicked => .panicked

/-! ## Operations -/

section Operations

variable {ε : Type}

/-- `qaOps`, with the text beside each vector. -/
def questionOps (scan : ScanOrder QaCacheRow) (t : Table QaCacheRow) :
    SpaceOps ProjectRow QaCacheRow (Int × String) ε (QuestionVector ε) where
  space := .question
  table := t
  scan := scan
  owns buf r := r.project == buf.2.name
  clears _ := isAnswer t
  inputs := getQaEmbedInputs scan t
  id := Prod.fst
  text := Prod.snd
  stored x v := (x.2, v)

/-- `cache_id = ?1 LIMIT 1`. -/
def getQaByCacheId (scan : ScanOrder QaCacheRow) (t : Table QaCacheRow) (cacheId : String) :
    Option (Int × QaCacheRow) :=
  (scan.order (t.select fun _ r => r.cacheId == cacheId)).head?

/-- An `InvalidateCache` request for one answer, and what its steps come to. -/
structure InvalidateCall where
  cacheId : String
  delete : Bool
  similarityRadius : Rat
  username : String
  now : Int
  /-- The store of the question vectors is there. -/
  opened : Bool
  /-- What the search for the question finds; nothing when it is not embedded. -/
  neighbors : List (Int × Rat)
  /-- The statement on a row succeeds. -/
  runs : Int → Bool
  /-- The vector of a row can be deleted. -/
  erases : Int → Bool

namespace InvalidateCall

variable (c : InvalidateCall)

/-- The neighbours within the radius, and the answer itself. -/
def targets (id : Int) : List Int :=
  (if 0 < c.similarityRadius && c.opened then
    (c.neighbors.filter fun n => n.1 != id && !decide (n.2 < c.similarityRadius)).map Prod.fst
  else []) ++ [id]

/-- The statement and the vector of one row. -/
def apply (reason : String) (s : RecordDb (QuestionVector ε)) (id : Int) :
    RecordDb (QuestionVector ε) :=
  if c.delete then
    { s with
      qa := deleteQa s.qa id
      questionSide :=
        if (s.qa.get? id).isSome && c.opened && c.erases id then
          { s.questionSide with vectors := s.questionSide.vectors.erase id }
        else s.questionSide }
  else { s with qa := markQaStale s.qa id c.username reason c.now }

/-- A row that was not there does not count when it is deleted. -/
def counts (s : RecordDb (QuestionVector ε)) (id : Int) : Nat :=
  if c.delete && (s.qa.get? id).isNone then 0 else 1

/-- Row after row; the first statement that fails ends the request. -/
def invalidateEach (target : Int) (s : RecordDb (QuestionVector ε)) (count : Nat) :
    List Int → RecordDb (QuestionVector ε) × Except String Nat
  | [] => (s, .ok count)
  | id :: ids =>
    if c.runs id then
      invalidateEach target (c.apply (if id == target then "admin" else "radius") s id)
        (count + c.counts s id) ids
    else (s, .error "internal")

end InvalidateCall

/-- `invalidate_qa_entry`. -/
def invalidateQaEntry (scan : ScanOrder QaCacheRow) (s : RecordDb (QuestionVector ε))
    (c : InvalidateCall) : RecordDb (QuestionVector ε) × Except String Nat :=
  match getQaByCacheId scan s.qa c.cacheId with
  | none => (s, .ok 0)
  | some (id, _) => c.invalidateEach id s 0 (c.targets id)

/-! ## Runs -/

/-- The question space of `reconcile_pending_vectors`. -/
def reconcileQuestions (scan : ScanOrder QaCacheRow) (sql : PassStatements) (e : Embeds ε)
    (s : RecordDb (QuestionVector ε)) (projects : List ProjectRow) :
    RecordDb (QuestionVector ε) :=
  { s with
    questionSide := (projects.foldl (reconcileSpace (questionOps scan s.qa) sql e Prod.fst)
      (.start s.questionSide)).side }

inductive QuestionOp (ε : Type) where
  | storeAnswer (req : StoreAnswerRequest) (cacheId : String) (now : Int) (out : EmbedOutcome ε)
  /-- One project of `evict_all_qa`. -/
  | evict (order : ScanOrder QaCacheRow) (project : String) (maxEntries : Nat)
  | invalidate (call : InvalidateCall)
  | reconcile (sql : PassStatements) (e : Embeds ε) (projects : List ProjectRow)
  | markStale (id : Int) (invalidatedBy reason : String) (now : Int)
  | markByHashes (bufferId : Int) (changedHashes : List String)
  | touch (id now : Int)
  /-- The index of other requests. -/
  | index (db : IndexDb)

def stepQuestions (env : RecordEnv) (s : RecordDb (QuestionVector ε)) :
    QuestionOp ε → RecordDb (QuestionVector ε)
  | .storeAnswer req cacheId now out =>
    (storeAnswerCall env s req cacheId now (out.of req.question)).1
  | .evict order project maxEntries => { s with qa := evictQa order s.qa project maxEntries }
  | .invalidate call => (invalidateQaEntry env.query.scan s call).1
  | .reconcile sql e projects => reconcileQuestions env.query.scan sql e s projects
  | .markStale id invalidatedBy reason now =>
    { s with qa := markQaStale s.qa id invalidatedBy reason now }
  | .markByHashes bufferId changedHashes =>
    { s with qa := markStaleByHashes s.qa bufferId changedHashes }
  | .touch id now => { s with qa := touchQa s.qa id now }
  | .index db => { s with index := db }

end Operations

/-! ## The correspondence -/

section Owned

variable {ε : Type}

/-- Each vector is under the id of a row and was computed from its question. -/
def VectorsOwned (t : Table QaCacheRow) (vectors : AList fun _ : Int => QuestionVector ε) : Prop :=
  ∀ i v, vectors.lookup i = some v → ∃ r, (i, r) ∈ t.rows ∧ v.1 = r.questionText

/-- The rows whose statement is reached. -/
def InvalidateCall.reached (c : InvalidateCall) (scan : ScanOrder QaCacheRow)
    (t : Table QaCacheRow) : List Int :=
  match getQaByCacheId scan t c.cacheId with
  | none => []
  | some (id, _) => (c.targets id).takeWhile c.runs

/-- The step takes no row and leaves its vector. -/
def KeepsVectors (env : RecordEnv) (s : RecordDb (QuestionVector ε)) : QuestionOp ε → Prop
  | .evict order project maxEntries =>
    ∀ i ∈ evictIds order s.qa project maxEntries, i ∉ s.questionSide.vectors
  | .invalidate c => c.delete = true → ∀ i ∈ c.reached env.query.scan s.qa,
      i ∈ s.questionSide.vectors → c.opened = true ∧ c.erases i = true
  | _ => True

variable {t : Table QaCacheRow} {vectors : AList fun _ : Int => QuestionVector ε}

theorem VectorsOwned.empty :
    VectorsOwned Table.empty (∅ : AList fun _ : Int => QuestionVector ε) := by
  intro i v hv
  rw [AList.lookup_empty] at hv
  cases hv

theorem VectorsOwned.update (h : VectorsOwned t vectors) {p : Int → QaCacheRow → Bool}
    {f : Int → QaCacheRow → QaCacheRow}
    (hf : ∀ i r, (f i r).questionText = r.questionText) : VectorsOwned (t.update p f) vectors := by
  intro i v hv
  obtain ⟨r, hr, he⟩ := h i v hv
  refine ⟨if p i r then f i r else r, Table.mem_update.mpr ⟨r, hr, rfl⟩, ?_⟩
  split
  · exact he.trans (hf i r).symm
  · exact he

theorem VectorsOwned.store (h : VectorsOwned t vectors) (scan : ScanOrder QaCacheRow)
    (input : StoreAnswerInput) (cacheId : String) (now : Int) :
    VectorsOwned (storeAnswer scan t input cacheId now).1 vectors := by
  have hinsert : ∀ {t : Table QaCacheRow} (row : QaCacheRow), VectorsOwned t vectors →
      VectorsOwned (t.insert row) vectors := by
    intro t row ht i v hv
    obtain ⟨r, hr, he⟩ := ht i v hv
    exact ⟨r, Table.mem_insert.mpr (.inl hr), he⟩
  unfold storeAnswer
  split
  · dsimp only
    refine (hinsert _ (h.update ?_)).update ?_
    · intro _ _
      rfl
    · intro _ _
      rfl
  · exact hinsert _ h

theorem VectorsOwned.insert (h : VectorsOwned t vectors) {id : Int} {v : QuestionVector ε}
    {r : QaCacheRow} (hr : (id, r) ∈ t.rows) (hv : v.1 = r.questionText) :
    VectorsOwned t (vectors.insert id v) := by
  intro i w hw
  by_cases hi : i = id
  · subst hi
    rw [AList.lookup_insert, Option.some.injEq] at hw
    exact ⟨r, hr, hw ▸ hv⟩
  · rw [AList.lookup_insert_ne hi] at hw
    exact h i w hw

theorem VectorsOwned.erase (h : VectorsOwned t vectors) (id : Int) :
    VectorsOwned t (vectors.erase id) := by
  intro i v hv
  by_cases hi : i = id
  · subst hi
    rw [AList.lookup_erase] at hv
    cases hv
  · rw [AList.lookup_erase_ne hi] at hv
    exact h i v hv

/-- A vector of a row, whatever becomes of the insert. -/
theorem VectorsOwned.insertOutcome {side : VectorSide (QuestionVector ε)}
    (h : VectorsOwned t side.vectors) {id : Int} {v : QuestionVector ε} {r : QaCacheRow}
    (hr : (id, r) ∈ t.rows) (hv : v.1 = r.questionText) (out : InsertOutcome) :
    VectorsOwned t (side.insert id v out).vectors := by
  cases out with
  | inserted => exact h.insert hr hv
  | refused => exact h
  | lost => exact h.erase id

end Owned

/-! ## Stored answers and passes -/

section Writes

variable {ε : Type} {env : RecordEnv} {s : RecordDb (QuestionVector ε)}

theorem storeAnswer_row (scan : ScanOrder QaCacheRow) (t : Table QaCacheRow)
    (input : StoreAnswerInput) (cacheId : String) (now : Int) :
    ∃ r, ((storeAnswer scan t input cacheId now).2, r) ∈
        (storeAnswer scan t input cacheId now).1.rows ∧ r.questionText = input.questionText := by
  unfold storeAnswer
  split
  · rename_i oldId old _
    dsimp only
    refine ⟨_, Table.mem_update.mpr ⟨_, Table.mem_insert.mpr (.inr ⟨rfl, rfl⟩), rfl⟩, ?_⟩
    split <;> rfl
  · exact ⟨_, Table.mem_insert.mpr (.inr ⟨rfl, rfl⟩), rfl⟩

theorem hydrateIn_owned {t : Table QaCacheRow} {side : VectorSide (QuestionVector ε)}
    (h : VectorsOwned t side.vectors) {id : Int} {r : QaCacheRow} (hr : (id, r) ∈ t.rows)
    (out : EmbedOutcome ε) (marks : Bool) (mark : List Int → List Int) :
    VectorsOwned t
      (hydrateIn env .question side id (out.of r.questionText) marks mark).vectors := by
  have hnew : VectorsOwned t (side.newRow id).vectors := h
  have htried : ∀ tried : VectorSide (QuestionVector ε), VectorsOwned t tried.vectors →
      VectorsOwned t (if marks then { tried with pending := mark tried.pending }
        else tried).vectors := by
    intro tried ht
    split <;> exact ht
  unfold hydrateIn VectorSide.hydrate
  split
  · cases out with
    | vector v insert => exact htried _ (hnew.insertOutcome hr rfl insert)
    | empty => exact htried _ hnew
    | error => exact htried _ hnew
    | panicked => exact htried _ hnew
  · exact hnew

theorem storeAnswerCall_owned (h : VectorsOwned s.qa s.questionSide.vectors)
    (req : StoreAnswerRequest) (cacheId : String) (now : Int) (out : EmbedOutcome ε) :
    VectorsOwned (storeAnswerCall env s req cacheId now (out.of req.question)).1.qa
      (storeAnswerCall env s req cacheId now (out.of req.question)).1.questionSide.vectors := by
  unfold storeAnswerCall
  split
  · exact h
  split
  · exact h
  split
  · exact h
  obtain ⟨r, hr, htext⟩ := storeAnswer_row env.query.scan s.qa (req.input env s.index.buffers)
    cacheId now
  have hstored := h.store env.query.scan (req.input env s.index.buffers) cacheId now
  have htext : r.questionText = req.question := htext
  rw [← htext]
  exact hydrateIn_owned hstored hr out _ _

variable {sql : PassStatements} {e : Embeds ε} {scan : ScanOrder QaCacheRow}
  {t : Table QaCacheRow}

theorem insertEach_owned {acc : VectorSide (QuestionVector ε) × List Int × List Int}
    {l : List ((Int × String) × ε)} (h : VectorsOwned t acc.1.vectors)
    (hl : ∀ x ∈ l, ∃ r, (x.1.1, r) ∈ t.rows ∧ x.1.2 = r.questionText) :
    VectorsOwned t (insertEach (questionOps scan t) e acc l).1.vectors := by
  unfold insertEach
  induction l generalizing acc with
  | nil => exact h
  | cons x l ih =>
    obtain ⟨r, hr, htext⟩ := hl x List.mem_cons_self
    rw [List.foldl_cons]
    exact ih (h.insertOutcome (v := (x.1.2, x.2)) hr htext _)
      fun y hy => hl y (List.mem_cons_of_mem _ hy)

theorem reconcileBatch_owned {k : ProjectRow} {r : SpaceRun (QuestionVector ε)}
    (h : VectorsOwned t r.side.vectors) (ids : List Int) :
    VectorsOwned t (reconcileBatch (questionOps scan t) sql e k r ids).side.vectors := by
  unfold reconcileBatch
  split
  · exact h
  dsimp only
  unfold embedAndInsert
  split
  · exact h
  split
  · exact h
  · refine insertEach_owned h fun x hx => ?_
    obtain ⟨q, hq, -, htext⟩ := mem_selectTexts.mp (List.of_mem_zip hx).1
    exact ⟨q, hq, htext⟩

theorem reconcileSpace_owned {r : SpaceRun (QuestionVector ε)} (h : VectorsOwned t r.side.vectors)
    (k : ProjectRow) :
    VectorsOwned t (reconcileSpace (questionOps scan t) sql e Prod.fst r k).side.vectors := by
  unfold reconcileSpace
  split
  · exact h
  dsimp only
  generalize batches RECONCILE_BATCH _ = l
  have hstart : VectorsOwned t ({ r with report := { r.report with pendingBefore :=
      r.report.pendingBefore + ((questionOps (ε := ε) scan t).pending k r.side.pending).length } } :
        SpaceRun (QuestionVector ε)).side.vectors := h
  generalize ({ r with report := _ } : SpaceRun (QuestionVector ε)) = start at hstart ⊢
  induction l generalizing start with
  | nil => exact hstart
  | cons ids l ih => exact ih _ (reconcileBatch_owned hstart ids)

theorem reconcileQuestions_owned (h : VectorsOwned s.qa s.questionSide.vectors)
    (projects : List ProjectRow) :
    VectorsOwned s.qa (reconcileQuestions scan sql e s projects).questionSide.vectors := by
  unfold reconcileQuestions
  have hstart : VectorsOwned s.qa (SpaceRun.start s.questionSide).side.vectors := h
  generalize SpaceRun.start s.questionSide = start at hstart
  induction projects generalizing start with
  | nil => exact hstart
  | cons k projects ih => exact ih _ (reconcileSpace_owned hstart k)

end Writes

/-! ## Rows that are taken -/

section Taken

variable {ε : Type} {t t' : Table QaCacheRow} {vectors : AList fun _ : Int => QuestionVector ε}

/-- The rows `gone` go, and of their vectors those with `erased`. -/
theorem VectorsOwned.taken {vectors' : AList fun _ : Int => QuestionVector ε} {gone : List Int}
    (h : VectorsOwned t vectors) (erased : Int → Prop)
    (hrows : ∀ i r, (i, r) ∈ t'.rows ↔ (i, r) ∈ t.rows ∧ i ∉ gone)
    (hvectors : ∀ i v, vectors'.lookup i = some v ↔
      vectors.lookup i = some v ∧ ¬ (i ∈ gone ∧ erased i)) :
    VectorsOwned t' vectors' ↔ ∀ i ∈ gone, i ∈ vectors → erased i := by
  constructor
  · intro howned i hi hmem
    by_contra hne
    obtain ⟨v, hv⟩ := Option.isSome_iff_exists.mp (AList.lookup_isSome.mpr hmem)
    obtain ⟨r, hr, -⟩ := howned i v ((hvectors i v).mpr ⟨hv, fun he => hne he.2⟩)
    exact ((hrows i r).mp hr).2 hi
  · intro herased i v hv
    obtain ⟨hv, hne⟩ := (hvectors i v).mp hv
    obtain ⟨r, hr, htext⟩ := h i v hv
    have hmem : i ∈ vectors := AList.lookup_isSome.mp (Option.isSome_iff_exists.mpr ⟨v, hv⟩)
    exact ⟨r, (hrows i r).mpr ⟨hr, fun hi => hne ⟨hi, herased i hi hmem⟩⟩, htext⟩

theorem evictQa_owned (h : VectorsOwned t vectors) (order : ScanOrder QaCacheRow)
    (project : String) (maxEntries : Nat) :
    VectorsOwned (evictQa order t project maxEntries) vectors ↔
      ∀ i ∈ evictIds order t project maxEntries, i ∉ vectors :=
  h.taken (fun _ => False) (fun _ _ => mem_deleteAll _) (by simp)

end Taken

section Invalidate

variable {ε : Type} {s : RecordDb (QuestionVector ε)} {c : InvalidateCall}

theorem invalidateEach_marks (hmode : c.delete = false) (target : Int) (ids : List Int) (n : Nat)
    (h : VectorsOwned s.qa s.questionSide.vectors) :
    VectorsOwned (c.invalidateEach target s n ids).1.qa
      (c.invalidateEach target s n ids).1.questionSide.vectors := by
  induction ids generalizing s n with
  | nil => exact h
  | cons id ids ih =>
    unfold InvalidateCall.invalidateEach
    split
    · refine ih _ ?_
      simp only [InvalidateCall.apply, hmode, Bool.false_eq_true, if_false]
      exact h.update fun _ _ => rfl
    · exact h

/-- The vector of the row is erased when the row goes. -/
def InvalidateCall.Drops (c : InvalidateCall) (s : RecordDb (QuestionVector ε)) (i : Int) : Prop :=
  (∃ r, (i, r) ∈ s.qa.rows) ∧ c.opened = true ∧ c.erases i = true

theorem apply_delete (hmode : c.delete = true) (reason : String) (id : Int) :
    (∀ i r, (i, r) ∈ (c.apply reason s id).qa.rows ↔ (i, r) ∈ s.qa.rows ∧ i ≠ id) ∧
      ∀ i v, (c.apply reason s id).questionSide.vectors.lookup i = some v ↔
        s.questionSide.vectors.lookup i = some v ∧ ¬ (i = id ∧ c.Drops s i) := by
  have hexists : (s.qa.get? id).isSome = true ↔ ∃ r, (id, r) ∈ s.qa.rows := by
    rw [Option.isSome_iff_exists]
    exact exists_congr fun r => Table.get?_eq_some
  constructor
  · intro i r
    simp only [InvalidateCall.apply, hmode, if_true, deleteQa, Table.mem_delete,
      beq_eq_false_iff_ne]
  · intro i v
    simp only [InvalidateCall.apply, hmode, if_true]
    split
    · rename_i hdrops
      simp only [Bool.and_eq_true, hexists, and_assoc] at hdrops
      by_cases hi : i = id
      · subst hi
        rw [AList.lookup_erase]
        simp [InvalidateCall.Drops, hdrops]
      · rw [AList.lookup_erase_ne hi]
        simp [hi]
    · rename_i hdrops
      simp only [Bool.and_eq_true, hexists, and_assoc] at hdrops
      refine (and_iff_left ?_).symm
      rintro ⟨rfl, hd⟩
      exact hdrops hd

theorem invalidateEach_deletes (hmode : c.delete = true) (target : Int) (ids : List Int)
    (n : Nat) :
    (∀ i r, (i, r) ∈ (c.invalidateEach target s n ids).1.qa.rows ↔
      (i, r) ∈ s.qa.rows ∧ i ∉ ids.takeWhile c.runs) ∧
      ∀ i v, (c.invalidateEach target s n ids).1.questionSide.vectors.lookup i = some v ↔
        s.questionSide.vectors.lookup i = some v ∧
          ¬ (i ∈ ids.takeWhile c.runs ∧ c.Drops s i) := by
  induction ids generalizing s n with
  | nil => simp [InvalidateCall.invalidateEach]
  | cons id ids ih =>
    unfold InvalidateCall.invalidateEach
    rw [List.takeWhile_cons]
    cases hruns : c.runs id with
    | false => simp
    | true =>
      simp only [if_true, List.mem_cons, not_or]
      generalize (if (id == target) = true then "admin" else "radius") = reason
      obtain ⟨hrows, hvectors⟩ := apply_delete (s := s) hmode reason id
      obtain ⟨hrows', hvectors'⟩ := ih (s := c.apply reason s id) (n + c.counts s id)
      constructor
      · intro i r
        rw [hrows', hrows, and_assoc]
      · intro i v
        rw [hvectors', hvectors]
        have hdrops : c.Drops (c.apply reason s id) i ↔ c.Drops s i ∧ i ≠ id := by
          simp only [InvalidateCall.Drops, hrows]
          constructor
          · rintro ⟨⟨r, hr, hne⟩, hd⟩
            exact ⟨⟨⟨r, hr⟩, hd⟩, hne⟩
          · rintro ⟨⟨⟨r, hr⟩, hd⟩, hne⟩
            exact ⟨⟨r, hr, hne⟩, hd⟩
        rw [hdrops]
        by_cases hi : i = id
        · simp [hi]
        · simp [hi]

theorem invalidateQaEntry_owned (scan : ScanOrder QaCacheRow)
    (h : VectorsOwned s.qa s.questionSide.vectors) :
    VectorsOwned (invalidateQaEntry scan s c).1.qa
        (invalidateQaEntry scan s c).1.questionSide.vectors ↔
      (c.delete = true → ∀ i ∈ c.reached scan s.qa,
        i ∈ s.questionSide.vectors → c.opened = true ∧ c.erases i = true) := by
  unfold invalidateQaEntry InvalidateCall.reached
  split
  · simp [h]
  rename_i id _ _
  cases hmode : c.delete with
  | false => simp [invalidateEach_marks hmode id _ 0 h]
  | true =>
    obtain ⟨hrows, hvectors⟩ := invalidateEach_deletes (s := s) hmode id (c.targets id) 0
    rw [h.taken (c.Drops s) hrows hvectors]
    simp only [true_implies]
    refine forall_congr' fun i => forall_congr' fun _ => forall_congr' fun hmem => ?_
    obtain ⟨v, hv⟩ := Option.isSome_iff_exists.mp (AList.lookup_isSome.mpr hmem)
    obtain ⟨r, hr, -⟩ := h i v hv
    exact and_iff_right ⟨r, hr⟩

end Invalidate

/-! ## Runs -/

theorem stepQuestions_owned {ε : Type} (env : RecordEnv) {s : RecordDb (QuestionVector ε)}
    (h : VectorsOwned s.qa s.questionSide.vectors) (op : QuestionOp ε) :
    VectorsOwned (stepQuestions env s op).qa (stepQuestions env s op).questionSide.vectors ↔
      KeepsVectors env s op := by
  cases op with
  | storeAnswer req cacheId now out =>
    exact iff_of_true (storeAnswerCall_owned h req cacheId now out) trivial
  | evict order project maxEntries => exact evictQa_owned h order project maxEntries
  | invalidate call => exact invalidateQaEntry_owned env.query.scan h
  | reconcile sql e projects => exact iff_of_true (reconcileQuestions_owned h projects) trivial
  | markStale id invalidatedBy reason now => exact iff_of_true (h.update fun _ _ => rfl) trivial
  | markByHashes bufferId changedHashes =>
    refine iff_of_true ?_ trivial
    simp only [stepQuestions, markStaleByHashes]
    split
    · exact h
    · exact h.update fun _ _ => rfl
  | touch id now => exact iff_of_true (h.update fun _ _ => rfl) trivial
  | index db => exact iff_of_true h trivial

def RecordDb.empty {ε : Type} : RecordDb ε :=
  ⟨IndexDb.empty, Table.empty, ⟨RlmDb.empty, Table.empty⟩, .empty, .empty, .empty, .empty⟩

/-- Each vector belongs to the question of its row, in every state of a run, exactly when no step
takes a row and leaves its vector. -/
theorem question_vectors {ε : Type} (env : RecordEnv) (ops : List (QuestionOp ε)) :
    Lts.Always (stepQuestions env) .empty (fun _ s op =>
        VectorsOwned (stepQuestions env s op).qa (stepQuestions env s op).questionSide.vectors)
        ops ↔
      Lts.Always (stepQuestions env) .empty (fun _ s op => KeepsVectors env s op) ops :=
  Lts.always_iff (I := fun s : RecordDb (QuestionVector ε) =>
    VectorsOwned s.qa s.questionSide.vectors) .empty
    (fun _ op h => stepQuestions_owned env h op) ops

/-! ## An evicted question -/

def askQuestion (question : String) : StoreAnswerRequest := ⟨"p", 0, question, "a file", [], []⟩

/-- The second answer is evicted, and a third one gets its id and no vector. -/
def evictedQuestion : List (QuestionOp Unit) :=
  [.storeAnswer (askQuestion "what is c?") "c3" 30 .error,
    .evict ⟨List.reverse, List.reverse_perm⟩ "p" 1,
    .storeAnswer (askQuestion "what is b?") "c2" 20 (.vector () .inserted),
    .storeAnswer (askQuestion "what is a?") "c1" 10 (.vector () .inserted)]

/-- The vector of the second question answers for the third. -/
theorem question_vectors_evicted :
    let s := Lts.after (stepQuestions recordEnv) .empty evictedQuestion
    (s.qa.get? 2).map QaCacheRow.questionText = some "what is c?" ∧
      (s.questionSide.vectors.lookup 2).map Prod.fst = some "what is b?" ∧
      ¬ Lts.Always (stepQuestions recordEnv) .empty (fun _ s op =>
        VectorsOwned (stepQuestions recordEnv s op).qa
          (stepQuestions recordEnv s op).questionSide.vectors) evictedQuestion := by
  intro s
  have hrow : (s.qa.get? 2).map QaCacheRow.questionText = some "what is c?" := by decide +kernel
  have hvector : s.questionSide.vectors.lookup 2 = some ("what is b?", ()) := by decide +kernel
  refine ⟨hrow, by rw [hvector]; rfl, ?_⟩
  rintro ⟨-, howned⟩
  obtain ⟨r, hr, htext⟩ := howned 2 _ hvector
  have hget : s.qa.get? 2 = some r := Table.get?_eq_some.mpr hr
  rw [hget, Option.map_some, Option.some.injEq, ← htext] at hrow
  exact absurd hrow (by decide)

end Arags
