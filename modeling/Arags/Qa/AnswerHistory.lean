import Arags.Lib.LinkedRows
import Arags.Lib.Revisions
import Arags.Qa.Cache
import Arags.Qa.PendingQa

/-!
# Arags.Qa.AnswerHistory

The revisions of a cached answer: `sqlite/qa_cache` with its deletions, and the walk of
`get_answer_history`. The table has no `AUTOINCREMENT`, so an id that was deleted at the end is
given out again.

* `deleteQa`, `evictQa`, `markStaleByHashes` — the other statements on `qa_cache`.
* `getAnswerHistory` — the walk along `superseded_by`.
* `SupersedeChains` — the shape of the revisions, and what the walk lists.
* `answer_chains`   — every operation of a run keeps the shape exactly when no deletion takes
  the successor of a superseded answer.
-/

namespace Arags

open Sql Chains

/-! ## Deletions and marks -/

def deleteQa (t : Table QaCacheRow) (id : Int) : Table QaCacheRow := t.delete fun i _ => i == id

/-- The lowest-scored active rows beyond `max_entries`. The score is a floating-point ratio of
`access_count` and age; `order` is the order it puts the rows in. -/
def evictIds (order : ScanOrder QaCacheRow) (t : Table QaCacheRow) (project : String)
    (maxEntries : Nat) : List Int :=
  let rows := t.select fun _ r => r.project == project && r.isActive
  if maxEntries = 0 ∨ rows.length ≤ maxEntries then []
  else ((order.order rows).take (rows.length - maxEntries)).map Prod.fst

def evictQa (order : ScanOrder QaCacheRow) (t : Table QaCacheRow) (project : String)
    (maxEntries : Nat) : Table QaCacheRow :=
  (evictIds order t project maxEntries).foldl deleteQa t

def markStaleByHashes (t : Table QaCacheRow) (bufferId : Int) (changedHashes : List String) :
    Table QaCacheRow :=
  if changedHashes.isEmpty then t
  else
    t.update (fun _ r => r.bufferId == some bufferId && !r.stale &&
        r.sourceHashes.any changedHashes.contains)
      fun _ r => { r with stale := true, confidence := 0 }

/-- From the row `id` on, oldest first; nothing when the fuel runs out. -/
def getAnswerHistory (t : Table QaCacheRow) : Nat → Option Int → Option (List (Int × QaCacheRow))
  | _, none => some []
  | 0, some _ => none
  | fuel + 1, some id =>
    match t.get? id with
    | none => some []
    | some row => (getAnswerHistory t fuel row.supersededBy).map fun rest => (id, row) :: rest

/-! ## Runs -/

/-- `qa_cache` and `pending_qa_jobs`. -/
structure AnswerTables where
  qa : Table QaCacheRow
  pending : Table PendingQaRow

def AnswerTables.empty : AnswerTables := ⟨Table.empty, Table.empty⟩

/-- The two clocks of a stale mark, and what the queue reads. -/
structure StaleMark where
  scan : ScanOrder PendingQaRow
  createdBy : Int → Option String
  now : Int
  nowSecs : Int

/-- `mark_qa_stale`: a row that was fresh also gets a re-digest job. -/
def AnswerTables.markStale (s : AnswerTables) (m : StaleMark) (id : Int) (by_ reason : String) :
    AnswerTables where
  qa := markQaStale s.qa id by_ reason m.now
  pending :=
    match (s.qa.get? id).filter fun r => !r.stale with
    | some row =>
      (enqueuePendingQa m.scan s.pending row.cacheId row.project (m.createdBy id) m.nowSecs).2
    | none => s.pending

/-- `invalidate_stale_cache_for_buffer`, with the jobs of its marks. -/
def AnswerTables.invalidate (s : AnswerTables) (scan : ScanOrder QaCacheRow) (m : StaleMark)
    (chunks : SeqTable Chunk) (bufferId : Int) : AnswerTables :=
  let current := chunkHashesForBuffer chunks bufferId
  if current.isEmpty then s
  else
    (listQaHashesForBuffer scan s.qa bufferId).foldl
      (fun s x => if x.2.any fun h => !current.contains h then
        s.markStale m x.1 "system" "chunk changed" else s) s

inductive AnswerTableOp where
  | store (scan : ScanOrder QaCacheRow) (input : StoreAnswerInput) (cacheId : String) (now : Int)
  | delete (id : Int)
  | evict (order : ScanOrder QaCacheRow) (project : String) (maxEntries : Nat)
  | markStale (m : StaleMark) (id : Int) (by_ reason : String)
  | markByHashes (bufferId : Int) (changedHashes : List String)
  | invalidate (scan : ScanOrder QaCacheRow) (m : StaleMark) (chunks : SeqTable Chunk)
      (bufferId : Int)
  | touch (id now : Int)
  | pending (op : PendingQaOp)

def stepAnswerTables (s : AnswerTables) : AnswerTableOp → AnswerTables
  | .store scan input cacheId now => { s with qa := (storeAnswer scan s.qa input cacheId now).1 }
  | .delete id => { s with qa := deleteQa s.qa id }
  | .evict order project maxEntries => { s with qa := evictQa order s.qa project maxEntries }
  | .markStale m id by_ reason => s.markStale m id by_ reason
  | .markByHashes bufferId changedHashes =>
    { s with qa := markStaleByHashes s.qa bufferId changedHashes }
  | .invalidate scan m chunks bufferId => s.invalidate scan m chunks bufferId
  | .touch id now => { s with qa := touchQa s.qa id now }
  | .pending op => { s with pending := stepPendingQa s.pending op }

/-! ## The shape of the revisions -/

/-- What a revision is an answer to. -/
def QaCacheRow.question (r : QaCacheRow) : String × Option Int × String :=
  (r.project, r.bufferId, r.questionHash)

structure SupersedeChains (t : Table QaCacheRow) : Prop where
  active : ∀ x ∈ t.rows, ∀ y ∈ t.rows, x.2.isActive = true → y.2.isActive = true →
    x.2.question = y.2.question → x.1 = y.1
  linked : ∀ x ∈ t.rows, x.2.isActive = false → ∃ y ∈ t.rows, x.2.supersededBy = some y.1 ∧
    y.2.question = x.2.question ∧ y.2.version = x.2.version + 1
  acyclic : ∀ i, ¬ Relation.TransGen
    (fun i j => ∃ r, (i, r) ∈ t.rows ∧ r.supersededBy = some j) i i
  history : ∀ x ∈ t.rows, ∃ fuel h, getAnswerHistory t fuel (some x.1) = some h ∧
    (∀ y ∈ h, y ∈ t.rows ∧ y.2.question = x.2.question) ∧
    (h.Pairwise fun y z => y.2.version < z.2.version) ∧
    ∀ y ∈ t.rows, y.2.isActive = true → y.2.question = x.2.question → h.getLast? = some y

/-- The ids that an operation deletes. -/
def deletedIds (t : Table QaCacheRow) : AnswerTableOp → List Int
  | .delete id => [id]
  | .evict order project maxEntries => evictIds order t project maxEntries
  | _ => []

/-- No superseded row points at a row that the operation deletes. -/
def KeepsSuccessors (t : Table QaCacheRow) (op : AnswerTableOp) : Prop :=
  ∀ x ∈ t.rows, ∀ j ∈ deletedIds t op, x.2.supersededBy ≠ some j

def QaCacheRow.link (r : QaCacheRow) : Link (String × Option Int × String) :=
  ⟨r.question, r.isActive, r.version, r.supersededBy⟩

/-- The revisions of the table as links. -/
def qaLinks (t : Table QaCacheRow) : Links (String × Option Int × String) :=
  fun i => (t.get? i).map QaCacheRow.link

theorem qaLinks_eq_some {t : Table QaCacheRow} {i : Int}
    {l : Link (String × Option Int × String)} :
    qaLinks t i = some l ↔ ∃ r, (i, r) ∈ t.rows ∧ r.link = l := linksOf_eq_some

theorem qaLinks_row {t : Table QaCacheRow} {x : Int × QaCacheRow} (hx : x ∈ t.rows) :
    qaLinks t x.1 = some x.2.link := qaLinks_eq_some.mpr ⟨x.2, hx, rfl⟩

/-! ## Operations on the links -/

section Links

variable {t : Table QaCacheRow}

theorem qaLinks_update {p : Int → QaCacheRow → Bool} {f : Int → QaCacheRow → QaCacheRow}
    (hf : ∀ i r, (f i r).link = r.link) : qaLinks (t.update p f) = qaLinks t := linksOf_update hf

theorem qaLinks_delete (p : Int → Bool) :
    qaLinks (t.delete fun i _ => p i) = remove (qaLinks t) p := linksOf_delete p

theorem mem_deleteAll (ids : List Int) {i : Int} {r : QaCacheRow} :
    (i, r) ∈ (ids.foldl deleteQa t).rows ↔ (i, r) ∈ t.rows ∧ i ∉ ids := by
  induction ids generalizing t with
  | nil => simp
  | cons id ids ih =>
    rw [List.foldl_cons, ih, deleteQa, Table.mem_delete]
    simp only [beq_eq_false_iff_ne, List.mem_cons, not_or]
    exact and_assoc

theorem qaLinks_deleteAll (ids : List Int) :
    qaLinks (ids.foldl deleteQa t) = remove (qaLinks t) fun i => ids.contains i := by
  induction ids generalizing t with
  | nil =>
    funext i
    rfl
  | cons id ids ih =>
    rw [List.foldl_cons, ih, deleteQa, qaLinks_delete]
    funext i
    unfold remove
    by_cases hi : i = id
    · simp [hi]
    · simp [hi]

theorem qaLinks_lt {i : Int} {l : Link (String × Option Int × String)}
    (h : qaLinks t i = some l) : i < t.nextId := linksOf_lt h

/-- A stored answer supersedes the live revision of its question. -/
theorem qaLinks_store (scan : ScanOrder QaCacheRow) (input : StoreAnswerInput)
    (cacheId : String) (now : Int) : ∃ old version,
      Current (qaLinks t) (input.project, input.bufferId, input.questionHash) version old ∧
      qaLinks (storeAnswer scan t input cacheId now).1 = supersede (qaLinks t) old t.nextId
        (input.project, input.bufferId, input.questionHash) version := by
  have hanswers : ∀ r : QaCacheRow, r.answers input = true ↔
      r.link.subject = (input.project, input.bufferId, input.questionHash) ∧
        r.link.live = true := by
    intro r
    simp [QaCacheRow.answers, QaCacheRow.link, QaCacheRow.question, and_assoc]
  refine ⟨_, _, current_scan scan hanswers, ?_⟩
  -- the row that is retired, with the id of the new one in it
  let retire : QaCacheRow → QaCacheRow :=
    fun r => { r with isActive := false, supersededBy := some t.nextId }
  unfold storeAnswer
  cases hs : (scan.order (t.select fun _ r => r.answers input)).head? with
  | none =>
    refine linksOf_replace (input.row cacheId 1 now) retire (fun i => ?_) rfl fun _ => rfl
    rw [Table.get?_insert]
    simp
  | some old =>
    obtain ⟨oldId, row⟩ := old
    obtain ⟨hm, hans⟩ := Table.mem_select.mp (scan.mem_order.mp (List.mem_of_head? hs))
    have hactive : row.isActive = true := ((hanswers row).mp hans).2
    have hget := Table.get?_eq_some.mpr hm
    have hne : oldId ≠ t.nextId := Int.ne_of_lt (Table.lt_nextId hm)
    refine linksOf_replace (input.row cacheId (row.version + 1) now) retire (fun i => ?_) rfl
      fun _ => rfl
    rw [Table.get?_update, Table.get?_insert, nextId_update, Table.get?_update]
    by_cases hi : i = t.nextId
    · subst hi
      simp [hne.symm]
    · by_cases ho : i = oldId
      · subst ho
        simp [hi, hget, hactive, retire]
      · cases t.get? i <;> simp [hi, ho]

end Links

/-! ## The walk -/

theorem getAnswerHistory_eq (t : Table QaCacheRow) (fuel : Nat) (id : Option Int) :
    getAnswerHistory t fuel id = chainFrom (fun r => r.link.next) t fuel id := by
  induction fuel generalizing id with
  | zero => cases id <;> rfl
  | succ fuel ih =>
    cases id with
    | none => rfl
    | some i =>
      rw [getAnswerHistory, chainFrom]
      cases t.get? i with
      | none => rfl
      | some r =>
        dsimp only
        rw [ih]
        rfl

/-- The rows that a walk over the table lists are those of the walk over its links. -/
theorem getAnswerHistory_walk (t : Table QaCacheRow) (fuel : Nat) (id : Option Int) :
    (getAnswerHistory t fuel id).map (List.map fun x => (x.1, x.2.link)) =
      walk (qaLinks t) fuel id := by
  rw [getAnswerHistory_eq]
  exact chainFrom_walk t fuel id

theorem getAnswerHistory_rows (t : Table QaCacheRow) {fuel : Nat} {id : Option Int}
    {h : List (Int × QaCacheRow)} (hh : getAnswerHistory t fuel id = some h) :
    ∀ x ∈ h, x ∈ t.rows := by
  rw [getAnswerHistory_eq] at hh
  exact chainFrom_rows t hh

/-- Whatever was deleted, a walk ends. -/
theorem getAnswerHistory_ends {t : Table QaCacheRow} (hs : Shape (qaLinks t)) (i : Int) :
    ∃ fuel h, getAnswerHistory t fuel (some i) = some h := by
  have hbound : ∀ j l, qaLinks t j = some l → j ≤ t.nextId :=
    fun j l h => Int.le_of_lt (qaLinks_lt h)
  obtain ⟨h, hh⟩ := walk_total hs hbound ((t.nextId + 1 - i).toNat + 1) i (by omega) (by omega)
  rw [← getAnswerHistory_walk, Option.map_eq_some_iff] at hh
  obtain ⟨rows, hrows, -⟩ := hh
  exact ⟨_, rows, hrows⟩

/-- The invariant of the table is the one of its links. -/
theorem supersedeChains_iff {t : Table QaCacheRow} (hs : Shape (qaLinks t)) :
    SupersedeChains t ↔ Linked (qaLinks t) := by
  constructor
  · intro h i l hi hl
    obtain ⟨r, hr, rfl⟩ := qaLinks_eq_some.mp hi
    obtain ⟨y, hy, hn, hq, hv⟩ := h.linked (i, r) hr hl
    exact ⟨y.1, y.2.link, hn, qaLinks_row hy, hq, hv⟩
  · intro h
    have hactive : ∀ x ∈ t.rows, ∀ y ∈ t.rows, x.2.isActive = true → y.2.isActive = true →
        x.2.question = y.2.question → x.1 = y.1 :=
      fun x hx y hy hxa hya hq =>
        hs.unique x.1 y.1 _ _ (qaLinks_row hx) (qaLinks_row hy) hxa hya hq
    refine ⟨hactive, ?_, ?_, ?_⟩
    · intro x hx hinactive
      obtain ⟨j, k, hn, hk, hq, hv⟩ := h x.1 _ (qaLinks_row hx) hinactive
      obtain ⟨r, hr, rfl⟩ := qaLinks_eq_some.mp hk
      exact ⟨(j, r), hr, hn, hq, hv⟩
    · intro i hi
      refine hs.acyclic i (Relation.TransGen.mono ?_ i i hi)
      rintro a b ⟨r, hr, hn⟩
      exact ⟨r.link, qaLinks_row hr, hn⟩
    · intro x hx
      obtain ⟨fuel, rows, hrows⟩ := getAnswerHistory_ends hs x.1
      have hwalk := getAnswerHistory_walk t fuel (some x.1)
      rw [hrows, Option.map_some] at hwalk
      obtain ⟨hh, -⟩ := walk_spec hs h (qaLinks_row hx) hwalk.symm
      have hmem := getAnswerHistory_rows t hrows
      have hq : ∀ y ∈ rows, y.2.question = x.2.question :=
        fun y hy => hh.subject (y.1, y.2.link) (List.mem_map_of_mem hy)
      refine ⟨fuel, rows, hrows, fun y hy => ⟨hmem y hy, hq y hy⟩, ?_, ?_⟩
      · have hversions := hh.versions
        rw [List.pairwise_map] at hversions
        exact hversions
      · intro y hy hya hyq
        obtain ⟨last, hlast, hlive⟩ := hh.ends
        rw [List.getLast?_map, Option.map_eq_some_iff] at hlast
        obtain ⟨z, hz, rfl⟩ := hlast
        have hzm := List.mem_of_getLast? hz
        have hid : z.1 = y.1 := hactive z (hmem z hzm) y hy hlive hya ((hq z hzm).trans hyq.symm)
        have hrow : z = y := Prod.ext hid
          (Table.eq_of_mem (hmem z hzm) (hid ▸ hy : (z.1, y.2) ∈ t.rows))
        rw [hz, hrow]

/-! ## One operation -/

theorem markStale_qaLinks (s : AnswerTables) (m : StaleMark) (id : Int) (by_ reason : String) :
    qaLinks (s.markStale m id by_ reason).qa = qaLinks s.qa := qaLinks_update fun _ _ => rfl

theorem invalidate_qaLinks (s : AnswerTables) (scan : ScanOrder QaCacheRow) (m : StaleMark)
    (chunks : SeqTable Chunk) (bufferId : Int) :
    qaLinks (s.invalidate scan m chunks bufferId).qa = qaLinks s.qa := by
  unfold AnswerTables.invalidate
  dsimp only
  split
  · rfl
  · generalize listQaHashesForBuffer scan s.qa bufferId = rows
    induction rows generalizing s with
    | nil => rfl
    | cons x rows ih =>
      rw [List.foldl_cons, ih]
      split
      · exact markStale_qaLinks s m x.1 _ _
      · rfl

/-- The invalidation marks the rows that `invalidateStaleCacheForBuffer` marks. -/
theorem invalidate_qa (s : AnswerTables) (scan : ScanOrder QaCacheRow) (m : StaleMark)
    (chunks : SeqTable Chunk) (bufferId : Int) :
    (s.invalidate scan m chunks bufferId).qa =
      invalidateStaleCacheForBuffer scan chunks s.qa bufferId m.now := by
  unfold AnswerTables.invalidate invalidateStaleCacheForBuffer
  dsimp only
  split
  · rfl
  · generalize listQaHashesForBuffer scan s.qa bufferId = rows
    induction rows generalizing s with
    | nil => rfl
    | cons x rows ih =>
      rw [List.foldl_cons, List.foldl_cons, ih]
      congr 1
      split <;> rfl

/-- An operation stores an answer, or deletes rows, or leaves the links alone. -/
theorem stepAnswerTables_links (s : AnswerTables) (op : AnswerTableOp) :
    (deletedIds s.qa op = [] ∧ ∃ old q version, Current (qaLinks s.qa) q version old ∧
      qaLinks (stepAnswerTables s op).qa = supersede (qaLinks s.qa) old s.qa.nextId q version) ∨
    qaLinks (stepAnswerTables s op).qa =
      remove (qaLinks s.qa) fun i => (deletedIds s.qa op).contains i := by
  have hsame : ∀ m : Links (String × Option Int × String),
      m = remove m fun i => ([] : List Int).contains i := fun m => rfl
  cases op with
  | store scan input cacheId now =>
    obtain ⟨old, version, hc, he⟩ := qaLinks_store (t := s.qa) scan input cacheId now
    exact .inl ⟨rfl, old, _, version, hc, he⟩
  | delete id =>
    refine .inr ?_
    exact qaLinks_deleteAll [id]
  | evict order project maxEntries => exact .inr (qaLinks_deleteAll _)
  | markStale m id by_ reason =>
    exact .inr ((markStale_qaLinks s m id by_ reason).trans (hsame _))
  | markByHashes bufferId changedHashes =>
    refine .inr (Eq.trans ?_ (hsame _))
    simp only [stepAnswerTables, markStaleByHashes]
    split
    · rfl
    · exact qaLinks_update fun _ _ => rfl
  | invalidate scan m chunks bufferId =>
    exact .inr ((invalidate_qaLinks s scan m chunks bufferId).trans (hsame _))
  | touch id now =>
    have he : qaLinks (touchQa s.qa id now) = qaLinks s.qa := qaLinks_update fun _ _ => rfl
    exact .inr (he.trans (hsame _))
  | pending op => exact .inr (hsame _)

theorem stepAnswerTables_shape {s : AnswerTables} (hs : Shape (qaLinks s.qa))
    (op : AnswerTableOp) : Shape (qaLinks (stepAnswerTables s op).qa) := by
  rcases stepAnswerTables_links s op with ⟨-, old, q, version, hc, he⟩ | he
  · rw [he]
    exact hs.supersede (fun i l h => qaLinks_lt h) hc
  · rw [he]
    exact hs.remove _

/-- An evicted row was active. -/
theorem mem_evictIds {order : ScanOrder QaCacheRow} {t : Table QaCacheRow} {project : String}
    {maxEntries : Nat} {i : Int} (h : i ∈ evictIds order t project maxEntries) :
    ∃ r, (i, r) ∈ t.rows ∧ r.isActive = true := by
  unfold evictIds at h
  dsimp only at h
  split at h
  · cases h
  · obtain ⟨x, hx, rfl⟩ := List.mem_map.mp h
    obtain ⟨hm, hp⟩ := Table.mem_select.mp (order.mem_order.mp (List.mem_of_mem_take hx))
    simp only [Bool.and_eq_true] at hp
    exact ⟨x.2, hm, hp.2⟩

/-- A deleted row that points on would point at a larger id, or be live. -/
theorem keepsSuccessors_iff {t : Table QaCacheRow} (hs : Shape (qaLinks t)) (op : AnswerTableOp) :
    KeepsSuccessors t op ↔ ∀ i l j, qaLinks t i = some l →
      (deletedIds t op).contains i = false → l.next = some j →
      (deletedIds t op).contains j = false := by
  constructor
  · intro h i l j hi _ hn
    obtain ⟨r, hr, rfl⟩ := qaLinks_eq_some.mp hi
    rw [Bool.eq_false_iff]
    intro hj
    exact h (i, r) hr j (List.contains_iff_mem.mp hj) hn
  · intro h x hx j hj hn
    have hgone : (deletedIds t op).contains x.1 = true := by
      by_contra hc
      have := h x.1 _ j (qaLinks_row hx) (by simpa using hc) hn
      rw [List.contains_iff_mem.mpr hj] at this
      cases this
    cases op with
    | delete id =>
      have hx1 : x.1 = id := by simpa [deletedIds] using hgone
      have hj1 : j = id := by simpa [deletedIds] using hj
      have := hs.forward x.1 _ j (qaLinks_row hx) hn
      omega
    | evict order project maxEntries =>
      obtain ⟨r, hr, hactive⟩ := mem_evictIds (List.contains_iff_mem.mp hgone)
      obtain rfl := Table.eq_of_mem hx hr
      have hnone : x.2.supersededBy = none := hs.ends x.1 _ (qaLinks_row hx) hactive
      rw [hnone] at hn
      cases hn
    | _ => cases hj

theorem step_chains {s : AnswerTables} (hs : Shape (qaLinks s.qa)) (hl : Linked (qaLinks s.qa))
    (op : AnswerTableOp) :
    Linked (qaLinks (stepAnswerTables s op).qa) ↔ KeepsSuccessors s.qa op := by
  rcases stepAnswerTables_links s op with ⟨hnone, old, q, version, hc, he⟩ | he
  · rw [he]
    refine iff_of_true (hl.supersede (fun i l h => qaLinks_lt h) hc) ?_
    intro x _ j hj
    rw [hnone] at hj
    cases hj
  · rw [he, linked_remove_iff hs hl, keepsSuccessors_iff hs]

/-! ## Runs of operations -/

theorem shape_run (ops : List AnswerTableOp) :
    Shape (qaLinks (Lts.after stepAnswerTables AnswerTables.empty ops).qa) := by
  have hempty : Shape (qaLinks AnswerTables.empty.qa) := Shape.empty
  exact Lts.run_inv (I := fun _ (s : AnswerTables) => Shape (qaLinks s.qa)) hempty
    (fun _ _ op h => stepAnswerTables_shape h op) ops

/-- The revisions keep their shape through a run exactly when no deletion or eviction takes the
row that a superseded answer points at. -/
theorem answer_chains (ops : List AnswerTableOp) :
    Lts.Always stepAnswerTables AnswerTables.empty
        (fun _ s op => SupersedeChains (stepAnswerTables s op).qa) ops ↔
      Lts.Always stepAnswerTables AnswerTables.empty
        (fun _ s op => KeepsSuccessors s.qa op) ops := by
  have hlinked : ∀ ops, Lts.Always stepAnswerTables AnswerTables.empty
      (fun _ s op => SupersedeChains (stepAnswerTables s op).qa) ops →
      Linked (qaLinks (Lts.after stepAnswerTables AnswerTables.empty ops).qa) := by
    intro ops h
    cases ops with
    | nil => exact Linked.empty
    | cons op ops => exact (supersedeChains_iff (shape_run (op :: ops))).mp h.2
  induction ops with
  | nil => exact Iff.rfl
  | cons op ops ih =>
    have hshape := shape_run (op :: ops)
    constructor
    · rintro ⟨hr, hc⟩
      refine ⟨ih.mp hr, ?_⟩
      exact (step_chains (shape_run ops) (hlinked ops hr) op).mp
        ((supersedeChains_iff hshape).mp hc)
    · rintro ⟨hr, hk⟩
      have hr := ih.mpr hr
      refine ⟨hr, (supersedeChains_iff hshape).mpr ?_⟩
      exact (step_chains (shape_run ops) (hlinked ops hr) op).mpr hk

/-! ## A successor that is deleted -/

def sampleAnswer (question answer : String) : StoreAnswerInput :=
  ⟨none, "p", question, question, answer, [], []⟩

/-- The second answer to `q1` is deleted, and its id goes to an answer to `q2`: the history of
the first answer to `q1` goes on with an answer to `q2`. -/
def deletedSuccessor : List AnswerTableOp :=
  [.store .rowid (sampleAnswer "q2" "c") "u3" 30, .delete 2,
    .store .rowid (sampleAnswer "q1" "b") "u2" 20, .store .rowid (sampleAnswer "q1" "a") "u1" 10]

theorem answer_chains_deleted :
    ¬ SupersedeChains (Lts.after stepAnswerTables AnswerTables.empty deletedSuccessor).qa ∧
    ((getAnswerHistory (Lts.after stepAnswerTables AnswerTables.empty deletedSuccessor).qa 5
      (some 1)).map (List.map fun x => x.2.questionText)) = some ["q1", "q2"] := by
  refine ⟨fun h => ?_, by decide +kernel⟩
  have hrow : ∃ r, (1, r) ∈ (Lts.after stepAnswerTables AnswerTables.empty
      deletedSuccessor).qa.rows ∧ r.isActive = false ∧ r.supersededBy = some 2 ∧
      r.questionText = "q1" := ⟨_, List.mem_cons_self, by decide +kernel⟩
  obtain ⟨r, hr, hinactive, hnext, -⟩ := hrow
  obtain ⟨y, hy, hn, hq, hv⟩ := h.linked (1, r) hr hinactive
  have hall : ∀ x ∈ (Lts.after stepAnswerTables AnswerTables.empty deletedSuccessor).qa.rows,
      ∀ y ∈ (Lts.after stepAnswerTables AnswerTables.empty deletedSuccessor).qa.rows,
      x.1 = 1 → y.1 = 2 → y.2.version ≠ x.2.version + 1 := by
    decide +kernel
  have hy2 : y.1 = 2 := by
    rw [hnext] at hn
    exact (Option.some.inj hn).symm
  exact hall (1, r) hr y hy rfl hy2 hv

end Arags
