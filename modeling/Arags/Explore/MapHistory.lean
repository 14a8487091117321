import Arags.Archive.AsOf
import Arags.Explore.Search
import Arags.Lib.LinkedRows

/-!
# Arags.Explore.MapHistory

The revisions of an exploration map: the statements of `sqlite/explorations`, each as one atomic
step, with the `version` column, and the walk of `get_exploration_history`. The `INSERT` of
`persist_exploration` leaves `version` to the default of the column.

* `getExplorationHistory` — the walk along `superseded_by`.
* `stepRevisions`   — the statements; `VersionedMaps` is what they work on.
* `RevisionsKept`   — what a step must leave.
* `map_revisions`   — every step of a run leaves it exactly when no persist supersedes a map.
* `map_history_ends`, `map_retired`, `map_active` — what every run leaves.
-/

namespace Arags

open Sql

/-- From the row `id` on, oldest first; nothing when the fuel runs out. -/
def getExplorationHistory (t : Table ExplorationRow) :
    Nat → Option Int → Option (List (Int × ExplorationRow)) :=
  chainFrom ExplorationRow.supersededBy t

/-- `version INTEGER NOT NULL DEFAULT 1`. -/
def VERSION_DEFAULT : Int := 1

/-- The maps with their `version` column. -/
structure VersionedMaps (ε : Type) where
  server : MapServer ε
  version : Int → Int

def VersionedMaps.empty {ε : Type} : VersionedMaps ε := ⟨.empty, fun _ => VERSION_DEFAULT⟩

inductive RevisionOp where
  | persist (scan : ScanOrder ExplorationRow) (input : PersistExplorationInput)
      (explorationId : String) (now : Int)
  | markPending (id : Int)
  | delete (id : Int)
  | feedback (explorationId : String) (kind : FeedbackKind) (contradictionLimit now : Int)
  | invalidate (explorationId reason : String) (now : Int)
  | review (explorationId : String) (approved : Bool) (now : Int)
  | markStale (chunks : SeqTable Chunk) (project : String) (now : Int)

section Maps

variable {ε : Type}

def VersionedMaps.rows (s : VersionedMaps ε) : Table ExplorationRow := s.server.maps.explorations

def VersionedMaps.withMaps (s : VersionedMaps ε) (maps : ExplorationDb) : VersionedMaps ε :=
  { s with server := { s.server with maps := maps } }

def stepRevisions (s : VersionedMaps ε) : RevisionOp → VersionedMaps ε
  | .persist scan input explorationId now =>
    match persistExploration scan s.server.maps input explorationId now with
    | .ok (maps, id) =>
      { server := { s.server with
          maps := maps
          feedback := Function.update s.server.feedback id ⟨0, 0⟩ }
        version := Function.update s.version id VERSION_DEFAULT }
    | .error _ => s
  | .markPending id => s.withMaps (markExplorationPending s.server.maps id)
  | .delete id =>
    { s with server := { s.server with
        maps := deleteExploration s.server.maps id
        feedback := Function.update s.server.feedback id ⟨0, 0⟩ } }
  | .feedback explorationId kind limit now =>
    { s with server := recordFeedback s.server explorationId kind limit now }
  | .invalidate explorationId reason now =>
    s.withMaps (invalidateExplorationStale s.server.maps explorationId reason now)
  | .review explorationId approved now =>
    s.withMaps (reviewExploration s.server.maps explorationId approved now)
  | .markStale chunks project now =>
    s.withMaps (markStaleIfAnchorsChanged chunks s.server.maps project now).1

/-- One more than the version of the map that a persist takes the place of. -/
def nextVersion (s : VersionedMaps ε) (scan : ScanOrder ExplorationRow)
    (input : PersistExplorationInput) : Int :=
  match activeRevision scan s.server.maps input.project input.goal with
  | none => 1
  | some old => s.version old + 1

/-- No two active maps of a goal, the version of a new map, the history from any map, and the
maps that were retired. -/
structure RevisionsKept (s : VersionedMaps ε) (op : RevisionOp) (s' : VersionedMaps ε) :
    Prop where
  active : ∀ x ∈ s'.rows.rows, ∀ y ∈ s'.rows.rows, x.2.isActive = true → y.2.isActive = true →
    x.2.project = y.2.project → x.2.goal = y.2.goal → x.1 = y.1
  version : ∀ scan input explorationId now maps id, op = .persist scan input explorationId now →
    persistExploration scan s.server.maps input explorationId now = .ok (maps, id) →
    s'.version id = nextVersion s scan input
  history : ∀ x ∈ s'.rows.rows, ∃ fuel h,
    getExplorationHistory s'.rows fuel (some x.1) = some h ∧
    (∀ y ∈ h, y ∈ s'.rows.rows ∧ y.2.project = x.2.project ∧ y.2.goal = x.2.goal) ∧
    h.Pairwise fun y z => s'.version y.1 < s'.version z.1
  retired : ∀ i r r', (i, r) ∈ s.rows.rows → (i, r') ∈ s'.rows.rows → r.status = .retired →
    r'.status = .retired

/-- A persist that the two keys let through. -/
def persistAdmitted (db : ExplorationDb) (input : PersistExplorationInput)
    (explorationId : String) : Bool :=
  !(db.explorations.rows.any fun x => x.2.explorationId == explorationId) &&
    decide (input.anchors.map ExplorationAnchor.path).Nodup

/-- A persist takes the place of no map. -/
def SupersedesNone (s : VersionedMaps ε) : RevisionOp → Prop
  | .persist scan input explorationId _ =>
    persistAdmitted s.server.maps input explorationId = true →
      activeRevision scan s.server.maps input.project input.goal = none
  | _ => True

/-! ## One step -/

/-- A write that leaves the links alone, and retired maps retired. -/
structure Remarked (t t' : Table ExplorationRow) : Prop where
  marks : Marks explorationColumns t t'
  rows : ∀ i r', (i, r') ∈ t'.rows → ∃ r, (i, r) ∈ t.rows ∧ r'.supersededBy = r.supersededBy ∧
    (r.status = .retired → r'.status = .retired)

namespace Remarked

theorem refl (t : Table ExplorationRow) : Remarked t t :=
  ⟨.refl t, fun _ r hr => ⟨r, hr, rfl, fun h => h⟩⟩

theorem trans {t t' t'' : Table ExplorationRow} (h : Remarked t t') (h' : Remarked t' t'') :
    Remarked t t'' := by
  refine ⟨h.marks.trans h'.marks, fun i r'' hr'' => ?_⟩
  obtain ⟨r', hr', hs', hk'⟩ := h'.rows i r'' hr''
  obtain ⟨r, hr, hs, hk⟩ := h.rows i r' hr'
  exact ⟨r, hr, hs'.trans hs, fun h => hk' (hk h)⟩

theorem update (t : Table ExplorationRow) {p : Int → ExplorationRow → Bool}
    {f : Int → ExplorationRow → ExplorationRow}
    (hf : ∀ i r, (f i r).project = r.project ∧ (f i r).goal = r.goal ∧
      (f i r).epochCreated = r.epochCreated ∧ (f i r).isActive = r.isActive ∧
      (f i r).supersededBy = r.supersededBy)
    (hretired : ∀ i r, p i r = true → r.status = .retired → (f i r).status = .retired) :
    Remarked t (t.update p f) := by
  refine ⟨.update t (fun i r => ?_) (fun i r => (hf i r).2.2.1) (fun i r => (hf i r).2.2.2.1),
    fun i r' hr' => ?_⟩
  · exact Prod.ext (hf i r).1 (hf i r).2.1
  obtain ⟨r, hr, rfl⟩ := Table.mem_update.mp hr'
  refine ⟨r, hr, ?_, ?_⟩
  · split
    · exact (hf i r).2.2.2.2
    · rfl
  · intro h
    split
    · exact hretired i r ‹_› h
    · exact h

end Remarked

theorem markPending_remarked (db : ExplorationDb) (id : Int) :
    Remarked db.explorations (markExplorationPending db id).explorations := by
  unfold markExplorationPending
  dsimp only
  refine .update _ ?_ ?_
  · intro i r
    exact ⟨rfl, rfl, rfl, rfl, rfl⟩
  · intro i r hp hr
    simp [hr] at hp

theorem invalidateStale_remarked (db : ExplorationDb) (explorationId reason : String)
    (now : Int) : Remarked db.explorations
      (invalidateExplorationStale db explorationId reason now).explorations := by
  unfold invalidateExplorationStale
  dsimp only
  refine .update _ ?_ ?_
  · intro i r
    exact ⟨rfl, rfl, rfl, rfl, rfl⟩
  · intro i r hp hr
    simp [hr] at hp

theorem setUnretired_remarked (db : ExplorationDb) (p : Int → ExplorationRow → Bool)
    (status : MapStatus) (now : Int) :
    Remarked db.explorations (setUnretired db p status now).explorations := by
  unfold setUnretired
  dsimp only
  refine .update _ ?_ ?_
  · intro i r
    exact ⟨rfl, rfl, rfl, rfl, rfl⟩
  · intro i r hp hr
    simp [hr] at hp

theorem markStale_remarked (chunks : SeqTable Chunk) (db : ExplorationDb) (project : String)
    (now : Int) : Remarked db.explorations
      (markStaleIfAnchorsChanged chunks db project now).1.explorations := by
  unfold markStaleIfAnchorsChanged
  dsimp only
  refine .update _ ?_ ?_
  · intro i r
    exact ⟨rfl, rfl, rfl, rfl, rfl⟩
  · intro i r hp hr
    simp [hr] at hp

theorem feedback_remarked (s : MapServer ε) (explorationId : String) (kind : FeedbackKind)
    (limit now : Int) : Remarked s.maps.explorations
      (recordFeedback s explorationId kind limit now).maps.explorations := by
  have htouched : ∀ id, Remarked s.maps.explorations
      (touchedByFeedback s.maps id kind now).explorations :=
    fun id => .update (p := fun i r => i == id && (kind == .confirm || r.status != .retired))
      (f := fun _ r => { r with updatedAt := now }) _ (fun _ _ => ⟨rfl, rfl, rfl, rfl, rfl⟩)
      fun _ _ _ h => h
  exact recordFeedback_keeps s (P := fun db => Remarked s.maps.explorations db.explorations)
    explorationId kind limit now (.refl _) htouched
    fun id => (htouched id).trans (setUnretired_remarked _ _ _ now)

/-- What a statement does to the rows and their versions. -/
inductive RevisionEffect (s : VersionedMaps ε) (op : RevisionOp) (s' : VersionedMaps ε) :
    Prop where
  | persisted (scan : ScanOrder ExplorationRow) (input : PersistExplorationInput)
      (explorationId : String) (now : Int) (maps : ExplorationDb) (id : Int)
      (call : op = .persist scan input explorationId now)
      (ran : persistExploration scan s.server.maps input explorationId now = .ok (maps, id))
      (rows : s'.rows = maps.explorations)
      (version : s'.version = Function.update s.version id VERSION_DEFAULT)
  | deleted (p : Int → ExplorationRow → Bool) (rows : s'.rows = s.rows.delete p)
      (version : s'.version = s.version)
      (other : ∀ scan input explorationId now, op ≠ .persist scan input explorationId now)
  | remarked (rows : Remarked s.rows s'.rows) (version : s'.version = s.version)
      (refused : ∀ scan input explorationId now out, op = .persist scan input explorationId now →
        persistExploration scan s.server.maps input explorationId now ≠ .ok out)

theorem stepRevisions_effect (s : VersionedMaps ε) (op : RevisionOp) :
    RevisionEffect s op (stepRevisions s op) := by
  cases op with
  | persist scan input explorationId now =>
    simp only [stepRevisions]
    split
    · rename_i maps id h
      exact .persisted scan input explorationId now maps id rfl h rfl rfl
    · rename_i e h
      refine .remarked (.refl _) rfl ?_
      rintro scan' input' explorationId' now' out he hok
      cases he
      rw [h] at hok
      cases hok
  | markPending id => exact .remarked (markPending_remarked _ id) rfl (by intros; simp_all)
  | delete id => exact .deleted (fun i _ => i == id) rfl rfl (by intros; simp)
  | feedback explorationId kind limit now =>
    exact .remarked (feedback_remarked s.server explorationId kind limit now) rfl
      (by intros; simp_all)
  | invalidate explorationId reason now =>
    exact .remarked (invalidateStale_remarked _ explorationId reason now) rfl
      (by intros; simp_all)
  | review explorationId approved now =>
    exact .remarked (setUnretired_remarked _ _ _ now) rfl (by intros; simp_all)
  | markStale chunks project now =>
    exact .remarked (markStale_remarked chunks _ project now) rfl (by intros; simp_all)

end Maps

/-! ## Every run -/

section Run

variable {ε : Type}

theorem persistAdmitted_iff (scan : ScanOrder ExplorationRow) {db : ExplorationDb}
    {input : PersistExplorationInput} {explorationId : String} (now : Int) :
    persistAdmitted db input explorationId = true ↔
      ∃ out, persistExploration scan db input explorationId now = .ok out := by
  have hids : ∀ old : Option Int, (db.explorations.update (fun i r => some i == old && r.isActive)
      fun _ r => { r with isActive := false }).rows.any
        (fun x => x.2.explorationId == explorationId) =
      db.explorations.rows.any fun x => x.2.explorationId == explorationId := by
    intro old
    unfold Table.update
    dsimp only
    rw [List.any_map]
    congr 1
    funext x
    simp only [Function.comp_apply]
    split <;> rfl
  unfold persistAdmitted persistExploration
  dsimp only
  rw [hids]
  cases hid : db.explorations.rows.any fun x => x.2.explorationId == explorationId with
  | true => simp
  | false =>
    by_cases hn : (input.anchors.map ExplorationAnchor.path).Nodup
    · simp [hn]
    · simp [hn]

/-- What holds in every state: the maps point forward, and every version is the default. -/
structure RevisionInv (s : VersionedMaps ε) : Prop where
  last : LiveLast explorationColumns s.rows
  forward : ∀ x ∈ s.rows.rows, ∀ j, x.2.supersededBy = some j → x.1 < j
  versions : ∀ x ∈ s.rows.rows, s.version x.1 = VERSION_DEFAULT

/-- The rows that a persist leaves. -/
theorem persisted_rows {scan : ScanOrder ExplorationRow} {db maps : ExplorationDb}
    {input : PersistExplorationInput} {explorationId : String} {now id : Int}
    (h : persistExploration scan db input explorationId now = .ok (maps, id)) :
    id = db.explorations.nextId ∧ ∀ x ∈ maps.explorations.rows,
      (x.1 = id ∧ x.2.supersededBy = none) ∨ (x.1 < id ∧ ∃ r, (x.1, r) ∈ db.explorations.rows ∧
        x.2.status = r.status ∧ (x.2.supersededBy = some id ∨ x.2.supersededBy = r.supersededBy) ∧
        (activeRevision scan db input.project input.goal = none →
          x.2.supersededBy = r.supersededBy)) := by
  have hp := persistExploration_ok h
  have hid : id = db.explorations.nextId := by
    unfold persistExploration at h
    dsimp only at h
    split at h
    · cases h
    split at h
    · cases h
    cases h
    exact nextId_update _ _ _
  refine ⟨hid, fun x hx => ?_⟩
  rcases (hp.row x.1 x.2).mp hx with ⟨hi, hr⟩ | ⟨r₀, hr₀, hr⟩
  · refine .inl ⟨hi, ?_⟩
    rw [hr]
    rfl
  · refine .inr ⟨hid ▸ Table.lt_nextId hr₀, r₀, hr₀, ?_, ?_, ?_⟩
    · rw [hr]
      split <;> rfl
    · rw [hr]
      split
      · exact .inl rfl
      · exact .inr rfl
    · intro hnone
      rw [hr, if_neg (by rw [hnone]; simp)]

theorem stepRevisions_inv {s : VersionedMaps ε} (h : RevisionInv s) (op : RevisionOp) :
    RevisionInv (stepRevisions s op) := by
  cases stepRevisions_effect s op with
  | persisted scan input explorationId now maps id call ran rows version =>
    obtain ⟨hid, hrows⟩ := persisted_rows ran
    refine ⟨?_, ?_, ?_⟩
    · rw [rows]
      exact h.last.supersede (persist_supersedes h.last.liveUnique ran)
    · intro x hx j hj
      rcases hrows x (rows ▸ hx) with ⟨-, hnone⟩ | ⟨hlt, r, hr, -, hnext, -⟩
      · rw [hnone] at hj
        cases hj
      · rcases hnext with hnew | hold
        · rw [hnew, Option.some.injEq] at hj
          omega
        · exact h.forward (x.1, r) hr j (hold ▸ hj)
    · intro x hx
      rw [version]
      rcases hrows x (rows ▸ hx) with ⟨hi, -⟩ | ⟨hlt, r, hr, -⟩
      · rw [hi, Function.update_self]
      · rw [Function.update_of_ne (Int.ne_of_lt hlt)]
        exact h.versions (x.1, r) hr
  | deleted p rows version other =>
    refine ⟨rows ▸ h.last.delete p, ?_, ?_⟩
    · intro x hx
      exact h.forward x (Table.mem_delete.mp (rows ▸ hx)).1
    · intro x hx
      rw [version]
      exact h.versions x (Table.mem_delete.mp (rows ▸ hx)).1
  | remarked rows version refused =>
    refine ⟨h.last.marks rows.marks, ?_, ?_⟩
    · intro x hx j hj
      obtain ⟨r, hr, hnext, -⟩ := rows.rows x.1 x.2 hx
      exact h.forward (x.1, r) hr j (hnext ▸ hj)
    · intro x hx
      obtain ⟨r, hr, -⟩ := rows.rows x.1 x.2 hx
      rw [version]
      exact h.versions (x.1, r) hr

theorem revisions_inv (ops : List RevisionOp) :
    RevisionInv (Lts.after stepRevisions (VersionedMaps.empty (ε := ε)) ops) :=
  Lts.run_inv (I := fun _ s => RevisionInv s)
    ⟨.empty, fun _ hx => absurd hx Table.not_mem_empty, fun _ hx => absurd hx Table.not_mem_empty⟩
    (fun _ _ op h => stepRevisions_inv h op) ops

/-- Every history ends. -/
theorem map_history_ends (ops : List RevisionOp) (i : Int) : ∃ fuel h, getExplorationHistory
    (Lts.after stepRevisions (VersionedMaps.empty (ε := ε)) ops).rows fuel (some i) = some h :=
  chainFrom_ends (revisions_inv ops).forward i

/-- No statement takes a map out of the retired ones. -/
theorem map_retired (s : VersionedMaps ε) (op : RevisionOp) {i : Int} {r r' : ExplorationRow}
    (hr : (i, r) ∈ s.rows.rows) (hr' : (i, r') ∈ (stepRevisions s op).rows.rows)
    (hretired : r.status = .retired) : r'.status = .retired := by
  cases stepRevisions_effect s op with
  | persisted scan input explorationId now maps id call ran rows version =>
    obtain ⟨hid, hrows⟩ := persisted_rows ran
    rcases hrows (i, r') (rows ▸ hr') with ⟨rfl, -⟩ | ⟨-, r₀, hr₀, hs, -⟩
    · have hlt := Table.lt_nextId hr
      exact absurd hid (Int.ne_of_lt hlt)
    · obtain rfl := Table.eq_of_mem hr hr₀
      exact hs.trans hretired
  | deleted p rows version other =>
    obtain rfl := Table.eq_of_mem hr (Table.mem_delete.mp (rows ▸ hr')).1
    exact hretired
  | remarked rows version refused =>
    obtain ⟨r₀, hr₀, -, hs⟩ := rows.rows i r' hr'
    obtain rfl := Table.eq_of_mem hr hr₀
    exact hs hretired

theorem map_active (ops : List RevisionOp) : LiveUnique explorationColumns
    (Lts.after stepRevisions (VersionedMaps.empty (ε := ε)) ops).rows :=
  (revisions_inv ops).last.liveUnique

end Run

/-! ## Runs that supersede nothing -/

section Kept

variable {ε : Type}

/-- No map points at another. -/
def Unlinked (s : VersionedMaps ε) : Prop := ∀ x ∈ s.rows.rows, x.2.supersededBy = none

theorem stepRevisions_unlinked {s : VersionedMaps ε} (h : Unlinked s) {op : RevisionOp}
    (hop : SupersedesNone s op) : Unlinked (stepRevisions s op) := by
  intro x hx
  cases stepRevisions_effect s op with
  | persisted scan input explorationId now maps id call ran rows version =>
    subst call
    have hnone := hop ((persistAdmitted_iff scan now).mpr ⟨_, ran⟩)
    rcases (persisted_rows ran).2 x (rows ▸ hx) with ⟨-, hn⟩ | ⟨-, r, hr, -, -, hn⟩
    · exact hn
    · exact (hn hnone).trans (h (x.1, r) hr)
  | deleted p rows version other => exact h x (Table.mem_delete.mp (rows ▸ hx)).1
  | remarked rows version refused =>
    obtain ⟨r, hr, hn, -⟩ := rows.rows x.1 x.2 hx
    exact hn.trans (h (x.1, r) hr)

theorem getExplorationHistory_unlinked {s : VersionedMaps ε} (h : Unlinked s)
    {x : Int × ExplorationRow} (hx : x ∈ s.rows.rows) :
    getExplorationHistory s.rows 1 (some x.1) = some [x] := by
  rw [getExplorationHistory, chainFrom, Table.get?_eq_some.mpr hx]
  dsimp only
  rw [h x hx]
  rfl

/-- A step keeps the revisions exactly when it supersedes none. -/
theorem revisionsKept_iff {s : VersionedMaps ε} (hI : RevisionInv s) (hu : Unlinked s)
    (op : RevisionOp) : RevisionsKept s op (stepRevisions s op) ↔ SupersedesNone s op := by
  constructor
  · intro hk
    cases op with
    | persist scan input explorationId now =>
      intro hadmitted
      obtain ⟨⟨maps, id⟩, ran⟩ := (persistAdmitted_iff scan now).mp hadmitted
      have hversion := hk.version scan input explorationId now maps id rfl ran
      simp only [stepRevisions, ran, Function.update_self, nextVersion] at hversion
      cases ho : activeRevision scan s.server.maps input.project input.goal with
      | none => rfl
      | some old =>
        obtain ⟨r, hr, -⟩ := activeRevision_mem ho
        rw [ho] at hversion
        have hold := hI.versions (old, r) hr
        simp only [VERSION_DEFAULT] at hversion hold
        omega
    | _ => exact trivial
  · intro hop
    have hI' := stepRevisions_inv hI op
    have hu' := stepRevisions_unlinked hu hop
    refine ⟨?_, ?_, ?_, ?_⟩
    · intro x hx y hy hxa hya hproject hgoal
      exact hI'.last.liveUnique x hx y hy hxa hya (Prod.ext hproject hgoal)
    · rintro scan input explorationId now maps id rfl ran
      have hnone := hop ((persistAdmitted_iff scan now).mpr ⟨_, ran⟩)
      simp only [stepRevisions, ran, Function.update_self, nextVersion, hnone, VERSION_DEFAULT]
    · intro x hx
      refine ⟨1, [x], getExplorationHistory_unlinked hu' hx, ?_, List.pairwise_singleton _ _⟩
      intro y hy
      rw [List.mem_singleton.mp hy]
      exact ⟨hx, rfl, rfl⟩
    · intro i r r' hr hr' hretired
      exact map_retired s op hr hr' hretired

/-- Every step of a run keeps the revisions exactly when no persist takes the place of a map:
a new revision gets the version 1 again. -/
theorem map_revisions (ops : List RevisionOp) :
    Lts.Always stepRevisions (VersionedMaps.empty (ε := ε))
        (fun _ s op => RevisionsKept s op (stepRevisions s op)) ops ↔
      Lts.Always stepRevisions (VersionedMaps.empty (ε := ε))
        (fun _ s op => SupersedesNone s op) ops := by
  have hunlinked : ∀ ops, Lts.Always stepRevisions (VersionedMaps.empty (ε := ε))
      (fun _ s op => SupersedesNone s op) ops →
      Unlinked (Lts.after stepRevisions (VersionedMaps.empty (ε := ε)) ops) := by
    intro ops h
    exact Lts.guarded_inv (I := fun _ s => Unlinked s)
      (fun _ hx => absurd hx Table.not_mem_empty)
      (fun _ _ _ hu hop => stepRevisions_unlinked hu hop) ops h
  induction ops with
  | nil => exact Iff.rfl
  | cons op ops ih =>
    constructor
    · rintro ⟨hr, hk⟩
      have hr := ih.mp hr
      exact ⟨hr, (revisionsKept_iff (revisions_inv ops) (hunlinked ops hr) op).mp hk⟩
    · rintro ⟨hr, hop⟩
      exact ⟨ih.mpr hr, (revisionsKept_iff (revisions_inv ops) (hunlinked ops hr) op).mpr hop⟩

/-! ## A goal that is explored again -/

def sampleRevision (goal explorationId : String) (now : Int) : RevisionOp :=
  .persist .rowid ⟨"p", some 1, goal, "body", "summary", [], "u", none⟩ explorationId now

/-- Both revisions of the goal have the version 1. With the second one deleted and its id given
to a map of another goal, the history of the first goes on with that map. -/
theorem map_revisions_again :
    ¬ Lts.Always stepRevisions (VersionedMaps.empty (ε := Unit))
        (fun _ s op => RevisionsKept s op (stepRevisions s op))
        [sampleRevision "g1" "u2" 20, sampleRevision "g1" "u1" 10] ∧
    (getExplorationHistory (Lts.after stepRevisions (VersionedMaps.empty (ε := Unit))
      [sampleRevision "g2" "u3" 30, .delete 2, sampleRevision "g1" "u2" 20,
        sampleRevision "g1" "u1" 10]).rows 5 (some 1)).map (List.map fun x => x.2.goal) =
      some ["g1", "g2"] := by
  refine ⟨?_, by decide +kernel⟩
  rintro ⟨-, hk⟩
  have hran : ∃ maps id, persistExploration .rowid (Lts.after stepRevisions
      (VersionedMaps.empty (ε := Unit)) [sampleRevision "g1" "u1" 10]).server.maps
      ⟨"p", some 1, "g1", "body", "summary", [], "u", none⟩ "u2" 20 = .ok (maps, id) ∧ id = 2 :=
    ⟨_, _, rfl, by decide +kernel⟩
  obtain ⟨maps, id, ran, rfl⟩ := hran
  have hversion := hk.version _ _ _ _ maps 2 rfl ran
  revert hversion
  decide +kernel

end Kept

end Arags
