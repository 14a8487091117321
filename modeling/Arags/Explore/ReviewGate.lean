import Arags.Explore.Search

/-!
# Arags.Explore.ReviewGate

The review gate of `handle_persist_exploration`, its storage steps taken apart. The map is
inserted as `fresh`; a second statement, whose failure is only logged, moves it to
`pending_review` if it is still `fresh`; the vector is stored last. Anything can run in between,
and a call can end after any step.

* `GateServer`, `stepGate` — the server with the persists that are under way.
* `handlePersistExploration_steps` — the handler is these steps in a row.
* `gateEvents`, `heldIn` — maps that were persisted for review and that no admin has approved.
* `returnsHeld`  — a search that returns such a map.
* `GateKept`     — what each step must respect: the mark succeeds, nothing makes the map stale
  before it, and no search sees the map before it.
* `review_gate`  — in runs of such steps no search returns a held map.
-/

namespace Arags

open Sql

/-- A held persist between its insert and its mark: the row id and the stable id. -/
abbrev Unmarked := Int × String

/-- The server, the persists before their mark, and the rows before their vector. -/
structure GateServer (ε : Type) where
  server : MapServer ε
  unmarked : List Unmarked
  unembedded : List Int

def GateServer.empty {ε : Type} : GateServer ε := ⟨.empty, [], []⟩

inductive GateOp (ε : Type) where
  /-- The checks and the transaction of a persist. -/
  | insert (req : PersistExplorationRequest) (username : String) (gate : ReviewGate)
      (explorationId : String) (now : Int)
  /-- `mark_exploration_pending`, which may fail. -/
  | mark (call : Unmarked) (fails : Bool)
  /-- The vector of the map, if the embedder has one and the index takes it. -/
  | embed (id : Int) (vector : Option ε)
  | stream (msgs : List IndexMsg) (now : Int)
  | markStale (project : String) (now : Int)
  | feedback (explorationId : String) (kind : FeedbackKind) (contradictionLimit now : Int)
  | invalidate (explorationId reason : String) (mode : InvalidateMode) (now : Int)
  | review (explorationId : String) (approved : Bool) (now : Int)
  | reconcile (id : Int) (vector : ε)
  | search (env : SearchEnv ε) (project query : String) (limit : Nat) (includeStale : Bool)
      (asOfEpoch now : Int)

section Steps

variable {ε : Type} (ix : Indexer) (scan : ScanOrder ExplorationRow) (enabled : Bool)

/-- The handler up to the end of its transaction. -/
def persistInsert (s : MapServer ε) (req : PersistExplorationRequest)
    (username explorationId : String) (now : Int) :
    ExplorationDb × Except String (Int × String × List String) :=
  handlePersistExploration scan ix.scan enabled s.index s.maps req username .approved explorationId
    now

theorem handlePersistExploration_steps (s : MapServer ε) (req : PersistExplorationRequest)
    (username : String) (gate : ReviewGate) (explorationId : String) (now : Int) :
    handlePersistExploration scan ix.scan enabled s.index s.maps req username gate explorationId
        now =
      match persistInsert ix scan enabled s req username explorationId now with
      | (maps, .ok out) => (if gate.holds then markExplorationPending maps out.1 else maps, .ok out)
      | (maps, .error e) => (maps, .error e) := by
  unfold persistInsert handlePersistExploration
  cases enabled with
  | false => rfl
  | true =>
    cases validatePersist req with
    | error e => rfl
    | ok u =>
      dsimp only
      cases (s.index.buffers.select fun _ r => r.name == req.project).head? with
      | none => rfl
      | some b =>
        dsimp only
        cases persistExploration scan s.maps (req.input b.1 (resolveAnchors ix.scan
          s.index.chunks b.1 req.files).1 username) explorationId now <;> rfl

/-- A step of the system without its persists. -/
def GateServer.other (s : GateServer ε) (op : MapOp ε) : GateServer ε :=
  { s with server := stepMaps ix scan enabled s.server op }

def stepGate (s : GateServer ε) : GateOp ε → GateServer ε
  | .insert req username gate explorationId now =>
    match persistInsert ix scan enabled s.server req username explorationId now with
    | (maps, .ok (id, _, _)) =>
      { server := { s.server with maps := maps }
        unmarked := if gate.holds then (id, explorationId) :: s.unmarked else s.unmarked
        unembedded := if gate.holds then s.unembedded else id :: s.unembedded }
    | (_, .error _) => s
  | .mark call fails =>
    if s.unmarked.contains call then
      { server :=
          if fails then s.server
          else { s.server with maps := markExplorationPending s.server.maps call.1 }
        unmarked := s.unmarked.filter fun c => c != call
        unembedded := call.1 :: s.unembedded }
    else s
  | .embed id vector =>
    if s.unembedded.contains id then
      { s with
        server := { s.server with
          vectors := (vector.map (s.server.vectors.insert id)).getD s.server.vectors }
        unembedded := s.unembedded.erase id }
    else s
  | .stream msgs now => s.other ix scan enabled (.stream msgs now)
  | .markStale project now => s.other ix scan enabled (.markStale project now)
  | .feedback explorationId kind limit now =>
    s.other ix scan enabled (.feedback explorationId kind limit now)
  | .invalidate explorationId reason mode now =>
    s.other ix scan enabled (.invalidate explorationId reason mode now)
  | .review explorationId approved now =>
    s.other ix scan enabled (.review explorationId approved now)
  | .reconcile id vector => s.other ix scan enabled (.reconcile id vector)
  | .search _ _ _ _ _ _ _ => s

/-! ## Held maps -/

inductive GateEvent where
  /-- Persisted for review. -/
  | held (explorationId : String)
  /-- Persisted without the gate, or approved by an admin. -/
  | cleared (explorationId : String)
  deriving DecidableEq, Repr

def gateEvents (s : GateServer ε) : GateOp ε → List GateEvent
  | .insert req username gate explorationId now =>
    match (persistInsert ix scan enabled s.server req username explorationId now).2 with
    | .ok _ => [if gate.holds then .held explorationId else .cleared explorationId]
    | .error _ => []
  | .review explorationId true _ => [.cleared explorationId]
  | _ => []

/-- The last that happened to the map is that it was persisted for review. -/
def heldIn : List GateEvent → String → Bool
  | [], _ => false
  | .held v :: es, u => v == u || heldIn es u
  | .cleared v :: es, u => v != u && heldIn es u

/-- The search returns a map that is held. -/
def returnsHeld (es : List GateEvent) (s : GateServer ε) : GateOp ε → Bool
  | .search env project query limit includeStale asOfEpoch now =>
    match searchHits env s.server project query limit includeStale asOfEpoch now with
    | .ok hits => hits.any fun h => heldIn es h.1.row.explorationId
    | .error _ => false
  | _ => false

/-! ## What a step must respect -/

/-- The maps with an anchor that the hook at the end of the stream finds broken. -/
def hookedMaps (s : MapServer ε) (msgs : List IndexMsg) : List Int :=
  let index := (indexStreamLoop ix s.index msgs).1
  match (indexStreamLoop ix s.index msgs).2, streamProject ix s.index msgs, enabled with
  | .ok _, some project, true =>
    (brokenAnchors index.chunks (bumpProjectEpoch s.maps project).1 project).map Prod.fst
  | _, _, _ => []

/-- The index finds the map for the query; at a past epoch, a map of its project and goal. -/
def seen (env : SearchEnv ε) (s : MapServer ε) (project query : String) (limit : Nat)
    (asOfEpoch id : Int) : Bool :=
  ((mapNeighbours env s query limit).getD []).any fun n =>
    (s.maps.explorations.get? n.1).any fun found =>
      (s.maps.explorations.get? id).any fun r => r.project == project &&
        if asOfEpoch > 0 then found.project == r.project && found.goal == r.goal else n.1 == id

/-- What a step does to the maps before their mark. -/
def GateKept (s : GateServer ε) : GateOp ε → Prop
  | .mark _ fails => fails = false
  | .stream msgs _ => ∀ c ∈ s.unmarked, c.1 ∉ hookedMaps ix enabled s.server msgs
  | .markStale project _ =>
    ∀ c ∈ s.unmarked,
      c.1 ∉ (brokenAnchors s.server.index.chunks s.server.maps project).map Prod.fst
  | .invalidate explorationId _ .stale _ => ∀ c ∈ s.unmarked, c.2 ≠ explorationId
  | .search env project query limit _ asOfEpoch _ =>
    ∀ c ∈ s.unmarked, seen env s.server project query limit asOfEpoch c.1 = false
  | _ => True

instance (s : GateServer ε) (op : GateOp ε) : Decidable (GateKept ix enabled s op) :=
  match op with
  | .mark _ fails => inferInstanceAs (Decidable (fails = false))
  | .stream msgs _ =>
    inferInstanceAs (Decidable (∀ c ∈ s.unmarked, c.1 ∉ hookedMaps ix enabled s.server msgs))
  | .markStale project _ =>
    inferInstanceAs (Decidable (∀ c ∈ s.unmarked,
      c.1 ∉ (brokenAnchors s.server.index.chunks s.server.maps project).map Prod.fst))
  | .invalidate explorationId _ .stale _ =>
    inferInstanceAs (Decidable (∀ c ∈ s.unmarked, c.2 ≠ explorationId))
  | .search env project query limit _ asOfEpoch _ =>
    inferInstanceAs (Decidable (∀ c ∈ s.unmarked,
      seen env s.server project query limit asOfEpoch c.1 = false))
  | .invalidate _ _ .delete _ | .insert .. | .embed .. | .feedback .. | .review .. |
    .reconcile .. => inferInstanceAs (Decidable True)

end Steps

/-! ## What the steps do to the rows -/

/-- Each row goes back to one of the same map; its status is the old one, or retired, or it was
fresh and became stale, or an admin approved it. -/
def StatusStep (t t' : Table ExplorationRow) (staled : Int → ExplorationRow → Prop)
    (approved : String → Prop) : Prop :=
  ∀ x ∈ t'.rows, ∃ r, (x.1, r) ∈ t.rows ∧ x.2.explorationId = r.explorationId ∧
    (x.2.status = r.status ∨ x.2.status = .retired ∨ (r.status = .fresh ∧ staled x.1 r) ∨
      approved r.explorationId)

section Rows

variable {t t' : Table ExplorationRow} {staled : Int → ExplorationRow → Prop}
  {approved : String → Prop}

theorem StatusStep.refl (t : Table ExplorationRow) : StatusStep t t staled approved :=
  fun x hx => ⟨x.2, hx, rfl, .inl rfl⟩

theorem StatusStep.update {p : Int → ExplorationRow → Bool}
    {f : Int → ExplorationRow → ExplorationRow}
    (hid : ∀ i r, (f i r).explorationId = r.explorationId)
    (hstatus : ∀ i r, p i r = true → (f i r).status = r.status ∨ (f i r).status = .retired ∨
      (r.status = .fresh ∧ staled i r) ∨ approved r.explorationId) :
    StatusStep t (t.update p f) staled approved := by
  intro x hx
  obtain ⟨r, hr, he⟩ := Table.mem_update.mp hx
  refine ⟨r, hr, ?_, ?_⟩
  · rw [he]
    split
    · exact hid x.1 r
    · rfl
  · rw [he]
    split
    · exact hstatus x.1 r ‹_›
    · exact .inl rfl

theorem setUnretired_status (staled : Int → ExplorationRow → Prop) (approved : String → Prop)
    (db : ExplorationDb) (p : Int → ExplorationRow → Bool)
    (status : MapStatus) (now : Int)
    (h : status = .retired ∨ ∀ i r, p i r = true → approved r.explorationId) :
    StatusStep db.explorations (setUnretired db p status now).explorations staled approved := by
  unfold setUnretired
  dsimp only
  refine .update ?_ ?_
  · intro _ _
    rfl
  · intro i r hp
    rw [Bool.and_eq_true] at hp
    rcases h with rfl | h
    · exact .inr (.inl rfl)
    · exact .inr (.inr (.inr (h i r hp.1)))

theorem markStale_status (chunks : SeqTable Chunk) (db : ExplorationDb) (project : String)
    (now : Int) (h : ∀ i r, i ∈ (brokenAnchors chunks db project).map Prod.fst → staled i r) :
    StatusStep db.explorations (markStaleIfAnchorsChanged chunks db project now).1.explorations
      staled approved := by
  unfold markStaleIfAnchorsChanged
  dsimp only
  refine .update ?_ ?_
  · intro _ _
    rfl
  · intro i r hp
    rw [Bool.and_eq_true, beq_iff_eq, List.contains_iff_mem] at hp
    exact .inr (.inr (.inl ⟨hp.2, h i r hp.1⟩))

theorem feedback_status {ε : Type} (s : MapServer ε) (explorationId : String) (kind : FeedbackKind)
    (limit now : Int) : StatusStep s.maps.explorations
      (recordFeedback s explorationId kind limit now).maps.explorations staled approved := by
  have htouched : ∀ id, StatusStep s.maps.explorations
      (touchedByFeedback s.maps id kind now).explorations staled approved :=
    fun id => .update (p := fun i r => i == id && (kind == .confirm || r.status != .retired))
      (f := fun _ r => { r with updatedAt := now }) (fun _ _ => rfl) fun _ _ _ => .inl rfl
  refine recordFeedback_keeps s
    (P := fun db => StatusStep s.maps.explorations db.explorations staled approved) explorationId
    kind limit now (.refl _) htouched fun id x hx => ?_
  obtain ⟨r₁, hr₁, he₁, hs₁⟩ := setUnretired_status (fun _ _ => False) (fun _ => False)
    (touchedByFeedback s.maps id kind now) _ _ now (.inl rfl) x hx
  obtain ⟨r, hr, he, hs⟩ := htouched id _ hr₁
  refine ⟨r, hr, he₁.trans he, ?_⟩
  rcases hs₁ with hs₁ | hs₁ | ⟨-, h⟩ | h
  · rw [hs₁]
    exact hs
  · exact .inr (.inl hs₁)
  · exact h.elim
  · exact h.elim

/-- A row that is deleted leaves the others. -/
theorem delete_status (db : ExplorationDb) (id : Int) : StatusStep db.explorations
    (deleteExploration db id).explorations staled approved :=
  fun x hx => ⟨x.2, (Table.mem_delete.mp hx).1, rfl, .inl rfl⟩

end Rows

/-! ## One step -/

section Step

variable {ε : Type} {ix : Indexer} {scan : ScanOrder ExplorationRow} {enabled : Bool}

def GateServer.rows (s : GateServer ε) : Table ExplorationRow := s.server.maps.explorations

/-- A held map is pending or retired, or it waits for its mark. -/
def GateInv (es : List GateEvent) (s : GateServer ε) : Prop :=
  ∀ x ∈ s.rows.rows, heldIn es x.2.explorationId = true →
    x.2.status = .pendingReview ∨ x.2.status = .retired ∨
      (x.2.status = .fresh ∧ (x.1, x.2.explorationId) ∈ s.unmarked)

/-- A step that puts no map up for review. -/
theorem GateInv.status {es es' : List GateEvent} {s s' : GateServer ε} (hI : GateInv es s)
    (staled : Int → ExplorationRow → Prop) (approved : String → Prop)
    (h : StatusStep s.rows s'.rows staled approved) (hunmarked : s'.unmarked = s.unmarked)
    (hstaled : ∀ i r, staled i r → (i, r.explorationId) ∉ s.unmarked)
    (hheld : ∀ u, heldIn es' u = true → heldIn es u = true ∧ ¬ approved u) : GateInv es' s' := by
  intro x hx hx'
  obtain ⟨r, hr, he, hs⟩ := h x hx
  rw [he] at hx' ⊢
  obtain ⟨hold, hnot⟩ := hheld _ hx'
  have hinv := hI (x.1, r) hr hold
  rw [hunmarked]
  rcases hs with hs | hs | ⟨hfresh, hst⟩ | happroved
  · rw [hs]
    exact hinv
  · exact .inr (.inl hs)
  · rcases hinv with hp | hp | ⟨-, hm⟩
    · rw [hfresh] at hp
      cases hp
    · rw [hfresh] at hp
      cases hp
    · exact absurd hm (hstaled _ _ hst)
  · exact absurd happroved hnot

/-- What the transaction of a persist adds. -/
theorem persistInsert_rows {s : MapServer ε} {req : PersistExplorationRequest} {username : String}
    {explorationId : String} {now : Int} {maps : ExplorationDb} {out : Int × String × List String}
    (h : persistInsert ix scan enabled s req username explorationId now = (maps, .ok out)) :
    (∀ x ∈ s.maps.explorations.rows, x.2.explorationId ≠ explorationId) ∧
    ∀ x ∈ maps.explorations.rows,
      (x.1 = out.1 ∧ x.2.explorationId = explorationId ∧ x.2.status = .fresh) ∨
      ∃ r, (x.1, r) ∈ s.maps.explorations.rows ∧ x.2.explorationId = r.explorationId ∧
        x.2.status = r.status := by
  unfold persistInsert at h
  obtain ⟨e, herror⟩ | ⟨_, _, stored, id, -, hp, hok⟩ := handlePersistExploration_cases scan ix.scan
    enabled s.index s.maps req username .approved explorationId now
  · rw [herror] at h
    cases h
  rw [hok] at h
  cases h
  refine ⟨?_, ?_⟩
  · intro x hx he
    unfold persistExploration at hp
    dsimp only at hp
    split at hp
    · cases hp
    · rename_i hnone
      refine hnone (List.any_eq_true.mpr ?_)
      exact ⟨_, Table.mem_update.mpr ⟨x.2, hx, rfl⟩, by
        dsimp only
        split <;> simpa using he⟩
  · intro x hx
    rcases ((persistExploration_ok hp).row x.1 x.2).mp hx with ⟨hi, hr⟩ | ⟨r₀, hr₀, hr⟩
    · refine .inl ⟨hi, ?_, ?_⟩ <;> rw [hr] <;> rfl
    · refine .inr ⟨r₀, hr₀, ?_, ?_⟩ <;> rw [hr] <;> split <;> rfl

theorem heldIn_cleared {es : List GateEvent} {u v : String}
    (h : heldIn (.cleared v :: es) u = true) : heldIn es u = true ∧ ¬ v = u := by
  simp only [heldIn, Bool.and_eq_true, bne_iff_ne] at h
  exact ⟨h.2, h.1⟩

/-- A new map that must be held is pending or waits for its mark. -/
theorem GateInv.insert {es : List GateEvent} {s : GateServer ε} (hI : GateInv es s)
    (req : PersistExplorationRequest) (username : String) (gate : ReviewGate)
    (explorationId : String) (now : Int) :
    GateInv (gateEvents ix scan enabled s (.insert req username gate explorationId now) ++ es)
      (stepGate ix scan enabled s (.insert req username gate explorationId now)) := by
  simp only [stepGate, gateEvents]
  cases h : persistInsert ix scan enabled s.server req username explorationId now with
  | mk maps res =>
    cases res with
    | error e => exact hI
    | ok out =>
      obtain ⟨id, rest⟩ := out
      obtain ⟨hnew, hrows⟩ := persistInsert_rows h
      intro x hx hheld
      dsimp only at hx hheld ⊢
      rcases hrows x hx with ⟨hi, he, hs⟩ | ⟨r, hr, he, hs⟩
      · cases hg : gate.holds with
        | false => simp [hg, he, heldIn] at hheld
        | true =>
          refine .inr (.inr ⟨hs, ?_⟩)
          simp only [if_true, he]
          rw [show x.1 = id from hi]
          exact List.mem_cons_self
      · have hne : r.explorationId ≠ explorationId := hnew _ hr
        rw [he] at hheld ⊢
        have hold : heldIn es r.explorationId = true := by
          cases hg : gate.holds with
          | false => simpa [hg, heldIn, hne.symm] using hheld
          | true => simpa [hg, heldIn, hne.symm] using hheld
        rw [hs]
        rcases hI (x.1, r) hr hold with hp | hp | ⟨hf, hm⟩
        · exact .inl hp
        · exact .inr (.inl hp)
        · refine .inr (.inr ⟨hf, ?_⟩)
          split
          · exact List.mem_cons_of_mem _ hm
          · exact hm

/-- A mark that succeeds makes its map pending. -/
theorem GateInv.mark {es : List GateEvent} {s : GateServer ε} (hI : GateInv es s) (call) :
    GateInv (gateEvents ix scan enabled s (.mark call false) ++ es)
      (stepGate ix scan enabled s (.mark call false)) := by
  simp only [stepGate, gateEvents, List.nil_append]
  split
  · intro x hx hheld
    change x ∈ (markExplorationPending s.server.maps call.1).explorations.rows at hx
    unfold markExplorationPending at hx
    obtain ⟨r, hr, he⟩ := Table.mem_update.mp hx
    by_cases hp : (x.1 == call.1 && r.status == .fresh) = true
    · rw [if_pos hp] at he
      rw [he]
      exact .inl rfl
    · rw [if_neg hp] at he
      rw [he] at hheld ⊢
      rcases hI (x.1, r) hr hheld with hs | hs | ⟨hf, hm⟩
      · exact .inl hs
      · exact .inr (.inl hs)
      · refine .inr (.inr ⟨hf, List.mem_filter.mpr ⟨hm, ?_⟩⟩)
        rw [bne_iff_ne]
        intro hc
        refine hp ?_
        rw [← hc, hf]
        simp
  · exact hI

theorem stepGate_inv {es : List GateEvent} {s : GateServer ε} {op : GateOp ε}
    (hI : GateInv es s) (hop : GateKept ix enabled s op) :
    GateInv (gateEvents ix scan enabled s op ++ es) (stepGate ix scan enabled s op) := by
  have hsame : ∀ u, heldIn es u = true → heldIn es u = true ∧ ¬ (fun _ : String => False) u :=
    fun u h => ⟨h, fun h => h⟩
  cases op with
  | insert req username gate explorationId now =>
    exact hI.insert req username gate explorationId now
  | mark call fails =>
    obtain rfl : fails = false := hop
    exact hI.mark call
  | embed id vector =>
    simp only [stepGate, gateEvents, List.nil_append]
    split <;> exact hI
  | stream msgs now =>
    show GateInv es (s.other ix scan enabled (.stream msgs now))
    refine hI.status (fun i _ => i ∈ hookedMaps ix enabled s.server msgs) (fun _ => False) ?_ rfl
      (fun i r h hm => hop _ hm h) hsame
    simp only [GateServer.other, GateServer.rows, stepMaps, indexWithMaps]
    split
    · rename_i project hok hproject
      refine markStale_status _ (bumpProjectEpoch s.server.maps _).1 _ now fun i _ hi => ?_
      simp only [hookedMaps, hok, hproject]
      exact hi
    · exact .refl _
  | markStale project now =>
    show GateInv es (s.other ix scan enabled (.markStale project now))
    refine hI.status (fun i _ => i ∈ (brokenAnchors s.server.index.chunks s.server.maps
      project).map Prod.fst) (fun _ => False) ?_ rfl (fun i r h hm => hop _ hm h) hsame
    exact markStale_status _ _ _ now fun _ _ hi => hi
  | feedback explorationId kind limit now =>
    show GateInv es (s.other ix scan enabled (.feedback explorationId kind limit now))
    exact hI.status (fun _ _ => False) (fun _ => False)
      (feedback_status s.server explorationId kind limit now) rfl (fun _ _ h => h.elim) hsame
  | invalidate explorationId reason mode now =>
    show GateInv es (s.other ix scan enabled (.invalidate explorationId reason mode now))
    refine hI.status (fun _ r => mode = .stale ∧ r.explorationId = explorationId)
      (fun _ => False) ?_ rfl ?_ hsame
    · simp only [GateServer.other, GateServer.rows, stepMaps, handleInvalidateExploration]
      split
      · exact .refl _
      · simp only [invalidateExplorationStale]
        refine .update (fun _ _ => rfl) fun i r hp => ?_
        rw [Bool.and_eq_true, beq_iff_eq, beq_iff_eq] at hp
        exact .inr (.inr (.inl ⟨hp.2, trivial, hp.1⟩))
      · exact delete_status _ _
    · rintro i r ⟨rfl, he⟩ hm
      exact hop _ hm he
  | review explorationId approved now =>
    cases approved with
    | false =>
      show GateInv es (s.other ix scan enabled (.review explorationId false now))
      exact hI.status (fun _ _ => False) (fun _ => False)
        (setUnretired_status _ _ _ _ _ now (.inl rfl)) rfl (fun _ _ h => h.elim) hsame
    | true =>
      show GateInv (.cleared explorationId :: es)
        (s.other ix scan enabled (.review explorationId true now))
      refine hI.status (fun _ _ => False) (fun u => explorationId = u)
        (setUnretired_status _ _ _ _ _ now (.inr fun i r hp => (beq_iff_eq.mp hp).symm)) rfl
        (fun _ _ h => h.elim) fun u hu => heldIn_cleared hu
  | reconcile id vector =>
    show GateInv es (s.other ix scan enabled (.reconcile id vector))
    simp only [GateServer.other, stepMaps]
    split <;> exact hI
  | search env project query limit includeStale asOfEpoch now => exact hI

end Step

/-! ## Searches -/

section Searches

variable {ε : Type} {env : SearchEnv ε} {s : MapServer ε} {project query : String} {limit : Nat}
variable {includeStale : Bool} {asOfEpoch now : Int}

/-- A hit comes from a neighbour and passes the gate. -/
theorem searchHits_candidate {hits : List (MapCandidate × ExplorationHit)}
    {h : MapCandidate × ExplorationHit}
    (hok : searchHits env s project query limit includeStale asOfEpoch now = .ok hits)
    (hmem : h ∈ hits) :
    ∃ neighbours, mapNeighbours env s query limit = some neighbours ∧
      ∃ n ∈ neighbours, hydrate s project asOfEpoch n = some h.1 ∧
        h.1.row.status ≠ .retired ∧ h.1.row.status ≠ .pendingReview := by
  unfold searchHits at hok
  split at hok
  · cases hok
    cases hmem
  rename_i hlimit
  split at hok
  · cases hok
    cases hmem
  rename_i havailable
  cases hquery : env.embedLenient query with
  | none => simp [hquery] at hok
  | some queryVec =>
    cases hsearch : env.search s.vectors queryVec (limit + SEARCH_MARGIN) with
    | error e => simp [hquery, hsearch] at hok
    | ok neighbours =>
      simp only [hquery, hsearch, Except.ok.injEq] at hok
      subst hok
      have hneighbours : mapNeighbours env s query limit = some neighbours := by
        simp only [Bool.not_eq_true', Bool.not_eq_false] at havailable
        simp [mapNeighbours, hlimit, havailable, hquery, hsearch, Except.toOption]
      obtain ⟨x, hx, rfl⟩ := List.mem_map.mp hmem
      have hx := (List.perm_insertionSort _ _).mem_iff.mp (List.mem_of_mem_take hx)
      obtain ⟨c, hc, hsurface⟩ := List.mem_filterMap.mp hx
      obtain ⟨n, hn, hhydrate⟩ := List.mem_filterMap.mp hc
      obtain ⟨hit, hhit, rfl⟩ := Option.map_eq_some_iff.mp hsurface
      refine ⟨neighbours, hneighbours, n, hn, hhydrate, ?_⟩
      unfold surface at hhit
      dsimp only at hhit
      split at hhit
      · cases hhit
      · rename_i hgate
        simpa using hgate

/-- The candidate is a stored map, and the index found it or, at a past epoch, another of its
question. -/
theorem hydrate_row {n : Int × Rat} {c : MapCandidate}
    (h : hydrate s project asOfEpoch n = some c) :
    (c.id, c.row) ∈ s.maps.explorations.rows ∧ c.row.project = project ∧
      ∃ found, s.maps.explorations.get? n.1 = some found ∧
        if asOfEpoch > 0 then found.project = c.row.project ∧ found.goal = c.row.goal
        else n.1 = c.id := by
  unfold hydrate at h
  obtain ⟨found, hfound, hresolved⟩ := Option.bind_eq_some_iff.mp h
  dsimp only at hresolved
  obtain ⟨x, hx, hc⟩ := Option.bind_eq_some_iff.mp hresolved
  clear h hresolved
  split at hc
  · cases hc
  rename_i hproject
  rw [Option.some.injEq] at hc
  subst hc
  by_cases hpos : asOfEpoch > 0
  · rw [if_pos hpos] at hx
    obtain ⟨hrow, hp⟩ := Table.mem_select.mp (firstBy_mem hx)
    simp only [Bool.and_eq_true, beq_iff_eq] at hp
    exact ⟨hrow, by simpa using hproject, found, hfound,
      by rw [if_pos hpos]; exact ⟨hp.1.1.symm, hp.1.2.symm⟩⟩
  · rw [if_neg hpos, Option.some.injEq] at hx
    subst hx
    exact ⟨Table.get?_eq_some.mp hfound, by simpa using hproject, found, hfound,
      by rw [if_neg hpos]⟩

/-- A hit is seen. -/
theorem searchHits_seen {hits : List (MapCandidate × ExplorationHit)}
    {h : MapCandidate × ExplorationHit}
    (hok : searchHits env s project query limit includeStale asOfEpoch now = .ok hits)
    (hmem : h ∈ hits) :
    (h.1.id, h.1.row) ∈ s.maps.explorations.rows ∧
      seen env s project query limit asOfEpoch h.1.id = true ∧
      h.1.row.status ≠ .retired ∧ h.1.row.status ≠ .pendingReview := by
  obtain ⟨neighbours, hn, n, hmem, hhydrate, hstatus⟩ := searchHits_candidate hok hmem
  obtain ⟨hrow, hproject, found, hfound, hid⟩ := hydrate_row hhydrate
  refine ⟨hrow, ?_, hstatus⟩
  have hget : s.maps.explorations.get? h.1.id = some h.1.row := Table.get?_eq_some.mpr hrow
  rw [seen, hn, Option.getD_some, List.any_eq_true]
  refine ⟨n, hmem, ?_⟩
  rw [hfound, hget, Option.any_some, Option.any_some, Bool.and_eq_true, beq_iff_eq]
  refine ⟨hproject, ?_⟩
  split
  · rename_i hpos
    rw [if_pos hpos] at hid
    rw [Bool.and_eq_true, beq_iff_eq, beq_iff_eq]
    exact hid
  · rename_i hpos
    rw [if_neg hpos] at hid
    exact beq_iff_eq.mpr hid

theorem GateInv.search {es : List GateEvent} {g : GateServer ε} (hI : GateInv es g)
    (hop : ∀ c ∈ g.unmarked, seen env g.server project query limit asOfEpoch c.1 = false) :
    returnsHeld es g (.search env project query limit includeStale asOfEpoch now) = false := by
  simp only [returnsHeld]
  split
  · rename_i hits hok
    rw [List.any_eq_false]
    intro h hmem hheld
    obtain ⟨hrow, hseen, hretired, hpending⟩ := searchHits_seen hok hmem
    rcases hI _ hrow hheld with hs | hs | ⟨-, hm⟩
    · exact hpending hs
    · exact hretired hs
    · rw [hop _ hm] at hseen
      cases hseen
  · rfl

end Searches

/-- In a run whose steps all respect the maps before their mark no search returns a held map. -/
theorem review_gate {ε : Type} (ix : Indexer) (scan : ScanOrder ExplorationRow) (enabled : Bool)
    (ops : List (GateOp ε))
    (hkept : Lts.Always (Lts.recorded (stepGate ix scan enabled) (gateEvents ix scan enabled))
      ([], .empty) (fun _ x op => GateKept ix enabled x.2 op) ops) :
    Lts.Always (Lts.recorded (stepGate ix scan enabled) (gateEvents ix scan enabled))
      ([], .empty) (fun _ x op => returnsHeld x.1 x.2 op = false) ops := by
  induction ops with
  | nil => exact trivial
  | cons op ops ih =>
    refine ⟨ih hkept.1, ?_⟩
    have hinv := Lts.recorded_guarded (G := fun _ x op => GateKept ix enabled x.2 op)
      (I := fun es s => GateInv es s) (by intro x hx; cases hx)
      (fun _ _ _ _ hI hop => stepGate_inv hI hop) ops hkept.1
    cases op with
    | search env project query limit includeStale asOfEpoch now =>
      exact hinv.search hkept.2
    | _ => rfl

/-- A map that is persisted for review, and the file it is anchored to. -/
def heldMap : List (GateOp Nat) :=
  [.insert sampleMapRequest "u" .quorum "e1" 5, .stream (streamOf "p" "/p" [("m.rs", "a")]) 3]

def searchMap (includeStale : Bool) (asOfEpoch : Int) : GateOp Nat :=
  .search findsAll "p" "where is m" 5 includeStale asOfEpoch 9

/-- The map is marked, embedded, searched, approved and searched again. -/
def gatedMap : List (GateOp Nat) :=
  [searchMap true 0, .review "e1" true 8, searchMap true 1, .embed 1 (some 3),
    .mark (1, "e1") false] ++ heldMap

theorem review_gate_approved :
    let system := Lts.recorded (stepGate sampleIndexer .rowid true)
      (gateEvents sampleIndexer .rowid true)
    Lts.Always system ([], .empty) (fun _ x op => returnsHeld x.1 x.2 op = false) gatedMap ∧
      (searchExplorationsCore findsAll (Lts.after system ([], .empty) gatedMap).2.server "p"
        "where is m" 5 true 0 9).map (List.map ExplorationHit.explorationId) = .ok ["e1"] :=
  ⟨review_gate sampleIndexer .rowid true gatedMap (by decide +kernel), by decide +kernel⟩

/-- The mark fails; or an admin makes the map stale before it; or the map supersedes an embedded
one, and a search at the present epoch finds that before the mark. -/
theorem review_gate_passed :
    let system := Lts.recorded (stepGate sampleIndexer .rowid true)
      (gateEvents sampleIndexer .rowid true)
    (¬ Lts.Always system ([], .empty) (fun _ x op => returnsHeld x.1 x.2 op = false)
      ([searchMap false 0, .embed 1 (some 3), .mark (1, "e1") true] ++ heldMap)) ∧
    (¬ Lts.Always system ([], .empty) (fun _ x op => returnsHeld x.1 x.2 op = false)
      ([searchMap true 0, .embed 1 (some 3), .mark (1, "e1") false,
        .invalidate "e1" "" .stale 6] ++ heldMap)) ∧
    ¬ Lts.Always system ([], .empty) (fun _ x op => returnsHeld x.1 x.2 op = false)
      [searchMap false 1, .insert sampleMapRequest "u" .quorum "e1" 5, .embed 1 (some 3),
        .insert sampleMapRequest "admin" .approved "e0" 4,
        .stream (streamOf "p" "/p" [("m.rs", "a")]) 3] := by
  intro system
  refine ⟨?_, ?_, ?_⟩
  · decide +kernel
  · decide +kernel
  · decide +kernel

end Arags
