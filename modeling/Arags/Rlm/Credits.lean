import Arags.Rlm.LeaseSafety
import Arags.Rlm.Publication

/-!
# Arags.Rlm.Credits

What a volunteer's node says it was made from. `handle_complete_rlm_job` loads the job, then
completes it; the node has the hashes of the payload that was loaded, and of the quorum's node none.
The claims, cancellations, re-enqueues and payload updates of a cascade are steps of their own.

* `stepDesk`    — the queue, the requests that have loaded their job, and the quorum's candidates.
* `credits`     — the accepted completions, each with the claim it completes and its node.
* `Handed`      — a claimed row has the hashes that were handed out with it; `handed_step`.
* `credited_as_handed` — in runs that keep the hashes of claimed rows, nodes have the hashes that
  were handed out.
-/

namespace Arags

open Sql

structure CompletionRequest where
  jobId : Int
  volunteer : String
  isAdmin : Bool
  generation : Int
  summaryText : String
  model : Option String
  templateVersion : Option String
  tokenCount : Int

/-- A request that has read its job. -/
structure OpenCompletion where
  request : Nat
  req : CompletionRequest
  job : RlmJob

/-- A completion staged for the quorum, with the claim it completes. -/
structure CandidateAnswer where
  request : Nat
  req : CompletionRequest
  job : RlmJob
  claim : Option Grant

structure Desk where
  events : List QueueEvent
  db : RlmDb
  loaded : List OpenCompletion
  candidates : List CandidateAnswer

def Desk.empty : Desk := ⟨[], RlmDb.empty, [], []⟩

inductive DeskOp where
  | queue (op : QueueOp)
  /-- `get_rlm_job`. -/
  | load (request : Nat) (req : CompletionRequest)
  | complete (request : Nat) (scan : ScanOrder RlmNode) (freshNodeId : String) (now now' : Int)
  /-- The quorum has chosen this candidate. -/
  | publish (request : Nat) (scan : ScanOrder RlmNode) (freshNodeId : String) (now : Int)
  /-- Other requests mark, review and publish nodes. -/
  | nodes (t : Table RlmNode)

/-- Jobs are completed by requests only. -/
def QueueOp.completes : QueueOp → Bool
  | .complete .. | .completeWithNode .. => true
  | _ => false

variable (n : Nat) (env : DecisionEnv)

/-- `!(quorum_n > 1 && !is_admin)`. -/
def CompletionRequest.direct (req : CompletionRequest) : Bool :=
  !(decide (1 < max n 1) && !req.isAdmin)

def OpenCompletion.node (l : OpenCompletion) : NewRlmNode :=
  completionNode env l.job l.req.volunteer l.req.summaryText l.req.model l.req.templateVersion
    l.req.tokenCount

def CandidateAnswer.publish (a : CandidateAnswer) (scan : ScanOrder RlmNode) (t : Table RlmNode)
    (freshNodeId : String) (now : Int) : Except String (Table RlmNode × Int × String) :=
  publishRlmNodeForSubject scan t a.job.project a.job.level a.job.subject a.req.summaryText []
    (some a.req.volunteer) none none "quorum" freshNodeId now

def Desk.step (s : Desk) (op : QueueOp) : Desk :=
  { s with events := Arags.events s.db op ++ s.events, db := Arags.step s.db op }

def stepDesk (s : Desk) : DeskOp → Desk
  | .queue op => if op.completes then s else s.step op
  | .load request req =>
    match s.db.rlmJobs.get? req.jobId with
    | some job => { s with loaded := ⟨request, req, job⟩ :: s.loaded }
    | none => s
  | .complete request scan freshNodeId now now' =>
    match s.loaded.find? (·.request == request) with
    | none => s
    | some l =>
      let rest := { s with loaded := s.loaded.eraseP (·.request == request) }
      if l.req.direct n then
        rest.step (.completeWithNode scan l.req.jobId l.req.volunteer l.req.generation (l.node env)
          freshNodeId now now')
      else if (completeRlmJob s.db l.req.jobId l.req.volunteer l.req.generation now).2 then
        let candidate : CandidateAnswer := ⟨request, l.req, l.job, lastGrant l.req.jobId s.events⟩
        { rest with candidates := candidate :: s.candidates }.step
          (.complete l.req.jobId l.req.volunteer l.req.generation now)
      else rest
  | .publish request scan freshNodeId now =>
    match s.candidates.find? (·.request == request) with
    | none => s
    | some a =>
      match a.publish scan s.db.rlmNodes freshNodeId now with
      | .ok (nodes, _, _) => { s with
          db := { s.db with rlmNodes := nodes }
          candidates := s.candidates.eraseP (·.request == request) }
      | .error _ => s
  | .nodes t => { s with db := { s.db with rlmNodes := t } }

/-- What a cascade does to the database, it does in steps of its own. -/
theorem cascade_desk (scan : ScanOrder RlmNode) (jobScan : ScanOrder RlmJob) (s : Desk)
    (bufferId : Int) (project : String) (childLevel : Int) (childSubject : String)
    (tolerance : Rat) (quorumN : Nat) (now : Int) :
    ∃ ops, (Lts.after (stepDesk n env) s ops).db =
      (cascadeRlm env.codec scan jobScan s.db bufferId project childLevel childSubject tolerance
        quorumN now).1 := by
  rw [cascadeRlm_eq]
  cases dueParent scan s.db.rlmNodes project childLevel childSubject tolerance with
  | none => exact ⟨[], rfl⟩
  | some due =>
    obtain ⟨parent, children⟩ := due
    dsimp only
    generalize markParent s.db.rlmNodes _ bufferId parent.1 parent.2 = marked
    unfold rebuildParent
    dsimp only
    split
    · split
      · exact ⟨[.nodes marked], rfl⟩
      · exact ⟨[.queue (.updatePayload project parent.1 parent.2 _ now),
          .queue (.cancel project [parent] now), .nodes marked], rfl⟩
    · exact ⟨[.queue (.enqueue jobScan _ [] now), .nodes marked], rfl⟩

/-! ## Credits -/

/-- An accepted completion: its author, the claim it completes, and the node it left. -/
structure Credit where
  volunteer : String
  claim : Option Grant
  node : Option RlmNode

def credits (s : Desk) : DeskOp → List Credit
  | .complete request scan freshNodeId now now' =>
    match s.loaded.find? (·.request == request) with
    | none => []
    | some l =>
      if l.req.direct n then
        match completeRlmJobWithNode scan s.db l.req.jobId l.req.volunteer l.req.generation
            (l.node env) freshNodeId now now' with
        | (db, .ok (some (id, _))) =>
          [⟨l.req.volunteer, lastGrant l.req.jobId s.events, db.rlmNodes.get? id⟩]
        | _ => []
      else []
  | .publish request scan freshNodeId now =>
    match s.candidates.find? (·.request == request) with
    | none => []
    | some a =>
      match a.publish scan s.db.rlmNodes freshNodeId now with
      | .ok (nodes, id, _) => [⟨a.req.volunteer, a.claim, nodes.get? id⟩]
      | .error _ => []
  | _ => []

/-- The node has the hashes of the payload that the claim handed to its author. -/
def Credit.AsHanded (c : Credit) : Prop :=
  ∃ g, c.claim = some g ∧ g.volunteer = c.volunteer ∧ ∃ node, c.node = some node ∧
    node.sourceHashes = payloadHashes env.codec g.job.payload

def desk (ops : List DeskOp) : List Credit × Desk :=
  Lts.after (Lts.recorded (stepDesk n env) (credits n env)) ([], Desk.empty) ops

/-- A payload update leaves the hashes of claimed rows as they are, a request completes a row whose
hashes are those it has loaded, and the quorum publishes answers to payloads without hashes. -/
def KeepsHanded (s : Desk) : DeskOp → Prop
  | .queue (.updatePayload project level subject payload _) =>
    ∀ x ∈ s.db.rlmJobs.rows, x.2.jobKey = rlmJobKey project level subject →
      x.2.status = .claimed →
      payloadHashes env.codec payload = payloadHashes env.codec x.2.payload
  | .complete request _ _ now _ => ∀ l ∈ s.loaded.find? (·.request == request),
    l.req.direct n = true → ∀ r ∈ probeClaimed s.db.rlmJobs l.req.jobId,
      completionValid r l.req.volunteer l.req.generation now = true →
      payloadHashes env.codec l.job.payload = payloadHashes env.codec r.payload
  | .publish request _ _ _ => ∀ a ∈ s.candidates.find? (·.request == request),
    ∀ g ∈ a.claim, payloadHashes env.codec g.job.payload = []
  | _ => True

instance decidableKeepsHanded (s : Desk) : ∀ op, Decidable (KeepsHanded n env s op)
  | .queue (.updatePayload project level subject payload _) => inferInstanceAs (Decidable
      (∀ x ∈ s.db.rlmJobs.rows, x.2.jobKey = rlmJobKey project level subject →
        x.2.status = .claimed →
        payloadHashes env.codec payload = payloadHashes env.codec x.2.payload))
  | .complete request _ _ now _ => inferInstanceAs (Decidable
      (∀ l ∈ s.loaded.find? (·.request == request), l.req.direct n = true →
        ∀ r ∈ probeClaimed s.db.rlmJobs l.req.jobId,
          completionValid r l.req.volunteer l.req.generation now = true →
          payloadHashes env.codec l.job.payload = payloadHashes env.codec r.payload))
  | .publish request _ _ _ => inferInstanceAs (Decidable
      (∀ a ∈ s.candidates.find? (·.request == request), ∀ g ∈ a.claim,
        payloadHashes env.codec g.job.payload = []))
  | .queue (.enqueue ..) | .queue (.claim ..) | .queue (.complete ..)
  | .queue (.completeWithNode ..) | .queue (.fail ..) | .queue (.cancel ..)
  | .queue (.requeue ..) | .queue (.trust ..) | .load .. | .nodes _ =>
    inferInstanceAs (Decidable True)

/-! ## Claimed rows -/

/-- A claimed row has the hashes that were handed out with it. -/
def Handed (es : List QueueEvent) (db : RlmDb) : Prop :=
  ∀ x ∈ db.rlmJobs.rows, x.2.status = .claimed → ∀ g, lastGrant x.1 es = some g →
    payloadHashes env.codec g.job.payload = payloadHashes env.codec x.2.payload

/-- Rows that are claimed afterwards were not touched. -/
def KeepsClaimed (t t' : Table RlmJob) : Prop :=
  ∀ x ∈ t'.rows, x.2.status = .claimed → x ∈ t.rows

theorem keepsClaimed_update {t : Table RlmJob} {p : Int → RlmJob → Bool}
    {f : Int → RlmJob → RlmJob} (hf : ∀ i r, (f i r).status ≠ .claimed) :
    KeepsClaimed t (t.update p f) := by
  rintro ⟨i, r'⟩ hx hc
  obtain ⟨r, hr, rfl⟩ := Table.mem_update.mp hx
  dsimp only at hc ⊢
  split at hc
  · exact absurd hc (hf i r)
  · rename_i hp
    rwa [if_neg hp]

theorem cancel_keepsClaimed (db : RlmDb) (project : String) (subjects : List (Int × String))
    (now : Int) :
    KeepsClaimed db.rlmJobs (cancelRlmJobsForSubjects db project subjects now).rlmJobs := by
  unfold cancelRlmJobsForSubjects
  induction subjects generalizing db with
  | nil => exact fun x hx _ => hx
  | cons subject subjects ih =>
    intro x hx hc
    have hone : KeepsClaimed db.rlmJobs (cancelSubject db project subject now).rlmJobs :=
      keepsClaimed_update fun i r h => nomatch h
    exact hone x (ih _ x hx hc) hc

variable {env} {es : List QueueEvent} {db : RlmDb}

theorem Handed.keeps {db' : RlmDb} {new : List QueueEvent} (h : Handed env es db)
    (hk : KeepsClaimed db.rlmJobs db'.rlmJobs)
    (hlast : ∀ i, lastGrant i (new ++ es) = lastGrant i es) : Handed env (new ++ es) db' := by
  intro x hx hc g hg
  rw [hlast] at hg
  exact h x (hk x hx hc) hc g hg

theorem Handed.inserts {db' : RlmDb} {scan : ScanOrder RlmJob} {job : NewRlmJob}
    {exclude : List String} {now group generation : Int} {k : Nat} {ids : List Int}
    (h : Handed env es db) (hins : Inserts db db' scan job exclude now group generation k)
    (hids : ∀ i, i ∈ ids ↔ ∃ j < k, i = (otherRows db.rlmJobs job).maxId + 1 + j) :
    Handed env (ids.map .inserted ++ es) db' := by
  rintro ⟨i, r⟩ hx hc g hg
  rcases (hins.rows i r).mp hx with hr | ⟨j, -, -, rfl⟩
  · obtain ⟨hm, -, hne⟩ := Inserts.of_other hr
    have hi : i ∉ ids := by
      intro hi
      obtain ⟨j, -, he⟩ := (hids i).mp hi
      exact hne j he
    rw [lastGrant_inserted_of_not_mem hi] at hg
    exact h (i, r) hm hc g hg
  · simp only [slotRow] at hc
    cases hc

theorem Handed.grants {db' : RlmDb} {g : Grant} {r : RlmJob} {now : Int} (h : Handed env es db)
    (hr : (g.job.id, r) ∈ db.rlmJobs.rows) (hpay : g.job.payload = r.payload)
    (hdb : db'.rlmJobs = markClaimed db.rlmJobs g.job.id g.volunteer now g.leaseExpiresAt) :
    Handed env (.granted g :: es) db' := by
  rintro ⟨i, r'⟩ hx hc g' hg'
  rw [hdb, mem_markClaimed] at hx
  obtain ⟨r₀, hr₀, rfl⟩ := hx
  by_cases hi : g.job.id = i
  · subst hi
    obtain rfl := Table.eq_of_mem hr hr₀
    simp only [lastGrant, if_true, Option.some.injEq] at hg'
    subst hg'
    rw [hpay]
    split <;> rfl
  · simp only [lastGrant, if_neg hi] at hg'
    rw [if_neg fun hcond => hi hcond.1.symm] at hc ⊢
    exact h (i, r₀) hr₀ hc g' hg'

/-- One operation of the queue. -/
theorem handed_step (h : Handed env es db) (op : QueueOp)
    (hop : ∀ project level subject payload now, op = .updatePayload project level subject payload
      now → ∀ x ∈ db.rlmJobs.rows, x.2.jobKey = rlmJobKey project level subject →
        x.2.status = .claimed →
        payloadHashes env.codec payload = payloadHashes env.codec x.2.payload) :
    Handed env (events db op ++ es) (step db op) := by
  have hquiet : ∀ {db' : RlmDb}, KeepsClaimed db.rlmJobs db'.rlmJobs →
      Handed env ([] ++ es) db' := fun hk => h.keeps hk fun _ => rfl
  cases op with
  | enqueue scan job exclude now =>
    rcases enqueueRlmJob_cases db scan job exclude now with ⟨hl, hdb⟩ | ⟨hl, group, gen, k, hins⟩
    · have hnone : insertedIds scan db job exclude now = [] := by rw [insertedIds, hl, if_pos rfl]
      simp only [events, hnone, List.map_nil, step, hdb]
      exact h
    · exact h.inserts hins (insertedIds_mem hl hins)
  | claim scan v leaseMs maxLevel limit now =>
    rcases claimRlmJob_cases db scan v leaseMs maxLevel limit now with hn | ⟨i, r, hr, hc, hcl⟩
    · simp only [events, step, hn]
      exact h
    · simp only [events, step, hcl]
      exact h.grants hr rfl rfl
  | complete jobId worker gen now =>
    rcases completeRlmJob_cases db jobId worker gen now with hn | ⟨r, hr, hs, hv, hc⟩
    · simp only [events, step, hn, Bool.false_eq_true, if_false]
      exact h
    · simp only [events, step, hc, if_true]
      refine h.keeps (keepsClaimed_update fun _ _ hc => ?_) fun _ => rfl
      cases hc
  | completeWithNode scan jobId worker gen input nodeId now now' =>
    rcases completeRlmJobWithNode_cases db scan jobId worker gen input nodeId now now' with
      ⟨o, ho, hne⟩ | ⟨r, nodes, pair, hr, hs, hv, -, hc⟩
    · have hnone : events db (.completeWithNode scan jobId worker gen input nodeId now now') =
          [] := by
        cases o with
        | error e => simp only [events, ho]
        | ok p =>
          cases p with
          | none => simp only [events, ho]
          | some pair => exact absurd rfl (hne pair)
      rw [hnone]
      simp only [step, ho]
      exact h
    · simp only [events, step, hc]
      refine h.keeps (keepsClaimed_update fun _ _ hc => ?_) fun _ => rfl
      cases hc
  | fail jobId worker error maxAttempts now =>
    refine hquiet (keepsClaimed_update fun _ _ hc => ?_)
    dsimp only at hc
    rcases failVerdict_status _ _ with hv | hv <;> rw [hv] at hc <;> cases hc
  | cancel project subjects now => exact hquiet (cancel_keepsClaimed db project subjects now)
  | requeue now =>
    refine hquiet (keepsClaimed_update fun _ _ hc => ?_)
    cases hc
  | updatePayload project level subject payload now =>
    rintro ⟨i, r'⟩ hx hc g hg
    obtain ⟨r, hr, rfl⟩ := Table.mem_update.mp hx
    dsimp only at hc ⊢
    split at hc
    · rename_i hp
      rw [Bool.and_eq_true, beq_iff_eq] at hp
      rw [if_pos (by simp [hp])]
      dsimp only at hc ⊢
      rw [h (i, r) hr hc g hg, hop _ _ _ _ _ rfl (i, r) hr hp.1 hc]
    · rename_i hp
      rw [if_neg hp]
      exact h (i, r) hr hc g hg
  | trust ledger => exact hquiet fun x hx _ => hx

/-! ## The desk -/

structure DeskInv (env : DecisionEnv) (s : Desk) : Prop where
  lease : LeaseInv s.events s.db
  handed : Handed env s.events s.db
  candidates : ∀ a ∈ s.candidates, ∃ g, a.claim = some g ∧ g.volunteer = a.req.volunteer

theorem DeskInv.empty : DeskInv env Desk.empty where
  lease := .empty
  handed _ hx := nomatch hx
  candidates _ ha := nomatch ha

/-- A valid completion is by the volunteer of the last claim. -/
theorem LeaseInv.claim_of_valid (h : LeaseInv es db) {jobId : Int} {r : RlmJob} {worker : String}
    {gen now : Int} (hr : (jobId, r) ∈ db.rlmJobs.rows) (hs : r.status = .claimed)
    (hv : completionValid r worker gen now = true) :
    ∃ g, lastGrant jobId es = some g ∧ g.volunteer = worker := by
  obtain ⟨g, hg, hby, -⟩ := h.held jobId r hr hs
  rw [(completionValid_iff.mp hv).1, Option.some.injEq] at hby
  exact ⟨g, hg, hby.symm⟩

namespace DeskInv

variable {n} {s : Desk}

/-- The queue makes a step. -/
theorem queue {s' : Desk} (h : DeskInv env s) (op : QueueOp)
    (hop : ∀ project level subject payload now, op = .updatePayload project level subject payload
      now → ∀ x ∈ s.db.rlmJobs.rows, x.2.jobKey = rlmJobKey project level subject →
        x.2.status = .claimed →
        payloadHashes env.codec payload = payloadHashes env.codec x.2.payload)
    (hevents : s'.events = events s.db op ++ s.events) (hdb : s'.db = Arags.step s.db op)
    (hc : ∀ a ∈ s'.candidates, ∃ g, a.claim = some g ∧ g.volunteer = a.req.volunteer) :
    DeskInv env s' := by
  refine ⟨?_, ?_, hc⟩
  · rw [hevents, hdb]
    exact h.lease.move (step_move s.db op)
  · rw [hevents, hdb]
    exact handed_step h.handed op hop

theorem step (h : DeskInv env s) (op : DeskOp) (hop : KeepsHanded n env s op) :
    DeskInv env (stepDesk n env s op) := by
  cases op with
  | queue op =>
    unfold stepDesk
    dsimp only
    split
    · exact h
    · refine h.queue op ?_ rfl rfl h.candidates
      rintro project level subject payload now rfl
      exact hop
  | load request req =>
    unfold stepDesk
    dsimp only
    split
    · exact ⟨h.lease, h.handed, h.candidates⟩
    · exact h
  | complete request scan freshNodeId now now' =>
    unfold stepDesk
    dsimp only
    split
    · exact h
    · rename_i l hl
      split
      · refine h.queue _ ?_ rfl rfl h.candidates
        exact fun _ _ _ _ _ he => nomatch he
      · split
        · rename_i haccepted
          refine h.queue _ ?_ rfl rfl (List.forall_mem_cons.mpr ⟨?_, h.candidates⟩)
          · exact fun _ _ _ _ _ he => nomatch he
          rcases completeRlmJob_cases s.db l.req.jobId l.req.volunteer l.req.generation now with
            hn | ⟨r, hr, hs, hv, -⟩
          · rw [hn] at haccepted
            cases haccepted
          · exact h.lease.claim_of_valid hr hs hv
        · exact ⟨h.lease, h.handed, h.candidates⟩
  | publish request scan freshNodeId now =>
    unfold stepDesk
    dsimp only
    split
    · exact h
    · split
      · refine ⟨⟨h.lease.held, h.lease.once, h.lease.settled⟩, h.handed, fun a ha => ?_⟩
        exact h.candidates a (List.mem_of_mem_eraseP ha)
      · exact h
  | nodes t => exact ⟨⟨h.lease.held, h.lease.once, h.lease.settled⟩, h.handed, h.candidates⟩

/-- What a step credits is what was handed out. -/
theorem credits (h : DeskInv env s) (op : DeskOp) (hop : KeepsHanded n env s op) :
    ∀ c ∈ credits n env s op, c.AsHanded env := by
  intro c hc
  unfold Arags.credits at hc
  split at hc
  · rename_i request scan freshNodeId now now'
    split at hc
    · cases hc
    rename_i l hl
    split at hc
    · rename_i hdirect
      rcases completeRlmJobWithNode_cases s.db scan l.req.jobId l.req.volunteer l.req.generation
          (l.node env) freshNodeId now now' with
        ⟨o, ho, hne⟩ | ⟨r, nodes, pair, hr, hs, hv, hu, hok⟩
      · rw [ho] at hc
        split at hc
        · rename_i heq
          rw [Prod.mk.injEq] at heq
          exact absurd heq.2 (hne _)
        · cases hc
      · rw [hok] at hc
        obtain rfl := List.mem_singleton.mp hc
        obtain ⟨g, hg, hvol⟩ := h.lease.claim_of_valid hr hs hv
        obtain ⟨id, name⟩ := pair
        obtain ⟨-, node, hnode⟩ := upsertNodeStmt_ok hu
        have hmem := (Table.mem_select.mp
          (hnode.live ▸ List.mem_singleton_self _ : (id, node) ∈ liveNodes ..)).1
        refine ⟨g, hg, hvol, node, Table.get?_eq_some.mpr hmem, ?_⟩
        have hloaded := hop l hl hdirect r (probeClaimed_eq_some.mpr ⟨hr, hs⟩) hv
        rw [hnode.sourceHashes, h.handed (l.req.jobId, r) hr hs g hg]
        exact hloaded
    · cases hc
  · rename_i request scan freshNodeId now
    split at hc
    · cases hc
    rename_i a ha
    split at hc
    · rename_i nodes id _ hpub
      obtain rfl := List.mem_singleton.mp hc
      obtain ⟨g, hg, hvol⟩ := h.candidates a (List.mem_of_find?_eq_some ha)
      obtain ⟨node, hlive, -, -, hhashes⟩ := publishRlmNodeForSubject_ok hpub
      have hmem := (Table.mem_select.mp
        (hlive ▸ List.mem_singleton_self _ : (id, node) ∈ liveNodes ..)).1
      refine ⟨g, hg, hvol, node, Table.get?_eq_some.mpr hmem, ?_⟩
      rw [hhashes, hop a ha g hg]
    · cases hc
  · cases hc

end DeskInv

variable (env)

/-- In runs that keep what was handed out, every accepted completion is credited with it. -/
theorem credited_as_handed (ops : List DeskOp)
    (hops : Lts.Always (Lts.recorded (stepDesk n env) (credits n env)) ([], Desk.empty)
      (fun _ s op => KeepsHanded n env s.2 op) ops) :
    ∀ c ∈ (desk n env ops).1, c.AsHanded env := by
  have hinv : DeskInv env (desk n env ops).2 ∧ ∀ c ∈ (desk n env ops).1, c.AsHanded env := by
    refine Lts.recorded_guarded (I := fun cs s => DeskInv env s ∧ ∀ c ∈ cs, c.AsHanded env)
      ⟨.empty, fun _ h => nomatch h⟩ (fun _ cs s op hI hG => ?_) ops hops
    refine ⟨hI.1.step op hG, fun c hc => ?_⟩
    rcases List.mem_append.mp hc with hnew | hold
    · exact hI.1.credits op hG c hnew
    · exact hI.2 c hold
  exact hinv.2

def themeWork (hashes : List String) (child : Int) : NewRlmJob :=
  ⟨some 1, "p", 2, "src", payloadJson (themePayload hashes child), PRIORITY_CASCADE, 1⟩

def annAnswers : CompletionRequest := ⟨1, "ann", false, 0, "reads files", none, none, 0⟩

/-- The theme is enqueued, claimed and answered. -/
theorem credited_as_handed_once :
    let run := desk 1 sampleEnv
      [ .complete 1 .rowid "n1" 4 5,
        .load 1 annAnswers,
        .queue (.claim .rowid "ann" 60000 none 3 3),
        .queue (.enqueue .rowid (themeWork ["h1", "h2", "h3", "h4"] 1) [] 2) ]
    run.1.length = 1 ∧ ∀ c ∈ run.1, c.AsHanded sampleEnv :=
  ⟨by decide +kernel, credited_as_handed 1 sampleEnv _ (by decide +kernel)⟩

/-- The theme is claimed after the cascade's cancellation and before its payload update. -/
def claimedBetween : List DeskOp :=
  [ .complete 1 .rowid "n1" 6 7,
    .load 1 { annAnswers with generation := 1 },
    .queue (.updatePayload "p" 2 "src" (payloadJson (themePayload ["h1", "h2", "h3", "h5"] 3)) 5),
    .queue (.claim .rowid "ann" 60000 none 3 4),
    .queue (.cancel "p" [(2, "src")] 3),
    .queue (.enqueue .rowid (themeWork ["h1", "h2", "h3", "h4"] 1) [] 2) ]

theorem credited_as_handed_between :
    (desk 1 sampleEnv claimedBetween).1.map (fun c =>
      (c.claim.map fun g => payloadHashes themeCodec g.job.payload,
        c.node.map fun node => node.sourceHashes)) =
      [(some ["h1", "h2", "h3", "h4"], some ["h1", "h2", "h3", "h5"])] ∧
    ¬ ∀ c ∈ (desk 1 sampleEnv claimedBetween).1, c.AsHanded sampleEnv := by
  have hrun : (desk 1 sampleEnv claimedBetween).1.map (fun c =>
      (c.claim.map fun g => payloadHashes themeCodec g.job.payload,
        c.node.map fun node => node.sourceHashes)) =
      [(some ["h1", "h2", "h3", "h4"], some ["h1", "h2", "h3", "h5"])] := by decide +kernel
  refine ⟨hrun, fun h => ?_⟩
  obtain ⟨c, hc, heq⟩ := List.mem_map.mp (hrun ▸ List.mem_singleton_self _)
  obtain ⟨g, hg, -, node, hnode, hhashes⟩ := h c hc
  simp only [hg, hnode, Option.map_some, Prod.mk.injEq, Option.some.injEq] at heq
  have hcodec : payloadHashes themeCodec g.job.payload = node.sourceHashes := hhashes.symm
  rw [heq.1, heq.2] at hcodec
  exact absurd hcodec (by decide)

end Arags
