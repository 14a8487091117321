import Arags.Rlm.Volunteer

/-!
# Arags.Rlm.ClaimedWork

What the server accepts from its workers, and the claims that it was made from, in every run of
workers, messages and server.

* `Backed` — all work in anyone's hands is from a claim; `backed_step` is the one step lemma.
* `backed_granted`, `backed_latest` — it is from a claim of the user, and where the workers of the
  user take turns from the last one.
* `accepted_from_claim` — the same of what is accepted.
-/

namespace Arags

open Sql

variable (env : VolunteerEnv) (n : Nat) (denv : DecisionEnv)

/-! ## The events of the server -/

section Desk

variable {n denv} {s : Desk}

theorem leaseInv_stepDesk (h : LeaseInv s.events s.db) (op : DeskOp) :
    LeaseInv (stepDesk n denv s op).events (stepDesk n denv s op).db := by
  have hstep : ∀ t : Desk, t.events = s.events → t.db = s.db → ∀ q : QueueOp,
      LeaseInv (t.step q).events (t.step q).db := by
    intro t he hd q
    unfold Desk.step
    dsimp only
    rw [he, hd]
    exact h.move (step_move s.db q)
  unfold stepDesk
  split
  · split
    · exact h
    · exact hstep s rfl rfl _
  · split <;> exact h
  · dsimp only
    split
    · exact h
    · split
      · exact hstep _ rfl rfl _
      · split
        · exact hstep _ rfl rfl _
        · exact h
  · dsimp only
    split
    · exact h
    · split
      · exact ⟨h.held, h.once, h.settled⟩
      · exact h
  · exact ⟨h.held, h.once, h.settled⟩

/-- Only a claim grants. -/
theorem grants_events {db : RlmDb} {q : QueueOp}
    (hq : ∀ scan v leaseMs maxLevel limit now, q ≠ .claim scan v leaseMs maxLevel limit now)
    (es : List QueueEvent) : grants (events db q ++ es) = grants es := by
  cases q with
  | enqueue scan job exclude now => exact grants_inserted _ es
  | claim scan v leaseMs maxLevel limit now => exact (hq _ _ _ _ _ _ rfl).elim
  | complete jobId worker gen now =>
    simp only [events]
    split <;> rfl
  | completeWithNode scan jobId worker gen input nodeId now now' =>
    simp only [events]
    split <;> rfl
  | _ => rfl

theorem grants_stepDesk {op : DeskOp} (hop : op.isAside = true ∨ ∃ request scan f now now',
    op = .complete request scan f now now') :
    grants (stepDesk n denv s op).events = grants s.events := by
  unfold stepDesk
  split
  · rename_i q
    split
    · rfl
    · refine grants_events ?_ s.events
      rintro scan v leaseMs maxLevel limit now rfl
      rcases hop with h | ⟨_, _, _, _, _, h⟩
      · cases h
      · cases h
  · split <;> rfl
  · dsimp only
    split
    · rfl
    · split
      · exact grants_events (by simp) s.events
      · split
        · exact grants_events (by simp) s.events
        · rfl
  · dsimp only
    split
    · rfl
    · split <;> rfl
  · rfl

/-- Requests are loaded one by one. -/
theorem loaded_stepDesk (op : DeskOp) : ∀ l ∈ (stepDesk n denv s op).loaded, l ∈ s.loaded ∨
    ∃ request job, op = .load request l.req ∧ l = ⟨request, l.req, job⟩ := by
  intro l hl
  unfold stepDesk at hl
  split at hl
  · split at hl <;> exact .inl hl
  · split at hl
    · rename_i job _
      rcases List.mem_cons.mp hl with rfl | hl
      · exact .inr ⟨_, _, rfl, rfl⟩
      · exact .inl hl
    · exact .inl hl
  · dsimp only at hl
    split at hl
    · exact .inl hl
    · split at hl
      · exact .inl (List.mem_of_mem_eraseP hl)
      · split at hl
        · exact .inl (List.mem_of_mem_eraseP hl)
        · exact .inl (List.mem_of_mem_eraseP hl)
  · dsimp only at hl
    split at hl
    · exact .inl hl
    · split at hl <;> exact .inl hl
  · exact .inl hl

/-- A completion that changes the events is one that is accepted. -/
theorem complete_accepted {request : Nat} {scan : ScanOrder RlmNode} {f : String} {now now' : Int}
    (h : (stepDesk n denv s (.complete request scan f now now')).events ≠ s.events) :
    ∃ l, s.loaded.find? (·.request == request) = some l ∧
      ∃ r, (l.req.jobId, r) ∈ s.db.rlmJobs.rows ∧ r.status = .claimed ∧
        completionValid r l.req.volunteer l.req.generation now = true := by
  unfold stepDesk at h
  dsimp only at h
  split at h
  · exact absurd rfl h
  · rename_i l hl
    refine ⟨l, hl, ?_⟩
    split at h
    · rcases completeRlmJobWithNode_cases s.db scan l.req.jobId l.req.volunteer l.req.generation
          (l.node denv) f now now' with ⟨o, ho, hne⟩ | ⟨r, nodes, pair, hr, hs, hv, -, -⟩
      · refine absurd ?_ h
        simp only [Desk.step, events, ho]
        rfl
      · exact ⟨r, hr, hs, hv⟩
    · rcases completeRlmJob_cases s.db l.req.jobId l.req.volunteer l.req.generation now with
        hn | ⟨r, hr, hs, hv, -⟩
      · rw [hn, if_neg (by simp)] at h
        exact absurd rfl h
      · exact ⟨r, hr, hs, hv⟩

end Desk

/-! ## Work and the claims it is from -/

/-- The submission was made from what the claim handed out. -/
def MadeFrom (g : Grant) (sub : CompleteRlmJobRequest) : Prop :=
  ∃ call session, process env call g.job session = .ok sub

def Worker.Backed (P : String → Grant → Prop) (w : Worker) : Prop :=
  match w.phase with
  | .idle | .waiting _ => True
  | .working job => ∃ g, P w.user g ∧ g.job = job
  | .signed sub => ∃ g, P w.user g ∧ MadeFrom env g sub

def SentSubmission.Backed (P : String → Grant → Prop) (m : SentSubmission) : Prop :=
  ∃ g, P m.user g ∧ MadeFrom env g m.sub

/-- The request that was read came from such a submission. -/
def OpenCompletion.Backed (P : String → Grant → Prop) (l : OpenCompletion) : Prop :=
  ∃ m : SentSubmission, m.Backed env P ∧ l.req = m.completion

/-- All work in anyone's hands is from a claim for which `P` holds, as one of the user's. -/
structure Backed (P : String → Grant → Prop) (s : Volunteers) : Prop where
  workers : ∀ w ∈ s.workers, w.Backed env P
  sent : ∀ m ∈ s.sent, m.Backed env P
  loaded : ∀ l ∈ s.desk.loaded, l.Backed env P

def WorkerPhase.holds : WorkerPhase → Bool
  | .working _ | .signed _ => true
  | _ => false

/-- Some work of the user is under way. -/
def Volunteers.busy (s : Volunteers) (user : String) : Bool :=
  s.workers.any (fun w => w.user == user && w.phase.holds) ||
    s.sent.any (fun m => m.user == user) ||
    s.desk.loaded.any fun l => l.req.volunteer == user

section Backed

variable {env} {P Q : String → Grant → Prop} {s : Volunteers}

theorem Worker.Backed.mono {w : Worker} (h : w.Backed env P)
    (hPQ : w.phase.holds = true → ∀ g, P w.user g → Q w.user g) : w.Backed env Q := by
  unfold Worker.Backed at h ⊢
  cases hphase : w.phase with
  | idle => trivial
  | waiting request => trivial
  | working job =>
    rw [hphase] at h
    obtain ⟨g, hg, hjob⟩ := h
    exact ⟨g, hPQ (by rw [hphase]; rfl) g hg, hjob⟩
  | signed sub =>
    rw [hphase] at h
    obtain ⟨g, hg, hans⟩ := h
    exact ⟨g, hPQ (by rw [hphase]; rfl) g hg, hans⟩

theorem Backed.mono (h : Backed env P s)
    (hPQ : ∀ user, s.busy user = true → ∀ g, P user g → Q user g) : Backed env Q s := by
  refine ⟨fun w hw => ?_, fun m hm => ?_, fun l hl => ?_⟩
  · refine (h.workers w hw).mono fun hholds => hPQ w.user ?_
    simp only [Volunteers.busy, Bool.or_eq_true, List.any_eq_true]
    exact .inl (.inl ⟨w, hw, by simp [hholds]⟩)
  · obtain ⟨g, hg, hans⟩ := h.sent m hm
    refine ⟨g, hPQ m.user ?_ g hg, hans⟩
    simp only [Volunteers.busy, Bool.or_eq_true, List.any_eq_true]
    exact .inl (.inr ⟨m, hm, by simp⟩)
  · obtain ⟨m, ⟨g, hg, hans⟩, he⟩ := h.loaded l hl
    refine ⟨m, ⟨g, hPQ m.user ?_ g hg, hans⟩, he⟩
    simp only [Volunteers.busy, Bool.or_eq_true, List.any_eq_true]
    exact .inr ⟨l, hl, by rw [he]; simp [SentSubmission.completion]⟩

theorem Worker.Backed.idle (w : Worker) : ({ w with phase := .idle } : Worker).Backed env P :=
  trivial

theorem forall_mem_modify {α : Type} {p : α → Prop} {l : List α} (h : ∀ x ∈ l, p x) (i : Nat)
    {f : α → α} (hf : ∀ x, p x → p (f x)) : ∀ x ∈ l.modify i f, p x := by
  intro x hx
  obtain ⟨j, hj⟩ := List.getElem?_of_mem hx
  rw [List.getElem?_modify] at hj
  obtain ⟨y, hy, he⟩ := Option.map_eq_some_iff.mp hj
  have hp := h y (List.mem_of_getElem? hy)
  split at he
  · exact he ▸ hf y hp
  · exact he ▸ hp

theorem Backed.close (h : Backed env P s) {desk : Desk}
    (hloaded : ∀ l ∈ desk.loaded, l.Backed env P) (request : Nat) :
    Backed env P (s.close desk request) := by
  refine ⟨?_, fun m hm => h.sent m (List.mem_of_mem_eraseP hm), hloaded⟩
  intro w' hw'
  obtain ⟨w, hw, rfl⟩ := List.mem_map.mp hw'
  unfold Worker.answered
  split
  · exact .idle w
  · exact h.workers w hw

/-- A worker that is set to a phase that is backed. -/
theorem Backed.set (h : Backed env P s) {i : Nat} {w : Worker} (hw : w.Backed env P) :
    ∀ x ∈ s.workers.set i w, x.Backed env P := by
  intro x hx
  rcases List.mem_or_eq_of_mem_set hx with hx | rfl
  · exact h.workers x hx
  · exact hw

variable {n : Nat} {denv : DecisionEnv}

theorem Backed.desk (h : Backed env P s) {op : DeskOp}
    (hop : ∀ request req, op ≠ .load request req) :
    ∀ l ∈ (stepDesk n denv s.desk op).loaded, l.Backed env P := by
  intro l hl
  rcases loaded_stepDesk op l hl with hl | ⟨request, job, he, -⟩
  · exact h.loaded l hl
  · exact absurd he (hop _ _)

/-- Whatever is not a claim keeps the work backed. -/
theorem Backed.step (h : Backed env P s) {op : WorkerOp}
    (hop : ∀ i scan limit now delivered, op ≠ .claim i scan limit now delivered) :
    Backed env P (stepVolunteers env n denv s op) := by
  cases op with
  | join user isAdmin token config =>
    refine ⟨fun w hw => ?_, h.sent, h.loaded⟩
    rcases List.mem_append.mp hw with hw | hw
    · exact h.workers w hw
    · obtain rfl := List.mem_singleton.mp hw
      trivial
  | renew i token => exact ⟨forall_mem_modify h.workers i fun w hw => hw, h.sent, h.loaded⟩
  | claim i scan limit now delivered => exact absurd rfl (hop i scan limit now delivered)
  | synthesize i call =>
    refine ⟨forall_mem_modify h.workers i fun w hw => ?_, h.sent, h.loaded⟩
    unfold Worker.Backed at hw
    cases hphase : w.phase with
    | working job =>
      rw [hphase] at hw
      obtain ⟨g, hg, hjob⟩ := hw
      dsimp only
      cases hp : process env call job w.token with
      | error e => exact .idle w
      | ok sub => exact ⟨g, hg, call, w.token, hjob ▸ hp⟩
    | _ =>
      rw [hphase] at hw
      unfold Worker.Backed
      dsimp only
      rw [hphase]
      exact hw
  | send i =>
    unfold stepVolunteers
    dsimp only
    split
    · exact h
    · rename_i w hw
      split
      · rename_i sub hphase
        have hbacked := h.workers w (List.mem_of_getElem? hw)
        unfold Worker.Backed at hbacked
        rw [hphase] at hbacked
        refine ⟨h.set trivial, fun m hm => ?_, h.loaded⟩
        rcases List.mem_cons.mp hm with rfl | hm
        · exact hbacked
        · exact h.sent m hm
      · exact h
  | drop i => exact ⟨forall_mem_modify h.workers i fun w _ => .idle w, h.sent, h.loaded⟩
  | refuse request => exact h.close h.loaded request
  | load request =>
    unfold stepVolunteers
    dsimp only
    split
    · exact h
    · rename_i m hm
      split
      · exact h.close h.loaded request
      · refine ⟨h.workers, h.sent, fun l hl => ?_⟩
        rcases loaded_stepDesk _ l hl with hl | ⟨request', job, he, -⟩
        · exact h.loaded l hl
        · obtain ⟨-, hreq⟩ := DeskOp.load.inj he
          exact ⟨m, h.sent m (List.mem_of_find?_eq_some hm), hreq.symm⟩
  | finish request scan f now now' =>
    unfold stepVolunteers
    dsimp only
    split
    · split
      · exact h.close (h.desk (by simp)) request
      · exact h.close (fun l hl => h.loaded l (List.mem_of_mem_eraseP hl)) request
    · exact h
  | aside op =>
    unfold stepVolunteers
    dsimp only
    split
    · rename_i haside
      refine ⟨h.workers, h.sent, h.desk ?_⟩
      rintro request req rfl
      cases haside
    · exact h

theorem grants_stepVolunteers {op : WorkerOp}
    (hop : ∀ i scan limit now delivered, op ≠ .claim i scan limit now delivered) :
    grants (stepVolunteers env n denv s op).desk.events = grants s.desk.events := by
  cases op with
  | claim i scan limit now delivered => exact absurd rfl (hop i scan limit now delivered)
  | send i =>
    unfold stepVolunteers
    dsimp only
    split
    · rfl
    · split <;> rfl
  | load request =>
    unfold stepVolunteers
    dsimp only
    split
    · rfl
    · split
      · rfl
      · unfold stepDesk
        dsimp only
        split <;> rfl
  | finish request scan f now now' =>
    unfold stepVolunteers
    dsimp only
    split
    · split
      · exact grants_stepDesk (.inr ⟨_, _, _, _, _, rfl⟩)
      · rfl
    · rfl
  | aside op =>
    unfold stepVolunteers
    dsimp only
    split
    · rename_i haside
      exact grants_stepDesk (.inl haside)
    · rfl
  | _ => rfl

/-- A claim grants nothing, or it grants to the worker's user, who gets the job or not. -/
inductive Claimed (s s' : Volunteers) (i : Nat) : Prop where
  | nothing (hg : grants s'.desk.events = grants s.desk.events) (hw : s'.workers = s.workers)
      (hs : s'.sent = s.sent) (hl : s'.desk.loaded = s.desk.loaded)
  | granted (w : Worker) (g : Grant) (phase : WorkerPhase) (hi : s.workers[i]? = some w)
      (hv : g.volunteer = w.user) (hg : grants s'.desk.events = g :: grants s.desk.events)
      (hp : phase = .working g.job ∨ phase = .idle)
      (hw : s'.workers = s.workers.set i { w with phase := phase })
      (hs : s'.sent = s.sent) (hl : s'.desk.loaded = s.desk.loaded)

theorem stepVolunteers_claimed (s : Volunteers) (i : Nat) (scan : ScanOrder RlmJob) (limit : Nat)
    (now : Int) (delivered : Bool) :
    Claimed s (stepVolunteers env n denv s (.claim i scan limit now delivered)) i := by
  unfold stepVolunteers
  dsimp only
  split
  · exact .nothing rfl rfl rfl rfl
  · rename_i w hw
    split
    · exact .nothing rfl rfl rfl rfl
    · rename_i leaseMs maxLevel _
      split
      · cases hc : claimRlmJob scan s.desk.db w.user leaseMs maxLevel limit now with
        | mk db res =>
          split
          · rename_i job hjob
            obtain rfl : res = .ok (some job) := hjob
            refine .granted w ⟨w.user, job, groupOf db.rlmJobs job.id,
              saturatingAdd now (max leaseMs 1000)⟩ _ hw rfl ?_ ?_ rfl rfl rfl
            · unfold Desk.step
              dsimp only
              unfold events
              dsimp only
              rw [hc]
              rfl
            · cases delivered with
              | true => exact .inl rfl
              | false => exact .inr rfl
          · rename_i hnone
            refine .nothing ?_ rfl rfl rfl
            unfold Desk.step
            dsimp only
            unfold events
            dsimp only
            rw [hc]
            split
            · rename_i job heq
              exact absurd (congrArg Prod.snd heq) (hnone job)
            · rfl
      · exact .nothing rfl rfl rfl rfl

/-- One step, when `P` survives the claims of others. -/
theorem backed_step {P : List Grant → String → Grant → Prop}
    (hnew : ∀ gs g, P (g :: gs) g.volunteer g) (h : Backed env (P (grants s.desk.events)) s)
    {op : WorkerOp}
    (hop : ∀ i scan limit now delivered w, op = .claim i scan limit now delivered →
      s.workers[i]? = some w → ∀ user, s.busy user = true → ∀ g, g.volunteer = w.user →
        ∀ g', P (grants s.desk.events) user g' → P (g :: grants s.desk.events) user g') :
    Backed env (P (grants (stepVolunteers env n denv s op).desk.events))
      (stepVolunteers env n denv s op) := by
  by_cases hclaim : ∃ i scan limit now delivered, op = .claim i scan limit now delivered
  · obtain ⟨i, scan, limit, now, delivered, rfl⟩ := hclaim
    cases stepVolunteers_claimed s i scan limit now
      delivered with
    | nothing hg hw hs hl =>
      rw [hg]
      exact ⟨hw ▸ h.workers, hs ▸ h.sent, hl ▸ h.loaded⟩
    | granted w g phase hi hv hg hp hw hs hl =>
      rw [hg]
      have hkept := h.mono (Q := P (g :: grants s.desk.events)) fun user hbusy g' =>
        hop i scan limit now delivered w rfl hi user hbusy g hv g'
      refine ⟨?_, hs ▸ hkept.sent, hl ▸ hkept.loaded⟩
      rw [hw]
      refine hkept.set ?_
      rcases hp with rfl | rfl
      · exact ⟨g, hv ▸ hnew _ g, rfl⟩
      · exact .idle w
  · have hne : ∀ i scan limit now delivered, op ≠ .claim i scan limit now delivered :=
      fun i scan limit now delivered he => hclaim ⟨i, scan, limit, now, delivered, he⟩
    rw [grants_stepVolunteers hne]
    exact h.step hne

end Backed

/-! ## Runs -/

/-- The workers of a user take turns: no job is claimed while other work of the user is under
way. -/
def TakesTurns (s : Volunteers) : WorkerOp → Prop
  | .claim i .. => ∀ w ∈ s.workers[i]?, s.busy w.user = false
  | _ => True

instance decidableTakesTurns (s : Volunteers) : ∀ op, Decidable (TakesTurns s op)
  | .claim i .. => inferInstanceAs (Decidable (∀ w ∈ s.workers[i]?, s.busy w.user = false))
  | .join .. | .renew .. | .synthesize .. | .send .. | .drop .. | .refuse .. | .load .. |
    .finish .. | .aside .. => inferInstanceAs (Decidable True)

def workersRun (ops : List WorkerOp) : Volunteers :=
  Lts.after (stepVolunteers env n denv) .empty ops

def TurnTaking (ops : List WorkerOp) : Prop :=
  Lts.Always (stepVolunteers env n denv) .empty (fun _ s op => TakesTurns s op) ops

section Runs

variable {env n denv}

theorem backed_empty {P : String → Grant → Prop} : Backed env P .empty :=
  ⟨by simp [Volunteers.empty], by simp [Volunteers.empty],
    by simp [Volunteers.empty, Desk.empty]⟩

theorem backed_granted (ops : List WorkerOp) :
    Backed env (fun user g => g ∈ grants (workersRun env n denv ops).desk.events ∧
      g.volunteer = user) (workersRun env n denv ops) := by
  refine Lts.run_inv (I := fun _ s => Backed env (fun user g => g ∈ grants s.desk.events ∧
    g.volunteer = user) s) backed_empty (fun _ s op h => ?_) ops
  refine backed_step (P := fun gs user g => g ∈ gs ∧ g.volunteer = user)
    (fun gs g => ⟨List.mem_cons_self, rfl⟩) h ?_
  intro _ _ _ _ _ _ _ _ _ _ g _ g' hg'
  exact ⟨List.mem_cons_of_mem g hg'.1, hg'.2⟩

/-- Where they take turns, the claim is the last one of the user. -/
theorem backed_latest {ops : List WorkerOp} (hops : TurnTaking env n denv ops) :
    Backed env (fun user g => (grants (workersRun env n denv ops).desk.events).find?
      (·.volunteer == user) = some g) (workersRun env n denv ops) := by
  refine Lts.guarded_inv (I := fun _ s => Backed env (fun user g =>
    (grants s.desk.events).find? (·.volunteer == user) = some g) s) backed_empty
    (fun _ s op h hturn => ?_) ops hops
  refine backed_step (P := fun gs user g => gs.find? (·.volunteer == user) = some g)
    (fun gs g => by simp) h ?_
  rintro i scan limit now delivered w rfl hw user hbusy g hv g' hg'
  have hother : g.volunteer ≠ user := by
    rintro rfl
    rw [hv, hturn w hw] at hbusy
    cases hbusy
  rw [List.find?_cons, beq_eq_false_iff_ne.mpr hother]
  exact hg'

theorem leaseInv_workersRun (ops : List WorkerOp) :
    LeaseInv (workersRun env n denv ops).desk.events (workersRun env n denv ops).desk.db := by
  refine Lts.run_inv (I := fun _ (s : Volunteers) => LeaseInv s.desk.events s.desk.db) .empty
    (fun _ s op h => ?_) ops
  cases op with
  | claim i scan limit now delivered =>
    unfold stepVolunteers
    dsimp only
    split
    · exact h
    · rename_i w _
      split
      · exact h
      · rename_i leaseMs maxLevel _
        have hmove := h.move
          (step_move s.desk.db (.claim scan w.user leaseMs maxLevel limit now))
        split
        · split <;> exact hmove
        · exact h
  | send i =>
    unfold stepVolunteers
    dsimp only
    split
    · exact h
    · split <;> exact h
  | load request =>
    unfold stepVolunteers
    dsimp only
    split
    · exact h
    · split
      · exact h
      · exact leaseInv_stepDesk h _
  | finish request scan f now now' =>
    unfold stepVolunteers
    dsimp only
    split
    · split
      · exact leaseInv_stepDesk h _
      · exact h
    · exact h
  | aside op =>
    unfold stepVolunteers
    dsimp only
    split
    · exact leaseInv_stepDesk h _
    · exact h
  | _ => exact h

/-- Of one user and one row, the last claim is the last one of the row. -/
theorem lastGrant_latest {i : Int} {es : List QueueEvent} {g g' : Grant}
    (hrow : lastGrant i es = some g') (huser : (grants es).find? (·.volunteer == g'.volunteer) =
      some g) (hg : g.job.id = i) : g = g' := by
  induction es with
  | nil => cases hrow
  | cons e es ih =>
    cases e with
    | inserted j =>
      simp only [lastGrant] at hrow
      split at hrow
      · cases hrow
      · exact ih hrow huser
    | completed c => exact ih hrow huser
    | granted h =>
      simp only [lastGrant] at hrow
      rw [grants_granted, List.find?_cons] at huser
      split at hrow
      · obtain rfl := Option.some.inj hrow
        rw [beq_self_eq_true] at huser
        exact (Option.some.inj huser).symm
      · rename_i hne
        split at huser
        · obtain rfl := Option.some.inj huser
          exact absurd hg hne
        · exact ih hrow huser

theorem process_ok {call : Nat} {job : ClaimedRlmJob} {session : String}
    {sub : CompleteRlmJobRequest} (h : process env call job session = .ok sub) :
    sub.jobId = job.id ∧ sub.generation = job.generation ∧
      Text.trim sub.summaryText = sub.summaryText ∧
      summaryAcceptable sub.summaryText = true ∧ sub.submissionHmac =
        env.signRlmSubmission session sub.jobId sub.generation sub.summaryText := by
  unfold process at h
  cases hp : parseInputs env.codec job.payload job.id with
  | error e =>
    rw [hp] at h
    cases h
  | ok payload =>
    rw [hp] at h
    cases hc : env.complete call { buildRequest (responseLevel job.level) job.subject payload
        env.maxTokensPerJob with model := env.modelName } with
    | error e =>
      simp only [bind, Except.bind, hc] at h
      cases h
    | ok response =>
      simp only [bind, Except.bind, hc] at h
      cases ha : summaryAcceptable (Text.trim response.content) with
      | false =>
        rw [ha] at h
        cases h
      | true =>
        rw [ha] at h
        cases h
        refine ⟨rfl, rfl, ?_, ha, rfl⟩
        unfold Text.trim
        rw [String.toList_ofList, Text.trimChars_trimChars]

end Runs

/-- Whatever the workers of however many users do, in whichever order their requests arrive: a
submission that is accepted was made from what some claim of its author handed out, of this row and
at the generation at which its author holds it now. Where the workers of a user take turns, it is
the claim under which the row is held. -/
theorem accepted_from_claim (ops : List WorkerOp) (request : Nat) (scan : ScanOrder RlmNode)
    (freshNodeId : String) (now now' : Int) :
    let s := workersRun env n denv ops
    (stepVolunteers env n denv s (.finish request scan freshNodeId now now')).desk.events ≠
        s.desk.events →
      ∃ l g held, s.desk.loaded.find? (·.request == request) = some l ∧
        (g ∈ grants s.desk.events ∧ g.volunteer = l.req.volunteer) ∧
        (∃ m : SentSubmission, MadeFrom env g m.sub ∧ l.req = m.completion) ∧
        (lastGrant l.req.jobId s.desk.events = some held ∧ held.volunteer = l.req.volunteer ∧
          held.job.id = g.job.id ∧ held.job.generation = g.job.generation ∧
          now ≤ held.leaseExpiresAt) ∧
        (TurnTaking env n denv ops → g = held) := by
  intro s hnew
  -- the request is one that completes a claimed row
  obtain ⟨l, hl, r, hr, hs, hv⟩ : ∃ l, s.desk.loaded.find? (·.request == request) = some l ∧
      ∃ r, (l.req.jobId, r) ∈ s.desk.db.rlmJobs.rows ∧ r.status = .claimed ∧
        completionValid r l.req.volunteer l.req.generation now = true := by
    unfold stepVolunteers at hnew
    dsimp only at hnew
    split at hnew
    · split at hnew
      · exact complete_accepted hnew
      · exact absurd rfl hnew
    · exact absurd rfl hnew
  obtain ⟨hby, hgen, lease, hlease, hnow⟩ := completionValid_iff.mp hv
  obtain ⟨held, hheld, hholder, hexpires, hheldgen, hheldid, -⟩ :=
    (leaseInv_workersRun ops).held _ _ hr hs
  have hholder : held.volunteer = l.req.volunteer :=
    (Option.some.inj (hby.symm.trans hholder)).symm
  have hexpires : now ≤ held.leaseExpiresAt := by
    rw [hlease, Option.some.injEq] at hexpires
    exact hexpires ▸ hnow
  have hmem := List.mem_of_find?_eq_some hl
  have hfields : ∀ {g : Grant} {m : SentSubmission}, MadeFrom env g m.sub →
      l.req = m.completion → held.job.id = g.job.id ∧ held.job.generation = g.job.generation := by
    rintro g m ⟨call, session, hprocess⟩ he
    obtain ⟨hid, hgeneration, -⟩ := process_ok hprocess
    refine ⟨hheldid.trans ?_, hheldgen.symm.trans (hgen.trans ?_)⟩
    · rw [he]
      exact hid
    · rw [he]
      exact hgeneration
  by_cases hturns : TurnTaking env n denv ops
  · obtain ⟨m, ⟨g, hg, hmade⟩, he⟩ := (backed_latest hturns).loaded l hmem
    obtain ⟨hid, hgeneration⟩ := hfields hmade he
    have huser : m.user = l.req.volunteer := by rw [he]; rfl
    rw [huser] at hg
    have hfound : g ∈ grants s.desk.events ∧ g.volunteer = l.req.volunteer :=
      ⟨List.mem_of_find?_eq_some hg, by simpa using List.find?_some hg⟩
    refine ⟨l, g, held, hl, hfound, ⟨m, hmade, he⟩, ⟨hheld, hholder, hid, hgeneration, hexpires⟩,
      fun _ => ?_⟩
    exact lastGrant_latest hheld (hholder ▸ hg) (hid.symm.trans hheldid)
  · obtain ⟨m, ⟨g, ⟨hg, hvol⟩, hmade⟩, he⟩ :=
      (backed_granted ops).loaded l hmem
    obtain ⟨hid, hgeneration⟩ := hfields hmade he
    have huser : m.user = l.req.volunteer := by rw [he]; rfl
    exact ⟨l, g, held, hl, ⟨hg, hvol.trans huser⟩, ⟨m, hmade, he⟩,
      ⟨hheld, hholder, hid, hgeneration, hexpires⟩, fun h => absurd h hturns⟩

/-! ## One worker, and two of one user -/

def fileAt (hash text : String) : RlmJobPayload :=
  { themePayload [hash] 1 with texts := [text] }

/-- The model repeats what it is asked. -/
def echoEnv : VolunteerEnv where
  codec := sampleCodec [fileAt "h1" "the file as it was", fileAt "h2" "the file as it is"]
  modelName := "llama3.2"
  maxTokensPerJob := 800
  complete := fun _ req => .ok ⟨(req.messages.getLast?.map (·.content)).getD "", req.model, 7⟩
  signRlmSubmission := fun session _ _ text => session ++ "." ++ text

def echoDesk : DecisionEnv := { sampleEnv with codec := echoEnv.codec }

def minuteLease : VolunteerConfig := ⟨60, 3⟩

def fileWork : NewRlmJob :=
  ⟨some 1, "p", 2, "src", payloadJson (fileAt "h1" "the file as it was"), PRIORITY_CASCADE, 1⟩

def oneWorker : List WorkerOp :=
  [ .load 0, .send 0, .synthesize 0 0, .claim 0 .rowid 3 2 true,
    .aside (.queue (.enqueue .rowid fileWork [] 1)), .join "ann" false "t" minuteLease ]

/-- The submission is accepted, and was made from the claim. -/
theorem accepted_from_claim_once : ∃ l held,
    (workersRun echoEnv 1 echoDesk oneWorker).desk.loaded.find? (·.request == 0) = some l ∧
    lastGrant l.req.jobId (workersRun echoEnv 1 echoDesk oneWorker).desk.events = some held ∧
    ∃ m : SentSubmission, MadeFrom echoEnv held m.sub ∧ l.req = m.completion := by
  obtain ⟨l, g, held, hl, -, hmade, hheld, hturns⟩ :=
    accepted_from_claim echoEnv 1 echoDesk oneWorker 0 .rowid "n1" 9 9 (by decide +kernel)
  have hgrant : g = held := hturns (by unfold TurnTaking; decide +kernel)
  exact ⟨l, held, hl, hheld.1, hgrant ▸ hmade⟩

/-- The first worker of a user takes so long that the second gets the job, with another payload at
the same generation; then the first sends what it has made. -/
def twoWorkers : List WorkerOp :=
  [ .finish 0 .rowid "n1" 70002 70002, .load 0, .send 0, .synthesize 0 0,
    .claim 1 .rowid 3 70001 true, .aside (.queue (.requeue 70000)),
    .aside (.queue (.updatePayload "p" 2 "src"
      (payloadJson (fileAt "h2" "the file as it is")) 4)),
    .claim 0 .rowid 3 3 true, .aside (.queue (.cancel "p" [(2, "src")] 2)),
    .aside (.queue (.enqueue .rowid fileWork [] 1)), .join "ann" false "t" minuteLease,
    .join "ann" false "t" minuteLease ]

/-- The node has the summary of the one payload and the hashes of the other. -/
theorem accepted_from_claim_outdated :
    (workersRun echoEnv 1 echoDesk twoWorkers).desk.db.rlmNodes.rows.map
      (fun x => (x.2.summaryText, x.2.sourceHashes)) =
        [("Subject: src\nKind: theme\n\nInputs:\n\n--- input 1 ---\nthe file as it was",
          ["h2"])] := by
  decide +kernel

end Arags
