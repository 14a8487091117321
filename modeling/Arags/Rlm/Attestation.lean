import Arags.Rlm.ClaimedWork

/-!
# Arags.Rlm.Attestation

The signature of a submission, which a worker makes with the session of one moment and the server
checks with the session that the request is sent with.

* `SignedWith`, `Attested` — what a signed submission is, and which ones are on the way.
* `submissions_attested` — none is refused while no session is renewed in between.
-/

namespace Arags

open Sql

variable (env : VolunteerEnv) (n : Nat) (denv : DecisionEnv)

/-! ## The attestation -/

/-- A summary that is long enough, signed with this session. -/
structure SignedWith (session : String) (sub : CompleteRlmJobRequest) : Prop where
  trimmed : Text.trim sub.summaryText = sub.summaryText
  acceptable : summaryAcceptable sub.summaryText = true
  hmac : sub.submissionHmac =
    env.signRlmSubmission session sub.jobId sub.generation sub.summaryText

def WorkerPhase.isSigned : WorkerPhase → Bool
  | .signed _ => true
  | _ => false

/-- No session is renewed between the signature and the request. -/
def KeepsSession (s : Volunteers) : WorkerOp → Prop
  | .renew i _ => ∀ w ∈ s.workers[i]?, w.phase.isSigned = false
  | _ => True

instance decidableKeepsSession (s : Volunteers) : ∀ op, Decidable (KeepsSession s op)
  | .renew i _ => inferInstanceAs (Decidable (∀ w ∈ s.workers[i]?, w.phase.isSigned = false))
  | .join .. | .claim .. | .synthesize .. | .send .. | .drop .. | .refuse .. | .load .. |
    .finish .. | .aside .. => inferInstanceAs (Decidable True)

structure Attested (s : Volunteers) : Prop where
  workers : ∀ w ∈ s.workers, ∀ sub, w.phase = .signed sub → SignedWith env w.token sub
  sent : ∀ m ∈ s.sent, SignedWith env m.rawToken m.sub
  sent_lt : ∀ m ∈ s.sent, m.request < s.nextRequest
  loaded_lt : ∀ l ∈ s.desk.loaded, l.request < s.nextRequest
  once : ∀ m ∈ s.sent, ∀ m' ∈ s.sent, m.request = m'.request → m = m'
  paired : ∀ l ∈ s.desk.loaded, ∀ m ∈ s.sent, l.request = m.request → l.req = m.completion

section Attestation

variable {env n denv} {s : Volunteers}

theorem isBlank_of_acceptable {summary : String} (h : summaryAcceptable summary = true) :
    Text.isBlank summary = false := by
  rw [Bool.eq_false_iff]
  intro hblank
  have htrim : Text.trim summary = "" := by
    unfold Text.isBlank at hblank
    have hdrop : summary.toList.dropWhile Text.isWhiteSpace = [] :=
      List.dropWhile_eq_nil_iff.mpr (List.all_eq_true.mp hblank)
    unfold Text.trim Text.trimChars
    rw [hdrop]
    rfl
  unfold summaryAcceptable at h
  rw [htrim] at h
  cases h

/-- The server is left with requests that it had. -/
theorem Attested.server (h : Attested env s) (desk : Desk)
    (hl : ∀ l ∈ desk.loaded, l ∈ s.desk.loaded) : Attested env { s with desk := desk } :=
  ⟨h.workers, h.sent, h.sent_lt, fun l hm => h.loaded_lt l (hl l hm), h.once,
    fun l hm => h.paired l (hl l hm)⟩

theorem Attested.close (h : Attested env s) (request : Nat) :
    Attested env (s.close s.desk request) := by
  have hsent : ∀ m ∈ s.sent.eraseP (·.request == request), m ∈ s.sent :=
    fun m hm => List.mem_of_mem_eraseP hm
  refine ⟨?_, fun m hm => h.sent m (hsent m hm), fun m hm => h.sent_lt m (hsent m hm),
    h.loaded_lt, fun m hm m' hm' => h.once m (hsent m hm) m' (hsent m' hm'),
    fun l hl m hm => h.paired l hl m (hsent m hm)⟩
  intro w' hw' sub hphase
  obtain ⟨w, hw, rfl⟩ := List.mem_map.mp hw'
  unfold Worker.answered at hphase ⊢
  split
  · rename_i hwaiting
    rw [if_pos hwaiting] at hphase
    cases hphase
  · rename_i hother
    rw [if_neg hother] at hphase
    exact h.workers w hw sub hphase

theorem Attested.setWorkers (h : Attested env s) {ws : List Worker}
    (hws : ∀ w ∈ ws, ∀ sub, w.phase = .signed sub → SignedWith env w.token sub) :
    Attested env { s with workers := ws } :=
  ⟨hws, h.sent, h.sent_lt, h.loaded_lt, h.once, h.paired⟩

theorem Attested.load (h : Attested env s) {request : Nat} {m : SentSubmission}
    (hm : s.sent.find? (·.request == request) = some m) :
    Attested env { s with desk := stepDesk n denv s.desk (.load request m.completion) } := by
  have hmem := List.mem_of_find?_eq_some hm
  have hid : m.request = request := by simpa using List.find?_some hm
  refine ⟨h.workers, h.sent, h.sent_lt, fun l hl => ?_, h.once, fun l hl m' hm' he => ?_⟩
  · rcases loaded_stepDesk _ l hl with hl | ⟨r, job, heq, hl⟩
    · exact h.loaded_lt l hl
    · obtain ⟨rfl, -⟩ := DeskOp.load.inj heq
      rw [hl, ← hid]
      exact h.sent_lt m hmem
  · rcases loaded_stepDesk _ l hl with hl | ⟨r, job, heq, hl⟩
    · exact h.paired l hl m' hm' he
    · obtain ⟨rfl, hreq⟩ := DeskOp.load.inj heq
      have hsame : m' = m := h.once m' hm' m hmem (by rw [← he, hl, hid])
      rw [← hreq, hsame]

theorem Attested.step (h : Attested env s) {op : WorkerOp} (hop : KeepsSession s op) :
    Attested env (stepVolunteers env n denv s op) := by
  cases op with
  | join user isAdmin token config =>
    refine h.setWorkers fun w hw sub hphase => ?_
    rcases List.mem_append.mp hw with hw | hw
    · exact h.workers w hw sub hphase
    · obtain rfl := List.mem_singleton.mp hw
      cases hphase
  | renew i token =>
    refine h.setWorkers fun w' hw' sub hphase => ?_
    obtain ⟨j, hj⟩ := List.getElem?_of_mem hw'
    rw [List.getElem?_modify] at hj
    obtain ⟨w, hw, he⟩ := Option.map_eq_some_iff.mp hj
    split at he
    · rename_i hij
      subst hij he
      have hfree := hop w hw
      rw [show w.phase = .signed sub from hphase] at hfree
      cases hfree
    · subst he
      exact h.workers _ (List.mem_of_getElem? hw) sub hphase
  | claim i scan limit now delivered =>
    have hidle : ∀ (w : Worker) (phase : WorkerPhase), (∀ sub, phase ≠ .signed sub) →
        ∀ x ∈ s.workers.set i { w with phase := phase }, ∀ sub, x.phase = .signed sub →
          SignedWith env x.token sub := by
      intro w phase hphase x hx sub hsub
      rcases List.mem_or_eq_of_mem_set hx with hx | rfl
      · exact h.workers x hx sub hsub
      · exact absurd hsub (hphase sub)
    unfold stepVolunteers
    dsimp only
    split
    · exact h
    · split
      · exact h
      · split
        · split
          · refine (h.server (s.desk.step _) fun l hl => hl).setWorkers (hidle _ _ ?_)
            intro sub
            split <;> simp
          · exact h.server _ fun l hl => hl
        · exact h
  | synthesize i call =>
    refine h.setWorkers fun w' hw' sub hphase => ?_
    obtain ⟨j, hj⟩ := List.getElem?_of_mem hw'
    rw [List.getElem?_modify] at hj
    obtain ⟨w, hw, he⟩ := Option.map_eq_some_iff.mp hj
    have hold := h.workers w (List.mem_of_getElem? hw)
    split at he
    · cases hw' : w.phase with
      | working job =>
        rw [hw'] at he
        dsimp only at he
        cases hp : process env call job w.token with
        | error e =>
          rw [hp] at he
          subst he
          cases hphase
        | ok made =>
          rw [hp] at he
          subst he
          obtain rfl := WorkerPhase.signed.inj hphase
          obtain ⟨-, -, htrim, hacc, hhmac⟩ := process_ok hp
          exact ⟨htrim, hacc, hhmac⟩
      | _ =>
        rw [hw'] at he
        subst he
        exact hold sub hphase
    · subst he
      exact hold sub hphase
  | send i =>
    unfold stepVolunteers
    dsimp only
    split
    · exact h
    · rename_i w hw
      split
      · rename_i sub hphase
        refine ⟨fun x hx sub' hsub => ?_, fun m hm => ?_, fun m hm => ?_, fun l hl => ?_,
          fun m hm m' hm' he => ?_, fun l hl m hm he => ?_⟩
        · rcases List.mem_or_eq_of_mem_set hx with hx | rfl
          · exact h.workers x hx sub' hsub
          · cases hsub
        · rcases List.mem_cons.mp hm with rfl | hm
          · exact h.workers w (List.mem_of_getElem? hw) sub hphase
          · exact h.sent m hm
        · rcases List.mem_cons.mp hm with rfl | hm
          · exact Nat.lt_succ_self _
          · exact Nat.lt_succ_of_lt (h.sent_lt m hm)
        · exact Nat.lt_succ_of_lt (h.loaded_lt l hl)
        · rcases List.mem_cons.mp hm with rfl | hm
          · rcases List.mem_cons.mp hm' with rfl | hm'
            · rfl
            · exact absurd he (Nat.ne_of_gt (h.sent_lt m' hm'))
          · rcases List.mem_cons.mp hm' with rfl | hm'
            · exact absurd he (Nat.ne_of_lt (h.sent_lt m hm))
            · exact h.once m hm m' hm' he
        · rcases List.mem_cons.mp hm with rfl | hm
          · exact absurd he (Nat.ne_of_lt (h.loaded_lt l hl))
          · exact h.paired l hl m hm he
      · exact h
  | drop i =>
    refine h.setWorkers (forall_mem_modify h.workers i fun w _ sub hphase => ?_)
    cases hphase
  | refuse request => exact h.close request
  | load request =>
    unfold stepVolunteers
    dsimp only
    split
    · exact h
    · rename_i m hm
      split
      · exact h.close request
      · exact h.load hm
  | finish request scan f now now' =>
    unfold stepVolunteers
    dsimp only
    split
    · split
      · refine (h.server _ fun l hl => ?_).close request
        rcases loaded_stepDesk (.complete request scan f now now') l hl with hl | ⟨_, _, he, -⟩
        · exact hl
        · cases he
      · exact (h.server _ fun l hl => List.mem_of_mem_eraseP hl).close request
    · exact h
  | aside op =>
    unfold stepVolunteers
    dsimp only
    split
    · rename_i haside
      refine h.server _ fun l hl => ?_
      rcases loaded_stepDesk _ l hl with hl | ⟨_, _, rfl, -⟩
      · exact hl
      · cases haside
    · exact h

end Attestation

/-- While no session is renewed between a signature and its request, no submission is refused for
its text or its signature, whatever else happens on the way. -/
theorem submissions_attested (ops : List WorkerOp)
    (hops : Lts.Always (stepVolunteers env n denv) .empty (fun _ s op => KeepsSession s op) ops) :
    ∀ m ∈ (workersRun env n denv ops).sent, Text.isBlank m.sub.summaryText = false ∧
      ∀ l ∈ (workersRun env n denv ops).desk.loaded, l.request = m.request →
        m.attested env l.req = true := by
  have hinv : Attested env (workersRun env n denv ops) := by
    refine Lts.guarded_inv (I := fun _ s => Attested env s) ?_
      (fun _ _ _ h hop => h.step hop) ops hops
    constructor <;> simp [Volunteers.empty, Desk.empty]
  intro m hm
  have hsigned := hinv.sent m hm
  refine ⟨isBlank_of_acceptable hsigned.acceptable, fun l hl he => ?_⟩
  rw [hinv.paired l hl m hm he]
  unfold SentSubmission.attested SentSubmission.completion
  dsimp only
  rw [hsigned.trimmed, hsigned.hmac, beq_self_eq_true]

theorem submissions_attested_once :
    ∃ m ∈ (workersRun echoEnv 3 echoDesk oneWorker).sent,
      ∃ l ∈ (workersRun echoEnv 3 echoDesk oneWorker).desk.loaded, l.request = m.request ∧
        Text.isBlank m.sub.summaryText = false ∧ m.attested echoEnv l.req = true := by
  have hsent : ∃ m ∈ (workersRun echoEnv 3 echoDesk oneWorker).sent,
      ∃ l ∈ (workersRun echoEnv 3 echoDesk oneWorker).desk.loaded, l.request = m.request := by
    decide +kernel
  obtain ⟨m, hm, l, hl, he⟩ := hsent
  obtain ⟨htext, hsigned⟩ :=
    submissions_attested echoEnv 3 echoDesk oneWorker (by decide +kernel) m hm
  exact ⟨m, hm, l, hl, he, htext, hsigned l hl he⟩

/-- The renewal comes in between. -/
def renewedBetween : List WorkerOp :=
  [ .load 0, .send 0, .renew 0 "t2", .synthesize 0 0, .claim 0 .rowid 3 2 true,
    .aside (.queue (.enqueue .rowid fileWork [] 1)), .join "ann" false "t" minuteLease ]

theorem submissions_attested_renewed :
    (workersRun echoEnv 3 echoDesk renewedBetween).desk.loaded.length = 1 ∧
    (workersRun echoEnv 3 echoDesk
      (.finish 0 .rowid "n1" 9 9 :: renewedBetween)).desk.db.rlmJobs.rows.map
        (fun x => x.2.status) = [.claimed] := by
  decide +kernel

end Arags
