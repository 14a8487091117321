import Arags.Lib.Attempts
import Mathlib.Algebra.GroupWithZero.Nat

/-!
# Arags.Llm.Transport

Completions over HTTP, `transport.rs` and `retry.rs`, and the fallback of `fallback.rs`. The network
is an operation on its surroundings, as a completion is.

* `delayForAttempt`        — the backoff, with the roundings of `f64`.
* `retryWithBackoff`       — the loop; `retryLoop_eq` is what it does.
* `requestCompletion_spec` — the requests of one completion, its waits and its result.
* `fallbackChain_spec`     — the backends of a chain of fallbacks.
-/

namespace Arags.Llm

open Attempts

inductive LlmError where
  | http (status : Nat) (body : String)
  | api (message : String)
  | rateLimited (retryAfterMs : Nat)
  | auth (message : String)
  | modelNotFound (message : String)
  | timeout (ms : Nat)
  | connection (message : String)
  | serialization (message : String)
  | backend (message : String)
  deriving DecidableEq, Repr

structure RetryConfig where
  maxRetries : Nat
  baseDelayMs : Nat
  maxDelayMs : Nat
  deriving DecidableEq, Repr

def RetryConfig.default : RetryConfig := ⟨3, 1000, 30000⟩

/-! ## The backoff -/

/-- `as f64` of an integer: 53 bits, to the nearest, ties to even. -/
def asF64 (n : Nat) : Nat :=
  if n < 2 ^ 53 then n
  else
    let unit := 2 ^ (n.log2 - 52)
    let q := n / unit
    let r := n % unit
    if 2 * r < unit ∨ (2 * r = unit ∧ q % 2 = 0) then q * unit else (q + 1) * unit

/-- `BACKOFF_FACTOR.powi(attempt as i32)` and its product are powers of two away from the base, so
they are exact; the cast to `i32` turns the largest attempts into negative powers, and the cast to
`u64` saturates. From 1024 on the power is infinite: times zero it is no number, whose minimum with
the largest delay is the largest delay. -/
def delayForAttempt (config : RetryConfig) (attempt : Nat) : Nat :=
  let delay :=
    if 2 ^ 31 ≤ attempt then asF64 config.baseDelayMs / 2 ^ (2 ^ 32 - attempt)
    else if 1024 ≤ attempt ∧ config.baseDelayMs = 0 then asF64 config.maxDelayMs
    else asF64 config.baseDelayMs * 2 ^ attempt
  min (min delay (asF64 config.maxDelayMs)) (2 ^ 64 - 1)

theorem asF64_small {n : Nat} (h : n < 2 ^ 53) : asF64 n = n := if_pos h

/-- The delay doubles with every attempt, up to the largest one. -/
theorem delayForAttempt_exact {config : RetryConfig} (hb : config.baseDelayMs < 2 ^ 53)
    (hm : config.maxDelayMs < 2 ^ 53) {attempt : Nat} (h : attempt < 1024) :
    delayForAttempt config attempt = min (config.baseDelayMs * 2 ^ attempt) config.maxDelayMs := by
  have hpositive : ¬ 2 ^ 31 ≤ attempt := by omega
  have hfinite : ¬ (1024 ≤ attempt ∧ config.baseDelayMs = 0) := by omega
  rw [delayForAttempt, if_neg hpositive, if_neg hfinite, asF64_small hb, asF64_small hm]
  exact Nat.min_eq_left (Nat.le_trans (Nat.min_le_right _ _) (by omega))

/-! ## Retries -/

def isRetryable : LlmError → Bool
  | .rateLimited _ | .connection _ | .timeout _ => true
  | .http status _ => status == 429 || (500 ≤ status && status < 600)
  | _ => false

section Retry

variable {σ α : Type} (config : RetryConfig) (f : Op σ LlmError α)

def delayAfter (attempt : Nat) : LlmError → Nat
  | .rateLimited retryAfterMs => retryAfterMs
  | _ => delayForAttempt config attempt

/-- The attempts that are left, with the delays that were slept. -/
def retryLoop : Nat → Nat → Option LlmError → σ → Except LlmError α × σ × List Nat
  | 0, _, lastError, s => (.error (lastError.getD (.backend "max retries exceeded")), s, [])
  | left + 1, attempt, _, s =>
    match f s with
    | (.ok result, s') => (.ok result, s', [])
    | (.error e, s') =>
      if !isRetryable e || decide (config.maxRetries ≤ attempt) then (.error e, s', [])
      else
        let (result, s'', delays) := retryLoop left (attempt + 1) (some e) s'
        (result, s'', delayAfter config attempt e :: delays)

def retryWithBackoff (s : σ) : Except LlmError α × σ × List Nat :=
  retryLoop config f (config.maxRetries + 1) 0 none s

/-- The loop is the general one; it never runs out of attempts. -/
theorem retryLoop_eq {left attempt : Nat} (h : attempt + left = config.maxRetries)
    (lastError : Option LlmError) (s : σ) :
    retryLoop config f (left + 1) attempt lastError s =
      let t := retry isRetryable f left s
      (t.result, t.surroundings, t.errors.mapIdx fun i e => delayAfter config (attempt + i) e) := by
  induction left generalizing attempt lastError s with
  | zero =>
    have hlast : decide (config.maxRetries ≤ attempt) = true := decide_eq_true (by omega)
    simp only [retryLoop, retry, hlast, Bool.or_true, if_true]
    split
    · rename_i hf
      rw [hf]
      rfl
    · rename_i hf
      rw [hf]
      rfl
  | succ left ih =>
    have hmore : decide (config.maxRetries ≤ attempt) = false := decide_eq_false (by omega)
    rw [retryLoop]
    simp only [hmore, Bool.or_false]
    split
    · rename_i hf
      rw [retry_final (by rw [hf]; trivial), hf]
      rfl
    · rename_i e s' hf
      cases he : isRetryable e with
      | false =>
        rw [retry_final (by rw [hf]; exact he), hf]
        rfl
      | true =>
        rw [retry_again hf he, ih (by omega)]
        simp only [Bool.not_true, Bool.false_eq_true, if_false, List.mapIdx_cons, Nat.add_zero]
        have hshift : ∀ i, attempt + 1 + i = attempt + (i + 1) := fun i => by omega
        simp only [hshift]

end Retry

/-! ## Requests -/

/-- What a request meets: no reply, a reply whose text does not arrive, or a status and a text. -/
inductive HttpReply where
  | sendFailed (message : String)
  | bodyFailed (message : String)
  | response (status : Nat) (body : String)
  deriving DecidableEq, Repr

section Requests

variable {σ R : Type} (config : RetryConfig) (post : σ → HttpReply × σ)
  (extractError : String → String) (mapSuccess : String → Except String R) (estimateCost : R → R)

def readReply : HttpReply → Except LlmError R
  | .sendFailed message => .error (.connection message)
  | .bodyFailed message => .error (.connection message)
  | .response status body =>
    if status = 429 then .error (.rateLimited 1000)
    else if ¬ (200 ≤ status ∧ status < 300) then .error (.http status (extractError body))
    else
      match mapSuccess body with
      | .error message => .error (.serialization message)
      | .ok response => .ok (estimateCost response)

def postOnce : Op σ LlmError R := fun s =>
  let (r, s') := post s
  (readReply extractError mapSuccess estimateCost r, s')

def requestCompletion (s : σ) : Except LlmError R × σ × List Nat :=
  retryWithBackoff config (postOnce post extractError mapSuccess estimateCost) s

/-! ## The requests of one completion -/

def transientReply : HttpReply → Bool
  | .sendFailed _ | .bodyFailed _ => true
  | .response status _ => status == 429 || (500 ≤ status && status < 600)

def network (s : σ) : Nat → σ
  | 0 => s
  | n + 1 => (post (network s n)).2

def httpReply (s : σ) (n : Nat) : HttpReply := (post (network post s n)).1

/-- Only the status says how long to wait. -/
def waitAfter (attempt : Nat) : HttpReply → Nat
  | .response 429 _ => 1000
  | _ => delayForAttempt config attempt

variable {extractError mapSuccess estimateCost} in
theorem readReply_error {r : HttpReply} {e : LlmError}
    (h : readReply extractError mapSuccess estimateCost r = .error e) :
    isRetryable e = transientReply r ∧ ∀ i, delayAfter config i e = waitAfter config i r := by
  cases r with
  | sendFailed message =>
    obtain rfl := Except.error.inj h
    exact ⟨rfl, fun _ => rfl⟩
  | bodyFailed message =>
    obtain rfl := Except.error.inj h
    exact ⟨rfl, fun _ => rfl⟩
  | response status body =>
    by_cases hlimited : status = 429
    · subst hlimited
      obtain rfl := Except.error.inj h
      exact ⟨rfl, fun _ => rfl⟩
    · have hwait : ∀ i, waitAfter config i (.response status body) = delayForAttempt config i := by
        intro i
        rw [waitAfter]
        intro body' hb
        exact hlimited (HttpReply.response.inj hb).1
      rw [readReply, if_neg hlimited] at h
      by_cases hfailed : ¬ (200 ≤ status ∧ status < 300)
      · rw [if_pos hfailed] at h
        obtain rfl := Except.error.inj h
        exact ⟨rfl, fun i => (hwait i).symm⟩
      · rw [if_neg hfailed] at h
        have hserver : transientReply (.response status body) = false := by
          simp only [transientReply, Bool.or_eq_false_iff, beq_eq_false_iff_ne,
            Bool.and_eq_false_iff, decide_eq_false_iff_not]
          omega
        split at h
        · obtain rfl := Except.error.inj h
          exact ⟨hserver.symm, fun i => (hwait i).symm⟩
        · cases h

theorem readReply_transient {r : HttpReply} (h : transientReply r = true) :
    ∃ e, readReply extractError mapSuccess estimateCost r = .error e := by
  cases r with
  | sendFailed message => exact ⟨_, rfl⟩
  | bodyFailed message => exact ⟨_, rfl⟩
  | response status body =>
    by_cases hlimited : status = 429
    · exact ⟨_, if_pos hlimited⟩
    · have hfailed : ¬ (200 ≤ status ∧ status < 300) := by
        simp only [transientReply, Bool.or_eq_true, beq_iff_eq, Bool.and_eq_true,
          decide_eq_true_eq] at h
        omega
      exact ⟨_, (if_neg hlimited).trans (if_pos hfailed)⟩

variable {extractError mapSuccess estimateCost} in
theorem transient_of_final {r : HttpReply}
    (h : Final isRetryable (readReply extractError mapSuccess estimateCost r)) :
    transientReply r = false := by
  cases ht : transientReply r with
  | false => rfl
  | true =>
    obtain ⟨e, he⟩ := readReply_transient extractError mapSuccess estimateCost ht
    have hretryable : isRetryable e = true := (readReply_error .default he).1.trans ht
    rw [he, Final, hretryable] at h
    cases h

theorem after_postOnce (s : σ) (n : Nat) :
    after (postOnce post extractError mapSuccess estimateCost) s n = network post s n := by
  induction n with
  | zero => rfl
  | succ n ih => rw [after_succ, ih, network, postOnce]

theorem reply_postOnce (s : σ) (n : Nat) :
    reply (postOnce post extractError mapSuccess estimateCost) s n =
      readReply extractError mapSuccess estimateCost (httpReply post s n) := by
  rw [reply, after_postOnce, postOnce, httpReply]

/-- A completion posts until a reply is not transient, `max_retries` times more at most; it sleeps
after each of the replies before the last one, whose reading is the result. -/
theorem requestCompletion_spec (s : σ) :
    ∃ k ≤ config.maxRetries,
      (∀ i < k, transientReply (httpReply post s i) = true) ∧
      (k = config.maxRetries ∨ transientReply (httpReply post s k) = false) ∧
      requestCompletion config post extractError mapSuccess estimateCost s =
        (readReply extractError mapSuccess estimateCost (httpReply post s k),
          network post s (k + 1),
          (List.range k).map fun i => waitAfter config i (httpReply post s i)) := by
  have hloop := retryLoop_eq config (postOnce post extractError mapSuccess estimateCost)
    (Nat.zero_add _) none s
  obtain ⟨hk, herrors, hresult, hsurroundings, hlast⟩ := retry_spec isRetryable
    (postOnce post extractError mapSuccess estimateCost) config.maxRetries s
  rw [reply_postOnce] at hresult
  have hearlier : ∀ i e, (retry isRetryable (postOnce post extractError mapSuccess estimateCost)
      config.maxRetries s).errors[i]? = some e →
      transientReply (httpReply post s i) = true ∧
        delayAfter config i e = waitAfter config i (httpReply post s i) := by
    intro i e hi
    obtain ⟨hreply, he⟩ := herrors i e hi
    rw [reply_postOnce] at hreply
    obtain ⟨hretryable, hdelay⟩ := readReply_error config hreply
    exact ⟨hretryable ▸ he, hdelay i⟩
  refine ⟨_, hk, fun i hi => ?_, ?_, ?_⟩
  · exact (hearlier i _ (List.getElem?_eq_getElem hi)).1
  · refine hlast.imp_right fun hfinal => ?_
    rw [hresult] at hfinal
    exact transient_of_final hfinal
  · rw [requestCompletion, retryWithBackoff, hloop]
    refine Prod.ext hresult (Prod.ext ?_ ?_)
    · rw [← after_postOnce post extractError mapSuccess estimateCost]
      exact hsurroundings
    · refine List.ext_getElem (by rw [List.length_mapIdx, List.length_map, List.length_range])
        fun i hi _ => ?_
      rw [List.getElem_mapIdx, List.getElem_map, List.getElem_range, Nat.zero_add]
      exact (hearlier i _ (List.getElem?_eq_getElem _)).2

end Requests

/-! ## Fallbacks -/

section Fallbacks

variable {σ Q R : Type}

/-- An `LlmBackend`; its name and its default model are left out. -/
structure Backend (σ Q R : Type) where
  complete : Q → Op σ LlmError R
  healthCheck : Op σ LlmError Unit

structure ModelFallback (σ Q R : Type) where
  primary : Backend σ Q R
  fallback : Option (Backend σ Q R)
  checkHealth : Bool

namespace ModelFallback

variable (m : ModelFallback σ Q R)

def complete (request : Q) : Op σ LlmError R := fun s =>
  match (if m.checkHealth then m.primary.healthCheck s else (.ok (), s)) with
  | (.error e, s') =>
    match m.fallback with
    | some fb => fb.complete request s'
    | none => (.error e, s')
  | (.ok _, s') =>
    match m.primary.complete request s' with
    | (.ok response, s'') => (.ok response, s'')
    | (.error e, s'') =>
      match m.fallback with
      | some fb => fb.complete request s''
      | none => (.error e, s'')

def toBackend : Backend σ Q R := ⟨m.complete, m.primary.healthCheck⟩

end ModelFallback

/-- A backend, after its health check where there is one. -/
def guarded (checkHealth : Bool) (b : Backend σ Q R) (request : Q) : Op σ LlmError R := fun s =>
  match (if checkHealth then b.healthCheck s else (.ok (), s)) with
  | (.error e, s') => (.error e, s')
  | (.ok _, s') => b.complete request s'

/-- Each backend is the fallback of the one before it. -/
def chain (b : Bool × Backend σ Q R) : List (Bool × Backend σ Q R) → Backend σ Q R
  | [] => (ModelFallback.mk b.2 none b.1).toBackend
  | c :: cs => (ModelFallback.mk b.2 (some (chain c cs)) b.1).toBackend

theorem complete_alone (check : Bool) (b : Backend σ Q R) (request : Q) :
    (ModelFallback.mk b none check).complete request = guarded check b request := by
  funext s
  rw [ModelFallback.complete, guarded]
  cases (if check then b.healthCheck s else (.ok (), s)) with
  | mk health s' =>
    cases health with
    | error e => rfl
    | ok _ =>
      cases hcomplete : b.complete request s' with
      | mk r s'' => cases r <;> simp only [hcomplete]

theorem complete_orElse (check : Bool) (b fb : Backend σ Q R) (request : Q) :
    (ModelFallback.mk b (some fb) check).complete request =
      orElse (guarded check b request) (fb.complete request) := by
  funext s
  rw [ModelFallback.complete, orElse, guarded]
  cases (if check then b.healthCheck s else (.ok (), s)) with
  | mk health s' =>
    cases health with
    | error e => rfl
    | ok _ =>
      cases hcomplete : b.complete request s' with
      | mk r s'' => cases r <;> simp only [hcomplete]

theorem chain_complete (b : Bool × Backend σ Q R) (bs : List (Bool × Backend σ Q R))
    (request : Q) :
    (chain b bs).complete request =
      firstOk (guarded b.1 b.2 request) (bs.map fun c => guarded c.1 c.2 request) := by
  induction bs generalizing b with
  | nil => exact complete_alone b.1 b.2 request
  | cons c cs ih =>
    rw [List.map_cons, firstOk, ← ih]
    exact complete_orElse b.1 b.2 (chain c cs) request

/-- The answer of a chain is that of its first backend that is healthy and completes the request,
or of its last one. Those before it failed, each asked once, after the one before it. -/
theorem fallbackChain_spec (b : Bool × Backend σ Q R) (bs : List (Bool × Backend σ Q R))
    (request : Q) (s : σ) :
    let ops := bs.map fun c => guarded c.1 c.2 request
    let asked := stateAt (guarded b.1 b.2 request) ops s
    ∃ k c, (b :: bs)[k]? = some c ∧
      (chain b bs).complete request s = guarded c.1 c.2 request (asked k) ∧
      (∀ i < k, ∀ d, (b :: bs)[i]? = some d →
        ∃ e, (guarded d.1 d.2 request (asked i)).1 = .error e) ∧
      (k = bs.length ∨ ∃ response, ((chain b bs).complete request s).1 = .ok response) := by
  intro ops asked
  obtain ⟨k, f, hf, hresult, hbefore, hlast⟩ := firstOk_spec (guarded b.1 b.2 request) ops s
  have hops : guarded b.1 b.2 request :: ops =
      (b :: bs).map fun c => guarded c.1 c.2 request := rfl
  rw [hops, List.getElem?_map] at hf
  obtain ⟨c, hc, rfl⟩ := Option.map_eq_some_iff.mp hf
  rw [← chain_complete] at hresult hlast
  refine ⟨k, c, hc, hresult, fun i hi d hd => hbefore i hi _ ?_, ?_⟩
  · rw [hops, List.getElem?_map, hd, Option.map_some]
  · rwa [List.length_map] at hlast

end Fallbacks

end Arags.Llm
