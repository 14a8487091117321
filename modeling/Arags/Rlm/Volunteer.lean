import Arags.Lib.Slices
import Arags.Llm.Families
import Arags.Rlm.Credits

/-!
# Arags.Rlm.Volunteer

The worker of the client's `volunteer.rs`, which claims jobs, has its model summarize them and
sends the summaries, beside the server it works for. Any number of workers run for any users,
their connections break, their sessions are renewed, and requests stay on the way.

* `buildRequest`, `process` — what a worker makes of a job.
* `claimParameters_accepts` — the configurations whose claims are not refused.
* `stepVolunteers` — workers, messages and the server.
-/

namespace Arags

open Sql

/-! ## The worker -/

def SYSTEM_L1 : String :=
  "You summarize source-code files for a retrieval index. " ++
    "Output 5-10 dense bullet lines covering: purpose of the file, key types/functions " ++
    "with one-line roles, notable patterns/idioms, and dependencies. No preamble, no " ++
    "markdown headers."

def SYSTEM_L2 : String :=
  "You synthesize module summaries from per-file summaries. " ++
    "Output 5-8 dense bullet lines covering: what this module/theme provides, its main " ++
    "abstractions, internal organization, and how files relate. No preamble, no headers."

def SYSTEM_L3 : String :=
  "You write a project overview from module summaries. " ++
    "Output: one paragraph stating what the project is and its architecture style, then " ++
    "5-8 bullet lines listing the modules/themes and their responsibilities, then any " ++
    "cross-cutting patterns. No headers."

def systemPromptFor (level : Int) : String :=
  if level = 1 then SYSTEM_L1 else if level = 2 then SYSTEM_L2 else SYSTEM_L3

/-- `0.2_f32`. -/
def SUMMARY_TEMPERATURE : Llm.F32 := .finite false (13421773 / 67108864)

def inputLines : Nat → List String → String
  | _, [] => ""
  | i, text :: texts =>
    "\n--- input " ++ toString i ++ " ---\n" ++ text ++ "\n\n" ++ inputLines (i + 1) texts

def buildRequest (level : Int) (subject : String) (payload : RlmJobPayload) (maxTokens : Nat) :
    Llm.CompletionRequest where
  model := ""
  messages := [⟨.system, systemPromptFor level⟩,
    ⟨.user, "Subject: " ++ subject ++ "\nKind: " ++ payload.subjectKind ++ "\n\nInputs:\n" ++
      inputLines 1 payload.texts⟩]
  temperature := some SUMMARY_TEMPERATURE
  maxTokens := some maxTokens
  stop := none
  seed := none
  tools := none

/-- A completion, as far as a worker reads it. -/
structure Synthesis where
  content : String
  model : String
  totalTokens : Nat

structure CompleteRlmJobRequest where
  jobId : Int
  generation : Int
  summaryText : String
  model : String
  templateVersion : String
  tokenCount : Int
  submissionHmac : String
  deriving DecidableEq

/-- The configuration of a worker and what it calls; a completion may differ from call to call. -/
structure VolunteerEnv where
  codec : PayloadCodec
  modelName : String
  maxTokensPerJob : Nat
  complete : Nat → Llm.CompletionRequest → Except String Synthesis
  signRlmSubmission : String → Int → Int → String → String

def parseInputs (codec : PayloadCodec) (raw : String) (jobId : Int) :
    Except String RlmJobPayload :=
  match codec.decode raw with
  | none => .error ("invalid job payload for " ++ toString jobId)
  | some payload =>
    if payload.hashes.isEmpty && payload.texts.isEmpty then
      .error ("job " ++ toString jobId ++ " has no inputs")
    else .ok payload

def MIN_SUMMARY_CHARS : Nat := 20

/-- The length is in bytes. -/
def summaryAcceptable (summary : String) : Bool :=
  let s := Text.trim summary
  !s.isEmpty && decide (MIN_SUMMARY_CHARS ≤ s.utf8ByteSize)

/-- `i32::try_from(job.level).unwrap_or(1)`, on the way to the worker. -/
def responseLevel (level : Int) : Int :=
  if -2147483648 ≤ level ∧ level ≤ 2147483647 then level else 1

variable (env : VolunteerEnv)

/-- The work on a job up to the submission, signed with the session of that moment. -/
def process (call : Nat) (job : ClaimedRlmJob) (session : String) :
    Except String CompleteRlmJobRequest := do
  let payload ← parseInputs env.codec job.payload job.id
  let request := buildRequest (responseLevel job.level) job.subject payload env.maxTokensPerJob
  let response ← env.complete call { request with model := env.modelName }
  let summary := Text.trim response.content
  if !summaryAcceptable summary then
    throw "model produced an implausibly short summary; refusing to submit"
  return {
    jobId := job.id
    generation := job.generation
    summaryText := summary
    model := response.model
    templateVersion :=
      if payload.templateVersion.isEmpty then "unknown" else payload.templateVersion
    tokenCount := response.totalTokens
    submissionHmac := env.signRlmSubmission session job.id job.generation summary }

/-! ## Claims -/

structure VolunteerConfig where
  leaseSecs : Nat
  maxLevel : Nat

def DEFAULT_RLM_LEASE_MS : Int := 500000

/-- The seconds are a `u64`, the level a `u32`. -/
def VolunteerConfig.leaseMs (vol : VolunteerConfig) : Int :=
  let ms := min (vol.leaseSecs * 1000) 18446744073709551615
  if ms ≤ 9223372036854775807 then ms else DEFAULT_RLM_LEASE_MS

def VolunteerConfig.requestLevel (vol : VolunteerConfig) : Int :=
  if vol.maxLevel ≤ 2147483647 then vol.maxLevel else 3

/-- What `handle_claim_rlm_job` makes of the two numbers. -/
def claimParameters (leaseMs maxLevel : Int) : Except String (Int × Option Int) :=
  let leaseMs := if leaseMs > 0 then leaseMs else DEFAULT_RLM_LEASE_MS
  if ¬ (1000 ≤ leaseMs ∧ leaseMs ≤ 3600000) then
    .error "lease_ms must be between 1000 and 3600000"
  else if maxLevel = 0 then .ok (leaseMs, none)
  else if 1 ≤ maxLevel ∧ maxLevel ≤ 3 then .ok (leaseMs, some maxLevel)
  else .error "max_level must be 0..=3"

/-- A lease of more than an hour is refused, and the worker asks for it again and again; one that
overflows is the default. -/
theorem claimParameters_accepts (vol : VolunteerConfig) :
    (claimParameters vol.leaseMs vol.requestLevel).isOk = true ↔
      (vol.leaseSecs ≤ 3600 ∨ 9223372036854775 < vol.leaseSecs) ∧
        (vol.maxLevel ≤ 3 ∨ 2147483647 < vol.maxLevel) := by
  have hlease : (1000 ≤ (if vol.leaseMs > 0 then vol.leaseMs else DEFAULT_RLM_LEASE_MS) ∧
      (if vol.leaseMs > 0 then vol.leaseMs else DEFAULT_RLM_LEASE_MS) ≤ 3600000) ↔
        vol.leaseSecs ≤ 3600 ∨ 9223372036854775 < vol.leaseSecs := by
    unfold VolunteerConfig.leaseMs DEFAULT_RLM_LEASE_MS
    dsimp only
    split <;> split <;> omega
  have hlevel : (vol.requestLevel = 0 ∨ 1 ≤ vol.requestLevel ∧ vol.requestLevel ≤ 3) ↔
      vol.maxLevel ≤ 3 ∨ 2147483647 < vol.maxLevel := by
    unfold VolunteerConfig.requestLevel
    split <;> omega
  rw [← hlease, ← hlevel]
  unfold claimParameters
  dsimp only
  generalize (if vol.leaseMs > 0 then vol.leaseMs else DEFAULT_RLM_LEASE_MS) = lease
  split_ifs with hrange hzero hthree
  · simp [Except.isOk, Except.toBool, hrange, hzero]
  · simp [Except.isOk, Except.toBool, hrange, hthree]
  · simp [Except.isOk, Except.toBool, hzero, hthree]
  · simp [Except.isOk, Except.toBool, hrange]

/-! ## Workers and the server -/

inductive WorkerPhase where
  | idle
  | working (job : ClaimedRlmJob)
  | signed (sub : CompleteRlmJobRequest)
  | waiting (request : Nat)
  deriving DecidableEq

structure Worker where
  user : String
  isAdmin : Bool
  token : String
  config : VolunteerConfig
  phase : WorkerPhase

/-- A submission on the way, with the session it is sent with. -/
structure SentSubmission where
  request : Nat
  user : String
  isAdmin : Bool
  rawToken : String
  sub : CompleteRlmJobRequest

structure Volunteers where
  desk : Desk
  workers : List Worker
  sent : List SentSubmission
  nextRequest : Nat

def Volunteers.empty : Volunteers := ⟨Desk.empty, [], [], 0⟩

inductive WorkerOp where
  | join (user : String) (isAdmin : Bool) (token : String) (config : VolunteerConfig)
  | renew (worker : Nat) (token : String)
  /-- The response to a claim may get lost. -/
  | claim (worker : Nat) (scan : ScanOrder RlmJob) (strikesLimit : Nat) (now : Int)
      (delivered : Bool)
  | synthesize (worker : Nat) (call : Nat)
  | send (worker : Nat)
  /-- The connection breaks, or the worker is started anew. -/
  | drop (worker : Nat)
  /-- The session has expired, or the user sends too many requests. -/
  | refuse (request : Nat)
  | load (request : Nat)
  | finish (request : Nat) (scan : ScanOrder RlmNode) (freshNodeId : String) (now now' : Int)
  /-- What the server does for others. -/
  | aside (op : DeskOp)

/-- Jobs are claimed and completed by workers only. -/
def DeskOp.isAside : DeskOp → Bool
  | .queue (.claim ..) | .load .. | .complete .. => false
  | _ => true

/-- The submission as the server reads it. -/
def SentSubmission.completion (m : SentSubmission) : CompletionRequest where
  jobId := m.sub.jobId
  volunteer := m.user
  isAdmin := m.isAdmin
  generation := m.sub.generation
  summaryText := Text.trim m.sub.summaryText
  model := if m.sub.model.isEmpty then none else some m.sub.model
  templateVersion := if m.sub.templateVersion.isEmpty then none else some m.sub.templateVersion
  tokenCount := max m.sub.tokenCount 0

/-- The attestation gate, for the requests that pass through it. -/
def SentSubmission.attested (m : SentSubmission) (req : CompletionRequest) : Bool :=
  env.signRlmSubmission m.rawToken req.jobId req.generation req.summaryText ==
    m.sub.submissionHmac

def Worker.answered (request : Nat) (w : Worker) : Worker :=
  if w.phase = .waiting request then { w with phase := .idle } else w

/-- The request is over. -/
def Volunteers.close (s : Volunteers) (desk : Desk) (request : Nat) : Volunteers :=
  { s with
    desk := desk
    workers := s.workers.map (Worker.answered request)
    sent := s.sent.eraseP (·.request == request) }

variable (n : Nat) (denv : DecisionEnv)

def stepVolunteers (s : Volunteers) : WorkerOp → Volunteers
  | .join user isAdmin token config =>
    { s with workers := s.workers ++ [⟨user, isAdmin, token, config, .idle⟩] }
  | .renew i token => { s with workers := s.workers.modify i fun w => { w with token := token } }
  | .claim i scan strikesLimit now delivered =>
    match s.workers[i]? with
    | none => s
    | some w =>
      match claimParameters w.config.leaseMs w.config.requestLevel with
      | .error _ => s
      | .ok (leaseMs, maxLevel) =>
        if w.phase = .idle then
          let desk := s.desk.step (.claim scan w.user leaseMs maxLevel strikesLimit now)
          match (claimRlmJob scan s.desk.db w.user leaseMs maxLevel strikesLimit now).2 with
          | .ok (some job) =>
            let phase := if delivered then .working job else .idle
            { s with desk := desk, workers := s.workers.set i { w with phase := phase } }
          | _ => { s with desk := desk }
        else s
  | .synthesize i call =>
    { s with workers := s.workers.modify i fun w =>
        match w.phase with
        | .working job =>
          match process env call job w.token with
          | .ok sub => { w with phase := .signed sub }
          | .error _ => { w with phase := .idle }
        | _ => w }
  | .send i =>
    match s.workers[i]? with
    | none => s
    | some w =>
      match w.phase with
      | .signed sub => { s with
          workers := s.workers.set i { w with phase := .waiting s.nextRequest }
          sent := ⟨s.nextRequest, w.user, w.isAdmin, w.token, sub⟩ :: s.sent
          nextRequest := s.nextRequest + 1 }
      | _ => s
  | .drop i => { s with workers := s.workers.modify i fun w => { w with phase := .idle } }
  | .refuse request => s.close s.desk request
  | .load request =>
    match s.sent.find? (·.request == request) with
    | none => s
    | some m =>
      if Text.isBlank m.sub.summaryText then s.close s.desk request
      else { s with desk := stepDesk n denv s.desk (.load request m.completion) }
  | .finish request scan freshNodeId now now' =>
    match s.sent.find? (·.request == request), s.desk.loaded.find? (·.request == request) with
    | some m, some l =>
      if l.req.direct n || m.attested env l.req then
        s.close (stepDesk n denv s.desk (.complete request scan freshNodeId now now')) request
      else
        s.close { s.desk with loaded := s.desk.loaded.eraseP (·.request == request) } request
    | _, _ => s
  | .aside op => if op.isAside then { s with desk := stepDesk n denv s.desk op } else s

end Arags
