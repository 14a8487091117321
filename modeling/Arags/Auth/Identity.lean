import Arags.Auth.Sessions
import Arags.Lib.Table
import Arags.Lib.Text

/-!
# Arags.Auth.Identity

Who a request is taken for, `auth/mod.rs`, and the history that is kept and shown under that name,
`grpc/history.rs`, `grpc/memory.rs` and `history.rs` of the memory crate. The calls run with those
of `Arags.Auth.Sessions`, one statement at a time.

* `bearer`, `authenticate` — from the header to a user and a role.
* `handleGetHistory`       — whose history a caller may read.
* `ApiInv`                 — where the rows of the three tables come from.
* `identity_provenance`    — an identity is that of a token whose secret was presented for the
  session, and lasts five minutes.
* `history_confined`       — a non-admin with a name reads what calls under that name recorded.
* `ownHistory_iff`         — without a name it reads everything.
-/

namespace Arags.Api

open Sql Threads

inductive Status where
  | unauthenticated (message : String)
  | permissionDenied (message : String)
  | internal (message : String)
  deriving DecidableEq, Repr

structure AuthContext where
  username : String
  role : Role
  deriving DecidableEq, Repr

def AuthContext.isAdmin (ctx : AuthContext) : Bool := ctx.role == .admin

/-- The `authorization` metadata of a request. -/
inductive Header where
  | missing
  | notText
  | text (value : String)
  deriving DecidableEq, Repr

def stripPrefix (pre value : String) : Option String :=
  (value.toList.dropPrefix? pre.toList).map String.ofList

def bearer : Header → Except Status String
  | .missing => .error (.unauthenticated "missing authorization header")
  | .notText => .error (.unauthenticated "authorization header is not valid UTF-8")
  | .text value =>
    match (stripPrefix "Bearer " value).or (stripPrefix "bearer " value) with
    | none => .error (.unauthenticated "authorization must be a Bearer token")
    | some token =>
      if token.isEmpty then .error (.unauthenticated "empty bearer token") else .ok token

/-- `validate_session` is one statement. -/
def authenticate (db : AuthDb) (header : Header) (now : Int) (fails : Bool) :
    Except Status (String × AuthContext) :=
  match bearer header with
  | .error st => .error st
  | .ok token =>
    if fails then .error (.internal "session validation failed")
    else
      match validateSession db token now with
      | some (username, role) => .ok (token, ⟨username, role⟩)
      | none => .error (.unauthenticated "invalid or expired session")

def requireAdmin (ctx : AuthContext) : Except Status Unit :=
  if ctx.isAdmin then .ok ()
  else .error (.permissionDenied "admin role required for this operation")

/-! ## History -/

/-- A row of `history`; its other columns stay `NULL`. -/
structure HistoryRow where
  bufferId : Option Int
  query : String
  queryType : String
  user : Option String
  createdAt : Int
  deriving DecidableEq, Repr

def recordWithUser (history : SeqTable HistoryRow) (bufferId : Option Int)
    (query queryType : String) (user : String) (createdAt : Int) : SeqTable HistoryRow :=
  history.insert ⟨bufferId, query, queryType, if user.isEmpty then none else some user, createdAt⟩

/-- An empty name is no scope. -/
def recentOptUser (o : ScanOrder HistoryRow) (history : SeqTable HistoryRow) (user : Option String)
    (limit : Int) : List (Int × HistoryRow) :=
  let scope := user.filter fun u => !u.isEmpty
  let rows := o.order (history.select fun _ r => scope.all fun u => r.user == some u)
  (rows.mergeSort fun a b => decide (b.2.createdAt ≤ a.2.createdAt)).take limit.toNat

structure HistoryEntry where
  id : Int
  user : String
  question : String
  createdAt : String
  deriving DecidableEq, Repr

def historyEntry (row : Int × HistoryRow) : HistoryEntry :=
  ⟨row.1, row.2.user.getD "", row.2.query, toString row.2.createdAt⟩

structure GetHistoryRequest where
  user : String
  limit : Int
  deriving DecidableEq, Repr

def userFilter (ctx : AuthContext) (req : GetHistoryRequest) : Option String :=
  if ctx.isAdmin then
    if (Text.trim req.user).isEmpty then none else some (Text.trim req.user)
  else some ctx.username

/-- After the caller is authenticated. -/
def handleGetHistory (o : ScanOrder HistoryRow) (history : SeqTable HistoryRow) (ctx : AuthContext)
    (req : GetHistoryRequest) : List HistoryEntry :=
  let limit := if req.limit > 0 then req.limit else 50
  (recentOptUser o history (userFilter ctx req) limit).map historyEntry

/-! ## The calls -/

structure ApiDb where
  auth : AuthDb
  history : SeqTable HistoryRow

def ApiDb.empty : ApiDb := ⟨.empty, .empty⟩

/-- What a handler does once the caller is known: a search, a query and an answer to store are first
put on record. -/
inductive ApiRequest where
  | recorded (queryType query : String)
  | getHistory (req : GetHistoryRequest)
  deriving DecidableEq, Repr

inductive ApiCall where
  | auth (call : AuthCall)
  | request (header : Header) (now : Int) (req : ApiRequest)

inductive ApiStmt where
  | auth (stmt : AuthStmt)
  | authenticate (header : Header) (now : Int) (req : ApiRequest)
  | record (ctx : AuthContext) (queryType query : String)
  | recent (ctx : AuthContext) (req : GetHistoryRequest)
  deriving DecidableEq, Repr

inductive ApiReply where
  | auth (reply : AuthReply)
  | refused (status : Status)
  /-- The handler goes on; an error of the record is swallowed. -/
  | recorded
  | history (entries : List HistoryEntry)
  deriving DecidableEq, Repr

structure ApiInput where
  auth : AuthInput
  bufferId : Option Int
  createdAt : Int
  deriving DecidableEq, Repr

def ApiRequest.next (ctx : AuthContext) : ApiRequest → ApiStmt
  | .recorded queryType query => .record ctx queryType query
  | .getHistory req => .recent ctx req

variable (env : TokenEnv) (o : ScanOrder HistoryRow)

def ApiCall.start : ApiCall → ApiStmt
  | .auth call => .auth (call.start env)
  | .request header now req => .authenticate header now req

def apiExec (db : ApiDb) (p : ApiStmt) (x : ApiInput) : ApiDb × (ApiStmt ⊕ ApiReply) :=
  match p with
  | .auth stmt =>
    ({ db with auth := (authExec db.auth stmt x.auth).1 },
      (authExec db.auth stmt x.auth).2.map .auth .auth)
  | .authenticate header now req =>
    match authenticate db.auth header now x.auth.fails with
    | .error st => (db, .inr (.refused st))
    | .ok (_, ctx) => (db, .inl (req.next ctx))
  | .record ctx queryType query =>
    if x.auth.fails then (db, .inr .recorded)
    else ({ db with
      history := recordWithUser db.history x.bufferId query queryType ctx.username x.createdAt },
      .inr .recorded)
  | .recent ctx req =>
    if x.auth.fails then (db, .inr (.refused (.internal "database is locked")))
    else (db, .inr (.history (handleGetHistory o db.history ctx req)))

def apiProgram : Program ApiDb ApiCall ApiStmt ApiInput ApiReply where
  start := ApiCall.start env
  exec := apiExec o

/-! ## What is recorded of a run -/

inductive ApiEvent where
  | tokenMade (id : String) (row : AuthTokenRow)
  /-- The hash of the secret that was presented, and the live token it belongs to. -/
  | presented (tokenHash tokenId : String) (now : Int)
  | sessionMade (sessionId tokenId : String) (now : Int)
  | granted (sessionId : String) (now : Int) (ctx : AuthContext)
  | recorded (username query : String)
  | shown (ctx : AuthContext) (entries : List HistoryEntry)
  deriving DecidableEq, Repr

def apiEvents (_ : Nat) (db : ApiDb) (p : ApiStmt) (x : ApiInput) : List ApiEvent :=
  match p with
  | .auth stmt =>
    match stmt, (authExec db.auth stmt x.auth).2 with
    | .insertToken _ _ row, .inr (.token id _) => [.tokenMade id row]
    | .selectToken tokenHash now, .inl (.insertSession tokenId _ _ _) =>
      [.presented tokenHash tokenId now]
    | .insertSession tokenId _ _ now, .inr (.session id _ _ _) => [.sessionMade id tokenId now]
    | _, _ => []
  | .authenticate header now _ =>
    match authenticate db.auth header now x.auth.fails with
    | .error _ => []
    | .ok (token, ctx) => [.granted token now ctx]
  | .record ctx _ query => if x.auth.fails then [] else [.recorded ctx.username query]
  | .recent ctx req =>
    if x.auth.fails then [] else [.shown ctx (handleGetHistory o db.history ctx req)]

/-! ## What a statement does -/

/-- What a token keeps while it is there. -/
structure SameToken (row t : AuthTokenRow) : Prop where
  username : row.username = t.username
  role : row.role = t.role
  tokenHash : row.tokenHash = t.tokenHash
  expiresAt : row.expiresAt = t.expiresAt

theorem SameToken.refl (t : AuthTokenRow) : SameToken t t := ⟨rfl, rfl, rfl, rfl⟩

/-- Tokens may be revoked and sessions deleted. -/
structure Retired (db db' : AuthDb) : Prop where
  kept : ∀ id t, (id, t) ∈ db.tokens.rows → ∃ t', (id, t') ∈ db'.tokens.rows ∧ SameToken t t'
  tokens : ∀ id t', (id, t') ∈ db'.tokens.rows → ∃ t, (id, t) ∈ db.tokens.rows ∧ SameToken t t'
  sessions : ∀ x ∈ db'.sessions.rows, x ∈ db.sessions.rows

theorem Retired.refl (db : AuthDb) : Retired db db :=
  ⟨fun _ t h => ⟨t, h, .refl t⟩, fun _ t h => ⟨t, h, .refl t⟩, fun _ h => h⟩

theorem retired_revokeWhere (db : AuthDb) (p : String → AuthTokenRow → Bool) (revokedBy : String)
    (now : Int) : Retired db (revokeWhere db p revokedBy now) where
  kept id t h := by
    refine ⟨_, KeyTable.mem_update.mpr ⟨t, h, rfl⟩, ?_⟩
    split
    · exact ⟨rfl, rfl, rfl, rfl⟩
    · exact .refl t
  tokens id t' h := by
    obtain ⟨t, ht, rfl⟩ := KeyTable.mem_update.mp h
    refine ⟨t, ht, ?_⟩
    split
    · exact ⟨rfl, rfl, rfl, rfl⟩
    · exact .refl t
  sessions _ h := h

theorem retired_delete (db : AuthDb) (p : String → AuthSession → Bool) :
    Retired db { db with sessions := db.sessions.delete p } where
  kept _ t h := ⟨t, h, .refl t⟩
  tokens _ t h := ⟨t, h, .refl t⟩
  sessions _ h := (KeyTable.mem_delete.mp h).1

/-- What a caller relies on at its next statement. -/
def Grounded (es : List ApiEvent) : Option ApiStmt → Prop
  | some (.auth (.insertSession tokenId _ _ now)) =>
    ∃ tokenHash, .presented tokenHash tokenId now ∈ es
  | some (.record ctx _ _) | some (.recent ctx _) =>
    ∃ sessionId now, .granted sessionId now ctx ∈ es
  | _ => True

/-- The new state, what is recorded, and the next statement of the caller. -/
inductive ApiEffect (db : ApiDb) : ApiStmt → ApiDb → List ApiEvent → Option ApiStmt → Prop where
  | retired {p : ApiStmt} {auth : AuthDb} {next : Option ApiStmt} (h : Retired db.auth auth)
      (hnext : ∀ es, Grounded es next) : ApiEffect db p { db with auth := auth } [] next
  | token {p : ApiStmt} {id : String} {row : AuthTokenRow} {tokens : KeyTable String AuthTokenRow}
      (h : db.auth.tokens.insert? id row = some tokens) :
      ApiEffect db p { db with auth := { db.auth with tokens := tokens } } [.tokenMade id row] none
  | presented {p : ApiStmt} {tokenHash tokenId : String} {now : Int} {t : AuthTokenRow}
      (h : (tokenId, t) ∈ db.auth.tokens.rows) (hhash : t.tokenHash = tokenHash)
      (hlive : now < t.expiresAt) : ApiEffect db p db [.presented tokenHash tokenId now]
        (some (.auth (.insertSession tokenId t.username t.role now)))
  | session {tokenId username : String} {role : Role} {now : Int} {sessionId : String}
      {sessions : KeyTable String AuthSession}
      (h : db.auth.sessions.insert? sessionId ⟨tokenId, now, now + SESSION_TOKEN_TTL_MS⟩ =
        some sessions) : ApiEffect db (.auth (.insertSession tokenId username role now))
      { db with auth := { db.auth with sessions := sessions } }
      [.sessionMade sessionId tokenId now] none
  | granted {p : ApiStmt} {sessionId : String} {now : Int} {ctx : AuthContext}
      (h : validateSession db.auth sessionId now = some (ctx.username, ctx.role))
      (req : ApiRequest) : ApiEffect db p db [.granted sessionId now ctx] (some (req.next ctx))
  | record {ctx : AuthContext} {queryType query : String} (bufferId : Option Int)
      (createdAt : Int) :
      ApiEffect db (.record ctx queryType query) { db with
        history := recordWithUser db.history bufferId query queryType ctx.username createdAt }
        [.recorded ctx.username query] none
  | shown {ctx : AuthContext} {req : GetHistoryRequest} : ApiEffect db (.recent ctx req) db
      [.shown ctx (handleGetHistory o db.history ctx req)] none

theorem apiExec_auth (db : ApiDb) (stmt : AuthStmt) (x : ApiInput) :
    ApiEffect o db (.auth stmt) (apiExec o db (.auth stmt) x).1 (apiEvents o 0 db (.auth stmt) x)
      (apiExec o db (.auth stmt) x).2.getLeft? := by
  unfold apiExec apiEvents authExec
  cases x.auth.fails with
  | true =>
    simp only [if_true]
    cases stmt <;> exact .retired (.refl db.auth) fun _ => trivial
  | false =>
    simp only [Bool.false_eq_true, if_false]
    cases stmt with
    | insertToken id refresh row =>
      dsimp only
      cases h : db.auth.tokens.insert? id row with
      | none => exact .retired (.refl db.auth) fun _ => trivial
      | some tokens => exact .token h
    | selectToken tokenHash now =>
      dsimp only
      cases h : (db.auth.tokens.select fun _ t => t.tokenHash == tokenHash && !t.revoked &&
          decide (t.expiresAt > now)).head? with
      | none => exact .retired (.refl db.auth) fun _ => trivial
      | some found =>
        obtain ⟨hmem, hp⟩ := KeyTable.mem_select.mp (List.mem_of_head? h)
        simp only [Bool.and_eq_true, beq_iff_eq, decide_eq_true_eq] at hp
        exact .presented hmem hp.1.1 hp.2
    | insertSession tokenId username role now =>
      dsimp only
      cases h : db.auth.sessions.insert? x.auth.sessionId
          ⟨tokenId, now, now + SESSION_TOKEN_TTL_MS⟩ with
      | none => exact .retired (.refl db.auth) fun _ => trivial
      | some sessions => exact .session h
    | validate sessionId now => exact .retired (.refl db.auth) fun _ => trivial
    | updateTokens by_ revokedBy now =>
      refine .retired (retired_revokeWhere _ _ _ _) ?_
      dsimp only
      split <;> exact fun _ => trivial
    | purgeRevoked => exact .retired (retired_delete _ _) fun _ => trivial
    | updateAll revokedBy now => exact .retired (retired_revokeWhere _ _ _ _) fun _ => trivial
    | purgeAll count => exact .retired (retired_delete _ _) fun _ => trivial

theorem authenticate_ok {db : AuthDb} {header : Header} {now : Int} {fails : Bool} {token : String}
    {ctx : AuthContext} (h : authenticate db header now fails = .ok (token, ctx)) :
    validateSession db token now = some (ctx.username, ctx.role) := by
  unfold authenticate at h
  split at h
  · cases h
  · split at h
    · cases h
    · split at h
      · rename_i hv
        cases h
        exact hv
      · cases h

/-- What a statement can do. -/
theorem apiExec_effect (c : Nat) (db : ApiDb) (p : ApiStmt) (x : ApiInput) :
    ApiEffect o db p (apiExec o db p x).1 (apiEvents o c db p x) (apiExec o db p x).2.getLeft? := by
  cases p with
  | auth stmt => exact apiExec_auth o db stmt x
  | authenticate header now req =>
    unfold apiExec apiEvents
    dsimp only
    cases h : authenticate db.auth header now x.auth.fails with
    | error st => exact .retired (.refl db.auth) fun _ => trivial
    | ok found => exact .granted (authenticate_ok h) req
  | record ctx queryType query =>
    unfold apiExec apiEvents
    dsimp only
    split
    · exact .retired (.refl db.auth) fun _ => trivial
    · exact .record x.bufferId x.createdAt
  | recent ctx req =>
    unfold apiExec apiEvents
    dsimp only
    split
    · exact .retired (.refl db.auth) fun _ => trivial
    · exact .shown

/-! ## Where the rows come from -/

/-- The secret of the token was presented for the session, which is five minutes long. -/
structure SessionOf (es : List ApiEvent) (sessionId tokenId : String) (created expires : Int) :
    Prop where
  made : .sessionMade sessionId tokenId created ∈ es
  expires : expires = created + SESSION_TOKEN_TTL_MS
  presented : ∃ tokenHash, .presented tokenHash tokenId created ∈ es

/-- An identity is that of a token; its secret was presented less than five minutes ago. -/
def Identified (es : List ApiEvent) (sessionId : String) (now : Int) (ctx : AuthContext) : Prop :=
  ∃ tokenId row created, .tokenMade tokenId row ∈ es ∧ ctx = ⟨row.username, row.role⟩ ∧
    .presented row.tokenHash tokenId created ∈ es ∧ .sessionMade sessionId tokenId created ∈ es ∧
    now < created + SESSION_TOKEN_TTL_MS ∧ now < row.expiresAt

/-- A non-admin with a name was shown what was recorded under that name. -/
def Confined (es : List ApiEvent) (ctx : AuthContext) (entries : List HistoryEntry) : Prop :=
  ctx.role = .nonAdmin → ctx.username ≠ "" →
    ∀ e ∈ entries, e.user = ctx.username ∧ .recorded ctx.username e.question ∈ es

/-- What an event of the record rests on. -/
def Accounted (es : List ApiEvent) : ApiEvent → Prop
  | .tokenMade .. | .sessionMade .. => True
  | .presented tokenHash tokenId _ => ∃ row, .tokenMade tokenId row ∈ es ∧ row.tokenHash = tokenHash
  | .granted sessionId now ctx => Identified es sessionId now ctx
  | .recorded username _ => ∃ sessionId now role, .granted sessionId now ⟨username, role⟩ ∈ es
  | .shown ctx entries =>
    (∃ sessionId now, .granted sessionId now ctx ∈ es) ∧ Confined es ctx entries

structure ApiInv (es : List ApiEvent) (db : ApiDb) : Prop where
  events : ∀ e ∈ es, Accounted es e
  made : ∀ id row, .tokenMade id row ∈ es → ∃ t, (id, t) ∈ db.auth.tokens.rows ∧ SameToken row t
  tokens : ∀ id t, (id, t) ∈ db.auth.tokens.rows → ∃ row, .tokenMade id row ∈ es ∧ SameToken row t
  sessions : ∀ id s, (id, s) ∈ db.auth.sessions.rows →
    SessionOf es id s.tokenId s.createdAt s.expiresAt
  history : ∀ i r, (i, r) ∈ db.history.rows → ∀ u, r.user = some u → .recorded u r.query ∈ es

theorem SameToken.trans {a b c : AuthTokenRow} (h : SameToken a b) (h' : SameToken b c) :
    SameToken a c :=
  ⟨h.username.trans h'.username, h.role.trans h'.role, h.tokenHash.trans h'.tokenHash,
    h.expiresAt.trans h'.expiresAt⟩

theorem SessionOf.mono {es : List ApiEvent} {sessionId tokenId : String} {created expires : Int}
    (h : SessionOf es sessionId tokenId created expires) (new : List ApiEvent) :
    SessionOf (new ++ es) sessionId tokenId created expires :=
  ⟨List.mem_append_right new h.made, h.expires, h.presented.imp fun _ =>
    List.mem_append_right new⟩

theorem Grounded.mono {es : List ApiEvent} {next : Option ApiStmt} (h : Grounded es next)
    (new : List ApiEvent) : Grounded (new ++ es) next := by
  unfold Grounded at h ⊢
  split at h
  · exact h.imp fun _ => List.mem_append_right new
  · exact h.imp fun _ => Exists.imp fun _ => List.mem_append_right new
  · exact h.imp fun _ => Exists.imp fun _ => List.mem_append_right new
  · trivial

theorem Accounted.mono {es : List ApiEvent} {e : ApiEvent} (h : Accounted es e)
    (new : List ApiEvent) : Accounted (new ++ es) e := by
  cases e with
  | tokenMade id row => trivial
  | sessionMade sessionId tokenId now => trivial
  | presented tokenHash tokenId now =>
    exact h.imp fun _ hrow => ⟨List.mem_append_right new hrow.1, hrow.2⟩
  | granted sessionId now ctx =>
    obtain ⟨tokenId, row, created, hmade, hctx, hpresented, hsession, hlive⟩ := h
    exact ⟨tokenId, row, created, List.mem_append_right new hmade, hctx,
      List.mem_append_right new hpresented, List.mem_append_right new hsession, hlive⟩
  | recorded username query =>
    exact h.imp fun _ => Exists.imp fun _ => Exists.imp fun _ => List.mem_append_right new
  | shown ctx entries =>
    refine ⟨h.1.imp fun _ => Exists.imp fun _ => List.mem_append_right new, ?_⟩
    exact fun hrole hname e he =>
      ⟨(h.2 hrole hname e he).1, List.mem_append_right new (h.2 hrole hname e he).2⟩

theorem ApiInv.empty : ApiInv [] .empty where
  events _ h := by cases h
  made _ _ h := by cases h
  tokens _ _ h := absurd h KeyTable.not_mem_empty
  sessions _ _ h := absurd h KeyTable.not_mem_empty
  history _ _ h := by cases h

/-- The token of a valid session is the one whose secret was presented. -/
theorem ApiInv.identified {es : List ApiEvent} {db : ApiDb} (h : ApiInv es db) {sessionId : String}
    {now : Int} {ctx : AuthContext}
    (hv : validateSession db.auth sessionId now = some (ctx.username, ctx.role)) :
    Identified es sessionId now ctx := by
  obtain ⟨s, hs, hv⟩ := Option.bind_eq_some_iff.mp hv
  split at hv
  · rename_i hlive
    obtain ⟨t, ht, hv⟩ := Option.bind_eq_some_iff.mp hv
    split at hv
    · rename_i hvalid
      have hctx := Option.some_inj.mp hv
      simp only [Bool.and_eq_true, decide_eq_true_eq] at hvalid
      have ht := KeyTable.get?_eq_some.mp ht
      obtain ⟨hmade, hexpires, tokenHash, hpresented⟩ :=
        h.sessions sessionId s (KeyTable.get?_eq_some.mp hs)
      obtain ⟨row, hrow, hhash⟩ := h.events _ hpresented
      -- the id of the token stands for one row
      obtain ⟨t', ht', hsame⟩ := h.made s.tokenId row hrow
      have heq : t' = t := Option.some_inj.mp
        ((KeyTable.get?_eq_some.mpr ht').symm.trans (KeyTable.get?_eq_some.mpr ht))
      rw [heq] at hsame
      refine ⟨s.tokenId, row, s.createdAt, hrow, ?_, hhash ▸ hpresented, hmade, ?_, ?_⟩
      · obtain ⟨hname, hrole⟩ := Prod.mk.inj hctx
        rw [hsame.username, hsame.role, hname, hrole]
      · rw [← hexpires]
        exact hlive
      · rw [hsame.expiresAt]
        exact hvalid.2
    · cases hv
  · cases hv

/-- What a non-admin with a name is shown. -/
theorem mem_ownHistory {history : SeqTable HistoryRow} {ctx : AuthContext} {req : GetHistoryRequest}
    (hrole : ctx.role = .nonAdmin) (hname : ctx.username ≠ "") {e : HistoryEntry}
    (he : e ∈ handleGetHistory o history ctx req) :
    ∃ i r, (i, r) ∈ history.rows ∧ r.user = some ctx.username ∧ e = historyEntry (i, r) := by
  obtain ⟨⟨i, r⟩, hrow, rfl⟩ := List.mem_map.mp he
  have hfilter : userFilter ctx req = some ctx.username := by
    rw [userFilter, AuthContext.isAdmin, hrole]
    rfl
  have hscope : (some ctx.username).filter (fun u => !u.isEmpty) = some ctx.username := by
    rw [Option.filter_some, if_pos (by simpa using hname)]
  rw [hfilter, recentOptUser, hscope] at hrow
  have hmem := o.mem_order.mp (List.mem_mergeSort.mp (List.mem_of_mem_take hrow))
  obtain ⟨hmem, huser⟩ := Table.mem_select.mp hmem
  exact ⟨i, r, hmem, by simpa using huser, rfl⟩

theorem historyEntry_user {i : Int} {r : HistoryRow} {u : String} (h : r.user = some u) :
    (historyEntry (i, r)).user = u := by
  rw [historyEntry, h]
  rfl

theorem ApiInv.confined {es : List ApiEvent} {db : ApiDb} (h : ApiInv es db) (ctx : AuthContext)
    (req : GetHistoryRequest) : Confined es ctx (handleGetHistory o db.history ctx req) := by
  intro hrole hname e he
  obtain ⟨i, r, hmem, huser, rfl⟩ := mem_ownHistory o hrole hname he
  exact ⟨historyEntry_user huser, h.history i r hmem _ huser⟩

theorem ApiEffect.accounted {es : List ApiEvent} {db db' : ApiDb} {p : ApiStmt}
    {new : List ApiEvent} {next : Option ApiStmt} (h : ApiEffect o db p db' new next)
    (hI : ApiInv es db) (hA : Grounded es (some p)) : ∀ e ∈ new, Accounted es e := by
  cases h with
  | retired hr hnext => exact fun _ h => nomatch h
  | token hi => exact List.forall_mem_singleton.mpr trivial
  | presented ht hhash hlive =>
    obtain ⟨row, hrow, hsame⟩ := hI.tokens _ _ ht
    exact List.forall_mem_singleton.mpr ⟨row, hrow, hsame.tokenHash.trans hhash⟩
  | session hi => exact List.forall_mem_singleton.mpr trivial
  | granted hv req => exact List.forall_mem_singleton.mpr (hI.identified hv)
  | record bufferId createdAt =>
    obtain ⟨sessionId, now, hgranted⟩ := hA
    exact List.forall_mem_singleton.mpr ⟨sessionId, now, _, hgranted⟩
  | shown => exact List.forall_mem_singleton.mpr ⟨hA, hI.confined o _ _⟩

/-- A statement keeps the invariant. -/
theorem ApiEffect.inv {es : List ApiEvent} {db db' : ApiDb} {p : ApiStmt} {new : List ApiEvent}
    {next : Option ApiStmt} (h : ApiEffect o db p db' new next) (hI : ApiInv es db)
    (hA : Grounded es (some p)) : ApiInv (new ++ es) db' := by
  have hevents : ∀ e ∈ new ++ es, Accounted (new ++ es) e := by
    intro e he
    rcases List.mem_append.mp he with he | he
    · exact (h.accounted o hI hA e he).mono new
    · exact (hI.events e he).mono new
  have htokens : ∀ id t, (id, t) ∈ db.auth.tokens.rows →
      ∃ row, .tokenMade id row ∈ new ++ es ∧ SameToken row t := fun id t ht =>
    (hI.tokens id t ht).imp fun _ hrow => ⟨List.mem_append_right new hrow.1, hrow.2⟩
  have hsessions : ∀ id s, (id, s) ∈ db.auth.sessions.rows →
      SessionOf (new ++ es) id s.tokenId s.createdAt s.expiresAt :=
    fun id s hs => (hI.sessions id s hs).mono new
  have hhistory : ∀ i r, (i, r) ∈ db.history.rows → ∀ u, r.user = some u →
      .recorded u r.query ∈ new ++ es :=
    fun i r hr u hu => List.mem_append_right new (hI.history i r hr u hu)
  -- an event that makes no token
  have hmade : ∀ {e : ApiEvent}, (∀ id row, e ≠ .tokenMade id row) → ∀ id row,
      .tokenMade id row ∈ [e] ++ es → ∃ t, (id, t) ∈ db.auth.tokens.rows ∧ SameToken row t := by
    intro e hne id row hrow
    rcases List.mem_append.mp hrow with hrow | hrow
    · exact absurd (List.mem_singleton.mp hrow).symm (hne id row)
    · exact hI.made id row hrow
  cases h with
  | retired hr hnext =>
    refine ⟨hevents, fun id row hrow => ?_, fun id t' ht' => ?_, fun id s hs => ?_, hhistory⟩
    · obtain ⟨t, ht, hsame⟩ := hI.made id row hrow
      obtain ⟨t', ht', hsame'⟩ := hr.kept id t ht
      exact ⟨t', ht', hsame.trans hsame'⟩
    · obtain ⟨t, ht, hsame'⟩ := hr.tokens id t' ht'
      obtain ⟨row, hrow, hsame⟩ := hI.tokens id t ht
      exact ⟨row, hrow, hsame.trans hsame'⟩
    · exact hI.sessions id s (hr.sessions _ hs)
  | @token _ id row tokens hi =>
    refine ⟨hevents, fun id' row' hrow => ?_, fun id' t ht => ?_, hsessions, hhistory⟩
    · rcases List.mem_append.mp hrow with hrow | hrow
      · obtain ⟨rfl, rfl⟩ := ApiEvent.tokenMade.inj (List.mem_singleton.mp hrow)
        exact ⟨row', (KeyTable.mem_insert? hi).mpr (.inr ⟨rfl, rfl⟩), .refl row'⟩
      · obtain ⟨t, ht, hsame⟩ := hI.made id' row' hrow
        exact ⟨t, (KeyTable.mem_insert? hi).mpr (.inl ht), hsame⟩
    · rcases (KeyTable.mem_insert? hi).mp ht with ht | ⟨rfl, rfl⟩
      · exact htokens id' t ht
      · exact ⟨t, List.mem_cons_self, .refl t⟩
  | presented ht hhash hlive => exact ⟨hevents, hmade nofun, htokens, hsessions, hhistory⟩
  | session hi =>
    refine ⟨hevents, hmade nofun, htokens, fun id s hs => ?_, hhistory⟩
    rcases (KeyTable.mem_insert? hi).mp hs with hs | ⟨rfl, rfl⟩
    · exact hsessions id s hs
    · exact ⟨List.mem_cons_self, rfl, hA.imp fun _ => List.mem_cons_of_mem _⟩
  | granted hv req => exact ⟨hevents, hmade nofun, htokens, hsessions, hhistory⟩
  | record bufferId createdAt =>
    refine ⟨hevents, hmade nofun, htokens, hsessions, fun i r hr u hu => ?_⟩
    rcases SeqTable.mem_insert.mp hr with hr | ⟨-, rfl⟩
    · exact hhistory i r hr u hu
    · dsimp only at hu
      split at hu
      · cases hu
      · rw [← Option.some_inj.mp hu]
        exact List.mem_cons_self
  | shown => exact ⟨hevents, hmade nofun, htokens, hsessions, hhistory⟩

theorem ApiEffect.grounded {es : List ApiEvent} {db db' : ApiDb} {p : ApiStmt}
    {new : List ApiEvent} {next : Option ApiStmt} (h : ApiEffect o db p db' new next) :
    Grounded (new ++ es) next := by
  cases h with
  | retired hr hnext => exact hnext _
  | token hi => trivial
  | presented ht hhash hlive => exact ⟨_, List.mem_cons_self⟩
  | session hi => trivial
  | @granted _ sessionId now ctx hv req =>
    cases req with
    | recorded queryType query => exact ⟨sessionId, now, List.mem_cons_self⟩
    | getHistory req => exact ⟨sessionId, now, List.mem_cons_self⟩
  | record bufferId createdAt => trivial
  | shown => trivial

theorem api_inv (is : List (Input ApiCall ApiInput)) :
    ApiInv (history (apiProgram env o) (apiEvents o) .empty is).1
      (history (apiProgram env o) (apiEvents o) .empty is).2.shared := by
  have hstart : ∀ (k : ApiCall) (es : List ApiEvent), Grounded es (some (k.start env)) := by
    intro k es
    cases k with
    | auth call => cases call <;> trivial
    | request header now req => trivial
  refine (outline (P := apiProgram env o) (f := apiEvents o) (G := fun _ _ _ _ _ => True)
    (A := fun es _ _ q => Grounded es q) .empty (fun _ => trivial)
    (fun es _ _ k _ _ => hstart k es)
    (fun es db c p x hI hA _ => (apiExec_effect o c db p x).inv o hI hA)
    (fun es db c p x _ _ _ => (apiExec_effect o c db p x).grounded o)
    (fun es db c p x d q _ _ _ _ hq => hq.mono _) ?_).1
  induction is with
  | nil => trivial
  | cons i is ih =>
    refine ⟨ih, ?_⟩
    cases i with
    | call c k => trivial
    | run c x => exact fun _ _ => trivial

/-- In every run, whatever the order of the statements: a request is taken for the user and the
role of a token that was created with them, whose secret was presented for the session of the
request, less than five minutes before and while the token had not expired. -/
theorem identity_provenance (is : List (Input ApiCall ApiInput)) {sessionId : String} {now : Int}
    {ctx : AuthContext} (h : .granted sessionId now ctx ∈
      (history (apiProgram env o) (apiEvents o) .empty is).1) :
    Identified (history (apiProgram env o) (apiEvents o) .empty is).1 sessionId now ctx :=
  (api_inv env o is).events _ h

/-- In every run: history is shown to a caller that was authenticated, and a non-admin whose
username is not empty sees only what calls of that username recorded. -/
theorem history_confined (is : List (Input ApiCall ApiInput)) {ctx : AuthContext}
    {entries : List HistoryEntry} (h : .shown ctx entries ∈
      (history (apiProgram env o) (apiEvents o) .empty is).1) :
    (∃ sessionId now, Identified (history (apiProgram env o) (apiEvents o) .empty is).1 sessionId
      now ctx) ∧ Confined (history (apiProgram env o) (apiEvents o) .empty is).1 ctx entries := by
  obtain ⟨⟨sessionId, now, hgranted⟩, hconfined⟩ := (api_inv env o is).events _ h
  exact ⟨⟨sessionId, now, (api_inv env o is).events _ hgranted⟩, hconfined⟩

def apiDrawn (sessionId : String) : ApiInput := ⟨drawn sessionId, none, 7⟩

/-- Two tokens and a session of each; both search, and one asks for its history. -/
def twoUsers : List (Input ApiCall ApiInput) :=
  [.run 2 (apiDrawn ""), .run 2 (apiDrawn ""),
    .call 2 (.request (.text "Bearer s") 5 (.getHistory ⟨"v", 10⟩)),
    .run 1 (apiDrawn ""), .run 0 (apiDrawn ""), .run 0 (apiDrawn ""), .run 1 (apiDrawn ""),
    .call 1 (.request (.text "bearer r") 4 (.recorded "search" "q")),
    .call 0 (.request (.text "Bearer s") 4 (.recorded "search" "p")),
    .run 1 (apiDrawn "r"), .run 0 (apiDrawn "s"), .run 1 (apiDrawn ""), .run 0 (apiDrawn ""),
    .call 1 (.auth (.createSession "other" 3)), .call 0 (.auth (.createSession "secret" 2)),
    .run 1 (apiDrawn ""), .run 0 (apiDrawn ""),
    .call 1 (.auth (.createToken ⟨"v", .nonAdmin, "cli"⟩ "w" "other" 1)),
    .call 0 (.auth (.createToken ⟨"u", .nonAdmin, "cli"⟩ "t" "secret" 0))]

theorem identity_provenance_two_users :
    Identified (history (apiProgram sampleTokenEnv .rowid) (apiEvents .rowid) .empty twoUsers).1
      "s" 5 ⟨"u", .nonAdmin⟩ :=
  identity_provenance sampleTokenEnv .rowid twoUsers (by decide +kernel)

theorem history_confined_two_users :
    Confined (history (apiProgram sampleTokenEnv .rowid) (apiEvents .rowid) .empty twoUsers).1
      ⟨"u", .nonAdmin⟩ [⟨1, "u", "p", "7"⟩] :=
  (history_confined sampleTokenEnv .rowid twoUsers (by decide +kernel)).2

end Arags.Api
