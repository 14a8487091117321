import Arags.Index.Digests
import Arags.Lib.KeyTable
import Arags.Lib.Threads

/-!
# Arags.Auth.Sessions

Refresh tokens and sessions, `sqlite/tokens` with its tables `auth_tokens` and `auth_sessions`. A
step is one statement of one call; each statement commits by itself.

* `exec`            — the statements; the clock of a call is read when it starts.
* `validateSession` — the only read of a session: its row joined with its token.
* `SessionIdsNew`   — `Uuid::now_v7` gives no session id twice.
* `revocation_final` — no session of a token that was revoked or has expired is valid.
-/

namespace Arags

open Sql Threads

inductive Role where
  | admin | nonAdmin
  deriving DecidableEq, Repr

def REFRESH_TOKEN_TTL_MS : Int := 365 * 24 * 60 * 60 * 1000
def SESSION_TOKEN_TTL_MS : Int := 5 * 60 * 1000

/-- A row of `auth_tokens`, under its `id`. -/
structure AuthTokenRow where
  username : String
  role : Role
  tokenHash : String
  createdAt : Int
  expiresAt : Int
  createdBy : String
  revoked : Bool
  revokedAt : Option Int
  revokedBy : Option String
  deriving DecidableEq, Repr

/-- A row of `auth_sessions`, under its `id`. -/
structure AuthSession where
  tokenId : String
  createdAt : Int
  expiresAt : Int
  deriving DecidableEq, Repr

structure AuthDb where
  tokens : KeyTable String AuthTokenRow
  sessions : KeyTable String AuthSession

def AuthDb.empty : AuthDb := ⟨.empty, .empty⟩

structure NewToken where
  username : String
  role : Role
  createdBy : String
  deriving DecidableEq, Repr

inductive RevokeBy where
  | id (v : String)
  | username (v : String)
  deriving DecidableEq, Repr

/-- The `WHERE` of its statement, without `revoked = 0`. -/
def RevokeBy.selects (by_ : RevokeBy) (id : String) (t : AuthTokenRow) : Bool :=
  match by_ with
  | .id v => id == v
  | .username v => t.username == v

structure TokenEnv where
  sha256 : String → List UInt8
  /-- `ARAGS_TOKEN_PEPPER`. -/
  pepper : String

def hashRefresh (env : TokenEnv) (refresh : String) : String :=
  hexEncode (env.sha256 (refresh ++ env.pepper))

/-! ## The calls -/

/-- Each with the time its clock reads; `createToken` with the id and the secret it draws. -/
inductive AuthCall where
  | createToken (new : NewToken) (id refresh : String) (now : Int)
  | createSession (refreshToken : String) (now : Int)
  | validate (sessionId : String) (now : Int)
  | revokeTokens (by_ : RevokeBy) (revokedBy : String) (now : Int)
  | revokeAll (revokedBy : String) (now : Int)

inductive AuthStmt where
  | insertToken (id refresh : String) (row : AuthTokenRow)
  | selectToken (tokenHash : String) (now : Int)
  | insertSession (tokenId username : String) (role : Role) (now : Int)
  | validate (sessionId : String) (now : Int)
  | updateTokens (by_ : RevokeBy) (revokedBy : String) (now : Int)
  | purgeRevoked
  | updateAll (revokedBy : String) (now : Int)
  | purgeAll (count : Nat)
  deriving DecidableEq, Repr

inductive AuthReply where
  | token (id refresh : String)
  | session (id username : String) (role : Role) (expiresAt : Int)
  | validated (found : Option (String × Role))
  | revoked (any : Bool)
  | revokedAll (count : Nat)
  | error (message : String)
  deriving DecidableEq, Repr

/-- A statement may fail; the id is the one that an insert of a session draws. -/
structure AuthInput where
  fails : Bool
  sessionId : String
  deriving DecidableEq, Repr

def AuthCall.start (env : TokenEnv) : AuthCall → AuthStmt
  | .createToken new id refresh now => .insertToken id refresh {
      username := new.username
      role := new.role
      tokenHash := hashRefresh env refresh
      createdAt := now
      expiresAt := now + REFRESH_TOKEN_TTL_MS
      createdBy := new.createdBy
      revoked := false
      revokedAt := none
      revokedBy := none }
  | .createSession refreshToken now => .selectToken (hashRefresh env refreshToken) now
  | .validate sessionId now => .validate sessionId now
  | .revokeTokens by_ revokedBy now => .updateTokens by_ revokedBy now
  | .revokeAll revokedBy now => .updateAll revokedBy now

/-- The session is live, and its token is neither revoked nor expired. -/
def validateSession (db : AuthDb) (sessionId : String) (now : Int) : Option (String × Role) :=
  (db.sessions.get? sessionId).bind fun s =>
    if s.expiresAt > now then
      (db.tokens.get? s.tokenId).bind fun t =>
        if !t.revoked && decide (t.expiresAt > now) then some (t.username, t.role) else none
    else none

/-- `SET revoked = 1, revoked_at = ?1, revoked_by = ?2 WHERE … AND revoked = 0`. -/
def revokeWhere (db : AuthDb) (p : String → AuthTokenRow → Bool) (revokedBy : String) (now : Int) :
    AuthDb :=
  { db with tokens := db.tokens.update (fun id t => p id t && !t.revoked) fun _ t =>
      { t with revoked := true, revokedAt := some now, revokedBy := some revokedBy } }

/-- The rows that the statement changes. -/
def revocable (db : AuthDb) (p : String → AuthTokenRow → Bool) : Nat :=
  (db.tokens.select fun id t => p id t && !t.revoked).length

/-- The sessions refer to tokens that are there: no token is ever deleted. -/
def authExec (db : AuthDb) (p : AuthStmt) (x : AuthInput) : AuthDb × (AuthStmt ⊕ AuthReply) :=
  if x.fails then (db, .inr (.error "database is locked"))
  else
    match p with
    | .insertToken id refresh row =>
      match db.tokens.insert? id row with
      | none => (db, .inr (.error "failed to insert auth token"))
      | some tokens => ({ db with tokens := tokens }, .inr (.token id refresh))
    | .selectToken tokenHash now =>
      match (db.tokens.select fun _ t => t.tokenHash == tokenHash && !t.revoked &&
          decide (t.expiresAt > now)).head? with
      | none => (db, .inr (.error "AuthRefresh failed: invalid or expired refresh token"))
      | some (id, t) => (db, .inl (.insertSession id t.username t.role now))
    | .insertSession tokenId username role now =>
      let expires := now + SESSION_TOKEN_TTL_MS
      match db.sessions.insert? x.sessionId ⟨tokenId, now, expires⟩ with
      | none => (db, .inr (.error "failed to insert auth session"))
      | some sessions => ({ db with sessions := sessions },
          .inr (.session x.sessionId username role expires))
    | .validate sessionId now => (db, .inr (.validated (validateSession db sessionId now)))
    | .updateTokens by_ revokedBy now =>
      (revokeWhere db by_.selects revokedBy now,
        if revocable db by_.selects > 0 then .inl .purgeRevoked else .inr (.revoked false))
    | .purgeRevoked =>
      ({ db with sessions := db.sessions.delete fun _ s =>
          (db.tokens.get? s.tokenId).any AuthTokenRow.revoked }, .inr (.revoked true))
    | .updateAll revokedBy now =>
      (revokeWhere db (fun _ _ => true) revokedBy now,
        .inl (.purgeAll (revocable db fun _ _ => true)))
    | .purgeAll count =>
      ({ db with sessions := db.sessions.delete fun _ _ => true }, .inr (.revokedAll count))

def authProgram (env : TokenEnv) : Program AuthDb AuthCall AuthStmt AuthInput AuthReply where
  start := AuthCall.start env
  exec := authExec

/-! ## Runs -/

inductive AuthEvent where
  | created (sessionId tokenId : String)
  | validated (sessionId : String) (now : Int) (found : Option (String × Role))
  deriving DecidableEq, Repr

def authEvents (_ : Nat) (db : AuthDb) (p : AuthStmt) (x : AuthInput) : List AuthEvent :=
  match p, (authExec db p x).2 with
  | .insertSession tokenId _ _ _, .inr (.session id _ _ _) => [.created id tokenId]
  | .validate sessionId now, .inr (.validated found) => [.validated sessionId now found]
  | _, _ => []

def AuthEvent.createdId : AuthEvent → Option String
  | .created sessionId _ => some sessionId
  | .validated .. => none

/-- The id drawn for a session is that of no session so far. -/
def SessionIdsNew (es : List AuthEvent) (_ : AuthDb) (_ : Nat) : AuthStmt → AuthInput → Prop
  | .insertSession .., x => ∀ e ∈ es, e.createdId ≠ some x.sessionId
  | _, _ => True

instance decidableSessionIdsNew (es : List AuthEvent) (db : AuthDb) (c : Nat) :
    ∀ p x, Decidable (SessionIdsNew es db c p x)
  | .insertSession .., x => inferInstanceAs (Decidable (∀ e ∈ es, e.createdId ≠ some x.sessionId))
  | .insertToken .., _ | .selectToken .., _ | .validate .., _ | .updateTokens .., _
  | .purgeRevoked, _ | .updateAll .., _ | .purgeAll _, _ => inferInstanceAs (Decidable True)

/-! ## What a statement does -/

/-- The new state, and what is recorded. -/
inductive AuthEffect (db : AuthDb) : AuthDb → List AuthEvent → Prop where
  | quiet {new : List AuthEvent} (h : ∀ e ∈ new, e.createdId = none) : AuthEffect db db new
  | token {id : String} {row : AuthTokenRow} {tokens : KeyTable String AuthTokenRow}
      (h : db.tokens.insert? id row = some tokens) : AuthEffect db { db with tokens := tokens } []
  | session {id : String} {s : AuthSession} {sessions : KeyTable String AuthSession}
      (h : db.sessions.insert? id s = some sessions) :
      AuthEffect db { db with sessions := sessions } [.created id s.tokenId]
  | revoke (p : String → AuthTokenRow → Bool) (revokedBy : String) (now : Int) :
      AuthEffect db (revokeWhere db p revokedBy now) []
  | purge (p : String → AuthSession → Bool) :
      AuthEffect db { db with sessions := db.sessions.delete p } []

theorem authExec_effect (c : Nat) (db : AuthDb) (p : AuthStmt) (x : AuthInput) :
    AuthEffect db (authExec db p x).1 (authEvents c db p x) := by
  have hnone : ∀ e ∈ ([] : List AuthEvent), e.createdId = none := by simp
  unfold authEvents authExec
  cases x.fails with
  | true => cases p <;> exact .quiet hnone
  | false =>
    simp only [Bool.false_eq_true, if_false]
    cases p with
    | insertToken id refresh row =>
      dsimp only
      cases h : db.tokens.insert? id row with
      | none => exact .quiet hnone
      | some tokens => exact .token h
    | selectToken tokenHash now =>
      dsimp only
      split
      · exact .quiet hnone
      · exact .quiet hnone
    | insertSession tokenId username role now =>
      dsimp only
      cases h : db.sessions.insert? x.sessionId ⟨tokenId, now, now + SESSION_TOKEN_TTL_MS⟩ with
      | none => exact .quiet hnone
      | some sessions => exact .session h
    | validate sessionId now => exact .quiet (by simp [AuthEvent.createdId])
    | updateTokens by_ revokedBy now =>
      dsimp only
      exact .revoke by_.selects revokedBy now
    | purgeRevoked => exact .purge _
    | updateAll revokedBy now => exact .revoke _ revokedBy now
    | purgeAll count => exact .purge _

/-! ## Tokens stay, and stay revoked -/

structure TokensKept (past now : AuthDb) : Prop where
  kept : ∀ id t, (id, t) ∈ past.tokens.rows → ∃ t', (id, t') ∈ now.tokens.rows ∧
    t'.expiresAt = t.expiresAt ∧ (t.revoked = true → t'.revoked = true)

theorem TokensKept.refl (db : AuthDb) : TokensKept db db :=
  ⟨fun _ t h => ⟨t, h, rfl, id⟩⟩

theorem TokensKept.trans {a b c : AuthDb} (hab : TokensKept a b) (hbc : TokensKept b c) :
    TokensKept a c where
  kept := by
    intro id t ht
    obtain ⟨u, hu, hexpires, hrevoked⟩ := hab.kept id t ht
    obtain ⟨v, hv, hexpires', hrevoked'⟩ := hbc.kept id u hu
    exact ⟨v, hv, hexpires'.trans hexpires, fun h => hrevoked' (hrevoked h)⟩

theorem AuthEffect.tokensKept {db db' : AuthDb} {new : List AuthEvent}
    (h : AuthEffect db db' new) : TokensKept db db' := by
  cases h with
  | quiet h => exact .refl db
  | token h => exact ⟨fun id t ht => ⟨t, (KeyTable.mem_insert? h).mpr (.inl ht), rfl, fun h => h⟩⟩
  | session h => exact ⟨fun id t ht => ⟨t, ht, rfl, fun h => h⟩⟩
  | revoke p revokedBy now =>
    refine ⟨fun id t ht => ⟨_, KeyTable.mem_update.mpr ⟨t, ht, rfl⟩, ?_⟩⟩
    split
    · exact ⟨rfl, fun _ => rfl⟩
    · exact ⟨rfl, fun h => h⟩
  | purge p => exact ⟨fun id t ht => ⟨t, ht, rfl, fun h => h⟩⟩

/-! ## Sessions stay with their tokens -/

/-- A session is of the token that it was created from. -/
def SessionsOwned (es : List AuthEvent) (db : AuthDb) : Prop :=
  ∀ id s, (id, s) ∈ db.sessions.rows → ∀ tokenId, .created id tokenId ∈ es → tokenId = s.tokenId

theorem AuthEffect.sessionsOwned {es : List AuthEvent} {db db' : AuthDb} {new : List AuthEvent}
    (h : AuthEffect db db' new) (hI : SessionsOwned es db)
    (hnew : ∀ e ∈ new, e.createdId ≠ none → ∀ e' ∈ es, e'.createdId ≠ e.createdId) :
    SessionsOwned (new ++ es) db' := by
  intro id s hs tokenId hcreated
  rcases List.mem_append.mp hcreated with hmem | hmem
  · cases h with
    | quiet h => cases h _ hmem
    | session h =>
      obtain ⟨rfl, rfl⟩ := AuthEvent.created.inj (List.mem_singleton.mp hmem)
      rcases (KeyTable.mem_insert? h).mp hs with hs | ⟨-, rfl⟩
      · exact absurd hs (KeyTable.insert?_new h s)
      · rfl
    | token h => cases hmem
    | revoke p revokedBy now => cases hmem
    | purge p => cases hmem
  · cases h with
    | quiet h => exact hI id s hs tokenId hmem
    | token h => exact hI id s hs tokenId hmem
    | session h =>
      rcases (KeyTable.mem_insert? h).mp hs with hs | ⟨rfl, -⟩
      · exact hI id s hs tokenId hmem
      · have hid := hnew _ (List.mem_singleton.mpr rfl) (Option.some_ne_none _) _ hmem
        exact absurd rfl hid
    | revoke p revokedBy now => exact hI id s hs tokenId hmem
    | purge p => exact hI id s (KeyTable.mem_delete.mp hs).1 tokenId hmem

theorem authEvents_new {es : List AuthEvent} {c : Nat} {db : AuthDb} {p : AuthStmt} {x : AuthInput}
    (h : SessionIdsNew es db c p x) : ∀ e ∈ authEvents c db p x, e.createdId ≠ none →
      ∀ e' ∈ es, e'.createdId ≠ e.createdId := by
  intro e he hne
  unfold authEvents at he
  split at he
  · rename_i tokenId _ _ _ id _ _ _ hexec
    obtain rfl := List.mem_singleton.mp he
    have hid : id = x.sessionId := by
      unfold authExec at hexec
      split at hexec
      · cases hexec
      · dsimp only at hexec
        split at hexec
        · cases hexec
        · cases hexec
          rfl
    rw [hid]
    exact h
  · obtain rfl := List.mem_singleton.mp he
    exact absurd rfl hne
  · cases he

/-- A token that was revoked, or whose expiry is not after the time of the check, has no valid
session, whenever it was created. -/
theorem revocation_final (env : TokenEnv) (is later : List (Input AuthCall AuthInput))
    (hids : Guarded (authProgram env) authEvents SessionIdsNew .empty (later ++ is))
    {tokenId : String} {t : AuthTokenRow}
    (ht : (history (authProgram env) authEvents .empty is).2.shared.tokens.get? tokenId = some t)
    {sessionId : String} (hs : .created sessionId tokenId ∈
      (history (authProgram env) authEvents .empty (later ++ is)).1)
    {now : Int} (hdead : t.revoked = true ∨ t.expiresAt ≤ now) :
    validateSession (history (authProgram env) authEvents .empty (later ++ is)).2.shared sessionId
      now = none := by
  have howned := outline_shared (P := authProgram env) (f := authEvents) (I := SessionsOwned)
    (fun _ _ hrow => absurd hrow KeyTable.not_mem_empty)
    (fun es db c p x hI hG => (authExec_effect c db p x).sessionsOwned hI (authEvents_new hG)) hids
  have hkept := history_mono (P := authProgram env) (f := authEvents) TokensKept.refl
    TokensKept.trans (fun db p x => (authExec_effect 0 db p x).tokensKept) .empty is later
  obtain ⟨t', ht', hexpires, hrevoked⟩ := hkept.kept tokenId t (KeyTable.get?_eq_some.mp ht)
  generalize (history (authProgram env) authEvents .empty (later ++ is)).2.shared = db
    at howned ht' ⊢
  refine Option.bind_eq_none_iff.mpr fun s hsession => ?_
  have htoken := howned sessionId s (KeyTable.get?_eq_some.mp hsession) tokenId hs
  split
  · rw [← htoken, KeyTable.get?_eq_some.mpr ht', Option.bind_some]
    refine if_neg ?_
    rw [Bool.and_eq_true, Bool.not_eq_true', decide_eq_true_eq]
    rintro ⟨hlive, hlater⟩
    rcases hdead with hdead | hdead
    · rw [hrevoked hdead] at hlive
      cases hlive
    · omega
  · rfl

def sampleTokenEnv : TokenEnv := ⟨fun s => s.toList.map fun c => c.toNat.toUInt8, ""⟩

def drawn (sessionId : String) : AuthInput := ⟨false, sessionId⟩

/-- A session is created while its token is revoked: the check comes before, the insert after. -/
def revokedBetween : List (Input AuthCall AuthInput) :=
  [.run 2 (drawn ""), .run 2 (drawn ""), .call 2 (.revokeTokens (.username "u") "cli" 11),
    .run 1 (drawn ""), .call 1 (.createSession "secret" 10),
    .run 0 (drawn ""), .call 0 (.createToken ⟨"u", .nonAdmin, "cli"⟩ "t" "secret" 0)]

theorem revocation_final_between :
    let h := history (authProgram sampleTokenEnv) authEvents .empty
      ([.run 1 (drawn "s")] ++ revokedBetween)
    .created "s" "t" ∈ h.1 ∧ (h.2.shared.sessions.get? "s").isSome = true ∧
      validateSession h.2.shared "s" 12 = none := by
  intro h
  have hs : .created "s" "t" ∈ h.1 := by decide +kernel
  refine ⟨hs, by decide +kernel, ?_⟩
  have hrevoked : ((history (authProgram sampleTokenEnv) authEvents .empty
      revokedBetween).2.shared.tokens.get? "t").map AuthTokenRow.revoked = some true := by
    decide +kernel
  obtain ⟨t, ht, hrevoked⟩ := Option.map_eq_some_iff.mp hrevoked
  exact revocation_final sampleTokenEnv revokedBetween [.run 1 (drawn "s")] (by decide +kernel) ht
    hs (.inl hrevoked)

/-- The session is refused when its token has expired; then the clock is set back. -/
def expiredOnce : List (Input AuthCall AuthInput) :=
  [.run 2 (drawn ""), .call 2 (.validate "s" REFRESH_TOKEN_TTL_MS),
    .run 1 (drawn "s"), .run 1 (drawn ""),
    .call 1 (.createSession "secret" (REFRESH_TOKEN_TTL_MS - 1)), .run 0 (drawn ""),
    .call 0 (.createToken ⟨"u", .nonAdmin, "cli"⟩ "t" "secret" 0)]

theorem revocation_final_clock_back :
    let h := history (authProgram sampleTokenEnv) authEvents .empty expiredOnce
    .created "s" "t" ∈ h.1 ∧ .validated "s" REFRESH_TOKEN_TTL_MS none ∈ h.1 ∧
      (h.2.shared.tokens.get? "t").map AuthTokenRow.expiresAt = some REFRESH_TOKEN_TTL_MS ∧
      validateSession h.2.shared "s" (REFRESH_TOKEN_TTL_MS - 1) = some ("u", .nonAdmin) := by
  decide +kernel

end Arags
