import Arags.Lib.Windows
import Mathlib.Data.List.AList

/-!
# Arags.Auth.RateLimit

The rate limiter of the mutating calls, `arags-server/src/ratelimit`.

* `RateLimiter.check`, `RateLimiter.run` — one call, and calls in the order of the lock.
* `run_user`     — the calls of one user are read off a window of their own.
* `RateLimited`  — what the limit is, of the answers to a run.
* `rate_limited` — it holds of every run.
-/

namespace Arags.RateLimit

open Windows

structure RateLimitConfig where
  enabled : Bool
  maxRequestsPerWindow : Nat
  windowSecs : Nat
  deriving DecidableEq, Repr

def RateLimitConfig.default : RateLimitConfig := ⟨true, 60, 60⟩

structure Bucket where
  count : Nat
  windowStart : Nat

structure RateLimiter where
  config : RateLimitConfig
  buckets : AList fun _ : String => Bucket

def RateLimiter.new (config : RateLimitConfig) : RateLimiter := ⟨config, ∅⟩

/-- The subtraction saturates. The count stays at most the maximum, which has 32 bits. -/
def RateLimiter.check (limiter : RateLimiter) (username : String) (now : Nat) :
    Bool × RateLimiter :=
  if !limiter.config.enabled then (true, limiter)
  else
    let bucket := (limiter.buckets.lookup username).getD ⟨0, now⟩
    let bucket :=
      if now - bucket.windowStart ≥ limiter.config.windowSecs then ⟨0, now⟩ else bucket
    if bucket.count ≥ limiter.config.maxRequestsPerWindow then
      (false, { limiter with buckets := limiter.buckets.insert username bucket })
    else
      (true, { limiter with
        buckets := limiter.buckets.insert username { bucket with count := bucket.count + 1 } })

/-- A call finds a bucket of the user, and its window has expired. -/
def RateLimiter.resets (limiter : RateLimiter) (username : String) (now : Nat) : Bool :=
  match limiter.buckets.lookup username with
  | none => false
  | some bucket => decide (now - bucket.windowStart ≥ limiter.config.windowSecs)

structure Call where
  username : String
  now : Nat

structure Answer extends Reply where
  username : String

def RateLimiter.run : RateLimiter → List Call → List Answer
  | _, [] => []
  | limiter, c :: calls =>
    let (allowed, limiter') := limiter.check c.username c.now
    { username := c.username, now := c.now, reset := limiter.resets c.username c.now, allowed } ::
      limiter'.run calls

/-! ## The limit -/

def Answer.call (a : Answer) : Call := ⟨a.username, a.now⟩

/-- What one user was told, and when. -/
def verdicts (u : String) (l : List Answer) : List (Nat × Bool) :=
  (l.filter fun a => a.username == u).map fun a => (a.now, a.allowed)

/-- The second list is the first without some calls of others and some denied calls of `u`. -/
inductive Reduced (u : String) : List Answer → List Answer → Prop
  | nil : Reduced u [] []
  | keep (a : Answer) {l kept : List Answer} : Reduced u l kept → Reduced u (a :: l) (a :: kept)
  | drop {a : Answer} {l kept : List Answer} : a.username ≠ u ∨ a.allowed = false →
      Reduced u l kept → Reduced u (a :: l) kept

structure RateLimited (cfg : RateLimitConfig) (l : List Answer) : Prop where
  interval : ∀ u t, (l.countP fun a => (a.allowed &&
      (decide (t ≤ a.now) && decide (a.now < t + cfg.windowSecs))) && a.username == u) ≤
    2 * cfg.maxRequestsPerWindow
  /-- From any call on, until a bucket of `u` is reset. -/
  window : ∀ u pre a mid post, l = pre ++ a :: (mid ++ post) →
    (∀ b ∈ mid, b.username = u → b.reset = false) →
      ((a :: mid).countP fun b => b.allowed && b.username == u) ≤ cfg.maxRequestsPerWindow
  denied : ∀ pre a post, l = pre ++ a :: post → a.allowed = false →
    cfg.maxRequestsPerWindow ≤ pre.countP fun b =>
      (b.allowed && decide (a.now < b.now + cfg.windowSecs)) && b.username == a.username
  independent : ∀ u kept, Reduced u l kept →
    verdicts u ((RateLimiter.new cfg).run (kept.map Answer.call)) = verdicts u kept

/-! ## One user -/

def Bucket.window (b : Bucket) : Window := ⟨b.windowStart, b.count⟩

/-- The bucket of a user as a window. -/
def RateLimiter.window (limiter : RateLimiter) (u : String) : Option Window :=
  (limiter.buckets.lookup u).map Bucket.window

/-- The bucket that a call finds, makes or resets. -/
def RateLimiter.bucketAt (limiter : RateLimiter) (u : String) (now : Nat) : Bucket :=
  let bucket := (limiter.buckets.lookup u).getD ⟨0, now⟩
  if now - bucket.windowStart ≥ limiter.config.windowSecs then ⟨0, now⟩ else bucket

section Step

variable {limiter : RateLimiter} {u : String} {now : Nat}

theorem check_eq : limiter.check u now =
    if !limiter.config.enabled then (true, limiter)
    else if (limiter.bucketAt u now).count ≥ limiter.config.maxRequestsPerWindow then
      (false, { limiter with buckets := limiter.buckets.insert u (limiter.bucketAt u now) })
    else
      (true, { limiter with
        buckets := limiter.buckets.insert u
          { limiter.bucketAt u now with count := (limiter.bucketAt u now).count + 1 } }) := rfl

theorem bucketAt_window : (limiter.bucketAt u now).window =
    windowAt limiter.config.windowSecs now (limiter.window u) := by
  rw [RateLimiter.bucketAt, RateLimiter.window]
  cases limiter.buckets.lookup u with
  | none => exact congrArg Bucket.window (ite_self _)
  | some b => exact apply_ite Bucket.window _ _ _

theorem resets_hasEnded :
    limiter.resets u now = hasEnded limiter.config.windowSecs now (limiter.window u) := by
  rw [RateLimiter.resets, RateLimiter.window]
  cases limiter.buckets.lookup u <;> rfl

theorem check_config : (limiter.check u now).2.config = limiter.config := by
  rw [check_eq]
  split
  · rfl
  · split <;> rfl

/-- No call touches the bucket of another user. -/
theorem check_other {v : String} (hne : v ≠ u) :
    (limiter.check u now).2.window v = limiter.window v := by
  rw [check_eq]
  split
  · rfl
  · split <;> simp [RateLimiter.window, hne]

theorem check_hit (hen : limiter.config.enabled = true) :
    (limiter.check u now).1 = (hit limiter.config.windowSecs limiter.config.maxRequestsPerWindow
        now (limiter.window u)).1.allowed ∧
      (limiter.check u now).2.window u = some (hit limiter.config.windowSecs
        limiter.config.maxRequestsPerWindow now (limiter.window u)).2 := by
  rw [check_eq, hen, hit, ← bucketAt_window]
  change (if _ then _ else _ : Bool × RateLimiter).1 = _ ∧ _
  by_cases hlt : (limiter.bucketAt u now).count < limiter.config.maxRequestsPerWindow
  · rw [if_neg (Nat.not_le_of_lt hlt), if_pos (show (Bucket.window _).count < _ from hlt)]
    simp [RateLimiter.window, Bucket.window]
  · rw [if_pos (Nat.le_of_not_lt hlt), if_neg (show ¬ (Bucket.window _).count < _ from hlt)]
    simp [RateLimiter.window]

end Step

/-! ## Runs -/

def repliesOf (u : String) (l : List Answer) : List Reply :=
  (l.filter fun a => a.username == u).map Answer.toReply

def timesOf (u : String) (calls : List Call) : List Nat :=
  (calls.filter fun c => c.username == u).map Call.now

section Run

variable {u : String} {l : List Answer}

theorem repliesOf_append (l l' : List Answer) :
    repliesOf u (l ++ l') = repliesOf u l ++ repliesOf u l' := by
  simp [repliesOf]

theorem repliesOf_cons (a : Answer) (l : List Answer) : repliesOf u (a :: l) =
    if a.username = u then a.toReply :: repliesOf u l else repliesOf u l := by
  by_cases h : a.username = u <;> simp [repliesOf, h]

theorem tail_repliesOf (a : Answer) (l : List Answer) :
    (repliesOf u (a :: l)).tail ⊆ repliesOf u l := by
  rw [repliesOf_cons]
  split
  · exact List.Subset.refl _
  · exact (List.tail_sublist _).subset

theorem countP_repliesOf (p : Reply → Bool) (l : List Answer) :
    (l.countP fun a => p a.toReply && a.username == u) = (repliesOf u l).countP p := by
  rw [repliesOf, List.countP_map, List.countP_filter]
  rfl

theorem verdicts_eq (u : String) (l : List Answer) : verdicts u l = answers (repliesOf u l) := by
  rw [verdicts, repliesOf, answers, List.map_map]
  rfl

theorem timesOf_call (u : String) (l : List Answer) :
    timesOf u (l.map Answer.call) = (repliesOf u l).map Reply.now := by
  rw [timesOf, repliesOf, List.filter_map, List.map_map, List.map_map]
  rfl

theorem timesOf_sorted {calls : List Call} (h : calls.Pairwise fun c d => c.now ≤ d.now)
    (u : String) : (timesOf u calls).Pairwise (· ≤ ·) :=
  List.pairwise_map.mpr (h.sublist List.filter_sublist)

theorem run_cons (limiter : RateLimiter) (c : Call) (calls : List Call) :
    limiter.run (c :: calls) =
      { username := c.username, now := c.now, reset := limiter.resets c.username c.now
        allowed := (limiter.check c.username c.now).1 } ::
        (limiter.check c.username c.now).2.run calls := rfl

/-- The answers to a user are those of a window of their own. -/
theorem run_user {limiter : RateLimiter} (hen : limiter.config.enabled = true) (calls : List Call) :
    repliesOf u (limiter.run calls) = replies limiter.config.windowSecs
      limiter.config.maxRequestsPerWindow (limiter.window u) (timesOf u calls) := by
  induction calls generalizing limiter with
  | nil => rfl
  | cons c calls ih =>
    have hen' : (limiter.check c.username c.now).2.config.enabled = true := by
      rw [check_config, hen]
    have hrest := ih hen'
    rw [check_config] at hrest
    rw [run_cons, repliesOf_cons]
    by_cases h : c.username = u
    · subst h
      obtain ⟨hallowed, hwindow⟩ :
        (limiter.check c.username c.now).1 = _ ∧ _ := check_hit hen
      have htimes : timesOf c.username (c :: calls) = c.now :: timesOf c.username calls := by
        simp [timesOf]
      rw [if_pos rfl, hrest, hwindow, htimes, replies, hallowed, resets_hasEnded]
      congr 1
      exact hit_eta.symm
    · have htimes : timesOf u (c :: calls) = timesOf u calls := by simp [timesOf, h]
      rw [if_neg h, hrest, check_other (Ne.symm h), htimes]

theorem thins_of_reduced {kept : List Answer} (h : Reduced u l kept) :
    Thins (repliesOf u l) (repliesOf u kept) := by
  induction h with
  | nil => exact Thins.nil
  | @keep a l kept _ ih =>
    rw [repliesOf_cons, repliesOf_cons]
    split
    · exact Thins.keep _ ih
    · exact ih
  | @drop a l kept hdrop _ ih =>
    rw [repliesOf_cons]
    split
    next hu => exact Thins.drop (hdrop.resolve_left (not_not_intro hu)) ih
    next => exact ih

end Run

/-! ## The limit holds -/

theorem rate_limited (cfg : RateLimitConfig) (hen : cfg.enabled = true) (calls : List Call)
    (hsorted : calls.Pairwise fun c d => c.now ≤ d.now) :
    RateLimited cfg ((RateLimiter.new cfg).run calls) := by
  have huser : ∀ u calls, repliesOf u ((RateLimiter.new cfg).run calls) =
      replies cfg.windowSecs cfg.maxRequestsPerWindow none (timesOf u calls) :=
    fun u calls => run_user hen calls
  have hs : ∀ u, (timesOf u calls).Pairwise (· ≤ ·) := timesOf_sorted hsorted
  refine ⟨?_, ?_, ?_, ?_⟩
  · intro u t
    have hle := interval_le (w := cfg.windowSecs) (t := t) (hs u)
      (ready_none (m := cfg.maxRequestsPerWindow) _) (Nat.zero_le (held none))
      fun hpos => absurd hpos (Nat.lt_irrefl 0)
    rw [← huser, ← countP_repliesOf, Nat.zero_add] at hle
    exact hle
  · intro u pre a mid post heq hreset
    have hsplit := congrArg (repliesOf u) heq
    rw [← List.cons_append, repliesOf_append, repliesOf_append, huser] at hsplit
    rw [countP_repliesOf]
    refine stretch_le (hs u) (ready_none _) hsplit fun b hb => ?_
    obtain ⟨c, hc, rfl⟩ := List.mem_map.mp (tail_repliesOf a mid hb)
    obtain ⟨hmem, hu⟩ := List.mem_filter.mp hc
    exact hreset c hmem (eq_of_beq hu)
  · intro pre a post heq hdenied
    have hsplit := congrArg (repliesOf a.username) heq
    rw [repliesOf_append, repliesOf_cons, if_pos rfl, huser] at hsplit
    have hle := denied_recent (hs a.username) (ready_none _) hsplit hdenied
    rw [← countP_repliesOf] at hle
    exact hle
  · intro u kept h
    have hthins := thins_of_reduced h
    rw [huser] at hthins
    rw [verdicts_eq, verdicts_eq, huser, timesOf_call]
    exact replies_thins hthins (.inr rfl)

def twoUsers : List Call := [⟨"alice", 1000⟩, ⟨"bob", 1000⟩, ⟨"alice", 1061⟩]

theorem rate_limited_two_users :
    RateLimitConfig.default.enabled = true ∧ (twoUsers.Pairwise fun c d => c.now ≤ d.now) ∧
      RateLimited .default ((RateLimiter.new .default).run twoUsers) := by
  have hsorted : twoUsers.Pairwise fun c d => c.now ≤ d.now := by simp [twoUsers]
  exact ⟨rfl, hsorted, rate_limited .default rfl twoUsers hsorted⟩

end Arags.RateLimit
