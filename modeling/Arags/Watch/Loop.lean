import Arags.Watch.Daemon

/-!
# Arags.Watch.Loop

The watch loop, `watcher.rs`: the callback of the file watcher, the channel between them, the
buffer with its quiet window, and the flushes.

* `ChangeBuffer`     — what changed, and when the quiet window closes.
* `loopPass`         — one pass of the loop; its clock never goes back.
* `LoopEvent`        — what a run did, newest first.
* `loop_ledger`      — every change that was sent is in the channel, pending, or in the flush after
  it; a flush comes with the first pass a whole window after the last change.
* `restart_unsent`   — a daemon never sends a file that stays as it was when the daemon started.
-/

namespace Arags

/-- The components of a path. -/
abbrev PathBuf := List String

/-- In nanoseconds. -/
def FLUSH_DELAY : Nat := 60 * 1000000000

structure ChangeBuffer where
  /-- Each path once. -/
  pending : List PathBuf
  deadline : Option Nat
  deriving DecidableEq, Repr

def ChangeBuffer.empty : ChangeBuffer := ⟨[], none⟩

def ChangeBuffer.extend (b : ChangeBuffer) (relPaths : List PathBuf) (now : Nat) : ChangeBuffer :=
  ⟨relPaths ∪ b.pending, some (now + FLUSH_DELAY)⟩

def ChangeBuffer.due (b : ChangeBuffer) (now : Nat) : Bool :=
  b.deadline.any fun d => decide (d ≤ now)

def ChangeBuffer.take (b : ChangeBuffer) : List PathBuf × ChangeBuffer := (b.pending, ⟨[], none⟩)

inductive EventKind where
  | any | access | create | modify | remove | other
  deriving DecidableEq, Repr

/-- Only these are forwarded to the loop. -/
def EventKind.relevant : EventKind → Bool
  | .create | .modify | .remove => true
  | .any | .access | .other => false

structure FsEvent where
  kind : EventKind
  paths : List PathBuf
  deriving DecidableEq, Repr

/-- `strip_prefix(root)`, for the paths that are below the root. -/
def relativePaths (root : PathBuf) (paths : List PathBuf) : List PathBuf :=
  paths.filterMap fun p => p.dropPrefix? root

inductive LoopStatus where
  | running
  | stopped
  | failed (message : String)
  deriving DecidableEq, Repr

structure WatchLoop (δ : Type) where
  channel : List (List PathBuf)
  buffer : ChangeBuffer
  daemon : δ
  clock : Nat
  status : LoopStatus

def WatchLoop.start {δ : Type} (d : δ) : WatchLoop δ := ⟨[], .empty, d, 0, .running⟩

/-- What one pass gets from outside: whether the stop marker is there and the channel is
disconnected, how long it waits for an event and then until it looks at the window, and what a
flush finds. -/
structure Pass (τ : Type) where
  stop : Bool
  disconnected : Bool
  wait : Nat
  work : Nat
  world : τ

inductive LoopInput (τ : Type) where
  | notify (event : Except String FsEvent)
  | pass (x : Pass τ)

inductive LoopEvent (τ : Type) where
  | sent (paths : List PathBuf)
  | received (paths : List PathBuf) (now : Nat)
  | flushed (changed : List PathBuf) (now : Nat) (world : τ)

section Loop

variable {δ τ : Type} (root : PathBuf) (flush : δ → τ → List PathBuf → δ × Except String Unit)

/-- The callback. -/
def forwarded : Except String FsEvent → Option (List PathBuf)
  | .ok event => if event.kind.relevant then some event.paths else none
  | .error _ => none

/-- `rx.recv_timeout`: the event that waited longest, when there is one. -/
def recvTimeout (s : WatchLoop δ) (wait : Nat) : WatchLoop δ :=
  match s.channel with
  | [] => { s with clock := s.clock + wait }
  | paths :: channel =>
    let rels := relativePaths root paths
    { s with
      channel := channel
      clock := s.clock + wait
      buffer := if rels.isEmpty then s.buffer else s.buffer.extend rels (s.clock + wait) }

def flushDue (s : WatchLoop δ) (work : Nat) (world : τ) : WatchLoop δ :=
  let now := s.clock + work
  if s.buffer.due now then
    let (changed, buffer) := s.buffer.take
    match flush s.daemon world changed with
    | (d, .ok ()) => { s with clock := now, buffer := buffer, daemon := d }
    | (d, .error e) => { s with clock := now, buffer := buffer, daemon := d, status := .failed e }
  else { s with clock := now }

def loopPass (s : WatchLoop δ) (x : Pass τ) : WatchLoop δ :=
  if x.stop then { s with status := .stopped }
  else if s.channel.isEmpty && x.disconnected then
    { s with status := .failed "watcher channel disconnected" }
  else flushDue flush (recvTimeout root s x.wait) x.work x.world

/-- The watcher is dropped with the loop. -/
def loopStep (s : WatchLoop δ) (i : LoopInput τ) : WatchLoop δ :=
  match s.status, i with
  | .running, .notify event =>
    match forwarded event with
    | some paths => { s with channel := s.channel ++ [paths] }
    | none => s
  | .running, .pass x => loopPass root flush s x
  | _, _ => s

/-! ## What a run did -/

def receiveEvents (s : WatchLoop δ) (wait : Nat) : List (LoopEvent τ) :=
  match s.channel with
  | [] => []
  | paths :: _ => [.received paths (s.clock + wait)]

def flushEvents (s : WatchLoop δ) (work : Nat) (world : τ) : List (LoopEvent τ) :=
  if s.buffer.due (s.clock + work) then [.flushed s.buffer.pending (s.clock + work) world] else []

def loopEvents (s : WatchLoop δ) (i : LoopInput τ) : List (LoopEvent τ) :=
  match s.status, i with
  | .running, .notify event => (forwarded event).toList.map .sent
  | .running, .pass x =>
    if x.stop || (s.channel.isEmpty && x.disconnected) then []
    else flushEvents (recvTimeout root s x.wait) x.work x.world ++ receiveEvents s x.wait
  | _, _ => []

abbrev loopRun (d : δ) (is : List (LoopInput τ)) : List (LoopEvent τ) × WatchLoop δ :=
  Lts.after (Lts.recorded (loopStep root flush) (loopEvents root)) ([], .start d) is

/-- The changes that were received since the last flush, newest first, with the time of each. -/
def noticed : List (LoopEvent τ) → List (List PathBuf × Nat)
  | [] => []
  | .sent _ :: es => noticed es
  | .received paths now :: es =>
    if (relativePaths root paths).isEmpty then noticed es
    else (relativePaths root paths, now) :: noticed es
  | .flushed .. :: _ => []

def LoopEvent.sentPaths : LoopEvent τ → Option (List PathBuf)
  | .sent paths => some paths
  | .received .. | .flushed .. => none

def LoopEvent.receivedPaths : LoopEvent τ → Option (List PathBuf)
  | .received paths _ => some paths
  | .sent _ | .flushed .. => none

/-- What the flushes were given, newest first. -/
def LoopEvent.flushInput : LoopEvent τ → Option (τ × List PathBuf)
  | .flushed changed _ world => some (world, changed)
  | .sent _ | .received .. => none

/-- A flush hands over what was received since the flush before it, each path once, and comes a
whole window after all of it. -/
def FlushesSettled : List (LoopEvent τ) → Prop
  | [] => True
  | .flushed changed now _ :: es => FlushesSettled es ∧ changed ≠ [] ∧ changed.Nodup ∧
      (∀ p, p ∈ changed ↔ ∃ r ∈ noticed root es, p ∈ r.1) ∧
      ∀ r ∈ noticed root es, r.2 + FLUSH_DELAY ≤ now
  | .sent _ :: es | .received .. :: es => FlushesSettled es

/-- The buffer, the channel and the daemon, as the record has them. -/
structure Ledger (d₀ : δ) (es : List (LoopEvent τ)) (s : WatchLoop δ) : Prop where
  channel : (es.filterMap LoopEvent.receivedPaths).reverse ++ s.channel =
    (es.filterMap LoopEvent.sentPaths).reverse
  pending : ∀ p, p ∈ s.buffer.pending ↔ ∃ r ∈ noticed root es, p ∈ r.1
  nodup : s.buffer.pending.Nodup
  deadline : s.buffer.deadline = (noticed root es).head?.map fun r => r.2 + FLUSH_DELAY
  order : (noticed root es).Pairwise fun a b => b.2 ≤ a.2
  clock : ∀ r ∈ noticed root es, r.2 ≤ s.clock
  flushes : FlushesSettled root es
  daemon : s.daemon = Lts.after (fun d f => (flush d f.1 f.2).1) d₀
    (es.filterMap LoopEvent.flushInput)

variable {root flush} {d₀ : δ} {es : List (LoopEvent τ)} {s : WatchLoop δ}

theorem Ledger.start : Ledger root flush d₀ ([] : List (LoopEvent τ)) (.start d₀) where
  channel := rfl
  pending _ := by simp [WatchLoop.start, ChangeBuffer.empty, noticed]
  nodup := List.nodup_nil
  deadline := rfl
  order := .nil
  clock _ h := by cases h
  flushes := trivial
  daemon := rfl

theorem noticed_ne_nil : ∀ (es : List (LoopEvent τ)), ∀ r ∈ noticed root es, r.1 ≠ []
  | [], r, h => by cases h
  | .sent _ :: es, r, h => noticed_ne_nil es r h
  | .received paths now :: es, r, h => by
    rw [noticed] at h
    split at h
    · exact noticed_ne_nil es r h
    · rename_i hne
      rcases List.mem_cons.mp h with rfl | h
      · rwa [List.isEmpty_iff] at hne
      · exact noticed_ne_nil es r h
  | .flushed .. :: _, r, h => by cases h

theorem Ledger.notify (h : Ledger root flush d₀ es s) (paths : List PathBuf) :
    Ledger root flush d₀ (.sent paths :: es) { s with channel := s.channel ++ [paths] } where
  channel := by
    change (es.filterMap LoopEvent.receivedPaths).reverse ++ (s.channel ++ [paths]) =
      (paths :: es.filterMap LoopEvent.sentPaths).reverse
    rw [← List.append_assoc, h.channel, List.reverse_cons]
  pending := h.pending
  nodup := h.nodup
  deadline := h.deadline
  order := h.order
  clock := h.clock
  flushes := h.flushes
  daemon := h.daemon

theorem recvTimeout_nil (hc : s.channel = []) (wait : Nat) :
    recvTimeout root s wait = { s with clock := s.clock + wait } := by
  rw [recvTimeout, hc]

theorem recvTimeout_cons {paths : List PathBuf} {channel : List (List PathBuf)}
    (hc : s.channel = paths :: channel) (wait : Nat) :
    recvTimeout root s wait =
      { s with
        channel := channel
        clock := s.clock + wait
        buffer := if (relativePaths root paths).isEmpty then s.buffer
          else s.buffer.extend (relativePaths root paths) (s.clock + wait) } := by
  rw [recvTimeout, hc]

theorem Ledger.recvTimeout (h : Ledger root flush d₀ es s) (wait : Nat) :
    Ledger root flush d₀ (receiveEvents s wait ++ es) (recvTimeout root s wait) := by
  have hclock : ∀ r ∈ noticed root es, r.2 ≤ s.clock + wait :=
    fun r hr => Nat.le_add_right_of_le (h.clock r hr)
  cases hc : s.channel with
  | nil =>
    have he : receiveEvents (τ := τ) s wait = [] := by rw [receiveEvents, hc]
    rw [recvTimeout_nil hc, he]
    exact { h with clock := hclock }
  | cons paths channel =>
    have hfifo : ((paths :: es.filterMap LoopEvent.receivedPaths)).reverse ++ channel =
        (es.filterMap LoopEvent.sentPaths).reverse := by
      rw [← h.channel, hc, List.reverse_cons, List.append_assoc, List.singleton_append]
    rw [recvTimeout_cons hc, receiveEvents, hc]
    by_cases hr : (relativePaths root paths).isEmpty
    · -- no path below the root: the window stays where it is
      have hn : noticed root (.received paths (s.clock + wait) :: es) = noticed root es := by
        rw [noticed, if_pos hr]
      rw [if_pos hr]
      exact {
        channel := hfifo
        pending := hn ▸ h.pending
        nodup := h.nodup
        deadline := hn ▸ h.deadline
        order := hn ▸ h.order
        clock := hn ▸ hclock
        flushes := h.flushes
        daemon := h.daemon }
    · have hn : noticed root (.received paths (s.clock + wait) :: es) =
          (relativePaths root paths, s.clock + wait) :: noticed root es := by
        rw [noticed, if_neg hr]
      rw [if_neg hr]
      refine {
        channel := hfifo, pending := fun p => ?_, nodup := h.nodup.union _, deadline := ?_,
        order := ?_, clock := fun r hmem => ?_, flushes := h.flushes, daemon := h.daemon }
      · rw [List.singleton_append, hn, ChangeBuffer.extend, List.mem_union_iff, h.pending]
        simp only [List.mem_cons, exists_eq_or_imp]
      · rw [List.singleton_append, hn]
        rfl
      · rw [List.singleton_append, hn]
        exact .cons hclock h.order
      · rw [List.singleton_append, hn] at hmem
        rcases List.mem_cons.mp hmem with rfl | hmem
        · exact Nat.le_refl _
        · exact hclock r hmem

theorem ChangeBuffer.due_iff {b : ChangeBuffer} {now : Nat} :
    b.due now = true ↔ ∃ d, b.deadline = some d ∧ d ≤ now := by
  simp [ChangeBuffer.due, Option.any_eq_true]

/-- The window closes a whole delay after the newest change. -/
theorem Ledger.due_iff (h : Ledger root flush d₀ es s) {now : Nat} :
    s.buffer.due now = true ↔
      noticed root es ≠ [] ∧ ∀ r ∈ noticed root es, r.2 + FLUSH_DELAY ≤ now := by
  rw [ChangeBuffer.due_iff, h.deadline]
  have horder := h.order
  cases hn : noticed root es with
  | nil => simp
  | cons r rs =>
    rw [hn] at horder
    have hmax := (List.pairwise_cons.mp horder).1
    constructor
    · rintro ⟨d, hd, hle⟩
      obtain rfl := Option.some_inj.mp hd
      refine ⟨List.cons_ne_nil r rs, fun r' hr' => ?_⟩
      rcases List.mem_cons.mp hr' with rfl | hr'
      · exact hle
      · exact (Nat.add_le_add_right (hmax r' hr') FLUSH_DELAY).trans hle
    · rintro ⟨-, hall⟩
      exact ⟨_, rfl, hall r List.mem_cons_self⟩

theorem Ledger.open_iff (h : Ledger root flush d₀ es s) {now : Nat} :
    s.buffer.due now = false ↔
      noticed root es = [] ∨ ∃ r ∈ noticed root es, now < r.2 + FLUSH_DELAY := by
  rw [← Bool.not_eq_true, h.due_iff, Classical.not_and_iff_not_or_not, not_not]
  simp only [not_forall, Nat.not_le, exists_prop]

theorem flushDue_open (flush : δ → τ → List PathBuf → δ × Except String Unit) {work : Nat}
    (hd : s.buffer.due (s.clock + work) = false) (world : τ) :
    flushDue flush s work world = { s with clock := s.clock + work } ∧
      flushEvents s work world = [] := by
  simp only [flushDue, flushEvents, hd, Bool.false_eq_true, if_false, and_self]

theorem flushDue_closed (flush : δ → τ → List PathBuf → δ × Except String Unit) {work : Nat}
    (hd : s.buffer.due (s.clock + work) = true) (world : τ) :
    (∃ status, flushDue flush s work world =
      { s with
        clock := s.clock + work
        buffer := .empty
        daemon := (flush s.daemon world s.buffer.pending).1
        status := status }) ∧
      flushEvents s work world = [.flushed s.buffer.pending (s.clock + work) world] := by
  rw [flushDue, flushEvents, if_pos hd, if_pos hd]
  refine ⟨?_, rfl⟩
  dsimp only [ChangeBuffer.take]
  split
  · rename_i hf
    exact ⟨s.status, by rw [hf]; rfl⟩
  · rename_i e hf
    exact ⟨.failed e, by rw [hf]; rfl⟩

/-- A flush leaves nothing pending; without one, the window is still open. -/
theorem Ledger.flushDue (h : Ledger root flush d₀ es s) (work : Nat) (world : τ) :
    Ledger root flush d₀ (flushEvents s work world ++ es) (flushDue flush s work world) ∧
      (Arags.flushDue flush s work world).buffer.due
        (Arags.flushDue flush s work world).clock = false := by
  cases hd : s.buffer.due (s.clock + work) with
  | false =>
    obtain ⟨hs, he⟩ := flushDue_open flush hd world
    rw [hs, he]
    exact ⟨{ h with clock := fun r hr => Nat.le_add_right_of_le (h.clock r hr) }, hd⟩
  | true =>
    obtain ⟨⟨status, hs⟩, he⟩ := flushDue_closed flush hd world
    obtain ⟨hne, hsettled⟩ := h.due_iff.mp hd
    rw [hs, he]
    refine ⟨{
      channel := h.channel, pending := fun p => ?_, nodup := List.nodup_nil, deadline := rfl,
      order := .nil, clock := fun r hr => ?_, flushes := ?_, daemon := ?_ }, rfl⟩
    · simp [ChangeBuffer.empty, noticed]
    · cases hr
    · refine ⟨h.flushes, ?_, h.nodup, h.pending, hsettled⟩
      obtain ⟨r, hr⟩ := List.exists_mem_of_ne_nil _ hne
      obtain ⟨p, hp⟩ := List.exists_mem_of_ne_nil _ (noticed_ne_nil _ r hr)
      exact List.ne_nil_of_mem ((h.pending p).mpr ⟨r, hr, hp⟩)
    · change (flush s.daemon world s.buffer.pending).1 = (flush _ world s.buffer.pending).1
      rw [h.daemon]
      rfl

/-- While the loop runs, the window of what is pending is open. -/
theorem Ledger.step (h : Ledger root flush d₀ es s)
    (hopen : s.status = .running → s.buffer.due s.clock = false) (i : LoopInput τ) :
    Ledger root flush d₀ (loopEvents root s i ++ es) (loopStep root flush s i) ∧
      ((loopStep root flush s i).status = .running →
        (loopStep root flush s i).buffer.due (loopStep root flush s i).clock = false) := by
  unfold loopStep loopEvents
  split
  · -- an event of the file watcher
    rename_i hr
    split
    · rename_i paths hf
      rw [hf]
      exact ⟨h.notify paths, fun _ => hopen hr⟩
    · rename_i hf
      rw [hf]
      exact ⟨h, hopen⟩
  · rename_i x hr
    rw [loopPass]
    by_cases hstop : x.stop
    · rw [if_pos hstop, hstop, Bool.true_or, if_pos rfl]
      exact ⟨{ h with }, nofun⟩
    · by_cases hdis : s.channel.isEmpty && x.disconnected
      · rw [if_neg hstop, if_pos hdis, hdis, Bool.or_true, if_pos rfl]
        exact ⟨{ h with }, nofun⟩
      · rw [if_neg hstop, if_neg hdis, if_neg (by simp [hstop, hdis]), List.append_assoc]
        have hpass := (h.recvTimeout x.wait).flushDue x.work x.world
        exact ⟨hpass.1, fun _ => hpass.2⟩
  · exact ⟨h, hopen⟩

theorem ledger_run (root : PathBuf) (flush : δ → τ → List PathBuf → δ × Except String Unit)
    (d₀ : δ) (is : List (LoopInput τ)) :
    Ledger root flush d₀ (loopRun root flush d₀ is).1 (loopRun root flush d₀ is).2 ∧
      ((loopRun root flush d₀ is).2.status = .running →
        (loopRun root flush d₀ is).2.buffer.due (loopRun root flush d₀ is).2.clock = false) :=
  Lts.recorded_inv (I := fun es s => Ledger root flush d₀ es s ∧
    (s.status = .running → s.buffer.due s.clock = false)) ⟨.start, fun _ => rfl⟩
    (fun _ _ i hI => hI.1.step hI.2 i) is

/-- At every moment of every run: what was sent was received or is in the channel, in order; what
is pending is what was received since the last flush, and while the loop runs some of it is not a
whole window old; each flush had what was received since the one before, a whole window after all
of it; and the daemon went through these flushes. -/
theorem loop_ledger (root : PathBuf) (flush : δ → τ → List PathBuf → δ × Except String Unit)
    (d₀ : δ) (is : List (LoopInput τ)) :
    let es := (loopRun root flush d₀ is).1
    let s := (loopRun root flush d₀ is).2
    (es.filterMap LoopEvent.receivedPaths).reverse ++ s.channel =
        (es.filterMap LoopEvent.sentPaths).reverse ∧
      (∀ p, p ∈ s.buffer.pending ↔ ∃ r ∈ noticed root es, p ∈ r.1) ∧
      (s.status = .running →
        noticed root es = [] ∨ ∃ r ∈ noticed root es, s.clock < r.2 + FLUSH_DELAY) ∧
      FlushesSettled root es ∧
      s.daemon = Lts.after (fun d f => (flush d f.1 f.2).1) d₀
        (es.filterMap LoopEvent.flushInput) := by
  obtain ⟨h, hopen⟩ := ledger_run root flush d₀ is
  exact ⟨h.channel, h.pending, fun hr => h.open_iff.mp (hopen hr), h.flushes, h.daemon⟩

theorem loopStep_daemon (root : PathBuf) (flush : δ → τ → List PathBuf → δ × Except String Unit)
    (s : WatchLoop δ) (i : LoopInput τ) :
    (loopStep root flush s i).daemon = s.daemon ∨ ∃ x changed, i = .pass x ∧
      (loopStep root flush s i).daemon = (flush s.daemon x.world changed).1 := by
  have hreceive (wait : Nat) : (recvTimeout root s wait).daemon = s.daemon := by
    unfold recvTimeout
    split <;> rfl
  unfold loopStep
  split
  · split <;> exact .inl rfl
  · rename_i x _
    unfold loopPass
    split
    · exact .inl rfl
    · split
      · exact .inl rfl
      · rw [← hreceive x.wait]
        cases hd : (recvTimeout root s x.wait).buffer.due
            ((recvTimeout root s x.wait).clock + x.work) with
        | false => exact .inl (by rw [(flushDue_open flush hd x.world).1])
        | true =>
          obtain ⟨⟨status, hs⟩, -⟩ := flushDue_closed flush hd x.world
          exact .inr ⟨x, _, rfl, by rw [hs]⟩
  · exact .inl rfl

end Loop

/-! ## The loop with the daemon -/

section Restart

variable (ix : Indexer) (project rootText : String)

/-- `to_string_lossy`. -/
def pathString (p : PathBuf) : String := String.intercalate "/" p

/-- The closure that `run_watch_daemon` gives to the loop. -/
def daemonFlush (d : Daemon) (t : Tree) (changed : List PathBuf) : Daemon × Except String Unit :=
  flushChanged ix project rootText d t (changed.map pathString)

theorem flushChanged_known (d : Daemon) (t : Tree) (changed : List String) (p : String) :
    (flushChanged ix project rootText d t changed).1.known p = d.known p ∨
      (flushChanged ix project rootText d t changed).1.known p = some (t.fileState p) := by
  unfold flushChanged
  split
  · exact .inl rfl
  · dsimp only
    split
    · exact .inl rfl
    · split
      · dsimp only
        split
        · exact .inr rfl
        · exact .inl rfl
      · exact .inl rfl

/-- A daemon starts on the tree it finds. As long as a file stays as it was then, also when it was
changed before the start or in a flush that failed, no flush sends it; the first one to find
another state does. -/
theorem restart_unsent (root : PathBuf) (db : IndexDb) (t₀ : Tree) {p : String}
    (hp : p ∈ t₀.files) (is : List (LoopInput Tree))
    (hsame : ∀ x, .pass x ∈ is → x.world.fileState p = t₀.fileState p)
    (t : Tree) (changed : List PathBuf) :
    p ∈ toSend (loopRun root (daemonFlush ix project rootText) ⟨db, snapshotState t₀⟩
        is).2.daemon.known t (changed.map pathString) ↔
      p ∈ t.files ∧ p ∈ changed.map pathString ∧ t.fileState p ≠ t₀.fileState p := by
  have hknown : ∀ is : List (LoopInput Tree),
      (∀ x, .pass x ∈ is → x.world.fileState p = t₀.fileState p) →
        (loopRun root (daemonFlush ix project rootText) ⟨db, snapshotState t₀⟩
          is).2.daemon.known p = some (t₀.fileState p) := by
    intro is
    induction is with
    | nil => exact fun _ => if_pos hp
    | cons i is ih =>
      intro hsame
      have hbefore := ih fun x hx => hsame x (List.mem_cons_of_mem i hx)
      rcases loopStep_daemon root (daemonFlush ix project rootText) (loopRun root
        (daemonFlush ix project rootText) ⟨db, snapshotState t₀⟩ is).2 i with
        h | ⟨x, changed, rfl, h⟩
      · exact (congrArg (Daemon.known · p) h).trans hbefore
      · refine (congrArg (Daemon.known · p) h).trans ?_
        rcases flushChanged_known ix project rootText (loopRun root
          (daemonFlush ix project rootText) ⟨db, snapshotState t₀⟩ is).2.daemon x.world
          (changed.map pathString) p with hk | hk
        · exact hk.trans hbefore
        · exact hk.trans (congrArg some (hsame x List.mem_cons_self))
  rw [toSend, List.mem_filter, hknown is hsame]
  simp only [Bool.and_eq_true, List.contains_iff_mem, bne_iff_ne, ne_eq, Option.some_inj]
  rw [eq_comm (a := t₀.fileState p)]

end Restart

/-- One file; the first pass flushes nothing that changed since the start. -/
theorem restart_unsent_one_file :
    let run : List (LoopInput Tree) := [.pass ⟨false, false, 0, FLUSH_DELAY, oneFile "a" 1⟩,
      .notify (.ok ⟨.modify, [["r", "m.rs"]]⟩)]
    let d := (loopRun ["r"] (daemonFlush sampleIndexer "p" "/r")
      ⟨sampleDb (oneFile "a" 1).uploads, snapshotState (oneFile "a" 1)⟩ run).2.daemon
    "m.rs" ∉ toSend d.known (oneFile "a" 1) ([["m.rs"]].map pathString) ∧
      "m.rs" ∈ toSend d.known (oneFile "b" 2) ([["m.rs"]].map pathString) := by
  intro run d
  have hsent := restart_unsent sampleIndexer "p" "/r" ["r"] (sampleDb (oneFile "a" 1).uploads)
    (oneFile "a" 1) (p := "m.rs") (by decide) run (by simp [run])
  refine ⟨fun h => ?_, (hsent (oneFile "b" 2) [["m.rs"]]).mpr (by decide)⟩
  exact ((hsent (oneFile "a" 1) [["m.rs"]]).mp h).2.2 rfl

end Arags
