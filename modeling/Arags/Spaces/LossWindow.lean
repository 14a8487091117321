import Arags.Spaces.SpaceFile

/-!
# Arags.Spaces.LossWindow

What a crash loses of a space that saves itself, and how often such a space is saved: the debounce
of `mark_dirty`, for calls in any order.

* `Entry`      — a statement that has run, with its clock.
* `Timely`     — the condition on a statement; `lost_in_window` is about the runs that meet it.
* `Spaced`     — what the debounce promises of the automatic saves; `automatic_saves_spaced`.
-/

namespace Arags

namespace VectorSpace

open Threads

variable {ε : Type}

/-! ## The record, with clocks -/

structure Entry (ε : Type) where
  caller : Nat
  stmt : Stmt ε
  now : Nat
  events : List Event

def entries (c : Nat) (s : Store ε) (p : Stmt ε) (x : Outcome) : List (Entry ε) :=
  [⟨c, p, x.now, events c s p x⟩]

/-- The keys whose vector a statement may change. -/
def Stmt.touches (key : Int) : Stmt ε → Prop
  | .add id _ | .remove id => id = key
  | .renew => True
  | _ => False

/-- The statement changed the index, and the key is among those it may have changed. -/
structure Entry.Edits (e : Entry ε) (key : Int) : Prop where
  edited : .edited e.caller ∈ e.events
  touches : e.stmt.touches key

def plain (es : List (Entry ε)) : List Event := es.flatMap Entry.events

/-- The entries after the latest save. -/
def sinceSave (es : List (Entry ε)) : List (Entry ε) :=
  es.takeWhile fun e => !e.events.contains .saved

@[simp] theorem plain_cons (e : Entry ε) (es : List (Entry ε)) :
    plain (e :: es) = e.events ++ plain es := List.flatMap_cons

theorem sinceSave_saved {e : Entry ε} (h : .saved ∈ e.events) (es : List (Entry ε)) :
    sinceSave (e :: es) = [] := by
  simp [sinceSave, h]

theorem sinceSave_cons {e : Entry ε} (h : .saved ∉ e.events) (es : List (Entry ε)) :
    sinceSave (e :: es) = e :: sinceSave es := by
  simp [sinceSave, h]

theorem mem_of_sinceSave {e : Entry ε} {es : List (Entry ε)} (h : e ∈ sinceSave es) : e ∈ es :=
  (List.takeWhile_sublist _).mem h

theorem mem_unsaved_append {xs ys : List Event} (h : .saved ∉ xs) {c : Nat} :
    c ∈ unsaved (xs ++ ys) ↔ .edited c ∈ xs ∨ c ∈ unsaved ys := by
  induction xs with
  | nil => simp
  | cons x xs ih =>
    have htail : Event.saved ∉ xs := fun hx => h (List.mem_cons_of_mem _ hx)
    cases x with
    | edited d => simp [unsaved, ih htail, or_assoc]
    | flagged d => simp [unsaved, ih htail]
    | saved => exact absurd List.mem_cons_self h
    | torn => simp [unsaved, ih htail]

/-- What was edited since the latest save is unsaved in the plain record. -/
theorem mem_unsaved_plain {es : List (Entry ε)} {e : Entry ε} (he : e ∈ sinceSave es) {c : Nat}
    (hc : .edited c ∈ e.events) : c ∈ unsaved (plain es) := by
  induction es with
  | nil => cases he
  | cons e' es ih =>
    by_cases hsaved : Event.saved ∈ e'.events
    · rw [sinceSave_saved hsaved] at he
      cases he
    · rw [sinceSave_cons hsaved] at he
      rw [plain_cons, mem_unsaved_append hsaved]
      rcases List.mem_cons.mp he with rfl | he
      · exact .inl hc
      · exact .inr (ih he)

/-! ## The condition -/

/-- The clock does not go back. -/
def Clocked (es : List (Entry ε)) (x : Outcome) : Prop := ∀ e ∈ es, e.now ≤ x.now

/-- The save succeeds, if the statement is one. -/
def Writes : Stmt ε → Outcome → Prop
  | .save _, x => x.write = .done
  | _, _ => True

/-- `Undisturbed`, with a clock that does not go back and saves that succeed. -/
structure Timely (es : List (Entry ε)) (s : Store ε) (c : Nat) (p : Stmt ε) (x : Outcome) :
    Prop where
  undisturbed : Undisturbed (plain es) s c p x
  clocked : Clocked es x
  writes : Writes p x

instance decidableWrites : ∀ (p : Stmt ε) (x : Outcome), Decidable (Writes p x)
  | .save _, x => inferInstanceAs (Decidable (x.write = .done))
  | .checkDims .., _ | .add .., _ | .remove _, _ | .renew, _ | .setDirty _, _ | .due, _
  | .loadDirty _, _ | .resetDirty, _ | .stamp, _ => inferInstanceAs (Decidable True)

instance decidableClocked (es : List (Entry ε)) (x : Outcome) : Decidable (Clocked es x) :=
  inferInstanceAs (Decidable (∀ e ∈ es, e.now ≤ x.now))

instance decidableTimely (es : List (Entry ε)) (s : Store ε) (c : Nat) (p : Stmt ε) (x : Outcome) :
    Decidable (Timely es s c p x) :=
  decidable_of_iff (Undisturbed (plain es) s c p x ∧ Clocked es x ∧ Writes p x)
    ⟨fun h => ⟨h.1, h.2.1, h.2.2⟩, fun h => ⟨h.undisturbed, h.clocked, h.writes⟩⟩

/-! ## What is in the file -/

section Contents

variable {es : List (Entry ε)} {s : Store ε} {c : Nat} {p : Stmt ε} {x : Outcome} {dims : Nat}

theorem addVector_lookup_ne (index : Lance.Index ε) {id key : Int} (vector : List ε) (x : Outcome)
    (h : key ≠ id) : (addVector index id vector x).1.vectors.lookup key =
      index.vectors.lookup key := by
  unfold addVector
  dsimp only
  have hcleared : (if x.remove then index.vectors else index.vectors.erase id).lookup key =
      index.vectors.lookup key := by
    cases x.remove with
    | true => rfl
    | false => exact AList.lookup_erase_ne h
  by_cases hcond : x.reserve = true ∨ x.add = true ∨
      id ∈ (if x.remove then index.vectors else index.vectors.erase id)
  · rw [if_pos hcond]
    exact hcleared
  · rw [if_neg hcond]
    exact (AList.lookup_insert_ne h).trans hcleared

/-- A failed insert that did not remove its key leaves the vectors. -/
theorem addVector_failed_lookup {index : Lance.Index ε} {id : Int} {vector : List ε}
    (hfail : (addVector index id vector x).2 = false)
    (h : id ∈ index.vectors → x.remove = true ∨ x.reserve = false ∧ x.add = false) (key : Int) :
    (addVector index id vector x).1.vectors.lookup key = index.vectors.lookup key := by
  by_cases hkey : key = id
  · subst hkey
    by_cases hmem : key ∈ index.vectors
    · unfold addVector at hfail ⊢
      dsimp only at hfail ⊢
      rcases h hmem with hremove | ⟨hreserve, hadd⟩
      · simp [hremove, hmem]
      · cases hremove : x.remove with
        | true => simp [hmem]
        | false => simp [hremove, hreserve, hadd] at hfail
    · have hnone : ¬ key ∈ (addVector index key vector x).1.vectors := by
        rw [addVector_failed hfail h key]
        exact hmem
      rw [AList.lookup_eq_none.mpr hnone, AList.lookup_eq_none.mpr hmem]
  · exact addVector_lookup_ne index vector x hkey

/-- The file can be opened, and a key for which it has another vector than the index, or one of the
two has none, was edited after the latest save. -/
def Recoverable (dims : Nat) (es : List (Entry ε)) (s : Store ε) : Prop :=
  ∃ r, opened dims s.file = some r ∧
    ∀ key, r.index.vectors.lookup key ≠ s.index.vectors.lookup key →
      ∃ e ∈ sinceSave es, e.Edits key

theorem Recoverable.keep {s' : Store ε} {e : Entry ε} (h : Recoverable dims es s)
    (hfile : s'.file = s.file) (hsaved : .saved ∉ e.events)
    (hkeys : ∀ key, s'.index.vectors.lookup key = s.index.vectors.lookup key ∨ e.Edits key) :
    Recoverable dims (e :: es) s' := by
  obtain ⟨r, hr, hdiff⟩ := h
  refine ⟨r, hfile ▸ hr, fun key hkey => ?_⟩
  rw [sinceSave_cons hsaved]
  rcases hkeys key with heq | hedit
  · rw [heq] at hkey
    obtain ⟨e', he', hedits⟩ := hdiff key hkey
    exact ⟨e', List.mem_cons_of_mem _ he', hedits⟩
  · exact ⟨e, List.mem_cons_self, hedit⟩

theorem Recoverable.exec (auto : Bool) (h : Recoverable dims es s) (hG : Timely es s c p x) :
    Recoverable dims (⟨c, p, x.now, events c s p x⟩ :: es) (exec auto s p x).1 := by
  cases p with
  | checkDims id vector =>
    refine h.keep ?_ (by simp [events]) fun key => .inl ?_
    · simp only [VectorSpace.exec]
      split <;> rfl
    · simp only [VectorSpace.exec]
      split <;> rfl
  | add id vector =>
    refine h.keep rfl ?_ fun key => ?_
    · simp only [events]
      split <;> simp
    · cases hadded : (addVector s.index id vector x).2 with
      | false => exact .inl (addVector_failed_lookup hadded hG.undisturbed key)
      | true =>
        by_cases hkey : key = id
        · exact .inr ⟨by simp [events, hadded], hkey.symm⟩
        · exact .inl (addVector_lookup_ne s.index vector x hkey)
  | remove id =>
    refine h.keep rfl (by simp [events]) fun key => ?_
    by_cases hkey : key = id
    · exact .inr ⟨by simp [events], hkey.symm⟩
    · refine .inl ?_
      simp only [VectorSpace.exec]
      split
      · rfl
      · exact AList.lookup_erase_ne hkey
  | renew =>
    simp only [VectorSpace.exec]
    split
    · rename_i hnew
      exact h.keep rfl (by simp [events, hnew]) fun _ => .inl rfl
    · rename_i hnew
      exact h.keep rfl (by simp [events, hnew]) fun _ => .inr ⟨by simp [events, hnew], trivial⟩
  | setDirty forced => exact h.keep rfl (by simp [events]) fun _ => .inl rfl
  | due => exact h.keep rfl (by simp [events]) fun _ => .inl rfl
  | loadDirty forced => exact h.keep rfl (by simp [events]) fun _ => .inl rfl
  | save forced =>
    have hdone : x.write = .done := hG.writes
    simp only [VectorSpace.exec, hdone, Lance.writeFile]
    exact ⟨⟨s.index, .holds s.index, false, none⟩, rfl, fun _ hkey => absurd rfl hkey⟩
  | resetDirty => exact h.keep rfl (by simp [events]) fun _ => .inl rfl
  | stamp => exact h.keep rfl (by simp [events]) fun _ => .inl rfl

end Contents

/-! ## Edits that are not saved -/

section Window

variable {es : List (Entry ε)} {s : Store ε} {c : Nat} {p : Stmt ε} {x : Outcome}

/-- On the way from an edit to its save. -/
inductive InFlight : Option (Stmt ε) → Prop where
  | setDirty (forced : Bool) : InFlight (some (.setDirty forced))
  | due : InFlight (some .due)
  | loadDirty (forced : Bool) : InFlight (some (.loadDirty forced))
  | save (forced : Bool) : InFlight (some (.save forced))

def WithinWindow (s : Store ε) (e : Entry ε) : Prop :=
  ∃ last, s.lastSave = some last ∧ e.now < last + SAVE_DEBOUNCE_MS

/-- The unsaved edits of a caller are within the window, or its call is about to save them. -/
def Accounted (es : List (Entry ε)) (s : Store ε) (c : Nat) (p : Option (Stmt ε)) : Prop :=
  ∀ e ∈ sinceSave es, .edited c ∈ e.events → WithinWindow s e ∨ InFlight p

theorem lastSave_exec (auto : Bool) (h : p ≠ .stamp) :
    (VectorSpace.exec auto s p x).1.lastSave = s.lastSave := by
  cases p with
  | stamp => exact absurd rfl h
  | checkDims id vector =>
    simp only [VectorSpace.exec]
    split <;> rfl
  | renew =>
    simp only [VectorSpace.exec]
    split <;> rfl
  | _ => rfl

/-- A later stamp moves the window on. -/
theorem WithinWindow.exec {e : Entry ε} (h : WithinWindow s e) (hnow : e.now ≤ x.now) :
    WithinWindow (VectorSpace.exec true s p x).1 e := by
  obtain ⟨last, hlast, hwithin⟩ := h
  by_cases hp : p = .stamp
  · subst hp
    exact ⟨x.now, rfl, Nat.lt_of_le_of_lt hnow (by simp [SAVE_DEBOUNCE_MS])⟩
  · exact ⟨last, (lastSave_exec true hp).trans hlast, hwithin⟩

/-- A statement records edits of its own caller only. -/
theorem caller_of_edited {d : Nat} (h : .edited d ∈ events c s p x) : d = c := by
  cases p with
  | add id vector =>
    simp only [events] at h
    split at h <;> simp_all
  | remove id => simpa [events] using h
  | renew =>
    simp only [events] at h
    split at h <;> simp_all
  | save forced =>
    simp only [events] at h
    split at h <;> simp_all
  | checkDims id vector => simp [events] at h
  | setDirty forced => simp [events] at h
  | due => simp [events] at h
  | loadDirty forced => simp [events] at h
  | resetDirty => simp [events] at h
  | stamp => simp [events] at h

/-- What another statement leaves of an account. -/
theorem Accounted.others {d : Nat} {q : Option (Stmt ε)} (h : Accounted es s d q)
    (hclock : Clocked es x) (hd : d ≠ c) :
    Accounted (⟨c, p, x.now, events c s p x⟩ :: es) (VectorSpace.exec true s p x).1 d q := by
  intro e he hedited
  by_cases hsaved : Event.saved ∈ events c s p x
  · rw [sinceSave_saved hsaved] at he
    cases he
  · rw [sinceSave_cons hsaved] at he
    rcases List.mem_cons.mp he with rfl | he
    · exact absurd (caller_of_edited hedited) hd
    · exact (h e he hedited).imp_left fun hw => hw.exec (hclock e (mem_of_sinceSave he))

theorem accounted_inFlight {q : Option (Stmt ε)} (hq : InFlight q) : Accounted es s c q :=
  fun _ _ _ => .inr hq

/-- The caller has no edit on the way. -/
def Landed (es : List (Entry ε)) (s : Store ε) (c : Nat) : Prop :=
  ∀ e ∈ sinceSave es, .edited c ∈ e.events → WithinWindow s e

theorem Accounted.landed {q : Option (Stmt ε)} (h : Accounted es s c q) (hq : ¬ InFlight q) :
    Landed es s c :=
  fun e he hedited => (h e he hedited).resolve_right hq

/-- A statement that is no edit, of a caller without an edit on the way. -/
theorem Landed.accounted (h : Landed es s c) (hclock : Clocked es x)
    (hedited : .edited c ∉ events c s p x) (q : Option (Stmt ε)) :
    Accounted (⟨c, p, x.now, events c s p x⟩ :: es) (VectorSpace.exec true s p x).1 c q := by
  intro e he hmine
  by_cases hsaved : Event.saved ∈ events c s p x
  · rw [sinceSave_saved hsaved] at he
    cases he
  · rw [sinceSave_cons hsaved] at he
    rcases List.mem_cons.mp he with rfl | he
    · exact absurd hmine hedited
    · exact .inl ((h e he hmine).exec (hclock e (mem_of_sinceSave he)))

/-- A save that is not due leaves its edits within the window. -/
theorem landed_of_due {last : Nat} (hlast : s.lastSave = some last)
    (hdue : ¬ SAVE_DEBOUNCE_MS ≤ x.now - last) (hclock : Clocked es x) : Landed es s c := by
  intro e he _
  have hnow := hclock e (mem_of_sinceSave he)
  exact ⟨last, hlast, by omega⟩

/-- The caller itself. With a clear flag there is nothing of its own to save. -/
theorem Accounted.own (h : Accounted es s c (some p)) (hflag : Flagging (plain es) s c (some p))
    (hI : SpaceInv (plain es) s) (hG : Timely es s c p x) :
    Accounted (⟨c, p, x.now, events c s p x⟩ :: es) (VectorSpace.exec true s p x).1 c
      (VectorSpace.exec true s p x).2.getLeft? := by
  cases p with
  | checkDims id vector => exact (h.landed (by rintro ⟨⟩)).accounted hG.clocked (by simp [events]) _
  | add id vector =>
    cases hadded : (addVector s.index id vector x).2 with
    | false => exact (h.landed (by rintro ⟨⟩)).accounted hG.clocked (by simp [events, hadded]) _
    | true =>
      simp only [VectorSpace.exec, hadded, if_true]
      exact accounted_inFlight (.setDirty false)
  | remove id => exact accounted_inFlight (.setDirty false)
  | renew =>
    cases hnew : x.new with
    | true => exact (h.landed (by rintro ⟨⟩)).accounted hG.clocked (by simp [events, hnew]) _
    | false =>
      simp only [VectorSpace.exec, hnew, Bool.false_eq_true, if_false]
      exact accounted_inFlight (.setDirty true)
  | setDirty forced =>
    cases forced with
    | true => exact accounted_inFlight (.loadDirty true)
    | false => exact accounted_inFlight .due
  | due =>
    simp only [VectorSpace.exec]
    split
    · exact accounted_inFlight (.loadDirty false)
    · rename_i hdue
      obtain ⟨last, hlast, hnot⟩ : ∃ last, s.lastSave = some last ∧
          ¬ SAVE_DEBOUNCE_MS ≤ x.now - last := by
        cases hlast : s.lastSave with
        | none => simp [hlast] at hdue
        | some last => exact ⟨last, rfl, by simpa [hlast] using hdue⟩
      exact (landed_of_due hlast hnot hG.clocked).accounted (p := .due) hG.clocked
        (by simp [events]) _
  | loadDirty forced =>
    cases hdirty : s.dirty with
    | true =>
      simp only [VectorSpace.exec, hdirty, if_true]
      exact accounted_inFlight (.save forced)
    | false =>
      have hlanded : Landed es s c := by
        intro e he hedited
        obtain ⟨_, hp⟩ := hflag (hI.clean hdirty) (mem_unsaved_plain he hedited)
        cases hp
      exact hlanded.accounted hG.clocked (by simp [events]) _
  | save forced =>
    intro e he
    have hdone : x.write = .done := hG.writes
    rw [sinceSave_saved (by simp [events, hdone])] at he
    cases he
  | resetDirty => exact (h.landed (by rintro ⟨⟩)).accounted hG.clocked (by simp [events]) _
  | stamp => exact (h.landed (by rintro ⟨⟩)).accounted hG.clocked (by simp [events]) _

/-! ## Runs -/

structure WindowInv (dims : Nat) (es : List (Entry ε)) (s : Store ε) : Prop where
  space : SpaceInv (plain es) s
  recoverable : Recoverable dims es s

structure CallInv (es : List (Entry ε)) (s : Store ε) (c : Nat) (q : Option (Stmt ε)) : Prop where
  flagging : Flagging (plain es) s c q
  accounted : Accounted es s c q

theorem CallInv.start (h : CallInv es s c none) (k : Call ε) : CallInv es s c (some k.start) where
  flagging ho hu := by
    obtain ⟨forced, hnone⟩ := h.flagging ho hu
    cases hnone
  accounted e he hedited := .inl (h.accounted.landed nofun e he hedited)

theorem WindowInv.exec {dims : Nat} (h : WindowInv dims es s) (hG : Timely es s c p x) :
    WindowInv dims (entries c s p x ++ es) (VectorSpace.exec true s p x).1 where
  space := by
    rw [entries, List.singleton_append, plain_cons]
    exact (exec_effect true hG.undisturbed).inv h.space
  recoverable := h.recoverable.exec true hG

theorem CallInv.own (h : CallInv es s c (some p)) (hI : SpaceInv (plain es) s)
    (hG : Timely es s c p x) :
    CallInv (entries c s p x ++ es) (VectorSpace.exec true s p x).1 c
      (VectorSpace.exec true s p x).2.getLeft? where
  flagging := by
    rw [entries, List.singleton_append, plain_cons]
    exact (exec_effect true hG.undisturbed).own h.flagging
  accounted := h.accounted.own h.flagging hI hG

theorem CallInv.others {d : Nat} {q : Option (Stmt ε)} (h : CallInv es s d q)
    (hG : Timely es s c p x) (hd : d ≠ c) :
    CallInv (entries c s p x ++ es) (VectorSpace.exec true s p x).1 d q where
  flagging := by
    rw [entries, List.singleton_append, plain_cons]
    exact (exec_effect true hG.undisturbed).others hd h.flagging
  accounted := h.accounted.others hG.clocked hd

end Window

section Spacing

variable {es : List (Entry ε)} {s : Store ε} {c : Nat} {p : Stmt ε} {x : Outcome}

/-- A call checks whether a save is due. -/
def Stmt.isDue : Stmt ε → Bool
  | .due => true
  | _ => false

/-- The entries before the latest check of the caller. -/
def beforeDue (c : Nat) : List (Entry ε) → List (Entry ε)
  | [] => []
  | e :: es => if e.caller = c ∧ e.stmt.isDue then es else beforeDue c es

/-- The stamps are a whole window older than the clock. -/
def Stale (es : List (Entry ε)) (now : Nat) : Prop :=
  ∀ e ∈ es, e.stmt = .stamp → e.now + SAVE_DEBOUNCE_MS ≤ now

/-- At each automatic save, the stamps before the check of its call are stale. -/
def Spaced : List (Entry ε) → Prop
  | [] => True
  | e :: es => (e.stmt = .save false → Stale (beforeDue e.caller es) e.now) ∧ Spaced es

/-- No stamp is later than the latest. -/
def Stamped (es : List (Entry ε)) (s : Store ε) : Prop :=
  ∀ e ∈ es, e.stmt = .stamp → ∃ last, s.lastSave = some last ∧ e.now ≤ last

/-- Between its check and its save. -/
inductive Checked : Option (Stmt ε) → Prop where
  | loadDirty : Checked (some (.loadDirty false))
  | save : Checked (some (.save false))

def Debounced (es : List (Entry ε)) (c : Nat) (q : Option (Stmt ε)) : Prop :=
  Checked q → ∃ e ∈ es, Stale (beforeDue c es) e.now

theorem beforeDue_skip {e : Entry ε} (h : ¬ (e.caller = c ∧ e.stmt.isDue)) (es : List (Entry ε)) :
    beforeDue c (e :: es) = beforeDue c es := if_neg h

theorem beforeDue_append {later before : List (Entry ε)} {e : Entry ε} (hc : e.caller = c)
    (he : e.stmt = .due) (h : ∀ e' ∈ later, e'.caller = c → e'.stmt ≠ .due) :
    beforeDue c (later ++ e :: before) = before := by
  induction later with
  | nil => exact if_pos ⟨hc, by rw [he]; rfl⟩
  | cons e' later ih =>
    rw [List.cons_append, beforeDue_skip, ih fun e'' he'' => h e'' (List.mem_cons_of_mem _ he'')]
    rintro ⟨hc', hdue⟩
    refine h e' List.mem_cons_self hc' ?_
    cases hs : e'.stmt with
    | due => rfl
    | _ => simp [hs, Stmt.isDue] at hdue

theorem Spaced.at {later es : List (Entry ε)} {e : Entry ε} (h : Spaced (later ++ e :: es))
    (he : e.stmt = .save false) : Stale (beforeDue e.caller es) e.now := by
  induction later with
  | nil => exact h.1 he
  | cons e' later ih => exact ih h.2

theorem Stale.mono {now later : Nat} (h : Stale es now) (hle : now ≤ later) : Stale es later :=
  fun e he hstamp => Nat.le_trans (h e he hstamp) hle

/-- A check that finds a save due. -/
theorem stale_of_due (h : Stamped es s)
    (hdue : s.lastSave.all fun last => decide (SAVE_DEBOUNCE_MS ≤ x.now - last)) :
    Stale es x.now := by
  intro e he hstamp
  obtain ⟨last, hlast, hle⟩ := h e he hstamp
  have hwindow : SAVE_DEBOUNCE_MS ≤ x.now - last := by simpa [hlast] using hdue
  have : 0 < SAVE_DEBOUNCE_MS := by decide
  omega

theorem Stamped.exec (h : Stamped es s) (auto : Bool) (hclock : Clocked es x) :
    Stamped (entries c s p x ++ es) (VectorSpace.exec auto s p x).1 := by
  intro e he hstamp
  rcases List.mem_cons.mp he with rfl | hold
  · obtain rfl : p = .stamp := hstamp
    exact ⟨x.now, rfl, le_rfl⟩
  · by_cases hp : p = .stamp
    · subst hp
      exact ⟨x.now, rfl, hclock e hold⟩
    · obtain ⟨last, hlast, hle⟩ := h e hold hstamp
      exact ⟨last, (lastSave_exec auto hp).trans hlast, hle⟩

theorem Debounced.save (h : Debounced es c (some p)) (hclock : Clocked es x)
    (hp : p = .save false) : Stale (beforeDue c es) x.now := by
  subst hp
  obtain ⟨e, he, hstale⟩ := h .save
  exact hstale.mono (hclock e he)

theorem Debounced.others {d : Nat} {q : Option (Stmt ε)} (h : Debounced es d q) (hd : d ≠ c) :
    Debounced (entries c s p x ++ es) d q := by
  intro hq
  obtain ⟨e, he, hstale⟩ := h hq
  refine ⟨e, List.mem_cons_of_mem _ he, ?_⟩
  rw [entries, List.singleton_append, beforeDue_skip fun hc => hd hc.1.symm]
  exact hstale

/-- Only the check itself, and a look at the flag after it, lead to an automatic save. -/
theorem Debounced.own (h : Debounced es c (some p)) (hstamped : Stamped es s) (auto : Bool) :
    Debounced (entries c s p x ++ es) c (VectorSpace.exec auto s p x).2.getLeft? := by
  intro hq
  cases p with
  | due =>
    simp only [VectorSpace.exec] at hq
    split at hq
    · rename_i hdue
      refine ⟨_, List.mem_cons_self, ?_⟩
      rw [entries, List.singleton_append, beforeDue, if_pos ⟨rfl, rfl⟩]
      exact stale_of_due hstamped hdue
    · cases hq
  | loadDirty forced =>
    simp only [VectorSpace.exec] at hq
    split at hq
    · cases hq
      obtain ⟨e, he, hstale⟩ := h .loadDirty
      refine ⟨e, List.mem_cons_of_mem _ he, ?_⟩
      rw [entries, List.singleton_append, beforeDue_skip (by simp [Stmt.isDue])]
      exact hstale
    · cases hq
  | setDirty forced =>
    cases forced with
    | true => cases hq
    | false =>
      cases auto with
      | true => cases hq
      | false => cases hq
  | checkDims id vector =>
    simp only [VectorSpace.exec] at hq
    split at hq <;> cases hq
  | add id vector =>
    simp only [VectorSpace.exec] at hq
    split at hq <;> cases hq
  | remove id => cases hq
  | renew =>
    simp only [VectorSpace.exec] at hq
    split at hq <;> cases hq
  | save forced =>
    simp only [VectorSpace.exec] at hq
    split at hq <;> cases hq
  | resetDirty => cases hq
  | stamp => cases hq

end Spacing

/-- In every run whose clock does not go back, whatever the order of its statements, and whether or
not writes fail: an automatic save comes at least `SAVE_DEBOUNCE_MS` after every stamp that was
there when its call checked. -/
theorem automatic_saves_spaced {ε : Type} (auto : Bool) (s₀ : Store ε)
    (is : List (Input (Call ε) Outcome))
    (hg : Guarded (program ε auto) entries (fun es _ _ _ x => Clocked es x) s₀ is)
    {later between before : List (Entry ε)} {e d st : Entry ε}
    (hrecord : (history (program ε auto) entries s₀ is).1 =
      later ++ e :: (between ++ d :: before))
    (hsave : e.stmt = .save false) (hdue : d.stmt = .due) (hcaller : d.caller = e.caller)
    (hlatest : ∀ e' ∈ between, e'.caller = e.caller → e'.stmt ≠ .due) (hst : st ∈ before)
    (hstamp : st.stmt = .stamp) : st.now + SAVE_DEBOUNCE_MS ≤ e.now := by
  obtain ⟨⟨hspaced, _⟩, _⟩ := outline (P := program ε auto) (f := entries)
    (G := fun es _ _ _ x => Clocked es x) (I := fun es s => Spaced es ∧ Stamped es s)
    (A := fun es _ c q => Debounced es c q)
    ⟨trivial, fun _ he => by cases he⟩ (fun _ hq => by cases hq)
    (fun _ _ _ k _ _ hq => by cases k <;> cases hq)
    (fun es s c p x hI hA hG => ⟨⟨hA.save hG, hI.1⟩, hI.2.exec auto hG⟩)
    (fun es s c p x hI hA _ => hA.own hI.2 auto)
    (fun es s c p x d q _ _ _ hd hq => hq.others hd) hg
  rw [hrecord] at hspaced
  have hstale := hspaced.at hsave
  rw [beforeDue_append hcaller hdue hlatest] at hstale
  exact hstale st hst hstamp

/-- An insert, and a second one when the window is over. -/
def secondAfterWindow : List (Input (Call Nat) Outcome) :=
  List.replicate 8 (.run 1 { fine with now := 3000 }) ++ .call 1 (.insert 2 [6]) ::
    List.replicate 8 (.run 0 { fine with now := 1000 }) ++ [.call 0 (.insert 1 [5])]

theorem automatic_saves_spaced_second :
    ∃ later between before, ∃ e d st : Entry Nat,
      (history (program Nat true) entries emptySpace secondAfterWindow).1 =
          later ++ e :: (between ++ d :: before) ∧
        e.stmt = .save false ∧ st ∈ before ∧ st.stmt = .stamp ∧
        st.now + SAVE_DEBOUNCE_MS ≤ e.now := by
  have hrecord : (history (program Nat true) entries emptySpace secondAfterWindow).1 =
      [⟨1, .stamp, 3000, []⟩, ⟨1, .resetDirty, 3000, []⟩] ++ ⟨1, .save false, 3000, [.saved]⟩ ::
        ([⟨1, .loadDirty false, 3000, []⟩] ++ ⟨1, .due, 3000, []⟩ ::
          (history (program Nat true) entries emptySpace secondAfterWindow).1.drop 5) := rfl
  have hst : ⟨0, .stamp, 1000, []⟩ ∈
      (history (program Nat true) entries emptySpace secondAfterWindow).1.drop 5 :=
    List.mem_of_getElem? (i := 3) rfl
  exact ⟨_, _, _, _, _, _, hrecord, rfl, hst, rfl,
    automatic_saves_spaced true emptySpace secondAfterWindow (by decide +kernel) hrecord rfl rfl rfl
      (by simp) hst rfl⟩

/-- Two inserts, and both have checked and seen the flag before either has saved. -/
def checkedTogether : List (Input (Call Nat) Outcome) :=
  List.replicate 3 (.run 0 fine) ++ List.replicate 8 (.run 1 fine) ++
    List.replicate 5 (.run 0 fine) ++ [.call 1 (.insert 2 [6]), .call 0 (.insert 1 [5])]

/-- Then they save within one window: the debounce does not hold between calls that overlap. -/
theorem automatic_saves_spaced_overlap :
    ∃ later earlier, ∃ e st : Entry Nat,
      (history (program Nat true) entries emptySpace checkedTogether).1 =
          later ++ e :: earlier ∧
        e.stmt = .save false ∧ st ∈ earlier ∧ st.stmt = .stamp ∧
        e.now < st.now + SAVE_DEBOUNCE_MS := by
  have hrecord : (history (program Nat true) entries emptySpace checkedTogether).1 =
      [⟨0, .stamp, 0, []⟩, ⟨0, .resetDirty, 0, []⟩] ++ ⟨0, .save false, 0, [.saved]⟩ ::
        (history (program Nat true) entries emptySpace checkedTogether).1.drop 3 := rfl
  have hst : ⟨1, .stamp, 0, []⟩ ∈
      (history (program Nat true) entries emptySpace checkedTogether).1.drop 3 :=
    List.mem_of_getElem? (i := 0) rfl
  exact ⟨_, _, _, _, hrecord, rfl, hst, rfl, by decide⟩

end VectorSpace

end Arags
