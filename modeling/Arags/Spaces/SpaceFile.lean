import Arags.Index.VectorFiles
import Arags.Lib.Threads

/-!
# Arags.Spaces.SpaceFile

The vector spaces of `vector_space.rs`: one index, its file and the dirty flag, shared by any
number of calls. A step is one statement of one call; the index is locked for each of them.

* `VectorSpace.exec` — the statements; `Outcome` says what fails, and what the clock reads.
* `Saved`     — the file has the keys of the index.
* `overtaken` — a change that was flagged after the latest save, so that clearing the flag hides it.
* `Undisturbed` — the condition on a statement; `clean_space_saved` is about the runs that meet it.
-/

namespace Arags

namespace VectorSpace

open Threads

def SAVE_DEBOUNCE_MS : Nat := 2000

structure Store (ε : Type) where
  index : Lance.Index ε
  file : Lance.File (Lance.Index ε)
  dirty : Bool
  lastSave : Option Nat

inductive Call (ε : Type) where
  | insert (id : Int) (vector : List ε)
  | delete (id : Int)
  | clear
  | persist

/-- A persist is forced by its caller, or debounced inside `mark_dirty`. -/
inductive Stmt (ε : Type) where
  | checkDims (id : Int) (vector : List ε)
  | add (id : Int) (vector : List ε)
  | remove (id : Int)
  | renew
  | setDirty (forced : Bool)
  | due
  | loadDirty (forced : Bool)
  | save (forced : Bool)
  | resetDirty
  | stamp

/-- The calls that fail, and the clock in milliseconds. -/
structure Outcome where
  remove : Bool
  reserve : Bool
  add : Bool
  new : Bool
  write : Lance.Write
  now : Nat

section Machine

variable {ε : Type}

/-- `open`, where the file is not corrupt. -/
def opened (dims : Nat) : Lance.File (Lance.Index ε) → Option (Store ε)
  | .absent => some ⟨.new ε dims, .absent, false, none⟩
  | .corrupt => none
  | .holds index => some ⟨index, .holds index, false, none⟩

def Call.start : Call ε → Stmt ε
  | .insert id vector => .checkDims id vector
  | .delete id => .remove id
  | .clear => .renew
  | .persist => .loadDirty true

/-- The locked part of `insert`: the index, and whether the vector is in. -/
def addVector (index : Lance.Index ε) (id : Int) (vector : List ε) (x : Outcome) :
    Lance.Index ε × Bool :=
  let cleared := if x.remove then index.vectors else index.vectors.erase id
  if x.reserve = true ∨ x.add = true ∨ id ∈ cleared then ({ index with vectors := cleared }, false)
  else ({ index with vectors := cleared.insert id vector }, true)

/-- A failed debounced persist is logged, and its call succeeds. -/
def exec (autoPersist : Bool) (s : Store ε) : Stmt ε → Outcome → Store ε × (Stmt ε ⊕ Bool)
  | .checkDims id vector, _ =>
    if vector.length ≠ s.index.dimensions then (s, .inr false) else (s, .inl (.add id vector))
  | .add id vector, x =>
    let added := addVector s.index id vector x
    ({ s with index := added.1 }, if added.2 then .inl (.setDirty false) else .inr false)
  | .remove id, x =>
    ({ s with index := if x.remove then s.index
        else { s.index with vectors := s.index.vectors.erase id } }, .inl (.setDirty false))
  | .renew, x =>
    if x.new then (s, .inr false)
    else ({ s with index := .new ε s.index.dimensions }, .inl (.setDirty true))
  | .setDirty forced, _ =>
    ({ s with dirty := true },
      if forced then .inl (.loadDirty true) else if autoPersist then .inl .due else .inr true)
  | .due, x =>
    (s, if s.lastSave.all fun last => decide (SAVE_DEBOUNCE_MS ≤ x.now - last) then
        .inl (.loadDirty false)
      else .inr true)
  | .loadDirty forced, _ => (s, if s.dirty then .inl (.save forced) else .inr true)
  | .save forced, x =>
    ({ s with file := Lance.writeFile s.file s.index x.write },
      if x.write = .done then .inl .resetDirty else .inr !forced)
  | .resetDirty, _ => ({ s with dirty := false }, .inl .stamp)
  | .stamp, x => ({ s with lastSave := some x.now }, .inr true)

def program (ε : Type) (autoPersist : Bool) :
    Program (Store ε) (Call ε) (Stmt ε) Outcome Bool where
  start := Call.start
  exec := exec autoPersist

/-! ## The record of a run -/

inductive Event where
  | edited (c : Nat)
  | flagged (c : Nat)
  | saved
  | torn
  deriving DecidableEq, Repr

def events (c : Nat) (s : Store ε) (p : Stmt ε) (x : Outcome) : List Event :=
  match p with
  | .add id vector => if (addVector s.index id vector x).2 then [.edited c] else []
  | .remove _ => [.edited c]
  | .renew => if x.new then [] else [.edited c]
  | .setDirty _ => [.flagged c]
  | .save _ =>
    match x.write with
    | .done => [.saved]
    | .torn => [.torn]
    | .kept => []
  | _ => []

/-- The callers that changed the index after the latest save. -/
def unsaved : List Event → List Nat
  | [] => []
  | .saved :: _ => []
  | .edited c :: es => c :: unsaved es
  | _ :: es => unsaved es

/-- After the latest save somebody changed the index and then set the flag, or a save broke off. -/
def overtaken : List Event → Bool
  | [] => false
  | .saved :: _ => false
  | .torn :: _ => true
  | .flagged c :: es => (unsaved es).contains c || overtaken es
  | .edited _ :: es => overtaken es

/-- Without a file the index is opened empty. -/
def fileKeys (file : Lance.File (Lance.Index ε)) : Option (List Int) :=
  match file with
  | .absent => some []
  | .corrupt => none
  | .holds index => some index.vectors.keys

/-- The file has the keys of the index. -/
def Saved (s : Store ε) : Prop :=
  ∃ keys, fileKeys s.file = some keys ∧ ∀ key, key ∈ keys ↔ key ∈ s.index.vectors

/-- The flag is not cleared over a change that was flagged after the latest save, no save breaks off
while the flag is clear, and no insert fails after it has removed its key. -/
def Undisturbed (es : List Event) (s : Store ε) (_ : Nat) : Stmt ε → Outcome → Prop
  | .resetDirty, _ => overtaken es = false
  | .save _, x => x.write = .torn → s.dirty = true
  | .add id _, x => id ∈ s.index.vectors → x.remove = true ∨ x.reserve = false ∧ x.add = false
  | _, _ => True

instance decidableUndisturbed (es : List Event) (s : Store ε) (c : Nat) :
    ∀ p x, Decidable (Undisturbed es s c p x)
  | .resetDirty, _ => inferInstanceAs (Decidable (overtaken es = false))
  | .save _, x => inferInstanceAs (Decidable (x.write = .torn → s.dirty = true))
  | .add id _, x => inferInstanceAs (Decidable (id ∈ s.index.vectors →
      x.remove = true ∨ x.reserve = false ∧ x.add = false))
  | .checkDims .., _ | .remove _, _ | .renew, _ | .setDirty _, _ | .due, _ | .loadDirty _, _
  | .stamp, _ => inferInstanceAs (Decidable True)

end Machine

/-! ## What a statement does -/

section Proofs

variable {ε : Type} {es : List Event} {s : Store ε} {c : Nat} {p : Stmt ε}
variable {x : Outcome}

/-- A statement of an undisturbed run, by what it records. -/
inductive Effect (es : List Event) (s : Store ε) (c : Nat) (p : Stmt ε) :
    List Event → Store ε → Option (Stmt ε) → Prop where
  | quiet {s' : Store ε} {q : Option (Stmt ε)} (hp : ∀ forced, p ≠ .setDirty forced)
      (hkeys : ∀ key, key ∈ s'.index.vectors ↔ key ∈ s.index.vectors) (hfile : s'.file = s.file)
      (hdirty : s'.dirty = false → s.dirty = false ∨ overtaken es = false) : Effect es s c p [] s' q
  | edited {s' : Store ε} {forced : Bool} (hdirty : s'.dirty = s.dirty) :
      Effect es s c p [.edited c] s' (some (.setDirty forced))
  | flagged {q : Option (Stmt ε)} : Effect es s c p [.flagged c] { s with dirty := true } q
  | saved {q : Option (Stmt ε)} : Effect es s c p [.saved] { s with file := .holds s.index } q
  | torn {s' : Store ε} {q : Option (Stmt ε)} (hdirty : s'.dirty = true) :
      Effect es s c p [.torn] s' q

/-- A failed insert that did not remove its key leaves the keys. -/
theorem addVector_failed {index : Lance.Index ε} {id : Int} {vector : List ε}
    (hfail : (addVector index id vector x).2 = false)
    (h : id ∈ index.vectors → x.remove = true ∨ x.reserve = false ∧ x.add = false) (key : Int) :
    key ∈ (addVector index id vector x).1.vectors ↔ key ∈ index.vectors := by
  unfold addVector at hfail ⊢
  dsimp only at hfail ⊢
  by_cases hcond : x.reserve = true ∨ x.add = true ∨
      id ∈ (if x.remove then index.vectors else index.vectors.erase id)
  · rw [if_pos hcond]
    cases hremove : x.remove with
    | true => exact Iff.rfl
    | false =>
      simp only [hremove, Bool.false_eq_true, if_false, AList.mem_erase] at hcond ⊢
      refine and_iff_right_of_imp fun hkey => ?_
      rintro rfl
      rcases h hkey with h | ⟨hreserve, hadd⟩
      · rw [hremove] at h
        cases h
      · simp [hreserve, hadd] at hcond
  · rw [if_neg hcond] at hfail
    cases hfail

theorem exec_effect (autoPersist : Bool) (h : Undisturbed es s c p x) :
    Effect es s c p (events c s p x) (exec autoPersist s p x).1
      (exec autoPersist s p x).2.getLeft? := by
  cases p with
  | checkDims id vector =>
    simp only [events, exec]
    split
    · exact .quiet (fun _ h => by cases h) (fun _ => Iff.rfl) rfl .inl
    · exact .quiet (fun _ h => by cases h) (fun _ => Iff.rfl) rfl .inl
  | add id vector =>
    simp only [events, exec]
    cases hadded : (addVector s.index id vector x).2 with
    | true => exact .edited rfl
    | false => exact .quiet (fun _ h => by cases h) (addVector_failed hadded h) rfl .inl
  | remove id => exact .edited rfl
  | renew =>
    simp only [events, exec]
    split
    · exact .quiet (fun _ h => by cases h) (fun _ => Iff.rfl) rfl .inl
    · exact .edited rfl
  | setDirty forced => exact .flagged
  | due => exact .quiet (fun _ h => by cases h) (fun _ => Iff.rfl) rfl .inl
  | loadDirty forced => exact .quiet (fun _ h => by cases h) (fun _ => Iff.rfl) rfl .inl
  | save forced =>
    simp only [events, exec]
    cases hw : x.write with
    | done => exact .saved
    | kept => exact .quiet (fun _ h => by cases h) (fun _ => Iff.rfl) rfl .inl
    | torn => exact .torn (h hw)
  | resetDirty => exact .quiet (fun _ h => by cases h) (fun _ => Iff.rfl) rfl fun _ => .inr h
  | stamp => exact .quiet (fun _ h => by cases h) (fun _ => Iff.rfl) rfl .inl

/-- Where nothing is overtaken and every change is saved, the file has the keys; and the flag is
clear only where nothing is overtaken. -/
structure SpaceInv (es : List Event) (s : Store ε) : Prop where
  saved : overtaken es = false → unsaved es = [] → Saved s
  clean : s.dirty = false → overtaken es = false

/-- A caller whose change is not saved is about to set the flag. -/
def Flagging (es : List Event) (_ : Store ε) (c : Nat) (p : Option (Stmt ε)) : Prop :=
  overtaken es = false → c ∈ unsaved es → ∃ forced, p = some (.setDirty forced)

theorem Saved.congr {s s' : Store ε} (h : Saved s) (hfile : s'.file = s.file)
    (hkeys : ∀ key, key ∈ s'.index.vectors ↔ key ∈ s.index.vectors) : Saved s' := by
  obtain ⟨keys, hf, hk⟩ := h
  exact ⟨keys, hfile ▸ hf, fun key => (hk key).trans (hkeys key).symm⟩

theorem saved_holds (s : Store ε) : Saved { s with file := .holds s.index } :=
  ⟨s.index.vectors.keys, rfl, fun _ => AList.mem_keys.symm⟩

theorem Effect.inv {new : List Event} {s' : Store ε} {q : Option (Stmt ε)}
    (h : Effect es s c p new s' q) (hI : SpaceInv es s) : SpaceInv (new ++ es) s' := by
  cases h with
  | quiet hp hkeys hfile hdirty =>
    refine ⟨fun ho hu => (hI.saved ho hu).congr hfile hkeys, fun hd => ?_⟩
    rcases hdirty hd with hd | ho
    · exact hI.clean hd
    · exact ho
  | edited hdirty =>
    refine ⟨fun _ hu => ?_, fun hd => hI.clean (hdirty ▸ hd)⟩
    cases hu
  | flagged =>
    refine ⟨fun ho hu => ?_, fun hd => ?_⟩
    · have hbefore : overtaken es = false := by
        simp only [List.cons_append, List.nil_append, overtaken, Bool.or_eq_false_iff] at ho
        exact ho.2
      exact (hI.saved hbefore hu).congr rfl fun _ => Iff.rfl
    · cases hd
  | saved => exact ⟨fun _ _ => saved_holds s, fun _ => rfl⟩
  | torn hdirty =>
    refine ⟨fun ho _ => ?_, fun hd => ?_⟩
    · cases ho
    · rw [hdirty] at hd
      cases hd

/-- The caller itself. -/
theorem Effect.own {new : List Event} {s' : Store ε} {q : Option (Stmt ε)}
    (h : Effect es s c p new s' q) (hA : Flagging es s c (some p)) :
    Flagging (new ++ es) s' c q := by
  intro ho hu
  cases h with
  | quiet hp hkeys hfile hdirty =>
    obtain ⟨forced, hforced⟩ := hA ho hu
    exact absurd (Option.some.inj hforced) (hp forced)
  | edited hdirty => exact ⟨_, rfl⟩
  | flagged =>
    simp only [List.cons_append, List.nil_append, overtaken, Bool.or_eq_false_iff] at ho
    exact absurd (List.contains_iff_mem.mpr hu) (Bool.eq_false_iff.mp ho.1)
  | saved => cases hu
  | torn hdirty => cases ho

theorem Effect.others {new : List Event} {s' : Store ε} {q : Option (Stmt ε)}
    (h : Effect es s c p new s' q) {d : Nat} (hd : d ≠ c) {r : Option (Stmt ε)}
    (hA : Flagging es s d r) : Flagging (new ++ es) s' d r := by
  intro ho hu
  cases h with
  | quiet hp hkeys hfile hdirty => exact hA ho hu
  | edited hdirty =>
    rcases List.mem_cons.mp hu with hdc | hu
    · exact absurd hdc hd
    · exact hA ho hu
  | flagged =>
    simp only [List.cons_append, List.nil_append, overtaken, Bool.or_eq_false_iff] at ho
    exact hA ho.2 hu
  | saved => cases hu
  | torn hdirty => cases ho

end Proofs

theorem opened_saved {ε : Type} {dims : Nat} {file : Lance.File (Lance.Index ε)} {s : Store ε}
    (h : opened dims file = some s) : Saved s := by
  cases file with
  | absent =>
    cases h
    exact ⟨[], rfl, fun _ => iff_of_false List.not_mem_nil (AList.notMem_empty _)⟩
  | corrupt => cases h
  | holds index =>
    cases h
    exact ⟨index.vectors.keys, rfl, fun _ => AList.mem_keys.symm⟩

/-- In every undisturbed run, whatever the order of its statements: while no call is in progress and
the flag is clear, the file has the keys of the index. -/
theorem clean_space_saved {ε : Type} (autoPersist : Bool) {dims : Nat}
    {file : Lance.File (Lance.Index ε)} {s₀ : Store ε} (hopen : opened dims file = some s₀)
    (is : List (Input (Call ε) Outcome))
    (hg : Guarded (program ε autoPersist) events Undisturbed s₀ is)
    (hquiet : (history (program ε autoPersist) events s₀ is).2.Quiet)
    (hclean : (history (program ε autoPersist) events s₀ is).2.shared.dirty = false) :
    Saved (history (program ε autoPersist) events s₀ is).2.shared := by
  obtain ⟨hI, hA⟩ := outline (P := program ε autoPersist) (f := events) (G := Undisturbed)
    (I := SpaceInv) (A := Flagging)
    ⟨fun _ _ => opened_saved hopen, fun _ => rfl⟩ (fun c _ hu => by cases hu)
    (fun es s c k _ hA ho hu => by
      obtain ⟨forced, hnone⟩ := hA ho hu
      cases hnone)
    (fun es s c p x hI _ hG => (exec_effect autoPersist hG).inv hI)
    (fun es s c p x _ hA hG => (exec_effect autoPersist hG).own hA)
    (fun es s c p x d q _ _ hG hd hq => (exec_effect autoPersist hG).others hd hq)
    hg
  have hover := hI.clean hclean
  refine hI.saved hover (List.eq_nil_iff_forall_not_mem.mpr fun c hc => ?_)
  obtain ⟨forced, hforced⟩ := hA c hover hc
  rw [hquiet c] at hforced
  cases hforced

/-! Two inserts. -/

def fine : Outcome := ⟨false, false, false, false, .done, 0⟩

def emptySpace : Store Nat := ⟨.new Nat 1, .absent, false, none⟩

/-- The second starts after the first has cleared the flag. -/
def oneAfterTheOther : List (Input (Call Nat) Outcome) :=
  .run 0 fine :: List.replicate 8 (.run 1 fine) ++ .call 1 (.insert 2 [6]) ::
    List.replicate 7 (.run 0 fine) ++ [.call 0 (.insert 1 [5])]

theorem clean_space_saved_sequence :
    (history (program Nat true) events emptySpace oneAfterTheOther).2.shared.index.vectors.keys =
        [2, 1] ∧
      Saved (history (program Nat true) events emptySpace oneAfterTheOther).2.shared := by
  refine ⟨by decide +kernel, ?_⟩
  have hopen : opened 1 .absent = some emptySpace := rfl
  refine clean_space_saved true hopen oneAfterTheOther (by decide +kernel) ?_ (by decide +kernel)
  exact quiet_of_callers 2 (by decide +kernel) (by decide +kernel)

/-- The second is between its flag and its own save when the first clears the flag. -/
def oneInsideTheOther : List (Input (Call Nat) Outcome) :=
  .run 0 fine :: List.replicate 2 (.run 1 fine) ++ .run 0 fine ::
    List.replicate 3 (.run 1 fine) ++ .call 1 (.insert 2 [6]) ::
      List.replicate 6 (.run 0 fine) ++ [.call 0 (.insert 1 [5])]

/-- Both calls have returned, the flag is clear, and the file lacks a key. -/
theorem clean_space_saved_lost :
    (history (program Nat true) events emptySpace oneInsideTheOther).2.Quiet ∧
      (history (program Nat true) events emptySpace oneInsideTheOther).2.shared.dirty = false ∧
      ¬ Saved (history (program Nat true) events emptySpace oneInsideTheOther).2.shared := by
  refine ⟨quiet_of_callers 2 (by decide +kernel) (by decide +kernel), by decide +kernel, ?_⟩
  rintro ⟨keys, hfile, hkeys⟩
  have hold : fileKeys (history (program Nat true) events emptySpace
      oneInsideTheOther).2.shared.file = some [1] := by decide +kernel
  have hnew : 2 ∈ (history (program Nat true) events emptySpace
      oneInsideTheOther).2.shared.index.vectors := by decide +kernel
  rw [hold, Option.some.injEq] at hfile
  have hmem := (hkeys 2).mpr hnew
  rw [← hfile] at hmem
  exact absurd hmem (by decide)

end VectorSpace

end Arags
