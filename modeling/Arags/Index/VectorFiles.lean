import Arags.Index.Vectors
import Arags.Lib.Runs

/-!
# Arags.Index.VectorFiles

The chunk vector store of `lance/vectors.rs` with its two maps, its two files, and every call
that can fail.

* `Lance.insertVectors`, `Lance.deleteChunkIds`, `Lance.clear`, `Lance.openWithDims` — the
  operations; `Faults` says which of their calls fail.
* `Lance.step`      — one operation on the open store and the files.
* `Lance.Agree`     — the index and the buffer map have the same keys.
* `entriesKept`     — no failed `add` leaves a stored key without its vector.
* `vector_store_consistency` — when the two maps agree after every operation.
-/

namespace Arags

namespace Lance

/-- A usearch index, as a finite map. -/
structure Index (ε : Type) where
  dimensions : Nat
  vectors : AList fun _ : Int => List ε

def Index.new (ε : Type) (dims : Nat) : Index ε := ⟨dims, ∅⟩

/-- The open store: the index, and the buffer of each key. -/
structure Store (ε : Type) where
  index : Index ε
  buffers : AList fun _ : Int => Int

inductive File (α : Type) where
  | absent
  /-- There is a file, and it does not parse. -/
  | corrupt
  | holds (content : α)

/-- `vectors.usearch` and `vectors.meta`. -/
structure Files (ε : Type) where
  index : File (Index ε)
  metadata : File (AList fun _ : Int => Int)

/-- How a write of a file ends; one that fails leaves the file as it was or in pieces. -/
inductive Write where
  | done | kept | torn
  deriving DecidableEq, Repr

/-- The calls that fail. `remove` and `add` are told by their position in the loop. -/
structure Faults where
  new : Bool
  restore : Bool
  readMeta : Bool
  reserve : Bool
  remove : Nat → Bool
  add : Nat → Bool
  save : Write
  writeMeta : Write

/-- No call fails. -/
def Faults.never : Faults :=
  ⟨false, false, false, false, fun _ => false, fun _ => false, .done, .done⟩

section Operations

variable {ε : Type}

def writeFile {α : Type} (file : File α) (content : α) : Write → File α
  | .done => .holds content
  | .kept => file
  | .torn => .corrupt

/-- The index first, then the metadata. -/
def saveLocked (s : Store ε) (files : Files ε) (f : Faults) : Files ε :=
  match f.save with
  | .done => ⟨.holds s.index, writeFile files.metadata s.buffers f.writeMeta⟩
  | w => { files with index := writeFile files.index s.index w }

/-- The loop of `insert_vectors`, and whether it ran to its end. `add` refuses a key that is
there. -/
def insertLoop (f : Faults) : Nat → List (VectorEntry (List ε)) → Store ε → Store ε × Bool
  | _, [], s => (s, true)
  | p, e :: es, s =>
    if e.vector.length ≠ s.index.dimensions then (s, false)
    else
      let cleared := if f.remove p then s.index.vectors else s.index.vectors.erase e.chunkId
      if f.add p = true ∨ e.chunkId ∈ cleared then
        ({ s with index := { s.index with vectors := cleared } }, false)
      else
        insertLoop f (p + 1) es
          { index := { s.index with vectors := cleared.insert e.chunkId e.vector }
            buffers := s.buffers.insert e.chunkId e.bufferId }

def insertVectors (s : Store ε) (files : Files ε) (entries : List (VectorEntry (List ε)))
    (f : Faults) : Store ε × Files ε :=
  if entries.isEmpty || f.reserve then (s, files)
  else
    match insertLoop f 0 entries s with
    | (s', true) => (s', saveLocked s' files f)
    | (s', false) => (s', files)

/-- A failed removal from the index is logged, and the buffer map forgets the key. -/
def deleteLoop (f : Faults) : Nat → List Int → Store ε → Store ε
  | _, [], s => s
  | p, i :: ids, s =>
    deleteLoop f (p + 1) ids
      { index := if f.remove p then s.index
          else { s.index with vectors := s.index.vectors.erase i }
        buffers := s.buffers.erase i }

def deleteChunkIds (s : Store ε) (files : Files ε) (ids : List Int) (f : Faults) :
    Store ε × Files ε :=
  if ids.isEmpty then (s, files)
  else
    let s' := deleteLoop f 0 ids s
    (s', saveLocked s' files f)

def clear (s : Store ε) (files : Files ε) (f : Faults) : Store ε × Files ε :=
  if f.new then (s, files)
  else
    let s' : Store ε := ⟨Index.new ε s.index.dimensions, ∅⟩
    (s', saveLocked s' files f)

/-- A file that does not parse reads as the empty map. -/
def readMeta (file : File (AList fun _ : Int => Int)) (f : Faults) :
    Option (AList fun _ : Int => Int) :=
  match file with
  | .absent => some ∅
  | .corrupt => if f.readMeta then none else some ∅
  | .holds b => if f.readMeta then none else some b

def openIndex (dims : Nat) (file : File (Index ε)) (f : Faults) : Option (Index ε) :=
  match file with
  | .absent => if f.new then none else some (Index.new ε dims)
  | .corrupt => none
  | .holds ix => if f.restore then none else some ix

def openWithDims (dims : Nat) (files : Files ε) (f : Faults) : Option (Store ε) :=
  match openIndex dims files.index f, readMeta files.metadata f with
  | some index, some buffers => some ⟨index, buffers⟩
  | _, _ => none

/-! ## Runs -/

/-- The metadata file as a reopen finds it. -/
inductive Found where
  | intact | missing | corrupt
  deriving DecidableEq, Repr

def Found.files (found : Found) (files : Files ε) : Files ε :=
  match found with
  | .intact => files
  | .missing => { files with metadata := .absent }
  | .corrupt => { files with metadata := .corrupt }

inductive Op (ε : Type) where
  | insert (entries : List (VectorEntry (List ε))) (f : Faults)
  | delete (ids : List Int) (f : Faults)
  | clear (f : Faults)
  | reopen (dims : Nat) (found : Found) (f : Faults)

/-- The store, when one is open, and the files. -/
structure Host (ε : Type) where
  store : Option (Store ε)
  files : Files ε

/-- Nothing is open, no file was written. -/
def Host.fresh : Host ε := ⟨none, .absent, .absent⟩

def Host.apply (h : Host ε) (f : Store ε → Files ε → Store ε × Files ε) : Host ε :=
  match h.store with
  | none => h
  | some s => ⟨some (f s h.files).1, (f s h.files).2⟩

def step (h : Host ε) : Op ε → Host ε
  | .insert entries f => h.apply fun s files => insertVectors s files entries f
  | .delete ids f => h.apply fun s files => deleteChunkIds s files ids f
  | .clear f => h.apply fun s files => clear s files f
  | .reopen dims found f =>
    let files := found.files h.files
    ⟨openWithDims dims files f, files⟩

/-! ## The keys -/

/-- The index and the buffer map have the same keys. -/
def Agree (s : Store ε) : Prop := ∀ k, k ∈ s.index.vectors ↔ k ∈ s.buffers

def Consistent (h : Host ε) : Prop := ∀ s, h.store = some s → Agree s

def indexKeys (files : Files ε) : List Int :=
  match files.index with
  | .holds ix => ix.vectors.keys
  | _ => []

def metaKeys (files : Files ε) : List Int :=
  match files.metadata with
  | .holds b => b.keys
  | _ => []

/-- The entries that `insert_vectors` reaches: none is refused by `add` after its key, which was
stored, was removed. `known` are the keys stored so far. -/
def entriesKept (dims : Nat) (f : Faults) :
    Nat → List Int → List (VectorEntry (List ε)) → Bool
  | _, _, [] => true
  | p, known, e :: es =>
    if e.vector.length ≠ dims then true
    else if f.remove p && known.contains e.chunkId then true
    else if f.add p then !known.contains e.chunkId
    else entriesKept dims f (p + 1) (e.chunkId :: known) es

/-- A reopen succeeds. -/
def opens (files : Files ε) (f : Faults) : Bool :=
  (match files.index with
    | .absent => !f.new
    | .corrupt => false
    | .holds _ => !f.restore) &&
  (match files.metadata with
    | .absent => true
    | _ => !f.readMeta)

/-- What an operation may not meet if the maps are to agree after it. -/
def KeepsKeys (h : Host ε) : Op ε → Prop
  | .insert entries f => f.reserve = true ∨ ∀ s, h.store = some s →
    entriesKept s.index.dimensions f 0 s.buffers.keys entries = true
  | .delete ids f => ∀ s, h.store = some s → ∀ k ∈ ids, k ∈ s.buffers →
    ∃ p, ids[p]? = some k ∧ f.remove p = false
  | .clear _ => True
  | .reopen _ found f => opens (found.files h.files) f = true →
    ∀ k, k ∈ indexKeys (found.files h.files) ↔ k ∈ metaKeys (found.files h.files)

/-- The same in terms of failures alone: the metadata is written whenever the index is, and is
found again unless the index is empty. -/
def Undisturbed (h : Host ε) : Op ε → Prop
  | .insert entries f => KeepsKeys h (.insert entries f) ∧ (f.save = .done → f.writeMeta = .done)
  | .delete ids f => KeepsKeys h (.delete ids f) ∧ (f.save = .done → f.writeMeta = .done)
  | .clear f => f.save = .done → f.writeMeta = .done
  | .reopen _ found _ => found = .intact ∨ indexKeys h.files = []

/-! ## One operation -/

theorem mem_keys_iff {β : Int → Type} {m : AList β} {k : Int} : k ∈ m.keys ↔ k ∈ m := Iff.rfl

/-- The loop keeps the maps in agreement exactly when no stored key loses its vector. -/
theorem insertLoop_agree {f : Faults} {es : List (VectorEntry (List ε))} :
    ∀ {p : Nat} {known : List Int} {s : Store ε}, Agree s → (∀ k, k ∈ known ↔ k ∈ s.buffers) →
      (Agree (insertLoop f p es s).1 ↔ entriesKept s.index.dimensions f p known es = true) := by
  induction es with
  | nil =>
    intro p known s hs _
    simp [insertLoop, entriesKept, hs]
  | cons e es ih =>
    intro p known s hs hk
    rw [insertLoop, entriesKept]
    by_cases hd : e.vector.length ≠ s.index.dimensions
    · simp [hd, hs]
    · rw [if_neg hd, if_neg hd]
      have hkey := hs e.chunkId
      cases hrem : f.remove p with
      | true =>
        by_cases hmem : e.chunkId ∈ known
        · -- the key stayed, so `add` refuses it and both maps are as before
          have hin : e.chunkId ∈ s.index.vectors := hkey.mpr ((hk _).mp hmem)
          simp only [if_true, hin, or_true, hmem, List.contains_iff_mem, Bool.true_and,
            iff_true]
          exact hs
        · have hout : e.chunkId ∉ s.index.vectors := fun h => hmem ((hk _).mpr (hkey.mp h))
          cases hadd : f.add p with
          | true => simpa [hmem] using hs
          | false =>
            simp only [if_true, hout, or_false, Bool.false_eq_true, if_false,
              List.contains_iff_mem, hmem, Bool.true_and]
            refine ih ?_ ?_
            · intro k
              simp only [AList.mem_insert, hs k]
            · intro k
              simp only [List.mem_cons, AList.mem_insert, hk k]
      | false =>
        have hgone : e.chunkId ∉ s.index.vectors.erase e.chunkId := by simp
        cases hadd : f.add p with
        | true =>
          simp only [Bool.false_eq_true, if_false, true_or, if_true, Bool.false_and,
            Bool.not_eq_true']
          constructor
          · intro h
            by_contra hc
            have hmem : e.chunkId ∈ known := by simpa using hc
            exact hgone ((h e.chunkId).mpr ((hk _).mp hmem))
          · intro hc k
            have hmem : e.chunkId ∉ known := by simpa using hc
            have hout : e.chunkId ∉ s.buffers := fun h => hmem ((hk _).mpr h)
            simp only [AList.mem_erase, hs k]
            constructor
            · exact And.right
            · intro h
              exact ⟨fun he => hout (he ▸ h), h⟩
        | false =>
          simp only [Bool.false_eq_true, if_false, false_or, hgone, Bool.false_and]
          refine ih ?_ ?_
          · intro k
            simp only [AList.mem_insert, AList.mem_erase, hs k]
            tauto
          · intro k
            simp only [List.mem_cons, AList.mem_insert, hk k]

theorem deleteLoop_index {f : Faults} {ids : List Int} {k : Int} :
    ∀ {p : Nat} {s : Store ε}, k ∈ (deleteLoop f p ids s).index.vectors ↔
      k ∈ s.index.vectors ∧ ∀ q, ids[q]? = some k → f.remove (p + q) = true := by
  induction ids with
  | nil =>
    intro p s
    simp [deleteLoop]
  | cons i ids ih =>
    intro p s
    have hsplit : (∀ q, (i :: ids)[q]? = some k → f.remove (p + q) = true) ↔
        (i = k → f.remove p = true) ∧ ∀ q, ids[q]? = some k → f.remove (p + 1 + q) = true := by
      constructor
      · intro h
        refine ⟨fun hi => h 0 (by simp [hi]), fun q hq => ?_⟩
        have := h (q + 1) (by simpa using hq)
        rwa [show p + (q + 1) = p + 1 + q by omega] at this
      · rintro ⟨h0, h1⟩ q hq
        cases q with
        | zero => exact h0 (by simpa using hq)
        | succ q =>
          have := h1 q (by simpa using hq)
          rwa [show p + 1 + q = p + (q + 1) by omega] at this
    rw [deleteLoop, ih, hsplit]
    cases hrem : f.remove p with
    | true => simp
    | false =>
      simp only [Bool.false_eq_true, if_false, AList.mem_erase, imp_false]
      constructor
      · rintro ⟨⟨hne, hm⟩, h⟩
        exact ⟨hm, fun he => hne he.symm, h⟩
      · rintro ⟨hm, hne, h⟩
        exact ⟨⟨fun he => hne he.symm, hm⟩, h⟩

theorem deleteLoop_buffers {f : Faults} {ids : List Int} {k : Int} :
    ∀ {p : Nat} {s : Store ε}, k ∈ (deleteLoop f p ids s).buffers ↔ k ∈ s.buffers ∧ k ∉ ids := by
  induction ids with
  | nil =>
    intro p s
    simp [deleteLoop]
  | cons i ids ih =>
    intro p s
    rw [deleteLoop, ih, AList.mem_erase, List.mem_cons]
    tauto

theorem deleteLoop_agree {f : Faults} {ids : List Int} {s : Store ε} (hs : Agree s) :
    Agree (deleteLoop f 0 ids s) ↔
      ∀ k ∈ ids, k ∈ s.buffers → ∃ p, ids[p]? = some k ∧ f.remove p = false := by
  constructor
  · intro h k hk hb
    by_contra hn
    have hin : k ∈ (deleteLoop f 0 ids s).index.vectors := by
      refine deleteLoop_index.mpr ⟨(hs k).mpr hb, fun q hq => ?_⟩
      rw [Nat.zero_add]
      by_contra hr
      exact hn ⟨q, hq, by simpa using hr⟩
    exact (deleteLoop_buffers.mp ((h k).mp hin)).2 hk
  · intro h k
    rw [deleteLoop_index, deleteLoop_buffers, hs k]
    refine and_congr_right fun hb => ?_
    constructor
    · intro hall hk
      obtain ⟨p, hp, hr⟩ := h k hk hb
      have := hall p hp
      rw [Nat.zero_add, hr] at this
      cases this
    · intro hk q hq
      exact absurd (List.mem_of_getElem? hq) hk

/-- Where no call fails, the index takes every entry, as the map of `Arags.insertVectors`. -/
theorem insertLoop_never {es : List (VectorEntry (List ε))} {vs : VectorStore (List ε)} :
    ∀ {p : Nat} {s : Store ε}, (∀ e ∈ es, e.vector.length = s.index.dimensions) →
      (∀ k, k ∈ s.index.vectors ↔ k ∈ vs) →
      (insertLoop Faults.never p es s).2 = true ∧
      ∀ k, k ∈ (insertLoop Faults.never p es s).1.index.vectors ↔
        k ∈ Arags.insertVectors vs es := by
  induction es generalizing vs with
  | nil =>
    intro p s _ hk
    exact ⟨rfl, hk⟩
  | cons e es ih =>
    intro p s hd hk
    have hlen : ¬ e.vector.length ≠ s.index.dimensions :=
      not_not.mpr (hd e List.mem_cons_self)
    have hgone : e.chunkId ∉ s.index.vectors.erase e.chunkId := by simp
    rw [insertLoop, if_neg hlen]
    simp only [Faults.never, Bool.false_eq_true, if_false, false_or, hgone]
    refine ih (fun e' he' => hd e' (List.mem_cons_of_mem _ he')) ?_
    intro k
    simp only [AList.mem_insert, AList.mem_erase, hk k]
    tauto

theorem deleteLoop_never {ids : List Int} {s : Store ε} {vs : VectorStore (List ε)}
    (hk : ∀ k, k ∈ s.index.vectors ↔ k ∈ vs) (k : Int) :
    k ∈ (deleteLoop Faults.never 0 ids s).index.vectors ↔ k ∈ Arags.deleteChunkIds vs ids := by
  rw [deleteLoop_index, mem_deleteChunkIds, hk k]
  refine and_congr_right fun _ => ?_
  simp only [Faults.never, Bool.false_eq_true, imp_false, List.mem_iff_getElem?, not_exists]

theorem openWithDims_cases (dims : Nat) (files : Files ε) (f : Faults) :
    (opens files f = false ∧ openWithDims dims files f = none) ∨
    (opens files f = true ∧ ∃ s, openWithDims dims files f = some s ∧
      (∀ k, k ∈ s.index.vectors ↔ k ∈ indexKeys files) ∧
      ∀ k, k ∈ s.buffers ↔ k ∈ metaKeys files) := by
  obtain ⟨index, metadata⟩ := files
  unfold openWithDims opens indexKeys metaKeys
  cases index <;> cases metadata <;> cases hn : f.new <;> cases hr : f.restore <;>
    cases hm : f.readMeta <;>
    simp [openIndex, readMeta, Index.new, hn, hr, hm, mem_keys_iff]

theorem step_consistent {h : Host ε} (hc : Consistent h) (op : Op ε) :
    Consistent (step h op) ↔ KeepsKeys h op := by
  cases op with
  | insert entries f =>
    simp only [step, Host.apply, KeepsKeys]
    cases hs : h.store with
    | none => simp [Consistent, hs]
    | some s =>
      have hk : Agree (insertLoop f 0 entries s).1 ↔
          entriesKept s.index.dimensions f 0 s.buffers.keys entries = true :=
        insertLoop_agree (hc s hs) fun k => mem_keys_iff
      simp only [Consistent, Option.some.injEq, forall_eq', insertVectors]
      cases hres : f.reserve with
      | true => simpa [hres] using hc s hs
      | false =>
        cases entries with
        | nil => simpa [entriesKept] using hc s hs
        | cons e es =>
          simp only [List.isEmpty_cons, Bool.or_self, Bool.false_eq_true, if_false, false_or]
          rw [← hk]
          split
          · rename_i s' hl
            rw [hl]
          · rename_i s' hl
            rw [hl]
  | delete ids f =>
    simp only [step, Host.apply, KeepsKeys]
    cases hs : h.store with
    | none => simp [Consistent, hs]
    | some s =>
      simp only [Consistent, Option.some.injEq, forall_eq', deleteChunkIds]
      cases ids with
      | nil => simpa using hc s hs
      | cons i ids =>
        simp only [List.isEmpty_cons, Bool.false_eq_true, if_false]
        exact deleteLoop_agree (hc s hs)
  | clear f =>
    simp only [step, Host.apply, KeepsKeys, iff_true]
    cases hs : h.store with
    | none => simp [Consistent, hs]
    | some s =>
      simp only [Consistent, Option.some.injEq, forall_eq', clear]
      split
      · exact hc s hs
      · intro k
        simp [Index.new]
  | reopen dims found f =>
    simp only [step, KeepsKeys, Consistent]
    rcases openWithDims_cases dims (found.files h.files) f with ⟨ho, hn⟩ | ⟨ho, s, hs, hi, hb⟩
    · simp [ho, hn]
    · simp only [ho, hs, Option.some.injEq, forall_eq', true_implies, Agree, hi, hb]

/-! ## Runs -/

/-- Every index file that can be read lists the keys of the metadata file. -/
def FilesAgree (files : Files ε) : Prop :=
  (∀ ix, files.index = .holds ix → ∀ k, k ∈ ix.vectors ↔ k ∈ metaKeys files) ∧
    (files.index = .absent → metaKeys files = [])

theorem FilesAgree.save {s : Store ε} {files : Files ε} {f : Faults} (h : FilesAgree files)
    (hs : Agree s) (hw : f.save = .done → f.writeMeta = .done) :
    FilesAgree (saveLocked s files f) := by
  unfold saveLocked
  cases hsave : f.save with
  | done =>
    simp only [hw hsave, writeFile]
    refine ⟨fun ix hix => ?_, fun hix => by cases hix⟩
    cases hix
    exact hs
  | kept => exact h
  | torn =>
    constructor
    · intro ix hix
      simp [writeFile] at hix
    · intro hix
      simp [writeFile] at hix

theorem FilesAgree.fresh : FilesAgree (Host.fresh (ε := ε)).files := by
  constructor
  · intro ix hix
    simp [Host.fresh] at hix
  · intro _
    rfl

theorem FilesAgree.keys {files : Files ε} (h : FilesAgree files) {f : Faults}
    (ho : opens files f = true) (k : Int) : k ∈ indexKeys files ↔ k ∈ metaKeys files := by
  unfold indexKeys
  cases hix : files.index with
  | absent => simp [h.2 hix]
  | corrupt => simp [opens, hix] at ho
  | holds ix => exact h.1 ix hix k

theorem FilesAgree.found {files : Files ε} (h : FilesAgree files) {found : Found}
    (hf : found = .intact ∨ indexKeys files = []) : FilesAgree (found.files files) := by
  rcases hf with rfl | hempty
  · exact h
  · have hix : ∀ ix, files.index = .holds ix → ∀ k, k ∉ ix.vectors := by
      intro ix hix k hk
      have : k ∈ indexKeys files := by rw [indexKeys, hix]; exact hk
      rw [hempty] at this
      cases this
    cases found with
    | intact => exact h
    | missing => exact ⟨fun ix he k => iff_of_false (hix ix he k) (by simp [metaKeys, Found.files]),
        fun _ => rfl⟩
    | corrupt => exact ⟨fun ix he k => iff_of_false (hix ix he k) (by simp [metaKeys, Found.files]),
        fun _ => rfl⟩

/-- The faults of an operation on the open store. -/
def Op.faults : Op ε → Option Faults
  | .insert _ f => some f
  | .delete _ f => some f
  | .clear f => some f
  | .reopen _ _ _ => none

/-- The files change by a save of the new store alone. -/
theorem step_files (h : Host ε) {op : Op ε} {f : Faults} (hf : op.faults = some f) :
    (step h op).files = h.files ∨
      ∃ s, (step h op).store = some s ∧ (step h op).files = saveLocked s h.files f := by
  cases op with
  | insert entries g =>
    cases hf
    simp only [step, Host.apply]
    cases h.store with
    | none => exact .inl rfl
    | some s =>
      simp only [insertVectors]
      split
      · exact .inl rfl
      · split
        · exact .inr ⟨_, rfl, rfl⟩
        · exact .inl rfl
  | delete ids g =>
    cases hf
    simp only [step, Host.apply]
    cases h.store with
    | none => exact .inl rfl
    | some s =>
      simp only [deleteChunkIds]
      split
      · exact .inl rfl
      · exact .inr ⟨_, rfl, rfl⟩
  | clear g =>
    cases hf
    simp only [step, Host.apply]
    cases h.store with
    | none => exact .inl rfl
    | some s =>
      simp only [clear]
      split
      · exact .inl rfl
      · exact .inr ⟨_, rfl, rfl⟩
  | reopen dims found g => cases hf

theorem undisturbed_keeps {h : Host ε} {op : Op ε} (hfiles : FilesAgree h.files)
    (hu : Undisturbed h op) : KeepsKeys h op := by
  cases op with
  | insert entries f => exact hu.1
  | delete ids f => exact hu.1
  | clear f => trivial
  | reopen dims found f => exact fun ho => (hfiles.found hu).keys ho

theorem undisturbed_files {h : Host ε} {op : Op ε} (hfiles : FilesAgree h.files)
    (hc : Consistent (step h op)) (hu : Undisturbed h op) : FilesAgree (step h op).files := by
  have hsave : ∀ f, op.faults = some f → (f.save = .done → f.writeMeta = .done) →
      FilesAgree (step h op).files := by
    intro f hf hw
    rcases step_files h hf with he | ⟨s, hs, he⟩
    · rw [he]
      exact hfiles
    · rw [he]
      exact hfiles.save (hc s hs) hw
  cases op with
  | insert entries f => exact hsave f rfl hu.2
  | delete ids f => exact hsave f rfl hu.2
  | clear f => exact hsave f rfl hu
  | reopen dims found f => exact hfiles.found hu

theorem consistent_run {ops : List (Op ε)}
    (h : Lts.Always step Host.fresh (fun _ h op => Consistent (step h op)) ops) :
    Consistent (Lts.after step (Host.fresh (ε := ε)) ops) := by
  cases ops with
  | nil => intro s hs; cases hs
  | cons op ops => exact h.2

/-- The maps agree after every operation exactly when no operation drops a stored key from one
of them, and no reopen reads files that list different keys; with the metadata written whenever
the index is and found again, no reopen does. -/
theorem vector_store_consistency (ops : List (Op ε)) :
    (Lts.Always step Host.fresh (fun _ h op => Consistent (step h op)) ops ↔
      Lts.Always step Host.fresh (fun _ h op => KeepsKeys h op) ops) ∧
    (Lts.Always step Host.fresh (fun _ h op => Undisturbed h op) ops →
      Lts.Always step Host.fresh (fun _ h op => Consistent (step h op)) ops) := by
  constructor
  · induction ops with
    | nil => exact Iff.rfl
    | cons op ops ih =>
      constructor
      · rintro ⟨hr, hc⟩
        exact ⟨ih.mp hr, (step_consistent (consistent_run hr) op).mp hc⟩
      · rintro ⟨hr, hk⟩
        have hr := ih.mpr hr
        exact ⟨hr, (step_consistent (consistent_run hr) op).mpr hk⟩
  · intro hu
    have h : ∀ ops : List (Op ε),
        Lts.Always step Host.fresh (fun _ h op => Undisturbed h op) ops →
        Lts.Always step Host.fresh (fun _ h op => Consistent (step h op)) ops ∧
          FilesAgree (Lts.after step Host.fresh ops).files := by
      intro ops
      induction ops with
      | nil =>
        intro _
        exact ⟨trivial, FilesAgree.fresh⟩
      | cons op ops ih =>
        rintro ⟨hr, hu⟩
        obtain ⟨hc, hfiles⟩ := ih hr
        have hstep := (step_consistent (consistent_run hc) op).mpr (undisturbed_keeps hfiles hu)
        exact ⟨⟨hc, hstep⟩, undisturbed_files hfiles hstep hu⟩
    exact (h ops hu).1

end Operations

/-- Chunk 7 is inserted, and inserted again with an `add` that fails: the index has lost the key,
the buffer map has it. -/
def failedAdd : List (Op Nat) :=
  [.insert [⟨7, 1, [5]⟩] { Faults.never with add := fun _ => true },
    .insert [⟨7, 1, [4]⟩] Faults.never, .reopen 1 .intact Faults.never]

/-- The metadata file is gone at the second reopen. -/
def lostMetadata : List (Op Nat) :=
  [.reopen 1 .missing Faults.never, .insert [⟨7, 1, [4]⟩] Faults.never,
    .reopen 1 .intact Faults.never]

theorem Consistent.keys {ε : Type} {h : Host ε} (hc : Consistent h) (k : Int) :
    (h.store.any fun s => decide (k ∈ s.index.vectors)) =
      h.store.any fun s => decide (k ∈ s.buffers) := by
  cases hs : h.store with
  | none => rfl
  | some s => simp [hc s hs k]

theorem vector_store_consistency_failed_add :
    ¬ Consistent (Lts.after step Host.fresh failedAdd) ∧
    ¬ Consistent (Lts.after step Host.fresh lostMetadata) := by
  constructor
  · intro h
    exact absurd (h.keys 7) (by decide +kernel)
  · intro h
    exact absurd (h.keys 7) (by decide +kernel)

end Lance

end Arags
