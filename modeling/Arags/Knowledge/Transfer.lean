import Arags.Knowledge.IndexFile

/-!
# Arags.Knowledge.Transfer

`TransferEngine::transfer`: chunks of one buffer are copied to another, row by row. Every statement
may fail; a failing read of a text is passed over.

* `transfer`       — the code.
* `Transfers`      — what a transfer is for.
* `transfer_exact` — it is met by transfers that copy nothing, and by no other.
-/

namespace Arags.Knowledge

open Sql Text

/-! ## The code -/

structure TransferOptions where
  languages : List String
  maxChunks : Nat

inductive TransferError where
  | source
  | target
  | list
  | row
  | content
  | count
  | counts
  deriving DecidableEq

/-- The statements that fail; those of the loop by the place of the chunk. -/
structure TransferFaults where
  lookups : Bool
  list : Bool
  row : Nat → Bool
  read : Nat → Bool
  content : Nat → Bool
  count : Bool
  counts : Bool

def noFaults : TransferFaults :=
  ⟨false, false, fun _ => false, fun _ => false, fun _ => false, false, false⟩

def TransferOptions.select (options : TransferOptions) (chunks : List (Int × ChunkRow)) :
    List (Int × ChunkRow) :=
  let filtered :=
    if options.languages.isEmpty then chunks
    else chunks.filter fun x => x.2.language.any options.languages.contains
  filtered.take options.maxChunks

/-- The columns of `NewChunk`; a new row is active. -/
def copyRow (toBuffer : Int) (r : ChunkRow) : ChunkRow :=
  { r with bufferId := toBuffer, isActive := true }

def copyChunks (faults : TransferFaults) (toBuffer : Int) :
    Nat → List (Int × ChunkRow) → Tables → Tables × Except TransferError Unit
  | _, [], db => (db, .ok ())
  | k, x :: rest, db =>
    if faults.row k then (db, .error .row)
    else
      match insertChunk (copyRow toBuffer x.2) db with
      | none => (db, .error .row)
      | some db' =>
        match if faults.read k then none else getChunkContent db' x.1 with
        | none => copyChunks faults toBuffer (k + 1) rest db'
        | some content =>
          if faults.content k then (db', .error .content)
          else
            match insertChunkContent (db.chunks.seq + 1) content db' with
            | none => (db', .error .content)
            | some db'' => copyChunks faults toBuffer (k + 1) rest db''

def transfer (faults : TransferFaults) (fromBuffer toBuffer : Int) (options : TransferOptions)
    (db : Tables) : Tables × Except TransferError Nat :=
  if faults.lookups || (getBuffer db fromBuffer).isNone then (db, .error .source)
  else if (getBuffer db toBuffer).isNone then (db, .error .target)
  else if faults.list then (db, .error .list)
  else
    let limited := options.select (listChunks db fromBuffer)
    let copied := copyChunks faults toBuffer 0 limited db
    match copied.2 with
    | .error e => (copied.1, .error e)
    | .ok () =>
      if faults.count then (copied.1, .error .count)
      else if faults.counts then (copied.1, .error .counts)
      else
        match updateBufferCounts toBuffer (countChunks copied.1 toBuffer) 0 copied.1 with
        | none => (copied.1, .error .counts)
        | some db' => (db', .ok limited.length)

/-! ## What it is for -/

section Statement

variable (rules : EntityRules) (fromBuffer toBuffer : Int) (options : TransferOptions)

def activeChunks (db : Tables) (bufferId : Int) : List (Int × ChunkRow) :=
  (listChunks db bufferId).filter fun x => x.2.isActive

/-- A row of the target with the columns of a row of the source, its text, and what a search by
full text and by entities needs. -/
def CopyOf (db db' : Tables) (x source : Int × ChunkRow) : Prop :=
  x.2 = copyRow toBuffer source.2 ∧ ∀ s, getChunkContent db source.1 = some s →
    (x.1, s) ∈ db'.chunkTexts ∧ (x.1, s) ∈ db'.chunksFts ∧
      ∀ e ∈ extractEntities rules (String.ofList s) source.2.filePath,
        (x.1, e) ∈ db'.chunkEntities

/-- The active chunks of the source that match the options are copied, and no others. -/
def Copies (db db' : Tables) : Prop :=
  ∃ new, db'.chunks.rows = db.chunks.rows ++ new ∧
    List.Forall₂ (CopyOf rules toBuffer db db') new (options.select (activeChunks db fromBuffer))

/-- The totals of the target are those of its active chunks. -/
def TotalsTrue (db : Tables) : Prop :=
  ∀ b, getBuffer db toBuffer = some b →
    b.totalChunks = (activeChunks db toBuffer).length ∧
    b.totalFiles = ((activeChunks db toBuffer).map fun x => x.2.filePath).dedup.length

def SourceUnchanged (db db' : Tables) : Prop :=
  listChunks db' fromBuffer = listChunks db fromBuffer ∧
    ∀ x ∈ listChunks db fromBuffer, getChunkContent db' x.1 = getChunkContent db x.1

structure Transfers (db : Tables) : Prop where
  copies : ∀ faults n, (transfer faults fromBuffer toBuffer options db).2 = .ok n →
    Copies rules fromBuffer toBuffer options db (transfer faults fromBuffer toBuffer options db).1
  again : ∀ faults n faults', (transfer faults fromBuffer toBuffer options db).2 = .ok n →
    (transfer faults' fromBuffer toBuffer options
      (transfer faults fromBuffer toBuffer options db).1).1.chunks.rows =
        (transfer faults fromBuffer toBuffer options db).1.chunks.rows
  totals : ∀ faults n, (transfer faults fromBuffer toBuffer options db).2 = .ok n →
    TotalsTrue toBuffer (transfer faults fromBuffer toBuffer options db).1
  source : ∀ faults n, (transfer faults fromBuffer toBuffer options db).2 = .ok n →
    SourceUnchanged fromBuffer db (transfer faults fromBuffer toBuffer options db).1
  failed : ∀ faults e, (transfer faults fromBuffer toBuffer options db).2 = .error e →
    (transfer faults fromBuffer toBuffer options db).1 = db

/-- A buffer is missing, or there is nothing to copy and nothing in the target. -/
def NothingToTransfer (db : Tables) : Prop :=
  getBuffer db fromBuffer = none ∨ getBuffer db toBuffer = none ∨
    (options.select (listChunks db fromBuffer) = [] ∧ listChunks db toBuffer = [])

end Statement

/-! ## The selection -/

section Selection

variable {options : TransferOptions}

def TransferOptions.matching (options : TransferOptions) (x : Int × ChunkRow) : Bool :=
  options.languages.isEmpty || x.2.language.any options.languages.contains

theorem select_eq (chunks : List (Int × ChunkRow)) :
    options.select chunks = (chunks.filter options.matching).take options.maxChunks := by
  unfold TransferOptions.select TransferOptions.matching
  cases options.languages.isEmpty <;> simp

theorem select_eq_nil {chunks : List (Int × ChunkRow)} : options.select chunks = [] ↔
    options.maxChunks = 0 ∨ ∀ x ∈ chunks, options.matching x = false := by
  rw [select_eq, List.take_eq_nil_iff, List.filter_eq_nil_iff]
  simp only [Bool.not_eq_true]

theorem select_nil_mono {chunks chunks' : List (Int × ChunkRow)} (h : ∀ x ∈ chunks, x ∈ chunks')
    (hnil : options.select chunks' = []) : options.select chunks = [] := by
  rw [select_eq_nil] at hnil ⊢
  exact hnil.imp_right fun hnone x hx => hnone x (h x hx)

end Selection

theorem mem_listChunks {db : Tables} {bufferId : Int} {x : Int × ChunkRow} :
    x ∈ listChunks db bufferId ↔ x ∈ db.chunks.rows ∧ x.2.bufferId = bufferId := by
  rw [listChunks, List.mem_insertionSort]
  exact Table.mem_select.trans (and_congr_right fun _ => beq_iff_eq)

theorem countChunks_eq (db : Tables) (bufferId : Int) :
    countChunks db bufferId = (listChunks db bufferId).length := by
  rw [listChunks, List.length_insertionSort]
  rfl

/-! ## Runs -/

section Runs

variable {rules : EntityRules} {fromBuffer toBuffer : Int} {options : TransferOptions} {db : Tables}

/-- Without faults every chunk gets a row. -/
theorem copyChunks_rows : ∀ {l : List (Int × ChunkRow)} {k : Nat} {db : Tables}, Sound db →
    (db.buffers.get? toBuffer).isSome = true → ∃ db' new,
      copyChunks noFaults toBuffer k l db = (db', .ok ()) ∧ Sound db' ∧
        db'.buffers = db.buffers ∧ db'.chunks.rows = db.chunks.rows ++ new ∧
        new.length = l.length := by
  intro l
  induction l with
  | nil =>
    intro k db hdb _
    exact ⟨db, [], rfl, hdb, rfl, (List.append_nil _).symm, rfl⟩
  | cons x l ih =>
    intro k db hdb hbuffer
    have hrow : insertChunk (copyRow toBuffer x.2) db =
        some { db with chunks := db.chunks.insert (copyRow toBuffer x.2) } := if_pos hbuffer
    have hrest {db' : Tables} (hsound : Sound db') (hbuffers : db'.buffers = db.buffers)
        (hrows : db'.chunks.rows =
          db.chunks.rows ++ [(db.chunks.seq + 1, copyRow toBuffer x.2)]) : ∃ db'' new,
          copyChunks noFaults toBuffer (k + 1) l db' = (db'', .ok ()) ∧ Sound db'' ∧
            db''.buffers = db.buffers ∧ db''.chunks.rows = db.chunks.rows ++ new ∧
            new.length = (x :: l).length := by
      obtain ⟨db'', new, hrun, hsound', hbuffers', hrows', hlen⟩ :=
        @ih (k + 1) db' hsound (by rw [hbuffers]; exact hbuffer)
      refine ⟨db'', (db.chunks.seq + 1, copyRow toBuffer x.2) :: new, hrun, hsound',
        hbuffers'.trans hbuffers, ?_, congrArg (· + 1) hlen⟩
      rw [hrows', hrows, List.append_assoc]
      rfl
    have hsound := insertRow_sound hdb (r := copyRow toBuffer x.2) hbuffer
    rw [copyChunks, if_neg (by exact Bool.false_ne_true), hrow]
    dsimp only
    cases hcontent : getChunkContent
        { db with chunks := db.chunks.insert (copyRow toBuffer x.2) } x.1 with
    | none => exact hrest hsound rfl rfl
    | some content =>
      rw [if_neg (show ¬ noFaults.read k = true from Bool.false_ne_true)]
      dsimp only
      rw [if_neg (show ¬ noFaults.content k = true from Bool.false_ne_true),
        insertChunkContent_new hdb]
      exact hrest (insertText_sound hsound (get?_insert_new db _) content) rfl rfl

theorem transfer_missing (faults : TransferFaults)
    (h : getBuffer db fromBuffer = none ∨ getBuffer db toBuffer = none) :
    ∃ e, transfer faults fromBuffer toBuffer options db = (db, .error e) := by
  unfold transfer
  split
  · exact ⟨_, rfl⟩
  · rename_i hsource
    rw [Bool.or_eq_true, not_or] at hsource
    rcases h with h | h
    · rw [h] at hsource
      exact absurd rfl hsource.2
    · rw [h, if_pos (by rfl)]
      exact ⟨_, rfl⟩

/-- Nothing is copied: at most the totals of the target are written. -/
theorem transfer_nothing (faults : TransferFaults)
    (h : options.select (listChunks db fromBuffer) = []) :
    (∃ e, transfer faults fromBuffer toBuffer options db = (db, .error e)) ∨
      ∃ db', updateBufferCounts toBuffer (countChunks db toBuffer) 0 db = some db' ∧
        transfer faults fromBuffer toBuffer options db = (db', .ok 0) := by
  unfold transfer
  split
  · exact .inl ⟨_, rfl⟩
  split
  · exact .inl ⟨_, rfl⟩
  split
  · exact .inl ⟨_, rfl⟩
  · dsimp only
    rw [h, copyChunks]
    dsimp only
    split
    · exact .inl ⟨_, rfl⟩
    split
    · exact .inl ⟨_, rfl⟩
    · exact .inr ⟨_, rfl, rfl⟩

theorem getBuffer_counts {db' : Tables} {chunks files : Int}
    (h : updateBufferCounts toBuffer chunks files db = some db') :
    (∀ i, (getBuffer db i).isSome = true → (getBuffer db' i).isSome = true) ∧
      ∀ b, getBuffer db' toBuffer = some b → b.totalChunks = chunks ∧ b.totalFiles = files := by
  obtain rfl := Option.some.inj h
  refine ⟨fun i hi => ?_, fun b hb => ?_⟩
  · change ((db.buffers.toTable.update _ _).get? i).isSome = true
    rw [Table.get?_update, Option.isSome_map]
    exact hi
  · obtain ⟨b', -, rfl⟩ := SeqTable.mem_update.mp (Table.get?_eq_some.mp hb)
    rw [if_pos (by exact beq_self_eq_true _)]
    exact ⟨rfl, rfl⟩

/-- Without faults, and with both buffers, a row is added for each chunk that is selected. -/
theorem transfer_rows (hdb : Sound db) (hsource : (getBuffer db fromBuffer).isSome = true)
    (htarget : (getBuffer db toBuffer).isSome = true) : ∃ db' new n,
      transfer noFaults fromBuffer toBuffer options db = (db', .ok n) ∧ Sound db' ∧
        db'.chunks.rows = db.chunks.rows ++ new ∧
        new.length = (options.select (listChunks db fromBuffer)).length ∧
        (∀ i, (getBuffer db i).isSome = true → (getBuffer db' i).isSome = true) ∧
        ∀ b, getBuffer db' toBuffer = some b →
          b.totalChunks = (listChunks db' toBuffer).length ∧ b.totalFiles = 0 := by
  obtain ⟨copied, new, hrun, hsound, hbuffers, hrows, hlen⟩ := @copyChunks_rows toBuffer
    (options.select (listChunks db fromBuffer)) 0 db hdb htarget
  obtain ⟨db', hcounts⟩ : ∃ db',
      updateBufferCounts toBuffer (countChunks copied toBuffer) 0 copied = some db' := ⟨_, rfl⟩
  obtain ⟨hkept, htotals⟩ := getBuffer_counts hcounts
  have hkept' (i : Int) (hi : (getBuffer db i).isSome = true) :
      (getBuffer db' i).isSome = true := by
    refine hkept i ?_
    rw [getBuffer, hbuffers]
    exact hi
  have hchunks : db'.chunks = copied.chunks ∧ db'.chunkTexts = copied.chunkTexts ∧
      db'.chunkEntities = copied.chunkEntities := by
    obtain rfl := Option.some.inj hcounts
    exact ⟨rfl, rfl, rfl⟩
  refine ⟨db', new, (options.select (listChunks db fromBuffer)).length, ?_, ?_, ?_, hlen, hkept',
    fun b hb => ?_⟩
  · unfold transfer
    rw [if_neg (by simp [noFaults, Option.isSome_iff_ne_none.mp hsource]),
      if_neg (by simp [Option.isSome_iff_ne_none.mp htarget]),
      if_neg (by exact Bool.false_ne_true)]
    dsimp only
    rw [hrun]
    dsimp only
    rw [if_neg (by exact Bool.false_ne_true), if_neg (by exact Bool.false_ne_true), hcounts]
  · refine ⟨fun i r h => hkept _ (hsound.buffer i r ?_), fun i s h => ?_, fun i e h => ?_⟩
    · rwa [hchunks.1] at h
    · rw [hchunks.1]
      exact hsound.text i s (by rwa [hchunks.2.1] at h)
    · rw [hchunks.1]
      exact hsound.entity i e (by rwa [hchunks.2.2] at h)
  · rw [hchunks.1, hrows]
  · obtain ⟨htotal, hfiles⟩ := htotals b hb
    rw [countChunks_eq, listChunks, ← hchunks.1] at htotal
    exact ⟨htotal, hfiles⟩

/-! ## When a transfer does what it is for -/

/-- With both buffers it must select nothing, for what is selected once is selected again, and
every row is new; and the buffer with the zero that it writes must be empty. -/
theorem nothing_of_transfers {rules : EntityRules} (hdb : Sound db)
    (h : Transfers rules fromBuffer toBuffer options db)
    (hsource : (getBuffer db fromBuffer).isSome = true)
    (htarget : (getBuffer db toBuffer).isSome = true) :
    options.select (listChunks db fromBuffer) = [] ∧ listChunks db toBuffer = [] := by
  obtain ⟨db', new, n, hrun, hsound, hrows, hlen, hkept, htotals⟩ :=
    @transfer_rows fromBuffer toBuffer options db hdb hsource htarget
  have hnone : options.select (listChunks db fromBuffer) = [] := by
    obtain ⟨db'', new', n', hrun', -, hrows', hlen', -⟩ :=
      @transfer_rows fromBuffer toBuffer options db' hsound (hkept _ hsource) (hkept _ htarget)
    have hagain := h.again noFaults n noFaults (by rw [hrun])
    rw [hrun, hrun'] at hagain
    dsimp only at hagain
    rw [hrows'] at hagain
    obtain rfl := List.append_cancel_left (hagain.trans (List.append_nil _).symm)
    rw [List.length_nil] at hlen'
    refine select_nil_mono (fun x hx => ?_) (List.length_eq_zero_iff.mp hlen'.symm)
    obtain ⟨hx, hbuffer⟩ := mem_listChunks.mp hx
    exact mem_listChunks.mpr ⟨hrows ▸ List.mem_append_left new hx, hbuffer⟩
  refine ⟨hnone, ?_⟩
  rw [hnone, List.length_nil, List.length_eq_zero_iff] at hlen
  rw [hlen, List.append_nil] at hrows
  obtain ⟨b, hb⟩ := Option.isSome_iff_exists.mp (hkept _ htarget)
  have htrue := h.totals noFaults n (by rw [hrun])
  rw [hrun] at htrue
  obtain ⟨hchunks, hfiles⟩ := htrue b hb
  obtain ⟨htotal, hzero⟩ := htotals b hb
  have hlist : listChunks db' toBuffer = listChunks db toBuffer := by
    rw [listChunks, Table.select, hrows]
    rfl
  have hactive : activeChunks db' toBuffer = [] := by
    rw [hzero] at hfiles
    have := List.length_eq_zero_iff.mp (Int.ofNat_eq_zero.mp hfiles.symm)
    rw [List.dedup_eq_nil] at this
    exact List.map_eq_nil_iff.mp this
  rw [hactive, List.length_nil, htotal, hlist] at hchunks
  exact List.length_eq_zero_iff.mp (Int.ofNat_eq_zero.mp hchunks)

/-- Without one of the buffers every call fails, before it writes. -/
theorem transfers_missing {rules : EntityRules}
    (hmissing : getBuffer db fromBuffer = none ∨ getBuffer db toBuffer = none) :
    Transfers rules fromBuffer toBuffer options db := by
  have hcode (faults : TransferFaults) :=
    @transfer_missing fromBuffer toBuffer options db faults hmissing
  refine ⟨fun faults n hok => ?_, fun faults n _ hok => ?_, fun faults n hok => ?_,
    fun faults n hok => ?_, fun faults e _ => ?_⟩
  all_goals obtain ⟨e, he⟩ := hcode faults
  · rw [he] at hok
    cases hok
  · rw [he] at hok
    cases hok
  · rw [he] at hok
    cases hok
  · rw [he] at hok
    cases hok
  · rw [he]

theorem counts_chunks {db' : Tables} (h : updateBufferCounts toBuffer 0 0 db = some db') :
    db'.chunks = db.chunks ∧ db'.chunkTexts = db.chunkTexts := by
  obtain rfl := Option.some.inj h
  exact ⟨rfl, rfl⟩

theorem listChunks_congr {db' : Tables} (h : db'.chunks = db.chunks) (bufferId : Int) :
    listChunks db' bufferId = listChunks db bufferId := by
  rw [listChunks, h]
  rfl

/-- Where nothing is selected and the buffer is empty, the zeros that are written are right. -/
theorem transfers_nothing {rules : EntityRules}
    (hnone : options.select (listChunks db fromBuffer) = [])
    (hempty : listChunks db toBuffer = []) :
    Transfers rules fromBuffer toBuffer options db := by
  have hcount : countChunks db toBuffer = 0 := by
    rw [countChunks_eq, hempty]
    rfl
  have hwritten (faults : TransferFaults) (n : Nat)
      (hok : (transfer faults fromBuffer toBuffer options db).2 = .ok n) :
      updateBufferCounts toBuffer 0 0 db =
        some (transfer faults fromBuffer toBuffer options db).1 := by
    rcases @transfer_nothing fromBuffer toBuffer options db faults hnone with
      ⟨e, he⟩ | ⟨db', hcounts, hrun⟩
    · rw [he] at hok
      cases hok
    · rw [hrun, ← hcounts, hcount]
      rfl
  refine ⟨fun faults n hok => ?_, fun faults n faults' hok => ?_, fun faults n hok b hb => ?_,
    fun faults n hok => ?_, fun faults e herror => ?_⟩
  · refine ⟨[], ?_, ?_⟩
    · rw [(counts_chunks (hwritten faults n hok)).1, List.append_nil]
    · have hactive : options.select (activeChunks db fromBuffer) = [] :=
        select_nil_mono (fun x hx => (List.mem_filter.mp hx).1) hnone
      rw [hactive]
      exact .nil
  · obtain ⟨hsame, -⟩ := counts_chunks (hwritten faults n hok)
    generalize (transfer faults fromBuffer toBuffer options db).1 = db' at hsame
    rcases @transfer_nothing fromBuffer toBuffer options db' faults'
      (by rw [listChunks_congr hsame]; exact hnone) with ⟨e, he⟩ | ⟨db'', hcounts, hrun⟩
    · rw [he]
    · rw [hrun]
      obtain rfl := Option.some.inj hcounts
      rfl
  · have hcounts := hwritten faults n hok
    obtain ⟨htotal, hfiles⟩ := (getBuffer_counts hcounts).2 b hb
    rw [activeChunks, listChunks_congr (counts_chunks hcounts).1, hempty, htotal, hfiles]
    exact ⟨rfl, rfl⟩
  · obtain ⟨hsame, htexts⟩ := counts_chunks (hwritten faults n hok)
    refine ⟨listChunks_congr hsame _, fun x _ => ?_⟩
    rw [getChunkContent, htexts]
    rfl
  · rcases @transfer_nothing fromBuffer toBuffer options db faults hnone with
      ⟨e', he⟩ | ⟨db', hcounts, hrun⟩
    · rw [he]
    · rw [hrun] at herror
      cases herror

end Runs

/-- A transfer does what it is for exactly when there is nothing to transfer. -/
theorem transfer_exact (rules : EntityRules) (db : KnowledgeDb) (fromBuffer toBuffer : Int)
    (options : TransferOptions) :
    Transfers rules fromBuffer toBuffer options db.tables ↔
      NothingToTransfer fromBuffer toBuffer options db.tables := by
  obtain ⟨db, hdb⟩ := db
  dsimp only
  constructor
  · intro h
    rw [NothingToTransfer, or_iff_not_imp_left, ← Ne, ← Option.isSome_iff_ne_none]
    intro hsource
    rw [or_iff_not_imp_left, ← Ne, ← Option.isSome_iff_ne_none]
    exact nothing_of_transfers hdb h hsource
  · intro hnothing
    rw [NothingToTransfer, ← or_assoc] at hnothing
    rcases hnothing with hmissing | ⟨hnone, hempty⟩
    · exact transfers_missing hmissing
    · exact transfers_nothing hnone hempty

/-! One chunk is transferred from buffer 1 to buffer 2, twice. -/

def transferRow : ChunkRow where
  bufferId := 1
  filePath := "a.md"
  offsetStart := 0
  offsetEnd := 1
  lineStart := 1
  lineEnd := 1
  hash := []
  language := some "markdown"
  chunkType := none
  tokenCount := some 1
  isActive := true

def transferTables : Tables where
  buffers := (SeqTable.empty.insert ⟨"p", 1, 1⟩).insert ⟨"q", 0, 0⟩
  chunks := SeqTable.empty.insert transferRow
  chunkTexts := [(1, ['b'])]
  chunkEntities := [(1, "a")]
  entitiesFts := ["a"]
  chunksFts := [(1, ['b'])]
  tasks := []
  findings := []
  rlmEdges := []

def transferOnce (db : Tables) : Tables := (transfer noFaults 1 2 ⟨[], 1000⟩ db).1

theorem transfer_exact_not :
    countChunks (transferOnce transferTables) 2 = 1 ∧
    countChunks (transferOnce (transferOnce transferTables)) 2 = 2 ∧
    (transferOnce transferTables).chunkEntities = [(1, "a")] ∧
    ¬ ∀ (rules : EntityRules) (db : KnowledgeDb) (fromBuffer toBuffer : Int)
      (options : TransferOptions), Transfers rules fromBuffer toBuffer options db.tables := by
  have honce : countChunks (transferOnce transferTables) 2 = 1 := by rfl
  have htwice : countChunks (transferOnce (transferOnce transferTables)) 2 = 2 := by rfl
  refine ⟨honce, htwice, by rfl, fun h => ?_⟩
  have hsound : Sound transferTables := by
    refine ⟨fun i r h => ?_, fun i s h => ?_, fun i e h => ?_⟩
    · obtain ⟨rfl, rfl⟩ := Prod.mk.inj (List.mem_singleton.mp h)
      rfl
    · obtain ⟨rfl, -⟩ := Prod.mk.inj (List.mem_singleton.mp h)
      rfl
    · obtain ⟨rfl, -⟩ := Prod.mk.inj (List.mem_singleton.mp h)
      rfl
  have hagain := (h sampleIndexEnv.rules ⟨transferTables, hsound⟩ 1 2 ⟨[], 1000⟩).again noFaults 1
    noFaults (by rfl)
  have hcount : countChunks (transferOnce (transferOnce transferTables)) 2 =
      countChunks (transferOnce transferTables) 2 := by
    rw [countChunks, Table.count, Table.select, transferOnce, transferOnce, hagain]
    rfl
  rw [honce, htwice] at hcount
  cases hcount

end Arags.Knowledge
