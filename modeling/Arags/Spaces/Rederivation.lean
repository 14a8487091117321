import Arags.Index.Reindex
import Arags.Lib.Runs
import Arags.Spaces.EmbedTexts

/-!
# Arags.Spaces.Rederivation

When the text that is embedded again for a record is the one that was embedded first, over all
histories of writes.

* `Written.derived`, `Written.Faithful` — what the columns give back, and when that is enough.
* `HasText` — the text a table holds for a record; one lemma for each statement that writes.
* `Recorded` — the invariant: the table holds the derived text of the last write.
* `rederivation` — reconcile and bootstrap against the write path.
-/

namespace Arags

open Sql

/-- The text that the stored columns give. -/
def Written.derived : Written → String
  | .chunk content => content
  | .question questionText => questionText
  | .node subject summaryText => subject ++ "\n" ++ summaryText
  | .map goal summary => Text.trim goal ++ "\n" ++ Text.trim summary

/-- A chunk, a node, or a map whose goal and summary have no white space around them. -/
def Written.Faithful : Written → Prop
  | .chunk _ => True
  | .question _ => False
  | .node _ _ => True
  | .map goal summary => Text.trim goal = goal ∧ Text.trim summary = summary

instance (w : Written) : Decidable w.Faithful := by
  cases w <;> unfold Written.Faithful <;> exact inferInstance

theorem prefixed_ne (q : String) : q ≠ QUESTION_PREFIX ++ q := by
  intro h
  have hlen := congrArg (fun s => s.toList.length) h
  simp only [String.toList_append, List.length_append] at hlen
  have hprefix : QUESTION_PREFIX.toList.length = 14 := by decide
  omega

theorem derived_eq_embedded (w : Written) : w.derived = w.embedded ↔ w.Faithful := by
  cases w with
  | chunk content => exact ⟨fun _ => trivial, fun _ => rfl⟩
  | question questionText =>
    constructor
    · intro h
      exact absurd h (prefixed_ne questionText)
    · exact False.elim
  | node subject summaryText => exact ⟨fun _ => trivial, fun _ => rfl⟩
  | map goal summary => exact Text.trim_sep_trim

/-! ## The text of a record -/

/-- The text in the columns of a record; a purged chunk has none. -/
def HasText (db : TextDb) (space : Space) (id : Int) (text : String) : Prop :=
  match space with
  | .chunk => id ∉ db.chunkStore.textless ∧ ∃ r, (id, r) ∈ db.chunkStore.chunks.rows ∧
      text = r.content
  | .question => ∃ r, (id, r) ∈ db.qaCache.rows ∧ text = r.questionText
  | .node => ∃ r, (id, r) ∈ db.rlmNodes.rows ∧ text = r.subject ++ "\n" ++ r.summaryText
  | .map => ∃ r, (id, r) ∈ db.explorations.explorations.rows ∧ text = r.goal ++ "\n" ++ r.summary

theorem mem_bootstrapTexts {scan : TextScans} {db : TextDb} {space : Space} {id : Int}
    {text : String} :
    (id, text) ∈ bootstrapTexts scan db space ↔ HasText db space id text := by
  cases space with
  | chunk =>
    simp only [bootstrapTexts, allChunkEmbedInputs, HasText, List.map_map, List.mem_map,
      Function.comp_apply, Prod.exists, Prod.mk.injEq]
    constructor
    · rintro ⟨i, r, hm, rfl, rfl⟩
      obtain ⟨hr, hp⟩ := Table.mem_select.mp (scan.chunks.mem_order.mp hm)
      exact ⟨by simpa using hp, r, hr, rfl⟩
    · rintro ⟨hp, r, hr, rfl⟩
      exact ⟨id, r, scan.chunks.mem_order.mpr (Table.mem_select.mpr ⟨hr, by simpa using hp⟩),
        rfl, rfl⟩
  | question => simp [bootstrapTexts, allQaEmbedInputs, mem_selectTexts, HasText]
  | node => simp [bootstrapTexts, allRlmEmbedInputs, mem_selectTexts, HasText]
  | map => simp [bootstrapTexts, allExplorationEmbedInputs, mem_selectTexts, HasText]

theorem mem_reconcileTexts {scan : TextScans} {db : TextDb} {ids : List Int} {space : Space}
    {id : Int} {text : String} :
    (id, text) ∈ reconcileTexts scan db ids space ↔ id ∈ ids ∧ HasText db space id text := by
  cases space with
  | chunk =>
    simp only [reconcileTexts, getChunkEmbedInputs, HasText, List.map_map, List.mem_map,
      Function.comp_apply, Prod.exists, Prod.mk.injEq]
    constructor
    · rintro ⟨i, r, hm, rfl, rfl⟩
      obtain ⟨hr, hp⟩ := Table.mem_select.mp (scan.chunks.mem_order.mp hm)
      simp only [Bool.and_eq_true, Bool.not_eq_true', List.contains_eq_mem, decide_eq_true_eq,
        decide_eq_false_iff_not] at hp
      exact ⟨hp.2, hp.1, r, hr, rfl⟩
    · rintro ⟨hid, hp, r, hr, rfl⟩
      exact ⟨id, r, scan.chunks.mem_order.mpr (Table.mem_select.mpr ⟨hr, by simp [hp, hid]⟩),
        rfl, rfl⟩
  | question =>
    simp only [reconcileTexts, getQaEmbedInputs, mem_selectTexts, HasText, List.contains_eq_mem,
      decide_eq_true_eq]
    tauto
  | node =>
    simp only [reconcileTexts, getRlmEmbedInputs, mem_selectTexts, HasText, List.contains_eq_mem,
      decide_eq_true_eq]
    tauto
  | map =>
    simp only [reconcileTexts, getExplorationEmbedInputs, mem_selectTexts, HasText,
      List.contains_eq_mem, decide_eq_true_eq]
    tauto

/-! ## What the statements do to the text columns -/

section Columns

variable {ρ τ : Type} {column : ρ → τ}

/-- Every row of `t'` has the column of the row of `t` under its id, or `new` gives it. -/
def Column (column : ρ → τ) (t t' : Table ρ) (new : Option (Int × τ)) : Prop :=
  ∀ i r, (i, r) ∈ t'.rows →
    (∃ v, new = some (i, v) ∧ column r = v) ∨
      (∀ v, new ≠ some (i, v)) ∧ ∃ s, (i, s) ∈ t.rows ∧ column r = column s

theorem column_update {t : Table ρ} {p : Int → ρ → Bool} {f : Int → ρ → ρ}
    (hf : ∀ i r, column (f i r) = column r) : Column column t (t.update p f) none := by
  intro i r hr
  obtain ⟨s, hs, rfl⟩ := Table.mem_update.mp hr
  refine .inr ⟨by simp, s, hs, ?_⟩
  split
  · exact hf i s
  · rfl

theorem column_delete {t : Table ρ} {p : Int → ρ → Bool} : Column column t (t.delete p) none := by
  intro i r hr
  exact .inr ⟨by simp, r, (Table.mem_delete.mp hr).1, rfl⟩

theorem column_insert (t : Table ρ) (r : ρ) :
    Column column t (t.insert r) (some (t.nextId, column r)) := by
  intro i r' hr
  rcases Table.mem_insert.mp hr with hr | ⟨rfl, rfl⟩
  · have hlt := Table.lt_nextId hr
    refine .inr ⟨?_, r', hr, rfl⟩
    intro v he
    simp only [Option.some.injEq, Prod.mk.injEq] at he
    omega
  · exact .inl ⟨_, rfl, rfl⟩

theorem Column.after_update {t t' : Table ρ} {new : Option (Int × τ)} {p : Int → ρ → Bool}
    {f : Int → ρ → ρ} (h : Column column t t' new) (hf : ∀ i r, column (f i r) = column r) :
    Column column t (t'.update p f) new := by
  intro i r hr
  obtain ⟨s, hs, rfl⟩ := Table.mem_update.mp hr
  have hcol : column (if p i s then f i s else s) = column s := by
    split
    · exact hf i s
    · rfl
  rw [hcol]
  exact h i s hs

/-- An insert after an update of other columns. -/
theorem column_update_insert {t : Table ρ} {p : Int → ρ → Bool} {f : Int → ρ → ρ}
    (hf : ∀ i r, column (f i r) = column r) (r : ρ) :
    Column column t ((t.update p f).insert r) (some ((t.update p f).nextId, column r)) := by
  intro i r' hr
  rcases column_insert (t.update p f) r i r' hr with h | ⟨hne, s, hs, he⟩
  · exact .inl h
  · rcases column_update hf i s hs with ⟨v, hv, -⟩ | ⟨-, u, hu, he'⟩
    · cases hv
    · exact .inr ⟨hne, u, hu, he.trans he'⟩

end Columns

theorem storeAnswer_column (scan : ScanOrder QaCacheRow) (t : Table QaCacheRow)
    (input : StoreAnswerInput) (cacheId : String) (now : Int) :
    Column QaCacheRow.questionText t (storeAnswer scan t input cacheId now).1
      (some ((storeAnswer scan t input cacheId now).2, input.questionText)) := by
  unfold storeAnswer
  split
  · dsimp only
    refine Column.after_update ?_ ?_
    · refine column_update_insert ?_ _
      exact fun _ _ => rfl
    · exact fun _ _ => rfl
  · exact column_insert t (input.row cacheId 1 now)

/-- The columns of a node that are embedded. -/
def RlmNode.texts (n : RlmNode) : String × String := (n.subject, n.summaryText)

def ExplorationRow.texts (m : ExplorationRow) : String × String := (m.goal, m.summary)

theorem upsertNodeStmt_column {scan : ScanOrder RlmNode} {t t' : Table RlmNode}
    {nodeId id' : String} {input : NewRlmNode} {now id : Int}
    (h : upsertNodeStmt scan t nodeId input now = .ok (t', id, id')) :
    Column RlmNode.texts t t' (some (id, input.subject, input.summaryText)) := by
  unfold upsertNodeStmt at h
  dsimp only at h
  cases he : (scan.order (t.select fun _ n => n.project == input.project &&
      n.level == input.level && n.subject == input.subject && n.isActive)).head? with
  | none =>
    simp only [he] at h
    split at h
    · cases h
    split at h
    · cases h
    cases h
    exact column_insert t _
  | some old =>
    simp only [he] at h
    split at h
    · cases h
    split at h
    · cases h
    cases h
    refine Column.after_update ?_ ?_
    · refine column_update_insert ?_ _
      exact fun _ _ => rfl
    · exact fun _ _ => rfl

theorem publishRlmNodeForSubject_column {scan : ScanOrder RlmNode} {t t' : Table RlmNode}
    {project subject summaryText decidedBy nodeId id' : String} {level now id : Int}
    {hashes : List String} {volunteer model template : Option String}
    (h : publishRlmNodeForSubject scan t project level subject summaryText hashes volunteer model
      template decidedBy nodeId now = .ok (t', id, id')) :
    Column RlmNode.texts t t' (some (id, subject, summaryText)) := by
  unfold publishRlmNodeForSubject at h
  dsimp only at h
  split at h
  · cases h
  · rename_i nodes i n hu
    cases h
    refine Column.after_update (upsertNodeStmt_column hu) ?_
    exact fun _ _ => rfl

theorem persistExploration_column {scan : ScanOrder ExplorationRow} {db db' : ExplorationDb}
    {input : PersistExplorationInput} {explorationId : String} {now id : Int}
    (h : persistExploration scan db input explorationId now = .ok (db', id)) :
    Column ExplorationRow.texts db.explorations db'.explorations
      (some (id, input.goal, input.summary)) := by
  unfold persistExploration at h
  dsimp only at h
  split at h
  · cases h
  split at h
  · cases h
  cases h
  refine Column.after_update ?_ ?_
  · refine column_update_insert ?_ _
    exact fun _ _ => rfl
  · exact fun _ _ => rfl

/-- The handler stores the trimmed request, or nothing. -/
theorem handlePersistExploration_column {scan : ScanOrder ExplorationRow}
    {chunkScan : ScanOrder Chunk} {enabled : Bool} {index : IndexDb} {db : ExplorationDb}
    {req : PersistExplorationRequest} {username : String} {gate : ReviewGate}
    {explorationId : String} {now : Int} :
    let r := handlePersistExploration scan chunkScan enabled index db req username gate
      explorationId now
    Column ExplorationRow.texts db.explorations r.1.explorations
      (match r.2 with
      | .ok (id, _, _) => some (id, Text.trim req.goal, Text.trim req.summary)
      | .error _ => none) := by
  have hsame : Column ExplorationRow.texts db.explorations db.explorations none :=
    fun i r hr => .inr ⟨by simp, r, hr, rfl⟩
  intro r
  obtain ⟨e, he⟩ | ⟨_, _, stored, id, -, hp, he⟩ := handlePersistExploration_cases scan chunkScan
    enabled index db req username gate explorationId now
  · have hr : r = (db, .error e) := he
    rw [hr]
    exact hsame
  · have hr : r = _ := he
    rw [hr]
    have hstored := persistExploration_column hp
    dsimp only
    split
    · exact hstored.after_update fun _ _ => rfl
    · exact hstored

/-! ## The invariant -/

/-- The chunk texts of a log. -/
def chunkTexts (log : List ((Space × Int) × Written)) : List String :=
  log.filterMap fun e =>
    match e.2 with
    | .chunk content => some content
    | _ => none

/-- Chunk rows hold texts of `T` under their digests, and every record holds the text that its
last write gives. -/
structure Recorded (sha256 : String → List UInt8) (T : List String)
    (log : List ((Space × Int) × Written)) (db : TextDb) : Prop where
  digests : ∀ x ∈ db.chunkStore.chunks.rows,
    x.2.content ∈ T ∧ x.2.hash = sha256 x.2.content
  texts : ∀ space id w, log.lookup (space, id) = some w →
    w.space = space ∧ ∀ text, HasText db space id text → text = w.derived

section Recorded

variable {sha256 : String → List UInt8} {T : List String}
  {log : List ((Space × Int) × Written)} {db db' : TextDb}

/-- A statement that embeds nothing. -/
theorem Recorded.keep (h : Recorded sha256 T log db)
    (hd : ∀ x ∈ db'.chunkStore.chunks.rows, x.2.content ∈ T ∧ x.2.hash = sha256 x.2.content)
    (hold : ∀ space id text, HasText db' space id text → HasText db space id text) :
    Recorded sha256 T log db' := by
  refine ⟨hd, fun space id w hw => ?_⟩
  obtain ⟨hspace, htext⟩ := h.texts space id w hw
  exact ⟨hspace, fun text ht => htext text (hold space id text ht)⟩

/-- A statement that embeds one record. -/
theorem Recorded.add (h : Recorded sha256 T log db) {id : Int} {w : Written}
    (hd : ∀ x ∈ db'.chunkStore.chunks.rows, x.2.content ∈ T ∧ x.2.hash = sha256 x.2.content)
    (hnew : ∀ text, HasText db' w.space id text → text = w.derived)
    (hold : ∀ space i text, (w.space, id) ≠ (space, i) → HasText db' space i text →
      HasText db space i text) :
    Recorded sha256 T (((w.space, id), w) :: log) db' := by
  refine ⟨hd, fun space i v hv => ?_⟩
  rw [List.lookup_cons] at hv
  by_cases he : (space, i) = (w.space, id)
  · simp only [he, beq_self_eq_true] at hv
    cases hv
    simp only [Prod.mk.injEq] at he
    obtain ⟨rfl, rfl⟩ := he
    exact ⟨rfl, hnew⟩
  · rw [beq_false_of_ne he] at hv
    obtain ⟨hspace, htext⟩ := h.texts space i v hv
    exact ⟨hspace, fun text ht => htext text (hold space i text (Ne.symm he) ht)⟩

/-! ## Indexing a file -/

def TextDb.withChunks (db : TextDb) (chunks : SeqTable Chunk) : TextDb :=
  { db with chunkStore := { db.chunkStore with chunks := chunks } }

/-- The log of the persisted pairs, newest first. -/
def chunkEntries (persisted : List (Int × String)) : List ((Space × Int) × Written) :=
  (persisted.map fun p => ((.chunk, p.1), .chunk p.2)).reverse

theorem chunkEntries_concat (persisted : List (Int × String)) (p : Int × String) :
    chunkEntries (persisted ++ [p]) = ((.chunk, p.1), .chunk p.2) :: chunkEntries persisted := by
  simp [chunkEntries]

/-- A chunk that is inserted under a new id. -/
theorem Recorded.insertChunk {t t' : SeqTable Chunk} {c : IndexedChunk}
    (h : Recorded sha256 T log (db.withChunks t))
    (hc : c.content ∈ T ∧ c.hashBytes = sha256 c.content)
    (ht : ∀ i r, (i, r) ∈ t'.rows →
      (i = t.seq + 1 ∧ r.content = c.content ∧ r.hash = c.hashBytes) ∨
        ∃ s, (i, s) ∈ t.rows ∧ r.content = s.content ∧ r.hash = s.hash) :
    Recorded sha256 T (((.chunk, t.seq + 1), .chunk c.content) :: log) (db.withChunks t') := by
  refine h.add (w := .chunk c.content) ?_ ?_ ?_
  · rintro ⟨i, r⟩ hx
    rcases ht i r hx with ⟨-, hcont, hhash⟩ | ⟨s, hs, hcont, hhash⟩
    · rw [hcont, hhash]
      exact hc
    · rw [hcont, hhash]
      exact h.digests (i, s) hs
  · rintro text ⟨-, r, hr, rfl⟩
    rcases ht _ r hr with ⟨-, hcont, -⟩ | ⟨s, hs, -, -⟩
    · exact hcont
    · have := t.le_seq (t.seq + 1, s) hs
      dsimp only at this
      omega
  · intro space i text hne htext
    cases space with
    | chunk =>
      obtain ⟨hp, r, hr, rfl⟩ := htext
      rcases ht i r hr with ⟨rfl, -, -⟩ | ⟨s, hs, hcont, -⟩
      · exact absurd rfl hne
      · exact ⟨hp, s, hs, hcont⟩
    | question => exact htext
    | node => exact htext
    | map => exact htext

theorem persistChunk_recorded {scan : ScanOrder Chunk} {b : Int} {active : Snapshot}
    {acc : SeqTable Chunk × BatchedInsert} {item : String × IndexedChunk}
    (hT : ∀ x ∈ T, ∀ y ∈ T, sha256 x = sha256 y → x = y)
    (hi : item.2.content ∈ T ∧ item.2.hashBytes = sha256 item.2.content)
    (h : Recorded sha256 T (chunkEntries acc.2.persisted ++ log) (db.withChunks acc.1)) :
    Recorded sha256 T (chunkEntries (persistChunk scan b active acc item).2.persisted ++ log)
      (db.withChunks (persistChunk scan b active acc item).1) := by
  cases persistChunk_persisted scan b active acc.1 acc.2 item.1 item.2 with
  | unchanged x _ hx hh ht hr =>
    rw [ht, hr, chunkEntries_concat, List.cons_append]
    -- the row has the digest of the chunk, and so its text
    have hrow := (mem_activeAt.mp hx).1
    obtain ⟨hxT, hxhash⟩ := h.digests x hrow
    have hsame : x.2.content = item.2.content := by
      refine hT _ hxT _ hi.1 ?_
      rw [← hxhash, hh, hi.2]
    refine h.add (w := .chunk item.2.content) h.digests ?_ fun _ _ _ _ ht => ht
    rintro text ⟨-, r, hr, rfl⟩
    rw [Table.eq_of_mem hr hrow]
    exact hsame
  | changed x _ hx hh ht hr =>
    rw [ht, hr, chunkEntries_concat, List.cons_append]
    refine h.insertChunk hi fun i r hmem => ?_
    obtain ⟨s, hs, rfl⟩ := SeqTable.mem_update.mp hmem
    rcases SeqTable.mem_insert.mp hs with hs | ⟨rfl, rfl⟩
    · refine .inr ⟨s, hs, ?_, ?_⟩ <;> split <;> rfl
    · refine .inl ⟨rfl, ?_, ?_⟩ <;> split <;> rfl
  | fresh _ ht hr =>
    rw [ht, hr, chunkEntries_concat, List.cons_append]
    refine h.insertChunk hi fun i r hmem => ?_
    rcases SeqTable.mem_insert.mp hmem with hs | ⟨rfl, rfl⟩
    · exact .inr ⟨r, hs, rfl, rfl⟩
    · exact .inl ⟨rfl, rfl, rfl⟩

theorem persistAll_recorded {scan : ScanOrder Chunk} {b : Int} {active : Snapshot}
    {items : List (String × IndexedChunk)} {acc : SeqTable Chunk × BatchedInsert}
    (hT : ∀ x ∈ T, ∀ y ∈ T, sha256 x = sha256 y → x = y)
    (hi : ∀ item ∈ items, item.2.content ∈ T ∧ item.2.hashBytes = sha256 item.2.content)
    (h : Recorded sha256 T (chunkEntries acc.2.persisted ++ log) (db.withChunks acc.1)) :
    Recorded sha256 T (chunkEntries (persistAll scan b active acc items).2.persisted ++ log)
      (db.withChunks (persistAll scan b active acc items).1) := by
  induction items generalizing acc with
  | nil => exact h
  | cons item items ih =>
    refine ih (fun x hx => hi x (List.mem_cons_of_mem _ hx)) ?_
    exact persistChunk_recorded hT (hi item List.mem_cons_self) h

/-! ## The other spaces -/

/-- `space` is read from one column of a table, and the two databases differ in that table
only. -/
structure ReadsFrom {ρ τ : Type} (space : Space) (column : ρ → τ) (text : τ → String)
    (t t' : Table ρ) (db db' : TextDb) : Prop where
  before : ∀ i s, HasText db space i s ↔ ∃ r, (i, r) ∈ t.rows ∧ s = text (column r)
  after : ∀ i s, HasText db' space i s ↔ ∃ r, (i, r) ∈ t'.rows ∧ s = text (column r)
  others : ∀ other i s, other ≠ space → (HasText db' other i s ↔ HasText db other i s)
  chunks : db'.chunkStore = db.chunkStore

def pairText (v : String × String) : String := v.1 ++ "\n" ++ v.2

theorem readsFrom_answers (db : TextDb) (rows : Table QaCacheRow) :
    ReadsFrom .question QaCacheRow.questionText id db.qaCache rows db
      { db with qaCache := rows } := by
  refine ⟨fun _ _ => Iff.rfl, fun _ _ => Iff.rfl, ?_, rfl⟩
  intro other i s ho
  cases other with
  | question => exact absurd rfl ho
  | _ => exact Iff.rfl

theorem readsFrom_nodes (db : TextDb) (nodes : Table RlmNode) :
    ReadsFrom .node RlmNode.texts pairText db.rlmNodes nodes db
      { db with rlmNodes := nodes } := by
  refine ⟨fun _ _ => Iff.rfl, fun _ _ => Iff.rfl, ?_, rfl⟩
  intro other i s ho
  cases other with
  | node => exact absurd rfl ho
  | _ => exact Iff.rfl

theorem readsFrom_maps (db : TextDb) (maps : ExplorationDb) :
    ReadsFrom .map ExplorationRow.texts pairText db.explorations.explorations maps.explorations db
      { db with explorations := maps } := by
  refine ⟨fun _ _ => Iff.rfl, fun _ _ => Iff.rfl, ?_, rfl⟩
  intro other i s ho
  cases other with
  | map => exact absurd rfl ho
  | _ => exact Iff.rfl

section Column

variable {ρ τ : Type} {space : Space} {column : ρ → τ} {text : τ → String} {t t' : Table ρ}

theorem Recorded.column_keep (h : Recorded sha256 T log db)
    (hr : ReadsFrom space column text t t' db db') (hcol : Column column t t' none) :
    Recorded sha256 T log db' := by
  refine h.keep (by rw [hr.chunks]; exact h.digests) fun other i s hs => ?_
  by_cases ho : other = space
  · subst ho
    obtain ⟨r, hmem, rfl⟩ := (hr.after i s).mp hs
    rcases hcol i r hmem with ⟨v, hv, -⟩ | ⟨-, r', hr', he⟩
    · cases hv
    · exact (hr.before i _).mpr ⟨r', hr', by rw [he]⟩
  · exact (hr.others other i s ho).mp hs

theorem Recorded.column_add (h : Recorded sha256 T log db) {id : Int} {v : τ} {w : Written}
    (hr : ReadsFrom w.space column text t t' db db')
    (hcol : Column column t t' (some (id, v))) (hv : text v = w.derived) :
    Recorded sha256 T (((w.space, id), w) :: log) db' := by
  refine h.add (by rw [hr.chunks]; exact h.digests) ?_ fun other i s hne hs => ?_
  · intro s hs
    obtain ⟨r, hmem, rfl⟩ := (hr.after id s).mp hs
    rcases hcol id r hmem with ⟨u, hu, he⟩ | ⟨hnew, -⟩
    · cases hu
      rw [he, hv]
    · exact absurd rfl (hnew v)
  · by_cases ho : other = w.space
    · subst ho
      obtain ⟨r, hmem, rfl⟩ := (hr.after i s).mp hs
      rcases hcol i r hmem with ⟨u, hu, -⟩ | ⟨-, r', hr', he⟩
      · cases hu
        exact absurd rfl hne
      · exact (hr.before i _).mpr ⟨r', hr', by rw [he]⟩
    · exact (hr.others other i s ho).mp hs

end Column

end Recorded

/-! ## Runs -/

section Runs

variable (ix : Indexer) (scan : TextScans)

/-- The log and the tables after the statements `ops`, newest first. -/
def textRun (ops : List TextOp) : List ((Space × Int) × Written) × TextDb :=
  Lts.after (Lts.recorded (textStep ix scan) (textOut ix scan)) ([], TextDb.empty) ops

variable {ix scan}

theorem mem_chunkTexts_append {a b : List ((Space × Int) × Written)} {x : String} :
    x ∈ chunkTexts (a ++ b) ↔ x ∈ chunkTexts a ∨ x ∈ chunkTexts b := by
  simp [chunkTexts, List.filterMap_append]

theorem mem_chunkTexts_entries {persisted : List (Int × String)} {x : String} :
    x ∈ chunkTexts (chunkEntries persisted) ↔ x ∈ persisted.map Prod.snd := by
  simp [chunkTexts, chunkEntries, List.filterMap_reverse, List.filterMap_map]

/-- The step lemma: one statement keeps the invariant. -/
theorem textStep_recorded {T : List String} (hT : ∀ x ∈ T, ∀ y ∈ T,
      ix.sha256 x = ix.sha256 y → x = y)
    {log : List ((Space × Int) × Written)} {db : TextDb} {op : TextOp}
    (hlog : ∀ x ∈ chunkTexts (textOut ix scan db op ++ log), x ∈ T)
    (h : Recorded ix.sha256 T log db) :
    Recorded ix.sha256 T (textOut ix scan db op ++ log) (textStep ix scan db op) := by
  cases op with
  | createProject name path => exact ⟨h.digests, h.texts⟩
  | indexFile bufferId active path content =>
    have hres : indexFileResult ix db bufferId active path content =
        persistAll ix.scan bufferId active (db.chunkStore.chunks, .empty)
          ((ix.chunksOf path content).map fun c => (path, c)) := insertChunksBatched_eq ..
    have hout : textOut ix scan db (.indexFile bufferId active path content) =
        chunkEntries (indexFileResult ix db bufferId active path content).2.persisted := rfl
    have hstep : textStep ix scan db (.indexFile bufferId active path content) =
        db.withChunks (indexFileResult ix db bufferId active path content).1 := rfl
    rw [hout] at hlog ⊢
    rw [hstep, hres]
    rw [hres] at hlog
    refine persistAll_recorded hT ?_ h
    intro item hitem
    obtain ⟨c, hc, rfl⟩ := List.mem_map.mp hitem
    refine ⟨hlog _ (mem_chunkTexts_append.mpr (.inl ?_)), chunksOf_hashBytes c hc⟩
    rw [mem_chunkTexts_entries, persistAll_texts]
    exact List.mem_append_right _ (List.mem_map_of_mem hitem)
  | storeAnswer input cacheId now =>
    exact h.column_add (w := .question input.questionText) (readsFrom_answers db _)
      (storeAnswer_column scan.qaCache db.qaCache input cacheId now) rfl
  | completeNode input nodeId now =>
    simp only [textOut, textStep]
    cases hu : upsertNodeStmt scan.rlmNodes db.rlmNodes nodeId input now with
    | error e => exact h
    | ok r =>
      exact h.column_add (w := .node input.subject input.summaryText)
        (readsFrom_nodes db r.1) (upsertNodeStmt_column hu) rfl
  | publishNode project level subject summaryText volunteer nodeId now =>
    simp only [textOut, textStep]
    cases hu : publishResult scan db project level subject summaryText volunteer nodeId now with
    | error e => exact h
    | ok r =>
      exact h.column_add (w := .node subject summaryText) (readsFrom_nodes db r.1)
        (publishRlmNodeForSubject_column hu) rfl
  | persistExploration req username gate explorationId now =>
    have hcol : Column ExplorationRow.texts _ _ _ := @handlePersistExploration_column
      scan.explorations scan.chunks true db.index db.explorations req username gate explorationId
      now
    simp only [textOut, textStep, persistResult]
    cases hr : (handlePersistExploration scan.explorations scan.chunks true db.index
        db.explorations req username gate explorationId now).2 with
    | error e =>
      rw [hr] at hcol
      exact h.column_keep (readsFrom_maps db _) hcol
    | ok r =>
      rw [hr] at hcol
      exact h.column_add (w := .map req.goal req.summary) (readsFrom_maps db _) hcol rfl
  | updateChunks p f =>
    refine h.keep ?_ ?_
    · rintro ⟨i, r⟩ hx
      obtain ⟨s, hs, rfl⟩ := SeqTable.mem_update.mp hx
      have hold := h.digests (i, s) hs
      have hf := f.2 i s
      simp only [Prod.mk.injEq] at hf
      dsimp only at hold ⊢
      split
      · rw [hf.1, hf.2]
        exact hold
      · exact hold
    · intro space id text ht
      cases space with
      | chunk =>
        obtain ⟨hp, r, hr, rfl⟩ := ht
        obtain ⟨s, hs, rfl⟩ := SeqTable.mem_update.mp hr
        refine ⟨hp, s, hs, ?_⟩
        split
        · exact congrArg Prod.fst (f.2 id s)
        · rfl
      | _ => exact ht
  | updateAnswers p f => exact h.column_keep (readsFrom_answers db _) (column_update f.2)
  | updateNodes p f => exact h.column_keep (readsFrom_nodes db _) (column_update f.2)
  | updateMaps p f =>
    exact h.column_keep (readsFrom_maps db { db.explorations with
      explorations := db.explorations.explorations.update p f.1 }) (column_update f.2)
  | purgeTexts ids =>
    refine h.keep h.digests fun space id text ht => ?_
    cases space with
    | chunk => exact ⟨fun hm => ht.1 (List.mem_append_left _ hm), ht.2⟩
    | _ => exact ht
  | deleteAnswers p => exact h.column_keep (readsFrom_answers db _) column_delete
  | deleteMaps p =>
    exact h.column_keep (readsFrom_maps db { db.explorations with
      explorations := db.explorations.explorations.delete p }) column_delete

/-- The run lemma. -/
theorem textRun_recorded {T : List String} (hT : ∀ x ∈ T, ∀ y ∈ T,
      ix.sha256 x = ix.sha256 y → x = y) (ops : List TextOp)
    (hops : ∀ x ∈ chunkTexts (textRun ix scan ops).1, x ∈ T) :
    Recorded ix.sha256 T (textRun ix scan ops).1 (textRun ix scan ops).2 := by
  revert hops
  refine Lts.recorded_inv (I := fun log db => (∀ x ∈ chunkTexts log, x ∈ T) →
    Recorded ix.sha256 T log db) ?_ ?_ ops
  · intro _
    refine ⟨fun x hx => ?_, fun space id w hw => ?_⟩
    · cases hx
    · cases hw
  · intro log db op h hlog
    refine textStep_recorded hT hlog (h fun x hx => ?_)
    exact hlog x (mem_chunkTexts_append.mpr (.inr hx))

/-- For every record that a write path embedded and that is still stored, what reconcile and
bootstrap embed is the text of the last write exactly when the record is a chunk, a node, or a
map whose goal and summary have no white space around them. -/
theorem rederivation {ops : List TextOp}
    (hcollision : ∀ x ∈ chunkTexts (textRun ix scan ops).1,
      ∀ y ∈ chunkTexts (textRun ix scan ops).1, ix.sha256 x = ix.sha256 y → x = y)
    {id : Int} {w : Written}
    (hlog : (textRun ix scan ops).1.lookup (w.space, id) = some w)
    (hstored : id ∈ (bootstrapTexts scan (textRun ix scan ops).2 w.space).map Prod.fst) :
    (∀ text, (id, text) ∈ reconcileTexts scan (textRun ix scan ops).2 [id] w.space ∨
        (id, text) ∈ bootstrapTexts scan (textRun ix scan ops).2 w.space →
      text = w.embedded) ↔ w.Faithful := by
  have hrec := textRun_recorded hcollision ops fun _ hx => hx
  obtain ⟨-, hderived⟩ := hrec.texts w.space id w hlog
  obtain ⟨⟨i, text⟩, hmem, rfl⟩ := List.mem_map.mp hstored
  have hd : text = w.derived := hderived text (mem_bootstrapTexts.mp hmem)
  rw [← derived_eq_embedded]
  constructor
  · intro h
    rw [← hd]
    exact h text (.inr hmem)
  · rintro he other (ho | ho)
    · rw [hderived other (mem_reconcileTexts.mp ho).2, he]
    · rw [hderived other (mem_bootstrapTexts.mp ho), he]

end Runs

/-! ## A question and a map -/

def rowScans : TextScans := ⟨.rowid, .rowid, .rowid, .rowid⟩

def mapRequest (goal summary : String) : PersistExplorationRequest where
  project := "p"
  goal := goal
  summary := summary
  bodyMarkdown := "body"
  files := ["a.txt"]
  model := ""

def askedQuestion : StoreAnswerInput where
  bufferId := some 1
  project := "p"
  questionText := "what is a?"
  questionHash := "q1"
  answerText := "a file"
  sourceChunkIds := []
  sourceHashes := []

/-- A file, a question, and two maps, the second one with a space after its goal. -/
def writtenOps : List TextOp :=
  [.persistExploration (mapRequest "find b " "b is a file") "u" .quorum "e2" 8,
    .persistExploration (mapRequest "find a" "a is a file") "u" .approved "e1" 7,
    .storeAnswer askedQuestion "c1" 6,
    .indexFile 1 [] "a.txt" "a",
    .createProject "p" "/p"]

/-- The first map is embedded again from the text it was embedded from. -/
theorem rederivation_trimmed :
    (textRun sampleIndexer rowScans writtenOps).1.lookup (.map, 1) =
        some (.map "find a" "a is a file") ∧
    ∀ text, (1, text) ∈ reconcileTexts rowScans (textRun sampleIndexer rowScans writtenOps).2 [1]
        .map ∨ (1, text) ∈ bootstrapTexts rowScans (textRun sampleIndexer rowScans writtenOps).2
        .map → text = "find a\na is a file" :=
  ⟨by decide +kernel, (rederivation (w := .map "find a" "a is a file") (by decide +kernel)
    (by decide +kernel) (by decide +kernel)).mpr (by decide)⟩

/-- The question loses its prefix, and the second map the space after its goal. -/
theorem rederivation_changed :
    ((textRun sampleIndexer rowScans writtenOps).1.lookup (.question, 1)).map Written.embedded =
        some "search_query: what is a?" ∧
      reconcileTexts rowScans (textRun sampleIndexer rowScans writtenOps).2 [1] .question =
        [(1, "what is a?")] ∧
      bootstrapTexts rowScans (textRun sampleIndexer rowScans writtenOps).2 .question =
        [(1, "what is a?")] ∧
      ((textRun sampleIndexer rowScans writtenOps).1.lookup (.map, 2)).map Written.embedded =
        some "find b \nb is a file" ∧
      reconcileTexts rowScans (textRun sampleIndexer rowScans writtenOps).2 [2] .map =
        [(2, "find b\nb is a file")] := by
  decide +kernel

end Arags
