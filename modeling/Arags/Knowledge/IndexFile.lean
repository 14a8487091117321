import Arags.Knowledge.Store
import Arags.Search.Hybrid

/-!
# Arags.Knowledge.IndexFile

`KnowledgeEngine::index_file`: the test for an unchanged file, the deletion of the old chunks, and
the chunk loop that writes each chunk as it cuts it.

* `indexFile`      — the code.
* `indexLoop_eq`   — the loop adds the segments, one after the other.
* `Reindexes`      — what a call may change, and what it must not.
* `index_file_exact` — when it keeps to that.
-/

namespace Arags.Knowledge

open Sql Autocommit Text

/-! ## Languages -/

/-- `Path::file_name`, unless the path ends in `..`. -/
def fileName (path : List Char) : Option (List Char) :=
  ((split ['/'] path).filter fun c => !c.isEmpty && c != ['.']).getLast?.filter
    (· != ['.', '.'])

/-- `Path::extension`: what follows the last dot, if something stands before it. -/
def extension (path : List Char) : Option (List Char) := do
  let name ← fileName path
  let ext := (name.reverse.takeWhile (· != '.')).reverse
  if ext.length + 1 < name.length then some ext else none

def languages : List (List String × String) :=
  [(["rs"], "rust"), (["py"], "python"), (["js"], "javascript"), (["ts"], "typescript"),
    (["tsx"], "typescriptreact"), (["jsx"], "javascriptreact"), (["go"], "go"), (["java"], "java"),
    (["c", "h", "hpp"], "c"), (["cpp", "cc", "cxx"], "cpp"), (["rb"], "ruby"),
    (["sh", "bash"], "shell"), (["sql"], "sql"), (["md"], "markdown"), (["json"], "json"),
    (["yaml", "yml"], "yaml"), (["toml"], "toml"), (["html"], "html"), (["css"], "css")]

def detectLanguage (path : String) : Option String :=
  (extension path.toList).bind fun ext =>
    (languages.find? fun l => l.1.contains (String.ofList ext)).map Prod.snd

/-- Four bytes for a token, and one token at least. -/
def estimateTokens (text : List Char) : Int :=
  max ((((utf8Bytes text).length + 3) / 4 : Nat) : Int) 1

/-! ## The code -/

/-- `sha256` is the digest of the `sha2` crate. -/
structure IndexEnv where
  sha256 : List UInt8 → List UInt8
  rules : EntityRules

inductive IndexError where
  | deletion
  | insertion
  | loop (e : LoopError)
  deriving DecidableEq

section Code

variable (env : IndexEnv) (bufferId : Int) (path : String)

def segmentRow (seg : Segment) : ChunkRow where
  bufferId := bufferId
  filePath := path
  offsetStart := seg.offsetStart
  offsetEnd := seg.offsetEnd
  lineStart := seg.lineStart
  lineEnd := seg.lineEnd
  hash := env.sha256 seg.bytes
  language := detectLanguage path
  chunkType := none
  tokenCount := some (estimateTokens seg.text)
  isActive := true

def segmentEntities (seg : Segment) : List String :=
  extractEntities env.rules (String.ofList seg.text) path

/-- The rounds of the loop, each with its inserts. -/
def indexLoop (bytes : List UInt8) (maxChunkBytes : Nat) (fuel offset lineStart : Nat)
    (db : Tables) : Tables × Except IndexError (List Int) :=
  if offset < bytes.length then
    match fuel with
    | 0 => (db, .error (.loop .unfinished))
    | fuel + 1 =>
      let stop := chunkEnd bytes maxChunkBytes offset
      if stop < offset then (db, .error (.loop .sliced))
      else
        let seg := segmentAt bytes offset stop lineStart
        let chunkId := db.chunks.seq + 1
        let out := run (chunkStatements chunkId (segmentRow env bufferId path seg) seg.text
          (segmentEntities env path seg)) db
        if out.2 then
          let rest := indexLoop bytes maxChunkBytes fuel stop (seg.lineEnd + 1) out.1
          (rest.1, rest.2.map (chunkId :: ·))
        else (out.1, .error .insertion)
  else (db, .ok [])

/-- The rows of the file, as `list_chunks` returns them. -/
def fileRows (db : Tables) : List (Int × ChunkRow) :=
  (listChunks db bufferId).filter fun x => x.2.filePath == path

def indexFile (fuel : Nat) (raw : List UInt8) (maxChunkBytes : Nat) (db : Tables) :
    Tables × Except IndexError (List Int) :=
  let bytes := utf8Bytes (lossyText raw)
  match fileRows bufferId path db with
  | [] => indexLoop env bufferId path bytes maxChunkBytes fuel 0 1 db
  | x :: rows =>
    if x.2.hash = env.sha256 bytes then (db, .ok ((x :: rows).map Prod.fst))
    else
      match deleteChunksForFile path db with
      | none => (db, .error .deletion)
      | some db => indexLoop env bufferId path bytes maxChunkBytes fuel 0 1 db

end Code

/-! ## What it should do -/

section Statement

variable (env : IndexEnv) (bufferId : Int) (path : String)

/-- The row of a segment, with its text. -/
def Holds (db : Tables) (x : Int × ChunkRow) (seg : Segment) : Prop :=
  x.2 = segmentRow env bufferId path seg ∧ (x.1, seg.text) ∈ db.chunkTexts

/-- The rows of the file are the chunks of this content, cut at some size. -/
def ChunksOf (db : Tables) (content : List Char) : Prop :=
  ∃ maxChunkBytes fuel segs, chunkLoop (utf8Bytes content) maxChunkBytes fuel 0 1 = .ok segs ∧
    List.Forall₂ (Holds env bufferId path db) (fileRows bufferId path db) segs

/-- The rows of other files and of other buffers are the same, with their texts and entities. -/
def SameElsewhere (db db' : Tables) : Prop :=
  ∀ i r, ¬ (r.bufferId = bufferId ∧ r.filePath = path) →
    ((i, r) ∈ db'.chunks.rows ↔ (i, r) ∈ db.chunks.rows) ∧
    ((i, r) ∈ db.chunks.rows → (∀ s, (i, s) ∈ db'.chunkTexts ↔ (i, s) ∈ db.chunkTexts) ∧
      ∀ e, (i, e) ∈ db'.chunkEntities ↔ (i, e) ∈ db.chunkEntities)

structure Reindexes (raw : List UInt8) (maxChunkBytes : Nat) (db : Tables) : Prop where
  exact : ∀ fuel ids, (indexFile env bufferId path fuel raw maxChunkBytes db).2 = .ok ids →
    ChunksOf env bufferId path (indexFile env bufferId path fuel raw maxChunkBytes db).1
      (lossyText raw)
  elsewhere : ∀ fuel ids, (indexFile env bufferId path fuel raw maxChunkBytes db).2 = .ok ids →
    SameElsewhere bufferId path db (indexFile env bufferId path fuel raw maxChunkBytes db).1
  unchanged : ChunksOf env bufferId path db (lossyText raw) → ∀ fuel,
    indexFile env bufferId path fuel raw maxChunkBytes db =
      (db, .ok ((fileRows bufferId path db).map Prod.fst))

/-- If the file has rows, the first has the hash of the whole file exactly when they are the chunks
of its content; and where the rows are deleted and written anew, no other buffer has the path. -/
def ReindexSafe (raw : List UInt8) (maxChunkBytes : Nat) (db : Tables) : Prop :=
  ∀ x ∈ (fileRows bufferId path db).head?,
    (x.2.hash = env.sha256 (utf8Bytes (lossyText raw)) ↔
      ChunksOf env bufferId path db (lossyText raw)) ∧
    (x.2.hash ≠ env.sha256 (utf8Bytes (lossyText raw)) → ¬ HeldFile db path →
      (∃ fuel segs, chunkLoop (utf8Bytes (lossyText raw)) maxChunkBytes fuel 0 1 = .ok segs) →
        ∀ i r, (i, r) ∈ db.chunks.rows → r.filePath = path → r.bufferId = bufferId)

end Statement

/-! ## The loop -/

section Loop

variable {env : IndexEnv} {bufferId : Int} {path : String}

def addSegment (env : IndexEnv) (bufferId : Int) (path : String) (db : Tables) (seg : Segment) :
    Tables :=
  addChunk (segmentRow env bufferId path seg) seg.text (segmentEntities env path seg) db

/-- What adding segments comes to. -/
structure Added (env : IndexEnv) (bufferId : Int) (path : String) (segs : List Segment)
    (db db' : Tables) : Prop where
  rows : ∃ new, db'.chunks.rows = db.chunks.rows ++ new ∧
    List.Forall₂ (Holds env bufferId path db') new segs ∧
    (new.map Prod.fst).Pairwise (· < ·) ∧ ∀ x ∈ new, db.chunks.seq < x.1
  texts : ∀ i s, (i, s) ∈ db.chunkTexts → (i, s) ∈ db'.chunkTexts
  oldTexts : ∀ i s, i ≤ db.chunks.seq → (i, s) ∈ db'.chunkTexts → (i, s) ∈ db.chunkTexts
  entities : ∀ i e, i ≤ db.chunks.seq → ((i, e) ∈ db'.chunkEntities ↔ (i, e) ∈ db.chunkEntities)

theorem addSegments_added (segs : List Segment) : ∀ db : Tables,
    Added env bufferId path segs db (segs.foldl (addSegment env bufferId path) db) := by
  induction segs with
  | nil =>
    intro db
    refine ⟨⟨[], (List.append_nil _).symm, .nil, .nil, fun x hx => (by cases hx)⟩,
      fun _ _ h => h, fun _ _ _ h => h, fun _ _ _ => Iff.rfl⟩
  | cons seg segs ih =>
    intro db
    obtain ⟨⟨new, hrows, hholds, hsorted, hlater⟩, htexts, hold, hentities⟩ :=
      ih (addSegment env bufferId path db seg)
    rw [List.foldl_cons]
    have hseq : (addSegment env bufferId path db seg).chunks.seq = db.chunks.seq + 1 := rfl
    refine ⟨⟨(db.chunks.seq + 1, segmentRow env bufferId path seg) :: new, ?_, ?_, ?_, ?_⟩,
      fun i s h => ?_, fun i s hi h => ?_, fun i e hi => ?_⟩
    · rw [hrows]
      exact List.append_assoc _ _ _
    · refine .cons ⟨rfl, htexts _ _ ?_⟩ hholds
      exact List.mem_append_right _ (List.mem_singleton_self _)
    · rw [List.map_cons, List.pairwise_cons]
      refine ⟨fun i hi => ?_, hsorted⟩
      obtain ⟨x, hx, rfl⟩ := List.mem_map.mp hi
      exact hseq ▸ hlater x hx
    · intro x hx
      rcases List.mem_cons.mp hx with rfl | hx
      · exact Int.lt_succ _
      · have := hlater x hx
        omega
    · exact htexts i s (List.mem_append_left _ h)
    · rcases List.mem_append.mp (hold i s (by omega) h) with h | h
      · exact h
      · obtain ⟨rfl, -⟩ := Prod.mk.inj (List.mem_singleton.mp h)
        omega
    · rw [hentities i e (by omega)]
      refine mem_addEntities.trans (or_iff_left ?_)
      rintro ⟨rfl, -⟩
      omega

/-- Where the buffer exists the loop adds the segments that are cut. -/
theorem indexLoop_eq {bytes : List UInt8} {maxChunkBytes : Nat} :
    ∀ {fuel offset lineStart : Nat} {segs : List Segment} {db : Tables}, Sound db →
      (db.buffers.get? bufferId).isSome = true →
      chunkLoop bytes maxChunkBytes fuel offset lineStart = .ok segs →
        ∃ ids, indexLoop env bufferId path bytes maxChunkBytes fuel offset lineStart db =
          (segs.foldl (addSegment env bufferId path) db, .ok ids) := by
  intro fuel
  induction fuel with
  | zero =>
    intro offset lineStart segs db _ _ h
    unfold chunkLoop at h
    split at h
    · cases h
    · rename_i hoffset
      cases h
      refine ⟨[], ?_⟩
      unfold indexLoop
      rw [if_neg hoffset]
      rfl
  | succ fuel ih =>
    intro offset lineStart segs db hdb hbuffer h
    by_cases hoffset : offset < bytes.length
    · obtain ⟨stop, rest, rfl, hle, rfl, hrest⟩ := chunkLoop_round hoffset h
      generalize hstop : chunkEnd bytes maxChunkBytes offset = stop at *
      generalize hseg : segmentAt bytes offset stop lineStart = seg at *
      obtain ⟨ids, hids⟩ := @ih _ _ _ (addSegment env bufferId path db seg)
        (addChunk_sound hdb hbuffer _ _) hbuffer hrest
      refine ⟨(db.chunks.seq + 1) :: ids, ?_⟩
      unfold indexLoop
      rw [if_pos hoffset]
      dsimp only
      rw [hstop, if_neg (Nat.not_lt.mpr hle), hseg, run_chunkStatements hdb hbuffer, if_pos rfl]
      change ((indexLoop env bufferId path bytes maxChunkBytes fuel stop (seg.lineEnd + 1)
        (addSegment env bufferId path db seg)).1, _) = _
      rw [← addSegment, hids]
      rfl
    · rw [chunkLoop_end (Nat.not_lt.mp hoffset)] at h
      cases h
      refine ⟨[], ?_⟩
      unfold indexLoop
      rw [if_neg hoffset]
      rfl

/-- When the loop returns, it has cut segments, and added them. -/
theorem indexLoop_ok {bytes : List UInt8} {maxChunkBytes : Nat} :
    ∀ {fuel offset lineStart : Nat} {db : Tables} {ids : List Int}, Sound db →
      (indexLoop env bufferId path bytes maxChunkBytes fuel offset lineStart db).2 = .ok ids →
        ∃ segs, chunkLoop bytes maxChunkBytes fuel offset lineStart = .ok segs ∧
          (indexLoop env bufferId path bytes maxChunkBytes fuel offset lineStart db).1 =
            segs.foldl (addSegment env bufferId path) db := by
  intro fuel
  induction fuel with
  | zero =>
    intro offset lineStart db ids _ h
    unfold indexLoop at h ⊢
    unfold chunkLoop
    split at h
    · cases h
    · rename_i hoffset
      rw [if_neg hoffset, if_neg hoffset]
      exact ⟨[], rfl, rfl⟩
  | succ fuel ih =>
    intro offset lineStart db ids hdb h
    unfold indexLoop at h ⊢
    unfold chunkLoop
    by_cases hoffset : offset < bytes.length
    · rw [if_pos hoffset] at h ⊢
      rw [if_pos hoffset]
      dsimp only at h ⊢
      generalize chunkEnd bytes maxChunkBytes offset = stop at *
      generalize segmentAt bytes offset stop lineStart = seg at *
      split at h
      · cases h
      · rename_i hle
        rw [if_neg hle, if_neg hle]
        cases hbuffer : (db.buffers.get? (segmentRow env bufferId path seg).bufferId).isSome with
        | false =>
          rw [run_chunkStatements_missing hbuffer] at h
          cases h
        | true =>
          rw [run_chunkStatements hdb hbuffer] at h ⊢
          rw [if_pos rfl] at h ⊢
          dsimp only at h ⊢
          cases hrest : (indexLoop env bufferId path bytes maxChunkBytes fuel stop
              (seg.lineEnd + 1) (addSegment env bufferId path db seg)).2 with
          | error e =>
            rw [← addSegment, hrest] at h
            cases h
          | ok ids' =>
            obtain ⟨segs, hsegs, hdb'⟩ := ih (addChunk_sound hdb hbuffer _ _) hrest
            refine ⟨seg :: segs, ?_, ?_⟩
            · rw [hsegs]
              rfl
            · rw [← addSegment, List.foldl_cons]
              exact hdb'
    · rw [if_neg hoffset] at h ⊢
      rw [if_neg hoffset]
      exact ⟨[], rfl, rfl⟩

/-- The constraints hold after every call. -/
theorem indexLoop_sound {bytes : List UInt8} {maxChunkBytes : Nat} :
    ∀ {fuel offset lineStart : Nat} {db : Tables}, Sound db →
      Sound (indexLoop env bufferId path bytes maxChunkBytes fuel offset lineStart db).1 := by
  intro fuel
  induction fuel with
  | zero =>
    intro offset lineStart db hdb
    unfold indexLoop
    split
    · exact hdb
    · exact hdb
  | succ fuel ih =>
    intro offset lineStart db hdb
    unfold indexLoop
    split
    · dsimp only
      generalize chunkEnd bytes maxChunkBytes offset = stop
      generalize segmentAt bytes offset stop lineStart = seg
      split
      · exact hdb
      · cases hbuffer : (db.buffers.get? (segmentRow env bufferId path seg).bufferId).isSome with
        | false =>
          rw [run_chunkStatements_missing hbuffer]
          exact hdb
        | true =>
          rw [run_chunkStatements hdb hbuffer]
          exact ih (addChunk_sound hdb hbuffer _ _)
    · exact hdb

end Loop

/-! ## The rows of a file -/

section Rows

variable {env : IndexEnv} {bufferId : Int} {path : String} {db db' : Tables}

theorem fileRows_perm (db : Tables) : (fileRows bufferId path db).Perm
    (db.chunks.rows.filter fun x => x.2.bufferId == bufferId && x.2.filePath == path) := by
  rw [← List.filter_filter, fileRows, listChunks]
  refine ((List.perm_insertionSort _ _).filter _).trans ?_
  rw [Table.select, List.filter_comm]

theorem mem_fileRows {x : Int × ChunkRow} : x ∈ fileRows bufferId path db ↔
    x ∈ db.chunks.rows ∧ x.2.bufferId = bufferId ∧ x.2.filePath = path := by
  rw [(fileRows_perm db).mem_iff, List.mem_filter, Bool.and_eq_true, beq_iff_eq, beq_iff_eq]

theorem fileRows_sorted (db : Tables) :
    (fileRows bufferId path db).Pairwise fun x y => x.1 ≤ y.1 :=
  (List.pairwise_insertionSort (fun x y : Int × ChunkRow => x.1 ≤ y.1) _).filter _

theorem exists_of_forall₂ {α β : Type} {R : α → β → Prop} {l : List α} {l' : List β}
    (h : List.Forall₂ R l l') {a : α} (ha : a ∈ l) : ∃ b, R a b := by
  induction h with
  | nil => cases ha
  | cons hab _ ih =>
    rcases List.mem_cons.mp ha with rfl | ha
    · exact ⟨_, hab⟩
    · exact ih ha

/-- Added rows are rows of the file. -/
theorem Holds.file {x : Int × ChunkRow} {seg : Segment} (h : Holds env bufferId path db x seg) :
    x.2.bufferId = bufferId ∧ x.2.filePath = path := by
  rw [h.1]
  exact ⟨rfl, rfl⟩

/-- Of a file that had no rows, the rows are those that were added. -/
theorem Added.file {segs : List Segment} (h : Added env bufferId path segs db db')
    (hnone : fileRows bufferId path db = []) :
    List.Forall₂ (Holds env bufferId path db') (fileRows bufferId path db') segs := by
  obtain ⟨new, hrows, hholds, hsorted, -⟩ := h.rows
  have hnew : new.filter (fun x => x.2.bufferId == bufferId && x.2.filePath == path) = new := by
    refine List.filter_eq_self.mpr fun x hx => ?_
    obtain ⟨seg, hseg⟩ := exists_of_forall₂ hholds hx
    obtain ⟨hbuffer, hpath⟩ := hseg.file
    simp [hbuffer, hpath]
  have hold := @fileRows_perm bufferId path db
  rw [hnone, List.nil_perm] at hold
  have hperm := @fileRows_perm bufferId path db'
  rw [hrows, List.filter_append, hold, List.nil_append, hnew] at hperm
  have heq : fileRows bufferId path db' = new := by
    refine hperm.eq_of_pairwise ?_ (fileRows_sorted db')
      ((List.pairwise_map.mp hsorted).imp Int.le_of_lt)
    intro x y hx hy hxy hyx
    have hid : x.1 = y.1 := Int.le_antisymm hxy hyx
    refine Prod.ext hid (Table.eq_of_mem (mem_fileRows.mp hx).1 ?_)
    rw [hid]
    exact (mem_fileRows.mp (hperm.mem_iff.mpr hy)).1
  rw [heq]
  exact hholds

theorem Added.elsewhere {segs : List Segment} (h : Added env bufferId path segs db db') :
    SameElsewhere bufferId path db db' := by
  obtain ⟨new, hrows, hholds, -, -⟩ := h.rows
  intro i r hother
  refine ⟨?_, fun hr => ?_⟩
  · rw [hrows, List.mem_append, or_iff_left]
    intro hnew
    obtain ⟨seg, hseg⟩ := exists_of_forall₂ hholds hnew
    exact hother hseg.file
  · have hle := db.chunks.le_seq _ hr
    exact ⟨fun s => ⟨h.oldTexts i s hle, h.texts i s⟩, fun e => h.entities i e hle⟩

theorem SameElsewhere.trans {db'' : Tables} (h : SameElsewhere bufferId path db db')
    (h' : SameElsewhere bufferId path db' db'') : SameElsewhere bufferId path db db'' := by
  intro i r hother
  obtain ⟨hrow, hkept⟩ := h i r hother
  obtain ⟨hrow', hkept'⟩ := h' i r hother
  refine ⟨hrow'.trans hrow, fun hr => ?_⟩
  obtain ⟨htext, hentity⟩ := hkept hr
  obtain ⟨htext', hentity'⟩ := hkept' (hrow.mpr hr)
  exact ⟨fun s => (htext' s).trans (htext s), fun e => (hentity' e).trans (hentity e)⟩

/-! ### A deletion -/

theorem mem_withoutFile {i : Int} {r : ChunkRow} :
    (i, r) ∈ (withoutFile path db).chunks.rows ↔ (i, r) ∈ db.chunks.rows ∧ r.filePath ≠ path := by
  refine SeqTable.mem_delete.trans (and_congr_right fun _ => ?_)
  rw [beq_eq_false_iff_ne]

theorem fileRows_withoutFile : fileRows bufferId path (withoutFile path db) = [] := by
  rw [List.eq_nil_iff_forall_not_mem]
  intro x hx
  obtain ⟨hx, -, hpath⟩ := mem_fileRows.mp hx
  exact (mem_withoutFile.mp hx).2 hpath

theorem deletedIds {i : Int} :
    ((db.chunks.select fun _ r => r.filePath == path).map Prod.fst).contains i = true ↔
      ∃ r, (i, r) ∈ db.chunks.rows ∧ r.filePath = path := by
  rw [List.contains_iff_mem, List.mem_map]
  constructor
  · rintro ⟨⟨j, r⟩, hr, rfl⟩
    obtain ⟨hr, hpath⟩ := Table.mem_select.mp hr
    exact ⟨r, hr, eq_of_beq hpath⟩
  · rintro ⟨r, hr, hpath⟩
    exact ⟨(i, r), Table.mem_select.mpr ⟨hr, by simp [hpath]⟩, rfl⟩

theorem withoutFile_entity {i : Int} {e : String} :
    (i, e) ∈ (withoutFile path db).chunkEntities ↔
      (i, e) ∈ db.chunkEntities ∧ ¬ ∃ r, (i, r) ∈ db.chunks.rows ∧ r.filePath = path := by
  rw [← deletedIds, Bool.not_eq_true]
  refine List.mem_filter.trans (and_congr_right fun _ => ?_)
  rw [Bool.not_eq_true']

theorem withoutFile_elsewhere
    (hown : ∀ i r, (i, r) ∈ db.chunks.rows → r.filePath = path → r.bufferId = bufferId) :
    SameElsewhere bufferId path db (withoutFile path db) := by
  intro i r hother
  refine ⟨?_, fun hr => ⟨fun s => Iff.rfl, fun e => ?_⟩⟩
  · rw [mem_withoutFile]
    exact and_iff_left_of_imp fun hr hpath => hother ⟨hown i r hr hpath, hpath⟩
  · rw [withoutFile_entity]
    refine and_iff_left_of_imp fun _ ⟨r', hr', hpath⟩ => ?_
    rw [Table.eq_of_mem hr' hr] at hpath
    exact hother ⟨hown i r hr hpath, hpath⟩

theorem withoutFile_sound (hdb : Sound db) (hheld : ¬ HeldFile db path) :
    Sound (withoutFile path db) := by
  have hget {i : Int} (h : (db.chunks.get? i).isSome = true)
      (hkept : ¬ ∃ r, (i, r) ∈ db.chunks.rows ∧ r.filePath = path) :
      ((withoutFile path db).chunks.get? i).isSome = true := by
    obtain ⟨r, hr⟩ := Option.isSome_iff_exists.mp h
    have hr := Table.get?_eq_some.mp hr
    rw [Table.get?_eq_some.mpr (mem_withoutFile.mpr ⟨hr, fun hpath => hkept ⟨r, hr, hpath⟩⟩)]
    rfl
  refine ⟨fun i r h => hdb.buffer i r (mem_withoutFile.mp h).1, fun i s h => ?_, fun i e h => ?_⟩
  · refine hget (hdb.text i s h) ?_
    rintro ⟨r, hr, hpath⟩
    exact hheld ⟨i, r, hr, hpath, .inl ⟨s, h⟩⟩
  · obtain ⟨h, hkept⟩ := withoutFile_entity.mp h
    exact hget (hdb.entity i e h) hkept

end Rows

theorem indexFile_sound (env : IndexEnv) (bufferId : Int) (path : String) (fuel : Nat)
    (raw : List UInt8) (maxChunkBytes : Nat) {db : Tables} (hdb : Sound db) :
    Sound (indexFile env bufferId path fuel raw maxChunkBytes db).1 := by
  unfold indexFile
  dsimp only
  split
  · exact indexLoop_sound hdb
  · split
    · exact hdb
    · by_cases hheld : HeldFile db path
      · rw [deleteChunksForFile_held hheld]
        exact hdb
      · rw [deleteChunksForFile_free hheld]
        exact indexLoop_sound (withoutFile_sound hdb hheld)

/-! ## When a call keeps to it -/

section Exact

variable {env : IndexEnv} {bufferId : Int} {path : String} {db : Tables}

/-- A loop on a file without rows writes its chunks and nothing else. -/
theorem indexLoop_fresh {content : List Char} {maxChunkBytes fuel : Nat} {ids : List Int}
    (hdb : Sound db) (hnone : fileRows bufferId path db = [])
    (h : (indexLoop env bufferId path (utf8Bytes content) maxChunkBytes fuel 0 1 db).2 = .ok ids) :
    ChunksOf env bufferId path
        (indexLoop env bufferId path (utf8Bytes content) maxChunkBytes fuel 0 1 db).1 content ∧
      SameElsewhere bufferId path db
        (indexLoop env bufferId path (utf8Bytes content) maxChunkBytes fuel 0 1 db).1 := by
  obtain ⟨segs, hsegs, hdb'⟩ := indexLoop_ok hdb h
  have hadded := @addSegments_added env bufferId path segs db
  rw [hdb']
  exact ⟨⟨maxChunkBytes, fuel, segs, hsegs, hadded.file hnone⟩, hadded.elsewhere⟩

/-- Only an empty file has no chunk. -/
theorem chunksOf_none {content : List Char} (hnone : fileRows bufferId path db = [])
    (h : ChunksOf env bufferId path db content) : utf8Bytes content = [] := by
  obtain ⟨maxChunkBytes, fuel, segs, hsegs, hholds⟩ := h
  rw [hnone, List.forall₂_nil_left_iff] at hholds
  subst hholds
  by_contra hne
  have hpos := List.length_pos_iff.mpr hne
  cases fuel with
  | zero =>
    unfold chunkLoop at hsegs
    rw [if_pos hpos] at hsegs
    cases hsegs
  | succ fuel =>
    obtain ⟨stop, rest, -, -, hcons, -⟩ := chunkLoop_round hpos hsegs
    cases hcons

/-- The rows of an indexed file are held by their texts. -/
theorem chunksOf_held {content : List Char} {x : Int × ChunkRow}
    (hx : x ∈ fileRows bufferId path db) (h : ChunksOf env bufferId path db content) :
    HeldFile db path := by
  obtain ⟨_, _, segs, -, hholds⟩ := h
  obtain ⟨seg, -, htext⟩ := exists_of_forall₂ hholds hx
  obtain ⟨hrow, -, hpath⟩ := mem_fileRows.mp hx
  exact ⟨x.1, x.2, hrow, hpath, .inl ⟨_, htext⟩⟩

section Cases

variable {raw : List UInt8} {maxChunkBytes : Nat} {x : Int × ChunkRow}

/-- A file without rows is indexed anew. -/
theorem reindexes_new (hdb : Sound db) (hrows : fileRows bufferId path db = []) :
    Reindexes env bufferId path raw maxChunkBytes db := by
  have hcode (fuel : Nat) : indexFile env bufferId path fuel raw maxChunkBytes db =
      indexLoop env bufferId path (utf8Bytes (lossyText raw)) maxChunkBytes fuel 0 1 db := by
    rw [indexFile, hrows]
  refine ⟨fun fuel ids h => ?_, fun fuel ids h => ?_, fun h fuel => ?_⟩
  · rw [hcode] at h ⊢
    exact (indexLoop_fresh hdb hrows h).1
  · rw [hcode] at h ⊢
    exact (indexLoop_fresh hdb hrows h).2
  · rw [hcode, chunksOf_none hrows h, hrows]
    unfold indexLoop
    rfl

/-- With the hash of the first row the rows are kept. -/
theorem reindexes_kept (hhead : (fileRows bufferId path db).head? = some x)
    (hhash : x.2.hash = env.sha256 (utf8Bytes (lossyText raw))) :
    Reindexes env bufferId path raw maxChunkBytes db ↔
      ChunksOf env bufferId path db (lossyText raw) := by
  have hcode (fuel : Nat) : indexFile env bufferId path fuel raw maxChunkBytes db =
      (db, .ok ((fileRows bufferId path db).map Prod.fst)) := by
    obtain ⟨rows, hrows⟩ := List.head?_eq_some_iff.mp hhead
    rw [indexFile, hrows]
    exact if_pos hhash
  constructor
  · intro h
    have hexact := h.exact 0 _ (by rw [hcode])
    rwa [hcode] at hexact
  · intro hchunks
    refine ⟨fun fuel ids _ => ?_, fun fuel ids _ => ?_, fun _ fuel => hcode fuel⟩
    · rw [hcode]
      exact hchunks
    · rw [hcode]
      exact fun i r _ => ⟨Iff.rfl, fun _ => ⟨fun _ => Iff.rfl, fun _ => Iff.rfl⟩⟩

/-- With another hash they are deleted first. -/
theorem indexFile_changed (hhead : (fileRows bufferId path db).head? = some x)
    (hhash : x.2.hash ≠ env.sha256 (utf8Bytes (lossyText raw))) (fuel : Nat) :
    indexFile env bufferId path fuel raw maxChunkBytes db =
      match deleteChunksForFile path db with
      | none => (db, .error .deletion)
      | some db' =>
        indexLoop env bufferId path (utf8Bytes (lossyText raw)) maxChunkBytes fuel 0 1 db' := by
  obtain ⟨rows, hrows⟩ := List.head?_eq_some_iff.mp hhead
  rw [indexFile, hrows]
  exact if_neg hhash

/-- A deletion that fails is right unless the rows are the chunks of the content. -/
theorem reindexes_held (hhead : (fileRows bufferId path db).head? = some x)
    (hhash : x.2.hash ≠ env.sha256 (utf8Bytes (lossyText raw))) (hheld : HeldFile db path) :
    Reindexes env bufferId path raw maxChunkBytes db ↔
      ¬ ChunksOf env bufferId path db (lossyText raw) := by
  have herror (fuel : Nat) : indexFile env bufferId path fuel raw maxChunkBytes db =
      (db, .error .deletion) := by
    rw [indexFile_changed hhead hhash, deleteChunksForFile_held hheld]
  constructor
  · intro h hchunks
    have hsame := h.unchanged hchunks 0
    rw [herror] at hsame
    cases hsame
  · intro hno
    refine ⟨fun fuel ids hok => ?_, fun fuel ids hok => ?_, fun hchunks => absurd hchunks hno⟩
    · rw [herror] at hok
      cases hok
    · rw [herror] at hok
      cases hok

/-- One that succeeds is right when no row of another buffer goes along, or the loop never ends. -/
theorem reindexes_free (hdb : Sound db) (hhead : (fileRows bufferId path db).head? = some x)
    (hhash : x.2.hash ≠ env.sha256 (utf8Bytes (lossyText raw))) (hheld : ¬ HeldFile db path) :
    Reindexes env bufferId path raw maxChunkBytes db ↔
      ((∃ fuel segs, chunkLoop (utf8Bytes (lossyText raw)) maxChunkBytes fuel 0 1 = .ok segs) →
        ∀ i r, (i, r) ∈ db.chunks.rows → r.filePath = path → r.bufferId = bufferId) := by
  have hfree (fuel : Nat) : indexFile env bufferId path fuel raw maxChunkBytes db =
      indexLoop env bufferId path (utf8Bytes (lossyText raw)) maxChunkBytes fuel 0 1
        (withoutFile path db) := by
    rw [indexFile_changed hhead hhash, deleteChunksForFile_free hheld]
  have hsound := withoutFile_sound hdb hheld
  constructor
  · rintro h ⟨fuel, segs, hsegs⟩ i r hr hpath
    -- The loop ends, and the row of another buffer is not there any more.
    obtain ⟨hrow, hown, -⟩ := mem_fileRows.mp (List.mem_of_head? hhead)
    have hbuffer := hdb.buffer _ _ hrow
    rw [hown] at hbuffer
    obtain ⟨ids, hids⟩ := @indexLoop_eq env bufferId path _ _ _ _ _ _ (withoutFile path db)
      hsound hbuffer hsegs
    by_contra hother
    have hsame := h.elsewhere fuel ids (by rw [hfree, hids])
    rw [hfree, hids] at hsame
    have hadded := (@addSegments_added env bufferId path segs (withoutFile path db)).elsewhere
    have hout : ¬ (r.bufferId = bufferId ∧ r.filePath = path) := fun h => hother h.1
    have hgone := (hadded i r hout).1.mp ((hsame i r hout).1.mpr hr)
    exact (mem_withoutFile.mp hgone).2 hpath
  · intro h
    refine ⟨fun fuel ids hok => ?_, fun fuel ids hok => ?_, fun hchunks => ?_⟩
    · rw [hfree] at hok ⊢
      exact (indexLoop_fresh hsound fileRows_withoutFile hok).1
    · rw [hfree] at hok ⊢
      obtain ⟨segs, hsegs, -⟩ := indexLoop_ok hsound hok
      exact (withoutFile_elsewhere (h ⟨_, _, hsegs⟩)).trans
        (indexLoop_fresh hsound fileRows_withoutFile hok).2
    · exact absurd (chunksOf_held (List.mem_of_head? hhead) hchunks) hheld

end Cases

end Exact

/-- A call re-indexes the file and nothing else exactly when the first stored hash tells whether
the file has changed, and the rows that are deleted are all of this buffer. -/
theorem index_file_exact (env : IndexEnv) (db : KnowledgeDb) (bufferId : Int) (path : String)
    (raw : List UInt8) (maxChunkBytes : Nat) :
    Reindexes env bufferId path raw maxChunkBytes db.tables ↔
      ReindexSafe env bufferId path raw maxChunkBytes db.tables := by
  obtain ⟨db, hdb⟩ := db
  dsimp only
  unfold ReindexSafe
  cases hhead : (fileRows bufferId path db).head? with
  | none =>
    have hnone : fileRows bufferId path db = [] := List.head?_eq_none_iff.mp hhead
    refine iff_of_true (reindexes_new hdb hnone) fun x hx => ?_
    cases hx
  | some x =>
    simp only [Option.mem_def, Option.some.injEq, forall_eq']
    by_cases hhash : x.2.hash = env.sha256 (utf8Bytes (lossyText raw))
    · rw [reindexes_kept hhead hhash]
      exact ⟨fun hchunks => ⟨iff_of_true hhash hchunks, fun hno => absurd hhash hno⟩,
        fun h => h.1.mp hhash⟩
    · by_cases hheld : HeldFile db path
      · rw [reindexes_held hhead hhash hheld]
        exact ⟨fun hno => ⟨iff_of_false hhash hno, fun _ hfree => absurd hheld hfree⟩,
          fun h hchunks => hhash (h.1.mpr hchunks)⟩
      · rw [reindexes_free hdb hhead hhash hheld]
        have hno : ¬ ChunksOf env bufferId path db (lossyText raw) :=
          fun hchunks => hheld (chunksOf_held (List.mem_of_head? hhead) hchunks)
        exact ⟨fun h => ⟨iff_of_false hhash hno, fun _ _ => h⟩, fun h => h.2 hhash hheld⟩

/-! Two chunks, `a` with its newline and `b`, indexed twice. -/

/-- Their digests, and that of the file. -/
def digestPairs : List (List UInt8 × List UInt8) :=
  [([97, 10, 98],
    [126, 24, 247, 55, 49, 27, 45, 195, 178, 242, 105, 221, 120, 57, 107, 3,
      81, 241, 79, 182, 110, 250, 135, 159, 118, 140, 178, 49, 129, 136, 60, 120]),
  ([97, 10],
    [135, 66, 143, 197, 34, 128, 61, 49, 6, 94, 123, 206, 60, 240, 63, 228,
      117, 9, 102, 49, 229, 224, 123, 189, 122, 15, 222, 96, 196, 207, 37, 199]),
  ([98],
    [62, 35, 232, 22, 0, 57, 89, 74, 51, 137, 79, 101, 100, 225, 177, 52,
      139, 189, 122, 0, 136, 212, 44, 74, 203, 115, 238, 174, 213, 156, 0, 157])]

def sampleIndexEnv : IndexEnv where
  sha256 bytes := (digestPairs.lookup bytes).getD bytes
  rules := ⟨fun _ => [], fun _ => [], fun _ => [], id, fun _ => some "a"⟩

def sampleProject : Tables where
  buffers := SeqTable.empty.insert ⟨"p", 0, 0⟩
  chunks := SeqTable.empty
  chunkTexts := []
  chunkEntities := []
  entitiesFts := []
  chunksFts := []
  tasks := []
  findings := []
  rlmEdges := []

def sampleIndexed : Tables × Except IndexError (List Int) :=
  indexFile sampleIndexEnv 1 "a.md" 2 [97, 10, 98] 2 sampleProject

theorem index_file_exact_not :
    sampleIndexed.2 = .ok [1, 2] ∧
    (indexFile sampleIndexEnv 1 "a.md" 2 [97, 10, 98] 2 sampleIndexed.1).2 = .error .deletion ∧
    ¬ ∀ (env : IndexEnv) (db : KnowledgeDb) (bufferId : Int) (path : String) (raw : List UInt8)
      (maxChunkBytes : Nat), Reindexes env bufferId path raw maxChunkBytes db.tables := by
  have hfirst : sampleIndexed.2 = .ok [1, 2] := by rfl
  have hagain : (indexFile sampleIndexEnv 1 "a.md" 2 [97, 10, 98] 2 sampleIndexed.1).2 =
      .error .deletion := by rfl
  refine ⟨hfirst, hagain, fun h => ?_⟩
  have hempty : Sound sampleProject :=
    ⟨fun _ _ h => (by cases h), fun _ _ h => (by cases h), fun _ _ h => (by cases h)⟩
  have hwritten := (h sampleIndexEnv ⟨sampleProject, hempty⟩ 1 "a.md" [97, 10, 98] 2).exact 2
    [1, 2] hfirst
  have hsame := (h sampleIndexEnv ⟨sampleIndexed.1, indexFile_sound _ _ _ _ _ _ hempty⟩ 1 "a.md"
    [97, 10, 98] 2).unchanged hwritten 2
  rw [hsame] at hagain
  cases hagain

end Arags.Knowledge
