import Arags.Index.Digests
import Arags.Index.Reindex
import Arags.Qa.Cache

/-!
# Arags.Qa.Staleness

What the staleness hook of the answer cache does after any history of index streams.

* `isStale_invalidate` — a row of the buffer becomes stale when the hook misses one of its hashes.
* `not_mem_chunkHashesForBuffer` — it misses every hash: it compares hexadecimal forms with the
  decoded bytes.
* `qa_staleness` — when that is right.
-/

namespace Arags

open Sql

def isStale (t : Table QaCacheRow) (id : Int) : Bool := (t.get? id).any QaCacheRow.stale

/-- The hexadecimal hashes of the active chunks of a buffer. -/
def activeHashes (chunks : SeqTable Chunk) (bufferId : Int) : List String :=
  (chunks.select fun _ r => r.bufferId == bufferId && r.isActive).map fun x => hexEncode x.2.hash

/-! ## The hook -/

section Hook

variable {t : Table QaCacheRow} {now : Int}

theorem get?_markQaStale (i : Int) (by_ reason : String) (id : Int) :
    (markQaStale t i by_ reason now).get? id =
      (t.get? id).map fun r => if id == i && !r.stale then r.markStale by_ reason now else r :=
  Table.get?_update ..

theorem isStale_markQaStale (i : Int) (by_ reason : String) (id : Int) :
    isStale (markQaStale t i by_ reason now) id =
      (isStale t id || (id == i && (t.get? id).isSome)) := by
  unfold isStale
  rw [get?_markQaStale]
  cases t.get? id with
  | none => simp
  | some r =>
    cases hs : r.stale <;> by_cases hi : id = i <;> simp [hs, hi, QaCacheRow.markStale]

theorem isSome_markQaStale (i : Int) (by_ reason : String) (id : Int) :
    ((markQaStale t i by_ reason now).get? id).isSome = (t.get? id).isSome := by
  rw [get?_markQaStale, Option.isSome_map]

/-- The marks of a list of rows, in any order. -/
theorem isStale_foldl (missing : List String → Bool) (rows : List (Int × List String)) (id : Int) :
    isStale (rows.foldl (fun t x => if missing x.2 then
      markQaStale t x.1 "system" "chunk changed" now else t) t) id =
        (isStale t id || ((t.get? id).isSome && rows.any fun x => id == x.1 && missing x.2)) := by
  induction rows generalizing t with
  | nil => simp
  | cons x rows ih =>
    rw [List.foldl_cons, List.any_cons]
    cases hm : missing x.2 with
    | false =>
      simp only [Bool.false_eq_true, if_false, ih, Bool.and_false, Bool.false_or]
    | true =>
      simp only [if_true, ih, isStale_markQaStale, isSome_markQaStale, Bool.and_true]
      cases isStale t id <;> cases (t.get? id).isSome <;> cases (id == x.1) <;> simp

theorem isStale_invalidate {scan : ScanOrder QaCacheRow} {chunks : SeqTable Chunk} {b id : Int}
    {row : QaCacheRow} (hrow : t.get? id = some row) (hb : row.bufferId = some b) :
    isStale (invalidateStaleCacheForBuffer scan chunks t b now) id = true ↔
      row.stale = true ∨ (chunkHashesForBuffer chunks b ≠ [] ∧
        ∃ h ∈ row.sourceHashes, h ∉ chunkHashesForBuffer chunks b) := by
  have hstale : isStale t id = row.stale := by
    unfold isStale
    rw [hrow, Option.any_some]
  unfold invalidateStaleCacheForBuffer
  dsimp only
  by_cases hc : chunkHashesForBuffer chunks b = []
  · rw [if_pos (by rw [hc]; rfl), hstale]
    simp [hc]
  · rw [if_neg (by simpa using hc), isStale_foldl fun hs =>
      hs.any fun h => !(chunkHashesForBuffer chunks b).contains h]
    have hlisted : ((listQaHashesForBuffer scan t b).any fun x => id == x.1 &&
        x.2.any fun h => !(chunkHashesForBuffer chunks b).contains h) = true ↔
          ∃ h ∈ row.sourceHashes, h ∉ chunkHashesForBuffer chunks b := by
      simp only [listQaHashesForBuffer, List.any_map, List.any_eq_true, Function.comp_apply,
        Bool.and_eq_true, beq_iff_eq, Bool.not_eq_true', List.contains_eq_mem,
        decide_eq_false_iff_not]
      constructor
      · rintro ⟨⟨i, r⟩, hm, rfl, h⟩
        have hin := (Table.mem_select.mp (scan.mem_order.mp hm)).1
        rw [Table.get?_eq_some.mpr hin] at hrow
        exact Option.some.inj hrow ▸ h
      · intro h
        refine ⟨(id, row), scan.mem_order.mpr (Table.mem_select.mpr ?_), rfl, h⟩
        exact ⟨Table.get?_eq_some.mp hrow, by simp [hb]⟩
    rw [hstale, hrow, Bool.or_eq_true, Option.isSome_some, Bool.true_and, hlisted]
    simp [hc]

end Hook

/-! ## The hashes it compares -/

/-- A decoded digest is too short to be a hexadecimal one. -/
theorem not_mem_chunkHashesForBuffer {chunks : SeqTable Chunk} {b : Int} {hash : List UInt8}
    (h : Hashed (fun d => d.length = 32) chunks) (hl : hash.length = 32) :
    hexEncode hash ∉ chunkHashesForBuffer chunks b := by
  intro hm
  obtain ⟨⟨i, r⟩, hx, he⟩ := List.mem_map.mp hm
  have hr : r.hash.length = 32 := h (i, r) (Table.mem_select.mp hx).1
  have hlossy := Text.fromUtf8Lossy_length r.hash
  rw [he, hexEncode_length] at hlossy
  omega

/-- After any history of streams the hook marks an answer exactly as it should when the answer
was stale, cites nothing, or cites a hash that no active chunk has. -/
theorem qa_staleness {ix : Indexer} (hdigest : ∀ text, (ix.sha256 text).length = 32)
    (scan : ScanOrder QaCacheRow) (hist : List (List IndexMsg)) {t : Table QaCacheRow}
    {b id now : Int} {row : QaCacheRow} (hrow : t.get? id = some row) (hb : row.bufferId = some b)
    (hsource : ∀ h ∈ row.sourceHashes, ∃ x ∈ (indexHistory ix hist).chunks.rows,
      x.2.bufferId = b ∧ h = hexEncode x.2.hash) :
    (isStale (invalidateStaleCacheForBuffer scan (indexHistory ix hist).chunks t b now) id = true ↔
        row.stale = true ∨
          ∃ h ∈ row.sourceHashes, h ∉ activeHashes (indexHistory ix hist).chunks b) ↔
      row.stale = true ∨ row.sourceHashes = [] ∨
        ∃ h ∈ row.sourceHashes, h ∉ activeHashes (indexHistory ix hist).chunks b := by
  have hhashed : Hashed (fun d => d.length = 32) (indexHistory ix hist).chunks :=
    indexHistory_hashed hdigest hist
  generalize (indexHistory ix hist).chunks = chunks at *
  rw [isStale_invalidate hrow hb]
  have hmissed : (chunkHashesForBuffer chunks b ≠ [] ∧
      ∃ h ∈ row.sourceHashes, h ∉ chunkHashesForBuffer chunks b) ↔ row.sourceHashes ≠ [] := by
    constructor
    · rintro ⟨-, h, hm, -⟩
      exact List.ne_nil_of_mem hm
    · intro hne
      obtain ⟨h, hm⟩ := List.exists_mem_of_ne_nil _ hne
      obtain ⟨x, hx, hxb, rfl⟩ := hsource h hm
      refine ⟨?_, _, hm, not_mem_chunkHashesForBuffer hhashed (hhashed x hx)⟩
      exact List.ne_nil_of_mem (List.mem_map_of_mem (Table.mem_select.mpr ⟨hx, by simp [hxb]⟩))
  rw [hmissed]
  by_cases hs : row.stale = true
  · simp [hs]
  · by_cases hn : row.sourceHashes = []
    · simp [hn]
    · simp [hs, hn]

/-! ## An unchanged file -/

/-- Digests of 32 bytes for all texts. -/
def sampleDigest (text : String) : List UInt8 :=
  if text = "a" ∨ text = "b" then sampleSha256 text else List.replicate 32 0

def digestIndexer : Indexer := { sampleIndexer with sha256 := sampleDigest }

/-- One file, and the answer that was digested from its chunk. -/
def answeredFile : List IndexMsg := [.init "p" "/p", .file "a.txt" (some "a")]

def storedAnswer : StoreAnswerInput where
  bufferId := some 1
  project := "p"
  questionText := "what is a?"
  questionHash := "q1"
  answerText := "a file"
  sourceChunkIds := ["1"]
  sourceHashes := [hashText sampleDigest "a"]

def oneAnswer : Table QaCacheRow := (storeAnswer .rowid Table.empty storedAnswer "c1" 5).1

theorem sampleDigest_length (text : String) : (sampleDigest text).length = 32 := by
  unfold sampleDigest
  split
  · rename_i h
    rcases h with rfl | rfl <;> rfl
  · exact List.length_replicate

/-- A second stream that changes the file: the answer is stale, as it should be. -/
theorem qa_staleness_changed :
    isStale (invalidateStaleCacheForBuffer .rowid (indexHistory digestIndexer
        [[.init "p" "/p", .file "a.txt" (some "b")], answeredFile]).chunks oneAnswer 1 9) 1 = true ↔
      (storedAnswer.row "c1" 1 5).stale = true ∨ ∃ h ∈ (storedAnswer.row "c1" 1 5).sourceHashes,
        h ∉ activeHashes (indexHistory digestIndexer
          [[.init "p" "/p", .file "a.txt" (some "b")], answeredFile]).chunks 1 :=
  (qa_staleness sampleDigest_length .rowid _ (by decide) rfl (by decide +kernel)).mpr
    (by decide +kernel)

/-- The same file again: its chunk is active and unchanged, and the answer becomes stale. -/
theorem qa_staleness_unchanged :
    (storedAnswer.row "c1" 1 5).sourceHashes =
      activeHashes (indexHistory digestIndexer [answeredFile, answeredFile]).chunks 1 ∧
    isStale oneAnswer 1 = false ∧
    isStale (invalidateStaleCacheForBuffer .rowid
      (indexHistory digestIndexer [answeredFile, answeredFile]).chunks oneAnswer 1 9) 1 = true := by
  decide +kernel

end Arags
