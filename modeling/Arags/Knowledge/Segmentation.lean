import Arags.Lib.Utf8
import Mathlib.Tactic.Linarith

/-!
# Arags.Knowledge.Segmentation

The chunk loop of `KnowledgeEngine::index_file`, on the bytes of a file.

* `findLineBoundary`, `chunkLoop` — the code.
* `chunkLoop_spec`  — what a run that ends has cut, and the line numbers it has carried.
* `chunkLoop_ends`  — the loop ends when a chunk is longer than the look back for a newline.
* `segments_exact`  — the segmentation is right for files of one chunk.
-/

namespace Arags.Knowledge

open Text

/-! ## The code -/

/-- The newline of least distance before `near`, at most a hundred bytes back. -/
def findLineBoundary (bytes : List UInt8) (near : Nat) : Nat :=
  (((List.range' (near - 100) (near - (near - 100))).reverse.find?
    fun i => bytes[i]? == some 10).map (· + 1)).getD near

structure Segment where
  offsetStart : Nat
  offsetEnd : Nat
  lineStart : Nat
  lineEnd : Nat
  /-- The bytes that are hashed. -/
  bytes : List UInt8
  text : List Char
  deriving DecidableEq

inductive LoopError where
  /-- A slice whose end lies before its start. -/
  | sliced
  /-- The fuel is used up. -/
  | unfinished
  deriving DecidableEq

def lossyText (bytes : List UInt8) : List Char := lossyChars bytes.length bytes

/-- `offset + maxChunkBytes` does not overflow: a second round means that it is below twice the
length of the file. -/
def chunkEnd (bytes : List UInt8) (maxChunkBytes offset : Nat) : Nat :=
  let stop := min (offset + maxChunkBytes) bytes.length
  if stop < bytes.length then findLineBoundary bytes stop else bytes.length

/-- The chunk of one round. -/
def segmentAt (bytes : List UInt8) (offset stop lineStart : Nat) : Segment :=
  let chunkBytes := (bytes.take stop).drop offset
  let text := lossyText chunkBytes
  ⟨offset, stop, lineStart, lineStart + text.count '\n', chunkBytes, text⟩

def chunkLoop (bytes : List UInt8) (maxChunkBytes : Nat) (fuel offset lineStart : Nat) :
    Except LoopError (List Segment) :=
  if offset < bytes.length then
    match fuel with
    | 0 => .error .unfinished
    | fuel + 1 =>
      let stop := chunkEnd bytes maxChunkBytes offset
      if stop < offset then .error .sliced
      else
        let seg := segmentAt bytes offset stop lineStart
        (chunkLoop bytes maxChunkBytes fuel stop (seg.lineEnd + 1)).map (seg :: ·)
  else .ok []

/-! ## What it should do -/

/-- Consecutive ranges, none of them empty. -/
def Partitions : Nat → Nat → List (Nat × Nat) → Prop
  | start, stop, [] => start = stop
  | start, stop, (a, b) :: rest => a = start ∧ a < b ∧ Partitions b stop rest

/-- The line of byte `i`, counted from 1. -/
def lineOf (bytes : List UInt8) (i : Nat) : Nat := 1 + (bytes.take i).count 10

structure Segmented (content : List Char) (segs : List Segment) : Prop where
  ranges : Partitions 0 (utf8Bytes content).length
    (segs.map fun seg => (seg.offsetStart, seg.offsetEnd))
  texts : (segs.map Segment.text).flatten = content
  lineStart : ∀ seg ∈ segs, seg.lineStart = lineOf (utf8Bytes content) seg.offsetStart
  /-- The line of the last byte. -/
  lineEnd : ∀ seg ∈ segs, seg.lineEnd = lineOf (utf8Bytes content) (seg.offsetEnd - 1)

/-! ## The cut -/

theorem findLineBoundary_le (bytes : List UInt8) (near : Nat) :
    findLineBoundary bytes near ≤ near := by
  rw [findLineBoundary]
  cases hfind : (List.range' (near - 100) (near - (near - 100))).reverse.find? _ with
  | none => exact Nat.le_refl _
  | some i =>
    have hmem := List.mem_of_find?_eq_some hfind
    rw [List.mem_reverse, List.mem_range'_1] at hmem
    change i + 1 ≤ near
    omega

theorem lt_findLineBoundary (bytes : List UInt8) {near : Nat} (h : 0 < near) :
    near - 100 < findLineBoundary bytes near := by
  rw [findLineBoundary]
  cases hfind : (List.range' (near - 100) (near - (near - 100))).reverse.find? _ with
  | none =>
    change near - 100 < near
    omega
  | some i =>
    have hmem := List.mem_of_find?_eq_some hfind
    rw [List.mem_reverse, List.mem_range'_1] at hmem
    change near - 100 < i + 1
    omega

section Loop

variable {bytes : List UInt8} {maxChunkBytes : Nat}

theorem chunkEnd_le (offset : Nat) : chunkEnd bytes maxChunkBytes offset ≤ bytes.length := by
  rw [chunkEnd]
  split
  · exact Nat.le_trans (findLineBoundary_le _ _) (Nat.min_le_right _ _)
  · exact Nat.le_refl _

/-- A chunk of a hundred bytes or more ends after its start. -/
theorem lt_chunkEnd (h : 100 ≤ maxChunkBytes) {offset : Nat} (hoffset : offset < bytes.length) :
    offset < chunkEnd bytes maxChunkBytes offset := by
  rw [chunkEnd]
  split
  · have := @lt_findLineBoundary bytes (min (offset + maxChunkBytes) bytes.length) (by omega)
    omega
  · exact hoffset

theorem chunkLoop_end {fuel offset lineStart : Nat} (h : bytes.length ≤ offset) :
    chunkLoop bytes maxChunkBytes fuel offset lineStart = .ok [] := by
  cases fuel <;> exact if_neg (Nat.not_lt.mpr h)

theorem chunkLoop_unfinished {offset lineStart : Nat} (h : offset < bytes.length) :
    chunkLoop bytes maxChunkBytes 0 offset lineStart = .error .unfinished := if_pos h

theorem chunkLoop_succ {fuel offset lineStart stop : Nat} (h : offset < bytes.length)
    (hstop : chunkEnd bytes maxChunkBytes offset = stop) :
    chunkLoop bytes maxChunkBytes (fuel + 1) offset lineStart =
      if stop < offset then .error .sliced
      else
        (chunkLoop bytes maxChunkBytes fuel stop
          ((segmentAt bytes offset stop lineStart).lineEnd + 1)).map
            (segmentAt bytes offset stop lineStart :: ·) :=
  hstop ▸ if_pos h

theorem segmentAt_lineEnd (offset stop lineStart : Nat) :
    (segmentAt bytes offset stop lineStart).lineEnd =
      lineStart + ((bytes.take stop).drop offset).count 10 := by
  rw [segmentAt, lossyText, count_lossyChars (Nat.le_refl _)]

/-- A round that goes on: its chunk, and the loop from its end. -/
theorem chunkLoop_round {fuel offset lineStart : Nat} {segs : List Segment}
    (hoffset : offset < bytes.length)
    (h : chunkLoop bytes maxChunkBytes (fuel + 1) offset lineStart = .ok segs) :
    ∃ stop rest, stop = chunkEnd bytes maxChunkBytes offset ∧ offset ≤ stop ∧
      segs = segmentAt bytes offset stop lineStart :: rest ∧
      chunkLoop bytes maxChunkBytes fuel stop
        ((segmentAt bytes offset stop lineStart).lineEnd + 1) = .ok rest := by
  generalize hstop : chunkEnd bytes maxChunkBytes offset = stop
  rw [chunkLoop_succ hoffset hstop] at h
  by_cases hlt : stop < offset
  · rw [if_pos hlt] at h
    cases h
  · rw [if_neg hlt] at h
    cases hrest : chunkLoop bytes maxChunkBytes fuel stop
        ((segmentAt bytes offset stop lineStart).lineEnd + 1) with
    | error e =>
      rw [hrest] at h
      cases h
    | ok rest =>
      rw [hrest] at h
      exact ⟨stop, rest, rfl, Nat.not_lt.mp hlt, (Except.ok.inj h).symm, hrest⟩

theorem count_slice {a b c : Nat} (hab : a ≤ b) (hbc : b ≤ c) :
    ((bytes.take b).drop a).count 10 + ((bytes.take c).drop b).count 10 =
      ((bytes.take c).drop a).count 10 := by
  have hsplit : (bytes.take c).drop a =
      (bytes.take b).drop a ++ (bytes.take c).drop b := by
    rw [← List.take_append_drop (b - a) ((bytes.take c).drop a), List.drop_drop,
      List.take_drop, List.take_take]
    congr 3 <;> omega
  rw [hsplit, List.count_append]

/-- What is cut, chunk by chunk: the number of the first line is too large by the number of
chunks before. -/
theorem chunkLoop_spec : ∀ {fuel offset lineStart : Nat} {segs : List Segment},
    chunkLoop bytes maxChunkBytes fuel offset lineStart = .ok segs →
      ∀ (i : Nat) (hi : i < segs.length), offset ≤ segs[i].offsetStart ∧
        segs[i] = segmentAt bytes segs[i].offsetStart segs[i].offsetEnd segs[i].lineStart ∧
        segs[i].lineStart =
          lineStart + ((bytes.take segs[i].offsetStart).drop offset).count 10 + i := by
  intro fuel
  induction fuel with
  | zero =>
    intro offset lineStart segs h i hi
    by_cases hoffset : offset < bytes.length
    · rw [chunkLoop_unfinished hoffset] at h
      cases h
    · rw [chunkLoop_end (Nat.not_lt.mp hoffset)] at h
      cases h
      cases hi
  | succ fuel ih =>
    intro offset lineStart segs h i hi
    by_cases hoffset : offset < bytes.length
    · obtain ⟨stop, rest, -, hle, rfl, hrest⟩ := chunkLoop_round hoffset h
      cases i with
      | zero =>
        refine ⟨Nat.le_refl _, rfl, ?_⟩
        change lineStart = lineStart + ((bytes.take offset).drop offset).count 10 + 0
        simp
      | succ i =>
        obtain ⟨hlater, hseg, hline⟩ := ih hrest i (Nat.lt_of_succ_lt_succ hi)
        rw [List.getElem_cons_succ]
        refine ⟨Nat.le_trans hle hlater, hseg, ?_⟩
        rw [hline, segmentAt_lineEnd, ← count_slice hle hlater]
        omega
    · rw [chunkLoop_end (Nat.not_lt.mp hoffset)] at h
      cases h
      cases hi

/-- With chunks of a hundred bytes or more the loop ends, and the ranges are those of the file. -/
theorem chunkLoop_ends (hmax : 100 ≤ maxChunkBytes) :
    ∀ {fuel offset : Nat} (lineStart : Nat), offset ≤ bytes.length →
      bytes.length ≤ offset + fuel → ∃ segs,
        chunkLoop bytes maxChunkBytes fuel offset lineStart = .ok segs ∧
        Partitions offset bytes.length
          (segs.map fun seg => (seg.offsetStart, seg.offsetEnd)) := by
  intro fuel
  induction fuel with
  | zero =>
    intro offset lineStart hoffset hfuel
    exact ⟨[], chunkLoop_end hfuel, Nat.le_antisymm hoffset hfuel⟩
  | succ fuel ih =>
    intro offset lineStart hoffset hfuel
    rcases Nat.lt_or_eq_of_le hoffset with hlt | rfl
    · have hstop := lt_chunkEnd hmax hlt
      have hle := @chunkEnd_le bytes maxChunkBytes offset
      generalize hcut : chunkEnd bytes maxChunkBytes offset = stop at hstop hle
      obtain ⟨rest, hrest, hparts⟩ := @ih stop
        ((segmentAt bytes offset stop lineStart).lineEnd + 1) hle (by omega)
      refine ⟨segmentAt bytes offset stop lineStart :: rest, ?_, rfl, hstop, hparts⟩
      rw [chunkLoop_succ hlt hcut, if_neg (by omega), hrest]
      rfl
    · exact ⟨[], chunkLoop_end (Nat.le_refl _), rfl⟩

/-- A file of at most one chunk is one chunk. -/
theorem chunkLoop_whole {fuel : Nat} (hpos : 0 < bytes.length)
    (hmax : bytes.length ≤ maxChunkBytes) :
    chunkLoop bytes maxChunkBytes (fuel + 1) 0 1 = .ok [segmentAt bytes 0 bytes.length 1] := by
  have hcut : chunkEnd bytes maxChunkBytes 0 = bytes.length := by
    rw [chunkEnd, Nat.zero_add, Nat.min_eq_right hmax, if_neg (Nat.lt_irrefl _)]
  rw [chunkLoop_succ hpos hcut, if_neg (Nat.not_lt_zero _), chunkLoop_end (Nat.le_refl _)]
  rfl

/-- A longer file is several. -/
theorem chunkLoop_several {fuel : Nat} {segs : List Segment}
    (hmax : maxChunkBytes < bytes.length) (h : chunkLoop bytes maxChunkBytes fuel 0 1 = .ok segs) :
    1 < segs.length := by
  have hcut : chunkEnd bytes maxChunkBytes 0 < bytes.length := by
    rw [chunkEnd, Nat.zero_add, Nat.min_eq_left (Nat.le_of_lt hmax), if_pos hmax]
    exact Nat.lt_of_le_of_lt (findLineBoundary_le _ _) hmax
  have hmore {fuel offset lineStart : Nat} {segs : List Segment} (hoffset : offset < bytes.length)
      (h : chunkLoop bytes maxChunkBytes fuel offset lineStart = .ok segs) :
      ∃ fuel' lineStart' rest, chunkLoop bytes maxChunkBytes fuel'
        (chunkEnd bytes maxChunkBytes offset) lineStart' = .ok rest ∧
          segs.length = rest.length + 1 := by
    cases fuel with
    | zero =>
      rw [chunkLoop_unfinished hoffset] at h
      cases h
    | succ fuel =>
      obtain ⟨stop, rest, rfl, -, rfl, hrest⟩ := chunkLoop_round hoffset h
      exact ⟨fuel, _, rest, hrest, rfl⟩
  obtain ⟨_, _, rest, hrest, hlen⟩ := hmore (by omega) h
  obtain ⟨_, _, rest', -, hlen'⟩ := hmore hcut hrest
  omega

end Loop

/-! ## When it does it -/

theorem utf8Bytes_last (content : List Char) :
    (utf8Bytes content).count 10 =
        ((utf8Bytes content).take ((utf8Bytes content).length - 1)).count 10 ↔
      content.getLast? ≠ some '\n' := by
  rcases List.eq_nil_or_concat content with rfl | ⟨init, c, rfl⟩
  · simp [utf8Bytes]
  · rw [List.concat_eq_append, List.getLast?_concat, utf8Bytes_append]
    by_cases hc : c = '\n'
    · subst hc
      have hone : utf8Bytes ['\n'] = [10] := by decide
      rw [hone, List.length_append, List.length_singleton, Nat.add_sub_cancel, List.take_left,
        List.count_append]
      simp
    · have hnone : (utf8Bytes [c]).count 10 = 0 := by
        rw [count_utf8Bytes]
        exact List.count_eq_zero.mpr (by simpa using Ne.symm hc)
      have hpos := length_le_utf8Bytes [c]
      rw [List.length_singleton] at hpos
      refine iff_of_true ?_ (by simpa using hc)
      have hlen : (utf8Bytes init ++ utf8Bytes [c]).length - 1 =
          (utf8Bytes init).length + ((utf8Bytes [c]).length - 1) := by
        rw [List.length_append]
        omega
      have hcut := (List.take_sublist ((utf8Bytes [c]).length - 1) (utf8Bytes [c])).count_le 10
      rw [hnone] at hcut
      rw [hlen, List.take_length_add_append, List.count_append, List.count_append, hnone,
        Nat.eq_zero_of_le_zero hcut]

theorem segmented_whole {content : List Char} (hpos : 0 < (utf8Bytes content).length) :
    Segmented content [segmentAt (utf8Bytes content) 0 (utf8Bytes content).length 1] ↔
      content.getLast? ≠ some '\n' := by
  have hend := @segmentAt_lineEnd (utf8Bytes content) 0 (utf8Bytes content).length 1
  rw [List.take_length, List.drop_zero] at hend
  rw [← utf8Bytes_last]
  constructor
  · intro h
    have hline := h.lineEnd _ (List.mem_singleton_self _)
    rw [hend] at hline
    exact Nat.add_left_cancel hline
  · intro h
    refine ⟨⟨rfl, hpos, rfl⟩, ?_, ?_, ?_⟩
    · rw [List.map_singleton, List.flatten_singleton, segmentAt, List.take_length, List.drop_zero]
      exact lossyChars_utf8Bytes content (length_le_utf8Bytes content)
    · intro seg hseg
      rw [List.mem_singleton.mp hseg]
      rfl
    · intro seg hseg
      rw [List.mem_singleton.mp hseg, hend, h]
      rfl

/-- The segmentation is right exactly for a file of at most one chunk that does not end with a
newline. -/
theorem segments_exact (raw : List UInt8) (maxChunkBytes : Nat) :
    (∃ fuel segs, chunkLoop (utf8Bytes (lossyText raw)) maxChunkBytes fuel 0 1 = .ok segs ∧
      Segmented (lossyText raw) segs) ↔
    (utf8Bytes (lossyText raw)).length ≤ maxChunkBytes ∧
      (lossyText raw).getLast? ≠ some '\n' := by
  generalize lossyText raw = content
  constructor
  · rintro ⟨fuel, segs, h, hsegs⟩
    have hle : (utf8Bytes content).length ≤ maxChunkBytes := by
      by_contra hlong
      have hlen := chunkLoop_several (Nat.not_le.mp hlong) h
      obtain ⟨-, -, hline⟩ := chunkLoop_spec h 1 hlen
      have := hsegs.lineStart _ (List.getElem_mem hlen)
      rw [hline, List.drop_zero, lineOf] at this
      omega
    refine ⟨hle, ?_⟩
    rcases Nat.eq_zero_or_pos (utf8Bytes content).length with hzero | hpos
    · have := length_le_utf8Bytes content
      obtain rfl : content = [] := List.length_eq_zero_iff.mp (by omega)
      decide
    · cases fuel with
      | zero =>
        rw [chunkLoop_unfinished hpos] at h
        cases h
      | succ fuel =>
        rw [chunkLoop_whole hpos hle] at h
        obtain rfl := Except.ok.inj h
        exact (segmented_whole hpos).mp hsegs
  · rintro ⟨hle, hlast⟩
    rcases Nat.eq_zero_or_pos (utf8Bytes content).length with hzero | hpos
    · have := length_le_utf8Bytes content
      obtain rfl : content = [] := List.length_eq_zero_iff.mp (by omega)
      refine ⟨0, [], rfl, rfl, rfl, ?_, ?_⟩
      · exact fun seg hseg => (by cases hseg)
      · exact fun seg hseg => (by cases hseg)
    · exact ⟨1, _, chunkLoop_whole hpos hle, (segmented_whole hpos).mpr hlast⟩

/-- A line for each chunk: the second is said to start on the third. -/
theorem segments_exact_not : ¬ ∀ (raw : List UInt8) (maxChunkBytes : Nat), 1 ≤ maxChunkBytes →
    ∃ fuel segs, chunkLoop (utf8Bytes (lossyText raw)) maxChunkBytes fuel 0 1 = .ok segs ∧
      Segmented (lossyText raw) segs := by
  intro h
  obtain ⟨fuel, segs, hrun, hsegs⟩ := h [97, 10, 98] 2 (by decide)
  obtain ⟨-, -, hline⟩ := chunkLoop_spec hrun 1 (chunkLoop_several (by decide) hrun)
  have := hsegs.lineStart _ (List.getElem_mem (chunkLoop_several (by decide) hrun))
  rw [hline, List.drop_zero, lineOf] at this
  omega

end Arags.Knowledge
