import Mathlib.Data.Nat.Find
import Arags.Embedding.StructureBlocks

/-!
# Arags.Embedding.CodeCover

For which files the chunks of the code chunker are right.

* `LineTiling`      — chunks of whole lines, one after the other; merging keeps it.
* `FirstBlock`      — the lines of the first block.
* `code_covered`    — the chunks cover the file exactly when its windows, or its first block and
  its end, are as the code needs them.
-/

namespace Arags.Embedding

open Text

section Tiling

variable (content : List Char) (language : Option String)

/-- From line `n` on, chunks of whole lines up to the end of the file. -/
def LineTiling : Nat → List RawChunk → Prop
  | n, [] => n = (splitInclusive content).length
  | n, c :: cs =>
    ∃ m, n < m ∧ m ≤ (splitInclusive content).length ∧
      c = blockChunk content language n m
        (if m = (splitInclusive content).length then splitCount content else m) ∧
      LineTiling m cs

variable {content language}

theorem blockChunks_tiling {lines : List (List Char)} : ∀ {n i : Nat},
    lines = (splitInclusive content).drop i → n < i → i ≤ (splitInclusive content).length →
      LineTiling content language n (blockChunks content language n i lines) := by
  induction lines with
  | nil =>
    intro n i hlines hn hi
    have hend : i = (splitInclusive content).length :=
      Nat.le_antisymm hi (List.drop_eq_nil_iff.mp hlines.symm)
    exact ⟨i, hn, hi, by rw [if_pos hend], hend⟩
  | cons line lines ih =>
    intro n i hlines hn hi
    have hrest : lines = (splitInclusive content).drop (i + 1) := by
      rw [← List.tail_drop, ← hlines]
      rfl
    have hi' : i < (splitInclusive content).length := by
      have := congrArg List.length hlines
      rw [List.length_cons, List.length_drop] at this
      omega
    rw [blockChunks]
    split
    · exact ⟨i, hn, hi, by rw [if_neg (by omega)], ih hrest (Nat.lt_succ_self i) hi'⟩
    · exact ih hrest (by omega) hi'

theorem linesText_append {n m k : Nat} (hn : n ≤ m) (hm : m ≤ k) :
    linesText content n m ++ linesText content m k = linesText content n k := by
  rw [linesText, linesText, linesText, ← List.flatten_append, List.drop_take, List.drop_take,
    List.drop_take, show k - n = (m - n) + (k - m) by omega, List.take_add, List.drop_drop,
    Nat.add_sub_cancel' hn]

/-- Merging neighbours gives chunks of whole lines again. -/
theorem mergeFrom_tiling (estimateTokens : List Char → Nat) (maxTokens : Nat) {n : Nat}
    {cs : List RawChunk} : ∀ {prev : RawChunk}, LineTiling content language n (prev :: cs) →
      LineTiling content language n (mergeFrom estimateTokens maxTokens prev cs) := by
  induction cs generalizing n with
  | nil => exact fun h => h
  | cons c cs ih =>
    intro prev h
    obtain ⟨m, hn, hm, hprev, k, hmk, hk, hc, hrest⟩ := h
    rw [mergeFrom]
    by_cases hfit : estimateTokens prev.content + estimateTokens c.content ≤ maxTokens ∧
        prev.chunkType = c.chunkType ∧ prev.language = c.language
    · rw [if_pos hfit]
      refine ih ⟨k, Nat.lt_trans hn hmk, hk, ?_, hrest⟩
      rw [hprev, hc]
      simp only [mergeChunks, blockChunk, codeChunk,
        @linesText_append content n m k (Nat.le_of_lt hn) (Nat.le_of_lt hmk)]
    · rw [if_neg hfit]
      exact ⟨m, hn, hm, hprev, ih ⟨k, hmk, hk, hc, hrest⟩⟩

theorem LineTiling.mem {n : Nat} {cs : List RawChunk} (h : LineTiling content language n cs) :
    ∀ c ∈ cs, ∃ x y, n ≤ x ∧ x < y ∧ y ≤ (splitInclusive content).length ∧
      c = blockChunk content language x y
        (if y = (splitInclusive content).length then splitCount content else y) := by
  induction cs generalizing n with
  | nil => simp
  | cons c cs ih =>
    obtain ⟨m, hn, hm, hc, hrest⟩ := h
    refine List.forall_mem_cons.mpr ⟨⟨n, m, Nat.le_refl n, hn, hm, hc⟩, fun d hd => ?_⟩
    obtain ⟨x, y, hx, hxy⟩ := ih hrest d hd
    exact ⟨x, y, by omega, hxy⟩

theorem LineTiling.cover {n : Nat} {cs : List RawChunk} (h : LineTiling content language n cs)
    {j : Nat} (hj : n ≤ j) (hlen : j < (splitInclusive content).length) :
    ∃ x y, x ≤ j ∧ j < y ∧ y ≤ (splitInclusive content).length ∧ blockChunk content language x y
      (if y = (splitInclusive content).length then splitCount content else y) ∈ cs := by
  induction cs generalizing n with
  | nil =>
    have hn : n = (splitInclusive content).length := h
    omega
  | cons c cs ih =>
    obtain ⟨m, hn, hm, rfl, hrest⟩ := h
    by_cases hjm : j < m
    · exact ⟨n, m, hj, hjm, hm, List.mem_cons_self⟩
    · obtain ⟨x, y, hx, hy, hlast, hmem⟩ := ih hrest (Nat.not_lt.mp hjm)
      exact ⟨x, y, hx, hy, hlast, List.mem_cons_of_mem _ hmem⟩

/-- Chunks of whole lines are right, up to the number of the last line. -/
theorem LineTiling.right {n : Nat} {cs : List RawChunk} (h : LineTiling content language n cs)
    (hnl : content.getLast? ≠ some '\n') :
    (∀ c ∈ cs, slice content c.offsetStart c.offsetEnd = some c.content) ∧
      ∀ c ∈ cs, c.lineStart = lineNumber (splitInclusive content) c.offsetStart ∧
        c.lineEnd = lineNumber (splitInclusive content) (c.offsetEnd - 1) := by
  refine ⟨fun c hc => ?_, fun c hc => ?_⟩
  · obtain ⟨x, y, -, hxy, -, rfl⟩ := h.mem c hc
    exact linesText_slice (Nat.le_of_lt hxy)
  · obtain ⟨x, y, -, hxy, hy, rfl⟩ := h.mem c hc
    have hlt := lineOffset_lt (@split_lines_ne_nil content) hxy (by omega)
    have hend : lineOffset (splitInclusive content) y ≤ byteLen content :=
      isCharBoundary_le (lineOffset_boundary _)
    have hnext := lineOffset_lt (@split_lines_ne_nil content) (Nat.lt_succ_self x) (by omega)
    have hprev := lineOffset_lt (@split_lines_ne_nil content) (show y - 1 < y by omega) (by omega)
    have hcount : (if y = (splitInclusive content).length then splitCount content else y) =
        y - 1 + 1 := by
      split
      · have hne : content ≠ [] := by
          rintro rfl
          exact absurd hy (by simp [splitInclusive_nil]; omega)
        rw [splitCount_eq, if_neg (fun hor => hor.elim hne hnl)]
        omega
      · omega
    refine ⟨((fileLine_iff (by omega)).mpr ⟨Nat.le_refl _, hnext⟩).symm, ?_⟩
    show (if _ then _ else _) = lineNumber _ (lineOffset _ y - 1)
    rw [hcount, (fileLine_iff (j := y - 1) (by omega)).mpr]
    rw [Nat.sub_add_cancel (by omega)]
    omega

/-- The number of the last line is right only when the file does not end in a newline. -/
theorem newline_of_lineEnd {o : Nat} (ho : o < byteLen content)
    (h : splitCount content = lineNumber (splitInclusive content) o) :
    content.getLast? ≠ some '\n' := by
  intro hnl
  have hle := @lineNumber_le (splitInclusive content) o (by rwa [flatten_splitInclusive])
  rw [splitCount_eq, if_pos (.inr hnl)] at h
  omega

theorem LineTiling.newline {n : Nat} {cs : List RawChunk} (h : LineTiling content language n cs)
    (hn : n < (splitInclusive content).length)
    (hnum : ∀ c ∈ cs, c.lineEnd = lineNumber (splitInclusive content) (c.offsetEnd - 1)) :
    content.getLast? ≠ some '\n' := by
  obtain ⟨x, y, -, hy, hlast, hmem⟩ :=
    @LineTiling.cover content language n cs h ((splitInclusive content).length - 1) (by omega)
      (by omega)
  obtain rfl : y = (splitInclusive content).length := by omega
  have hend := hnum _ hmem
  rw [if_pos rfl] at hend
  have hpos := lineOffset_lt (@split_lines_ne_nil content) hn hn
  rw [lineOffset_last (Nat.le_refl _)] at hpos
  refine newline_of_lineEnd (o := byteLen content - 1) (by omega) ?_
  rw [← lineOffset_last (Nat.le_refl (splitInclusive content).length)]
  exact hend

end Tiling

/-! ## Blocks -/

section Blocks

variable (content : List Char) (language : Option String)

/-- The block that starts at line `n` goes on up to line `m`. -/
structure BlockEnd (n m : Nat) : Prop where
  lt : n < m
  le : m ≤ (splitInclusive content).length
  inside : ∀ j line, n < j → j < m → (splitInclusive content)[j]? = some line →
    isStructureLine language line = false
  next : ∀ line, (splitInclusive content)[m]? = some line → isStructureLine language line = true

/-- The first block of a file: from line `f` up to line `m`. -/
structure FirstBlock (f m : Nat) : Prop where
  before : ∀ j line, j < f → (splitInclusive content)[j]? = some line →
    isStructureLine language line = false
  opens : ∃ line, (splitInclusive content)[f]? = some line ∧ isStructureLine language line = true
  ends : BlockEnd content language f m

variable {content language}

theorem BlockEnd.unique {n m m' : Nat} (h : BlockEnd content language n m)
    (h' : BlockEnd content language n m') : m = m' := by
  have key {m m' : Nat} (h : BlockEnd content language n m) (h' : BlockEnd content language n m') :
      ¬ m < m' := by
    intro hlt
    have hget := List.getElem?_eq_getElem (Nat.lt_of_lt_of_le hlt h'.le)
    have hnot := h'.inside m _ h.lt hlt hget
    rw [h.next _ hget] at hnot
    cases hnot
  exact Nat.le_antisymm (Nat.not_lt.mp (key h' h)) (Nat.not_lt.mp (key h h'))

theorem exists_blockEnd {n : Nat} (hn : n < (splitInclusive content).length) :
    ∃ m, BlockEnd content language n m := by
  classical
  have hex : ∃ m, n < m ∧ (m = (splitInclusive content).length ∨
      ∃ line, (splitInclusive content)[m]? = some line ∧ isStructureLine language line = true) :=
    ⟨_, hn, .inl rfl⟩
  obtain ⟨hlt, hend⟩ := Nat.find_spec hex
  have hle : Nat.find hex ≤ (splitInclusive content).length := Nat.find_min' hex ⟨hn, .inl rfl⟩
  refine ⟨Nat.find hex, hlt, hle, fun j line hj hjm hline => ?_, fun line hline => ?_⟩
  · have hnot := Nat.find_min hex hjm
    rw [Bool.eq_false_iff]
    exact fun hstart => hnot ⟨hj, .inr ⟨line, hline, hstart⟩⟩
  · rcases hend with heq | ⟨line', hline', hstart⟩
    · rw [heq, List.getElem?_eq_none (Nat.le_refl _)] at hline
      cases hline
    · rwa [Option.some.inj (hline.symm.trans hline')]

theorem exists_firstBlock {line : List Char} (hmem : line ∈ splitInclusive content)
    (hstart : isStructureLine language line = true) :
    ∃ f m, FirstBlock content language f m := by
  classical
  obtain ⟨i, hi⟩ := List.mem_iff_getElem?.mp hmem
  have hex : ∃ f line, (splitInclusive content)[f]? = some line ∧
      isStructureLine language line = true := ⟨i, line, hi, hstart⟩
  obtain ⟨first, hfirst, hopens⟩ := Nat.find_spec hex
  obtain ⟨m, hm⟩ := @exists_blockEnd content language (Nat.find hex)
    (List.getElem?_eq_some_iff.mp hfirst).1
  refine ⟨Nat.find hex, m, fun j line hj hline => ?_, ⟨first, hfirst, hopens⟩, hm⟩
  have hnot := Nat.find_min hex hj
  rw [Bool.eq_false_iff]
  exact fun hs => hnot ⟨line, hline, hs⟩

/-- What is left after a block. -/
def laterChunks (content : List Char) (language : Option String) (m : Nat) : List RawChunk :=
  if m = (splitInclusive content).length then []
  else blockChunks content language m (m + 1) ((splitInclusive content).drop (m + 1))

def blockLineEnd (content : List Char) (m : Nat) : Nat :=
  if m = (splitInclusive content).length then splitCount content else m

/-- A loop that leaves the open block at the next structural line. -/
theorem openChunks_eq {n m : Nat} (h : BlockEnd content language n m) {chunk : Nat → Nat → RawChunk}
    {loop : Nat → List (List Char) → List RawChunk}
    (hnil : ∀ i, loop i [] = [chunk i (splitCount content)])
    (hcons : ∀ i line lines, loop i (line :: lines) =
      if isStructureLine language line then
        chunk i i :: blockChunks content language i (i + 1) lines
      else loop (i + 1) lines)
    {lines : List (List Char)} : ∀ {i : Nat}, lines = (splitInclusive content).drop i → n < i →
      i ≤ m → loop i lines =
        chunk m (blockLineEnd content m) :: laterChunks content language m := by
  induction lines with
  | nil =>
    intro i hlines hn hi
    have hlen := List.drop_eq_nil_iff.mp hlines.symm
    have hle := h.le
    obtain rfl : i = m := by omega
    have hend : i = (splitInclusive content).length := by omega
    rw [hnil, blockLineEnd, laterChunks, if_pos hend, if_pos hend]
  | cons line lines ih =>
    intro i hlines hn hi
    obtain ⟨hline, hrest⟩ := drop_cons hlines
    have hi' := (List.getElem?_eq_some_iff.mp hline).1
    rw [hcons]
    rcases Nat.lt_or_eq_of_le hi with hlt | rfl
    · rw [if_neg (by rw [h.inside i line hn hlt hline]; exact Bool.false_ne_true)]
      exact ih hrest (by omega) hlt
    · rw [if_pos (h.next line hline), blockLineEnd, laterChunks, if_neg (by omega),
        if_neg (by omega), hrest]

theorem blockChunks_eq {n m : Nat} (h : BlockEnd content language n m)
    {lines : List (List Char)} {i : Nat} (hlines : lines = (splitInclusive content).drop i)
    (hn : n < i) (hi : i ≤ m) : blockChunks content language n i lines =
      blockChunk content language n m (blockLineEnd content m) :: laterChunks content language m :=
  openChunks_eq h (fun _ => rfl) (fun _ _ _ => rfl) hlines hn hi

theorem firstChunks_eq {f m : Nat} (h : BlockEnd content language f m)
    {lines : List (List Char)} {i : Nat} (hlines : lines = (splitInclusive content).drop i)
    (hf : f < i) (hi : i ≤ m) : firstChunks content language f i lines =
      firstChunk content language f m (blockLineEnd content m) :: laterChunks content language m :=
  openChunks_eq h (fun _ => rfl) (fun _ _ _ => rfl) hlines hf hi

theorem fileChunks_eq {f m : Nat} (h : FirstBlock content language f m)
    {lines : List (List Char)} : ∀ {i : Nat}, lines = (splitInclusive content).drop i → i ≤ f →
      fileChunks content language i lines =
        firstChunk content language f m (blockLineEnd content m) ::
          laterChunks content language m := by
  obtain ⟨first, hfirst, hopens⟩ := h.opens
  have hf := (List.getElem?_eq_some_iff.mp hfirst).1
  induction lines with
  | nil =>
    intro i hlines hi
    have := List.drop_eq_nil_iff.mp hlines.symm
    omega
  | cons line lines ih =>
    intro i hlines hi
    obtain ⟨hline, hrest⟩ := drop_cons hlines
    rw [fileChunks]
    rcases Nat.lt_or_eq_of_le hi with hlt | rfl
    · rw [if_neg (by rw [h.before i line hlt hline]; exact Bool.false_ne_true)]
      exact ih hrest hlt
    · rw [← Option.some.inj (hfirst.symm.trans hline), if_pos hopens]
      exact firstChunks_eq h.ends hrest (Nat.lt_succ_self i) h.ends.lt

theorem fileChunks_nil {lines : List (List Char)}
    (h : ∀ line ∈ lines, isStructureLine language line = false) :
    ∀ i, fileChunks content language i lines = [] := by
  induction lines with
  | nil => exact fun i => rfl
  | cons line lines ih =>
    intro i
    obtain ⟨hline, hrest⟩ := List.forall_mem_cons.mp h
    rw [fileChunks, if_neg (by rw [hline]; exact Bool.false_ne_true)]
    exact ih hrest (i + 1)

theorem blockChunk_ne_nil {n m : Nat} (lineEnd : Nat) (h : n < m)
    (hm : m ≤ (splitInclusive content).length) :
    (blockChunk content language n m lineEnd).content ≠ [] := by
  intro hnil
  obtain ⟨-, -, -, -, hlen⟩ := slice_eq_some.mp (@linesText_slice content n m (Nat.le_of_lt h))
  have := lineOffset_lt (@split_lines_ne_nil content) h (by omega)
  rw [show linesText content n m = [] from hnil, byteLen_nil] at hlen
  omega

theorem laterChunks_tiling {n m : Nat} (h : BlockEnd content language n m) :
    LineTiling content language m (laterChunks content language m) := by
  rw [laterChunks]
  split
  · rename_i hend
    exact hend
  · rename_i hne
    have := h.le
    exact blockChunks_tiling rfl (Nat.lt_succ_self m) (by omega)

/-- Every chunk of the loop has a text. -/
theorem fileChunks_ne_nil : ∀ c ∈ fileChunks content language 0 (splitInclusive content),
    c.content ≠ [] := by
  by_cases hstart : ∃ line ∈ splitInclusive content, isStructureLine language line = true
  · obtain ⟨line, hmem, hline⟩ := hstart
    obtain ⟨f, m, h⟩ := exists_firstBlock hmem hline
    obtain ⟨first, hfirst, hopens⟩ := h.opens
    rw [@fileChunks_eq content language f m h (splitInclusive content) 0 rfl (Nat.zero_le f)]
    refine List.forall_mem_cons.mpr ⟨firstChunk_ne_nil _ hfirst hopens h.ends.lt, fun c hc => ?_⟩
    obtain ⟨x, y, -, hxy, hy, rfl⟩ := (laterChunks_tiling h.ends).mem c hc
    exact blockChunk_ne_nil _ hxy hy
  · rw [fileChunks_nil fun line hmem => ?_]
    · exact fun c hc => (by cases hc)
    · rw [Bool.eq_false_iff]
      exact fun hline => hstart ⟨line, hmem, hline⟩

end Blocks

/-! ## The whole file -/

section File

variable (estimateTokens : List Char → Nat) (maxTokens overlapTokens : Nat) (content : List Char)
  (language : Option String)

/-- The first block starts the file; or what the shift takes from its end is within its last line,
which is blank, and the next block does not fit the budget together with it. -/
def FirstBlockOk (f m : Nat) : Prop :=
  f = 0 ∨ (∀ line ∈ (splitInclusive content)[m - 1]?, line.all isWhiteSpace = true) ∧
    lineOffset (splitInclusive content) (m - 1) < firstStop content f m ∧
      ∀ m', BlockEnd content language m m' →
        maxTokens < estimateTokens ((slice content 0 (firstStop content f m)).getD []) +
          estimateTokens (linesText content m m')

def CodeCoverable : Prop :=
  if structured language = true ∧
      ∃ line ∈ splitInclusive content, isStructureLine language line = true then
    content.getLast? ≠ some '\n' ∧ ∀ f m, FirstBlock content language f m →
      FirstBlockOk estimateTokens maxTokens content language f m
  else WindowsReach content overlapTokens
    (lineWindows estimateTokens maxTokens overlapTokens 0 0 0 (splitInclusive content))

variable {estimateTokens maxTokens overlapTokens content language}

theorem firstStop_le (f m : Nat) : firstStop content f m ≤
    lineOffset (splitInclusive content) m - lineOffset (splitInclusive content) f :=
  prevCharBoundary_le _ _

/-- A first block at the start of the file is a block of whole lines. -/
theorem firstChunk_zero {m : Nat} (lineEnd : Nat) :
    firstChunk content language 0 m lineEnd = blockChunk content language 0 m lineEnd := by
  have hstop : firstStop content 0 m = lineOffset (splitInclusive content) m :=
    prevCharBoundary_of_boundary (lineOffset_boundary m)
  have hslice := @linesText_slice content 0 m (Nat.zero_le m)
  change slice content 0 _ = _ at hslice
  rw [firstChunk, hstop, hslice]
  rfl

/-- A chunk with less text than its offsets say. -/
def Short (c : RawChunk) : Prop := byteLen c.content < c.offsetEnd - c.offsetStart

theorem not_short_of_slice {c : RawChunk}
    (h : slice content c.offsetStart c.offsetEnd = some c.content) : ¬ Short c := by
  obtain ⟨-, -, -, -, hlen⟩ := slice_eq_some.mp h
  rw [Short]
  omega

/-- Merging does not lengthen the text of a short chunk. -/
theorem mergeFrom_short {n : Nat} {cs : List RawChunk} : ∀ {prev : RawChunk}, Short prev →
    prev.offsetEnd = lineOffset (splitInclusive content) n → LineTiling content language n cs →
      ∃ c ∈ mergeFrom estimateTokens maxTokens prev cs, Short c := by
  induction cs generalizing n with
  | nil => exact fun h _ _ => ⟨_, List.mem_singleton_self _, h⟩
  | cons c cs ih =>
    intro prev hshort hend htile
    obtain ⟨m, hn, hm, hc, hrest⟩ := htile
    rw [mergeFrom]
    split
    · refine ih ?_ (by rw [hc]; rfl) hrest
      obtain ⟨-, -, -, -, hlen⟩ := slice_eq_some.mp
        (@linesText_slice content n m (Nat.le_of_lt hn))
      rw [Short] at hshort ⊢
      rw [hc]
      show byteLen (prev.content ++ linesText content n m) <
        lineOffset (splitInclusive content) m - prev.offsetStart
      rw [byteLen_append]
      omega
    · exact ⟨prev, List.mem_cons_self, hshort⟩

theorem LineTiling.covered {cs : List RawChunk} (h : LineTiling content language 0 cs)
    (hnl : content.getLast? ≠ some '\n') : FileCovered content cs := by
  obtain ⟨hslices, hnumbers⟩ := h.right hnl
  refine ⟨fun j line hline _ => ?_, hslices, hnumbers⟩
  obtain ⟨x, y, hx, hy, -, hmem⟩ := h.cover (Nat.zero_le j) (List.getElem?_eq_some_iff.mp hline).1
  exact ⟨_, hmem, lineOffset_mono hx, lineOffset_mono hy⟩

theorem blockLineEnd_eq (hne : content ≠ []) (hnl : content.getLast? ≠ some '\n') (m : Nat) :
    blockLineEnd content m = m := by
  rw [blockLineEnd]
  split
  · rename_i hm
    rw [splitCount_eq, if_neg (fun hor => hor.elim hne hnl), hm]
    rfl
  · rfl

/-- A first block that is shifted, and whole lines after it. -/
theorem shifted_covered_iff {f m : Nat} (h : FirstBlock content language f m) (hf : 0 < f)
    {cs : List RawChunk} (htile : LineTiling content language m cs) :
    FileCovered content (firstChunk content language f m (blockLineEnd content m) :: cs) ↔
      content.getLast? ≠ some '\n' ∧
        (∀ line ∈ (splitInclusive content)[m - 1]?, line.all isWhiteSpace = true) ∧
          lineOffset (splitInclusive content) (m - 1) < firstStop content f m := by
  have hfm := h.ends.lt
  have hm := h.ends.le
  have hstop := @firstStop_le content f m
  have hbefore : lineOffset (splitInclusive content) 0 < lineOffset (splitInclusive content) f :=
    lineOffset_lt (@split_lines_ne_nil content) hf (by omega)
  have hfirst : lineOffset (splitInclusive content) f ≤
      lineOffset (splitInclusive content) (m - 1) := lineOffset_mono (by omega)
  have hlast := lineOffset_lt (@split_lines_ne_nil content) (show m - 1 < m by omega) (by omega)
  have hend : lineOffset (splitInclusive content) m ≤ byteLen content :=
    isCharBoundary_le (lineOffset_boundary _)
  have hne : content ≠ [] := by
    rintro rfl
    rw [byteLen_nil] at hend
    omega
  have hsucc : m = m - 1 + 1 := by omega
  have hline := @fileLine_iff content (m - 1) (firstStop content f m - 1) (by omega)
  rw [← hsucc] at hline
  constructor
  · intro hcov
    have hnum : blockLineEnd content m =
        lineNumber (splitInclusive content) (firstStop content f m - 1) :=
      (hcov.numbers _ List.mem_cons_self).2
    have hnl : content.getLast? ≠ some '\n' := by
      rcases Nat.lt_or_eq_of_le hm with hlt | rfl
      · exact htile.newline hlt fun c hc => (hcov.numbers c (List.mem_cons_of_mem _ hc)).2
      · rw [blockLineEnd, if_pos rfl] at hnum
        exact newline_of_lineEnd (by omega) hnum
    rw [blockLineEnd_eq hne hnl] at hnum
    have hreach := hline.mp hnum.symm
    refine ⟨hnl, fun line hmem => ?_, by omega⟩
    by_contra hblank
    obtain ⟨c, hc, hfrom, hto⟩ := hcov.covered (m - 1) line hmem (by simpa using hblank)
    rw [← hsucc] at hto
    rcases List.mem_cons.mp hc with rfl | hc
    · change _ ≤ firstStop content f m at hto
      omega
    · obtain ⟨x, y, hx, -, -, rfl⟩ := htile.mem c hc
      have : lineOffset (splitInclusive content) m ≤ lineOffset (splitInclusive content) x :=
        lineOffset_mono hx
      change lineOffset (splitInclusive content) x ≤ _ at hfrom
      omega
  · rintro ⟨hnl, hblank, hreach⟩
    obtain ⟨hslices, hnumbers⟩ := htile.right hnl
    refine ⟨fun j line hmem hsolid => ?_, List.forall_mem_cons.mpr
      ⟨firstChunk_slice f m _, hslices⟩, List.forall_mem_cons.mpr ⟨⟨?_, ?_⟩, hnumbers⟩⟩
    · have hj := (List.getElem?_eq_some_iff.mp hmem).1
      rcases Nat.lt_trichotomy j (m - 1) with hlt | rfl | hgt
      · have : lineOffset (splitInclusive content) (j + 1) ≤
            lineOffset (splitInclusive content) (m - 1) := lineOffset_mono hlt
        exact ⟨_, List.mem_cons_self, Nat.zero_le _, by
          show _ ≤ firstStop content f m
          omega⟩
      · rw [hblank line hmem] at hsolid
        cases hsolid
      · obtain ⟨x, y, hx, hy, -, hmem'⟩ := htile.cover (by omega) hj
        exact ⟨_, List.mem_cons_of_mem _ hmem', lineOffset_mono hx, lineOffset_mono hy⟩
    · refine ((fileLine_iff (j := 0) (by show 0 < _; omega)).mpr ⟨Nat.le_refl _, ?_⟩).symm
      exact lineOffset_lt (@split_lines_ne_nil content) Nat.zero_lt_one (by omega)
    · show blockLineEnd content m = lineNumber _ (firstStop content f m - 1)
      rw [blockLineEnd_eq hne hnl, hline.mpr ⟨by omega, by omega⟩]

/-- A shifted first block must not take in the next one: the text of both is too short for where
they are. -/
theorem merged_covered_iff {f m m' : Nat} (h : FirstBlock content language f m) (hf : 0 < f)
    (hm' : BlockEnd content language m m') :
    FileCovered content (mergeFrom estimateTokens maxTokens
        (firstChunk content language f m (blockLineEnd content m))
        (blockChunk content language m m' (blockLineEnd content m') ::
          laterChunks content language m')) ↔
      content.getLast? ≠ some '\n' ∧
        ((∀ line ∈ (splitInclusive content)[m - 1]?, line.all isWhiteSpace = true) ∧
          lineOffset (splitInclusive content) (m - 1) < firstStop content f m) ∧
        ∀ m', BlockEnd content language m m' →
          maxTokens < estimateTokens ((slice content 0 (firstStop content f m)).getD []) +
            estimateTokens (linesText content m m') := by
  have hlater := laterChunks_tiling hm'
  rw [mergeFrom]
  by_cases hfit : estimateTokens ((slice content 0 (firstStop content f m)).getD []) +
      estimateTokens (linesText content m m') ≤ maxTokens
  · rw [if_pos ⟨hfit, rfl, rfl⟩]
    refine ⟨fun hcov => ?_, fun hok => absurd (hok.2.2 m' hm') (Nat.not_lt.mpr hfit)⟩
    have hshort : Short (mergeChunks (firstChunk content language f m (blockLineEnd content m))
        (blockChunk content language m m' (blockLineEnd content m'))) := by
      have hmlt := hm'.lt
      have hle := hm'.le
      have hbefore : lineOffset (splitInclusive content) 0 <
          lineOffset (splitInclusive content) f :=
        lineOffset_lt (@split_lines_ne_nil content) hf (by omega)
      have hmono : lineOffset (splitInclusive content) f ≤
          lineOffset (splitInclusive content) m := lineOffset_mono (Nat.le_of_lt h.ends.lt)
      have hmono' : lineOffset (splitInclusive content) m ≤
          lineOffset (splitInclusive content) m' := lineOffset_mono (Nat.le_of_lt hmlt)
      have hstop := @firstStop_le content f m
      obtain ⟨-, -, -, -, hfirst⟩ := slice_eq_some.mp
        (@firstChunk_slice content language f m (blockLineEnd content m))
      obtain ⟨-, -, -, -, hnext⟩ := slice_eq_some.mp
        (@linesText_slice content m m' (Nat.le_of_lt hmlt))
      show byteLen (_ ++ linesText content m m') < lineOffset (splitInclusive content) m' - 0
      rw [byteLen_append]
      omega
    obtain ⟨c, hc, hs⟩ := mergeFrom_short hshort rfl hlater
    exact absurd hs (not_short_of_slice (hcov.slices c hc))
  · have htile : LineTiling content language m (mergeFrom estimateTokens maxTokens
        (blockChunk content language m m' (blockLineEnd content m'))
        (laterChunks content language m')) :=
      mergeFrom_tiling _ _ ⟨m', hm'.lt, hm'.le, rfl, hlater⟩
    rw [if_neg (fun hor => hfit hor.1), shifted_covered_iff h hf htile, and_congr_right_iff]
    refine fun _ => (and_iff_left fun m'' hm'' => ?_).symm
    rw [hm''.unique hm']
    exact Nat.not_le.mp hfit

/-- A file with a structure, by its first block. -/
theorem structures_covered_iff {f m : Nat} (h : FirstBlock content language f m) :
    FileCovered content (mergeFrom estimateTokens maxTokens
        (firstChunk content language f m (blockLineEnd content m))
        (laterChunks content language m)) ↔
      content.getLast? ≠ some '\n' ∧
        FirstBlockOk estimateTokens maxTokens content language f m := by
  have hm := h.ends.le
  have hlater := laterChunks_tiling h.ends
  rcases Nat.eq_zero_or_pos f with rfl | hf
  · have htile : LineTiling content language 0 (mergeFrom estimateTokens maxTokens
        (firstChunk content language 0 m (blockLineEnd content m))
        (laterChunks content language m)) := by
      rw [firstChunk_zero]
      exact mergeFrom_tiling _ _ ⟨m, h.ends.lt, hm, rfl, hlater⟩
    have hlt := h.ends.lt
    refine ⟨fun hcov => ⟨?_, .inl rfl⟩, fun hok => htile.covered hok.1⟩
    exact htile.newline (by omega) fun c hc => (hcov.numbers c hc).2
  · have hok : FirstBlockOk estimateTokens maxTokens content language f m ↔
        ((∀ line ∈ (splitInclusive content)[m - 1]?, line.all isWhiteSpace = true) ∧
          lineOffset (splitInclusive content) (m - 1) < firstStop content f m) ∧
        ∀ m', BlockEnd content language m m' →
          maxTokens < estimateTokens ((slice content 0 (firstStop content f m)).getD []) +
            estimateTokens (linesText content m m') := by
      rw [FirstBlockOk, and_assoc]
      exact or_iff_right (by omega)
    rw [hok]
    rcases Nat.lt_or_eq_of_le hm with hlt | hend
    · obtain ⟨m', hm'⟩ := @exists_blockEnd content language m hlt
      have hchunks : laterChunks content language m =
          blockChunk content language m m' (blockLineEnd content m') ::
            laterChunks content language m' := by
        rw [laterChunks, if_neg (by omega)]
        exact blockChunks_eq hm' rfl (Nat.lt_succ_self m) hm'.lt
      rw [hchunks]
      exact merged_covered_iff h hf hm'
    · have hnil : laterChunks content language m = [] := if_pos hend
      rw [hnil] at hlater ⊢
      rw [mergeFrom, shifted_covered_iff h hf hlater, and_congr_right_iff]
      refine fun _ => (and_iff_left fun m' hm' => ?_).symm
      have := hm'.lt
      have := hm'.le
      omega

/-- The chunks of a file are right exactly when its windows reach their last lines, or its first
block is in place and it does not end in a newline. -/
theorem code_covered (estimateTokens : List Char → Nat) (hpos : PositiveEstimate estimateTokens)
    (content : List Char) (path : String) (maxTokens overlapTokens : Nat) :
    (∃ chunks, (CodeChunker.mk maxTokens overlapTokens).chunk estimateTokens content path =
      some chunks ∧ FileCovered content chunks) ↔
        CodeCoverable estimateTokens maxTokens overlapTokens content (detectLanguage path) := by
  generalize hlang : detectLanguage path = language
  have hlines : (CodeChunker.mk maxTokens overlapTokens).chunkByLines estimateTokens content
      language = some ((lineWindows estimateTokens maxTokens overlapTokens 0 0 0
        (splitInclusive content)).1.map (windowChunk content language) ++
          lastWindow content language (lineWindows estimateTokens maxTokens overlapTokens 0 0 0
            (splitInclusive content)).2) := by
    rw [CodeChunker.chunkByLines, ← counted_of_ne_nil hpos lastWindow_ne_nil]
    exact lineLoop_eq rfl
  have hwindows := @lineWindows_windows estimateTokens maxTokens overlapTokens
    (splitInclusive content).length (splitInclusive content) 0 0 0 (Nat.zero_add _) rfl
  have hiff : (∃ chunks, (CodeChunker.mk maxTokens overlapTokens).chunkByLines estimateTokens
      content language = some chunks ∧ FileCovered content chunks) ↔ WindowsReach content
        overlapTokens (lineWindows estimateTokens maxTokens overlapTokens 0 0 0
          (splitInclusive content)) := by
    rw [hlines]
    simp only [Option.some.injEq, exists_eq_left']
    exact ⟨windowChunks_of_covered hwindows, windowChunks_covered hwindows⟩
  have hloop : structureLoop estimateTokens content language 0 0 0 false
      (splitInclusive content) = some (fileChunks content language 0 (splitInclusive content)) := by
    rw [← counted_of_ne_nil hpos fileChunks_ne_nil]
    exact structureLoop_eq rfl
  rw [CodeChunker.chunk, CodeCoverable, hlang]
  by_cases hstructured : structured language = true
  · rw [if_pos hstructured, CodeChunker.chunkByStructures, hloop]
    show (∃ chunks, (if (fileChunks content language 0 (splitInclusive content)).isEmpty then _
      else some _) = some chunks ∧ _) ↔ _
    by_cases hstart : ∃ line ∈ splitInclusive content, isStructureLine language line = true
    · obtain ⟨line, hmem, hline⟩ := hstart
      obtain ⟨f, m, hfirst⟩ := exists_firstBlock hmem hline
      have hfile : structured language = true ∧
          ∃ line ∈ splitInclusive content, isStructureLine language line = true :=
        ⟨hstructured, line, hmem, hline⟩
      rw [if_pos hfile]
      have hblock {f m : Nat} (h : FirstBlock content language f m) :
          (∃ chunks, (if (fileChunks content language 0 (splitInclusive content)).isEmpty then
              (CodeChunker.mk maxTokens overlapTokens).chunkByLines estimateTokens content language
            else some (mergeSmallChunks estimateTokens maxTokens
              (fileChunks content language 0 (splitInclusive content)))) = some chunks ∧
                FileCovered content chunks) ↔ content.getLast? ≠ some '\n' ∧
                  FirstBlockOk estimateTokens maxTokens content language f m := by
        rw [@fileChunks_eq content language f m h (splitInclusive content) 0 rfl (Nat.zero_le f),
          List.isEmpty_cons, if_neg Bool.false_ne_true]
        simp only [Option.some.injEq, exists_eq_left']
        exact structures_covered_iff h
      exact ⟨fun hcov => ⟨((hblock hfirst).mp hcov).1, fun f m h => ((hblock h).mp hcov).2⟩,
        fun hok => (hblock hfirst).mpr ⟨hok.1, hok.2 f m hfirst⟩⟩
    · have hnone : fileChunks content language 0 (splitInclusive content) = [] := by
        refine fileChunks_nil (fun line hmem => ?_) 0
        rw [Bool.eq_false_iff]
        exact fun hline => hstart ⟨line, hmem, hline⟩
      have hfile : ¬ (structured language = true ∧
          ∃ line ∈ splitInclusive content, isStructureLine language line = true) :=
        fun h => hstart h.2
      rw [if_neg hfile, hnone]
      exact hiff
  · rw [if_neg hstructured, if_neg (fun h => hstructured h.1)]
    exact hiff

end File

/-- The block of the second line is taken from the start of the file. -/
theorem code_covered_not :
    ((CodeChunker.mk 512 0).chunk List.length "use a;\nfn f() {}".toList "a.rs").map
        (·.map fun c => (c.offsetStart, c.offsetEnd)) = some [(0, 9)] ∧
    ¬ ∀ (estimateTokens : List Char → Nat), PositiveEstimate estimateTokens →
      ∀ (content : List Char) (path : String) (maxTokens overlapTokens : Nat), 1 ≤ maxTokens →
        ∃ chunks, (CodeChunker.mk maxTokens overlapTokens).chunk estimateTokens content path =
          some chunks ∧ FileCovered content chunks := by
  have hrun : ((CodeChunker.mk 512 0).chunk List.length "use a;\nfn f() {}".toList "a.rs").map
      (·.map fun c => (c.offsetStart, c.offsetEnd)) = some [(0, 9)] := by decide
  refine ⟨hrun, fun h => ?_⟩
  obtain ⟨chunks, hchunks, hcov⟩ := h List.length (fun _ hne => List.length_pos_iff.mpr hne)
    "use a;\nfn f() {}".toList "a.rs" 512 0 (by decide)
  obtain ⟨c, hc, -, hend⟩ := hcov.covered 1 "fn f() {}".toList (by decide) (by decide)
  rw [hchunks, Option.map_some, Option.some.injEq] at hrun
  have hoffsets := List.mem_map_of_mem (f := fun c : RawChunk => (c.offsetStart, c.offsetEnd)) hc
  rw [hrun, List.mem_singleton, Prod.mk.injEq] at hoffsets
  rw [hoffsets.2] at hend
  revert hend
  decide

theorem code_covered_first_line :
    ∃ chunks, (CodeChunker.mk 512 0).chunk List.length "fn f() {}\nfn g() {}".toList "a.rs" =
      some chunks ∧ FileCovered "fn f() {}\nfn g() {}".toList chunks := by
  refine (code_covered List.length (fun _ hne => List.length_pos_iff.mpr hne) _ "a.rs" 512 0).mpr ?_
  have hlines : splitInclusive "fn f() {}\nfn g() {}".toList =
      ["fn f() {}\n".toList, "fn g() {}".toList] := by decide
  rw [CodeCoverable, hlines, if_pos (by decide)]
  refine ⟨by decide, fun f m h => .inl ?_⟩
  by_contra hf
  have hbefore := h.before 0 "fn f() {}\n".toList (Nat.pos_of_ne_zero hf) (by decide)
  revert hbefore
  decide

end Arags.Embedding
