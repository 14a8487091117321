import Arags.Embedding.LineWindows

/-!
# Arags.Embedding.StructureBlocks

The code chunker by structures: what its blocks are.

* `fileChunks`  — the chunks that the loop makes; `structureLoop_eq`. The first block has its
  length from its lines, and its place from the start of the file.
* `LineTiling`  — chunks of whole lines, one after the other; merging keeps it.
-/

namespace Arags.Embedding

open Text

/-! ## Structure lines -/

def isStructureLine (language : Option String) (line : List Char) : Bool :=
  isStructureStart (trimChars line) language

theorem length_structureStarts (l : String) : ∀ pat ∈ structureStarts l,
    4 ≤ pat.toList.length ∨ pat = "fn " := by
  unfold structureStarts
  split <;> decide

theorem find_length {pat : List Char} : ∀ {s : List Char}, (find pat s).isSome = true →
    pat.length ≤ s.length := by
  intro s
  induction s with
  | nil =>
    intro h
    rw [find] at h
    split at h
    · rename_i hempty
      rw [List.isEmpty_iff.mp hempty]
    · cases h
  | cons c s ih =>
    intro h
    rw [find] at h
    split at h
    · rename_i hpre
      exact (List.isPrefixOf_iff_prefix.mp hpre).length_le
    · rw [Option.isSome_map] at h
      exact Nat.le_succ_of_le (ih h)

theorem trimChars_getLast (s : List Char) : ∀ c ∈ (trimChars s).getLast?,
    isWhiteSpace c = false := by
  intro c hc
  rw [trimChars, List.getLast?_reverse] at hc
  have := List.head?_dropWhile_not isWhiteSpace (s.dropWhile isWhiteSpace).reverse
  rw [Option.mem_def.mp hc] at this
  simpa using this

/-- No structure is opened in fewer than four bytes. -/
theorem structureLine_length {language : Option String} {line : List Char}
    (h : isStructureLine language line = true) : 4 ≤ byteLen line := by
  have hlen : 4 ≤ (trimChars line).length := by
    unfold isStructureLine at h
    cases language with
    | none => cases h
    | some l =>
      rw [isStructureStart, Bool.or_eq_true] at h
      rcases h with h | h
      · obtain ⟨pat, hpat, hpre⟩ := List.any_eq_true.mp h
        obtain ⟨r, hr⟩ := List.isPrefixOf_iff_prefix.mp hpre
        rcases length_structureStarts l pat hpat with hlong | rfl
        · rw [← hr, List.length_append]
          omega
        · cases r with
          | nil =>
            have := trimChars_getLast line ' ' (by rw [← hr]; rfl)
            cases this
          | cons c r =>
            rw [← hr]
            simp
      · simp only [Bool.and_eq_true] at h
        exact Nat.le_trans (by decide) (find_length h.1.2)
  exact Nat.le_trans hlen (Nat.le_trans (trimChars_sublist line).length_le (length_le_byteLen line))

/-! ## Chunks of blocks -/

section Blocks

variable (content : List Char) (language : Option String)

/-- The lines from `n` up to `m`, which is not among them. -/
def linesText (n m : Nat) : List Char := (((splitInclusive content).take m).drop n).flatten

/-- A block of whole lines. -/
def blockChunk (n m lineEnd : Nat) : RawChunk :=
  codeChunk "structure" language (lineOffset (splitInclusive content) n)
    (lineOffset (splitInclusive content) m) (n + 1) lineEnd (linesText content n m)

/-- The chunk of the first block, of the lines from `f` up to `m`: at the start of the file. -/
def firstStop (f m : Nat) : Nat := prevCharBoundary content
  (lineOffset (splitInclusive content) m - lineOffset (splitInclusive content) f)

def firstChunk (f m lineEnd : Nat) : RawChunk :=
  codeChunk "structure" language 0 (firstStop content f m) 1 lineEnd
    ((slice content 0 (firstStop content f m)).getD [])

/-- The blocks of the lines from `i` on, while the block of line `n` is open. -/
def blockChunks : Nat → Nat → List (List Char) → List RawChunk
  | n, i, [] => [blockChunk content language n i (splitCount content)]
  | n, i, line :: lines =>
    if isStructureLine language line then
      blockChunk content language n i i :: blockChunks i (i + 1) lines
    else blockChunks n (i + 1) lines

/-- The same while the first block, of line `f`, is open. -/
def firstChunks : Nat → Nat → List (List Char) → List RawChunk
  | f, i, [] => [firstChunk content language f i (splitCount content)]
  | f, i, line :: lines =>
    if isStructureLine language line then
      firstChunk content language f i i :: blockChunks content language i (i + 1) lines
    else firstChunks f (i + 1) lines

def fileChunks : Nat → List (List Char) → List RawChunk
  | _, [] => []
  | i, line :: lines =>
    if isStructureLine language line then firstChunks content language i (i + 1) lines
    else fileChunks (i + 1) lines

variable {content language} {estimateTokens : List Char → Nat}

theorem linesText_slice {n m : Nat} (h : n ≤ m) : slice content
    (lineOffset (splitInclusive content) n) (lineOffset (splitInclusive content) m) =
      some (linesText content n m) := by
  have hsplit : ((splitInclusive content).take m).flatten =
      ((splitInclusive content).take n).flatten ++ linesText content n m := by
    rw [linesText, ← List.flatten_append]
    conv_lhs => rw [← List.take_append_drop n ((splitInclusive content).take m)]
    rw [List.take_take, Nat.min_eq_left h]
  refine slice_mid (p := ((splitInclusive content).take n).flatten)
    (q := ((splitInclusive content).drop m).flatten) ?_ rfl ?_
  · rw [← List.append_assoc, ← hsplit]
    exact lineOffset_split m
  · rw [lineOffset, lineOffset, hsplit, byteLen_append]

theorem structureChunk_eq {s e stop lineEnd : Nat} {pre text : List Char}
    (hstop : prevCharBoundary content e = stop) (htext : slice content s stop = some text)
    (hpre : slice content 0 s = some pre) :
    structureChunk estimateTokens content language s e lineEnd = some (counted estimateTokens
      [codeChunk "structure" language s stop (pre.count '\n' + 1) lineEnd text]) := by
  unfold structureChunk byteStartLine
  simp only [hstop, htext, hpre, Option.map_some, Option.bind_eq_bind, Option.bind_some,
    Option.pure_def]
  rw [counted, List.filter_cons, List.filter_nil]
  simp only [decide_eq_true_eq]
  show (if 0 < estimateTokens text then _ else _) = some (if 0 < estimateTokens text then _ else _)
  split <;> rfl

theorem count_newline_take {s : List Char} {n : Nat} (hn : n < (splitInclusive s).length) :
    ((splitInclusive s).take n).flatten.count '\n' = n := by
  cases n with
  | zero => rfl
  | succ n =>
    induction s generalizing n with
    | nil => exact absurd hn (Nat.not_lt_zero _)
    | cons c s ih =>
      rw [splitInclusive_cons] at hn ⊢
      by_cases hc : c = '\n'
      · rw [if_pos hc] at hn ⊢
        rw [List.take_succ_cons, List.flatten_cons, List.count_append, hc]
        cases n with
        | zero => rfl
        | succ n =>
          rw [ih n (by simpa using hn)]
          exact Nat.add_comm _ _
      · rw [if_neg hc] at hn ⊢
        cases hlines : splitInclusive s with
        | nil =>
          rw [hlines] at hn
          exact absurd hn (by simp)
        | cons l ls =>
          rw [hlines] at hn
          have hrec := ih n (by rw [hlines]; exact hn)
          rw [hlines, List.take_succ_cons, List.flatten_cons] at hrec
          dsimp only
          rw [List.take_succ_cons, List.flatten_cons, List.cons_append,
            List.count_cons_of_ne hc, hrec]

theorem structureChunk_block {n m : Nat} (lineEnd : Nat) (h : n < m)
    (hm : m ≤ (splitInclusive content).length) :
    structureChunk estimateTokens content language (lineOffset (splitInclusive content) n)
      (lineOffset (splitInclusive content) m) lineEnd =
        some (counted estimateTokens [blockChunk content language n m lineEnd]) := by
  have hslice := @linesText_slice content n m (Nat.le_of_lt h)
  have hpre : slice content 0 (lineOffset (splitInclusive content) n) =
      some ((splitInclusive content).take n).flatten := slice_front (lineOffset_split n) rfl
  rw [structureChunk_eq (prevCharBoundary_of_boundary (lineOffset_boundary m)) hslice hpre,
    count_newline_take (by omega)]
  rfl

theorem counted_cons (c : RawChunk) (cs : List RawChunk) : counted estimateTokens [c] ++
    counted estimateTokens cs = counted estimateTokens (c :: cs) :=
  (List.filter_append [c] cs).symm

/-- Chunks for the lines from `i` on, in a file of which these are the last. -/
theorem structureLoop_blocks {lines : List (List Char)} :
    ∀ {n i : Nat}, lines = (splitInclusive content).drop i → n < i →
      i ≤ (splitInclusive content).length →
        structureLoop estimateTokens content language i (lineOffset (splitInclusive content) n)
          (lineOffset (splitInclusive content) i) true lines =
            some (counted estimateTokens (blockChunks content language n i lines)) := by
  induction lines with
  | nil =>
    intro n i hlines hn hi
    have hlt := lineOffset_lt (@split_lines_ne_nil content) hn (by omega)
    rw [structureLoop, if_pos ⟨rfl, hlt⟩, structureChunk_block _ hn hi]
    rfl
  | cons line lines ih =>
    intro n i hlines hn hi
    have hlt := lineOffset_lt (@split_lines_ne_nil content) hn (by omega)
    obtain ⟨hline, hrest⟩ := drop_cons hlines
    have hi' := (List.getElem?_eq_some_iff.mp hline).1
    rw [structureLoop, blockChunks]
    dsimp only
    rw [nthLineByteOffset_eq, ← lineOffset, ← lineOffset_succ hline]
    by_cases hstart : isStructureLine language line = true
    · rw [if_pos ⟨hstart, rfl, hlt⟩, if_pos hstart, structureChunk_block _ hn hi]
      show (structureLoop _ _ _ _ _ _ _ lines).bind _ = _
      rw [ih hrest (Nat.lt_succ_self i) hi']
      exact congrArg some (counted_cons _ _)
    · rw [if_neg (fun h => hstart h.1), if_pos (.inr rfl), if_neg hstart]
      exact ih hrest (by omega) hi'

theorem firstStop_boundary (f m : Nat) : isCharBoundary content (firstStop content f m) = true :=
  prevCharBoundary_boundary _ _

theorem firstChunk_slice (f m lineEnd : Nat) :
    slice content 0 (firstStop content f m) =
      some (firstChunk content language f m lineEnd).content := by
  obtain ⟨text, htext⟩ := Option.isSome_iff_exists.mp (slice_isSome_iff.mpr
    ⟨Nat.zero_le (firstStop content f m), isCharBoundary_zero content, firstStop_boundary f m⟩)
  show slice content 0 (firstStop content f m) =
    some ((slice content 0 (firstStop content f m)).getD [])
  rw [htext]
  rfl

/-- The first chunk has a character: they take four bytes at most. -/
theorem firstChunk_ne_nil {f m : Nat} (lineEnd : Nat) {line : List Char}
    (hline : (splitInclusive content)[f]? = some line)
    (hstart : isStructureLine language line = true) (h : f < m) :
    (firstChunk content language f m lineEnd).content ≠ [] := by
  have hlen := structureLine_length hstart
  have hoff := lineOffset_succ hline
  have hnext : lineOffset (splitInclusive content) (f + 1) ≤
      lineOffset (splitInclusive content) m := lineOffset_mono h
  obtain ⟨-, -, -, -, hstop⟩ := slice_eq_some.mp
    (@firstChunk_slice content language f m lineEnd)
  intro hnil
  rw [hnil, byteLen_nil] at hstop
  cases hcontent : content with
  | nil =>
    rw [hcontent] at hline
    cases hline
  | cons c s =>
    have hc4 := c.utf8Size_le_four
    have hc := c.utf8Size_pos
    have hb : isCharBoundary content c.utf8Size = true := by
      rw [hcontent, show c.utf8Size = byteLen [c] by simp]
      exact isCharBoundary_append [c] s
    have hle : c.utf8Size ≤ firstStop content f m := le_prevCharBoundary hb (by omega)
    omega

theorem structureChunk_first (f m lineEnd : Nat) :
    structureChunk estimateTokens content language 0
      (lineOffset (splitInclusive content) m - lineOffset (splitInclusive content) f) lineEnd =
        some (counted estimateTokens [firstChunk content language f m lineEnd]) := by
  have hpre : slice content 0 0 = some [] := slice_front (List.nil_append content).symm rfl
  rw [structureChunk_eq rfl (@firstChunk_slice content language f m lineEnd) hpre]
  rfl

theorem structureLoop_first {f : Nat} {lines : List (List Char)} :
    ∀ {i : Nat}, lines = (splitInclusive content).drop i → f < i →
      i ≤ (splitInclusive content).length →
        structureLoop estimateTokens content language i 0
          (lineOffset (splitInclusive content) i - lineOffset (splitInclusive content) f) true
            lines = some (counted estimateTokens (firstChunks content language f i lines)) := by
  induction lines with
  | nil =>
    intro i hlines hf hi
    have hlt := lineOffset_lt (@split_lines_ne_nil content) hf (by omega)
    rw [structureLoop, if_pos ⟨rfl, by omega⟩, structureChunk_first]
    rfl
  | cons line lines ih =>
    intro i hlines hf hi
    have hlt := lineOffset_lt (@split_lines_ne_nil content) hf (by omega)
    obtain ⟨hline, hrest⟩ := drop_cons hlines
    have hi' := (List.getElem?_eq_some_iff.mp hline).1
    have hnext := lineOffset_succ hline
    rw [structureLoop, firstChunks]
    dsimp only
    by_cases hnew : isStructureLine language line = true
    · rw [if_pos ⟨hnew, rfl, by omega⟩, if_pos hnew, structureChunk_first,
        nthLineByteOffset_eq, ← lineOffset, ← hnext]
      show (structureLoop _ _ _ _ _ _ _ lines).bind _ = _
      rw [structureLoop_blocks hrest (Nat.lt_succ_self i) hi']
      exact congrArg some (counted_cons _ _)
    · rw [if_neg (fun h => hnew h.1), if_pos (.inr rfl), if_neg hnew,
        show lineOffset (splitInclusive content) i - lineOffset (splitInclusive content) f +
          byteLen line = lineOffset (splitInclusive content) (i + 1) -
            lineOffset (splitInclusive content) f by omega]
      exact ih hrest (by omega) hi'

/-- The loop over the whole file. -/
theorem structureLoop_eq {lines : List (List Char)} :
    ∀ {i : Nat}, lines = (splitInclusive content).drop i →
      structureLoop estimateTokens content language i 0 0 false lines =
        some (counted estimateTokens (fileChunks content language i lines)) := by
  induction lines with
  | nil =>
    intro i _
    rw [structureLoop, if_neg (fun h => Bool.false_ne_true h.1)]
    rfl
  | cons line lines ih =>
    intro i hlines
    obtain ⟨hline, hrest⟩ := drop_cons hlines
    have hi' := (List.getElem?_eq_some_iff.mp hline).1
    rw [structureLoop, fileChunks]
    dsimp only
    rw [if_neg (fun h => Bool.false_ne_true h.2.1)]
    by_cases hstart : isStructureLine language line = true
    · rw [if_pos (.inl hstart), if_pos hstart, Nat.zero_add,
        ← structureLoop_first hrest (Nat.lt_succ_self i) hi',
        lineOffset_succ hline, Nat.add_sub_cancel_left]
    · rw [if_neg (by rintro (h | h); exacts [hstart h, Bool.false_ne_true h]),
        if_neg (fun h => Bool.false_ne_true h.2), if_neg hstart]
      exact ih hrest

end Blocks

end Arags.Embedding
