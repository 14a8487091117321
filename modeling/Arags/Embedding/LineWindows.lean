import Arags.Embedding.CodeChunker

/-!
# Arags.Embedding.LineWindows

The code chunker by lines: what its windows cover.

* `FileCovered`  — every line that is not blank is in a chunk, chunks are slices at their offsets
  and carry the numbers of their lines.
* `lineWindows`  — which windows of lines the loop closes.
* `lines_covered_iff` — for which files the chunks are right.
-/

namespace Arags.Embedding

open Text

/-! ## Lines of a file -/

/-- Where line `j` starts; the end of the file from its last line on. -/
def lineOffset (ls : List (List Char)) (j : Nat) : Nat := byteLen (ls.take j).flatten

/-- The 1-based number of the line that a byte is in. -/
def lineNumber : List (List Char) → Nat → Nat
  | [], _ => 1
  | l :: ls, o => if o < byteLen l then 1 else 1 + lineNumber ls (o - byteLen l)

structure FileCovered (content : List Char) (chunks : List RawChunk) : Prop where
  covered : ∀ j line, (splitInclusive content)[j]? = some line → line.all isWhiteSpace = false →
    ∃ c ∈ chunks, c.offsetStart ≤ lineOffset (splitInclusive content) j ∧
      lineOffset (splitInclusive content) (j + 1) ≤ c.offsetEnd
  slices : ∀ c ∈ chunks, slice content c.offsetStart c.offsetEnd = some c.content
  numbers : ∀ c ∈ chunks, c.lineStart = lineNumber (splitInclusive content) c.offsetStart ∧
    c.lineEnd = lineNumber (splitInclusive content) (c.offsetEnd - 1)

section Lines

variable {ls : List (List Char)}

theorem lineOffset_succ {j : Nat} {line : List Char} (h : ls[j]? = some line) :
    lineOffset ls (j + 1) = lineOffset ls j + byteLen line := by
  obtain ⟨hj, rfl⟩ := List.getElem?_eq_some_iff.mp h
  rw [lineOffset, List.take_add_one, List.getElem?_eq_getElem hj, List.flatten_append,
    byteLen_append]
  simp [lineOffset]

theorem lineOffset_mono {i j : Nat} (h : i ≤ j) : lineOffset ls i ≤ lineOffset ls j := by
  obtain ⟨k, rfl⟩ := Nat.exists_eq_add_of_le h
  rw [lineOffset, lineOffset, List.take_add, List.flatten_append, byteLen_append]
  exact Nat.le_add_right _ _

theorem lineOffset_of_le {j : Nat} (h : ls.length ≤ j) : lineOffset ls j = byteLen ls.flatten := by
  rw [lineOffset, List.take_of_length_le h]

theorem lineOffset_lt (hne : ∀ l ∈ ls, l ≠ []) {i j : Nat} (h : i < j) (hi : i < ls.length) :
    lineOffset ls i < lineOffset ls j := by
  have hstep := lineOffset_succ (List.getElem?_eq_getElem hi)
  have hpos := byteLen_pos (hne _ (List.getElem_mem hi))
  have hnext : lineOffset ls (i + 1) ≤ lineOffset ls j := lineOffset_mono (Nat.succ_le_of_lt h)
  omega

theorem lineOffset_cons_succ (l : List Char) (j : Nat) :
    lineOffset (l :: ls) (j + 1) = byteLen l + lineOffset ls j := by
  rw [lineOffset, List.take_succ_cons, List.flatten_cons, byteLen_append]
  rfl

theorem lineNumber_pos (ls : List (List Char)) (o : Nat) : 1 ≤ lineNumber ls o := by
  cases ls with
  | nil => exact Nat.le_refl 1
  | cons l ls =>
    rw [lineNumber]
    split <;> omega

theorem lineNumber_iff {j o : Nat} (ho : o < byteLen ls.flatten) :
    lineNumber ls o = j + 1 ↔ lineOffset ls j ≤ o ∧ o < lineOffset ls (j + 1) := by
  induction ls generalizing j o with
  | nil => exact absurd ho (Nat.not_lt_zero o)
  | cons l ls ih =>
    rw [List.flatten_cons, byteLen_append] at ho
    rw [lineNumber, lineOffset_cons_succ]
    by_cases hin : o < byteLen l
    · rw [if_pos hin]
      cases j with
      | zero => simp [lineOffset]; omega
      | succ j =>
        rw [lineOffset_cons_succ]
        omega
    · rw [if_neg hin]
      have hpos := lineNumber_pos ls (o - byteLen l)
      cases j with
      | zero => simp [lineOffset]; omega
      | succ j =>
        have := @ih j (o - byteLen l) (by omega)
        rw [lineOffset_cons_succ]
        omega

theorem lineNumber_le {o : Nat} (ho : o < byteLen ls.flatten) : lineNumber ls o ≤ ls.length := by
  obtain ⟨j, hj⟩ : ∃ j, lineNumber ls o = j + 1 :=
    ⟨lineNumber ls o - 1, by have := lineNumber_pos ls o; omega⟩
  have hoff := (lineNumber_iff ho).mp hj
  by_contra hlt
  rw [lineOffset_of_le (by omega)] at hoff
  omega

end Lines

/-- The end of a file by `split`, one line more than there are when the file ends in a newline. -/
theorem splitCount_eq (content : List Char) : splitCount content =
    (splitInclusive content).length +
      if content = [] ∨ content.getLast? = some '\n' then 1 else 0 :=
  length_split_newline content

/-! ## Windows -/

/-- The windows that are closed, each by its first and last line, and where the last one starts. -/
def lineWindows (estimateTokens : List Char → Nat) (maxTokens overlapTokens : Nat) :
    Nat → Nat → Nat → List (List Char) → List (Nat × Nat) × Nat
  | _, lineStart, _, [] => ([], lineStart)
  | i, lineStart, currentLines, line :: lines =>
    if maxTokens < currentLines + 1 + estimateTokens line ∧ 1 < currentLines + 1 then
      let rest := lineWindows estimateTokens maxTokens overlapTokens (i + 1)
        (i + 1 - min overlapTokens currentLines) (min overlapTokens currentLines) lines
      ((lineStart, i) :: rest.1, rest.2)
    else
      lineWindows estimateTokens maxTokens overlapTokens (i + 1) lineStart (currentLines + 1) lines

/-- Of `n` lines, those from `first` on, when line `i` is next. -/
structure Windows (overlapTokens n first i : Nat) (r : List (Nat × Nat) × Nat) : Prop where
  inside : ∀ w ∈ r.1, first ≤ w.1 ∧ w.1 < w.2 ∧ i ≤ w.2 ∧ w.2 < n
  last_ge : first ≤ r.2
  cover : ∀ j, first ≤ j → j < n → (∃ w ∈ r.1, w.1 ≤ j ∧ j < w.2) ∨
    (overlapTokens = 0 ∧ ∃ w ∈ r.1, w.2 = j) ∨ r.2 ≤ j
  apart : overlapTokens = 0 → ∀ w ∈ r.1, w.2 < r.2 ∧
    ∀ w' ∈ r.1, w = w' ∨ w.2 < w'.1 ∨ w'.2 < w.1

theorem lineWindows_windows (estimateTokens : List Char → Nat) (maxTokens overlapTokens : Nat)
    {n : Nat} {lines : List (List Char)} : ∀ {i first currentLines : Nat},
      i + lines.length = n → first + currentLines = i →
        Windows overlapTokens n first i
          (lineWindows estimateTokens maxTokens overlapTokens i first currentLines lines) := by
  induction lines with
  | nil =>
    intro i first currentLines hn hfirst
    rw [List.length_nil] at hn
    exact ⟨by simp [lineWindows], Nat.le_refl _, fun j hj hjn => .inr (.inr hj),
      by simp [lineWindows]⟩
  | cons line lines ih =>
    intro i first currentLines hn hfirst
    rw [List.length_cons] at hn
    rw [lineWindows]
    split
    · rename_i hclose
      have hrest := @ih (i + 1) (i + 1 - min overlapTokens currentLines)
        (min overlapTokens currentLines) (by omega) (by omega)
      refine ⟨List.forall_mem_cons.mpr ⟨⟨Nat.le_refl _, by omega, Nat.le_refl _, by omega⟩,
        fun w hw => ?_⟩, ?_, fun j hj hjn => ?_, fun hzero => List.forall_mem_cons.mpr
          ⟨⟨?_, List.forall_mem_cons.mpr ⟨.inl rfl, fun w hw => ?_⟩⟩, fun w hw =>
            ⟨(hrest.apart hzero w hw).1, List.forall_mem_cons.mpr
              ⟨?_, (hrest.apart hzero w hw).2⟩⟩⟩⟩
      · have := hrest.inside w hw
        omega
      · have := hrest.last_ge
        dsimp only
        omega
      · rcases Nat.lt_trichotomy j i with hlt | rfl | hgt
        · exact .inl ⟨(first, i), List.mem_cons_self, hj, hlt⟩
        · by_cases hzero : overlapTokens = 0
          · exact .inr (.inl ⟨hzero, (first, j), List.mem_cons_self, rfl⟩)
          · -- the overlap takes this line into the next window
            rcases hrest.cover j (by omega) hjn with ⟨w, hw, hin⟩ | ⟨hz, -⟩ | hlast
            · exact .inl ⟨w, List.mem_cons_of_mem _ hw, hin⟩
            · exact absurd hz hzero
            · exact .inr (.inr hlast)
        · rcases hrest.cover j (by omega) hjn with ⟨w, hw, hin⟩ | ⟨hz, w, hw, hin⟩ | hlast
          · exact .inl ⟨w, List.mem_cons_of_mem _ hw, hin⟩
          · exact .inr (.inl ⟨hz, w, List.mem_cons_of_mem _ hw, hin⟩)
          · exact .inr (.inr hlast)
      · have := hrest.last_ge
        dsimp only
        omega
      · have := (hrest.inside w hw).1
        dsimp only
        omega
      · have := (hrest.inside w hw).1
        dsimp only
        omega
    · have hrest := @ih (i + 1) first (currentLines + 1) (by omega) (by omega)
      exact ⟨fun w hw => by have := hrest.inside w hw; omega, hrest.last_ge, hrest.cover,
        hrest.apart⟩

/-! ## Chunks of windows -/

section Chunks

variable (estimateTokens : List Char → Nat) (content : List Char) (language : Option String)

/-- Where the chunk of a window ends: as many bytes after its start as its last line has. -/
def windowStop (w : Nat × Nat) : Nat :=
  prevCharBoundary content (lineOffset (splitInclusive content) w.1 +
    byteLen ((splitInclusive content)[w.2]?.getD []))

def windowChunk (w : Nat × Nat) : RawChunk :=
  codeChunk "lines" language (lineOffset (splitInclusive content) w.1) (windowStop content w)
    (w.1 + 1) (w.2 + 1) ((slice content (lineOffset (splitInclusive content) w.1)
      (windowStop content w)).getD [])

/-- The last window takes all that is left. -/
def lastWindow (first : Nat) : List RawChunk :=
  if lineOffset (splitInclusive content) first < byteLen content then
    [codeChunk "lines" language (lineOffset (splitInclusive content) first) (byteLen content)
      (first + 1) (splitCount content)
      ((splitInclusive content).drop first).flatten]
  else []

/-- Chunks without a token are left out. -/
def counted (chunks : List RawChunk) : List RawChunk :=
  chunks.filter fun c => 0 < estimateTokens c.content

variable {estimateTokens content language}

theorem counted_of_ne_nil (hpos : PositiveEstimate estimateTokens) {chunks : List RawChunk}
    (h : ∀ c ∈ chunks, c.content ≠ []) : counted estimateTokens chunks = chunks := by
  rw [counted, List.filter_eq_self]
  exact fun c hc => decide_eq_true (hpos _ (h c hc))

theorem lineOffset_split (j : Nat) : content =
    ((splitInclusive content).take j).flatten ++ ((splitInclusive content).drop j).flatten := by
  rw [← List.flatten_append, List.take_append_drop, flatten_splitInclusive]

theorem lineOffset_boundary (j : Nat) :
    isCharBoundary content (lineOffset (splitInclusive content) j) = true := by
  have := nthLineByteOffset_boundary content j
  rwa [nthLineByteOffset_eq] at this

theorem drop_cons {i : Nat} {line : List Char} {lines : List (List Char)}
    (h : line :: lines = (splitInclusive content).drop i) :
    (splitInclusive content)[i]? = some line ∧ lines = (splitInclusive content).drop (i + 1) := by
  refine ⟨?_, ?_⟩
  · rw [← List.head?_drop, ← h]
    rfl
  · rw [← List.tail_drop, ← h]
    rfl

theorem lineLoop_eq {maxTokens overlapTokens : Nat}
    {lines : List (List Char)} : ∀ {i first currentLines : Nat},
      lines = (splitInclusive content).drop i →
        lineLoop estimateTokens content language maxTokens overlapTokens i first
            (lineOffset (splitInclusive content) first) currentLines lines =
          some ((lineWindows estimateTokens maxTokens overlapTokens i first currentLines
              lines).1.map (windowChunk content language) ++
            counted estimateTokens (lastWindow content language (lineWindows estimateTokens
              maxTokens overlapTokens i first currentLines lines).2)) := by
  induction lines with
  | nil =>
    intro i first currentLines _
    rw [lineLoop, lineWindows, lastWindow]
    split
    · rename_i hlt
      have hlen := congrArg byteLen (@lineOffset_split content first)
      rw [byteLen_append] at hlen
      change byteLen content = lineOffset (splitInclusive content) first + _ at hlen
      have hslice : slice content (lineOffset (splitInclusive content) first) (byteLen content) =
          some ((splitInclusive content).drop first).flatten :=
        slice_mid (q := []) (by rw [List.append_nil]; exact lineOffset_split first) rfl hlen.symm
      rw [hslice]
      show some (if _ then _ else _) = some ([] ++ List.filter _ [_])
      rw [List.nil_append, List.filter_cons, List.filter_nil]
      simp only [decide_eq_true_eq]
      rfl
    · rfl
  | cons line lines ih =>
    intro i first currentLines hlines
    obtain ⟨hline, hrest⟩ := drop_cons hlines
    rw [lineLoop, lineWindows]
    split
    · have hstop : prevCharBoundary content (lineOffset (splitInclusive content) first +
          byteLen line) = windowStop content (first, i) := by
        rw [windowStop, hline]
        rfl
      obtain ⟨text, htext⟩ := Option.isSome_iff_exists.mp (slice_isSome_iff.mpr
        ⟨le_prevCharBoundary (lineOffset_boundary first) (Nat.le_add_right _ (byteLen line)),
          lineOffset_boundary first, prevCharBoundary_boundary content _⟩)
      dsimp only
      rw [nthLineByteOffset_eq, htext]
      show (lineLoop _ _ _ _ _ _ _ (lineOffset _ _) _ lines).bind _ = _
      rw [ih hrest, List.map_cons, windowChunk, ← hstop, htext]
      rfl
    · exact ih hrest

theorem lastWindow_ne_nil {first : Nat} : ∀ c ∈ lastWindow content language first,
    c.content ≠ [] := by
  intro c hc
  rw [lastWindow] at hc
  split at hc
  · rename_i hlt
    obtain rfl := List.mem_singleton.mp hc
    intro hnil
    have hall := @lineOffset_split content first
    rw [show ((splitInclusive content).drop first).flatten = [] from hnil, List.append_nil] at hall
    exact absurd hlt (by rw [lineOffset, ← hall]; exact Nat.lt_irrefl _)
  · cases hc

variable (content) in
/-- The bytes that a window's chunk takes reach its last line, which is blank unless the next window
has it too; and where something is left at the end, it does not end in a newline. -/
structure WindowsReach (overlapTokens : Nat) (r : List (Nat × Nat) × Nat) : Prop where
  reach : ∀ w ∈ r.1, lineOffset (splitInclusive content) w.2 < windowStop content w
  kept : overlapTokens = 0 → ∀ w ∈ r.1, ∀ line ∈ (splitInclusive content)[w.2]?,
    line.all isWhiteSpace = true
  newline : lineOffset (splitInclusive content) r.2 < byteLen content →
    content.getLast? ≠ some '\n'

theorem windowStop_le {w : Nat × Nat} {line : List Char}
    (hline : (splitInclusive content)[w.2]? = some line) :
    windowStop content w ≤ lineOffset (splitInclusive content) w.1 + byteLen line := by
  rw [windowStop, hline]
  exact prevCharBoundary_le _ _

theorem lineOffset_last {j : Nat} (h : (splitInclusive content).length ≤ j) :
    lineOffset (splitInclusive content) j = byteLen content := by
  rw [lineOffset_of_le h, flatten_splitInclusive]

theorem split_lines_ne_nil : ∀ l ∈ splitInclusive content, l ≠ [] :=
  fun _ hl => ne_nil_of_mem_splitInclusive hl

/-- The number of the line at a byte of a file. -/
theorem fileLine_iff {j o : Nat} (ho : o < byteLen content) :
    lineNumber (splitInclusive content) o = j + 1 ↔
      lineOffset (splitInclusive content) j ≤ o ∧
        o < lineOffset (splitInclusive content) (j + 1) :=
  lineNumber_iff (by rwa [flatten_splitInclusive])

theorem windowChunks_of_covered {overlapTokens : Nat} {r : List (Nat × Nat) × Nat}
    (hr : Windows overlapTokens (splitInclusive content).length 0 0 r)
    (h : FileCovered content
      (r.1.map (windowChunk content language) ++ lastWindow content language r.2)) :
    WindowsReach content overlapTokens r := by
  have hmem {w : Nat × Nat} (hw : w ∈ r.1) : windowChunk content language w ∈
      r.1.map (windowChunk content language) ++ lastWindow content language r.2 :=
    List.mem_append_left _ (List.mem_map_of_mem hw)
  have hstart {w : Nat × Nat} (hw : w ∈ r.1) : lineOffset (splitInclusive content) w.1 <
      lineOffset (splitInclusive content) w.2 := by
    obtain ⟨-, hlt, -, hn⟩ := hr.inside w hw
    exact lineOffset_lt split_lines_ne_nil hlt (by omega)
  refine ⟨fun w hw => ?_, fun hzero w hw line hline => ?_, fun hlt hnl => ?_⟩
  · have hnum : w.2 + 1 = lineNumber (splitInclusive content) (windowStop content w - 1) :=
      (h.numbers _ (hmem hw)).2
    have hle : windowStop content w ≤ byteLen content :=
      isCharBoundary_le (prevCharBoundary_boundary _ _)
    have hw2 := hstart hw
    have hend : lineOffset (splitInclusive content) w.2 ≤ byteLen content :=
      isCharBoundary_le (lineOffset_boundary _)
    have := (fileLine_iff (by omega)).mp hnum.symm
    omega
  · by_contra hblank
    obtain ⟨c, hc, hfrom, hto⟩ := h.covered w.2 line hline (by simpa using hblank)
    have hw2 := hstart hw
    rw [lineOffset_succ hline] at hto
    have hpos := byteLen_pos (split_lines_ne_nil line (List.mem_of_getElem? hline))
    have hn := (hr.inside w hw).2.2.2
    obtain ⟨hlast, hapart⟩ := hr.apart hzero w hw
    rcases List.mem_append.mp hc with hc | hc
    · obtain ⟨w', hw', rfl⟩ := List.mem_map.mp hc
      have hn' := (hr.inside w' hw').2.2.2
      have hline' := List.getElem?_eq_getElem hn'
      have hstop := windowStop_le hline'
      have hoff := lineOffset_succ hline'
      have hw2' := hstart hw'
      change lineOffset (splitInclusive content) w'.1 ≤ _ at hfrom
      change _ ≤ windowStop content w' at hto
      rcases hapart w' hw' with rfl | hlater | hearlier
      · rw [Option.some.inj (hline.symm.trans hline')] at hto
        omega
      · have := lineOffset_lt (@split_lines_ne_nil content) hlater (by omega)
        omega
      · have : lineOffset (splitInclusive content) (w'.2 + 1) ≤
            lineOffset (splitInclusive content) w.1 := lineOffset_mono hearlier
        omega
    · rw [lastWindow] at hc
      split at hc
      · rw [List.mem_singleton.mp hc] at hfrom
        change lineOffset (splitInclusive content) r.2 ≤ _ at hfrom
        have := lineOffset_lt (@split_lines_ne_nil content) hlast (by omega)
        omega
      · cases hc
  · have hc : codeChunk "lines" language (lineOffset (splitInclusive content) r.2)
        (byteLen content) (r.2 + 1) (splitCount content)
        ((splitInclusive content).drop r.2).flatten ∈
          r.1.map (windowChunk content language) ++ lastWindow content language r.2 := by
      rw [lastWindow, if_pos hlt]
      exact List.mem_append_right _ (List.mem_singleton_self _)
    have hnum : splitCount content = lineNumber (splitInclusive content) (byteLen content - 1) :=
      (h.numbers _ hc).2
    have hle := @lineNumber_le (splitInclusive content) (byteLen content - 1)
      (by rw [flatten_splitInclusive]; omega)
    rw [splitCount_eq, if_pos (.inr hnl)] at hnum
    omega

theorem windowChunks_covered {overlapTokens : Nat} {r : List (Nat × Nat) × Nat}
    (hr : Windows overlapTokens (splitInclusive content).length 0 0 r)
    (h : WindowsReach content overlapTokens r) : FileCovered content
      (r.1.map (windowChunk content language) ++ lastWindow content language r.2) := by
  have hlast {c : RawChunk} (hc : c ∈ lastWindow content language r.2) :
      lineOffset (splitInclusive content) r.2 < byteLen content ∧
        c = codeChunk "lines" language (lineOffset (splitInclusive content) r.2)
          (byteLen content) (r.2 + 1) (splitCount content)
          ((splitInclusive content).drop r.2).flatten := by
    rw [lastWindow] at hc
    split at hc
    · exact ⟨by assumption, List.mem_singleton.mp hc⟩
    · cases hc
  refine ⟨fun j line hline hblank => ?_, fun c hc => ?_, fun c hc => ?_⟩
  · have hj := (List.getElem?_eq_some_iff.mp hline).1
    rcases hr.cover j (Nat.zero_le j) hj with ⟨w, hw, hle, hlt⟩ | ⟨hzero, w, hw, rfl⟩ | hle
    · refine ⟨windowChunk content language w,
        List.mem_append_left _ (List.mem_map_of_mem hw), lineOffset_mono hle, ?_⟩
      have hreach := h.reach w hw
      have : lineOffset (splitInclusive content) (j + 1) ≤
          lineOffset (splitInclusive content) w.2 := lineOffset_mono hlt
      exact Nat.le_trans this (Nat.le_of_lt hreach)
    · rw [h.kept hzero w hw line hline] at hblank
      cases hblank
    · have hin : lineOffset (splitInclusive content) r.2 < byteLen content := by
        rw [← lineOffset_last (Nat.le_refl _)]
        exact lineOffset_lt split_lines_ne_nil (by omega) (by omega)
      have hc : codeChunk "lines" language (lineOffset (splitInclusive content) r.2)
          (byteLen content) (r.2 + 1) (splitCount content)
          ((splitInclusive content).drop r.2).flatten ∈ lastWindow content language r.2 := by
        rw [lastWindow, if_pos hin]
        exact List.mem_singleton_self _
      exact ⟨_, List.mem_append_right _ hc, lineOffset_mono hle,
        isCharBoundary_le (lineOffset_boundary _)⟩
  · rcases List.mem_append.mp hc with hc | hc
    · obtain ⟨w, -, rfl⟩ := List.mem_map.mp hc
      obtain ⟨text, htext⟩ := Option.isSome_iff_exists.mp (slice_isSome_iff.mpr
        ⟨le_prevCharBoundary (lineOffset_boundary w.1) (Nat.le_add_right _
          (byteLen ((splitInclusive content)[w.2]?.getD []))), lineOffset_boundary w.1,
            prevCharBoundary_boundary content _⟩)
      change slice content _ (windowStop content w) = some text at htext
      show slice content (lineOffset (splitInclusive content) w.1) (windowStop content w) =
        some ((slice content (lineOffset (splitInclusive content) w.1)
          (windowStop content w)).getD [])
      rw [htext]
      rfl
    · obtain ⟨-, rfl⟩ := hlast hc
      have hlen := congrArg byteLen (@lineOffset_split content r.2)
      rw [byteLen_append] at hlen
      exact slice_mid (q := []) (by rw [List.append_nil]; exact lineOffset_split r.2) rfl hlen.symm
  · rcases List.mem_append.mp hc with hc | hc
    · obtain ⟨w, hw, rfl⟩ := List.mem_map.mp hc
      obtain ⟨-, hlt, -, hn⟩ := hr.inside w hw
      have hline := List.getElem?_eq_getElem hn
      have hreach := h.reach w hw
      have hstop := windowStop_le hline
      have hnext := lineOffset_succ hline
      have hw2 := lineOffset_lt (@split_lines_ne_nil content) hlt (by omega)
      have hle : windowStop content w ≤ byteLen content :=
        isCharBoundary_le (prevCharBoundary_boundary _ _)
      refine ⟨((fileLine_iff (by omega)).mpr ⟨Nat.le_refl _, ?_⟩).symm,
        ((fileLine_iff (j := w.2) ?_).mpr ⟨?_, ?_⟩).symm⟩
      · exact lineOffset_lt split_lines_ne_nil (Nat.lt_succ_self _) (by omega)
      · show windowStop content w - 1 < _
        omega
      · show _ ≤ windowStop content w - 1
        omega
      · show windowStop content w - 1 < _
        omega
    · obtain ⟨hin, rfl⟩ := hlast hc
      have hlt : r.2 < (splitInclusive content).length := by
        by_contra hge
        rw [lineOffset_last (Nat.not_lt.mp hge)] at hin
        exact absurd hin (Nat.lt_irrefl _)
      have hne : content ≠ [] := by
        rintro rfl
        exact absurd hin (Nat.not_lt_zero _)
      have hcount : splitCount content = (splitInclusive content).length - 1 + 1 := by
        rw [splitCount_eq, if_neg (fun hor => hor.elim hne (h.newline hin))]
        omega
      refine ⟨((fileLine_iff hin).mpr ⟨Nat.le_refl _, ?_⟩).symm, ?_⟩
      · exact lineOffset_lt split_lines_ne_nil (Nat.lt_succ_self _) hlt
      · show splitCount content = lineNumber _ (byteLen content - 1)
        have hlast := @lineOffset_last content ((splitInclusive content).length - 1 + 1) (by omega)
        have hbefore := lineOffset_lt (@split_lines_ne_nil content)
          (Nat.lt_succ_self ((splitInclusive content).length - 1)) (by omega)
        rw [Nat.succ_eq_add_one] at hbefore
        rw [hcount]
        exact ((fileLine_iff (by omega)).mpr ⟨by omega, by omega⟩).symm

end Chunks

end Arags.Embedding
