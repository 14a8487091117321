import Arags.Embedding.CodeChunker
import Arags.Embedding.MarkdownChunker
import Arags.Embedding.TextPlan

/-!
# Arags.Embedding.Panics

Which texts the chunkers return on.

* `codeChunk_returns` — the code chunker slices at boundaries only, as do the recursive and the
  heading chunker.
* `TextSliceable`     — where the paragraph chunker does, while it never goes back.
* `chunkers_return`   — for such texts, all four chunkers return exactly when it holds.
-/

namespace Arags.Embedding

open Text

section Code

variable {estimateTokens : List Char → Nat} {content : List Char} {language : Option String}

theorem structureChunk_returns {blockStart blockEnd : Nat} (lineEnd : Nat)
    (hstart : isCharBoundary content blockStart = true) (hle : blockStart ≤ blockEnd) :
    (structureChunk estimateTokens content language blockStart blockEnd lineEnd).isSome = true := by
  obtain ⟨text, htext⟩ := Option.isSome_iff_exists.mp (slice_isSome_iff.mpr
    ⟨le_prevCharBoundary hstart hle, hstart, prevCharBoundary_boundary content blockEnd⟩)
  obtain ⟨pre, hpre⟩ := Option.isSome_iff_exists.mp (slice_isSome_iff.mpr
    ⟨Nat.zero_le blockStart, isCharBoundary_zero content, hstart⟩)
  unfold structureChunk byteStartLine
  simp only [htext, hpre, Option.map_some, Option.bind_eq_bind, Option.bind_some, Option.pure_def]
  split <;> rfl

theorem structureLoop_returns {lines : List (List Char)} : ∀ {i blockStart blockEnd : Nat}
    {inBlock : Bool}, isCharBoundary content blockStart = true → blockStart ≤ blockEnd →
      (structureLoop estimateTokens content language i blockStart blockEnd inBlock
        lines).isSome = true := by
  induction lines with
  | nil =>
    intro i blockStart blockEnd inBlock hstart hle
    rw [structureLoop]
    split
    · exact structureChunk_returns _ hstart hle
    · rfl
  | cons line lines ih =>
    intro i blockStart blockEnd inBlock hstart hle
    rw [structureLoop]
    dsimp only
    split
    · obtain ⟨chunk, hchunk⟩ := Option.isSome_iff_exists.mp
        (@structureChunk_returns estimateTokens content language _ _ i hstart hle)
      obtain ⟨rest, hrest⟩ := Option.isSome_iff_exists.mp (@ih (i + 1) (nthLineByteOffset content i)
        (nthLineByteOffset content i + byteLen line) true (nthLineByteOffset_boundary content i)
          (Nat.le_add_right _ _))
      rw [hchunk]
      show ((structureLoop _ _ _ _ _ _ _ lines).bind _).isSome = true
      rw [hrest]
      rfl
    · split
      · exact ih hstart (by omega)
      · split
        · exact ih hstart (by omega)
        · exact ih hstart hle

theorem lineLoop_returns (maxTokens overlapTokens : Nat) {lines : List (List Char)} :
    ∀ {i lineStart byteStart currentLines : Nat}, isCharBoundary content byteStart = true →
      (lineLoop estimateTokens content language maxTokens overlapTokens i lineStart byteStart
        currentLines lines).isSome = true := by
  induction lines with
  | nil =>
    intro i lineStart byteStart currentLines hstart
    rw [lineLoop]
    split
    · rename_i hlt
      have hend : isCharBoundary content (byteLen content) = true := by
        have := isCharBoundary_append content []
        rwa [List.append_nil] at this
      obtain ⟨text, htext⟩ := Option.isSome_iff_exists.mp (slice_isSome_iff.mpr
        ⟨Nat.le_of_lt hlt, hstart, hend⟩)
      rw [htext]
      rfl
    · rfl
  | cons line lines ih =>
    intro i lineStart byteStart currentLines hstart
    rw [lineLoop]
    split
    · obtain ⟨text, htext⟩ := Option.isSome_iff_exists.mp (slice_isSome_iff.mpr
        ⟨le_prevCharBoundary hstart (Nat.le_add_right byteStart (byteLen line)), hstart,
          prevCharBoundary_boundary content (byteStart + byteLen line)⟩)
      obtain ⟨rest, hrest⟩ := Option.isSome_iff_exists.mp (@ih (i + 1)
        (i + 1 - min overlapTokens currentLines) _ (min overlapTokens currentLines)
          (nthLineByteOffset_boundary content _))
      dsimp only
      rw [htext]
      show ((lineLoop _ _ _ _ _ _ _ _ _ lines).bind _).isSome = true
      rw [hrest]
      rfl
    · exact ih hstart

/-- The code chunker returns on every text and path. -/
theorem codeChunk_returns (self : CodeChunker) (path : String) :
    (self.chunk estimateTokens content path).isSome = true := by
  have hzero := isCharBoundary_zero content
  have hlines : (self.chunkByLines estimateTokens content (detectLanguage path)).isSome = true :=
    lineLoop_returns _ _ hzero
  rw [CodeChunker.chunk]
  split
  · obtain ⟨chunks, hchunks⟩ := Option.isSome_iff_exists.mp (@structureLoop_returns estimateTokens
      content (detectLanguage path) (splitInclusive content) 0 0 0 false hzero (Nat.le_refl 0))
    rw [CodeChunker.chunkByStructures, hchunks]
    show (if chunks.isEmpty then _ else _ : Option (List RawChunk)).isSome = true
    split
    · exact hlines
    · rfl
  · exact hlines

end Code

section Text

variable {estimateTokens : List Char → Nat} {maxTokens overlapTokens : Nat}

theorem wordGroupTexts_isSome {s : List Char} :
    (wordGroupTexts estimateTokens maxTokens s).isSome = true ↔
      ¬ BadCut estimateTokens maxTokens (lastGroup estimateTokens maxTokens s) := by
  rw [wordGroupTexts]
  split
  · rw [Option.isSome_map, ← fitText_eq_none (Nat.lt_succ_self _), ← Option.not_isSome_iff_eq_none,
      not_not]
  · rename_i hnone
    refine iff_of_true rfl ?_
    rintro ⟨k, c, hk, -, hover, -⟩
    refine hnone ⟨?_, by omega⟩
    intro hnil
    rw [hnil] at hk
    cases hk.1

theorem sliceTexts_isSome {s : List Char} :
    (sliceTexts estimateTokens maxTokens s).isSome = true ↔ (maxTokens < estimateTokens s →
      ¬ BadCut estimateTokens maxTokens (lastGroup estimateTokens maxTokens s)) := by
  rw [sliceTexts]
  split
  · rename_i hs
    subst hs
    refine iff_of_true rfl fun _ => ?_
    rintro ⟨k, c, hk, -⟩
    cases hk.1
  · split
    · rename_i hover
      rw [wordGroupTexts_isSome]
      exact ⟨fun h _ => h, fun h => h hover⟩
    · rename_i hover
      exact iff_of_true rfl fun h => absurd h hover

theorem Part.texts_isSome {content : List Char} {q : Part}
    (hq : q.kind = .paragraph → maxTokens < estimateTokens q.text) :
    (q.texts estimateTokens maxTokens content).isSome = true ↔
      (q.kind = .last → EndsWhole content) ∧
        (maxTokens < estimateTokens (q.pushed content) → ¬ BadCut estimateTokens maxTokens
          (lastGroup estimateTokens maxTokens (q.pushed content))) := by
  obtain ⟨kind, text⟩ := q
  cases kind with
  | group => exact sliceTexts_isSome.trans (by simp [Part.pushed])
  | flushed => exact sliceTexts_isSome.trans (by simp [Part.pushed])
  | paragraph =>
    refine wordGroupTexts_isSome.trans ⟨fun h => ⟨fun h => (by cases h), fun _ => h⟩, fun h => ?_⟩
    exact h.2 (hq rfl)
  | last =>
    show (if EndsWhole content then _ else none : Option _).isSome = true ↔ _
    by_cases hends : EndsWhole content
    · rw [if_pos hends, sliceTexts_isSome]
      exact ⟨fun h => ⟨fun _ => hends, h⟩, fun h => h.2⟩
    · rw [if_neg hends]
      exact ⟨fun h => (by cases h), fun h => absurd (h.1 rfl) hends⟩

theorem placeParts_isSome {content : List Char} {ps : List Part} : ∀ {o : Nat},
    (placeParts estimateTokens maxTokens content o ps).isSome = true ↔
      ∀ q ∈ ps, (q.texts estimateTokens maxTokens content).isSome = true := by
  induction ps with
  | nil => simp [placeParts]
  | cons q ps ih =>
    intro o
    rw [List.forall_mem_cons, ← @ih (o + byteLen q.text + 2), placeParts]
    cases q.texts estimateTokens maxTokens content with
    | none => exact ⟨fun h => (by cases h), fun h => (by cases h.1)⟩
    | some texts =>
      cases placeParts estimateTokens maxTokens content (o + byteLen q.text + 2) ps with
      | none => exact ⟨fun h => (by cases h), fun h => (by cases h.2)⟩
      | some rest => exact ⟨fun _ => ⟨rfl, rfl⟩, fun _ => rfl⟩

/-- Paragraphs that are hard-split are over the budget. -/
theorem paragraph_of_mem_parts (group : Option (List Char)) (tokens : Nat)
    (paras : List (List Char)) :
    ∀ q ∈ parts estimateTokens maxTokens overlapTokens group tokens paras,
      q.kind = .paragraph → maxTokens < estimateTokens q.text := by
  fun_induction parts estimateTokens maxTokens overlapTokens group tokens paras with
  | case1 | case2 => simp
  | case3 _ para paras hover ih => exact List.forall_mem_cons.mpr ⟨fun _ => hover, ih⟩
  | case4 _ para paras hover ih => exact ih
  | case5 g _ para paras hover ih =>
    exact List.forall_mem_cons.mpr
      ⟨fun h => (by cases h), List.forall_mem_cons.mpr ⟨fun _ => hover, ih⟩⟩
  | case6 g _ para paras hover hflush ih =>
    exact List.forall_mem_cons.mpr ⟨fun h => (by cases h), ih⟩
  | case7 g _ para paras hover hflush ih => exact ih

/-- The paragraphs after the first decide, if there are any. -/
theorem getLast_fits_cons (para : List Char) (paras : List (List Char))
    (group : Option (List Char)) :
    ((∀ p ∈ (para :: paras).getLast?, estimateTokens p ≤ maxTokens) ∧
        (para :: paras = [] → group.isSome = true)) ↔
      (∀ p ∈ paras.getLast?, estimateTokens p ≤ maxTokens) ∧
        (paras = [] → estimateTokens para ≤ maxTokens) := by
  cases paras with
  | nil => simp
  | cons q paras => simp

/-- Something is pushed at the end unless the last paragraph was hard-split. -/
theorem last_mem_parts (group : Option (List Char)) (tokens : Nat) (paras : List (List Char)) :
    (∃ q ∈ parts estimateTokens maxTokens overlapTokens group tokens paras, q.kind = .last) ↔
      (∀ p ∈ paras.getLast?, estimateTokens p ≤ maxTokens) ∧
        (paras = [] → group.isSome = true) := by
  fun_induction parts estimateTokens maxTokens overlapTokens group tokens paras with
  | case1 => simp
  | case2 => simp
  | case3 _ para paras hover ih =>
    rw [getLast_fits_cons, List.exists_mem_cons_iff, ih]
    simp only [reduceCtorEq, false_or, Option.isSome_none, Bool.false_eq_true]
    exact and_congr_right fun _ => imp_congr_right fun _ => iff_of_false id (Nat.not_le.mpr hover)
  | case4 _ para paras hover ih =>
    rw [getLast_fits_cons, ih]
    exact and_congr_right fun _ => imp_congr_right fun _ =>
      iff_of_true rfl (Nat.not_lt.mp hover)
  | case5 g _ para paras hover ih =>
    rw [getLast_fits_cons, List.exists_mem_cons_iff, List.exists_mem_cons_iff, ih]
    simp only [reduceCtorEq, false_or, Option.isSome_none, Bool.false_eq_true]
    exact and_congr_right fun _ => imp_congr_right fun _ => iff_of_false id (Nat.not_le.mpr hover)
  | case6 g _ para paras hover hflush ih =>
    rw [getLast_fits_cons, List.exists_mem_cons_iff, ih]
    simp only [reduceCtorEq, false_or]
    exact and_congr_right fun _ => imp_congr_right fun _ =>
      iff_of_true rfl (Nat.not_lt.mp hover)
  | case7 g _ para paras hover hflush ih =>
    rw [getLast_fits_cons, ih]
    exact and_congr_right fun _ => imp_congr_right fun _ =>
      iff_of_true rfl (Nat.not_lt.mp hover)

variable (estimateTokens maxTokens overlapTokens) in
/-- Unless the last paragraph is hard-split, the last two bytes of the text are characters of their
own or one character; and where a text that is pushed is over the budget, its last group of words
is never cut at white space of several bytes. -/
structure TextSliceable (content : List Char) : Prop where
  ends : ∀ para ∈ (split paragraphSeparator content).getLast?,
    estimateTokens para ≤ maxTokens → EndsWhole content
  cuts : ∀ q ∈ partsOf estimateTokens maxTokens overlapTokens content,
    maxTokens < estimateTokens (q.pushed content) →
      ¬ BadCut estimateTokens maxTokens (lastGroup estimateTokens maxTokens (q.pushed content))

/-- While nothing is rewound, the paragraph chunker returns on these texts and on no others. -/
theorem textChunk_isSome {content : List Char}
    (h : NoRewind overlapTokens (partsOf estimateTokens maxTokens overlapTokens content)) :
    ((TextChunker.mk maxTokens overlapTokens).chunk estimateTokens content).isSome = true ↔
      TextSliceable estimateTokens maxTokens overlapTokens content := by
  rw [textChunk_eq h, placeParts_isSome]
  have hne := (split_isSplit paragraphSeparator content).ne_nil
  have hlast := @last_mem_parts estimateTokens maxTokens overlapTokens none 0
    (split paragraphSeparator content)
  have htexts (q : Part) (hq : q ∈ partsOf estimateTokens maxTokens overlapTokens content) :=
    @Part.texts_isSome estimateTokens maxTokens content q
      (paragraph_of_mem_parts none 0 (split paragraphSeparator content) q hq)
  constructor
  · intro hall
    refine ⟨fun p hp hfit => ?_, fun q hq => ((htexts q hq).mp (hall q hq)).2⟩
    obtain ⟨q, hq, hkind⟩ := hlast.mpr
      ⟨fun p' hp' => Option.some.inj (hp.symm.trans hp') ▸ hfit, fun hnil => absurd hnil hne⟩
    exact ((htexts q hq).mp (hall q hq)).1 hkind
  · intro hok q hq
    refine (htexts q hq).mpr ⟨fun hkind => ?_, hok.cuts q hq⟩
    have hp := List.getLast?_eq_getLast_of_ne_nil hne
    exact hok.ends _ hp ((hlast.mp ⟨q, hq, hkind⟩).1 _ hp)

end Text

/-- While no flush goes back, all four chunkers return exactly when the text can be sliced where
the paragraph chunker does: the other three always return. -/
theorem chunkers_return (estimateTokens : List Char → Nat) (content : List Char) (path : String)
    (maxTokens overlapTokens : Nat) (hmax : 1 ≤ maxTokens)
    (h : NoRewind overlapTokens (partsOf estimateTokens maxTokens overlapTokens content)) :
    (((TextChunker.mk maxTokens overlapTokens).chunk estimateTokens content).isSome = true ∧
      ((CodeChunker.mk maxTokens overlapTokens).chunk estimateTokens content path).isSome = true ∧
      ((MarkdownChunker.mk maxTokens).chunk content).isSome = true ∧
      ∀ fuel, byteLen content ≤ fuel → ((RecursiveChunker.new maxTokens overlapTokens).chunk
        estimateTokens fuel content).isSome = true) ↔
      TextSliceable estimateTokens maxTokens overlapTokens content := by
  rw [textChunk_isSome h]
  refine ⟨fun hall => hall.1, fun hok => ⟨hok, codeChunk_returns _ _, ?_, fun fuel hfuel => ?_⟩⟩
  · obtain ⟨chunks, hchunks, -⟩ := @markdownSections_sections content (splitInclusive content) [] []
      (by simp) (fun l hl => ne_nil_of_mem_splitInclusive hl)
    exact Option.isSome_iff_exists.mpr ⟨chunks, hchunks⟩
  · obtain ⟨chunks, hchunks, -⟩ := @chunkRecursive_tiling estimateTokens maxTokens hmax fuel
      (RecursiveChunker.new maxTokens overlapTokens).separators content 0 hfuel
    exact Option.isSome_iff_exists.mpr ⟨chunks, hchunks⟩

/-- Texts within the budget that end in a character of three bytes, or in one byte after a longer
character; and a paragraph over the budget with white space of two bytes before a word. -/
theorem chunkers_return_not :
    (TextChunker.mk 8 0).chunk List.length "5 €".toList = none ∧
      (TextChunker.mk 8 0).chunk List.length "café.".toList = none ∧
      (TextChunker.mk 3 0).chunk List.length "ab\u00a0cd".toList = none ∧
      ¬ ∀ (estimateTokens : List Char → Nat) (content : List Char) (maxTokens overlapTokens : Nat),
        estimateTokens [] = 0 → 1 ≤ maxTokens → maxTokens < 4294967296 →
          ((TextChunker.mk maxTokens overlapTokens).chunk estimateTokens content).isSome = true :=
  ⟨by decide, by decide, by decide, fun h =>
    absurd (h List.length "5 €".toList 8 0 rfl (by decide) (by decide)) (by decide)⟩

theorem chunkers_return_two_paragraphs :
    NoRewind 0 (partsOf List.length 8 0 "one\n\ntwo, three".toList) ∧
      ((((TextChunker.mk 8 0).chunk List.length "one\n\ntwo, three".toList).isSome = true ∧
        ((CodeChunker.mk 8 0).chunk List.length "one\n\ntwo, three".toList "a.rs").isSome =
          true ∧
        ((MarkdownChunker.mk 8).chunk "one\n\ntwo, three".toList).isSome = true ∧
        ∀ fuel, byteLen "one\n\ntwo, three".toList ≤ fuel → ((RecursiveChunker.new 8 0).chunk
          List.length fuel "one\n\ntwo, three".toList).isSome = true) ↔
        TextSliceable List.length 8 0 "one\n\ntwo, three".toList) :=
  ⟨.inl rfl, chunkers_return List.length "one\n\ntwo, three".toList "a.rs" 8 0 (by decide)
    (.inl rfl)⟩

end Arags.Embedding
