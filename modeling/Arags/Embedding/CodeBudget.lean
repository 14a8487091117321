import Arags.Embedding.CodeCover
import Arags.Embedding.RecursiveBudget

/-!
# Arags.Embedding.CodeBudget

The token budget of the code chunker. Merging keeps to it; a block or a window is never cut.

* `BlocksFit`  — from one structure line to the next.
* `WindowsFit` — the windows of lines.
* `codeChunk_within` — the chunks are within the budget exactly when these are.
-/

namespace Arags.Embedding

open Text

/-- Two texts together have no more tokens than each by itself. -/
def Subadditive (estimateTokens : List Char → Nat) : Prop :=
  ∀ s t, estimateTokens (s ++ t) ≤ estimateTokens s + estimateTokens t

section Fits

variable (estimateTokens : List Char → Nat) (maxTokens overlapTokens : Nat) (content : List Char)
  (language : Option String)

def StructureAt (n : Nat) : Prop :=
  ∃ line, (splitInclusive content)[n]? = some line ∧ isStructureLine language line = true

/-- The blocks are within the budget, the first one with the text at the start of the file. -/
structure BlocksFit : Prop where
  first : ∀ f m, FirstBlock content language f m →
    WithinBudget estimateTokens maxTokens ((slice content 0 (firstStop content f m)).getD [])
  later : ∀ f n m, f < n → StructureAt content language f → StructureAt content language n →
    BlockEnd content language n m → WithinBudget estimateTokens maxTokens (linesText content n m)

/-- The closed windows are within the budget, with the text that is taken of them, and so is what is
left after the last. -/
structure WindowsFit : Prop where
  closed : ∀ w ∈ (lineWindows estimateTokens maxTokens overlapTokens 0 0 0
      (splitInclusive content)).1,
    WithinBudget estimateTokens maxTokens ((slice content (lineOffset (splitInclusive content) w.1)
      (windowStop content w)).getD [])
  last : WithinBudget estimateTokens maxTokens ((splitInclusive content).drop
    (lineWindows estimateTokens maxTokens overlapTokens 0 0 0 (splitInclusive content)).2).flatten

def CodeFits : Prop :=
  if structured language = true ∧
      counted estimateTokens (fileChunks content language 0 (splitInclusive content)) ≠ [] then
    BlocksFit estimateTokens maxTokens content language
  else WindowsFit estimateTokens maxTokens overlapTokens content

variable {estimateTokens maxTokens overlapTokens content language}

theorem counted_within {chunks : List RawChunk} :
    ChunksWithin estimateTokens maxTokens (counted estimateTokens chunks) ↔
      ChunksWithin estimateTokens maxTokens chunks := by
  refine ⟨fun h c hc => ?_, fun h c hc => h c (List.mem_filter.mp hc).1⟩
  rcases Nat.eq_zero_or_pos (estimateTokens c.content) with hzero | hpos
  · exact .inl (by omega)
  · exact h c (List.mem_filter.mpr ⟨hc, decide_eq_true hpos⟩)

/-- Chunks are merged within the budget, and one over it is left alone. -/
theorem mergeFrom_within (hsub : Subadditive estimateTokens) {cs : List RawChunk} :
    ∀ {prev : RawChunk}, ChunksWithin estimateTokens maxTokens
      (mergeFrom estimateTokens maxTokens prev cs) ↔
        ChunksWithin estimateTokens maxTokens (prev :: cs) := by
  induction cs with
  | nil => exact fun {prev} => Iff.rfl
  | cons c cs ih =>
    intro prev
    rw [mergeFrom]
    split
    · rename_i hfit
      have hmerged := hsub prev.content c.content
      have hboth : WithinBudget estimateTokens maxTokens (mergeChunks prev c).content :=
        .inl (Nat.le_trans hmerged hfit.1)
      have hprev : WithinBudget estimateTokens maxTokens prev.content := .inl (by omega)
      have hc : WithinBudget estimateTokens maxTokens c.content := .inl (by omega)
      rw [ih]
      simp only [ChunksWithin, List.forall_mem_cons]
      exact ⟨fun h => ⟨hprev, hc, h.2⟩, fun h => ⟨hboth, h.2.2⟩⟩
    · rw [ChunksWithin, List.forall_mem_cons, ChunksWithin, List.forall_mem_cons]
      exact and_congr_right_iff.mpr fun _ => ih

theorem BlockEnd.next_start {n m : Nat} (h : BlockEnd content language n m)
    (hm : m < (splitInclusive content).length) : StructureAt content language m :=
  ⟨_, List.getElem?_eq_getElem hm, h.next _ (List.getElem?_eq_getElem hm)⟩

/-- Inside a block no line opens one. -/
theorem BlockEnd.le_start {n m k : Nat} (h : BlockEnd content language n m) (hk : n < k)
    (hstart : StructureAt content language k) : m ≤ k := by
  obtain ⟨line, hline, hs⟩ := hstart
  by_contra hlt
  rw [h.inside k line hk (by omega) hline] at hs
  cases hs

theorem FirstBlock.le_start {f m k : Nat} (h : FirstBlock content language f m)
    (hstart : StructureAt content language k) : f ≤ k := by
  obtain ⟨line, hline, hs⟩ := hstart
  by_contra hlt
  rw [h.before k line (by omega) hline] at hs
  cases hs

theorem laterChunks_within {k : Nat} : ∀ {m : Nat}, (splitInclusive content).length - m = k →
    m ≤ (splitInclusive content).length →
      (m < (splitInclusive content).length → StructureAt content language m) →
        (ChunksWithin estimateTokens maxTokens (laterChunks content language m) ↔
          ∀ n n', m ≤ n → StructureAt content language n → BlockEnd content language n n' →
            WithinBudget estimateTokens maxTokens (linesText content n n')) := by
  induction k using Nat.strongRecOn with
  | _ k ih =>
    intro m hk hm hopen
    rcases Nat.lt_or_eq_of_le hm with hlt | hend
    · obtain ⟨m', hm'⟩ := @exists_blockEnd content language m hlt
      have hnext := hm'.lt
      have hchunks : laterChunks content language m =
          blockChunk content language m m' (blockLineEnd content m') ::
            laterChunks content language m' := by
        rw [laterChunks, if_neg (by omega)]
        exact blockChunks_eq hm' rfl (Nat.lt_succ_self m) hnext
      rw [hchunks, ChunksWithin, List.forall_mem_cons]
      refine (and_congr_right_iff.mpr fun _ => ih _ (by omega) rfl hm'.le hm'.next_start).trans ?_
      refine ⟨fun h n n' hn hstart hblock => ?_, fun h => ⟨h m m' (Nat.le_refl m) (hopen hlt) hm',
        fun n n' hn => h n n' (by omega)⟩⟩
      rcases Nat.lt_or_eq_of_le hn with hlater | rfl
      · exact h.2 n n' (hm'.le_start hlater hstart) hstart hblock
      · rw [hblock.unique hm']
        exact h.1
    · rw [laterChunks, if_pos hend]
      refine iff_of_true (fun c hc => (by cases hc)) fun n n' hn _ hblock => ?_
      have := hblock.lt
      have := hblock.le
      omega

theorem fileChunks_within :
    ChunksWithin estimateTokens maxTokens (fileChunks content language 0 (splitInclusive content)) ↔
      BlocksFit estimateTokens maxTokens content language := by
  by_cases hstart : ∃ line ∈ splitInclusive content, isStructureLine language line = true
  · obtain ⟨line, hmem, hline⟩ := hstart
    obtain ⟨f, m, hf⟩ := exists_firstBlock hmem hline
    have hfm := hf.ends.lt
    rw [@fileChunks_eq content language f m hf (splitInclusive content) 0 rfl (Nat.zero_le f),
      ChunksWithin, List.forall_mem_cons]
    refine (and_congr_right_iff.mpr fun _ => @laterChunks_within estimateTokens maxTokens content
      language _ m rfl hf.ends.le hf.ends.next_start).trans ⟨fun h => ⟨fun g k hg => ?_,
        fun g n k hg hstart hn hblock => ?_⟩, fun h => ⟨h.first f m hf,
          fun n k hn hopen hblock => h.later f n k (by omega) hf.opens hopen hblock⟩⟩
    · obtain rfl : g = f := Nat.le_antisymm (hg.le_start hf.opens) (hf.le_start hg.opens)
      rw [hg.ends.unique hf.ends]
      exact h.1
    · have := hf.le_start hstart
      exact h.2 n k (hf.ends.le_start (by omega) hn) hn hblock
  · have hnone : fileChunks content language 0 (splitInclusive content) = [] := by
      refine fileChunks_nil (fun line hmem => ?_) 0
      rw [Bool.eq_false_iff]
      exact fun hline => hstart ⟨line, hmem, hline⟩
    have hno {n : Nat} (h : StructureAt content language n) : False := by
      obtain ⟨line, hline, hs⟩ := h
      exact hstart ⟨line, List.mem_of_getElem? hline, hs⟩
    rw [hnone]
    exact iff_of_true (fun c hc => (by cases hc))
      ⟨fun f m h => (hno h.opens).elim, fun f n m _ h => (hno h).elim⟩

theorem chunkByLines_within : ∃ chunks,
    (CodeChunker.mk maxTokens overlapTokens).chunkByLines estimateTokens content language =
      some chunks ∧ (ChunksWithin estimateTokens maxTokens chunks ↔
        WindowsFit estimateTokens maxTokens overlapTokens content) := by
  refine ⟨_, lineLoop_eq rfl, ?_⟩
  rw [chunksWithin_append, counted_within]
  have hlast {first : Nat} : ChunksWithin estimateTokens maxTokens
      (lastWindow content language first) ↔
        WithinBudget estimateTokens maxTokens ((splitInclusive content).drop first).flatten := by
    rw [lastWindow]
    split
    · exact List.forall_mem_singleton
    · rename_i hend
      have hall := congrArg byteLen (@lineOffset_split content first)
      rw [byteLen_append] at hall
      rw [lineOffset] at hend
      have hnil : ((splitInclusive content).drop first).flatten = [] :=
        byteLen_eq_zero.mp (by omega)
      rw [hnil]
      exact iff_of_true (fun c hc => (by cases hc)) (.inr (fun c hc => (by cases hc)))
  rw [hlast]
  exact ⟨fun h => ⟨fun w hw => h.1 _ (List.mem_map_of_mem hw), h.2⟩,
    fun h => ⟨List.forall_mem_map.mpr h.closed, h.last⟩⟩

/-- The chunks of a file are within the budget exactly when its blocks or its windows are. -/
theorem codeChunk_within (hsub : Subadditive estimateTokens) {path : String}
    {chunks : List RawChunk} (h : (CodeChunker.mk maxTokens overlapTokens).chunk estimateTokens
      content path = some chunks) : ChunksWithin estimateTokens maxTokens chunks ↔
        CodeFits estimateTokens maxTokens overlapTokens content (detectLanguage path) := by
  obtain ⟨windows, hwindows, hfit⟩ := @chunkByLines_within estimateTokens maxTokens overlapTokens
    content (detectLanguage path)
  rw [CodeChunker.chunk, CodeChunker.chunkByStructures, @structureLoop_eq content
    (detectLanguage path) estimateTokens (splitInclusive content) 0 rfl] at h
  rw [CodeFits]
  by_cases hstructured : structured (detectLanguage path) = true
  · rw [if_pos hstructured] at h
    change (if (counted _ _).isEmpty then _ else _) = _ at h
    cases hblocks : counted estimateTokens
        (fileChunks content (detectLanguage path) 0 (splitInclusive content)) with
    | nil =>
      rw [hblocks, List.isEmpty_nil, if_pos rfl, hwindows] at h
      obtain rfl := Option.some.inj h
      rw [if_neg (fun hor => hor.2 rfl)]
      exact hfit
    | cons c cs =>
      rw [hblocks, List.isEmpty_cons, if_neg Bool.false_ne_true] at h
      obtain rfl := Option.some.inj h
      have hall : ChunksWithin estimateTokens maxTokens (c :: cs) ↔
          BlocksFit estimateTokens maxTokens content (detectLanguage path) := by
        rw [← hblocks, counted_within, fileChunks_within]
      rw [if_pos ⟨hstructured, List.cons_ne_nil c cs⟩]
      exact (mergeFrom_within hsub).trans hall
  · rw [if_neg hstructured, hwindows] at h
    obtain rfl := Option.some.inj h
    rw [if_neg (fun hor => hstructured hor.1)]
    exact hfit

end Fits

end Arags.Embedding
