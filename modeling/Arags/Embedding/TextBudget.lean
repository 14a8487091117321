import Arags.Embedding.CodeBudget
import Arags.Embedding.WordGroups

/-!
# Arags.Embedding.TextBudget

The token budget of the paragraph chunker, and of the three chunkers.

* `pushes`        — what the loop over the paragraphs pushes.
* `WordGroupsFit` — where the hard split by words does not compare with the budget.
* `chunks_within` — when the chunks of each chunker are within the budget.
-/

namespace Arags.Embedding

open Text

/-- A slice that is pushed, or a paragraph that is hard-split. -/
structure Push where
  paragraph : Bool
  start : Nat
  stop : Nat

section Text

variable (estimateTokens : List Char → Nat) (maxTokens : Nat) (content : List Char)

def pushes (overlapTokens : Nat) : Nat → Nat → Nat → Nat → List (List Char) →
    Option (List Push)
  | chunkStart, chunkEnd, _, _, [] =>
    some (if chunkStart < chunkEnd then [⟨false, chunkStart, byteLen content⟩] else [])
  | chunkStart, chunkEnd, chunkTokenCount, cursor, para :: paragraphs =>
    let paraStart := min cursor (byteLen content)
    let paraEnd := min (paraStart + byteLen para) (byteLen content)
    let cursor := min (paraEnd + 2) (byteLen content)
    let paraTokens := estimateTokens para
    if maxTokens < paraTokens then do
      let rest ← pushes overlapTokens cursor cursor 0 cursor paragraphs
      return (if chunkStart < chunkEnd ∧ 0 < chunkTokenCount then
        [⟨false, chunkStart, chunkEnd⟩] else []) ++ ⟨true, paraStart, paraEnd⟩ :: rest
    else if maxTokens < chunkTokenCount + paraTokens ∧ chunkStart < chunkEnd then do
      let overlapBytes ← estimateOverlapBytes content chunkEnd overlapTokens
      let nextStart := chunkEnd - overlapBytes
      let rest ← pushes overlapTokens nextStart (nextStart + (byteLen para + 2))
        (overlapTokens + min separatorTokens (maxTokens + 1) + (paraTokens + separatorTokens))
        cursor paragraphs
      return ⟨false, chunkStart, chunkEnd⟩ :: rest
    else
      pushes overlapTokens chunkStart (chunkEnd + (byteLen para + 2))
        (chunkTokenCount + (paraTokens + separatorTokens)) cursor paragraphs

/-- The text of a push that is hard-split by words. -/
def Push.hardSplit (q : Push) : Option (List Char) :=
  if q.paragraph then slice content q.start q.stop
  else do
    let stop ← trimStop content (min q.stop (byteLen content))
    let text ← slice content q.start (prevCharBoundary content stop)
    if q.start < prevCharBoundary content stop ∧ maxTokens < estimateTokens text then some text
    else none

/-- What the hard split emits unchecked is within the budget: a word alone in its group, a last
group in which no word is left to cut off, and the words that were cut off. -/
structure WordGroupsFit (text : List Char) : Prop where
  alone : ∀ g ∈ (greedyGroups estimateTokens maxTokens [] (piecesOf text).1).1,
    g ∈ (piecesOf text).1 → WithinBudget estimateTokens maxTokens g
  kept : ∀ fit, fitText estimateTokens maxTokens
      ((lastGroup estimateTokens maxTokens text).length + 1)
      (lastGroup estimateTokens maxTokens text) = some fit →
    lastCut fit = none → WithinBudget estimateTokens maxTokens fit
  cutOff : ∀ fit leftover, fitText estimateTokens maxTokens
      ((lastGroup estimateTokens maxTokens text).length + 1)
      (lastGroup estimateTokens maxTokens text) = some fit →
    lastGroup estimateTokens maxTokens text = fit ++ leftover →
      WithinBudget estimateTokens maxTokens leftover

/-- The text of a push is within the budget where it is hard-split. -/
def PushFits (q : Push) : Prop :=
  ∀ text ∈ q.hardSplit estimateTokens maxTokens content,
    WordGroupsFit estimateTokens maxTokens text

def TextFits (overlapTokens : Nat) : Prop :=
  ∀ ps, pushes estimateTokens maxTokens content overlapTokens 0 0 0 0
      (split paragraphSeparator content) = some ps →
    ∀ q ∈ ps, PushFits estimateTokens maxTokens content q

variable {estimateTokens maxTokens content}

theorem withinBudget_nil : WithinBudget estimateTokens maxTokens [] :=
  .inr fun c hc => (by cases hc)

theorem withinBudget_of_zero {text : List Char} (h : ¬ 0 < estimateTokens text) :
    WithinBudget estimateTokens maxTokens text := .inl (by omega)

theorem place_within {ts : List (List Char)} : ∀ {o : Nat},
    ChunksWithin estimateTokens maxTokens (place o ts) ↔
      ∀ t ∈ ts, WithinBudget estimateTokens maxTokens t := by
  induction ts with
  | nil => simp [place, ChunksWithin]
  | cons t ts ih =>
    intro o
    rw [place, ChunksWithin, List.forall_mem_cons, List.forall_mem_cons]
    exact and_congr_right_iff.mpr fun _ => ih

/-- A group that is closed was compared with the budget, or is a single word. -/
theorem greedyGroups_checked (hbytes : ∀ t, estimateTokens t ≤ byteLen t) (hmax : 1 ≤ maxTokens)
    {ws pieces : List (List Char)} (hpieces : ∀ p ∈ pieces, p ∈ ws) :
    ∀ {group : List Char}, (estimateTokens group ≤ maxTokens ∨ group ∈ ws) →
      ∀ g ∈ (greedyGroups estimateTokens maxTokens group pieces).1,
        estimateTokens g ≤ maxTokens ∨ g ∈ ws := by
  induction pieces with
  | nil => exact fun _ g hg => (by cases hg)
  | cons piece pieces ih =>
    obtain ⟨hpiece, hrest⟩ := List.forall_mem_cons.mp hpieces
    intro group hgroup
    rw [greedyGroups]
    split
    · have hnext := ih hrest (.inr hpiece)
      dsimp only
      split
      · exact hnext
      · exact List.forall_mem_cons.mpr ⟨hgroup, hnext⟩
    · rename_i hfit
      refine ih hrest (.inl ?_)
      have := hbytes (group ++ piece)
      omega

/-- The end of a hard split: what is kept of the last group, and what is cut off it. -/
theorem lastTexts_within {tail : List Char} {fit : List Char}
    (h : fitText estimateTokens maxTokens (tail.length + 1) tail = some fit) (hne : tail ≠ []) :
    (∀ t ∈ fit :: (if tail.drop fit.length ≠ [] ∧ 0 < estimateTokens (tail.drop fit.length) then
        [tail.drop fit.length] else []), WithinBudget estimateTokens maxTokens t) ↔
      (lastCut fit = none → WithinBudget estimateTokens maxTokens fit) ∧
        ∀ leftover, tail = fit ++ leftover → WithinBudget estimateTokens maxTokens leftover := by
  obtain ⟨r, rfl, -, hchecked, -⟩ := fitText_some h hne
  rw [List.drop_left, List.forall_mem_cons]
  refine and_congr ⟨fun hfit _ => hfit, fun hlast => ?_⟩ ⟨fun hrest leftover hall => ?_, fun hall =>
    ?_⟩
  · rcases hchecked with hfit | hnone
    · exact .inl hfit
    · exact hlast hnone
  · obtain rfl := List.append_cancel_left hall
    by_cases hcounted : r ≠ [] ∧ 0 < estimateTokens r
    · rw [if_pos hcounted] at hrest
      exact hrest r (List.mem_singleton_self r)
    · by_cases hr : r = []
      · rw [hr]
        exact withinBudget_nil
      · exact withinBudget_of_zero fun hpos => hcounted ⟨hr, hpos⟩
  · split
    · exact List.forall_mem_singleton.mpr (hall r rfl)
    · exact fun t ht => (by cases ht)

theorem wordGroupTexts_within (hbytes : ∀ t, estimateTokens t ≤ byteLen t) (hmax : 1 ≤ maxTokens)
    {text : List Char} {texts : List (List Char)}
    (h : wordGroupTexts estimateTokens maxTokens text = some texts) :
    (∀ t ∈ texts, WithinBudget estimateTokens maxTokens t) ↔
      WordGroupsFit estimateTokens maxTokens text := by
  have hnil := hbytes []
  rw [byteLen_nil] at hnil
  have hgroups : (∀ g ∈ (greedyGroups estimateTokens maxTokens [] (piecesOf text).1).1,
      WithinBudget estimateTokens maxTokens g) ↔
        ∀ g ∈ (greedyGroups estimateTokens maxTokens [] (piecesOf text).1).1,
          g ∈ (piecesOf text).1 → WithinBudget estimateTokens maxTokens g := by
    refine ⟨fun hall g hg _ => hall g hg, fun halone g hg => ?_⟩
    rcases greedyGroups_checked hbytes hmax (fun p hp => hp) (.inl (by omega)) g hg with hfit | hw
    · exact .inl hfit
    · exact halone g hg hw
  unfold wordGroupTexts at h
  dsimp only at h
  by_cases htail : lastGroup estimateTokens maxTokens text ≠ [] ∧
      0 < estimateTokens (lastGroup estimateTokens maxTokens text)
  · rw [if_pos htail] at h
    obtain ⟨fit, hfit, rfl⟩ := Option.map_eq_some_iff.mp h
    rw [List.forall_mem_append, hgroups, lastTexts_within hfit htail.1]
    refine ⟨fun hall => ⟨hall.1, fun f hf hlast => ?_, fun f leftover hf hcut => ?_⟩,
      fun hall => ⟨hall.alone, hall.kept fit hfit, fun leftover => hall.cutOff fit leftover hfit⟩⟩
    · obtain rfl := Option.some.inj (hfit.symm.trans hf)
      exact hall.2.1 hlast
    · obtain rfl := Option.some.inj (hfit.symm.trans hf)
      exact hall.2.2 leftover hcut
  · rw [if_neg htail] at h
    obtain rfl := Option.some.inj h
    have hzero : estimateTokens (lastGroup estimateTokens maxTokens text) = 0 := by
      by_contra hpos
      refine htail ⟨fun hempty => hpos ?_, Nat.pos_of_ne_zero hpos⟩
      rw [hempty]
      omega
    have hfit {f : List Char} (hf : fitText estimateTokens maxTokens
        ((lastGroup estimateTokens maxTokens text).length + 1)
        (lastGroup estimateTokens maxTokens text) = some f) :
        lastGroup estimateTokens maxTokens text = f := by
      rw [fitText, if_neg (by omega)] at hf
      exact Option.some.inj hf
    rw [hgroups]
    refine ⟨fun hall => ⟨hall, fun f hf _ => ?_, fun f leftover hf hcut => ?_⟩, fun hall =>
      hall.alone⟩
    · rw [← hfit hf]
      exact .inl (by omega)
    · rw [hfit hf] at hcut
      rw [List.self_eq_append_right.mp hcut]
      exact withinBudget_nil

theorem pushWordGroups_within (hbytes : ∀ t, estimateTokens t ≤ byteLen t) (hmax : 1 ≤ maxTokens)
    {start stop : Nat} {chunks : List RawChunk}
    (h : pushWordGroups estimateTokens maxTokens content start stop = some chunks) :
    ∃ text, slice content start stop = some text ∧
      (ChunksWithin estimateTokens maxTokens chunks ↔
        WordGroupsFit estimateTokens maxTokens text) := by
  obtain ⟨text, htext, -⟩ := Option.bind_eq_some_iff.mp h
  obtain ⟨p, q, hcontent, rfl, rfl⟩ := slice_eq_some.mp htext
  rw [pushWordGroups_eq hcontent] at h
  obtain ⟨texts, htexts, rfl⟩ := Option.map_eq_some_iff.mp h
  exact ⟨text, htext, place_within.trans (wordGroupTexts_within hbytes hmax htexts)⟩

theorem pushSlice_within (hbytes : ∀ t, estimateTokens t ≤ byteLen t) (hmax : 1 ≤ maxTokens)
    {start stop : Nat} {chunks : List RawChunk}
    (h : pushSlice estimateTokens maxTokens content start stop = some chunks) :
    ChunksWithin estimateTokens maxTokens chunks ↔
      PushFits estimateTokens maxTokens content ⟨false, start, stop⟩ := by
  obtain ⟨stop', hstop, h⟩ := Option.bind_eq_some_iff.mp h
  rw [PushFits, Push.hardSplit, if_neg Bool.false_ne_true]
  dsimp only
  rw [hstop]
  show _ ↔ ∀ text ∈ (slice content start (prevCharBoundary content stop')).bind _, _
  dsimp only at h
  split at h
  · rename_i hempty
    obtain rfl := Option.some.inj h
    refine iff_of_true (fun c hc => (by cases hc)) fun text htext => ?_
    obtain ⟨t, -, ht⟩ := Option.bind_eq_some_iff.mp htext
    rw [if_neg (fun hor => absurd hor.1 (by omega))] at ht
    cases ht
  · rename_i hlt
    obtain ⟨text, htext, h⟩ := Option.bind_eq_some_iff.mp h
    rw [htext, Option.bind_some]
    split at h
    · rename_i hover
      obtain ⟨text', htext', hiff⟩ := pushWordGroups_within hbytes hmax h
      obtain rfl := Option.some.inj (htext.symm.trans htext')
      rw [if_pos ⟨by omega, hover⟩, hiff]
      simp
    · rename_i hfit
      obtain hchunks := Option.some.inj h
      rw [if_neg (fun hor => hfit hor.2), ← hchunks]
      refine iff_of_true ?_ (fun t ht => (by cases ht))
      split
      · exact fun c hc => (by cases hc)
      · exact List.forall_mem_singleton.mpr (.inl (Nat.not_lt.mp hfit))

theorem pushParagraph_within (hbytes : ∀ t, estimateTokens t ≤ byteLen t) (hmax : 1 ≤ maxTokens)
    {start stop : Nat} {chunks : List RawChunk}
    (h : pushWordGroups estimateTokens maxTokens content start stop = some chunks) :
    ChunksWithin estimateTokens maxTokens chunks ↔
      PushFits estimateTokens maxTokens content ⟨true, start, stop⟩ := by
  obtain ⟨text, htext, hiff⟩ := pushWordGroups_within hbytes hmax h
  rw [hiff, PushFits, Push.hardSplit, if_pos rfl, htext]
  simp

theorem textLoop_within (hbytes : ∀ t, estimateTokens t ≤ byteLen t) (hmax : 1 ≤ maxTokens)
    {overlapTokens : Nat} {paras : List (List Char)} :
    ∀ {chunkStart chunkEnd tokens cursor : Nat} {chunks : List RawChunk},
      textLoop estimateTokens maxTokens content overlapTokens chunkStart chunkEnd tokens cursor
          paras = some chunks →
        ∃ ps, pushes estimateTokens maxTokens content overlapTokens chunkStart chunkEnd tokens
          cursor paras = some ps ∧ (ChunksWithin estimateTokens maxTokens chunks ↔
            ∀ q ∈ ps, PushFits estimateTokens maxTokens content q) := by
  induction paras with
  | nil =>
    intro chunkStart chunkEnd tokens cursor chunks h
    rw [textLoop] at h
    refine ⟨_, rfl, ?_⟩
    split at h
    · rename_i hopen
      rw [if_pos hopen, List.forall_mem_singleton]
      exact pushSlice_within hbytes hmax h
    · rename_i hclosed
      obtain rfl := Option.some.inj h
      rw [if_neg hclosed]
      exact iff_of_true (fun c hc => (by cases hc)) (fun q hq => (by cases hq))
  | cons para paras ih =>
    intro chunkStart chunkEnd tokens cursor chunks h
    rw [textLoop] at h
    rw [pushes]
    dsimp only at h ⊢
    generalize min cursor (byteLen content) = paraStart at h ⊢
    generalize min (paraStart + byteLen para) (byteLen content) = paraEnd at h ⊢
    generalize min (paraEnd + 2) (byteLen content) = next at h ⊢
    split at h
    · rename_i hover
      obtain ⟨flushed, hflushed, h⟩ : ∃ flushed, (if chunkStart < chunkEnd ∧ 0 < tokens then
          pushSlice estimateTokens maxTokens content chunkStart chunkEnd else some []) =
            some flushed ∧ (pushWordGroups estimateTokens maxTokens content paraStart paraEnd).bind
              (fun groups => (textLoop estimateTokens maxTokens content overlapTokens next next 0
                next paras).bind fun rest => some (flushed ++ (groups ++ rest))) = some chunks := by
        by_cases hopen : chunkStart < chunkEnd ∧ 0 < tokens
        · rw [if_pos hopen] at h ⊢
          exact Option.bind_eq_some_iff.mp h
        · rw [if_neg hopen] at h ⊢
          exact ⟨[], rfl, h⟩
      obtain ⟨groups, hgroups, h⟩ := Option.bind_eq_some_iff.mp h
      obtain ⟨rest, hrest, h⟩ := Option.bind_eq_some_iff.mp h
      obtain rfl : flushed ++ (groups ++ rest) = chunks := Option.some.inj h
      obtain ⟨ps, hps, hiff⟩ := ih hrest
      rw [if_pos hover, hps]
      refine ⟨_, rfl, ?_⟩
      rw [chunksWithin_append, chunksWithin_append, hiff, pushParagraph_within hbytes hmax hgroups,
        List.forall_mem_append, List.forall_mem_cons]
      refine and_congr_left_iff.mpr fun _ => ?_
      split at hflushed
      · rename_i hopen
        rw [if_pos hopen, List.forall_mem_singleton]
        exact pushSlice_within hbytes hmax hflushed
      · rename_i hclosed
        obtain rfl := Option.some.inj hflushed
        rw [if_neg hclosed]
        exact iff_of_true (fun c hc => (by cases hc)) (fun q hq => (by cases hq))
    · rename_i hover
      rw [if_neg hover]
      split at h
      · rename_i hflush
        obtain ⟨flushed, hflushed, h⟩ := Option.bind_eq_some_iff.mp h
        obtain ⟨overlapBytes, hoverlap, h⟩ := Option.bind_eq_some_iff.mp h
        obtain ⟨rest, hrest, h⟩ := Option.bind_eq_some_iff.mp h
        obtain rfl : flushed ++ rest = chunks := Option.some.inj h
        obtain ⟨ps, hps, hiff⟩ := ih hrest
        rw [if_pos hflush, hoverlap, Option.bind_eq_bind, Option.bind_some, hps]
        refine ⟨_, rfl, ?_⟩
        rw [chunksWithin_append, hiff, List.forall_mem_cons]
        exact and_congr_left_iff.mpr fun _ => pushSlice_within hbytes hmax hflushed
      · rename_i hopen
        rw [if_neg hopen]
        exact ih h

theorem textChunk_within (hbytes : ∀ t, estimateTokens t ≤ byteLen t) (hmax : 1 ≤ maxTokens)
    {overlapTokens : Nat} {chunks : List RawChunk}
    (h : (TextChunker.mk maxTokens overlapTokens).chunk estimateTokens content = some chunks) :
    ChunksWithin estimateTokens maxTokens chunks ↔
      TextFits estimateTokens maxTokens content overlapTokens := by
  obtain ⟨ps, hps, hiff⟩ := textLoop_within hbytes hmax h
  rw [hiff]
  refine ⟨fun hall ps' hps' => ?_, fun hfits => hfits ps hps⟩
  rw [← Option.some.inj (hps.symm.trans hps')]
  exact hall

end Text

/-- Which chunks are within the budget: of the paragraph chunker, of the code chunker and of the
recursive chunker. -/
theorem chunks_within (estimateTokens : List Char → Nat) (hsub : Subadditive estimateTokens)
    (hbytes : ∀ t, estimateTokens t ≤ byteLen t) (content : List Char) (path : String)
    (maxTokens overlapTokens : Nat) (hmax : 1 ≤ maxTokens) :
    (∀ chunks, (TextChunker.mk maxTokens overlapTokens).chunk estimateTokens content = some chunks →
      (ChunksWithin estimateTokens maxTokens chunks ↔
        TextFits estimateTokens maxTokens content overlapTokens)) ∧
    (∀ chunks, (CodeChunker.mk maxTokens overlapTokens).chunk estimateTokens content path =
      some chunks → (ChunksWithin estimateTokens maxTokens chunks ↔
        CodeFits estimateTokens maxTokens overlapTokens content (detectLanguage path))) ∧
    ∀ (separators : List (List Char)) (fuel : Nat) (chunks : List RawChunk),
      (RecursiveChunker.withSeparators maxTokens overlapTokens separators).chunk estimateTokens
        fuel content = some chunks → (ChunksWithin estimateTokens maxTokens chunks ↔
          RecursiveFits estimateTokens maxTokens separators content) :=
  ⟨fun _ h => textChunk_within hbytes hmax h, fun _ h => codeChunk_within hsub h,
    fun _ _ _ h => chunkRecursive_within hmax h⟩

/-- Words with a tabulator between them, a function and words with a vertical tab between them, all
over a budget of one. -/
theorem chunks_within_not :
    ((RecursiveChunker.new 1 0).chunk List.length 5 "ab\tcd".toList).map
        (·.map RawChunk.content) = some ["ab\tc".toList, "d".toList] ∧
    ((CodeChunker.mk 1 0).chunk List.length "fn f() {}".toList "a.rs").map
        (·.map RawChunk.content) = some ["fn f() {}".toList] ∧
    ((TextChunker.mk 1 0).chunk List.length "ab\x0bcd ef".toList).map
        (·.map RawChunk.content) = some ["ab\x0bcd".toList, " ".toList, "ef".toList] ∧
    ¬ ∀ (estimateTokens : List Char → Nat), Subadditive estimateTokens →
      (∀ t, estimateTokens t ≤ byteLen t) → ∀ (content : List Char) (path : String)
        (maxTokens overlapTokens fuel : Nat) (chunks : List RawChunk), 1 ≤ maxTokens →
          (TextChunker.mk maxTokens overlapTokens).chunk estimateTokens content = some chunks ∨
          (CodeChunker.mk maxTokens overlapTokens).chunk estimateTokens content path =
            some chunks ∨
          (RecursiveChunker.new maxTokens overlapTokens).chunk estimateTokens fuel content =
            some chunks → ChunksWithin estimateTokens maxTokens chunks := by
  have hrun : ((RecursiveChunker.new 1 0).chunk List.length 5 "ab\tcd".toList).map
      (·.map RawChunk.content) = some ["ab\tc".toList, "d".toList] := by decide
  refine ⟨hrun, by decide, by decide, fun h => ?_⟩
  obtain ⟨chunks, hchunks, htexts⟩ := Option.map_eq_some_iff.mp hrun
  have hwithin := h List.length (fun s t => Nat.le_of_eq List.length_append) length_le_byteLen
    "ab\tcd".toList "notes" 1 0 5 chunks (Nat.le_refl 1) (.inr (.inr hchunks))
  have hmem : "ab\tc".toList ∈ chunks.map RawChunk.content := by
    rw [htexts]
    exact List.mem_cons_self
  obtain ⟨c, hc, htext⟩ := List.mem_map.mp hmem
  have hfits := hwithin c hc
  rw [htext] at hfits
  rcases hfits with hlen | hblank
  · exact absurd hlen (by decide)
  · have htab : '\t' ∈ "ab\tc".toList := List.contains_iff_mem.mp rfl
    exact absurd (hblank '\t' htab) (by decide)

theorem chunks_within_short : ∃ chunks,
    (RecursiveChunker.new 8 0).chunk List.length 7 "ab\n\ncde".toList = some chunks ∧
      ChunksWithin List.length 8 chunks := by
  have hsome : ((RecursiveChunker.new 8 0).chunk List.length 7 "ab\n\ncde".toList).isSome =
      true := by decide
  obtain ⟨chunks, hchunks⟩ := Option.isSome_iff_exists.mp hsome
  refine ⟨chunks, hchunks, ((chunks_within List.length (fun s t => Nat.le_of_eq List.length_append)
    length_le_byteLen "ab\n\ncde".toList "notes" 8 0 (by decide)).2.2 _ 7 chunks hchunks).mpr ?_⟩
  have hnone : overBudget List.length 8 [['\n', '\n'], ['\n'], ['.', ' '], [' ']]
      "ab\n\ncde".toList = [] := by decide
  rw [RecursiveFits, hnone]
  exact fun t ht => (by cases ht)

end Arags.Embedding
