import Arags.Embedding.RawChunk

/-!
# Arags.Embedding.RecursiveChunker

Size-based chunking by a hierarchy of separators. `estimateTokens` is the tokenizer's count.

* `hardSplit`      — the last resort: slices of `max_tokens * 4` bytes. Its `fuel` counts rounds.
* `chunkRecursive` — a text within the budget is a chunk; a longer one is split at the next
  separator.
* `chunkRecursive_tiling` — with fuel for the bytes of the text the chunks make it up.
-/

namespace Arags.Embedding

open Text

structure RecursiveChunker where
  maxTokens : Nat
  overlapTokens : Nat
  separators : List (List Char)

def RecursiveChunker.new (maxTokens overlapTokens : Nat) : RecursiveChunker where
  maxTokens := maxTokens
  overlapTokens := overlapTokens
  separators := [['\n', '\n'], ['\n'], ['.', ' '], [' ']]

def RecursiveChunker.withSeparators (maxTokens overlapTokens : Nat)
    (separators : List (List Char)) : RecursiveChunker where
  maxTokens := maxTokens
  overlapTokens := overlapTokens
  separators := separators

def recursiveChunk (start : Nat) (content : List Char) : RawChunk where
  offsetStart := start
  offsetEnd := start + byteLen content
  lineStart := 0
  lineEnd := 0
  content := content
  language := none
  chunkType := some "recursive"

/-- The `while` loop from byte `start` of the text on. -/
def hardSplit (estimateTokens : List Char → Nat) (maxTokens : Nat) (content : List Char)
    (chunkStart : Nat) : Nat → Nat → Option (List RawChunk)
  | 0, start => if start < byteLen content then none else some []
  | fuel + 1, start =>
    if start < byteLen content then do
      let stop := prevCharBoundary content (min (start + maxTokens * 4) (byteLen content))
      let piece ← slice content start stop
      let rest ← hardSplit estimateTokens maxTokens content chunkStart fuel stop
      return if 0 < estimateTokens piece then recursiveChunk (chunkStart + start) piece :: rest
        else rest
    else some []

/-- The pieces of a text from byte `pieceStart` on: each but the last gets its separator back and is
chunked further at `offset`. -/
def chunkPieces (chunkFurther : List Char → Nat → Option (List RawChunk))
    (content separator : List Char) : Nat → Nat → List (List Char) → Option (List RawChunk)
  | _, _, [] => some []
  | pieceStart, offset, piece :: pieces => do
    let pieceEnd := pieceStart + byteLen piece
    let pieceContent ← slice content pieceStart
      (if pieces.isEmpty then pieceEnd else pieceEnd + byteLen separator)
    let subChunks ← chunkFurther pieceContent offset
    let rest ← chunkPieces chunkFurther content separator (pieceEnd + byteLen separator)
      (offset + byteLen pieceContent) pieces
    return subChunks ++ rest

/-- On the separators from `separator_idx` on. -/
def chunkRecursive (estimateTokens : List Char → Nat) (maxTokens fuel : Nat) :
    List (List Char) → List Char → Nat → Option (List RawChunk)
  | [], content, chunkStart =>
    if estimateTokens content ≤ maxTokens then
      some (if estimateTokens content = 0 then [] else [recursiveChunk chunkStart content])
    else hardSplit estimateTokens maxTokens content chunkStart fuel 0
  | separator :: separators, content, chunkStart =>
    if estimateTokens content ≤ maxTokens then
      some (if estimateTokens content = 0 then [] else [recursiveChunk chunkStart content])
    else
      chunkPieces (chunkRecursive estimateTokens maxTokens fuel separators) content separator 0
        chunkStart (split separator content)

def RecursiveChunker.chunk (self : RecursiveChunker) (estimateTokens : List Char → Nat)
    (fuel : Nat) (content : List Char) : Option (List RawChunk) :=
  chunkRecursive estimateTokens self.maxTokens fuel self.separators content 0

section Tile

variable {estimateTokens : List Char → Nat} {maxTokens : Nat}

/-- Four bytes hold a character at least, so every round of the last resort moves on. -/
theorem lt_hardSplit_stop (p : List Char) (c : Char) (t : List Char) (hmax : 1 ≤ maxTokens) :
    byteLen p < prevCharBoundary (p ++ c :: t)
      (min (byteLen p + maxTokens * 4) (byteLen (p ++ c :: t))) := by
  have hc := c.utf8Size_pos
  have hc4 := c.utf8Size_le_four
  have hlen : byteLen (p ++ c :: t) = byteLen p + (c.utf8Size + byteLen t) := by
    rw [byteLen_append, byteLen_cons]
  have hb : isCharBoundary (p ++ c :: t) (byteLen p + c.utf8Size) = true := by
    refine isCharBoundary_iff.mpr ⟨p ++ [c], t, ?_, ?_⟩
    · rw [List.append_assoc, List.singleton_append]
    · rw [byteLen_append, byteLen_cons, byteLen_nil, Nat.add_zero]
  refine Nat.lt_of_lt_of_le (Nat.lt_add_of_pos_right hc) (le_prevCharBoundary hb ?_)
  omega

/-- One round: the slice it takes, as many characters as the bytes hold, the text that is left, and
the chunks of the rest. -/
theorem hardSplit_round (estimateTokens : List Char → Nat) (hmax : 1 ≤ maxTokens)
    (chunkStart fuel : Nat) (p : List Char) (c : Char) (t : List Char) :
    ∃ m q, c :: t = m ++ q ∧ m ≠ [] ∧ byteLen m ≤ maxTokens * 4 ∧
      (∀ d ∈ q.head?, maxTokens * 4 < byteLen m + d.utf8Size) ∧
      hardSplit estimateTokens maxTokens (p ++ c :: t) chunkStart (fuel + 1) (byteLen p) =
        (hardSplit estimateTokens maxTokens (p ++ c :: t) chunkStart fuel (byteLen (p ++ m))).map
          fun rest => if 0 < estimateTokens m then
            recursiveChunk (chunkStart + byteLen p) m :: rest else rest := by
  have hlt := lt_hardSplit_stop p c t hmax
  have hlen : byteLen p < byteLen (p ++ c :: t) :=
    Nat.lt_of_lt_of_le hlt (isCharBoundary_le (prevCharBoundary_boundary _ _))
  obtain ⟨m, q, htail, hstop, hslice⟩ :=
    exists_slice (prevCharBoundary_boundary _ _) (Nat.le_of_lt hlt)
  have hm : m ≠ [] := by
    rintro rfl
    rw [byteLen_nil] at hstop
    omega
  have hle := prevCharBoundary_le (p ++ c :: t)
    (min (byteLen p + maxTokens * 4) (byteLen (p ++ c :: t)))
  refine ⟨m, q, htail, hm, by omega, fun d hd => ?_, ?_⟩
  · -- one character more would be a later boundary
    obtain ⟨q', rfl⟩ := List.head?_eq_some_iff.mp hd
    by_contra hfit
    have hsplit : p ++ c :: t = (p ++ m ++ [d]) ++ q' := by
      rw [htail]
      simp only [List.append_assoc, List.singleton_append]
    have hb : isCharBoundary (p ++ c :: t) (byteLen (p ++ m ++ [d])) = true := by
      rw [hsplit]
      exact isCharBoundary_append _ _
    have hbyte : byteLen (p ++ m ++ [d]) = byteLen p + byteLen m + d.utf8Size := by
      rw [byteLen_append, byteLen_append, byteLen_cons, byteLen_nil, Nat.add_zero]
    have hend := isCharBoundary_le hb
    have hpos := d.utf8Size_pos
    have := @le_prevCharBoundary _ _ (min (byteLen p + maxTokens * 4) (byteLen (p ++ c :: t))) hb
      (by omega)
    omega
  rw [hardSplit, if_pos hlen]
  dsimp only
  rw [hslice, ← hstop, ← byteLen_append]
  cases hardSplit estimateTokens maxTokens (p ++ c :: t) chunkStart fuel (byteLen (p ++ m)) <;> rfl

theorem hardSplit_tiling (hmax : 1 ≤ maxTokens) (chunkStart : Nat) {fuel : Nat} :
    ∀ {p t : List Char}, byteLen t ≤ fuel →
      ∃ chunks, hardSplit estimateTokens maxTokens (p ++ t) chunkStart fuel (byteLen p) =
        some chunks ∧
          (PositiveEstimate estimateTokens → Tiling (chunkStart + byteLen p) t chunks) := by
  induction fuel with
  | zero =>
    intro p t hfuel
    obtain rfl : t = [] := byteLen_eq_zero.mp (by omega)
    refine ⟨[], ?_, fun _ => rfl⟩
    rw [hardSplit, if_neg (by simp)]
  | succ fuel ih =>
    intro p t hfuel
    cases t with
    | nil => exact ⟨[], by rw [hardSplit, if_neg (by simp)], fun _ => rfl⟩
    | cons c t =>
      obtain ⟨m, q, htail, hm, -, -, hround⟩ :=
        hardSplit_round estimateTokens hmax chunkStart fuel p c t
      have hlen : byteLen (c :: t) = byteLen m + byteLen q := by rw [htail, byteLen_append]
      have hmpos := byteLen_pos hm
      obtain ⟨rest, hrest, htile⟩ := @ih (p ++ m) q (by omega)
      rw [List.append_assoc, ← htail] at hrest
      rw [hround, hrest]
      refine ⟨_, rfl, fun hpos => ?_⟩
      have htile := htile hpos
      rw [byteLen_append, ← Nat.add_assoc] at htile
      dsimp only
      rw [if_pos (hpos m hm)]
      exact ⟨q, htail, rfl, rfl, htile⟩

theorem chunkPieces_tiling {chunkFurther : List Char → Nat → Option (List RawChunk)} {n : Nat}
    (hfurther : ∀ t o, byteLen t ≤ n → ∃ chunks, chunkFurther t o = some chunks ∧
      (PositiveEstimate estimateTokens → Tiling o t chunks))
    {separator t : List Char} {pieces : List (List Char)} (hsplit : IsSplit separator t pieces) :
    ∀ {p : List Char} (offset : Nat), byteLen t ≤ n → ∃ chunks,
      chunkPieces chunkFurther (p ++ t) separator (byteLen p) offset pieces = some chunks ∧
        (PositiveEstimate estimateTokens → Tiling offset t chunks) := by
  induction hsplit with
  | last t =>
    intro p offset hn
    obtain ⟨chunks, hchunks, htile⟩ := hfurther t offset hn
    refine ⟨chunks ++ [], ?_, by rwa [List.append_nil]⟩
    have hslice : slice (p ++ t) (byteLen p) (byteLen p + byteLen t) = some t :=
      slice_mid (by rw [List.append_nil]) rfl rfl
    rw [chunkPieces, List.isEmpty_nil, if_pos rfl, hslice]
    show (chunkFurther t offset).bind _ = _
    rw [hchunks]
    rfl
  | @cons piece s pieces hrest ih =>
    intro p offset hn
    have hlen : byteLen (piece ++ (separator ++ s)) = byteLen (piece ++ separator) + byteLen s := by
      simp only [byteLen_append]
      omega
    obtain ⟨chunks, hchunks, htile⟩ := hfurther (piece ++ separator) offset (by omega)
    obtain ⟨rest, hrests, htiles⟩ := @ih (p ++ (piece ++ separator))
      (offset + byteLen (piece ++ separator)) (by omega)
    refine ⟨chunks ++ rest, ?_, fun hpos => ?_⟩
    · have hslice : slice (p ++ (piece ++ (separator ++ s))) (byteLen p)
          (byteLen p + byteLen piece + byteLen separator) = some (piece ++ separator) :=
        slice_mid (q := s) (by simp only [List.append_assoc]) rfl
          (by rw [byteLen_append, Nat.add_assoc])
      rw [chunkPieces, List.isEmpty_eq_false_iff.mpr hrest.ne_nil, if_neg Bool.false_ne_true,
        hslice]
      show (chunkFurther (piece ++ separator) offset).bind _ = _
      rw [hchunks]
      rw [byteLen_append, byteLen_append, ← Nat.add_assoc] at hrests
      simp only [List.append_assoc] at hrests
      show (chunkPieces chunkFurther _ separator _ _ pieces).bind _ = _
      rw [byteLen_append, hrests]
      rfl
    · rw [← List.append_assoc]
      exact (htile hpos).append (htiles hpos)

/-- With fuel for the bytes of the text the chunker returns, and its chunks make up the text. -/
theorem chunkRecursive_tiling (hmax : 1 ≤ maxTokens) {fuel : Nat}
    {separators : List (List Char)} : ∀ {content : List Char} {chunkStart : Nat},
      byteLen content ≤ fuel → ∃ chunks,
        chunkRecursive estimateTokens maxTokens fuel separators content chunkStart =
          some chunks ∧ (PositiveEstimate estimateTokens → Tiling chunkStart content chunks) := by
  -- A text within the budget is one chunk, unless it is empty.
  have hwhole (content : List Char) (chunkStart : Nat) (hpos : PositiveEstimate estimateTokens) :
      Tiling chunkStart content (if estimateTokens content = 0 then []
        else [recursiveChunk chunkStart content]) := by
    split
    · rename_i hzero
      by_contra hne
      exact absurd (hpos content hne) (by omega)
    · exact .singleton (c := recursiveChunk chunkStart content) rfl rfl
  induction separators with
  | nil =>
    intro content chunkStart hfuel
    rw [chunkRecursive]
    split
    · exact ⟨_, rfl, hwhole content chunkStart⟩
    · exact @hardSplit_tiling _ _ hmax chunkStart fuel [] content hfuel
  | cons separator separators ih =>
    intro content chunkStart hfuel
    rw [chunkRecursive]
    split
    · exact ⟨_, rfl, hwhole content chunkStart⟩
    · exact @chunkPieces_tiling _ _ fuel (fun t o ht => ih ht) separator content _
        (split_isSplit separator content) [] chunkStart hfuel

end Tile

end Arags.Embedding
