import Arags.Embedding.RecursiveChunker

/-!
# Arags.Embedding.MarkdownChunker

Heading-based chunking, and what it shares with the recursive chunker: the chunks tile the text.

* `markdownSections` — the loop over the lines, with the section that is open.
* `chunks_tile`      — both chunkers return consecutive slices of the whole text; the heading
  chunker leaves out a last section that is blank, and starts its chunks at headings.
-/

namespace Arags.Embedding

open Text

/-- Sections over the budget are emitted as they are: nothing reads `maxTokens`. -/
structure MarkdownChunker where
  maxTokens : Nat

/-- `line.trim_start().starts_with('#')`. -/
def isHeading (line : List Char) : Bool := (line.dropWhile isWhiteSpace).head? == some '#'

def headingChunk (start stop : Nat) (content : List Char) : RawChunk where
  offsetStart := start
  offsetEnd := stop
  lineStart := 0
  lineEnd := 0
  content := content
  language := none
  chunkType := some "heading"

/-- The lines from byte `byteOffset` on, while the section from `sectionStart` on is open. -/
def markdownSections (content : List Char) : Nat → Nat → List (List Char) →
    Option (List RawChunk)
  | sectionStart, byteOffset, [] =>
    if sectionStart < byteOffset then do
      let text ← slice content sectionStart (byteLen content)
      return if text.all isWhiteSpace then []
        else [headingChunk sectionStart (byteLen content) text]
    else some []
  | sectionStart, byteOffset, line :: lines =>
    if isHeading line ∧ sectionStart < byteOffset then do
      let text ← slice content sectionStart byteOffset
      let rest ← markdownSections content byteOffset (byteOffset + byteLen line) lines
      return headingChunk sectionStart byteOffset text :: rest
    else markdownSections content sectionStart (byteOffset + byteLen line) lines

def MarkdownChunker.chunk (_self : MarkdownChunker) (content : List Char) :
    Option (List RawChunk) :=
  markdownSections content 0 0 (splitInclusive content)

/-- A line of `lines`, which start at byte `o`, is a heading and starts at byte `i`. -/
def HeadingAt (o : Nat) (lines : List (List Char)) (i : Nat) : Prop :=
  ∃ before line after, lines = before ++ line :: after ∧ isHeading line = true ∧
    i = o + byteLen before.flatten

theorem HeadingAt.cons {o i : Nat} {lines : List (List Char)} (line : List Char)
    (h : HeadingAt (o + byteLen line) lines i) : HeadingAt o (line :: lines) i := by
  obtain ⟨before, l, after, rfl, hl, rfl⟩ := h
  refine ⟨line :: before, l, after, rfl, hl, ?_⟩
  rw [List.flatten_cons, byteLen_append, Nat.add_assoc]

/-- What the loop returns: chunks of the text up to a blank tail, the later ones at headings. -/
structure Sections (o i : Nat) (text : List Char) (lines : List (List Char))
    (chunks : List RawChunk) : Prop where
  tiling : ∃ head tail, text = head ++ tail ∧ tail.all isWhiteSpace = true ∧ Tiling o head chunks
  headings : ∀ c ∈ chunks.tail, HeadingAt i lines c.offsetStart

theorem markdownSections_sections {content : List Char} {lines : List (List Char)} :
    ∀ {p s : List Char}, content = p ++ (s ++ lines.flatten) → (∀ l ∈ lines, l ≠ []) →
      ∃ chunks, markdownSections content (byteLen p) (byteLen p + byteLen s) lines =
        some chunks ∧ Sections (byteLen p) (byteLen p + byteLen s) (s ++ lines.flatten) lines
          chunks := by
  induction lines with
  | nil =>
    intro p s hcontent _
    rw [List.flatten_nil, List.append_nil] at hcontent ⊢
    rw [markdownSections]
    split
    · have hslice : slice content (byteLen p) (byteLen content) = some s :=
        slice_mid (q := []) (by rw [hcontent, List.append_nil]) rfl
          (by rw [hcontent, byteLen_append])
      rw [hslice]
      by_cases hblank : s.all isWhiteSpace = true
      · refine ⟨[], congrArg some (if_pos hblank), ⟨[], s, rfl, hblank, rfl⟩, by simp⟩
      · refine ⟨[headingChunk (byteLen p) (byteLen content) s], congrArg some (if_neg hblank),
          ⟨s, [], (List.append_nil s).symm, rfl,
            .singleton (c := headingChunk (byteLen p) (byteLen content) s) rfl ?_⟩, by simp⟩
        show byteLen content = byteLen p + byteLen s
        rw [hcontent, byteLen_append]
    · rename_i hge
      obtain rfl : s = [] := byteLen_eq_zero.mp (by omega)
      exact ⟨[], rfl, ⟨[], [], rfl, rfl, rfl⟩, by simp⟩
  | cons line lines ih =>
    intro p s hcontent hne
    obtain ⟨-, hlines⟩ := List.forall_mem_cons.mp hne
    rw [markdownSections]
    split
    · rename_i hflush
      have hslice : slice content (byteLen p) (byteLen p + byteLen s) = some s :=
        slice_mid hcontent rfl rfl
      obtain ⟨rest, hrest, ⟨head, tail, hsplit, hblank, htile⟩, hheads⟩ :=
        @ih (p ++ s) line (by simpa using hcontent) hlines
      rw [byteLen_append] at hrest htile hheads
      rw [hslice]
      refine ⟨headingChunk (byteLen p) (byteLen p + byteLen s) s :: rest, ?_,
        ⟨s ++ head, tail, ?_, hblank, head, rfl, rfl, rfl, htile⟩, ?_⟩
      · show (markdownSections _ _ _ lines).bind _ = _
        rw [hrest]
        rfl
      · rw [List.flatten_cons, hsplit, List.append_assoc]
      · show ∀ c ∈ rest, _
        -- the first of the later chunks starts at the heading itself
        cases rest with
        | nil => simp
        | cons d rest =>
          refine List.forall_mem_cons.mpr ⟨?_, fun c hc => (hheads c hc).cons line⟩
          refine ⟨[], line, lines, rfl, hflush.1, ?_⟩
          simpa using htile.head d rfl
    · obtain ⟨rest, hrest, ⟨head, tail, hsplit, hblank, htile⟩, hheads⟩ :=
        @ih p (s ++ line) (by simpa using hcontent) hlines
      rw [byteLen_append, ← Nat.add_assoc] at hrest hheads
      refine ⟨rest, hrest, ⟨head, tail, ?_, hblank, htile⟩, fun c hc => (hheads c hc).cons line⟩
      rw [List.flatten_cons, ← List.append_assoc, hsplit]

/-- For every separator list the recursive chunker terminates, with a round for each byte of fuel
enough, and its chunks tile the text; those of the heading chunker do so up to a blank tail, and
each but the first starts at a heading line. -/
theorem chunks_tile (estimateTokens : List Char → Nat)
    (hpos : PositiveEstimate estimateTokens) (content : List Char)
    (maxTokens overlapTokens : Nat) (hmax : 1 ≤ maxTokens) (separators : List (List Char)) :
    (∀ fuel, byteLen content ≤ fuel → ∃ chunks,
      (RecursiveChunker.withSeparators maxTokens overlapTokens separators).chunk estimateTokens
        fuel content = some chunks ∧ ConsecutiveSlices content chunks) ∧
      ∃ chunks tail head, (MarkdownChunker.mk maxTokens).chunk content = some chunks ∧
        content = head ++ tail ∧ tail.all isWhiteSpace = true ∧ ConsecutiveSlices head chunks ∧
        (∀ c ∈ chunks, slice content c.offsetStart c.offsetEnd = some c.content) ∧
        ∀ c ∈ chunks.tail, HeadingAt 0 (splitInclusive content) c.offsetStart := by
  constructor
  · intro fuel hfuel
    obtain ⟨chunks, hchunks, htile⟩ :=
      @chunkRecursive_tiling _ _ hmax fuel separators content 0 hfuel
    exact ⟨chunks, hchunks, (htile hpos).toSlices⟩
  · obtain ⟨chunks, hchunks, ⟨head, tail, hsplit, hblank, htile⟩, hheads⟩ :=
      @markdownSections_sections content (splitInclusive content) [] []
        (by simp) (fun l hl => ne_nil_of_mem_splitInclusive hl)
    rw [flatten_splitInclusive, List.nil_append] at hsplit
    have hslices := Tiling.slices (p := []) (q := tail) htile
    rw [List.nil_append, ← hsplit] at hslices
    exact ⟨chunks, tail, head, hchunks, hsplit, hblank, htile.toSlices, hslices, hheads⟩

/-- Two sections; a text of one token for each character, at most two in a chunk. -/
theorem chunks_tile_two_sections :
    ((MarkdownChunker.mk 2).chunk "# a\nb\n # c\n".toList).map (·.map RawChunk.content) =
        some ["# a\nb\n".toList, " # c\n".toList] ∧
      ∀ fuel, byteLen "# a\nb\n # c\n".toList ≤ fuel → ∃ chunks,
        (RecursiveChunker.withSeparators 2 0 [['\n']]).chunk List.length fuel
          "# a\nb\n # c\n".toList = some chunks ∧
            ConsecutiveSlices "# a\nb\n # c\n".toList chunks :=
  ⟨by decide, (chunks_tile List.length (fun _ h => List.length_pos_iff.mpr h)
    "# a\nb\n # c\n".toList 2 0 (by decide) [['\n']]).1⟩

end Arags.Embedding
