import Arags.Embedding.RawChunk

/-!
# Arags.Embedding.TextChunker

Paragraph chunking. `none` is a slice that is out of range or not on character boundaries.

* `wordSpans`, `wordGroups`, `shrinkFit`, `pushWordGroups` — the hard split by words.
* `pushSlice`             — the closure `push`.
* `estimateOverlapBytes`  — how far the next chunk starts before the flush point.
* `textLoop`              — the loop over the paragraphs.
-/

namespace Arags.Embedding

open Text

structure TextChunker where
  maxTokens : Nat
  overlapTokens : Nat

def separatorTokens : Nat := 1

def paragraphSeparator : List Char := ['\n', '\n']

def paragraphChunk (start stop : Nat) (content : List Char) : RawChunk where
  offsetStart := start
  offsetEnd := stop
  lineStart := 0
  lineEnd := 0
  content := content
  language := none
  chunkType := some "paragraph"

/-- `u8::is_ascii_whitespace`. No byte of a longer character is one of these. -/
def isAsciiWhitespace (c : Char) : Bool :=
  c == ' ' || c == '\t' || c == '\n' || c == '\r' || c == Char.ofNat 12

/-- `WordSpans` from byte `pos` on; `start` is where the word it is in started. -/
def wordSpans : Option Nat → Nat → List Char → List (Nat × Nat)
  | none, _, [] => []
  | some start, pos, [] => [(start, pos)]
  | none, pos, c :: s =>
    if isAsciiWhitespace c then wordSpans none (pos + c.utf8Size) s
    else wordSpans (some pos) (pos + c.utf8Size) s
  | some start, pos, c :: s =>
    if isAsciiWhitespace c then (start, pos) :: wordSpans none (pos + c.utf8Size) s
    else wordSpans (some start) (pos + c.utf8Size) s

section Chunk

variable (estimateTokens : List Char → Nat) (maxTokens : Nat) (content : List Char)

/-- The loop over the words: the groups it closes, and the start of the last one. -/
def wordGroups (start : Nat) : Nat → Nat → List (Nat × Nat) → Option (List RawChunk × Nat)
  | groupStart, _, [] => some ([], groupStart)
  | groupStart, groupEnd, span :: spans => do
    let candidateEnd := start + span.2
    let candidate ← slice content groupStart candidateEnd
    if maxTokens < estimateTokens candidate ∧ groupStart + 1 < candidateEnd then do
      let cut := prevCharBoundary content groupEnd
      let closed ← if groupStart < cut then
          (slice content groupStart cut).map fun text => [paragraphChunk groupStart cut text]
        else some []
      let (groups, last) ← wordGroups start groupEnd candidateEnd spans
      return (closed ++ groups, last)
    else wordGroups start groupStart candidateEnd spans

/-- Each round cuts the last word off. A round for each byte is enough. -/
def shrinkFit (groupStart : Nat) : Nat → Nat → Option Nat
  | 0, _ => none
  | fuel + 1, fit =>
    if groupStart < fit then do
      let seg ← slice content groupStart fit
      if maxTokens < estimateTokens seg then
        match rfind isWhiteSpace (trimEnd seg) with
        | some i => shrinkFit groupStart fuel (groupStart + (i + 1))
        | none => some fit
      else some fit
    else some fit

def pushWordGroups (start stop : Nat) : Option (List RawChunk) := do
  let segment ← slice content start stop
  let (groups, groupStart) ←
    wordGroups estimateTokens maxTokens content start start start (wordSpans none 0 segment)
  let tailEnd := prevCharBoundary content stop
  if groupStart < tailEnd then do
    let tail ← slice content groupStart tailEnd
    if 0 < estimateTokens tail then do
      let fit ← shrinkFit estimateTokens maxTokens content groupStart tailEnd tailEnd
      let fitted ← slice content groupStart fit
      if fit < tailEnd then do
        let leftover ← slice content fit tailEnd
        return groups ++ paragraphChunk groupStart fit fitted ::
          if 0 < estimateTokens leftover then [paragraphChunk fit tailEnd leftover] else []
      else return groups ++ [paragraphChunk groupStart fit fitted]
    else return groups
  else return groups

/-- The end of a slice, before a separator that stands there. -/
def trimStop (stop : Nat) : Option Nat :=
  if 2 ≤ stop then
    (slice content (stop - 2) stop).map fun t => if t = paragraphSeparator then stop - 2 else stop
  else some stop

/-- `push(&mut chunks, s, e, content)`. -/
def pushSlice (s e : Nat) : Option (List RawChunk) := do
  let stop ← trimStop content (min e (byteLen content))
  let cut := prevCharBoundary content stop
  if cut ≤ s then return []
  else do
    let text ← slice content s cut
    if maxTokens < estimateTokens text then
      pushWordGroups estimateTokens maxTokens content s cut
    else return if estimateTokens text = 0 then [] else [paragraphChunk s cut text]

/-- The bytes up to the end of the last of these words. -/
def bytesThrough (pre : List Char) : Nat → List (List Char) → Option Nat
  | byteOffset, [] => some byteOffset
  | byteOffset, word :: ws => do
    let rest ← slice pre byteOffset (byteLen pre)
    bytesThrough pre (byteOffset + (find word rest).getD 0 + byteLen word) ws

def estimateOverlapBytes (chunkStart overlapTokens : Nat) : Option Nat :=
  if overlapTokens = 0 then some 0
  else do
    let pre ← slice content 0 chunkStart
    let wordCount := (words pre).length
    bytesThrough pre 0 ((words pre).take (wordCount - overlapTokens))

/-- The loop over the paragraphs, with what is pushed after it. -/
def textLoop (overlapTokens : Nat) : Nat → Nat → Nat → Nat → List (List Char) →
    Option (List RawChunk)
  | chunkStart, chunkEnd, _, _, [] =>
    if chunkStart < chunkEnd then
      pushSlice estimateTokens maxTokens content chunkStart (byteLen content)
    else some []
  | chunkStart, chunkEnd, chunkTokenCount, cursor, para :: paragraphs => do
    let paraStart := min cursor (byteLen content)
    let paraEnd := min (paraStart + byteLen para) (byteLen content)
    let cursor := min (paraEnd + 2) (byteLen content)
    let paraTokens := estimateTokens para
    if maxTokens < paraTokens then do
      let flushed ← if chunkStart < chunkEnd ∧ 0 < chunkTokenCount then
          pushSlice estimateTokens maxTokens content chunkStart chunkEnd
        else some []
      let groups ← pushWordGroups estimateTokens maxTokens content paraStart paraEnd
      let rest ← textLoop overlapTokens cursor cursor 0 cursor paragraphs
      return flushed ++ (groups ++ rest)
    else if maxTokens < chunkTokenCount + paraTokens ∧ chunkStart < chunkEnd then do
      let flushed ← pushSlice estimateTokens maxTokens content chunkStart chunkEnd
      let overlapBytes ← estimateOverlapBytes content chunkEnd overlapTokens
      let chunkStart := chunkEnd - overlapBytes
      let rest ← textLoop overlapTokens chunkStart (chunkStart + (byteLen para + 2))
        (overlapTokens + min separatorTokens (maxTokens + 1) + (paraTokens + separatorTokens))
        cursor paragraphs
      return flushed ++ rest
    else
      textLoop overlapTokens chunkStart (chunkEnd + (byteLen para + 2))
        (chunkTokenCount + (paraTokens + separatorTokens)) cursor paragraphs

end Chunk

def TextChunker.chunk (self : TextChunker) (estimateTokens : List Char → Nat)
    (content : List Char) : Option (List RawChunk) :=
  textLoop estimateTokens self.maxTokens content self.overlapTokens 0 0 0 0
    (split paragraphSeparator content)

/-- A text that ends in a character of three bytes; white space of two bytes between two words of
an oversized paragraph. -/
example : (TextChunker.mk 8 0).chunk List.length "a€".toList = none ∧
    (TextChunker.mk 3 0).chunk List.length "ab\u00a0cd".toList = none ∧
    ((TextChunker.mk 3 0).chunk List.length "ab\n\ncd ef".toList).map
      (·.map RawChunk.content) = some ["ab".toList, "cd".toList, " ef".toList] := by decide

end Arags.Embedding
