import Arags.Embedding.RawChunk

/-!
# Arags.Embedding.CodeChunker

Code-aware chunking: by the structures of a language, or by lines.

* `isStructureStart` — which lines open a function, a class or the like.
* `structureLoop`    — the blocks from one such line to the next.
* `lineLoop`         — windows of lines with overlap.
* `mergeSmallChunks` — neighbours that fit the budget together become one chunk.
-/

namespace Arags.Embedding

open Text

structure CodeChunker where
  maxTokens : Nat
  overlapTokens : Nat

/-! ## Structures -/

def startsWith (line : List Char) (pat : String) : Bool := pat.toList.isPrefixOf line

def structureStarts : String → List String
  | "rust" => ["fn ", "pub fn ", "pub(crate) fn ", "async fn ", "pub async fn ", "struct ",
      "pub struct ", "enum ", "pub enum ", "impl ", "trait ", "pub trait ", "mod ", "pub mod ",
      "type "]
  | "python" => ["def ", "class ", "async def "]
  | "javascript" | "typescript" => ["function ", "export function ", "export default function ",
      "class ", "export class ", "async function ", "export async function ", "const ", "let "]
  | "go" => ["func ", "type ", "package "]
  | "java" => ["public class ", "class ", "public interface ", "interface ", "public enum ",
      "enum "]
  | "cpp" | "c" => ["void ", "int ", "static ", "extern ", "class ", "struct ", "namespace ",
      "template"]
  | _ => []

def isStructureStart (line : List Char) : Option String → Bool
  | none => false
  | some language =>
    (structureStarts language).any (startsWith line) ||
      (language == "java" && (find "public static void main".toList line).isSome &&
        line.contains '(')

/-- Languages that are chunked by their structures. -/
def structured (language : Option String) : Bool :=
  match language with
  | some l => ["rust", "python", "javascript", "typescript", "go", "java", "cpp", "c", "ruby",
      "php"].contains l
  | none => false

/-- The 1-based line of a byte. -/
def byteStartLine (content : List Char) (byteOffset : Nat) : Option Nat :=
  (slice content 0 byteOffset).map fun pre => pre.count '\n' + 1

/-- `content.split('\n').count()`. -/
def splitCount (content : List Char) : Nat := (split ['\n'] content).length

def codeChunk (kind : String) (language : Option String) (start stop lineStart lineEnd : Nat)
    (content : List Char) : RawChunk where
  offsetStart := start
  offsetEnd := stop
  lineStart := lineStart
  lineEnd := lineEnd
  content := content
  language := language
  chunkType := some kind

section Chunk

variable (estimateTokens : List Char → Nat) (content : List Char) (language : Option String)

/-- The block from `blockStart` to `blockEnd`, with the line it ends at. -/
def structureChunk (blockStart blockEnd lineEnd : Nat) : Option (List RawChunk) := do
  let stop := prevCharBoundary content blockEnd
  let text ← slice content blockStart stop
  if 0 < estimateTokens text then do
    let lineStart ← byteStartLine content blockStart
    return [codeChunk "structure" language blockStart stop lineStart lineEnd text]
  else return []

/-- The lines from number `i` on. -/
def structureLoop : Nat → Nat → Nat → Bool → List (List Char) → Option (List RawChunk)
  | _, blockStart, blockEnd, inBlock, [] =>
    if inBlock ∧ blockStart < blockEnd then
      structureChunk estimateTokens content language blockStart blockEnd (splitCount content)
    else some []
  | i, blockStart, blockEnd, inBlock, line :: lines => do
    let trimmed := trimChars line
    let isBlank := trimmed.isEmpty
    let isBlockStart := isStructureStart trimmed language
    if isBlockStart ∧ inBlock ∧ blockStart < blockEnd then do
      let chunk ← structureChunk estimateTokens content language blockStart blockEnd i
      let blockStart := nthLineByteOffset content i
      let rest ← structureLoop (i + 1) blockStart (blockStart + byteLen line) true lines
      return chunk ++ rest
    else if isBlockStart ∨ inBlock then
      structureLoop (i + 1) blockStart (blockEnd + byteLen line) true lines
    else if isBlank ∧ inBlock then
      structureLoop (i + 1) blockStart (blockEnd + byteLen line) inBlock lines
    else structureLoop (i + 1) blockStart blockEnd inBlock lines

/-- The lines from number `i` on, of which `currentLines` before them are in the window. -/
def lineLoop (maxTokens overlapTokens : Nat) :
    Nat → Nat → Nat → Nat → List (List Char) → Option (List RawChunk)
  | _, lineStart, byteStart, _, [] =>
    if byteStart < byteLen content then do
      let text ← slice content byteStart (byteLen content)
      return if 0 < estimateTokens text then
          [codeChunk "lines" language byteStart (byteLen content) (lineStart + 1)
            (splitCount content) text]
        else []
    else some []
  | i, lineStart, byteStart, currentLines, line :: lines =>
    if maxTokens < currentLines + 1 + estimateTokens line ∧ 1 < currentLines + 1 then do
      let stop := prevCharBoundary content (byteStart + byteLen line)
      let text ← slice content byteStart stop
      let overlapLines := min overlapTokens currentLines
      let lineStart' := i + 1 - overlapLines
      let rest ← lineLoop maxTokens overlapTokens (i + 1) lineStart'
        (nthLineByteOffset content lineStart') overlapLines lines
      return codeChunk "lines" language byteStart stop (lineStart + 1) (i + 1) text :: rest
    else lineLoop maxTokens overlapTokens (i + 1) lineStart byteStart (currentLines + 1) lines

end Chunk

/-! ## Merging -/

def mergeChunks (prev chunk : RawChunk) : RawChunk where
  offsetStart := prev.offsetStart
  offsetEnd := chunk.offsetEnd
  lineStart := prev.lineStart
  lineEnd := chunk.lineEnd
  content := prev.content ++ chunk.content
  language := chunk.language
  chunkType := chunk.chunkType

/-- The loop of `merge_small_chunks`, while `prev` is pending. -/
def mergeFrom (estimateTokens : List Char → Nat) (maxTokens : Nat) (prev : RawChunk) :
    List RawChunk → List RawChunk
  | [] => [prev]
  | chunk :: chunks =>
    if estimateTokens prev.content + estimateTokens chunk.content ≤ maxTokens ∧
        prev.chunkType = chunk.chunkType ∧ prev.language = chunk.language then
      mergeFrom estimateTokens maxTokens (mergeChunks prev chunk) chunks
    else prev :: mergeFrom estimateTokens maxTokens chunk chunks

def mergeSmallChunks (estimateTokens : List Char → Nat) (maxTokens : Nat) :
    List RawChunk → List RawChunk
  | [] => []
  | chunk :: chunks => mergeFrom estimateTokens maxTokens chunk chunks

namespace CodeChunker

variable (self : CodeChunker) (estimateTokens : List Char → Nat) (content : List Char)

def chunkByLines (language : Option String) : Option (List RawChunk) :=
  lineLoop estimateTokens content language self.maxTokens self.overlapTokens 0 0 0 0
    (splitInclusive content)

def chunkByStructures (language : Option String) : Option (List RawChunk) := do
  let chunks ← structureLoop estimateTokens content language 0 0 0 false (splitInclusive content)
  if chunks.isEmpty then self.chunkByLines estimateTokens content language
  else return mergeSmallChunks estimateTokens self.maxTokens chunks

def chunk (path : String) : Option (List RawChunk) :=
  let language := detectLanguage path
  if structured language then self.chunkByStructures estimateTokens content language
  else self.chunkByLines estimateTokens content language

end CodeChunker

end Arags.Embedding
