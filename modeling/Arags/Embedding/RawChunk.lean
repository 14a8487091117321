import Mathlib.Data.List.Chain
import Arags.Lib.Slices

/-!
# Arags.Embedding.RawChunk

The chunks of the embedding crate, and what its chunkers share. Contents are lists of characters,
offsets count the bytes of their UTF-8 form; `none` stands for a panic.

* `detectLanguage`    — the language of a path, by its extension.
* `prevCharBoundary`  — the boundary at or before a byte.
* `nthLineByteOffset` — where a line starts.
* `Tiling`            — chunks that follow each other and make up a text.
-/

namespace Arags.Embedding

open Text

structure RawChunk where
  offsetStart : Nat
  offsetEnd : Nat
  lineStart : Nat
  lineEnd : Nat
  content : List Char
  language : Option String
  chunkType : Option String
deriving DecidableEq, Repr

/-! ## Languages -/

/-- `Path::file_name`. -/
def fileName (path : String) : Option (List Char) :=
  match ((split ['/'] path.toList).filter fun c => c ≠ [] ∧ c ≠ ['.']).getLast? with
  | none => none
  | some name => if name = ['.', '.'] then none else some name

/-- `Path::extension`: what stands after the last dot, unless that is the first character. -/
def extension (path : String) : Option String := do
  let name ← fileName path
  let fields := split ['.'] name
  if fields.length ≤ 1 ∨ fields.dropLast = [[]] then none
  else fields.getLast?.map String.ofList

def detectLanguage (path : String) : Option String := do
  let ext ← extension path
  if ext = "rs" then some "rust"
  else if ext = "py" then some "python"
  else if ext = "js" ∨ ext = "jsx" then some "javascript"
  else if ext = "ts" ∨ ext = "tsx" then some "typescript"
  else if ext = "go" then some "go"
  else if ext = "java" then some "java"
  else if ext = "cpp" ∨ ext = "cc" ∨ ext = "cxx" then some "cpp"
  else if ext = "c" ∨ ext = "h" then some "c"
  else if ext = "rb" then some "ruby"
  else if ext = "php" then some "php"
  else if ext = "md" ∨ ext = "markdown" then some "markdown"
  else if ext = "txt" ∨ ext = "log" then some "text"
  else none

example : detectLanguage "src/.hidden/main.test.rs" = some "rust" ∧
    detectLanguage "src/.rs" = none := by decide

/-! ## Offsets -/

def prevCharBoundary (s : List Char) : Nat → Nat
  | 0 => 0
  | idx + 1 => if isCharBoundary s (idx + 1) then idx + 1 else prevCharBoundary s idx

def nthLineByteOffset (s : List Char) (n : Nat) : Nat :=
  min (((split ['\n'] s).take n).map (byteLen · + 1)).sum (byteLen s)

theorem prevCharBoundary_le (s : List Char) (idx : Nat) : prevCharBoundary s idx ≤ idx := by
  induction idx with
  | zero => exact Nat.le_refl 0
  | succ idx ih =>
    rw [prevCharBoundary]
    split
    · exact Nat.le_refl _
    · exact Nat.le_succ_of_le ih

theorem isCharBoundary_zero (s : List Char) : isCharBoundary s 0 = true :=
  isCharBoundary_append [] s

theorem prevCharBoundary_boundary (s : List Char) (idx : Nat) :
    isCharBoundary s (prevCharBoundary s idx) = true := by
  induction idx with
  | zero => exact isCharBoundary_zero s
  | succ idx ih =>
    rw [prevCharBoundary]
    split
    · assumption
    · exact ih

theorem prevCharBoundary_of_boundary {s : List Char} {idx : Nat}
    (h : isCharBoundary s idx = true) : prevCharBoundary s idx = idx := by
  cases idx with
  | zero => rfl
  | succ idx => rw [prevCharBoundary, if_pos h]

/-- No boundary is skipped. -/
theorem le_prevCharBoundary {s : List Char} {i idx : Nat} (hi : isCharBoundary s i = true)
    (hle : i ≤ idx) : i ≤ prevCharBoundary s idx := by
  induction idx with
  | zero => exact hle
  | succ idx ih =>
    rw [prevCharBoundary]
    split
    · exact hle
    · rename_i hnot
      exact ih (by grind)

theorem nthLineByteOffset_eq (s : List Char) (n : Nat) :
    nthLineByteOffset s n = byteLen ((splitInclusive s).take n).flatten :=
  sum_take_split s n

theorem nthLineByteOffset_boundary (s : List Char) (n : Nat) :
    isCharBoundary s (nthLineByteOffset s n) = true := by
  have h := isCharBoundary_append ((splitInclusive s).take n).flatten
    ((splitInclusive s).drop n).flatten
  rwa [← List.flatten_append, List.take_append_drop, flatten_splitInclusive,
    ← nthLineByteOffset_eq] at h

/-- Every text that is not empty has a token. -/
def PositiveEstimate (estimateTokens : List Char → Nat) : Prop :=
  ∀ t, t ≠ [] → 0 < estimateTokens t

/-! ## Consecutive chunks -/

/-- The chunks, the first one at offset `o`, hold the pieces of `text` one after the other. -/
def Tiling : Nat → List Char → List RawChunk → Prop
  | _, text, [] => text = []
  | o, text, c :: cs =>
    ∃ rest, text = c.content ++ rest ∧ c.offsetStart = o ∧
      c.offsetEnd = o + byteLen c.content ∧ Tiling c.offsetEnd rest cs

theorem Tiling.append {o : Nat} {s t : List Char} {cs ds : List RawChunk} (hs : Tiling o s cs)
    (ht : Tiling (o + byteLen s) t ds) : Tiling o (s ++ t) (cs ++ ds) := by
  induction cs generalizing o s with
  | nil =>
    obtain rfl : s = [] := hs
    exact ht
  | cons c cs ih =>
    obtain ⟨rest, rfl, hstart, hend, hrest⟩ := hs
    refine ⟨rest ++ t, List.append_assoc _ _ _, hstart, hend, ih hrest ?_⟩
    rw [byteLen_append, ← Nat.add_assoc] at ht
    rwa [hend]

theorem Tiling.singleton {o : Nat} {c : RawChunk} (hstart : c.offsetStart = o)
    (hend : c.offsetEnd = o + byteLen c.content) : Tiling o c.content [c] :=
  ⟨[], (List.append_nil _).symm, hstart, hend, rfl⟩

/-- The chunks are slices at their offsets, each starts where the one before it ended, and their
contents are the text. -/
structure ConsecutiveSlices (content : List Char) (chunks : List RawChunk) : Prop where
  slices : ∀ c ∈ chunks, slice content c.offsetStart c.offsetEnd = some c.content
  first : ∀ c ∈ chunks.head?, c.offsetStart = 0
  consecutive : chunks.IsChain fun c d => d.offsetStart = c.offsetEnd
  contents : (chunks.map RawChunk.content).flatten = content

theorem Tiling.head {o : Nat} {text : List Char} {chunks : List RawChunk}
    (h : Tiling o text chunks) : ∀ c ∈ chunks.head?, c.offsetStart = o := by
  cases chunks with
  | nil => simp
  | cons c cs =>
    obtain ⟨-, -, hstart, -⟩ := h
    simpa using hstart

theorem Tiling.consecutive {o : Nat} {text : List Char} {chunks : List RawChunk}
    (h : Tiling o text chunks) :
    chunks.IsChain (fun c d => d.offsetStart = c.offsetEnd) ∧
      (chunks.map RawChunk.content).flatten = text := by
  induction chunks generalizing o text with
  | nil =>
    obtain rfl : text = [] := h
    exact ⟨.nil, rfl⟩
  | cons c cs ih =>
    obtain ⟨rest, rfl, -, -, hrest⟩ := h
    obtain ⟨hchain, hcontents⟩ := ih hrest
    refine ⟨List.isChain_cons.mpr ⟨hrest.head, hchain⟩, ?_⟩
    rw [List.map_cons, List.flatten_cons, hcontents]

theorem Tiling.slices {p text q : List Char} {chunks : List RawChunk}
    (h : Tiling (byteLen p) text chunks) :
    ∀ c ∈ chunks, slice (p ++ (text ++ q)) c.offsetStart c.offsetEnd = some c.content := by
  induction chunks generalizing p text with
  | nil => simp
  | cons c cs ih =>
    obtain ⟨rest, rfl, hstart, hend, hrest⟩ := h
    refine List.forall_mem_cons.mpr ⟨?_, fun d hd => ?_⟩
    · exact slice_mid (q := rest ++ q) (by simp) hstart.symm (by rw [hstart, hend])
    · rw [hend, ← byteLen_append] at hrest
      have := ih hrest d hd
      rwa [List.append_assoc, ← List.append_assoc c.content] at this

theorem Tiling.toSlices {content : List Char} {chunks : List RawChunk}
    (h : Tiling 0 content chunks) : ConsecutiveSlices content chunks where
  slices := by
    have := Tiling.slices (p := []) (q := []) h
    rwa [List.append_nil, List.nil_append] at this
  first := h.head
  consecutive := h.consecutive.1
  contents := h.consecutive.2

end Arags.Embedding
