import Mathlib.Data.List.Basic

/-!
# Arags.Index.Chunker

The deterministic chunker of `indexing.rs`: a file's text becomes overlapping spans of lines,
each with its digest.

* `rustLines`     — `str::lines`.
* `chunkLines`    — the spans; `chunkFrom_fuel` says that the fuel it passes is enough.
* `indexFileWith` — the chunks of a file. `sha256` is the digest of the `sha2` crate.
* `Chunker`       — the line budget of a server, and `chunksOf` under it.
-/

namespace Arags

/-! ## Lines -/

/-- The line read so far is kept in reverse; `\r` goes only where `\n` follows. -/
def linesFrom : List Char → List Char → List String
  | [], [] => []
  | [], line => [String.ofList line.reverse]
  | '\n' :: cs, '\r' :: line => String.ofList line.reverse :: linesFrom cs []
  | '\n' :: cs, line => String.ofList line.reverse :: linesFrom cs []
  | c :: cs, line => linesFrom cs (c :: line)

/-- `str::lines`. -/
def rustLines (content : String) : List String := linesFrom content.toList []

/-- `[..].join("\n")`. -/
def joinLines : List String → String
  | [] => ""
  | [l] => l
  | l :: ls => l ++ "\n" ++ joinLines ls

/-! ## Spans -/

/-- The loop of `chunkLines` from line `start` on: 1-based first line, last line, text. -/
def chunkFrom (lines : List String) (maxLines overlap : Nat) :
    Nat → Nat → List (Int × Int × String)
  | 0, _ => []
  | fuel + 1, start =>
    if start < lines.length then
      let stop := min (start + maxLines) lines.length
      let text := joinLines ((lines.take stop).drop start)
      let rest :=
        if lines.length ≤ stop then [] else chunkFrom lines maxLines overlap fuel (stop - overlap)
      ((start : Int) + 1, (stop : Int), text) :: rest
    else []

def chunkLines (content : String) (maxLines overlap : Nat) : List (Int × Int × String) :=
  if content = "" then []
  else
    let lines := rustLines content
    let maxLines := max maxLines 1
    chunkFrom lines maxLines (min overlap (maxLines - 1)) lines.length 0

theorem chunkFrom_succ (lines : List String) (maxLines overlap fuel start : Nat) :
    chunkFrom lines maxLines overlap (fuel + 1) start =
      if start < lines.length then
        ((start : Int) + 1, ((min (start + maxLines) lines.length : Nat) : Int),
          joinLines ((lines.take (min (start + maxLines) lines.length)).drop start)) ::
          if lines.length ≤ min (start + maxLines) lines.length then []
          else chunkFrom lines maxLines overlap fuel
            (min (start + maxLines) lines.length - overlap)
      else [] := rfl

/-- Each round starts on a later line, so a round for each line is enough. -/
theorem chunkFrom_fuel {lines : List String} {maxLines overlap : Nat} (h : overlap < maxLines) :
    ∀ {fuel start : Nat}, lines.length ≤ start + fuel →
      chunkFrom lines maxLines overlap (fuel + 1) start =
        chunkFrom lines maxLines overlap fuel start := by
  intro fuel
  induction fuel with
  | zero =>
    intro start hf
    rw [chunkFrom_succ, if_neg (by omega)]
    rfl
  | succ fuel ih =>
    intro start hf
    rw [chunkFrom_succ lines maxLines overlap (fuel + 1),
      chunkFrom_succ lines maxLines overlap fuel start]
    split
    · split
      · rfl
      · rw [ih (by omega)]
    · rfl

/-- First lines grow from span to span. -/
theorem le_of_mem_chunkFrom {lines : List String} {maxLines overlap : Nat}
    (h : overlap < maxLines) :
    ∀ {fuel start : Nat}, ∀ c ∈ chunkFrom lines maxLines overlap fuel start,
      (start : Int) + 1 ≤ c.1 := by
  intro fuel
  induction fuel with
  | zero => intro start c hc; cases hc
  | succ fuel ih =>
    intro start c hc
    rw [chunkFrom_succ] at hc
    split at hc
    · rcases List.mem_cons.mp hc with rfl | hc
      · exact Int.le_refl _
      · split at hc
        · cases hc
        · have := ih c hc
          omega
    · cases hc

theorem chunkFrom_starts {lines : List String} {maxLines overlap : Nat} (h : overlap < maxLines) :
    ∀ {fuel start : Nat},
      ((chunkFrom lines maxLines overlap fuel start).map fun c => c.1).Nodup := by
  intro fuel
  induction fuel with
  | zero => intro start; exact List.nodup_nil
  | succ fuel ih =>
    intro start
    rw [chunkFrom_succ]
    split
    · rw [List.map_cons, List.nodup_cons]
      refine ⟨?_, ?_⟩
      · intro hm
        obtain ⟨c, hc, he⟩ := List.mem_map.mp hm
        split at hc
        · cases hc
        · have := le_of_mem_chunkFrom h c hc
          omega
      · split
        · exact List.nodup_nil
        · exact ih
    · exact List.nodup_nil

theorem chunkLines_starts (content : String) (maxLines overlap : Nat) :
    ((chunkLines content maxLines overlap).map fun c => c.1).Nodup := by
  rw [chunkLines]
  split
  · exact List.nodup_nil
  · exact chunkFrom_starts (by omega)

/-! ## Languages -/

def splitSlash : List Char → List Char → List (List Char)
  | [], seg => [seg.reverse]
  | '/' :: cs, seg => seg.reverse :: splitSlash cs []
  | c :: cs, seg => splitSlash cs (c :: seg)

/-- `Path::file_name`: the last component that is neither empty nor `.`, unless it is `..`. -/
def fileName (path : String) : Option (List Char) :=
  ((splitSlash path.toList []).filter fun s => s != [] && s != ['.']).getLast?.filter
    fun s => s != ['.', '.']

/-- `Path::extension`: what follows the last dot, when something stands before it. -/
def fileExtension (path : String) : Option (List Char) :=
  (fileName path).bind fun name =>
    let ext := (name.reverse.takeWhile (· != '.')).reverse
    if ext.length + 1 < name.length then some ext else none

/-- A language hint from the extension of a path. -/
def inferLanguage (path : String) : Option String :=
  (fileExtension path).bind fun ext =>
    match String.ofList (ext.map Char.toLower) with
    | "rs" => some "rust"
    | "py" => some "python"
    | "js" | "jsx" | "ts" | "tsx" => some "javascript"
    | "go" => some "go"
    | "java" => some "java"
    | "c" | "h" => some "c"
    | "cpp" | "cc" | "cxx" | "hpp" => some "cpp"
    | "rb" => some "ruby"
    | "php" => some "php"
    | "md" | "markdown" => some "markdown"
    | _ => none

def classify (path : String) : String :=
  match inferLanguage path with
  | some "markdown" => "markdown"
  | some _ => "code"
  | none => "text"

/-! ## Digests -/

def hexDigit (n : Nat) : Char := (['0', '1', '2', '3', '4', '5', '6', '7', '8', '9', 'a', 'b', 'c',
  'd', 'e', 'f'] : List Char).getD n '0'

/-- `hex::encode`. -/
def hexEncode (bytes : List UInt8) : String :=
  String.ofList (bytes.flatMap fun b => [hexDigit (b.toNat / 16), hexDigit (b.toNat % 16)])

def hexValue (c : Char) : Option Nat :=
  if '0' ≤ c ∧ c ≤ '9' then some (c.toNat - 48)
  else if 'a' ≤ c ∧ c ≤ 'f' then some (c.toNat - 87)
  else if 'A' ≤ c ∧ c ≤ 'F' then some (c.toNat - 55)
  else none

def hexBytes : List Char → Option (List UInt8)
  | [] => some []
  | [_] => none
  | a :: b :: cs => do
    let hi ← hexValue a
    let lo ← hexValue b
    let rest ← hexBytes cs
    some (UInt8.ofNat (16 * hi + lo) :: rest)

/-- `hex::decode`. -/
def hexDecode (s : String) : Option (List UInt8) := hexBytes s.toList

/-! ## Chunks of a file -/

structure IndexedChunk where
  filePath : String
  lineStart : Int
  lineEnd : Int
  content : String
  hash : String
  language : Option String
  chunkType : String
  deriving DecidableEq, Repr

section Files

variable (sha256 : String → List UInt8)

def hashText (text : String) : String := hexEncode (sha256 text)

def indexFileWith (path content : String) (maxLines overlap : Nat) : List IndexedChunk :=
  (chunkLines content maxLines overlap).map fun c => {
    filePath := path
    lineStart := c.1
    lineEnd := c.2.1
    content := c.2.2
    hash := hashText sha256 c.2.2
    language := inferLanguage path
    chunkType := classify path }

end Files

/-- A token budget as a line count, never below one line. -/
def tokensToLines (tokens : Nat) : Nat := if tokens = 0 then 80 else max (tokens / 10) 1

/-- The chunking configuration of a server, with the digest it uses. -/
structure Chunker where
  sha256 : String → List UInt8
  maxTokens : Nat
  overlapTokens : Nat

/-- The chunks of one delivered file. -/
def Chunker.chunksOf (c : Chunker) (path content : String) : List IndexedChunk :=
  indexFileWith c.sha256 path content (tokensToLines c.maxTokens) (tokensToLines c.overlapTokens)

end Arags
