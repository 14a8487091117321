import Mathlib.Data.List.Infix
import Arags.Lib.Slices
import Arags.Lib.Wire

/-!
# Arags.Embedding.OllamaHttp

The answers of the local embedding server, `http_post` and `read_chunked` of `ollama.rs`, from the
bytes of the connection on.

* `readChunked`         — a body in chunks; `frame` writes one.
* `readChunked_frame`   — what was written is read; `readChunks_cut` — cut anywhere, it is an error.
* `readResponse`        — header and body.
* `readResponse_framed` — a body is read as it was sent, in any of its framings.
-/

namespace Arags.Embedding

open Text Wire

/-! ## Chunks -/

/-- `split(';').next()`, between two trims. -/
def chunkSize (sizeLine : List Char) : Except String Nat :=
  let hex := trimChars ((trimChars sizeLine).takeWhile (· ≠ ';'))
  match fromStrRadix 16 hex with
  | .ok size => .ok size
  | .error e => .error ("ollama chunk size parse " ++ String.ofList hex ++ ": " ++ e)

/-- A round takes a byte at least, so the bytes bound the rounds. -/
def readChunks : Nat → List UInt8 → Except String (List UInt8)
  | 0, _ => .error "ollama chunk size parse : cannot parse integer from empty string"
  | rounds + 1, bytes => do
    let (sizeLine, bytes) ← readLine bytes
    let size ← chunkSize sizeLine
    if size = 0 then
      let _ ← readExact 2 bytes
      return []
    let (chunk, bytes) ← readExact size bytes
    let (_, bytes) ← readExact 2 bytes
    let out ← readChunks rounds bytes
    return chunk ++ out

def readChunked (bytes : List UInt8) : Except String (List UInt8) :=
  readChunks (bytes.length + 1) bytes

/-- A chunk with what may follow its size. -/
structure WireChunk where
  data : List UInt8
  extension : List Char
  nonempty : 0 < data.length
  short : data.length < 2 ^ 64
  oneLine : '\n' ∉ extension

def sizeLine (size : Nat) (extension : List Char) : List Char :=
  numeral 16 size ++ (if extension.isEmpty then [] else ';' :: extension) ++ ['\r']

def writeChunk (c : WireChunk) : List UInt8 :=
  utf8Bytes (sizeLine c.data.length c.extension ++ ['\n']) ++ (c.data ++ [13, 10])

def lastChunk : List UInt8 := utf8Bytes (sizeLine 0 [] ++ ['\n']) ++ [13, 10]

def frame (chunks : List WireChunk) : List UInt8 := chunks.flatMap writeChunk ++ lastChunk

def payload (chunks : List WireChunk) : List UInt8 := chunks.flatMap WireChunk.data

/-! ### Size lines -/

theorem numeral_plain {c : Char} {n : Nat} (h : c ∈ numeral 16 n) :
    c ≠ ';' ∧ c ≠ '\n' ∧ isWhiteSpace c = false := by
  obtain ⟨d, hd, rfl⟩ := mem_numeral (by decide) (by decide) h
  exact (digitChar_plain d hd).2

theorem newline_not_mem_sizeLine {extension : List Char} (h : '\n' ∉ extension) (size : Nat) :
    '\n' ∉ sizeLine size extension := by
  have hhex : '\n' ∉ numeral 16 size := fun hmem => (numeral_plain hmem).2.1 rfl
  rw [sizeLine]
  split
  · simp [hhex]
  · simp [hhex, h]

/-- A text without white space has nothing to trim. -/
theorem trimChars_solid {l : List Char} (h : ∀ c ∈ l, isWhiteSpace c = false) :
    trimChars l = l := by
  obtain ⟨a, b, hcut, ha, hb⟩ := trimChars_cut l
  have hblank {part : List Char} (hsub : ∀ c ∈ part, c ∈ l)
      (hw : ∀ c ∈ part, isWhiteSpace c = true) : part = [] := by
    refine List.eq_nil_iff_forall_not_mem.mpr fun c hc => ?_
    have := h c (hsub c hc)
    rw [hw c hc] at this
    cases this
  have hsub : ∀ c, c ∈ a ∨ c ∈ b → c ∈ l := by
    intro c hc
    rw [hcut]
    rcases hc with hc | hc
    · exact List.mem_append_left _ hc
    · exact List.mem_append_right _ (List.mem_append_right _ hc)
  rw [hblank (fun c hc => hsub c (.inl hc)) ha, hblank (fun c hc => hsub c (.inr hc)) hb,
    List.nil_append, List.append_nil] at hcut
  exact hcut.symm

/-- Trimming does not reach a character that is no white space. -/
theorem trimChars_keeps {c d : Char} {l rest : List Char} (hc : isWhiteSpace c = false)
    (hd : isWhiteSpace d = false) : ∃ r, trimChars (c :: l ++ d :: rest) = c :: l ++ d :: r := by
  obtain ⟨a, b, hcut, ha, hb⟩ := trimChars_cut (c :: l ++ d :: rest)
  have hfront : a = [] := by
    cases a with
    | nil => rfl
    | cons x a =>
      have hx : c = x := (List.cons.inj hcut).1
      have := ha x List.mem_cons_self
      rw [← hx, hc] at this
      cases this
  rw [hfront, List.nil_append] at hcut
  have hprefix : (c :: l ++ [d]) ++ rest = trimChars (c :: l ++ d :: rest) ++ b := by
    rw [← hcut, List.append_assoc, List.singleton_append]
  rcases List.append_eq_append_iff.mp hprefix with ⟨r, htrim, -⟩ | ⟨t, hshort, hrest⟩
  · exact ⟨r, by rw [htrim, List.append_assoc, List.singleton_append]⟩
  · cases ht : t.reverse with
    | nil =>
      rw [List.reverse_eq_nil_iff.mp ht, List.append_nil] at hshort
      exact ⟨[], hshort.symm⟩
    | cons y u =>
      -- the text that was trimmed would end in `d`
      have hty : t = u.reverse ++ [y] := by rw [← List.reverse_reverse t, ht, List.reverse_cons]
      rw [hty, ← List.append_assoc] at hshort
      have hdy : d = y := (List.append_inj' hshort rfl).2 |> List.singleton_inj.mp
      have := hb d (by rw [hrest, hty, hdy]; simp)
      rw [hd] at this
      cases this

theorem chunkSize_sizeLine {size : Nat} (h : size < 2 ^ 64) (extension : List Char) :
    chunkSize (sizeLine size extension ++ ['\n']) = .ok size := by
  have hsolid : ∀ c ∈ numeral 16 size, isWhiteSpace c = false :=
    fun c hc => (numeral_plain hc).2.2
  have hplain : ∀ c ∈ numeral 16 size, decide (c ≠ ';') = true :=
    fun c hc => decide_eq_true (numeral_plain hc).1
  have hhex : (trimChars (sizeLine size extension ++ ['\n'])).takeWhile (· ≠ ';') =
      numeral 16 size := by
    rw [sizeLine]
    split
    · have hblank : ∀ c ∈ ['\r', '\n'], isWhiteSpace c = true := by
        intro c hc
        rcases List.mem_pair.mp hc with rfl | rfl <;> decide
      rw [List.append_nil, List.append_assoc, List.singleton_append,
        trimChars_append_blank _ hblank, trimChars_solid hsolid,
        List.takeWhile_eq_self_iff.mpr hplain]
    · obtain ⟨c, digits, hcons⟩ := List.exists_cons_of_ne_nil (numeral_ne_nil 16 size)
      have hc : isWhiteSpace c = false := hsolid c (hcons ▸ List.mem_cons_self)
      obtain ⟨r, htrim⟩ : ∃ r, trimChars (c :: digits ++ ';' :: (extension ++ ['\r'] ++ ['\n'])) =
          c :: digits ++ ';' :: r := trimChars_keeps hc (by decide)
      have hline : numeral 16 size ++ ';' :: extension ++ ['\r'] ++ ['\n'] =
          c :: digits ++ ';' :: (extension ++ ['\r'] ++ ['\n']) := by
        rw [hcons]
        simp
      rw [hline, htrim, ← hcons, List.takeWhile_append_of_pos hplain]
      simp
  rw [chunkSize, hhex, trimChars_solid hsolid, fromStrRadix_numeral (by decide) (by decide) h]

/-! ### What is written is read -/

theorem readChunks_chunk (c : WireChunk) (rounds : Nat) (rest : List UInt8) :
    readChunks (rounds + 1) (writeChunk c ++ rest) =
      (readChunks rounds rest).map (c.data ++ ·) := by
  have hline := readLine_text (newline_not_mem_sizeLine c.oneLine c.data.length)
    (c.data ++ ([13, 10] ++ rest))
  have hcrlf : readExact 2 ([13, 10] ++ rest) = .ok ([13, 10], rest) :=
    readExact_append [13, 10] rest
  have hbytes : writeChunk c ++ rest =
      utf8Bytes (sizeLine c.data.length c.extension ++ ['\n']) ++
        (c.data ++ ([13, 10] ++ rest)) := by
    rw [writeChunk, List.append_assoc, List.append_assoc]
  rw [readChunks, hbytes, hline]
  simp only [bind, Except.bind, chunkSize_sizeLine c.short, if_neg (Nat.ne_of_gt c.nonempty),
    readExact_append, hcrlf]
  cases readChunks rounds rest <;> rfl

theorem readChunks_last (rounds : Nat) (rest : List UInt8) :
    readChunks (rounds + 1) (lastChunk ++ rest) = .ok [] := by
  have hline := readLine_text (newline_not_mem_sizeLine (List.not_mem_nil) 0) ([13, 10] ++ rest)
  have hcrlf : readExact 2 ([13, 10] ++ rest) = .ok ([13, 10], rest) :=
    readExact_append [13, 10] rest
  rw [readChunks, lastChunk, List.append_assoc, hline]
  simp only [bind, Except.bind, chunkSize_sizeLine (by decide : 0 < 2 ^ 64), if_true, hcrlf]
  rfl

theorem readChunks_frame (chunks : List WireChunk) {rounds : Nat} (h : chunks.length < rounds)
    (rest : List UInt8) : readChunks rounds (frame chunks ++ rest) = .ok (payload chunks) := by
  obtain ⟨rounds, rfl⟩ := Nat.exists_eq_succ_of_ne_zero (Nat.ne_of_gt (Nat.zero_lt_of_lt h))
  induction chunks generalizing rounds with
  | nil => exact readChunks_last rounds rest
  | cons c chunks ih =>
    obtain ⟨rounds, rfl⟩ := Nat.exists_eq_succ_of_ne_zero (by simp at h; omega : rounds ≠ 0)
    have hbytes : frame (c :: chunks) ++ rest = writeChunk c ++ (frame chunks ++ rest) := by
      rw [frame, List.flatMap_cons, frame]
      simp only [List.append_assoc]
    rw [hbytes, readChunks_chunk, ih rounds (by simp at h; omega)]
    rfl

theorem length_le_frame (chunks : List WireChunk) : chunks.length ≤ (frame chunks).length := by
  rw [frame, List.length_append]
  refine Nat.le_trans ?_ (Nat.le_add_right _ _)
  induction chunks with
  | nil => exact Nat.zero_le _
  | cons c chunks ih =>
    rw [List.flatMap_cons, List.length_append, List.length_cons, writeChunk]
    simp only [List.length_append, List.length_cons]
    omega

/-- A body in chunks is read as its parts in order, whatever their sizes and extensions. -/
theorem readChunked_frame (chunks : List WireChunk) (rest : List UInt8) :
    readChunked (frame chunks ++ rest) = .ok (payload chunks) := by
  refine readChunks_frame chunks ?_ rest
  have := length_le_frame chunks
  rw [List.length_append]
  omega

/-! ### What is cut is an error -/

def Fails {α : Type} (r : Except String α) : Prop := ∃ e, r = .error e

theorem Fails.bind {α β : Type} {r : Except String α} (h : Fails r) (f : α → Except String β) :
    Fails (r >>= f) := by
  obtain ⟨e, rfl⟩ := h
  exact ⟨e, rfl⟩

/-- Nothing comes after a size line that is not ended. -/
theorem readChunks_unended {bytes : List UInt8} (h : 10 ∉ bytes) (rounds : Nat) :
    Fails (readChunks rounds bytes) := by
  cases rounds with
  | zero => exact ⟨_, rfl⟩
  | succ rounds =>
    rw [readChunks]
    cases hline : readLine bytes with
    | error e => exact ⟨e, rfl⟩
    | ok x =>
      obtain ⟨line, rest⟩ := x
      obtain rfl := readLine_unended h hline
      simp only [bind, Except.bind]
      cases chunkSize line with
      | error e => exact ⟨e, rfl⟩
      | ok size =>
        dsimp only
        split
        · exact ⟨_, rfl⟩
        · rw [readExact_short (by rw [List.length_nil]; omega)]
          exact ⟨_, rfl⟩

/-- A stream that is cut in its first line, or after it. -/
theorem take_line {text : List Char} (h : '\n' ∉ text) (body : List UInt8) (n : Nat) :
    10 ∉ (utf8Bytes (text ++ ['\n']) ++ body).take n ∨
      ∃ m, n = (utf8Bytes (text ++ ['\n'])).length + m ∧
        (utf8Bytes (text ++ ['\n']) ++ body).take n =
          utf8Bytes (text ++ ['\n']) ++ body.take m := by
  have hline : utf8Bytes (text ++ ['\n']) = utf8Bytes text ++ [10] := by
    rw [utf8Bytes_append]
    rfl
  obtain hshort | hlong := Nat.lt_or_ge n (utf8Bytes (text ++ ['\n'])).length
  · left
    rw [List.take_append_of_le_length (Nat.le_of_lt hshort)]
    rw [hline, List.length_append, List.length_singleton] at hshort
    rw [hline, List.take_append_of_le_length (by omega)]
    exact fun hmem => newline_not_mem_utf8Bytes h (List.mem_of_mem_take hmem)
  · right
    obtain ⟨m, rfl⟩ := Nat.exists_eq_add_of_le hlong
    exact ⟨m, rfl, List.take_length_add_append m⟩

theorem readChunks_last_cut {n : Nat} (h : n < lastChunk.length) (rounds : Nat) :
    Fails (readChunks rounds (lastChunk.take n)) := by
  cases rounds with
  | zero => exact ⟨_, rfl⟩
  | succ rounds =>
    rw [lastChunk] at h ⊢
    rcases take_line (newline_not_mem_sizeLine (List.not_mem_nil) 0) [13, 10] n with
      hunended | ⟨m, rfl, hcut⟩
    · exact readChunks_unended hunended _
    · have hshort : ([13, 10].take m : List UInt8).length < 2 := by
        rw [List.length_append] at h
        rw [List.length_take]
        simp only [List.length_cons, List.length_nil] at h ⊢
        omega
      rw [hcut, readChunks,
        readLine_text (newline_not_mem_sizeLine (List.not_mem_nil) 0) ([13, 10].take m)]
      simp only [bind, Except.bind, chunkSize_sizeLine (by decide : 0 < 2 ^ 64), if_true,
        readExact_short hshort]
      exact ⟨_, rfl⟩

/-- A chunk that is cut, or what comes after it is. -/
theorem readChunks_chunk_cut (c : WireChunk) (rest : List UInt8) (n rounds : Nat) :
    Fails (readChunks (rounds + 1) ((writeChunk c ++ rest).take n)) ∨
      ∃ m, n = (writeChunk c).length + m ∧ (writeChunk c ++ rest).take n =
        writeChunk c ++ rest.take m := by
  have hnewline := newline_not_mem_sizeLine c.oneLine c.data.length
  have hbytes : writeChunk c ++ rest =
      utf8Bytes (sizeLine c.data.length c.extension ++ ['\n']) ++
        (c.data ++ ([13, 10] ++ rest)) := by
    rw [writeChunk, List.append_assoc, List.append_assoc]
  rcases take_line hnewline (c.data ++ ([13, 10] ++ rest)) n with hunended | ⟨m, hn, hcut⟩
  · left
    rw [hbytes]
    exact readChunks_unended hunended _
  obtain hdone | hinside := Nat.lt_or_ge (c.data.length + 1) m
  · right
    have hlen : n = (writeChunk c).length + (m - (c.data.length + 2)) := by
      rw [hn, writeChunk, List.length_append, List.length_append]
      simp only [List.length_cons, List.length_nil]
      omega
    exact ⟨_, hlen, by rw [hlen, List.take_length_add_append]⟩
  · left
    rw [hbytes, hcut, readChunks, readLine_text hnewline]
    simp only [bind, Except.bind, chunkSize_sizeLine c.short, if_neg (Nat.ne_of_gt c.nonempty)]
    obtain hdata | hcrlf := Nat.lt_or_ge m c.data.length
    · rw [readExact_short (by rw [List.length_take]; omega)]
      exact ⟨_, rfl⟩
    · obtain ⟨j, rfl⟩ := Nat.exists_eq_add_of_le hcrlf
      have hshort : (([13, 10] ++ rest).take j).length < 2 := by
        rw [List.length_take]
        omega
      rw [List.take_length_add_append, readExact_append]
      dsimp only
      rw [readExact_short hshort]
      exact ⟨_, rfl⟩

/-- A connection that ends before the last chunk does is an error, wherever it ends. -/
theorem readChunks_cut (chunks : List WireChunk) {n : Nat} (h : n < (frame chunks).length)
    (rounds : Nat) : Fails (readChunks rounds ((frame chunks).take n)) := by
  induction chunks generalizing n rounds with
  | nil => exact readChunks_last_cut h rounds
  | cons c chunks ih =>
    cases rounds with
    | zero => exact ⟨_, rfl⟩
    | succ rounds =>
      have hbytes : frame (c :: chunks) = writeChunk c ++ frame chunks := by
        rw [frame, List.flatMap_cons, frame, List.append_assoc]
      rw [hbytes] at h ⊢
      rcases readChunks_chunk_cut c (frame chunks) n rounds with hfails | ⟨m, rfl, hcut⟩
      · exact hfails
      · rw [List.length_append] at h
        obtain ⟨e, he⟩ := ih (n := m) (by omega) rounds
        rw [hcut, readChunks_chunk, he]
        exact ⟨e, rfl⟩

/-! ## Responses -/

/-- `lines()` of a text of which every part ends a line: without the newline and a return before
it. -/
def stripEnd (line : List Char) : List Char :=
  match line.reverse with
  | '\n' :: '\r' :: rest => rest.reverse
  | '\n' :: rest => rest.reverse
  | _ => line

/-- The lines of the header, up to the empty one or the end. A line takes a byte, so the bytes
bound the rounds. -/
def readHeader : Nat → List UInt8 → Except String (List (List Char) × List UInt8)
  | 0, bytes => .ok ([], bytes)
  | rounds + 1, bytes => do
    let (line, bytes) ← readLine bytes
    if line = [] then return ([], bytes)
    if line = ['\r', '\n'] then return ([], bytes)
    let (header, bytes) ← readHeader rounds bytes
    return (line :: header, bytes)

def toAsciiLowercase (line : List Char) : List Char := line.map Char.toLower

def isChunked (header : List (List Char)) : Bool :=
  header.any fun l =>
    let lower := toAsciiLowercase (stripEnd l)
    "transfer-encoding:".toList.isPrefixOf lower && decide ("chunked".toList <:+: lower)

/-- The first line of that name counts, also when its number cannot be read. -/
def responseContentLength (header : List (List Char)) : Nat :=
  (header.findSome? fun l =>
    ((toAsciiLowercase (stripEnd l)).dropPrefix? "content-length:".toList).map fun v =>
      match fromStrRadix 10 (trimChars v) with
      | .ok n => n
      | .error _ => 0).getD 0

def readBody (header : List (List Char)) (body : List UInt8) : Except String (List UInt8) :=
  if isChunked header then readChunked body
  else
    let contentLength := responseContentLength header
    if contentLength > 0 then (readExact contentLength body).map Prod.fst else .ok body

/-- `http_post`, from the bytes that come back. -/
def readResponse (bytes : List UInt8) : Except String String := do
  let (header, body) ← readHeader (bytes.length + 1) bytes
  let bodyBytes ← readBody header body
  return fromUtf8Lossy bodyBytes

/-! ### Written responses -/

/-- A line of a header, without its end. -/
structure HeaderField where
  text : List Char
  nonempty : text ≠ []
  oneLine : '\n' ∉ text

def HeaderField.line (f : HeaderField) : List Char := f.text ++ ['\r', '\n']

def writeHead (fields : List HeaderField) : List UInt8 :=
  fields.flatMap (fun f => utf8Bytes f.line) ++ utf8Bytes ['\r', '\n']

theorem stripEnd_line (text : List Char) : stripEnd (text ++ ['\r', '\n']) = text := by
  rw [stripEnd, List.reverse_append]
  exact List.reverse_reverse text

theorem HeaderField.line_eq (f : HeaderField) : f.line = (f.text ++ ['\r']) ++ ['\n'] := by
  rw [HeaderField.line, List.append_assoc]
  rfl

theorem readLine_field (f : HeaderField) (rest : List UInt8) :
    readLine (utf8Bytes f.line ++ rest) = .ok (f.line, rest) := by
  have hnewline : '\n' ∉ f.text ++ ['\r'] := by
    rw [List.mem_append, not_or]
    exact ⟨f.oneLine, by decide⟩
  rw [f.line_eq]
  exact readLine_text hnewline rest

theorem readHeader_writeHead (fields : List HeaderField) {rounds : Nat}
    (h : fields.length < rounds) (body : List UInt8) :
    readHeader rounds (writeHead fields ++ body) = .ok (fields.map HeaderField.line, body) := by
  obtain ⟨rounds, rfl⟩ := Nat.exists_eq_succ_of_ne_zero (Nat.ne_of_gt (Nat.zero_lt_of_lt h))
  induction fields generalizing rounds with
  | nil =>
    have hline : readLine (utf8Bytes ['\r', '\n'] ++ body) = .ok (['\r', '\n'], body) :=
      readLine_text (by decide : '\n' ∉ ['\r']) body
    rw [readHeader, writeHead, List.flatMap_nil, List.nil_append, hline]
    rfl
  | cons f fields ih =>
    obtain ⟨rounds, rfl⟩ := Nat.exists_eq_succ_of_ne_zero (by simp at h; omega : rounds ≠ 0)
    have hbytes : writeHead (f :: fields) ++ body =
        utf8Bytes f.line ++ (writeHead fields ++ body) := by
      rw [writeHead, List.flatMap_cons, writeHead]
      simp only [List.append_assoc]
    have hsome : f.line ≠ [] := by simp [HeaderField.line]
    have hmore : f.line ≠ ['\r', '\n'] := by
      exact fun heq => f.nonempty (List.append_left_eq_self.mp heq)
    rw [readHeader, hbytes, readLine_field]
    simp only [bind, Except.bind, if_neg hsome, if_neg hmore, ih rounds (by simp at h; omega)]
    rfl

/-- How the end of a body is told, with the bytes that are sent. -/
inductive Framing (fields : List HeaderField) (body : List UInt8) where
  | chunked (chunks : List WireChunk) (sent : payload chunks = body)
      (marked : isChunked (fields.map HeaderField.line) = true)
  | length (unmarked : isChunked (fields.map HeaderField.line) = false)
      (announced : responseContentLength (fields.map HeaderField.line) = body.length)
      (nonempty : 0 < body.length)
  | close (unmarked : isChunked (fields.map HeaderField.line) = false)
      (unannounced : responseContentLength (fields.map HeaderField.line) = 0)

namespace Framing

variable {fields : List HeaderField} {body : List UInt8}

def bytes : Framing fields body → List UInt8
  | .chunked chunks _ _ => frame chunks
  | .length .. | .close .. => body

/-- A body that was read in part, where its end is not told. -/
def cut (f : Framing fields body) (n : Nat) : Except String String → Prop :=
  match f with
  | .chunked .. | .length .. => Fails
  | .close .. => fun r => r = .ok (fromUtf8Lossy (body.take n))

end Framing

theorem readResponse_head (fields : List HeaderField) (body : List UInt8) :
    readResponse (writeHead fields ++ body) =
      (readBody (fields.map HeaderField.line) body).map fromUtf8Lossy := by
  have hlen : fields.length ≤ (writeHead fields).length := by
    rw [writeHead, List.length_append]
    refine Nat.le_trans ?_ (Nat.le_add_right _ _)
    induction fields with
    | nil => exact Nat.zero_le _
    | cons f fields ih =>
      have hline : 0 < (utf8Bytes f.line).length :=
        Nat.lt_of_lt_of_le (by simp [HeaderField.line]) (length_le_utf8Bytes f.line)
      rw [List.flatMap_cons, List.length_append, List.length_cons]
      omega
  have hrounds : fields.length < (writeHead fields ++ body).length + 1 := by
    rw [List.length_append]
    omega
  rw [readResponse, readHeader_writeHead fields hrounds]
  rfl

section Bodies

variable {header : List (List Char)} {body : List UInt8}

theorem readBody_chunked (h : isChunked header = true) :
    readBody header body = readChunked body := if_pos h

theorem readBody_length (h : isChunked header = false)
    (hpos : 0 < responseContentLength header) :
    readBody header body = (readExact (responseContentLength header) body).map Prod.fst := by
  rw [readBody, if_neg (by simp [h])]
  exact if_pos hpos

theorem readBody_close (h : isChunked header = false) (hnone : responseContentLength header = 0) :
    readBody header body = .ok body := by
  rw [readBody, if_neg (by simp [h]), hnone]
  rfl

end Bodies

/-- A body is read as it was sent, however its end is told. When the connection ends before the
body does, that is an error, unless nothing else tells its end. -/
theorem readResponse_framed (fields : List HeaderField) (body : List UInt8)
    (f : Framing fields body) :
    readResponse (writeHead fields ++ f.bytes) = .ok (fromUtf8Lossy body) ∧
      ∀ n < f.bytes.length, f.cut n (readResponse (writeHead fields ++ f.bytes.take n)) := by
  cases f with
  | chunked chunks sent marked =>
    refine ⟨?_, fun n hn => ?_⟩
    · have hframe := readChunked_frame chunks []
      rw [List.append_nil] at hframe
      rw [readResponse_head, readBody_chunked marked, Framing.bytes, hframe, sent]
      rfl
    · obtain ⟨e, he⟩ := readChunks_cut chunks hn (((frame chunks).take n).length + 1)
      refine ⟨e, ?_⟩
      rw [readResponse_head, readBody_chunked marked, Framing.bytes, readChunked, he]
      rfl
  | length unmarked announced nonempty =>
    have hpos : 0 < responseContentLength (fields.map HeaderField.line) := announced ▸ nonempty
    refine ⟨?_, fun n hn => ?_⟩
    · have hexact := readExact_append body []
      rw [List.append_nil] at hexact
      rw [readResponse_head, readBody_length unmarked hpos, announced, Framing.bytes, hexact]
      rfl
    · have hshort : (body.take n).length < body.length := by
        rw [List.length_take]
        exact Nat.lt_of_le_of_lt (Nat.min_le_left _ _) hn
      refine ⟨"failed to fill whole buffer", ?_⟩
      rw [readResponse_head, readBody_length unmarked hpos, announced, Framing.bytes,
        readExact_short hshort]
      rfl
  | close unmarked unannounced =>
    refine ⟨?_, fun n _ => ?_⟩
    · rw [readResponse_head, readBody_close unmarked unannounced]
      rfl
    · change readResponse _ = _
      rw [readResponse_head, readBody_close unmarked unannounced]
      rfl

end Arags.Embedding
