import Arags.Lib.Slices

/-!
# Arags.Cli.ThinkTags

`strip_cot`, `llm_post.rs`: the bytes of a completion are searched for think tags, and what stands
between the blocks is kept.

* `isOpenTag`, `findCloseTag`, `keepRanges`, `stripCot` — the code, on bytes.
* `openTag`, `findClose`, `texts`, `join` — the same on characters.
* `isOpenTag_at`, `findCloseTag_at`, `keepRanges_at` — the bytes are searched at the offsets of
  characters, and nothing is found inside one.
* `stripCot_eq` — no slice panics, and what is kept is the texts between the blocks.
-/

namespace Arags.Cli

open Text

/-! ## The code -/

/-- `b"think"`. -/
def think : List Nat := [0x74, 0x68, 0x69, 0x6E, 0x6B]

/-- The letters in either case, and what follows them. -/
def letters {α : Type} (code : α → Nat) : List Nat → List α → Option (List α)
  | [], s => some s
  | _ :: _, [] => none
  | n :: seq, x :: s =>
    if code x != n && code x != n - 32 then none else letters code seq s

def isTagSpace (n : Nat) : Bool := n == 0x20 || n == 0x9 || n == 0xA || n == 0xD

/-- What follows the name of the tag, white space and `>`. -/
def tagRest {α : Type} (code : α → Nat) (s : List α) : Option (List α) :=
  match (letters code think s).map (·.dropWhile fun x => isTagSpace (code x)) with
  | some (x :: rest) => if code x == 0x3E then some rest else none
  | _ => none

/-- The offset past the tag. -/
def isOpenTag (bytes : List UInt8) (i : Nat) : Option Nat :=
  if i + 6 > bytes.length || bytes[i]? != some 0x3C then none
  else (tagRest UInt8.toNat (bytes.drop (i + 1))).map fun rest => bytes.length - rest.length

/-- The body of the loop of `find_close_tag`. Its search for the letters does not give up at the
end of the bytes, but then no `>` follows. -/
def closeTagAt (bytes : List UInt8) (i : Nat) : Option Nat :=
  if bytes[i]? == some 0x3C && bytes[i + 1]? == some 0x2F then
    (tagRest UInt8.toNat (bytes.drop (i + 2))).map fun rest => bytes.length - rest.length
  else none

def findCloseTag (bytes : List UInt8) : Nat → Nat → Option Nat
  | 0, _ => none
  | fuel + 1, i =>
    if i + 8 ≤ bytes.length then (closeTagAt bytes i).or (findCloseTag bytes fuel (i + 1))
    else none

def pushRange (a b : Nat) : List (Nat × Nat) := if a < b then [(a, b)] else []

/-- The loop of `strip_cot`. The byte at the cursor is compared with `<` once more in
`is_open_tag`. -/
def keepRanges (bytes : List UInt8) : Nat → Nat → Nat → List (Nat × Nat)
  | 0, _, lastKeep => pushRange lastKeep bytes.length
  | fuel + 1, cursor, lastKeep =>
    if cursor < bytes.length then
      match isOpenTag bytes cursor with
      | some afterOpen =>
        pushRange lastKeep cursor ++
          match findCloseTag bytes bytes.length afterOpen with
          | some afterClose => keepRanges bytes fuel afterClose afterClose
          | none => []
      | none => keepRanges bytes fuel (cursor + 1) lastKeep
    else pushRange lastKeep bytes.length

def isAsciiWhitespace (n : Nat) : Bool := n == 0x20 || n == 0x9 || n == 0xA || n == 0xC || n == 0xD

def rangeGap (bytes : List UInt8) (prevEnd a b : Nat) : List Char :=
  let prevWs := (bytes.take prevEnd).getLast?.any fun x => isAsciiWhitespace x.toNat
  let nextWs := ((bytes.take b).drop a).head?.any fun x => isAsciiWhitespace x.toNat
  if !prevWs && !nextWs then [' '] else []

/-- The slice of the text panics where it is not on character boundaries. -/
def pushKept (input : List Char) : Option Nat → List (Nat × Nat) → Option (List Char)
  | _, [] => some []
  | prevEnd, (a, b) :: ranges => do
    let gap := prevEnd.elim [] fun e => rangeGap (utf8Bytes input) e a b
    let kept ← slice input a b
    let rest ← pushKept input (some b) ranges
    return gap ++ kept ++ rest

def stripCot (input : List Char) : Option (List Char) :=
  let bytes := utf8Bytes input
  (pushKept input none (keepRanges bytes bytes.length 0 0)).map trimChars

/-! ## On characters -/

/-- What follows the opening tag at the front. -/
def openTag : List Char → Option (List Char)
  | '<' :: s => tagRest Char.toNat s
  | _ => none

def closeTag : List Char → Option (List Char)
  | '<' :: '/' :: s => tagRest Char.toNat s
  | _ => none

/-- What stands before the next closing tag, and what follows it. -/
def findClose : List Char → Option (List Char × List Char)
  | [] => none
  | c :: s =>
    match closeTag (c :: s) with
    | some after => some ([], after)
    | none => (findClose s).map fun x => (c :: x.1, x.2)

/-- The text is put in front of the first one. -/
def prepend (t : List Char) : List (List Char) → List (List Char)
  | [] => [t]
  | t' :: ts => (t ++ t') :: ts

/-! ### Tags -/

section Tags

variable {s rest : List Char}

theorem letters_length {α : Type} {code : α → Nat} {seq : List Nat} {s rest : List α}
    (h : letters code seq s = some rest) : s.length = seq.length + rest.length := by
  induction seq generalizing s with
  | nil =>
    cases h
    simp
  | cons n seq ih =>
    cases s with
    | nil => cases h
    | cons x s =>
      rw [letters] at h
      split at h
      · cases h
      · rw [List.length_cons, List.length_cons, ih h]
        omega

theorem tagRest_eq_some {α : Type} {code : α → Nat} {s rest : List α} :
    tagRest code s = some rest ↔ ∃ t x, letters code think s = some t ∧
      t.dropWhile (fun x => isTagSpace (code x)) = x :: rest ∧ code x = 0x3E := by
  rw [tagRest]
  cases letters code think s with
  | none => simp
  | some t =>
    simp only [Option.map_some, Option.some.injEq, exists_and_left, exists_eq_left']
    cases t.dropWhile fun x => isTagSpace (code x) with
    | nil => simp
    | cons x rest' =>
      simp only [beq_iff_eq, List.cons.injEq]
      constructor
      · intro h
        split at h
        next hx => exact ⟨x, ⟨rfl, Option.some.inj h⟩, hx⟩
        next => cases h
      · rintro ⟨y, ⟨rfl, rfl⟩, hx⟩
        rw [if_pos hx]

/-- The name and `>` are six characters. -/
theorem tagRest_length {α : Type} {code : α → Nat} {s rest : List α}
    (h : tagRest code s = some rest) : rest.length + 6 ≤ s.length := by
  obtain ⟨t, x, hletters, hdrop, -⟩ := tagRest_eq_some.mp h
  have hlen := letters_length hletters
  have hle := (List.dropWhile_sublist (fun x => isTagSpace (code x)) (l := t)).length_le
  rw [hdrop, List.length_cons] at hle
  simp only [think, List.length_cons, List.length_nil] at hlen
  omega

theorem openTag_length (h : openTag s = some rest) : rest.length + 7 ≤ s.length := by
  unfold openTag at h
  split at h
  · have := tagRest_length h
    rw [List.length_cons]
    omega
  · cases h

theorem closeTag_length (h : closeTag s = some rest) : rest.length + 8 ≤ s.length := by
  unfold closeTag at h
  split at h
  · have := tagRest_length h
    rw [List.length_cons, List.length_cons]
    omega
  · cases h

/-- What is found is a closing tag. -/
theorem exists_closeTag {x : List Char × List Char} (h : findClose s = some x) :
    ∃ t, t <:+ s ∧ closeTag t = some x.2 := by
  induction s generalizing x with
  | nil => cases h
  | cons c s ih =>
    rw [findClose] at h
    split at h
    next after hclose =>
      cases h
      exact ⟨c :: s, List.suffix_rfl, hclose⟩
    next =>
      obtain ⟨y, hy, rfl⟩ := Option.map_eq_some_iff.mp h
      obtain ⟨t, ht, hclose⟩ := ih hy
      exact ⟨t, ht.trans (List.suffix_cons c s), hclose⟩

theorem findClose_length {x : List Char × List Char} (h : findClose s = some x) :
    x.2.length + 8 ≤ s.length := by
  obtain ⟨t, ht, hclose⟩ := exists_closeTag h
  exact Nat.le_trans (closeTag_length hclose) ht.length_le

end Tags

/-- The texts between the blocks. A block that is not closed takes all that follows. -/
def texts (s : List Char) : List (List Char) :=
  match _hopen : openTag s with
  | some rest =>
    match _hclose : findClose rest with
    | some x => [] :: texts x.2
    | none => [[]]
  | none =>
    match s with
    | [] => [[]]
    | c :: s => prepend [c] (texts s)
termination_by s.length
decreasing_by
  · have := openTag_length _hopen
    have := findClose_length _hclose
    omega
  · exact Nat.lt_succ_self _

theorem prepend_ne_nil (t : List Char) (ts : List (List Char)) : prepend t ts ≠ [] := by
  cases ts <;> simp [prepend]

theorem texts_ne_nil (s : List Char) : texts s ≠ [] := by
  fun_cases texts s with
  | case1 | case2 | case3 => simp
  | case4 c s => exact prepend_ne_nil _ _

theorem prepend_nil {ts : List (List Char)} (h : ts ≠ []) : prepend [] ts = ts := by
  cases ts with
  | nil => exact absurd rfl h
  | cons t ts => rfl

theorem prepend_prepend (t t' : List Char) (ts : List (List Char)) :
    prepend t (prepend t' ts) = prepend (t ++ t') ts := by
  cases ts <;> simp [prepend]

section Texts

variable {s rest : List Char}

theorem texts_nil : texts [] = [[]] := by
  rw [texts]
  rfl

theorem texts_closed {x : List Char × List Char} (h : openTag s = some rest)
    (hclose : findClose rest = some x) : texts s = [] :: texts x.2 := by
  rw [texts]
  split
  next rest' h' =>
    cases h.symm.trans h'
    split
    next y hy => cases hclose.symm.trans hy; rfl
    next hnone => cases hclose.symm.trans hnone
  next h' => cases h.symm.trans h'

theorem texts_unclosed (h : openTag s = some rest) (hclose : findClose rest = none) :
    texts s = [[]] := by
  rw [texts]
  split
  next rest' h' =>
    cases h.symm.trans h'
    split
    next y hy => cases hclose.symm.trans hy
    next => rfl
  next h' => cases h.symm.trans h'

theorem texts_cons {c : Char} (h : openTag (c :: s) = none) :
    texts (c :: s) = prepend [c] (texts s) := by
  rw [texts]
  split
  next rest' h' => cases h.symm.trans h'
  next => rfl

end Texts

/-! ## Bytes and characters -/

theorem letters_utf8 {seq : List Nat} (h : ∀ n ∈ seq, n < 128) (s : List Char) :
    letters UInt8.toNat seq (utf8Bytes s) = (letters Char.toNat seq s).map utf8Bytes := by
  induction seq generalizing s with
  | nil => rfl
  | cons n seq ih =>
    have hn := h n List.mem_cons_self
    have ih := ih fun m hm => h m (List.mem_cons_of_mem n hm)
    cases s with
    | nil => rfl
    | cons c s =>
      obtain ⟨b, bs, hbytes, hlow, hhigh⟩ := utf8Bytes_head c s
      rw [hbytes, letters, letters]
      obtain hc | hc := Nat.lt_or_ge c.toNat 128
      · obtain ⟨hb, rfl⟩ := hlow hc
        rw [hb, ih]
        split <;> rfl
      · have hb := hhigh hc
        rw [if_pos, if_pos]
        · rfl
        · simp only [Bool.and_eq_true, bne_iff_ne]
          omega
        · simp only [Bool.and_eq_true, bne_iff_ne]
          omega

theorem isTagSpace_lt {n : Nat} (h : isTagSpace n = true) : n < 128 := by
  simp only [isTagSpace, Bool.or_eq_true, beq_iff_eq] at h
  omega

theorem dropTagSpace_utf8 (s : List Char) :
    (utf8Bytes s).dropWhile (fun x => isTagSpace x.toNat) =
      utf8Bytes (s.dropWhile fun x => isTagSpace x.toNat) := by
  induction s with
  | nil => rfl
  | cons c s ih =>
    obtain ⟨b, bs, hbytes, hlow, hhigh⟩ := utf8Bytes_head c s
    rw [List.dropWhile_cons]
    obtain hc | hc := Nat.lt_or_ge c.toNat 128
    · obtain ⟨hb, rfl⟩ := hlow hc
      rw [hbytes, List.dropWhile_cons, hb, ih]
      split
      · rfl
      · exact hbytes.symm
    · have hb := hhigh hc
      have hspace {n : Nat} (hn : 128 ≤ n) : ¬ isTagSpace n = true := fun h => by
        have := isTagSpace_lt h
        omega
      rw [if_neg (hspace hc), hbytes, List.dropWhile_cons, if_neg (hspace hb)]

theorem tagRest_utf8 (s : List Char) :
    tagRest UInt8.toNat (utf8Bytes s) = (tagRest Char.toNat s).map utf8Bytes := by
  rw [tagRest, tagRest, letters_utf8 (by decide)]
  cases letters Char.toNat think s with
  | none => rfl
  | some t =>
    simp only [Option.map_some, dropTagSpace_utf8]
    cases t.dropWhile fun x => isTagSpace x.toNat with
    | nil => rfl
    | cons c rest =>
      obtain ⟨b, bs, hbytes, hlow, hhigh⟩ := utf8Bytes_head c rest
      simp only [hbytes]
      obtain hc | hc := Nat.lt_or_ge c.toNat 128
      · obtain ⟨hb, rfl⟩ := hlow hc
        rw [hb]
        split <;> rfl
      · have hb := hhigh hc
        rw [if_neg (by simpa using by omega), if_neg (by simpa using by omega)]
        rfl

/-- The byte at the offset of a character, for one of ASCII. -/
theorem byte_at (p : List Char) {q : List Char} {c : Char} {b : UInt8} (hb : b.toNat = c.toNat)
    (hc : c.toNat < 128) :
    (utf8Bytes (p ++ q))[byteLen p]? = some b ↔ ∃ s, q = c :: s := by
  have hget : (utf8Bytes (p ++ q))[byteLen p]? = (utf8Bytes q)[0]? := by
    rw [← drop_utf8Bytes p q, List.getElem?_drop, Nat.add_zero]
  rw [hget]
  cases q with
  | nil => simp [utf8Bytes]
  | cons c' q =>
    obtain ⟨b', bs, hbytes, hlow, hhigh⟩ := utf8Bytes_head c' q
    simp only [hbytes, List.getElem?_cons_zero, Option.some.injEq, List.cons.injEq,
      exists_and_left, exists_eq', and_true]
    constructor
    · rintro rfl
      obtain hc' | hc' := Nat.lt_or_ge c'.toNat 128
      · rw [← Char.ofNat_toNat c', ← (hlow hc').1, hb, Char.ofNat_toNat]
      · have := hhigh hc'
        omega
    · rintro rfl
      exact UInt8.toNat.inj ((hlow hc).1.trans hb.symm)

theorem drop_ascii (p : List Char) {c : Char} (hc : c.utf8Size = 1) (q : List Char) :
    (utf8Bytes (p ++ c :: q)).drop (byteLen p + 1) = utf8Bytes q := by
  have h := drop_utf8Bytes (p ++ [c]) q
  rwa [List.append_assoc, byteLen_append, byteLen_cons, hc] at h

theorem lt_at {p q : List Char} :
    (utf8Bytes (p ++ q))[byteLen p]? = some 0x3C ↔ ∃ s, q = '<' :: s :=
  byte_at p rfl (by decide)

/-- At the offset of a character, the bytes of an opening tag are found where one is. -/
theorem isOpenTag_at (p q : List Char) : isOpenTag (utf8Bytes (p ++ q)) (byteLen p) =
    (openTag q).map fun rest => byteLen (p ++ q) - byteLen rest := by
  unfold isOpenTag
  by_cases hq : ∃ s, q = '<' :: s
  · have hbyte := lt_at (p := p).mpr hq
    obtain ⟨s, rfl⟩ := hq
    rw [openTag, drop_ascii p rfl, tagRest_utf8, hbyte]
    cases htag : tagRest Char.toNat s with
    | none => split <;> rfl
    | some rest =>
      have hlen := tagRest_length htag
      have hs := length_le_byteLen s
      rw [if_neg]
      · simp [length_utf8Bytes]
      · simp [length_utf8Bytes, show ('<' : Char).utf8Size = 1 from rfl]
        omega
  · have hnone : openTag q = none := by
      unfold openTag
      split
      next s => exact absurd ⟨s, rfl⟩ hq
      next => rfl
    rw [hnone, if_pos]
    · rfl
    · simp [mt lt_at.mp hq]

theorem closeTagAt_at (p q : List Char) : closeTagAt (utf8Bytes (p ++ q)) (byteLen p) =
    (closeTag q).map fun rest => byteLen (p ++ q) - byteLen rest := by
  have hslash (s : List Char) : (utf8Bytes (p ++ '<' :: s))[byteLen p + 1]? = some 0x2F ↔
      ∃ t, s = '/' :: t := by
    have h := byte_at (p ++ ['<']) (q := s) (c := '/') (b := 0x2F) rfl (by decide)
    rwa [List.append_assoc, byteLen_append, byteLen_cons] at h
  unfold closeTagAt
  by_cases hq : ∃ t, q = '<' :: '/' :: t
  · obtain ⟨t, rfl⟩ := hq
    have hdrop : (utf8Bytes (p ++ '<' :: '/' :: t)).drop (byteLen p + 2) = utf8Bytes t := by
      have h := drop_ascii (p ++ ['<']) (c := '/') rfl t
      rwa [List.append_assoc, byteLen_append] at h
    rw [lt_at.mpr ⟨_, rfl⟩, (hslash _).mpr ⟨t, rfl⟩, hdrop, closeTag, tagRest_utf8,
      if_pos (by decide), Option.map_map]
    simp only [length_utf8Bytes, Function.comp_def]
  · have hnone : closeTag q = none := by
      unfold closeTag
      split
      next t => exact absurd ⟨t, rfl⟩ hq
      next => rfl
    rw [hnone, if_neg]
    · rfl
    · intro h
      simp only [Bool.and_eq_true, beq_iff_eq] at h
      obtain ⟨s, rfl⟩ := lt_at.mp h.1
      obtain ⟨t, rfl⟩ := (hslash s).mp h.2
      exact hq ⟨t, rfl⟩

/-! ## The search -/

section Search

variable {bytes : List UInt8}

/-- A loop with fuel that goes to the next index, again and again. -/
theorem loop_skips {β : Type} {f : Nat → Nat → β} {P : Nat → Prop}
    (hstep : ∀ fuel i, P i → f (fuel + 1) i = f fuel (i + 1)) {fuel i n : Nat}
    (h : ∀ j < n, P (i + j)) : f (fuel + n) i = f fuel (i + n) := by
  induction n generalizing i with
  | zero => rfl
  | succ n ih =>
    have hlater : ∀ j < n, P (i + 1 + j) := fun j hj => by
      rw [Nat.add_assoc, Nat.add_comm 1 j]
      exact h (j + 1) (by omega)
    calc
      f (fuel + (n + 1)) i
      _ = f (fuel + n) (i + 1) := hstep _ i (h 0 (Nat.succ_pos n))
      _ = f fuel (i + 1 + n) := ih hlater
      _ = f fuel (i + (n + 1)) := by rw [Nat.add_assoc, Nat.add_comm 1 n]

/-- A byte that is not `<` begins no tag. -/
theorem tag_of_high {i : Nat} {b : UInt8} (h : bytes[i]? = some b) (hb : 128 ≤ b.toNat) :
    isOpenTag bytes i = none ∧ closeTagAt bytes i = none := by
  have hne : b ≠ 0x3C := by
    rintro rfl
    exact absurd hb (by decide)
  constructor
  · rw [isOpenTag, if_pos (by simp [h, hne])]
  · rw [closeTagAt, if_neg (by simp [h, hne])]

theorem findCloseTag_skip (fuel i : Nat) (h : closeTagAt bytes i = none) :
    findCloseTag bytes (fuel + 1) i = findCloseTag bytes fuel (i + 1) := by
  rw [findCloseTag, h, Option.none_or]
  split
  · rfl
  · cases fuel with
    | zero => rfl
    | succ fuel => rw [findCloseTag, if_neg (by omega)]

/-- The closing tag is found that comes first among the characters. -/
theorem findCloseTag_at (p q : List Char) (fuel : Nat) (hfuel : byteLen q ≤ fuel) :
    findCloseTag (utf8Bytes (p ++ q)) fuel (byteLen p) =
      (findClose q).map fun x => byteLen (p ++ q) - byteLen x.2 := by
  induction q generalizing p fuel with
  | nil =>
    rw [findClose]
    cases fuel with
    | zero => rfl
    | succ fuel => rw [findCloseTag, if_neg (by simp [length_utf8Bytes])]; rfl
  | cons c q ih =>
    rw [findClose]
    have hpos := c.utf8Size_pos
    rw [byteLen_cons] at hfuel
    cases hclose : closeTag (c :: q) with
    | some after =>
      have hlen := closeTag_length hclose
      have hbytes := length_le_byteLen (c :: q)
      obtain ⟨fuel, rfl⟩ : ∃ k, fuel = k + 1 := ⟨fuel - 1, by omega⟩
      rw [findCloseTag, closeTagAt_at, hclose, if_pos]
      · rfl
      · rw [length_utf8Bytes, byteLen_append]
        omega
    | none =>
      have hskip : ∀ j < c.utf8Size,
          closeTagAt (utf8Bytes (p ++ c :: q)) (byteLen p + j) = none := by
        intro j hj
        obtain rfl | hj0 := Nat.eq_zero_or_pos j
        · rw [Nat.add_zero, closeTagAt_at, hclose]
          rfl
        · obtain ⟨b, hget, hb⟩ := utf8Bytes_inside p q hj0 hj
          exact (tag_of_high hget hb).2
      obtain ⟨fuel, rfl⟩ : ∃ k, fuel = k + c.utf8Size := ⟨fuel - c.utf8Size, by omega⟩
      rw [loop_skips findCloseTag_skip hskip]
      have ih := ih (p ++ [c]) fuel (by omega)
      rw [List.append_assoc, byteLen_append] at ih
      simp only [byteLen_cons, byteLen_nil, Nat.add_zero, List.singleton_append] at ih
      rw [ih, Option.map_map]
      rfl

theorem keepRanges_skip (lastKeep fuel i : Nat)
    (h : i < bytes.length ∧ isOpenTag bytes i = none) :
    keepRanges bytes (fuel + 1) i lastKeep = keepRanges bytes fuel (i + 1) lastKeep := by
  rw [keepRanges, if_pos h.1, h.2]

end Search

/-! ## The ranges that are kept -/

section Ranges

/-- The range is that of a text, which is not empty. -/
def IsRange (input : List Char) (range : Nat × Nat) (t : List Char) : Prop :=
  t ≠ [] ∧ ∃ p q, input = p ++ (t ++ q) ∧ byteLen p = range.1 ∧ byteLen (p ++ t) = range.2

theorem pushRange_at (p t q : List Char) (ranges : List (Nat × Nat)) (ts : List (List Char))
    (h : List.Forall₂ (IsRange (p ++ (t ++ q))) ranges (ts.filter (· ≠ []))) :
    List.Forall₂ (IsRange (p ++ (t ++ q))) (pushRange (byteLen p) (byteLen (p ++ t)) ++ ranges)
      ((t :: ts).filter (· ≠ [])) := by
  rw [pushRange]
  by_cases ht : t = []
  · subst ht
    rw [if_neg (by simp), List.filter_cons_of_neg (by simp)]
    exact h
  · have hpos := byteLen_pos ht
    rw [if_pos (by rw [byteLen_append]; omega), List.filter_cons_of_pos (by simpa using ht)]
    exact .cons ⟨ht, p, q, rfl, rfl, rfl⟩ h

theorem letters_suffix {α : Type} {code : α → Nat} {seq : List Nat} {s rest : List α}
    (h : letters code seq s = some rest) : rest <:+ s := by
  induction seq generalizing s with
  | nil =>
    cases h
    exact List.suffix_rfl
  | cons n seq ih =>
    cases s with
    | nil => cases h
    | cons x s =>
      rw [letters] at h
      split at h
      · cases h
      · exact (ih h).trans (List.suffix_cons x s)

theorem tagRest_suffix {α : Type} {code : α → Nat} {s rest : List α}
    (h : tagRest code s = some rest) : rest <:+ s := by
  obtain ⟨t, x, hletters, hdrop, -⟩ := tagRest_eq_some.mp h
  have hcons : x :: rest <:+ t := hdrop ▸ List.dropWhile_suffix _
  exact ((List.suffix_cons x rest).trans hcons).trans (letters_suffix hletters)

theorem openTag_suffix {s rest : List Char} (h : openTag s = some rest) : rest <:+ s := by
  unfold openTag at h
  split at h
  next t => exact (tagRest_suffix h).trans (List.suffix_cons _ t)
  next => cases h

theorem closeTag_suffix {s rest : List Char} (h : closeTag s = some rest) : rest <:+ s := by
  unfold closeTag at h
  split at h
  next t =>
    exact (tagRest_suffix h).trans ((List.suffix_cons _ t).trans (List.suffix_cons _ _))
  next => cases h

theorem findClose_suffix {s : List Char} {x : List Char × List Char} (h : findClose s = some x) :
    x.2 <:+ s := by
  obtain ⟨t, ht, hclose⟩ := exists_closeTag h
  exact (closeTag_suffix hclose).trans ht

theorem length_at (p t q : List Char) :
    (utf8Bytes (p ++ (t ++ q))).length = byteLen (p ++ t) + byteLen q := by
  rw [length_utf8Bytes, ← List.append_assoc, byteLen_append]

/-- The loop at an opening tag. -/
theorem keepRanges_open (p t : List Char) {q rest : List Char} (hopen : openTag q = some rest)
    (fuel lastKeep : Nat) :
    keepRanges (utf8Bytes (p ++ (t ++ q))) (fuel + 1) (byteLen (p ++ t)) lastKeep =
      pushRange lastKeep (byteLen (p ++ t)) ++
        match findClose rest with
        | some x =>
          let afterClose := byteLen (p ++ (t ++ q)) - byteLen x.2
          keepRanges (utf8Bytes (p ++ (t ++ q))) fuel afterClose afterClose
        | none => [] := by
  have hrest := openTag_length hopen
  have hbytes := length_le_byteLen q
  have hlen := length_at p t q
  obtain ⟨tag, htag⟩ := openTag_suffix hopen
  have hcut : p ++ (t ++ q) = (p ++ (t ++ tag)) ++ rest := by simp [← htag]
  have hpos : byteLen (p ++ (t ++ q)) - byteLen rest = byteLen (p ++ (t ++ tag)) := by
    rw [hcut, byteLen_append _ rest, Nat.add_sub_cancel]
  have hfind := findCloseTag_at (p ++ (t ++ tag)) rest
    (utf8Bytes (p ++ (t ++ q))).length (by
      rw [hlen, ← htag, byteLen_append tag]
      omega)
  have hat := isOpenTag_at (p ++ t) q
  rw [List.append_assoc, hopen, Option.map_some, hpos] at hat
  rw [← hcut] at hfind
  rw [keepRanges, if_pos (by omega), hat]
  dsimp only
  rw [hfind]
  cases findClose rest <;> rfl

/-- No opening tag begins at a byte of a character where none begins at the character. -/
theorem no_tag_in_char (p t : List Char) {c : Char} {q : List Char}
    (hopen : openTag (c :: q) = none) : ∀ j < c.utf8Size,
      byteLen (p ++ t) + j < (utf8Bytes (p ++ (t ++ c :: q))).length ∧
        isOpenTag (utf8Bytes (p ++ (t ++ c :: q))) (byteLen (p ++ t) + j) = none := by
  intro j hj
  rw [length_at, byteLen_cons]
  refine ⟨by omega, ?_⟩
  rw [← List.append_assoc]
  obtain rfl | hj0 := Nat.eq_zero_or_pos j
  · rw [Nat.add_zero, isOpenTag_at, hopen]
    rfl
  · obtain ⟨b, hget, hb⟩ := utf8Bytes_inside (p ++ t) q hj0 hj
    exact (tag_of_high hget hb).1

/-- The loop, at the offset of a character: `t` is the text since the last block. -/
theorem keepRanges_at (p t q : List Char) (fuel : Nat) (hfuel : byteLen q ≤ fuel) :
    List.Forall₂ (IsRange (p ++ (t ++ q)))
      (keepRanges (utf8Bytes (p ++ (t ++ q))) fuel (byteLen (p ++ t)) (byteLen p))
      ((prepend t (texts q)).filter (· ≠ [])) := by
  fun_induction texts q generalizing p t fuel with
  | case1 q rest hopen x hclose ih =>
    have hopenLen := openTag_length hopen
    have hcloseLen := findClose_length hclose
    have hbytes := length_le_byteLen q
    obtain ⟨fuel, rfl⟩ : ∃ k, fuel = k + 1 := ⟨fuel - 1, by omega⟩
    obtain ⟨block, hblock⟩ := (findClose_suffix hclose).trans (openTag_suffix hopen)
    have hcut : p ++ (t ++ q) = (p ++ (t ++ block)) ++ ([] ++ x.2) := by simp [← hblock]
    have hblockLen : 0 < byteLen block := by
      refine byteLen_pos fun hnil => ?_
      rw [hnil, List.nil_append] at hblock
      rw [hblock] at hcloseLen
      omega
    have ih := ih (p ++ (t ++ block)) [] fuel (by
      rw [← hblock, byteLen_append] at hfuel
      omega)
    rw [← hcut, prepend_nil (texts_ne_nil _), List.append_nil] at ih
    have hpos : byteLen (p ++ (t ++ q)) - byteLen x.2 = byteLen (p ++ (t ++ block)) := by
      rw [hcut, List.nil_append, byteLen_append _ x.2, Nat.add_sub_cancel]
    rw [keepRanges_open p t hopen, hclose]
    dsimp only
    rw [hpos, prepend, List.append_nil]
    exact pushRange_at p t q _ _ ih
  | case2 q rest hopen hclose =>
    have hopenLen := openTag_length hopen
    have hbytes := length_le_byteLen q
    obtain ⟨fuel, rfl⟩ : ∃ k, fuel = k + 1 := ⟨fuel - 1, by omega⟩
    rw [keepRanges_open p t hopen, hclose]
    dsimp only
    rw [prepend, List.append_nil t]
    exact pushRange_at p t q [] [] .nil
  | case3 hopen =>
    have hend : keepRanges (utf8Bytes (p ++ (t ++ []))) fuel (byteLen (p ++ t)) (byteLen p) =
        pushRange (byteLen p) (byteLen (p ++ t)) ++ [] := by
      have hlen := length_at p t []
      rw [byteLen_nil, Nat.add_zero] at hlen
      cases fuel with
      | zero => rw [keepRanges, hlen, List.append_nil]
      | succ fuel => rw [keepRanges, hlen, if_neg (Nat.lt_irrefl _), List.append_nil]
    rw [hend, prepend, List.append_nil]
    simpa only [List.append_nil] using pushRange_at p t [] [] [] .nil
  | case4 c q hopen ih =>
    have hpos := c.utf8Size_pos
    rw [byteLen_cons] at hfuel
    obtain ⟨fuel, rfl⟩ : ∃ k, fuel = k + c.utf8Size := ⟨fuel - c.utf8Size, by omega⟩
    have ih := ih p (t ++ [c]) fuel (by omega)
    rw [loop_skips (f := fun fuel i => keepRanges _ fuel i _) (keepRanges_skip _)
      (no_tag_in_char p t hopen), prepend_prepend]
    rw [← List.append_assoc p t [c], byteLen_append _ [c], List.append_assoc t] at ih
    exact ih

end Ranges

/-! ## What is written -/

/-- One space, where neither of two texts has white space at the gap. -/
def textGap (t t' : List Char) : List Char :=
  let prevWs := t.getLast?.any fun c => isAsciiWhitespace c.toNat
  let nextWs := t'.head?.any fun c => isAsciiWhitespace c.toNat
  if !prevWs && !nextWs then [' '] else []

def joinAfter (t : List Char) : List (List Char) → List Char
  | [] => []
  | t' :: ts => textGap t t' ++ t' ++ joinAfter t' ts

def join : List (List Char) → List Char
  | [] => []
  | t :: ts => t ++ joinAfter t ts

section Written

theorem isAsciiWhitespace_lt {n : Nat} (h : isAsciiWhitespace n = true) : n < 128 := by
  simp only [isAsciiWhitespace, Bool.or_eq_true, beq_iff_eq] at h
  omega

theorem isAsciiWhitespace_high {n : Nat} (h : 128 ≤ n) : isAsciiWhitespace n = false :=
  Bool.eq_false_iff.mpr fun hws => absurd (isAsciiWhitespace_lt hws) (by omega)

theorem nextWs_utf8 (t : List Char) :
    ((utf8Bytes t).head?.any fun x => isAsciiWhitespace x.toNat) =
      t.head?.any fun c => isAsciiWhitespace c.toNat := by
  cases t with
  | nil => rfl
  | cons c t =>
    obtain ⟨b, bs, hbytes, hlow, hhigh⟩ := utf8Bytes_head c t
    rw [hbytes, List.head?_cons, List.head?_cons, Option.any_some, Option.any_some]
    obtain hc | hc := Nat.lt_or_ge c.toNat 128
    · rw [(hlow hc).1]
    · rw [isAsciiWhitespace_high hc, isAsciiWhitespace_high (hhigh hc)]

theorem prevWs_utf8 (p : List Char) {t : List Char} (ht : t ≠ []) :
    ((utf8Bytes (p ++ t)).getLast?.any fun x => isAsciiWhitespace x.toNat) =
      t.getLast?.any fun c => isAsciiWhitespace c.toNat := by
  obtain ⟨t, c, rfl⟩ := (List.eq_nil_or_concat' t).resolve_left ht
  have hbytes : utf8Bytes (p ++ (t ++ [c])) = utf8Bytes (p ++ t) ++ String.utf8EncodeChar c := by
    rw [← List.append_assoc, utf8Bytes_append (p ++ t), utf8Bytes_cons,
      show utf8Bytes [] = [] from rfl, List.append_nil]
  rw [hbytes, List.getLast?_append_of_ne_nil _ String.utf8EncodeChar_ne_nil,
    List.getLast?_append_of_ne_nil _ (List.cons_ne_nil c []), List.getLast?_singleton,
    Option.any_some]
  obtain hc | hc := Nat.lt_or_ge c.toNat 128
  · rw [utf8EncodeChar_ascii hc, List.getLast?_singleton, Option.any_some, toNat_byte (by omega)]
  · rw [isAsciiWhitespace_high hc, List.getLast?_eq_some_getLast String.utf8EncodeChar_ne_nil,
      Option.any_some]
    exact isAsciiWhitespace_high (utf8EncodeChar_high hc (List.getLast_mem _))

theorem rangeGap_at {input t t' : List Char} {prev range : Nat × Nat}
    (hprev : IsRange input prev t) (hrange : IsRange input range t') :
    rangeGap (utf8Bytes input) prev.2 range.1 range.2 = textGap t t' := by
  obtain ⟨ht, p, q, hinput, -, hend⟩ := hprev
  obtain ⟨-, p', q', hinput', hstart, hend'⟩ := hrange
  have htake : (utf8Bytes input).take prev.2 = utf8Bytes (p ++ t) := by
    rw [← hend, hinput, ← List.append_assoc, utf8Bytes_append (p ++ t), ← length_utf8Bytes,
      List.take_left]
  have hmid : ((utf8Bytes input).take range.2).drop range.1 = utf8Bytes t' := by
    rw [← hend', ← hstart, hinput', ← List.append_assoc, utf8Bytes_append (p' ++ t'),
      ← length_utf8Bytes (p' ++ t'), List.take_left, drop_utf8Bytes]
  rw [rangeGap, textGap, htake, hmid, prevWs_utf8 p ht, nextWs_utf8]

theorem slice_range {input t : List Char} {range : Nat × Nat} (h : IsRange input range t) :
    slice input range.1 range.2 = some t := by
  obtain ⟨-, p, q, hinput, hstart, hend⟩ := h
  exact slice_mid hinput hstart (by rw [← hend, ← hstart, byteLen_append])

theorem pushKept_after {input t : List Char} {prev : Nat × Nat} {ranges : List (Nat × Nat)}
    {ts : List (List Char)} (hprev : IsRange input prev t)
    (h : List.Forall₂ (IsRange input) ranges ts) :
    pushKept input (some prev.2) ranges = some (joinAfter t ts) := by
  induction h generalizing prev t with
  | nil => rfl
  | @cons range t' ranges ts hrange _ ih =>
    rw [pushKept, slice_range hrange, Option.elim_some, rangeGap_at hprev hrange]
    dsimp only [Option.bind_eq_bind, Option.bind_some]
    rw [ih hrange]
    rfl

/-- No slice panics, and what is kept is the texts between the blocks. -/
theorem stripCot_eq (input : List Char) :
    stripCot input = some (trimChars (join ((texts input).filter (· ≠ [])))) := by
  have hranges := keepRanges_at [] [] input (utf8Bytes input).length
    (Nat.le_of_eq (length_utf8Bytes input).symm)
  rw [prepend_nil (texts_ne_nil _)] at hranges
  dsimp only [List.nil_append, byteLen_nil] at hranges
  rw [stripCot]
  generalize keepRanges _ _ _ _ = ranges at hranges ⊢
  generalize (texts input).filter (· ≠ []) = ts at hranges ⊢
  cases hranges with
  | nil => rfl
  | @cons range t ranges ts hrange hrest =>
    rw [pushKept, slice_range hrange, Option.elim_none]
    dsimp only [Option.bind_eq_bind, Option.bind_some]
    rw [pushKept_after hrange hrest]
    rfl

end Written

end Arags.Cli
