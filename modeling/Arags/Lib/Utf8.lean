import Mathlib.Data.List.Basic

/-!
# Text.Utf8

Lossy decoding of UTF-8: every maximal part of a byte sequence that is not valid becomes one
replacement character.

* `leadByte`  — what a first byte announces: its payload, how many bytes follow, and the range
  of the second.
* `fromUtf8Lossy` — the characters of a byte list; `fromUtf8Lossy_length` bounds their number.
* `utf8Bytes`     — the bytes of a text, read back by `lossyChars_utf8Bytes`.
* `count_lossyChars` — decoding keeps the number of newlines.
-/

namespace Text

def replacement : Char := Char.ofNat 0xFFFD

/-- Payload, continuation bytes, least and greatest second byte. -/
def leadByte (n : Nat) : Option (Nat × Nat × Nat × Nat) :=
  if 0xC2 ≤ n ∧ n ≤ 0xDF then some (n - 0xC0, 1, 0x80, 0xBF)
  else if n = 0xE0 then some (0, 2, 0xA0, 0xBF)
  else if n = 0xED then some (0xD, 2, 0x80, 0x9F)
  else if 0xE1 ≤ n ∧ n ≤ 0xEF then some (n - 0xE0, 2, 0x80, 0xBF)
  else if n = 0xF0 then some (0, 3, 0x90, 0xBF)
  else if 0xF1 ≤ n ∧ n ≤ 0xF3 then some (n - 0xF0, 3, 0x80, 0xBF)
  else if n = 0xF4 then some (4, 3, 0x80, 0x8F)
  else none

/-- The scalar value, unless a byte is out of its range, and the bytes read before that. -/
def tailBytes : Nat → Nat → Nat → Nat → List UInt8 → Option Nat × Nat
  | 0, _, _, acc, _ => (some acc, 0)
  | _ + 1, _, _, _, [] => (none, 0)
  | k + 1, lo, hi, acc, c :: cs =>
    if lo ≤ c.toNat ∧ c.toNat ≤ hi then
      let r := tailBytes k 0x80 0xBF (acc * 64 + (c.toNat - 0x80)) cs
      (r.1, r.2 + 1)
    else (none, 0)

/-- The first character, and the bytes it takes beyond the first. -/
def lossyHead (b : UInt8) (rest : List UInt8) : Char × Nat :=
  if b.toNat < 0x80 then (Char.ofNat b.toNat, 0)
  else
    match leadByte b.toNat with
    | none => (replacement, 0)
    | some (payload, count, lo, hi) =>
      let r := tailBytes count lo hi payload rest
      ((r.1.map Char.ofNat).getD replacement, r.2)

/-- A round takes a byte at least, so `fuel` is a bound on the bytes. -/
def lossyChars : Nat → List UInt8 → List Char
  | 0, _ => []
  | _ + 1, [] => []
  | fuel + 1, b :: rest =>
    let r := lossyHead b rest
    r.1 :: lossyChars fuel (rest.drop r.2)

/-- `String::from_utf8_lossy`. -/
def fromUtf8Lossy (bytes : List UInt8) : String := String.ofList (lossyChars bytes.length bytes)

theorem lossyChars_length (fuel : Nat) (bytes : List UInt8) :
    (lossyChars fuel bytes).length ≤ fuel := by
  induction fuel generalizing bytes with
  | zero => exact Nat.le_refl 0
  | succ fuel ih =>
    cases bytes with
    | nil => exact Nat.zero_le _
    | cons b rest =>
      have := ih (rest.drop (lossyHead b rest).2)
      simp only [lossyChars, List.length_cons]
      omega

theorem fromUtf8Lossy_length (bytes : List UInt8) :
    (fromUtf8Lossy bytes).toList.length ≤ bytes.length := by
  unfold fromUtf8Lossy
  rw [String.toList_ofList]
  exact lossyChars_length _ _

/-- A character of two bytes, a lone continuation byte, a character cut short. -/
example : fromUtf8Lossy [0xC3, 0xA9, 0x80, 0xE2, 0x82, 0x61] =
    String.ofList ['é', replacement, replacement, 'a'] := by decide

/-! ## Valid text -/

/-- The bytes of a text. -/
def utf8Bytes (s : List Char) : List UInt8 := s.flatMap String.utf8EncodeChar

theorem toNat_byte {n : Nat} (h : n < 256) : (UInt8.ofNat n).toNat = n := by
  rw [UInt8.toNat_ofNat']
  exact Nat.mod_eq_of_lt h

/-! What the first byte of two, three and four says, by the bits it carries. -/

theorem leadByte_two {d : Nat} (h : d < 32) (hd : 2 ≤ d) :
    leadByte (d + 0xC0) = some (d, 1, 0x80, 0xBF) := by
  rw [leadByte, if_pos (by omega), Nat.add_sub_cancel]

theorem leadByte_three : ∀ d < 16, leadByte (d + 0xE0) =
    some (d, 2, if d = 0 then 0xA0 else 0x80, if d = 0xD then 0x9F else 0xBF) := by
  decide

theorem leadByte_four : ∀ d < 5, leadByte (d + 0xF0) =
    some (d, 3, if d = 0 then 0x90 else 0x80, if d = 4 then 0x8F else 0xBF) := by
  decide

theorem tailBytes_cont {k acc d lo hi : Nat} (hd : d < 64) (hlo : lo ≤ d + 0x80)
    (hhi : d + 0x80 ≤ hi) (cs : List UInt8) :
    tailBytes (k + 1) lo hi acc (UInt8.ofNat (d + 0x80) :: cs) =
      ((tailBytes k 0x80 0xBF (acc * 64 + d) cs).1,
        (tailBytes k 0x80 0xBF (acc * 64 + d) cs).2 + 1) := by
  rw [tailBytes, toNat_byte (by omega), if_pos ⟨hlo, hhi⟩, Nat.add_sub_cancel]

theorem tailBytes_next {k acc d : Nat} (hd : d < 64) (cs : List UInt8) :
    tailBytes (k + 1) 0x80 0xBF acc (UInt8.ofNat (d + 0x80) :: cs) =
      ((tailBytes k 0x80 0xBF (acc * 64 + d) cs).1,
        (tailBytes k 0x80 0xBF (acc * 64 + d) cs).2 + 1) :=
  tailBytes_cont hd (by omega) (by omega) cs

/-- The bytes of a character are read back as the character. -/
theorem lossyHead_encode (c : Char) (rest : List UInt8) : ∃ b tail,
    String.utf8EncodeChar c = b :: tail ∧ lossyHead b (tail ++ rest) = (c, tail.length) := by
  have hvalid : c.val.toNat < 0xD800 ∨ (0xDFFF < c.val.toNat ∧ c.val.toNat < 0x110000) := c.valid
  have hc : Char.ofNat c.val.toNat = c := Char.ofNat_toNat c
  unfold String.utf8EncodeChar
  generalize c.val.toNat = v at *
  have hhead {n payload count lo hi : Nat} {tail : List UInt8} (hn : 0x80 ≤ n) (hlt : n < 256)
      (hlead : leadByte n = some (payload, count, lo, hi))
      (htail : tailBytes count lo hi payload (tail ++ rest) = (some v, tail.length)) :
      lossyHead (UInt8.ofNat n) (tail ++ rest) = (c, tail.length) := by
    rw [lossyHead, toNat_byte hlt, if_neg (Nat.not_lt.mpr hn), hlead]
    dsimp only
    rw [htail]
    exact congrArg (·, tail.length) hc
  dsimp only
  split
  · refine ⟨_, [], rfl, ?_⟩
    rw [lossyHead, toNat_byte (by omega), if_pos (by omega), hc]
    rfl
  split
  · refine ⟨_, _, rfl, hhead (by omega) (by omega) (leadByte_two (by omega) (by omega)) ?_⟩
    rw [List.cons_append, tailBytes_next (by omega), tailBytes]
    refine Prod.ext (congrArg some ?_) rfl
    omega
  split
  · refine ⟨_, _, rfl, hhead (by omega) (by omega) (leadByte_three _ (by omega)) ?_⟩
    rw [List.cons_append, List.cons_append, tailBytes_cont (by omega) ?_ ?_,
      tailBytes_next (by omega), tailBytes]
    · refine Prod.ext (congrArg some ?_) rfl
      omega
    · split <;> omega
    · split <;> omega
  · refine ⟨_, _, rfl, hhead (by omega) (by omega)
      (leadByte_four (v / 262144 % 8) (by omega)) ?_⟩
    rw [List.cons_append, List.cons_append, List.cons_append, tailBytes_cont (by omega) ?_ ?_,
      tailBytes_next (by omega), tailBytes_next (by omega), tailBytes]
    · refine Prod.ext (congrArg some ?_) rfl
      omega
    · split <;> omega
    · split <;> omega

/-- A text is read back from its bytes. -/
theorem lossyChars_utf8Bytes (s : List Char) : ∀ {fuel : Nat}, s.length ≤ fuel →
    lossyChars fuel (utf8Bytes s) = s := by
  induction s with
  | nil =>
    intro fuel _
    cases fuel <;> rfl
  | cons c s ih =>
    intro fuel h
    obtain ⟨b, tail, hc, hhead⟩ := lossyHead_encode c (utf8Bytes s)
    cases fuel with
    | zero => cases h
    | succ fuel =>
      rw [utf8Bytes, List.flatMap_cons, hc, List.cons_append, ← utf8Bytes, lossyChars, hhead]
      dsimp only
      rw [List.drop_left, ih (Nat.le_of_succ_le_succ h)]

/-! A newline is a byte of its own, in valid text and outside it. -/

/-- What is read after a first byte is at least `0x80`. -/
theorem tailBytes_high (k lo hi acc : Nat) (cs : List UInt8) (hlo : 0x80 ≤ lo) :
    ∀ c ∈ cs.take (tailBytes k lo hi acc cs).2, 0x80 ≤ c.toNat := by
  fun_induction tailBytes k lo hi acc cs with
  | case1 => exact fun c hc => (by cases hc)
  | case2 => exact fun c hc => (by cases hc)
  | case3 k lo hi acc c cs h r ih =>
    intro c' hc'
    rw [List.take_succ_cons, List.mem_cons] at hc'
    rcases hc' with rfl | hc'
    · exact Nat.le_trans hlo h.1
    · exact ih (Nat.le_refl _) c' hc'
  | case4 => exact fun c hc => (by cases hc)

theorem tailBytes_ge (k lo hi acc : Nat) (cs : List UInt8) (n : Nat)
    (h : (tailBytes k lo hi acc cs).1 = some n) : acc ≤ n := by
  fun_induction tailBytes k lo hi acc cs with
  | case1 => exact Nat.le_of_eq (Option.some.inj h)
  | case2 => cases h
  | case3 k lo hi acc c cs hin r ih =>
    have := ih h
    omega
  | case4 => cases h

theorem leadByte_some {n payload count lo hi : Nat}
    (h : leadByte n = some (payload, count, lo, hi)) :
    0 < count ∧ 0x80 ≤ lo ∧ 10 < payload * 64 + (lo - 0x80) := by
  unfold leadByte at h
  split_ifs at h <;> simp only [Option.some.injEq, Prod.mk.injEq] at h <;> omega

/-- A scalar value of several bytes is beyond that of a newline. -/
theorem newline_lt_tailBytes {b : UInt8} {payload count lo hi n : Nat} {cs : List UInt8}
    (hlead : leadByte b.toNat = some (payload, count, lo, hi))
    (h : (tailBytes count lo hi payload cs).1 = some n) : 10 < n := by
  obtain ⟨hcount, -, hbig⟩ := leadByte_some hlead
  obtain ⟨count, rfl⟩ := Nat.exists_eq_succ_of_ne_zero (Nat.pos_iff_ne_zero.mp hcount)
  cases cs with
  | nil => cases h
  | cons c cs =>
    rw [tailBytes] at h
    split at h
    · have := tailBytes_ge _ _ _ _ _ _ h
      omega
    · cases h

theorem toNat_char {n : Nat} (h : n.isValidChar) : (Char.ofNat n).toNat = n := by
  rw [Char.ofNat, dif_pos h]
  rfl

theorem ofNat_ne_newline {n : Nat} (h : 10 < n) : Char.ofNat n ≠ '\n' := by
  intro heq
  by_cases hvalid : n.isValidChar
  · have : n = 10 := by
      rw [← toNat_char hvalid, heq]
      rfl
    omega
  · rw [Char.ofNat, dif_neg hvalid] at heq
    exact absurd heq (by decide)

theorem lossyHead_newline (b : UInt8) (rest : List UInt8) :
    ((lossyHead b rest).1 = '\n' ↔ b = 10) ∧
      ∀ c ∈ rest.take (lossyHead b rest).2, c ≠ 10 := by
  have hten (c : UInt8) (hc : 0x80 ≤ c.toNat) : c ≠ 10 := fun h => absurd (h ▸ hc) (by decide)
  rw [lossyHead]
  split
  · rename_i hsmall
    refine ⟨⟨fun h => ?_, fun h => by rw [h]; rfl⟩, fun c hc => (by cases hc)⟩
    by_contra hne
    have hvalid : b.toNat.isValidChar := Or.inl (by omega)
    have : b.toNat = 10 := (toNat_char hvalid).symm.trans (congrArg Char.toNat h)
    exact hne (UInt8.toNat.inj this)
  · rename_i hlarge
    have hb := hten b (Nat.not_lt.mp hlarge)
    split
    · exact ⟨iff_of_false (by decide) hb, fun c hc => (by cases hc)⟩
    · rename_i payload count lo hi hlead
      obtain ⟨-, hlo, -⟩ := leadByte_some hlead
      refine ⟨iff_of_false ?_ hb, fun c hc => hten c (tailBytes_high _ _ _ _ _ hlo c hc)⟩
      cases hvalue : (tailBytes count lo hi payload rest).1 with
      | none =>
        dsimp only
        rw [hvalue]
        decide
      | some n =>
        dsimp only
        rw [hvalue]
        exact ofNat_ne_newline (newline_lt_tailBytes hlead hvalue)

/-- Decoding neither makes newlines nor loses them. -/
theorem count_lossyChars : ∀ {fuel : Nat} {bytes : List UInt8}, bytes.length ≤ fuel →
    (lossyChars fuel bytes).count '\n' = bytes.count 10 := by
  intro fuel
  induction fuel with
  | zero =>
    intro bytes h
    obtain rfl := List.length_eq_zero_iff.mp (Nat.le_zero.mp h)
    rfl
  | succ fuel ih =>
    intro bytes h
    cases bytes with
    | nil => rfl
    | cons b rest =>
      obtain ⟨hfirst, hskip⟩ := lossyHead_newline b rest
      have hrest : rest.count 10 = (rest.drop (lossyHead b rest).2).count 10 := by
        rw [← List.take_append_drop (lossyHead b rest).2 rest, List.count_append,
          List.count_eq_zero.mpr fun hmem => hskip 10 hmem rfl, Nat.zero_add,
          List.take_append_drop]
      have hlen : (rest.drop (lossyHead b rest).2).length ≤ fuel := by
        rw [List.length_drop]
        rw [List.length_cons] at h
        omega
      rw [lossyChars, List.count_cons, List.count_cons, ih hlen, hrest]
      by_cases hb : b = 10
      · rw [if_pos (by simpa using hfirst.mpr hb), if_pos (by simpa using hb)]
      · rw [if_neg (by simpa using fun h => hb (hfirst.mp h)), if_neg (by simpa using hb)]

theorem utf8Bytes_append (s t : List Char) : utf8Bytes (s ++ t) = utf8Bytes s ++ utf8Bytes t :=
  List.flatMap_append

theorem length_le_utf8Bytes (s : List Char) : s.length ≤ (utf8Bytes s).length := by
  induction s with
  | nil => exact Nat.le_refl 0
  | cons c s ih =>
    rw [utf8Bytes, List.flatMap_cons, List.length_append, String.length_utf8EncodeChar, ← utf8Bytes]
    have := Char.utf8Size_pos c
    rw [List.length_cons]
    omega

theorem count_utf8Bytes (s : List Char) : (utf8Bytes s).count 10 = s.count '\n' := by
  rw [← count_lossyChars (Nat.le_refl _), lossyChars_utf8Bytes s (length_le_utf8Bytes s)]

/-! ## The bytes of a character -/

theorem utf8EncodeChar_ascii {c : Char} (h : c.toNat < 128) :
    String.utf8EncodeChar c = [UInt8.ofNat c.toNat] := by
  have hv : c.val.toNat ≤ 0x7f := Nat.lt_succ_iff.mp h
  rw [String.utf8EncodeChar, if_pos hv]
  rfl

/-- Every byte of a character outside ASCII is at least 128. -/
theorem utf8EncodeChar_high {c : Char} (h : 128 ≤ c.toNat) {b : UInt8}
    (hb : b ∈ String.utf8EncodeChar c) : 128 ≤ b.toNat := by
  have hv : 128 ≤ c.val.toNat := h
  have hbyte {n : Nat} (hn : n < 256) (hlow : 128 ≤ n) (hbn : b = UInt8.ofNat n) :
      128 ≤ b.toNat := by
    rw [hbn, toNat_byte hn]
    exact hlow
  unfold String.utf8EncodeChar at hb
  dsimp only at hb
  rw [if_neg (by omega)] at hb
  split at hb
  · simp only [List.mem_cons, List.not_mem_nil, or_false] at hb
    obtain hb | hb := hb <;> exact hbyte (by omega) (by omega) hb
  split at hb
  · simp only [List.mem_cons, List.not_mem_nil, or_false] at hb
    obtain hb | hb | hb := hb <;> exact hbyte (by omega) (by omega) hb
  · simp only [List.mem_cons, List.not_mem_nil, or_false] at hb
    obtain hb | hb | hb | hb := hb <;> exact hbyte (by omega) (by omega) hb

theorem utf8Bytes_cons (c : Char) (s : List Char) :
    utf8Bytes (c :: s) = String.utf8EncodeChar c ++ utf8Bytes s :=
  List.flatMap_cons

/-- The first byte of a text, beside the first character. -/
theorem utf8Bytes_head (c : Char) (s : List Char) : ∃ b bs, utf8Bytes (c :: s) = b :: bs ∧
    (c.toNat < 128 → b.toNat = c.toNat ∧ bs = utf8Bytes s) ∧ (128 ≤ c.toNat → 128 ≤ b.toNat) := by
  obtain hc | hc := Nat.lt_or_ge c.toNat 128
  · refine ⟨UInt8.ofNat c.toNat, utf8Bytes s, ?_, fun _ => ⟨toNat_byte (by omega), rfl⟩, by omega⟩
    rw [utf8Bytes_cons, utf8EncodeChar_ascii hc, List.singleton_append]
  · obtain ⟨b, bs, hb⟩ := List.exists_cons_of_ne_nil (String.utf8EncodeChar_ne_nil (c := c))
    refine ⟨b, bs ++ utf8Bytes s, ?_, by omega, fun _ => utf8EncodeChar_high hc ?_⟩
    · rw [utf8Bytes_cons, hb, List.cons_append]
    · rw [hb]
      exact List.mem_cons_self

end Text
