import Arags.Lib.Text
import Arags.Lib.Utf8
import Mathlib.Algebra.GroupWithZero.Nat
import Mathlib.Data.List.DropRight
import Mathlib.Data.List.TakeWhile

/-!
# Text.Slices

A text as its characters, addressed by the bytes of its UTF-8 form.

* `byteLen`, `splitAtByte`, `slice` — a slice exists where both of its offsets are on character
  boundaries; `slice_eq_some` says what it holds.
* `split`, `IsSplit` — the pieces around a pattern, each with its offset.
* `splitInclusive` — the lines of a text with their ends.
-/

namespace Text

/-! ## Offsets -/

/-- `str::len`. -/
def byteLen (s : List Char) : Nat := (s.map Char.utf8Size).sum

@[simp] theorem byteLen_nil : byteLen [] = 0 := rfl

@[simp] theorem byteLen_cons (c : Char) (s : List Char) :
    byteLen (c :: s) = c.utf8Size + byteLen s := by
  simp [byteLen]

@[simp] theorem byteLen_append (a b : List Char) : byteLen (a ++ b) = byteLen a + byteLen b := by
  simp [byteLen]

@[simp] theorem byteLen_reverse (s : List Char) : byteLen s.reverse = byteLen s := by
  simp [byteLen, List.sum_reverse]

theorem length_le_byteLen (s : List Char) : s.length ≤ byteLen s := by
  induction s with
  | nil => exact Nat.le_refl 0
  | cons c s ih =>
    have := c.utf8Size_pos
    rw [List.length_cons, byteLen_cons]
    omega

theorem byteLen_pos {s : List Char} (h : s ≠ []) : 0 < byteLen s :=
  Nat.lt_of_lt_of_le (List.length_pos_iff.mpr h) (length_le_byteLen s)

@[simp] theorem byteLen_eq_zero {s : List Char} : byteLen s = 0 ↔ s = [] := by
  refine ⟨fun h => ?_, fun h => h ▸ rfl⟩
  by_contra hne
  exact absurd (byteLen_pos hne) (by omega)

/-- The text before byte `i` and the text from there on, where `i` is a character boundary. -/
def splitAtByte : List Char → Nat → Option (List Char × List Char)
  | s, 0 => some ([], s)
  | [], _ + 1 => none
  | c :: s, i + 1 =>
    if c.utf8Size ≤ i + 1 then
      (splitAtByte s (i + 1 - c.utf8Size)).map fun p => (c :: p.1, p.2)
    else none

theorem splitAtByte_succ (c : Char) (s : List Char) (i : Nat) : splitAtByte (c :: s) (i + 1) =
    if c.utf8Size ≤ i + 1 then
      (splitAtByte s (i + 1 - c.utf8Size)).map fun p => (c :: p.1, p.2)
    else none := rfl

theorem splitAtByte_append (a b : List Char) : splitAtByte (a ++ b) (byteLen a) = some (a, b) := by
  induction a with
  | nil => cases b <;> rfl
  | cons c a ih =>
    have hpos := c.utf8Size_pos
    obtain ⟨i, hi⟩ : ∃ i, byteLen (c :: a) = i + 1 := ⟨byteLen (c :: a) - 1, by
      rw [byteLen_cons]
      omega⟩
    have hlen := byteLen_cons c a
    rw [hi, List.cons_append, splitAtByte_succ, if_pos (by omega),
      show i + 1 - c.utf8Size = byteLen a by omega, ih]
    rfl

theorem splitAtByte_eq_some {s a b : List Char} {i : Nat} :
    splitAtByte s i = some (a, b) ↔ s = a ++ b ∧ byteLen a = i := by
  refine ⟨fun h => ?_, fun ⟨hs, hi⟩ => hs ▸ hi ▸ splitAtByte_append a b⟩
  induction s generalizing a i with
  | nil =>
    cases i with
    | zero =>
      cases h
      exact ⟨rfl, rfl⟩
    | succ i => cases h
  | cons c s ih =>
    cases i with
    | zero =>
      cases h
      exact ⟨rfl, rfl⟩
    | succ i =>
      rw [splitAtByte_succ] at h
      by_cases hle : c.utf8Size ≤ i + 1
      · rw [if_pos hle] at h
        obtain ⟨⟨a', b'⟩, hrec, heq⟩ := Option.map_eq_some_iff.mp h
        obtain ⟨rfl, rfl⟩ := Prod.mk.inj heq
        obtain ⟨rfl, hlen⟩ := ih hrec
        refine ⟨rfl, ?_⟩
        rw [byteLen_cons, hlen]
        omega
      · rw [if_neg hle] at h
        cases h

/-- `str::is_char_boundary`. -/
def isCharBoundary (s : List Char) (i : Nat) : Bool := (splitAtByte s i).isSome

theorem isCharBoundary_iff {s : List Char} {i : Nat} :
    isCharBoundary s i = true ↔ ∃ a b, s = a ++ b ∧ byteLen a = i := by
  simp only [isCharBoundary, Option.isSome_iff_exists, Prod.exists, splitAtByte_eq_some]

theorem isCharBoundary_append (a b : List Char) : isCharBoundary (a ++ b) (byteLen a) = true :=
  isCharBoundary_iff.mpr ⟨a, b, rfl, rfl⟩

theorem isCharBoundary_le {s : List Char} {i : Nat} (h : isCharBoundary s i = true) :
    i ≤ byteLen s := by
  obtain ⟨a, b, rfl, rfl⟩ := isCharBoundary_iff.mp h
  rw [byteLen_append]
  omega

/-- No boundary is inside a character. -/
theorem isCharBoundary_inside {a b : List Char} {c : Char} {i : Nat} (hi : 0 < i)
    (hc : i < c.utf8Size) : isCharBoundary (a ++ c :: b) (byteLen a + i) = false := by
  rw [Bool.eq_false_iff]
  intro h
  obtain ⟨a', b', hab, hlen⟩ := isCharBoundary_iff.mp h
  obtain ⟨m, rfl, hm⟩ | ⟨m, rfl, -⟩ := List.append_eq_append_iff.mp hab
  · rw [byteLen_append] at hlen
    cases m with
    | nil =>
      rw [byteLen_nil] at hlen
      omega
    | cons d m =>
      obtain ⟨rfl, -⟩ := List.cons.inj hm
      rw [byteLen_cons] at hlen
      omega
  · rw [byteLen_append] at hlen
    omega

/-- `&s[i..j]`. -/
def slice (s : List Char) (i j : Nat) : Option (List Char) :=
  if i ≤ j then do
    let (_, t) ← splitAtByte s i
    let (m, _) ← splitAtByte t (j - i)
    return m
  else none

theorem slice_eq_some {s m : List Char} {i j : Nat} :
    slice s i j = some m ↔ ∃ p q, s = p ++ (m ++ q) ∧ byteLen p = i ∧ i + byteLen m = j := by
  constructor
  · intro h
    by_cases hle : i ≤ j
    · rw [slice, if_pos hle] at h
      obtain ⟨⟨p, t⟩, hp, h⟩ := Option.bind_eq_some_iff.mp h
      obtain ⟨⟨m', q⟩, hm, h⟩ := Option.bind_eq_some_iff.mp h
      obtain rfl := Option.some.inj h
      obtain ⟨rfl, hpi⟩ := splitAtByte_eq_some.mp hp
      obtain ⟨rfl, hmj⟩ := splitAtByte_eq_some.mp hm
      exact ⟨p, q, rfl, hpi, by omega⟩
    · rw [slice, if_neg hle] at h
      cases h
  · rintro ⟨p, q, rfl, rfl, rfl⟩
    rw [slice, if_pos (Nat.le_add_right _ _), splitAtByte_append,
      Nat.add_sub_cancel_left]
    show (splitAtByte (m ++ q) (byteLen m)).bind _ = _
    rw [splitAtByte_append]
    rfl

/-- The slice around a known middle part. -/
theorem slice_mid {s p m q : List Char} {i j : Nat} (hs : s = p ++ (m ++ q)) (hi : byteLen p = i)
    (hj : i + byteLen m = j) : slice s i j = some m :=
  slice_eq_some.mpr ⟨p, q, hs, hi, hj⟩

theorem slice_front {s m q : List Char} {j : Nat} (hs : s = m ++ q) (hj : byteLen m = j) :
    slice s 0 j = some m :=
  slice_mid (p := []) hs rfl (by rw [Nat.zero_add, hj])

theorem slice_isSome_iff {s : List Char} {i j : Nat} : (slice s i j).isSome = true ↔
    i ≤ j ∧ isCharBoundary s i = true ∧ isCharBoundary s j = true := by
  constructor
  · intro h
    obtain ⟨m, hm⟩ := Option.isSome_iff_exists.mp h
    obtain ⟨p, q, rfl, rfl, rfl⟩ := slice_eq_some.mp hm
    refine ⟨Nat.le_add_right _ _, isCharBoundary_append _ _, ?_⟩
    rw [← List.append_assoc, ← byteLen_append]
    exact isCharBoundary_append _ _
  · rintro ⟨hle, hi, hj⟩
    obtain ⟨p, t, rfl, rfl⟩ := isCharBoundary_iff.mp hi
    obtain ⟨a, b, hab, rfl⟩ := isCharBoundary_iff.mp hj
    obtain ⟨m, rfl, rfl⟩ | ⟨m, rfl, rfl⟩ := List.append_eq_append_iff.mp hab
    · rw [slice_mid rfl rfl (byteLen_append p m).symm]
      rfl
    · rw [byteLen_append] at hle
      have hm : m = [] := byteLen_eq_zero.mp (by omega)
      subst hm
      rw [List.append_nil] at hi ⊢
      rw [slice_mid (s := a ++ t) (p := a) (m := []) (q := t) (j := byteLen a) rfl rfl rfl]
      rfl

/-- From the end of a prefix up to a boundary. -/
theorem exists_slice {p t : List Char} {j : Nat} (hj : isCharBoundary (p ++ t) j = true)
    (hle : byteLen p ≤ j) : ∃ m q, t = m ++ q ∧ byteLen p + byteLen m = j ∧
      slice (p ++ t) (byteLen p) j = some m := by
  have hsome := slice_isSome_iff.mpr ⟨hle, isCharBoundary_append p t, hj⟩
  obtain ⟨m, hm⟩ := Option.isSome_iff_exists.mp hsome
  obtain ⟨p', q, heq, hp', hlen⟩ := slice_eq_some.mp hm
  have hcut := splitAtByte_append p t
  rw [heq, ← hp', splitAtByte_append] at hcut
  obtain ⟨-, rfl⟩ := Prod.mk.inj (Option.some.inj hcut)
  exact ⟨m, q, rfl, hlen, hm⟩

/-! ## Pieces around a pattern -/

/-- The first `k` characters still belong to a match. -/
def splitGo (pat : List Char) : Nat → List Char → List (List Char)
  | _, [] => [[]]
  | k + 1, _ :: s => splitGo pat k s
  | 0, c :: s =>
    if pat.isPrefixOf (c :: s) then [] :: splitGo pat (pat.length - 1) s
    else (splitGo pat 0 s).modifyHead (c :: ·)

theorem splitGo_zero (pat : List Char) (c : Char) (s : List Char) : splitGo pat 0 (c :: s) =
    if pat.isPrefixOf (c :: s) then [] :: splitGo pat (pat.length - 1) s
    else (splitGo pat 0 s).modifyHead (c :: ·) := rfl

/-- `str::split`. The empty pattern matches before each character and at the end. -/
def split (pat s : List Char) : List (List Char) :=
  if pat.isEmpty then [] :: (s.map ([·]) ++ [[]]) else splitGo pat 0 s

/-- The pieces and the matches of `pat` between them, in order, are the text. -/
inductive IsSplit (pat : List Char) : List Char → List (List Char) → Prop where
  | last (s : List Char) : IsSplit pat s [s]
  | cons (p : List Char) {s : List Char} {ps : List (List Char)} (rest : IsSplit pat s ps) :
      IsSplit pat (p ++ (pat ++ s)) (p :: ps)

theorem IsSplit.cons_head {pat s : List Char} {ps : List (List Char)} (c : Char)
    (h : IsSplit pat s ps) : IsSplit pat (c :: s) (ps.modifyHead (c :: ·)) := by
  cases h with
  | last s => exact .last _
  | cons p rest => exact .cons (c :: p) rest

theorem splitGo_isSplit {pat : List Char} (hpat : pat ≠ []) (s : List Char) :
    ∀ k, IsSplit pat (s.drop k) (splitGo pat k s) := by
  induction s with
  | nil =>
    intro k
    rw [List.drop_nil]
    cases k <;> exact .last []
  | cons c s ih =>
    intro k
    cases k with
    | succ k =>
      rw [List.drop_succ_cons]
      exact ih k
    | zero =>
      rw [List.drop_zero, splitGo_zero]
      by_cases hpre : pat.isPrefixOf (c :: s) = true
      · rw [if_pos hpre]
        obtain ⟨t, ht⟩ := List.isPrefixOf_iff_prefix.mp hpre
        have hrest : s.drop (pat.length - 1) = t := by
          obtain ⟨d, pat, rfl⟩ := List.exists_cons_of_ne_nil hpat
          obtain ⟨-, rfl⟩ := List.cons.inj ht
          simp
        rw [← ht]
        exact .cons [] (hrest ▸ ih (pat.length - 1))
      · rw [if_neg hpre]
        exact (ih 0).cons_head c

theorem split_isSplit (pat s : List Char) : IsSplit pat s (split pat s) := by
  rw [split]
  split
  · rename_i hempty
    obtain rfl := List.isEmpty_iff.mp hempty
    have hchars : IsSplit [] s (s.map ([·]) ++ [[]]) := by
      induction s with
      | nil => exact .last []
      | cons c s ih => exact .cons [c] ih
    exact .cons [] hchars
  · rename_i hne
    exact splitGo_isSplit (fun h => hne (List.isEmpty_iff.mpr h)) s 0

theorem IsSplit.ne_nil {pat s : List Char} {ps : List (List Char)} (h : IsSplit pat s ps) :
    ps ≠ [] := by
  cases h <;> exact List.cons_ne_nil _ _

/-! ## Lines -/

/-- `str::split_inclusive('\n')`. -/
def splitInclusive : List Char → List (List Char)
  | [] => []
  | c :: s =>
    if c = '\n' then [c] :: splitInclusive s
    else
      match splitInclusive s with
      | [] => [[c]]
      | l :: ls => (c :: l) :: ls

theorem splitInclusive_nil : splitInclusive [] = [] := rfl

theorem splitInclusive_cons (c : Char) (s : List Char) : splitInclusive (c :: s) =
    if c = '\n' then [c] :: splitInclusive s
    else
      match splitInclusive s with
      | [] => [[c]]
      | l :: ls => (c :: l) :: ls := rfl

@[simp] theorem flatten_splitInclusive (s : List Char) : (splitInclusive s).flatten = s := by
  induction s with
  | nil => rfl
  | cons c s ih =>
    rw [splitInclusive_cons]
    by_cases hc : c = '\n'
    · rw [if_pos hc, List.flatten_cons, ih]
      rfl
    · rw [if_neg hc]
      cases hlines : splitInclusive s with
      | nil =>
        rw [hlines] at ih
        rw [← ih]
        rfl
      | cons l ls =>
        rw [hlines] at ih
        rw [← ih]
        rfl

theorem ne_nil_of_mem_splitInclusive {s l : List Char} (h : l ∈ splitInclusive s) : l ≠ [] := by
  induction s generalizing l with
  | nil => cases h
  | cons c s ih =>
    rw [splitInclusive_cons] at h
    by_cases hc : c = '\n'
    · rw [if_pos hc] at h
      rcases List.mem_cons.mp h with rfl | h
      · exact List.cons_ne_nil _ _
      · exact ih h
    · rw [if_neg hc] at h
      cases hlines : splitInclusive s with
      | nil =>
        rw [hlines] at h
        rw [List.mem_singleton.mp h]
        exact List.cons_ne_nil _ _
      | cons l' ls =>
        rw [hlines] at h
        rcases List.mem_cons.mp h with rfl | h
        · exact List.cons_ne_nil _ _
        · exact ih (hlines ▸ List.mem_cons_of_mem _ h)

theorem exists_cons_splitGo (pat s : List Char) (k : Nat) :
    ∃ p ps, splitGo pat k s = p :: ps := by
  induction s generalizing k with
  | nil => cases k <;> exact ⟨_, _, rfl⟩
  | cons c s ih =>
    cases k with
    | succ k => exact ih k
    | zero =>
      rw [splitGo_zero]
      split
      · exact ⟨_, _, rfl⟩
      · obtain ⟨p, ps, h⟩ := ih 0
        exact ⟨c :: p, ps, by rw [h]; rfl⟩

/-- Lines by their separators. -/
theorem split_newline_cons (c : Char) (s : List Char) : split ['\n'] (c :: s) =
    if c = '\n' then [] :: split ['\n'] s else (split ['\n'] s).modifyHead (c :: ·) := by
  show splitGo ['\n'] 0 (c :: s) = _
  rw [splitGo_zero]
  by_cases hc : c = '\n'
  · subst hc
    rfl
  · rw [if_neg (by simpa using Ne.symm hc), if_neg hc]
    rfl

/-- Where a line starts, with its separators counted and with its ends. -/
theorem sum_take_split (s : List Char) (n : Nat) :
    min (((split ['\n'] s).take n).map (byteLen · + 1)).sum (byteLen s) =
      byteLen ((splitInclusive s).take n).flatten := by
  cases n with
  | zero => simp
  | succ n =>
    induction s generalizing n with
    | nil => simp [splitInclusive_nil]
    | cons c s ih =>
      rw [split_newline_cons, splitInclusive_cons]
      by_cases hc : c = '\n'
      · have hsize : c.utf8Size = 1 := by rw [hc]; rfl
        rw [if_pos hc, if_pos hc, List.take_succ_cons, List.take_succ_cons, List.flatten_cons,
          byteLen_append, byteLen_cons, byteLen_cons, List.map_cons, List.sum_cons, byteLen_nil,
          hsize]
        cases n with
        | zero => simp
        | succ n =>
          rw [← ih n]
          omega
      · obtain ⟨p, ps, hsplit⟩ := exists_cons_splitGo ['\n'] s 0
        have hsplit : split ['\n'] s = p :: ps := hsplit
        have hrec := ih n
        rw [hsplit] at hrec ⊢
        rw [if_neg hc, if_neg hc, List.modifyHead_cons]
        simp only [List.take_succ_cons, List.map_cons, List.sum_cons, byteLen_cons] at hrec ⊢
        cases hlines : splitInclusive s with
        | nil =>
          have hs : s = [] := by rw [← flatten_splitInclusive s, hlines]; rfl
          subst hs
          simp
          omega
        | cons l ls =>
          rw [hlines] at hrec
          simp only [List.take_succ_cons, List.flatten_cons, byteLen_append, byteLen_cons]
            at hrec ⊢
          omega

theorem length_split_newline (s : List Char) : (split ['\n'] s).length =
    (splitInclusive s).length + if s = [] ∨ s.getLast? = some '\n' then 1 else 0 := by
  induction s with
  | nil => rfl
  | cons c s ih =>
    rw [split_newline_cons, splitInclusive_cons]
    by_cases hc : c = '\n'
    · rw [if_pos hc, if_pos hc, List.length_cons, List.length_cons, ih]
      cases s with
      | nil => simp [hc]
      | cons d s => simp [Nat.add_right_comm]
    · rw [if_neg hc, if_neg hc, List.length_modifyHead, ih]
      cases s with
      | nil => simp [hc, splitInclusive_nil]
      | cons d s =>
        cases hlines : splitInclusive (d :: s) with
        | nil =>
          have := flatten_splitInclusive (d :: s)
          rw [hlines] at this
          cases this
        | cons l ls => simp

/-! ## Searching -/

/-- `str::find` of a text: the byte at which its first match starts. -/
def find (pat : List Char) : List Char → Option Nat
  | [] => if pat.isEmpty then some 0 else none
  | c :: s => if pat.isPrefixOf (c :: s) then some 0 else (find pat s).map (c.utf8Size + ·)

/-- `str::rfind` of a kind of character: the byte at which the last one starts. -/
def rfind (p : Char → Bool) : List Char → Option Nat
  | [] => none
  | c :: s =>
    match rfind p s with
    | some i => some (c.utf8Size + i)
    | none => if p c then some 0 else none

/-- `str::trim_end`. -/
def trimEnd (s : List Char) : List Char := (s.reverse.dropWhile isWhiteSpace).reverse

theorem rfind_eq_none {p : Char → Bool} {s : List Char} :
    rfind p s = none ↔ ∀ c ∈ s, p c = false := by
  induction s with
  | nil => simp [rfind]
  | cons c s ih =>
    rw [rfind, List.forall_mem_cons, ← ih]
    cases rfind p s with
    | some i => simp
    | none => cases hc : p c <;> simp

theorem trimEnd_cons (c : Char) (s : List Char) :
    trimEnd (c :: s) = if isWhiteSpace c ∧ trimEnd s = [] then [] else c :: trimEnd s := by
  rw [trimEnd, List.reverse_cons, List.dropWhile_append]
  by_cases hs : s.reverse.dropWhile isWhiteSpace = []
  · rw [trimEnd, hs]
    cases hc : isWhiteSpace c <;> simp [hc]
  · rw [if_neg (by simpa using hs), if_neg (by simp [trimEnd, hs]), List.reverse_append]
    rfl

/-- `str::split_whitespace`, after the characters `word`, which are in reverse. -/
def wordsFrom (word : List Char) : List Char → List (List Char)
  | [] => if word.isEmpty then [] else [word.reverse]
  | c :: s =>
    if isWhiteSpace c then
      if word.isEmpty then wordsFrom [] s else word.reverse :: wordsFrom [] s
    else wordsFrom (c :: word) s

def words (s : List Char) : List (List Char) := wordsFrom [] s

/-- The maximal runs of characters, after the characters `word`, which are in reverse. -/
def runsFrom (p : Char → Bool) (word : List Char) : List Char → List (List Char)
  | [] => if word.isEmpty then [] else [word.reverse]
  | c :: s =>
    if p c then runsFrom p (c :: word) s
    else if word.isEmpty then runsFrom p [] s
    else word.reverse :: runsFrom p [] s

theorem runsFrom_cons (p : Char → Bool) (word : List Char) (c : Char) (s : List Char) :
    runsFrom p word (c :: s) =
      if p c then runsFrom p (c :: word) s
      else if word.isEmpty then runsFrom p [] s
      else word.reverse :: runsFrom p [] s := rfl

theorem runsFrom_nil (p : Char → Bool) (word : List Char) :
    runsFrom p word [] = if word.isEmpty then [] else [word.reverse] := rfl

def runs (p : Char → Bool) (s : List Char) : List (List Char) := runsFrom p [] s

theorem words_eq_runs (s : List Char) : words s = runs (fun c => !isWhiteSpace c) s := by
  have hfrom (word : List Char) :
      wordsFrom word s = runsFrom (fun c => !isWhiteSpace c) word s := by
    induction s generalizing word with
    | nil => rfl
    | cons c s ih =>
      rw [wordsFrom, runsFrom_cons]
      cases isWhiteSpace c <;> simp [ih]
  exact hfrom []

/-- The runs of a text in which the other characters are replaced. -/
theorem runs_map {p q : Char → Bool} {f : Char → Char} {s : List Char}
    (h : ∀ c ∈ s, p (f c) = q c) (hf : ∀ c ∈ s, q c = true → f c = c) :
    runs p (s.map f) = runs q s := by
  have hfrom (word : List Char) : runsFrom p word (s.map f) = runsFrom q word s := by
    induction s generalizing word with
    | nil => rfl
    | cons c s ih =>
      have ih := ih (fun c hc => h c (List.mem_cons_of_mem _ hc))
        (fun c hc => hf c (List.mem_cons_of_mem _ hc))
      rw [List.map_cons, runsFrom_cons, runsFrom_cons, h c List.mem_cons_self, ih, ih]
      split
      next hq => rw [hf c List.mem_cons_self hq]
      next => rfl
  exact hfrom []

/-- The characters of a run are taken one by one. -/
theorem runsFrom_run {p : Char → Bool} {w : List Char} (hw : ∀ x ∈ w, p x = true)
    (word s : List Char) : runsFrom p word (w ++ s) = runsFrom p (w.reverse ++ word) s := by
  induction w generalizing word with
  | nil => rfl
  | cons x w ih =>
    rw [List.cons_append, runsFrom_cons, if_pos (hw x List.mem_cons_self),
      ih fun z hz => hw z (List.mem_cons_of_mem x hz), List.reverse_cons, List.append_assoc]
    rfl

/-- A run, a character that is in none, and a text. -/
theorem runs_append {p : Char → Bool} {w : List Char} {c : Char} (hne : w ≠ [])
    (hw : ∀ x ∈ w, p x = true) (hc : p c = false) (s : List Char) :
    runs p (w ++ c :: s) = w :: runs p s := by
  rw [runs, runsFrom_run hw, runsFrom_cons, hc]
  simp [hne, runs]

theorem runs_self {p : Char → Bool} {w : List Char} (hne : w ≠ []) (hw : ∀ x ∈ w, p x = true) :
    runs p w = [w] := by
  have hrun := runsFrom_run hw [] []
  rw [List.append_nil, List.append_nil] at hrun
  rw [runs, hrun, runsFrom_nil]
  simp [hne]

theorem mem_runsFrom {p : Char → Bool} {s w : List Char} (word : List Char)
    (hword : ∀ c ∈ word, p c = true) (h : w ∈ runsFrom p word s) :
    w ≠ [] ∧ ∀ c ∈ w, p c = true := by
  induction s generalizing word with
  | nil =>
    rw [runsFrom_nil] at h
    split at h
    · cases h
    next hne =>
      obtain rfl := List.mem_singleton.mp h
      exact ⟨by simpa using hne, fun c hc => hword c (List.mem_reverse.mp hc)⟩
  | cons c s ih =>
    rw [runsFrom_cons] at h
    split at h
    next hc => exact ih (c :: word) (List.forall_mem_cons.mpr ⟨hc, hword⟩) h
    split at h
    · exact ih [] (by simp) h
    next hne =>
      obtain rfl | h := List.mem_cons.mp h
      · exact ⟨by simpa using hne, fun c hc => hword c (List.mem_reverse.mp hc)⟩
      · exact ih [] (by simp) h

/-- What a run is made of. -/
theorem mem_runs {p : Char → Bool} {s w : List Char} (h : w ∈ runs p s) :
    w ≠ [] ∧ ∀ c ∈ w, p c = true :=
  mem_runsFrom [] (by simp) h

/-- Words are read back from their text with blanks between them. -/
theorem words_intercalate {ws : List (List Char)}
    (h : ∀ w ∈ ws, w ≠ [] ∧ ∀ c ∈ w, isWhiteSpace c = false) :
    words ([' '].intercalate ws) = ws := by
  rw [words_eq_runs]
  induction ws with
  | nil => rfl
  | cons w ws ih =>
    obtain ⟨hne, hw⟩ := h w List.mem_cons_self
    have hrun : ∀ c ∈ w, (!isWhiteSpace c) = true := fun c hc => by simp [hw c hc]
    cases ws with
    | nil => rw [List.intercalate_singleton, runs_self hne hrun]
    | cons v ws =>
      rw [List.intercalate_cons_cons, List.append_assoc, List.singleton_append,
        runs_append hne hrun rfl, ih fun u hu => h u (List.mem_cons_of_mem w hu)]

theorem mem_words {s w : List Char} (h : w ∈ words s) :
    w ≠ [] ∧ ∀ c ∈ w, isWhiteSpace c = false := by
  rw [words_eq_runs] at h
  obtain ⟨hne, hw⟩ := mem_runs h
  exact ⟨hne, fun c hc => by simpa using hw c hc⟩

/-! ## Splitting once -/

/-- `str::split_once`: what stands before the first match, and what after it. -/
def splitOnce (pat : List Char) : List Char → Option (List Char × List Char)
  | [] => if pat.isEmpty then some ([], []) else none
  | c :: s =>
    if pat.isPrefixOf (c :: s) then some ([], (c :: s).drop pat.length)
    else (splitOnce pat s).map fun x => (c :: x.1, x.2)

/-- `str::rsplit_once`. -/
def rsplitOnce (pat s : List Char) : Option (List Char × List Char) :=
  (splitOnce pat.reverse s.reverse).map fun x => (x.2.reverse, x.1.reverse)

/-- The first match is the one that no other starts before. -/
theorem splitOnce_append {pat a : List Char} (hpat : pat ≠ []) (b : List Char)
    (h : ∀ i < a.length, ¬ pat <+: (a ++ (pat ++ b)).drop i) :
    splitOnce pat (a ++ (pat ++ b)) = some (a, b) := by
  induction a with
  | nil =>
    obtain ⟨p, pat, rfl⟩ := List.exists_cons_of_ne_nil hpat
    have hpre : p :: pat <+: p :: (pat ++ b) := List.prefix_append (p :: pat) b
    rw [List.nil_append, List.cons_append, splitOnce,
      if_pos (List.isPrefixOf_iff_prefix.mpr hpre), ← List.cons_append, List.drop_left]
  | cons c a ih =>
    have hnot : ¬ pat <+: c :: (a ++ (pat ++ b)) := h 0 (Nat.succ_pos _)
    rw [List.cons_append, splitOnce,
      if_neg (fun hpre => hnot (List.isPrefixOf_iff_prefix.mp hpre)),
      ih fun i hi => h (i + 1) (Nat.succ_lt_succ hi)]
    rfl

theorem split_newline_append (a s : List Char) :
    split ['\n'] (a ++ '\n' :: s) = split ['\n'] a ++ split ['\n'] s := by
  induction a with
  | nil =>
    rw [List.nil_append, split_newline_cons, if_pos rfl]
    rfl
  | cons c a ih =>
    rw [List.cons_append, split_newline_cons, split_newline_cons, ih]
    split
    · rfl
    · obtain ⟨p, ps, hp⟩ := List.exists_cons_of_ne_nil (split_isSplit ['\n'] a).ne_nil
      rw [hp]
      rfl

/-- What stands between two newlines is a line. -/
theorem mem_split_between {m : List Char} (hm : '\n' ∉ m) (a b : List Char) :
    m ∈ split ['\n'] (a ++ '\n' :: (m ++ '\n' :: b)) := by
  have hone : split ['\n'] m = [m] := by
    induction m with
    | nil => rfl
    | cons c m ih =>
      rw [List.mem_cons, not_or] at hm
      rw [split_newline_cons, if_neg (Ne.symm hm.1), ih hm.2]
      rfl
  rw [split_newline_append, split_newline_append, hone]
  simp

/-! ## Offsets of bytes -/

theorem length_utf8Bytes (s : List Char) : (utf8Bytes s).length = byteLen s := by
  induction s with
  | nil => rfl
  | cons c s ih =>
    rw [utf8Bytes_cons, List.length_append, String.length_utf8EncodeChar, ih, byteLen_cons]

theorem drop_utf8Bytes (p q : List Char) :
    (utf8Bytes (p ++ q)).drop (byteLen p) = utf8Bytes q := by
  rw [utf8Bytes_append, ← length_utf8Bytes, List.drop_left]

/-- Every byte is one of a character. -/
theorem exists_char_at {s : List Char} {i : Nat} (h : i < byteLen s) :
    ∃ p c q j, s = p ++ c :: q ∧ j < c.utf8Size ∧ i = byteLen p + j := by
  induction s generalizing i with
  | nil => cases h
  | cons c s ih =>
    rw [byteLen_cons] at h
    obtain hi | hi := Nat.lt_or_ge i c.utf8Size
    · exact ⟨[], c, s, i, rfl, hi, (Nat.zero_add i).symm⟩
    · obtain ⟨p, d, q, j, rfl, hj, hpos⟩ := @ih (i - c.utf8Size) (by omega)
      exact ⟨c :: p, d, q, j, rfl, hj, by rw [byteLen_cons]; omega⟩

/-- A byte inside a character is at least 128. -/
theorem utf8Bytes_inside {c : Char} {j : Nat} (p q : List Char) (hj : 0 < j)
    (hlt : j < c.utf8Size) :
    ∃ b, (utf8Bytes (p ++ c :: q))[byteLen p + j]? = some b ∧ 128 ≤ b.toNat := by
  have hlen := String.length_utf8EncodeChar c
  have hhigh : 128 ≤ c.toNat := by
    by_contra hlow
    rw [utf8EncodeChar_ascii (Nat.not_le.mp hlow), List.length_singleton] at hlen
    omega
  refine ⟨(String.utf8EncodeChar c)[j], ?_, utf8EncodeChar_high hhigh (List.getElem_mem _)⟩
  rw [← List.getElem?_drop, drop_utf8Bytes, utf8Bytes_cons,
    List.getElem?_append_left (by omega), List.getElem?_eq_getElem]

/-! ## Trimming -/

theorem trimChars_eq (s : List Char) : trimChars s = trimEnd (s.dropWhile isWhiteSpace) := rfl

theorem trimEnd_cut (s : List Char) :
    ∃ b, s = trimEnd s ++ b ∧ ∀ c ∈ b, isWhiteSpace c = true := by
  refine ⟨(s.reverse.takeWhile isWhiteSpace).reverse, ?_, fun c hc => ?_⟩
  · rw [trimEnd, ← List.reverse_append, List.takeWhile_append_dropWhile, List.reverse_reverse]
  · exact List.mem_takeWhile_imp (List.mem_reverse.mp hc)

/-- What is trimmed is white space. -/
theorem trimChars_cut (s : List Char) : ∃ a b, s = a ++ (trimChars s ++ b) ∧
    (∀ c ∈ a, isWhiteSpace c = true) ∧ ∀ c ∈ b, isWhiteSpace c = true := by
  obtain ⟨b, hcut, hb⟩ := trimEnd_cut (s.dropWhile isWhiteSpace)
  refine ⟨s.takeWhile isWhiteSpace, b, ?_, fun c hc => List.mem_takeWhile_imp hc, hb⟩
  rw [trimChars_eq, ← hcut, List.takeWhile_append_dropWhile]

theorem trimChars_append_blank (s : List Char) {b : List Char}
    (hb : ∀ c ∈ b, isWhiteSpace c = true) : trimChars (s ++ b) = trimChars s := by
  have hrev : ∀ c ∈ b.reverse, isWhiteSpace c = true := fun c hc => hb c (List.mem_reverse.mp hc)
  rw [trimChars, trimChars, List.dropWhile_append]
  cases hs : s.dropWhile isWhiteSpace with
  | nil => simp [List.dropWhile_eq_nil_iff.mpr hb]
  | cons c t =>
    rw [List.isEmpty_cons, if_neg Bool.false_ne_true, List.reverse_append,
      List.dropWhile_append_of_pos hrev]

theorem trimChars_trimChars (s : List Char) : trimChars (trimChars s) = trimChars s := by
  have hfront : (trimChars s).dropWhile isWhiteSpace = trimChars s := by
    have hd := List.dropWhile_idempotent isWhiteSpace s
    obtain ⟨b, hcut, -⟩ := trimEnd_cut (s.dropWhile isWhiteSpace)
    rw [← trimChars_eq] at hcut
    rw [hcut, List.dropWhile_append] at hd
    cases ht : (trimChars s).dropWhile isWhiteSpace with
    | nil =>
      rw [ht, List.isEmpty_nil, if_pos rfl] at hd
      have hle := (List.dropWhile_sublist isWhiteSpace (l := b)).length_le
      rw [hd, List.length_append] at hle
      exact (List.eq_nil_of_length_eq_zero (by omega)).symm
    | cons c t =>
      rw [ht, List.isEmpty_cons, if_neg Bool.false_ne_true] at hd
      exact List.append_cancel_right hd
  rw [trimChars_eq (trimChars s), hfront, trimChars_eq, trimEnd, trimEnd, List.reverse_reverse,
    List.dropWhile_idempotent]

end Text
