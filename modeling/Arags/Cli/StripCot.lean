import Arags.Cli.ThinkTags
import Mathlib.Data.List.Infix

/-!
# Arags.Cli.StripCot

What `strip_cot` is for: the characters outside all think blocks are kept, where blocks may nest,
and no opening tag is left.

* `outside` — the texts outside all blocks, at a depth.
* `Strips`  — what is asked of the output.
* `leaks`, `splices` — a block has an opening tag inside and text after it; a block stands between
  the name of a tag and its `>`.
* `outside_findClose`, `outside_texts` — the blocks of the code beside those that nest.
* `hasTag_join` — where joined texts have an opening tag.
* `strip_cot_exact` — the output is as it should be when nothing leaks and no tag is spliced.
-/

namespace Arags.Cli

open Text

/-! ## What it is for -/

/-- The texts outside all blocks, of what follows at a depth of blocks. -/
def outside (depth : Nat) (s : List Char) : List (List Char) :=
  match _hopen : openTag s with
  | some rest =>
    if depth = 0 then [] :: outside 1 rest else outside (depth + 1) rest
  | none =>
    match depth with
    | 0 =>
      match s with
      | [] => [[]]
      | c :: s => prepend [c] (outside 0 s)
    | depth + 1 =>
      match _hclose : closeTag s with
      | some rest => outside depth rest
      | none =>
        match s with
        | [] => []
        | _ :: s => outside (depth + 1) s
termination_by s.length
decreasing_by
  · have := openTag_length _hopen
    omega
  · have := openTag_length _hopen
    omega
  · exact Nat.lt_succ_self _
  · have := closeTag_length _hclose
    omega
  · exact Nat.lt_succ_self _

/-- The texts one after another, with at most one space at each gap. -/
inductive Joined : List (List Char) → List Char → Prop
  | one (t : List Char) : Joined [t] t
  | cons {t gap out : List Char} {ts : List (List Char)} (hgap : gap = [] ∨ gap = [' '])
      (h : Joined ts out) : Joined (t :: ts) (t ++ gap ++ out)

structure Strips (input out : List Char) : Prop where
  no_tag : ∀ i, isOpenTag (utf8Bytes out) i = none
  again : stripCot out = some out
  kept : ∃ text, Joined (outside 0 input) text ∧ out = trimChars text

def hasOpenTag (s : List Char) : Bool := s.tails.any fun q => (openTag q).isSome

/-- From the first block on that has an opening tag inside, something other than white space and
blocks follows. -/
def leaks (s : List Char) : Bool :=
  match _hopen : openTag s with
  | some rest =>
    match _hclose : findClose rest with
    | some x =>
      if hasOpenTag x.1 then (texts x.2).any fun t => t.any fun c => !isWhiteSpace c
      else leaks x.2
    | none => false
  | none =>
    match s with
    | [] => false
    | _ :: s => leaks s
termination_by s.length
decreasing_by
  · have := openTag_length _hopen
    have := findClose_length _hclose
    omega
  · exact Nat.lt_succ_self _

/-- The text ends in `<think` and white space. -/
def endsOpen (t : List Char) : Bool :=
  t.tails.any fun
    | '<' :: s => (letters Char.toNat think s).any fun w => w.all fun c => isTagSpace c.toNat
    | _ => false

/-- The texts begin with white space and `>`. -/
def closes : List (List Char) → Bool
  | [] => false
  | t :: ts =>
    match t.dropWhile fun c => isTagSpace c.toNat with
    | [] => closes ts
    | c :: _ => c == '>'

/-- A block stands between the name of a tag and its `>`. -/
def splices : List (List Char) → Bool
  | [] => false
  | t :: ts => endsOpen t && closes ts || splices ts

/-! ## The shape of a tag -/

section Shape

variable {s rest : List Char}

theorem letters_append {seq : List Nat} (h : letters Char.toNat seq s = some rest)
    (e : List Char) : letters Char.toNat seq (s ++ e) = some (rest ++ e) := by
  induction seq generalizing s with
  | nil =>
    cases h
    rfl
  | cons n seq ih =>
    cases s with
    | nil => cases h
    | cons c s =>
      rw [List.cons_append, letters]
      rw [letters] at h
      split at h
      · cases h
      next hc => rw [if_neg hc]; exact ih h

theorem tagRest_append (h : tagRest Char.toNat s = some rest) (e : List Char) :
    tagRest Char.toNat (s ++ e) = some (rest ++ e) := by
  obtain ⟨t, x, hletters, hdrop, hx⟩ := tagRest_eq_some.mp h
  refine tagRest_eq_some.mpr ⟨t ++ e, x, letters_append hletters e, ?_, hx⟩
  rw [List.dropWhile_append, hdrop]
  rfl

theorem openTag_append (h : openTag s = some rest) (e : List Char) :
    openTag (s ++ e) = some (rest ++ e) := by
  unfold openTag at h
  split at h
  next t => exact tagRest_append h e
  next => cases h

theorem openTag_none_of_append {e : List Char} (h : openTag (s ++ e) = none) :
    openTag s = none := by
  cases hs : openTag s with
  | none => rfl
  | some rest => cases h.symm.trans (openTag_append hs e)

theorem letters_shape {seq : List Nat} (hseq : ∀ n ∈ seq, 96 < n)
    (h : letters Char.toNat seq s = some rest) :
    ∃ l, s = l ++ rest ∧ '<' ∉ l ∧ letters Char.toNat seq l = some [] := by
  induction seq generalizing s with
  | nil =>
    cases h
    exact ⟨[], rfl, List.not_mem_nil, rfl⟩
  | cons n seq ih =>
    cases s with
    | nil => cases h
    | cons c s =>
      rw [letters] at h
      split at h
      · cases h
      next hc =>
        obtain ⟨l, rfl, hl, hletters⟩ := ih (fun m hm => hseq m (List.mem_cons_of_mem n hm)) h
        refine ⟨c :: l, rfl, ?_, by rw [letters, if_neg hc, hletters]⟩
        have hn := hseq n List.mem_cons_self
        simp only [Bool.and_eq_true, bne_iff_ne, not_and_or, not_not] at hc
        rw [List.mem_cons, not_or]
        refine ⟨?_, hl⟩
        rintro rfl
        simp only [show ('<' : Char).toNat = 60 from rfl] at hc
        omega

/-- The name, white space and `>`. -/
theorem tagRest_shape (h : tagRest Char.toNat s = some rest) :
    ∃ body, s = body ++ rest ∧ '<' ∉ body ∧ tagRest Char.toNat body = some [] := by
  obtain ⟨t, x, hletters, hdrop, hx⟩ := tagRest_eq_some.mp h
  obtain ⟨l, rfl, hl, hname⟩ := letters_shape (by decide) hletters
  have hcut := @List.takeWhile_append_dropWhile _ (fun c : Char => isTagSpace c.toNat) t
  have hspace : ∀ c ∈ t.takeWhile fun c => isTagSpace c.toNat, isTagSpace c.toNat := fun c hc =>
    List.mem_takeWhile_imp (p := fun c : Char => isTagSpace c.toNat) hc
  rw [hdrop] at hcut
  refine ⟨l ++ (t.takeWhile fun c => isTagSpace c.toNat) ++ [x], ?_, ?_, ?_⟩
  · calc
      l ++ t
      _ = l ++ (t.takeWhile (fun c => isTagSpace c.toNat) ++ x :: rest) := by rw [hcut]
      _ = _ := by simp
  · simp only [List.mem_append, List.mem_singleton, not_or]
    refine ⟨⟨hl, fun hlt => absurd (hspace _ hlt) (by decide)⟩, ?_⟩
    rintro rfl
    exact absurd hx (by decide)
  · refine tagRest_eq_some.mpr ⟨t.takeWhile (fun c => isTagSpace c.toNat) ++ [x], x, ?_, ?_, hx⟩
    · rw [List.append_assoc]
      exact letters_append hname _
    · rw [List.dropWhile_append_of_pos hspace, List.dropWhile_cons, if_neg]
      rw [hx]
      decide

theorem openTag_shape (h : openTag s = some rest) :
    ∃ body, s = '<' :: (body ++ rest) ∧ '<' ∉ body ∧ openTag ('<' :: body) = some [] := by
  unfold openTag at h
  split at h
  next t =>
    obtain ⟨body, rfl, hbody, htag⟩ := tagRest_shape h
    exact ⟨body, rfl, hbody, htag⟩
  next => cases h

theorem closeTag_shape (h : closeTag s = some rest) :
    ∃ body, s = '<' :: (body ++ rest) ∧ '<' ∉ body ∧ openTag ('<' :: (body ++ rest)) = none := by
  unfold closeTag at h
  split at h
  next t =>
    obtain ⟨body, rfl, hbody, -⟩ := tagRest_shape h
    exact ⟨'/' :: body, rfl, by simpa using hbody, rfl⟩
  next => cases h

theorem openTag_eq_none (h : s.head? ≠ some '<') : openTag s = none := by
  unfold openTag
  split
  · exact absurd rfl h
  · rfl

theorem closeTag_eq_none (h : s.head? ≠ some '<') : closeTag s = none := by
  unfold closeTag
  split
  · exact absurd rfl h
  · rfl

/-- Text without `<` goes in front of the first text. -/
theorem texts_plain {body : List Char} (hbody : '<' ∉ body) (s : List Char) :
    texts (body ++ s) = prepend body (texts s) := by
  induction body with
  | nil => exact (prepend_nil (texts_ne_nil s)).symm
  | cons c body ih =>
    rw [List.mem_cons, not_or] at hbody
    rw [List.cons_append, texts_cons (openTag_eq_none (by simpa using Ne.symm hbody.1)),
      ih hbody.2, prepend_prepend]
    rfl

theorem closeTag_of_openTag (h : openTag s = some rest) : closeTag s = none := by
  cases hclose : closeTag s with
  | none => rfl
  | some rest' =>
    obtain ⟨body, rfl, -, hnone⟩ := closeTag_shape hclose
    cases hnone.symm.trans h

theorem findClose_plain {body : List Char} (hbody : '<' ∉ body) (s : List Char) :
    findClose (body ++ s) = (findClose s).map fun x => (body ++ x.1, x.2) := by
  induction body with
  | nil => simp
  | cons c body ih =>
    rw [List.mem_cons, not_or] at hbody
    rw [List.cons_append, findClose,
      closeTag_eq_none (by simpa using Ne.symm hbody.1), ih hbody.2, Option.map_map]
    rfl

theorem findClose_cons {c : Char} (h : closeTag (c :: s) = none) :
    findClose (c :: s) = (findClose s).map fun x => (c :: x.1, x.2) := by
  rw [findClose, h]

theorem findClose_close (h : closeTag s = some rest) : findClose s = some ([], rest) := by
  cases s with
  | nil => cases h
  | cons c s => rw [findClose, h]

/-- What stands before the closing tag is the front of the text. -/
theorem findClose_prefix {x : List Char × List Char} (h : findClose s = some x) :
    ∃ e, s = x.1 ++ e := by
  induction s generalizing x with
  | nil => cases h
  | cons c s ih =>
    rw [findClose] at h
    split at h
    · cases h
      exact ⟨_, rfl⟩
    · obtain ⟨y, hy, rfl⟩ := Option.map_eq_some_iff.mp h
      obtain ⟨e, he⟩ := ih hy
      exact ⟨e, congrArg (c :: ·) he⟩

theorem hasOpenTag_cons (c : Char) (s : List Char) :
    hasOpenTag (c :: s) = ((openTag (c :: s)).isSome || hasOpenTag s) := by
  rfl

end Shape

/-! ## Blocks that nest -/

section Nested

variable {s rest : List Char}

theorem outside_open (d : Nat) (h : openTag s = some rest) : outside d s =
    if d = 0 then [] :: outside 1 rest else outside (d + 1) rest := by
  rw [outside]
  split
  next h' => cases h.symm.trans h'; rfl
  next h' => cases h.symm.trans h'

theorem outside_nil : outside 0 [] = [[]] := by
  rw [outside]
  rfl

theorem outside_nil_succ (d : Nat) : outside (d + 1) [] = [] := by
  rw [outside]
  rfl

theorem outside_cons {c : Char} (h : openTag (c :: s) = none) :
    outside 0 (c :: s) = prepend [c] (outside 0 s) := by
  rw [outside]
  split
  next h' => cases h.symm.trans h'
  next => rfl

theorem outside_close (d : Nat) (h : closeTag s = some rest) (hopen : openTag s = none) :
    outside (d + 1) s = outside d rest := by
  rw [outside]
  split
  next h' => cases hopen.symm.trans h'
  next =>
    dsimp only
    split
    next h' => cases h.symm.trans h'; rfl
    next h' => cases h.symm.trans h'

theorem outside_cons_succ (d : Nat) {c : Char} (h : closeTag (c :: s) = none)
    (hopen : openTag (c :: s) = none) : outside (d + 1) (c :: s) = outside (d + 1) s := by
  rw [outside]
  split
  next h' => cases hopen.symm.trans h'
  next =>
    dsimp only
    split
    next h' => cases h.symm.trans h'
    next => rfl

theorem outside_zero_ne_nil (s : List Char) : outside 0 s ≠ [] := by
  cases hopen : openTag s with
  | some rest => simp [outside_open 0 hopen]
  | none =>
    cases s with
    | nil => simp [outside_nil]
    | cons c s => exact outside_cons hopen ▸ prepend_ne_nil _ _

/-- A closing tag is looked for past an opening one. -/
theorem findClose_open (h : openTag s = some rest) : ∃ body, '<' ∉ body ∧
    s = '<' :: (body ++ rest) ∧ openTag ('<' :: body) = some [] ∧
    findClose s = (findClose rest).map fun x => ('<' :: (body ++ x.1), x.2) := by
  obtain ⟨body, rfl, hbody, htag⟩ := openTag_shape h
  refine ⟨body, hbody, rfl, htag, ?_⟩
  rw [findClose_cons (closeTag_of_openTag h), findClose_plain hbody, Option.map_map]
  rfl

/-- Without a closing tag all that follows is inside. -/
theorem outside_unclosed (d : Nat) (h : findClose s = none) : outside (d + 1) s = [] := by
  induction hn : s.length using Nat.strongRecOn generalizing s d with
  | ind n ih =>
  subst hn
  cases hopen : openTag s with
  | some rest =>
    obtain ⟨body, -, -, -, hclose⟩ := findClose_open hopen
    have hrest := openTag_length hopen
    rw [outside_open _ hopen, if_neg (Nat.succ_ne_zero d)]
    rw [hclose, Option.map_eq_none_iff] at h
    exact ih rest.length (by omega) (d + 1) h rfl
  | none =>
    cases s with
    | nil => exact outside_nil_succ d
    | cons c s =>
      cases hclose : closeTag (c :: s) with
      | some after => cases h.symm.trans (findClose_close hclose)
      | none =>
        rw [findClose_cons hclose, Option.map_eq_none_iff] at h
        rw [outside_cons_succ d hclose hopen]
        exact ih s.length (Nat.lt_succ_self _) d h rfl

/-- The next closing tag closes as many blocks less one as were opened before it. -/
theorem outside_findClose (d : Nat) {x : List Char × List Char} (h : findClose s = some x) :
    ∃ k, outside (d + 1) s = outside (d + k) x.2 ∧ (hasOpenTag x.1 = true ↔ 0 < k) := by
  induction hn : s.length using Nat.strongRecOn generalizing s d x with
  | ind n ih =>
  subst hn
  cases hopen : openTag s with
  | some rest =>
    obtain ⟨body, -, -, htag, hclose⟩ := findClose_open hopen
    have hrest := openTag_length hopen
    rw [hclose] at h
    obtain ⟨y, hy, rfl⟩ := Option.map_eq_some_iff.mp h
    obtain ⟨k, hk, -⟩ := ih rest.length (by omega) (d + 1) hy rfl
    refine ⟨k + 1, ?_, fun _ => Nat.succ_pos k, fun _ => ?_⟩
    · rw [outside_open _ hopen, if_neg (Nat.succ_ne_zero d), hk, Nat.add_assoc, Nat.add_comm 1 k]
    · have happ := openTag_append htag y.1
      rw [hasOpenTag_cons, ← List.cons_append, happ]
      rfl
  | none =>
    cases s with
    | nil => cases h
    | cons c s =>
      cases hclose : closeTag (c :: s) with
      | some after =>
        cases h.symm.trans (findClose_close hclose)
        exact ⟨0, outside_close d hclose hopen, by simp [hasOpenTag, openTag]⟩
      | none =>
        rw [findClose_cons hclose] at h
        obtain ⟨y, hy, rfl⟩ := Option.map_eq_some_iff.mp h
        obtain ⟨k, hk, hinside⟩ := ih s.length (Nat.lt_succ_self _) d hy rfl
        refine ⟨k, (outside_cons_succ d hclose hopen).trans hk, ?_⟩
        obtain ⟨e, rfl⟩ := findClose_prefix hy
        rw [hasOpenTag_cons, openTag_none_of_append (e := e) hopen]
        exact hinside

end Nested

/-! ## What is lost and what is left -/

section Leaks

/-- The characters other than white space. -/
def visible (ts : List (List Char)) : List Char := ts.flatten.filter fun c => !isWhiteSpace c

theorem visible_cons (t : List Char) (ts : List (List Char)) :
    visible (t :: ts) = (t.filter fun c => !isWhiteSpace c) ++ visible ts := by
  rw [visible, List.flatten_cons, List.filter_append]
  rfl

theorem visible_prepend (t : List Char) (ts : List (List Char)) :
    visible (prepend t ts) = (t.filter fun c => !isWhiteSpace c) ++ visible ts := by
  cases ts <;> simp [prepend, visible]

/-- Inside a block the texts of the code are blank and nothing is left outside, or the code keeps
more than it should. -/
def Inside (d : Nat) (s : List Char) : Prop :=
  visible (texts s) = [] ∧ outside (d + 1) s = [] ∨
    (visible (outside (d + 1) s)).length < (visible (texts s)).length

/-- At no depth more is left than the code keeps. -/
theorem outside_le {s : List Char} (h : (visible (outside 0 s)).length ≤ (visible (texts s)).length)
    (hd : ∀ d, Inside d s) (d : Nat) :
    (visible (outside d s)).length ≤ (visible (texts s)).length := by
  cases d with
  | zero => exact h
  | succ d =>
    obtain ⟨-, hnil⟩ | hlt := hd d
    · simp [hnil, visible]
    · exact Nat.le_of_lt hlt

theorem length_texts_cons {c : Char} {s : List Char} (hopen : openTag (c :: s) = none) :
    (visible (texts (c :: s))).length =
      ([c].filter fun c => !isWhiteSpace c).length + (visible (texts s)).length := by
  rw [texts_cons hopen, visible_prepend, List.length_append]

/-- The depths at a character of no opening tag. -/
theorem inside_cons {c : Char} {s : List Char} (hopen : openTag (c :: s) = none)
    (h0 : (visible (outside 0 s)).length ≤ (visible (texts s)).length) (hd : ∀ d, Inside d s)
    (hclosed : ∀ after, closeTag (c :: s) = some after →
      (visible (outside 0 after)).length ≤ (visible (texts after)).length ∧
        ∀ d, Inside d after) (d : Nat) : Inside d (c :: s) := by
  cases hclose : closeTag (c :: s) with
  | some after =>
    -- a closing tag that the code keeps as text
    obtain ⟨h0, hd⟩ := hclosed after hclose
    have hle := outside_le h0 hd d
    obtain ⟨body, hbody, hlt, -⟩ := closeTag_shape hclose
    cases hbody
    right
    rw [outside_close d hclose hopen, length_texts_cons hopen, texts_plain hlt, visible_prepend,
      List.length_append, show ([('<' : Char)].filter fun c => !isWhiteSpace c).length = 1 from
        rfl]
    omega
  | none =>
    rw [Inside, outside_cons_succ d hclose hopen]
    have hle := outside_le h0 hd (d + 1)
    by_cases hc : isWhiteSpace c = true
    · have hsame : visible (texts (c :: s)) = visible (texts s) := by
        rw [texts_cons hopen, visible_prepend, List.filter_cons_of_neg (by simp [hc])]
        rfl
      rw [hsame]
      exact hd d
    · right
      rw [length_texts_cons hopen, List.filter_cons_of_pos (by simp [hc]), List.length_cons]
      omega

theorem inside_texts (s : List Char) :
    (visible (outside 0 s)).length ≤ (visible (texts s)).length ∧ ∀ d, Inside d s := by
  induction hn : s.length using Nat.strongRecOn generalizing s with
  | ind n ih =>
  subst hn
  have hblank (ts : List (List Char)) : visible ([] :: ts) = visible ts := rfl
  cases hopen : openTag s with
  | some rest =>
    have hrest := openTag_length hopen
    have hsucc (d : Nat) : outside (d + 1) s = outside (d + 2) rest := by
      rw [outside_open _ hopen, if_neg (Nat.succ_ne_zero d)]
    cases hclose : findClose rest with
    | some x =>
      have hx := findClose_length hclose
      obtain ⟨h0, hd⟩ := ih x.2.length (by omega) x.2 rfl
      simp only [Inside, texts_closed hopen hclose, outside_open 0 hopen, if_pos, hblank, hsucc]
      constructor
      · obtain ⟨k, hk, -⟩ := outside_findClose 0 hclose
        rw [hk]
        exact outside_le h0 hd (0 + k)
      · intro d
        obtain ⟨k, hk, -⟩ := outside_findClose (d + 1) hclose
        rw [hk, Nat.add_right_comm]
        exact hd (d + k)
    | none =>
      simp only [Inside, texts_unclosed hopen hclose, outside_open 0 hopen, if_pos, hsucc,
        outside_unclosed _ hclose]
      exact ⟨Nat.le_refl _, fun d => .inl ⟨rfl, trivial⟩⟩
  | none =>
    cases s with
    | nil =>
      rw [texts_nil, outside_nil]
      exact ⟨Nat.le_refl _, fun d => .inl ⟨by rw [texts_nil]; rfl, outside_nil_succ d⟩⟩
    | cons c s =>
      obtain ⟨h0, hd⟩ := ih s.length (Nat.lt_succ_self _) s rfl
      refine ⟨?_, inside_cons hopen h0 hd fun after hclose => ?_⟩
      · rw [length_texts_cons hopen, outside_cons hopen, visible_prepend, List.length_append]
        omega
      · have hafter := closeTag_length hclose
        exact ih after.length (by omega) after rfl

theorem visible_eq_nil {ts : List (List Char)} :
    visible ts = [] ↔ ∀ t ∈ ts, ∀ c ∈ t, isWhiteSpace c = true := by
  simp only [visible, List.filter_eq_nil_iff, List.mem_flatten, Bool.not_eq_true',
    Bool.not_eq_false]
  exact ⟨fun h t ht c hc => h c ⟨t, ht, hc⟩, fun h c ⟨t, ht, hc⟩ => h t ht c hc⟩

/-- A leak is visible. -/
theorem outside_lt_of_leaks {s : List Char} (h : leaks s = true) :
    (visible (outside 0 s)).length < (visible (texts s)).length := by
  fun_induction leaks s with
  | case1 s rest hopen x hclose hinside =>
    obtain ⟨k, hk, hpos⟩ := outside_findClose 0 hclose
    obtain ⟨k, rfl⟩ : ∃ j, k = j + 1 := ⟨k - 1, by have := hpos.mp hinside; omega⟩
    rw [texts_closed hopen hclose, outside_open 0 hopen, if_pos rfl, hk, Nat.zero_add]
    obtain ⟨hblank, -⟩ | hlt := (inside_texts x.2).2 k
    · simp only [List.any_eq_true, Bool.not_eq_true'] at h
      obtain ⟨t, ht, c, hc, hvisible⟩ := h
      cases (visible_eq_nil.mp hblank t ht c hc).symm.trans hvisible
    · exact hlt
  | case2 s rest hopen x hclose hinside ih =>
    obtain ⟨k, hk, hpos⟩ := outside_findClose 0 hclose
    obtain rfl : k = 0 := by
      by_contra hne
      exact hinside (hpos.mpr (Nat.pos_of_ne_zero hne))
    rw [texts_closed hopen hclose, outside_open 0 hopen, if_pos rfl, hk, Nat.zero_add]
    exact ih h
  | case3 => cases h
  | case4 => cases h
  | case5 c s hopen ih =>
    rw [texts_cons hopen, outside_cons hopen, visible_prepend, visible_prepend,
      List.length_append, List.length_append]
    exact Nat.add_lt_add_left (ih h) _

/-- Where nothing leaks, the code keeps what is outside, and white space after it. -/
theorem texts_of_not_leaks {s : List Char} (h : leaks s = false) :
    ∃ extra, texts s = outside 0 s ++ extra ∧ visible extra = [] := by
  fun_induction leaks s with
  | case1 s rest hopen x hclose hinside =>
    obtain ⟨k, hk, hpos⟩ := outside_findClose 0 hclose
    obtain ⟨k, rfl⟩ : ∃ j, k = j + 1 := ⟨k - 1, by have := hpos.mp hinside; omega⟩
    have hvisible : visible (texts x.2) = [] := visible_eq_nil.mpr fun t ht c hc => by
      rw [List.any_eq_false] at h
      have hall := h t ht
      rw [Bool.not_eq_true, List.any_eq_false] at hall
      simpa using hall c hc
    have hnil : outside (k + 1) x.2 = [] := by
      obtain ⟨-, hnil⟩ | hlt := (inside_texts x.2).2 k
      · exact hnil
      · simp [hvisible] at hlt
    rw [texts_closed hopen hclose, outside_open 0 hopen, if_pos rfl, hk, Nat.zero_add, hnil]
    exact ⟨texts x.2, rfl, hvisible⟩
  | case2 s rest hopen x hclose hinside ih =>
    obtain ⟨k, hk, hpos⟩ := outside_findClose 0 hclose
    obtain rfl : k = 0 := by
      by_contra hne
      exact hinside (hpos.mpr (Nat.pos_of_ne_zero hne))
    obtain ⟨extra, htexts, hblank⟩ := ih h
    rw [texts_closed hopen hclose, outside_open 0 hopen, if_pos rfl, hk, Nat.zero_add, htexts]
    exact ⟨extra, rfl, hblank⟩
  | case3 s rest hopen hclose =>
    rw [texts_unclosed hopen hclose, outside_open 0 hopen, if_pos rfl, outside_unclosed 0 hclose]
    exact ⟨[], rfl, rfl⟩
  | case4 => exact ⟨[], by rw [texts_nil, outside_nil]; rfl, rfl⟩
  | case5 c s hopen ih =>
    obtain ⟨extra, htexts, hblank⟩ := ih h
    refine ⟨extra, ?_, hblank⟩
    rw [texts_cons hopen, outside_cons hopen, htexts]
    cases hout : outside 0 s with
    | nil => exact absurd hout (outside_zero_ne_nil s)
    | cons t ts => rfl

end Leaks

/-! ## Texts that are joined -/

section Join

theorem joinAfter_blank {ts : List (List Char)} (h : visible ts = []) (t : List Char) :
    ∀ c ∈ joinAfter t ts, isWhiteSpace c = true := by
  induction ts generalizing t with
  | nil => simp [joinAfter]
  | cons t' ts ih =>
    rw [visible_cons, List.append_eq_nil_iff] at h
    have ht' : ∀ c ∈ t', isWhiteSpace c = true := fun c hc => by
      simpa using List.filter_eq_nil_iff.mp h.1 c hc
    intro c hc
    simp only [joinAfter, List.mem_append, textGap] at hc
    obtain (hc | hc) | hc := hc
    · split at hc
      · obtain rfl := List.mem_singleton.mp hc
        rfl
      · cases hc
    · exact ht' c hc
    · exact ih h.2 t' c hc

/-- Blank texts at the end add white space. -/
theorem join_append_blank (ts : List (List Char)) {extra : List (List Char)}
    (h : visible extra = []) :
    ∃ b, join (ts ++ extra) = join ts ++ b ∧ ∀ c ∈ b, isWhiteSpace c = true := by
  have hafter (ts : List (List Char)) (t : List Char) : ∃ b,
      joinAfter t (ts ++ extra) = joinAfter t ts ++ b ∧ ∀ c ∈ b, isWhiteSpace c = true := by
    induction ts generalizing t with
    | nil => exact ⟨joinAfter t extra, rfl, joinAfter_blank h t⟩
    | cons t' ts ih =>
      obtain ⟨b, hb, hblank⟩ := ih t'
      refine ⟨b, ?_, hblank⟩
      rw [List.cons_append, joinAfter, hb, joinAfter, List.append_assoc, List.append_assoc,
        List.append_assoc]
  cases ts with
  | nil =>
    cases extra with
    | nil => exact ⟨[], rfl, by simp⟩
    | cons t ts =>
      refine ⟨join (t :: ts), rfl, fun c hc => ?_⟩
      rw [visible_cons, List.append_eq_nil_iff] at h
      rw [join, List.mem_append] at hc
      obtain hc | hc := hc
      · simpa using List.filter_eq_nil_iff.mp h.1 c hc
      · exact joinAfter_blank h.2 t c hc
  | cons t ts =>
    obtain ⟨b, hb, hblank⟩ := hafter ts t
    exact ⟨b, by rw [List.cons_append, join, hb, join, List.append_assoc], hblank⟩

theorem textGap_cases (t t' : List Char) : textGap t t' = [] ∨ textGap t t' = [' '] := by
  simp only [textGap]
  split
  · exact .inr rfl
  · exact .inl rfl

/-- The code joins the texts that are not empty. -/
theorem joined_join {ts : List (List Char)} (h : ts ≠ []) :
    Joined ts (join (ts.filter (· ≠ []))) := by
  have hafter {ts : List (List Char)} (h : ts ≠ []) (t : List Char) : ∃ gap out,
      (gap = [] ∨ gap = [' ']) ∧ Joined ts out ∧
        joinAfter t (ts.filter (· ≠ [])) = gap ++ out := by
    induction ts generalizing t with
    | nil => exact absurd rfl h
    | cons t' ts ih =>
      by_cases hts : ts = []
      · subst hts
        by_cases ht' : t' = []
        · exact ⟨[], [], .inl rfl, ht' ▸ .one [], by simp [ht', joinAfter]⟩
        · exact ⟨textGap t t', t', textGap_cases t t', .one t', by simp [ht', joinAfter]⟩
      by_cases ht' : t' = []
      · obtain ⟨gap, out, hgap, hout, hjoin⟩ := ih hts t
        refine ⟨[], [] ++ gap ++ out, .inl rfl, ht' ▸ .cons hgap hout, ?_⟩
        rw [ht', List.filter_cons_of_neg (by simp), hjoin]
        rfl
      · obtain ⟨gap, out, hgap, hout, hjoin⟩ := ih hts t'
        refine ⟨textGap t t', t' ++ gap ++ out, textGap_cases t t', .cons hgap hout, ?_⟩
        rw [List.filter_cons_of_pos (by simpa using ht'), joinAfter, hjoin]
        simp
  induction ts with
  | nil => exact absurd rfl h
  | cons t ts ih =>
    by_cases hts : ts = []
    · subst hts
      by_cases ht : t = []
      · simpa [ht, join] using Joined.one []
      · simpa [ht, join, joinAfter] using Joined.one t
    by_cases ht : t = []
    · rw [ht, List.filter_cons_of_neg (by simp)]
      simpa using Joined.cons (t := []) (.inl rfl) (ih hts)
    · obtain ⟨gap, out, hgap, hout, hjoin⟩ := hafter hts t
      rw [List.filter_cons_of_pos (by simpa using ht), join, hjoin, ← List.append_assoc]
      exact .cons hgap hout

end Join

/-! ## Tags across a gap -/

section Tags

variable {s e : List Char}

/-- A range around the letters, without white space, `<` and `>`. -/
def InRange (c : Char) : Prop := 64 < c.toNat ∧ c.toNat < 128

/-- White space and `>` at the front. -/
def Closes (e : List Char) : Prop :=
  ∃ rest, e.dropWhile (fun c => isTagSpace c.toNat) = '>' :: rest

theorem not_inRange_of_whiteSpace {c : Char} (h : isWhiteSpace c = true) : ¬ InRange c := by
  simp only [isWhiteSpace, Bool.or_eq_true, Bool.and_eq_true, decide_eq_true_eq, beq_iff_eq] at h
  rintro ⟨hlow, hhigh⟩
  omega

theorem not_inRange_of_asciiWhitespace {c : Char} (h : isAsciiWhitespace c.toNat = true) :
    ¬ InRange c := by
  simp only [isAsciiWhitespace, Bool.or_eq_true, beq_iff_eq] at h
  rintro ⟨hlow, -⟩
  omega

/-- The letters are all in front of the cut, or letters are on both sides of it. -/
theorem letters_split {seq : List Nat} (hseq : ∀ n ∈ seq, 96 < n ∧ n < 128) {rest : List Char}
    (h : letters Char.toNat seq (s ++ e) = some rest) :
    (∃ w, letters Char.toNat seq s = some w ∧ rest = w ++ e) ∨
      (∀ c ∈ s, InRange c) ∧ ∃ c ∈ e.head?, InRange c := by
  induction seq generalizing s with
  | nil =>
    cases h
    exact .inl ⟨s, rfl, rfl⟩
  | cons n seq ih =>
    have hn := hseq n List.mem_cons_self
    have hrange {c : Char} (hc : ¬ (c.toNat != n && c.toNat != n - 32) = true) : InRange c := by
      simp only [Bool.and_eq_true, bne_iff_ne, not_and_or, not_not] at hc
      exact ⟨by omega, by omega⟩
    cases s with
    | nil =>
      cases e with
      | nil => cases h
      | cons c e =>
        rw [List.nil_append, letters] at h
        split at h
        · cases h
        next hc => exact .inr ⟨by simp, c, rfl, hrange hc⟩
    | cons c s =>
      rw [List.cons_append, letters] at h
      rw [letters]
      split at h
      · cases h
      next hc =>
        rw [if_neg hc]
        obtain hin | ⟨hs, he⟩ := ih (fun m hm => hseq m (List.mem_cons_of_mem n hm)) h
        · exact .inl hin
        · refine .inr ⟨fun x hx => ?_, he⟩
          obtain rfl | hx := List.mem_cons.mp hx
          · exact hrange hc
          · exact hs x hx

theorem eq_gt {c : Char} (h : c.toNat = 0x3E) : c = '>' := by
  rw [← Char.ofNat_toNat c, h]

/-- Where a tag is that goes over a cut. -/
theorem tagRest_split (h : tagRest Char.toNat (s ++ e) ≠ none) : tagRest Char.toNat s ≠ none ∨
    (∃ w, letters Char.toNat think s = some w ∧ (∀ c ∈ w, isTagSpace c.toNat = true) ∧ Closes e) ∨
    (∀ c ∈ s, InRange c) ∧ ∃ c ∈ e.head?, InRange c := by
  obtain ⟨rest, hrest⟩ := Option.ne_none_iff_exists'.mp h
  obtain ⟨t, x, hletters, hdrop, hx⟩ := tagRest_eq_some.mp hrest
  obtain ⟨w, hw, rfl⟩ | hboth := letters_split (by decide) hletters
  · rw [List.dropWhile_append] at hdrop
    cases hwd : w.dropWhile fun c => isTagSpace c.toNat with
    | nil =>
      rw [hwd, List.isEmpty_nil, if_pos rfl] at hdrop
      exact .inr (.inl ⟨w, hw, List.dropWhile_eq_nil_iff.mp hwd, rest, eq_gt hx ▸ hdrop⟩)
    | cons y w' =>
      rw [hwd, List.isEmpty_cons, if_neg Bool.false_ne_true] at hdrop
      cases hdrop
      refine .inl ?_
      rw [tagRest_eq_some.mpr ⟨w, x, hw, hwd, hx⟩]
      exact Option.some_ne_none _
  · exact .inr (.inr hboth)

theorem tagRest_of_closes {w : List Char} (hw : letters Char.toNat think s = some w)
    (hspace : ∀ c ∈ w, isTagSpace c.toNat = true) (h : Closes e) :
    tagRest Char.toNat (s ++ e) ≠ none := by
  obtain ⟨rest, hdrop⟩ := h
  rw [tagRest_eq_some.mpr ⟨w ++ e, '>', letters_append hw e, ?_, rfl⟩]
  · exact Option.some_ne_none rest
  · rw [List.dropWhile_append_of_pos hspace, hdrop]

theorem openTag_ne_none : openTag s ≠ none ↔ ∃ t, s = '<' :: t ∧ tagRest Char.toNat t ≠ none := by
  unfold openTag
  split
  next t => simp
  next hne => simpa using fun t ht => (hne t ht).elim

/-- A tag in a text that has a cut is after the cut or begins before it. -/
theorem hasOpenTag_append : hasOpenTag (s ++ e) = true ↔ hasOpenTag e = true ∨
    ∃ p t, s = p ++ '<' :: t ∧ tagRest Char.toNat (t ++ e) ≠ none := by
  induction s with
  | nil => simp
  | cons c s ih =>
    rw [List.cons_append, hasOpenTag_cons, Bool.or_eq_true, Option.isSome_iff_ne_none,
      openTag_ne_none, ih]
    constructor
    · rintro (⟨t, ht, htag⟩ | he | ⟨p, t, rfl, htag⟩)
      · cases ht
        exact .inr ⟨[], s, rfl, htag⟩
      · exact .inl he
      · exact .inr ⟨c :: p, t, rfl, htag⟩
    · rintro (he | ⟨p, t, hcut, htag⟩)
      · exact .inr (.inl he)
      · cases p with
        | nil =>
          cases hcut
          exact .inl ⟨_, rfl, htag⟩
        | cons d p =>
          cases hcut
          exact .inr (.inr ⟨p, t, rfl, htag⟩)

theorem hasOpenTag_iff : hasOpenTag s = true ↔
    ∃ p t, s = p ++ '<' :: t ∧ tagRest Char.toNat t ≠ none := by
  have h := @hasOpenTag_append s []
  simpa [show hasOpenTag [] = false from rfl] using h

/-- White space around a text makes no tag. -/
theorem hasOpenTag_blank {a b : List Char} (ha : ∀ c ∈ a, isWhiteSpace c = true)
    (hb : ∀ c ∈ b, isWhiteSpace c = true) : hasOpenTag (a ++ (s ++ b)) = hasOpenTag s := by
  have hblank {b : List Char} (hb : ∀ c ∈ b, isWhiteSpace c = true) : ¬ hasOpenTag b = true := by
    rw [hasOpenTag_iff]
    rintro ⟨p, t, rfl, -⟩
    exact absurd (hb '<' (by simp)) (by decide)
  have hfront : hasOpenTag (a ++ (s ++ b)) = true ↔ hasOpenTag (s ++ b) = true := by
    rw [hasOpenTag_append]
    refine ⟨?_, .inl⟩
    rintro (h | ⟨p, t, rfl, -⟩)
    · exact h
    · exact absurd (ha '<' (by simp)) (by decide)
  rw [Bool.eq_iff_iff, hfront, hasOpenTag_append]
  constructor
  · rintro (h | ⟨p, t, rfl, htag⟩)
    · exact absurd h (hblank hb)
    obtain h | ⟨w, -, -, rest, hdrop⟩ | ⟨-, c, hc, hrange⟩ := tagRest_split htag
    · exact hasOpenTag_iff.mpr ⟨p, t, rfl, h⟩
    · have hmem : '>' ∈ b :=
        (List.dropWhile_sublist _).subset (hdrop ▸ List.mem_cons_self)
      exact absurd (hb '>' hmem) (by decide)
    · exact absurd hrange (not_inRange_of_whiteSpace (hb c (List.mem_of_mem_head? hc)))
  · intro h
    obtain ⟨p, t, rfl, htag⟩ := hasOpenTag_iff.mp h
    obtain ⟨rest, hrest⟩ := Option.ne_none_iff_exists'.mp htag
    refine .inr ⟨p, t, rfl, ?_⟩
    rw [tagRest_append hrest]
    exact Option.some_ne_none _

theorem hasOpenTag_trimChars (s : List Char) : hasOpenTag (trimChars s) = hasOpenTag s := by
  obtain ⟨a, b, hcut, ha, hb⟩ := trimChars_cut s
  rw [hcut, hasOpenTag_blank ha hb, ← hcut]

theorem endsOpen_iff : endsOpen s = true ↔ ∃ p t w, s = p ++ '<' :: t ∧
    letters Char.toNat think t = some w ∧ ∀ c ∈ w, isTagSpace c.toNat = true := by
  rw [endsOpen, List.any_eq_true]
  constructor
  · rintro ⟨q, hq, h⟩
    obtain ⟨p, rfl⟩ := (List.mem_tails q s).mp hq
    split at h
    next t =>
      obtain ⟨w, hw, hspace⟩ := Option.any_eq_true _ _ |>.mp h
      exact ⟨p, t, w, rfl, hw, List.all_eq_true.mp hspace⟩
    next => cases h
  · rintro ⟨p, t, w, rfl, hw, hspace⟩
    refine ⟨'<' :: t, (List.mem_tails _ _).mpr ⟨p, rfl⟩, ?_⟩
    simpa [hw] using hspace

theorem closes_iff {ts : List (List Char)} (t : List Char) :
    closes ts = true ↔ Closes (joinAfter t ts) := by
  induction ts generalizing t with
  | nil => simp [closes, joinAfter, Closes]
  | cons t' ts ih =>
    have hgap : ∀ c ∈ textGap t t', isTagSpace c.toNat = true := by
      obtain h | h := textGap_cases t t' <;> simp [h, isTagSpace]
    rw [closes, Closes, joinAfter, List.append_assoc, List.dropWhile_append_of_pos hgap,
      List.dropWhile_append]
    cases t'.dropWhile fun c => isTagSpace c.toNat with
    | nil => simpa [Closes] using ih t'
    | cons c t'' => simp

theorem hasOpenTag_joinAfter (t : List Char) (ts : List (List Char)) :
    hasOpenTag (joinAfter t ts) = hasOpenTag (join ts) := by
  cases ts with
  | nil => rfl
  | cons t' ts =>
    have hgap : ∀ c ∈ textGap t t', isWhiteSpace c = true := by
      obtain h | h := textGap_cases t t'
      · simp [h]
      · simpa [h] using show isWhiteSpace ' ' = true from rfl
    have h := hasOpenTag_blank (s := t' ++ joinAfter t' ts) (b := []) hgap (by simp)
    rw [List.append_nil, ← List.append_assoc] at h
    exact h

/-- No letters stand on both sides of a gap. -/
theorem not_inRange_gap {t u p : List Char} {ts : List (List Char)} (ht : t = p ++ '<' :: u)
    (hu : ∀ c ∈ u, InRange c) (hts : ∀ t ∈ ts, t ≠ []) :
    ¬ ∃ c ∈ (joinAfter t ts).head?, InRange c := by
  rintro ⟨c, hc, hrange⟩
  cases ts with
  | nil => cases hc
  | cons t' ts =>
    obtain ⟨d, t'', rfl⟩ := List.exists_cons_of_ne_nil (hts t' List.mem_cons_self)
    have hlast : ¬ (t.getLast?.any fun c => isAsciiWhitespace c.toNat) = true := by
      rw [ht, List.getLast?_append_of_ne_nil _ (List.cons_ne_nil _ _), List.getLast?_cons,
        Option.any_some]
      cases hl : u.getLast? with
      | none => decide
      | some x => exact fun h => not_inRange_of_asciiWhitespace h (hu x (List.mem_of_getLast? hl))
    rw [joinAfter] at hc
    by_cases hd : isAsciiWhitespace d.toNat = true
    · rw [show textGap t (d :: t'') = [] by simp [textGap, hd]] at hc
      cases hc
      exact not_inRange_of_asciiWhitespace hd hrange
    · rw [show textGap t (d :: t'') = [' '] by simp [textGap, hd, hlast]] at hc
      cases hc
      exact absurd hrange.1 (by decide)

/-- The joined texts have an opening tag where one is spliced. -/
theorem hasOpenTag_join {ts : List (List Char)}
    (h : ∀ t ∈ ts, t ≠ [] ∧ hasOpenTag t = false) : hasOpenTag (join ts) = splices ts := by
  induction ts with
  | nil => rfl
  | cons t ts ih =>
    have hts : ∀ t ∈ ts, t ≠ [] := fun t ht => (h t (List.mem_cons_of_mem _ ht)).1
    rw [Bool.eq_iff_iff, join, hasOpenTag_append, hasOpenTag_joinAfter,
      ih fun t ht => h t (List.mem_cons_of_mem _ ht), splices, Bool.or_eq_true, Bool.and_eq_true,
      closes_iff t, endsOpen_iff, or_comm]
    refine or_congr_left ?_
    constructor
    · rintro ⟨p, u, hcut, htag⟩
      obtain htag | ⟨w, hw, hspace, hcloses⟩ | ⟨hu, hhead⟩ := tagRest_split htag
      · have hclean := (h t List.mem_cons_self).2
        rw [hasOpenTag_iff.mpr ⟨p, u, hcut, htag⟩] at hclean
        cases hclean
      · exact ⟨⟨p, u, w, hcut, hw, hspace⟩, hcloses⟩
      · exact absurd hhead (not_inRange_gap hcut hu hts)
    · rintro ⟨⟨p, u, w, hcut, hw, hspace⟩, hcloses⟩
      exact ⟨p, u, hcut, tagRest_of_closes hw hspace hcloses⟩

end Tags

/-! ## The output -/

section Output

variable {s : List Char}

theorem isOpenTag_none_iff : (∀ i, isOpenTag (utf8Bytes s) i = none) ↔ hasOpenTag s = false := by
  constructor
  · intro h
    refine Bool.eq_false_iff.mpr fun hs => ?_
    obtain ⟨p, t, rfl, htag⟩ := hasOpenTag_iff.mp hs
    have hat := h (byteLen p)
    rw [isOpenTag_at, Option.map_eq_none_iff] at hat
    exact htag hat
  · intro h i
    obtain hi | hi := Nat.lt_or_ge i (byteLen s)
    · obtain ⟨p, c, q, j, rfl, hj, rfl⟩ := exists_char_at hi
      obtain rfl | hj0 := Nat.eq_zero_or_pos j
      · rw [Nat.add_zero, isOpenTag_at, Option.map_eq_none_iff]
        by_contra htag
        obtain ⟨t, ht, htag⟩ := openTag_ne_none.mp htag
        rw [hasOpenTag_iff.mpr ⟨p, t, by rw [ht], htag⟩] at h
        cases h
      · obtain ⟨b, hget, hb⟩ := utf8Bytes_inside p q hj0 hj
        exact (tag_of_high hget hb).1
    · rw [isOpenTag, if_pos]
      rw [length_utf8Bytes]
      simp only [Bool.or_eq_true, decide_eq_true_eq]
      exact .inl (by omega)

theorem texts_head_prefix {t : List Char} {ts : List (List Char)} (h : texts s = t :: ts) :
    ∃ e, s = t ++ e := by
  induction s generalizing t ts with
  | nil =>
    cases texts_nil.symm.trans h
    exact ⟨[], rfl⟩
  | cons c s ih =>
    cases hopen : openTag (c :: s) with
    | some rest =>
      cases hclose : findClose rest with
      | some x =>
        cases (texts_closed hopen hclose).symm.trans h
        exact ⟨_, rfl⟩
      | none =>
        cases (texts_unclosed hopen hclose).symm.trans h
        exact ⟨_, rfl⟩
    | none =>
      rw [texts_cons hopen] at h
      obtain ⟨t', ts', ht⟩ := List.exists_cons_of_ne_nil (texts_ne_nil s)
      rw [ht] at h
      cases h
      obtain ⟨e, rfl⟩ := ih ht
      exact ⟨e, rfl⟩

/-- No text between the blocks has an opening tag. -/
theorem hasOpenTag_texts (s : List Char) : ∀ t ∈ texts s, hasOpenTag t = false := by
  fun_induction texts s with
  | case1 s rest hopen x hclose ih => exact List.forall_mem_cons.mpr ⟨rfl, ih⟩
  | case2 => simp [hasOpenTag, openTag]
  | case3 => simp [hasOpenTag, openTag]
  | case4 c s hopen ih =>
    obtain ⟨t, ts, ht⟩ := List.exists_cons_of_ne_nil (texts_ne_nil s)
    obtain ⟨e, rfl⟩ := texts_head_prefix ht
    rw [ht] at ih ⊢
    obtain ⟨hfirst, hrest⟩ := List.forall_mem_cons.mp ih
    refine List.forall_mem_cons.mpr ⟨?_, hrest⟩
    rw [List.singleton_append, hasOpenTag_cons, openTag_none_of_append (e := e) hopen]
    exact hfirst

theorem texts_of_no_tag (h : hasOpenTag s = false) : texts s = [s] := by
  induction s with
  | nil => exact texts_nil
  | cons c s ih =>
    rw [hasOpenTag_cons, Bool.or_eq_false_iff, Option.isSome_eq_false_iff,
      Option.isNone_iff_eq_none] at h
    rw [texts_cons h.1, ih h.2]
    rfl

theorem closes_filter (ts : List (List Char)) : closes (ts.filter (· ≠ [])) = closes ts := by
  induction ts with
  | nil => rfl
  | cons t ts ih =>
    cases t with
    | nil => simpa [closes] using ih
    | cons c t => simp only [List.filter_cons_of_pos, ne_eq, reduceCtorEq, not_false_eq_true,
        decide_true, closes, ih]

theorem splices_filter (ts : List (List Char)) : splices (ts.filter (· ≠ [])) = splices ts := by
  induction ts with
  | nil => rfl
  | cons t ts ih =>
    cases t with
    | nil => simpa [splices, endsOpen] using ih
    | cons c t => simp only [List.filter_cons_of_pos, ne_eq, reduceCtorEq, not_false_eq_true,
        decide_true, splices, ih, closes_filter]

theorem hasOpenTag_output (input : List Char) :
    hasOpenTag (trimChars (join ((texts input).filter (· ≠ [])))) = splices (texts input) := by
  rw [hasOpenTag_trimChars, hasOpenTag_join, splices_filter]
  intro t ht
  obtain ⟨hmem, hne⟩ := List.mem_filter.mp ht
  exact ⟨by simpa using hne, hasOpenTag_texts input t hmem⟩

theorem joined_visible {ts : List (List Char)} {text : List Char} (h : Joined ts text) :
    (text.filter fun c => !isWhiteSpace c) = visible ts := by
  induction h with
  | one t => simp [visible]
  | @cons t gap out ts hgap _ ih =>
    have hblank : (gap.filter fun c => !isWhiteSpace c) = [] := by
      obtain rfl | rfl := hgap <;> rfl
    rw [List.filter_append, List.filter_append, hblank, ih, visible_cons, List.append_nil]

theorem trimChars_visible (s : List Char) :
    ((trimChars s).filter fun c => !isWhiteSpace c) = s.filter fun c => !isWhiteSpace c := by
  obtain ⟨a, b, hcut, ha, hb⟩ := trimChars_cut s
  have hblank {b : List Char} (hb : ∀ c ∈ b, isWhiteSpace c = true) :
      (b.filter fun c => !isWhiteSpace c) = [] :=
    List.filter_eq_nil_iff.mpr fun c hc => by simp [hb c hc]
  conv_rhs => rw [hcut]
  rw [List.filter_append, List.filter_append, hblank ha, hblank hb, List.append_nil,
    List.nil_append]

theorem visible_filter (ts : List (List Char)) : visible (ts.filter (· ≠ [])) = visible ts := by
  induction ts with
  | nil => rfl
  | cons t ts ih => cases t <;> simp_all [visible_cons, show ∀ ts, visible ([] :: ts) = visible ts
      from fun _ => rfl]

/-- The reasoning is stripped completely when no text leaks out of a block with a block inside and
no block stands inside a tag. -/
theorem strip_cot_exact (input : List Char) :
    (∃ out, stripCot input = some out ∧ Strips input out) ↔
      leaks input = false ∧ splices (texts input) = false := by
  rw [stripCot_eq]
  simp only [Option.some.injEq, exists_eq_left']
  have htag := hasOpenTag_output input
  constructor
  · intro h
    refine ⟨Bool.eq_false_iff.mpr fun hleaks => ?_, ?_⟩
    · obtain ⟨text, hjoined, htext⟩ := h.kept
      have hlt := outside_lt_of_leaks hleaks
      have hsame : visible (texts input) = visible (outside 0 input) := by
        rw [← joined_visible (joined_join (texts_ne_nil input)), ← trimChars_visible, htext,
          trimChars_visible, joined_visible hjoined]
      rw [hsame] at hlt
      exact Nat.lt_irrefl _ hlt
    · rw [← htag]
      exact isOpenTag_none_iff.mp h.no_tag
  · rintro ⟨hleaks, hsplices⟩
    rw [hsplices] at htag
    refine ⟨isOpenTag_none_iff.mpr htag, ?_, ?_⟩
    · rw [stripCot_eq, texts_of_no_tag htag]
      generalize hout : trimChars (join ((texts input).filter (· ≠ []))) = out
      have htrim : trimChars out = out := hout ▸ trimChars_trimChars _
      cases out with
      | nil => rfl
      | cons c out => simp [join, joinAfter, htrim]
    · obtain ⟨extra, htexts, hblank⟩ := texts_of_not_leaks hleaks
      rw [← visible_filter] at hblank
      obtain ⟨b, hjoin, hb⟩ := join_append_blank ((outside 0 input).filter (· ≠ [])) hblank
      refine ⟨_, joined_join (outside_zero_ne_nil input), ?_⟩
      rw [htexts, List.filter_append, hjoin, trimChars_append_blank _ hb]

/-- A block in front of the `>` of a tag. -/
theorem strip_cot_exact_spliced : ¬ ∃ out,
    stripCot "<think<think>a</think>>b".toList = some out ∧
      Strips "<think<think>a</think>>b".toList out := by
  rintro ⟨out, hout, h⟩
  have hvalue : stripCot "<think<think>a</think>>b".toList = some "<think >b".toList := by decide
  cases hvalue.symm.trans hout
  exact absurd (h.no_tag 0) (by decide)

end Output

end Arags.Cli
