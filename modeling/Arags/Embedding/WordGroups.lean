import Arags.Embedding.TextChunker

/-!
# Arags.Embedding.WordGroups

The hard split by words, said on texts instead of offsets.

* `asciiPieces`    — the words of a segment, each with the white space before it.
* `greedyGroups`   — the groups of words that the split closes, and the last one.
* `fitText`        — how much of the last group is kept in one chunk.
* `wordGroupTexts` — the texts of the chunks; `pushWordGroups_eq` places them.
-/

namespace Arags.Embedding

open Text

/-! ## Words -/

/-- `piece` is what was read of a piece, in reverse; `inWord` says whether its word has started. -/
def asciiPieces (piece : List Char) (inWord : Bool) : List Char →
    List (List Char) × List Char
  | [] => if inWord then ([piece.reverse], []) else ([], piece.reverse)
  | c :: s =>
    if inWord && isAsciiWhitespace c then
      let rest := asciiPieces [c] false s
      (piece.reverse :: rest.1, rest.2)
    else asciiPieces (c :: piece) (inWord || !isAsciiWhitespace c) s

/-- The pieces of a text and the white space after the last. -/
inductive AsciiWords : List Char → List (List Char) → List Char → Prop where
  | done {g : List Char} (hg : ∀ c ∈ g, isAsciiWhitespace c = true) : AsciiWords g [] g
  | word {g w s t : List Char} {pieces : List (List Char)}
      (hg : ∀ c ∈ g, isAsciiWhitespace c = true) (hw : w ≠ [])
      (hword : ∀ c ∈ w, isAsciiWhitespace c = false)
      (hnext : ∀ c ∈ s.head?, isAsciiWhitespace c = true) (rest : AsciiWords s pieces t) :
      AsciiWords (g ++ w ++ s) ((g ++ w) :: pieces) t

theorem asciiPieces_words (s : List Char) : ∀ {g w : List Char},
    (∀ c ∈ g, isAsciiWhitespace c = true) → (∀ c ∈ w, isAsciiWhitespace c = false) →
      AsciiWords (g ++ w ++ s) (asciiPieces (g ++ w).reverse (w ≠ []) s).1
        (asciiPieces (g ++ w).reverse (w ≠ []) s).2 := by
  induction s with
  | nil =>
    intro g w hg hword
    rw [asciiPieces, List.append_nil, List.reverse_reverse]
    by_cases hw : w = []
    · subst hw
      simpa using AsciiWords.done hg
    · rw [if_pos (by simpa using hw)]
      have := AsciiWords.word hg hw hword (s := []) (by simp) (.done (by simp))
      rwa [List.append_nil] at this
  | cons c s ih =>
    intro g w hg hword
    rw [asciiPieces]
    by_cases hc : isAsciiWhitespace c = true
    · by_cases hw : w = []
      · subst hw
        rw [if_neg (by simp)]
        have hg' : ∀ d ∈ g ++ [c], isAsciiWhitespace d = true := by
          intro d hd
          rcases List.mem_append.mp hd with hd | hd
          · exact hg d hd
          · rwa [List.mem_singleton.mp hd]
        have := @ih (g ++ [c]) [] hg' (by simp)
        simpa [hc] using this
      · rw [if_pos (by simpa [hw] using hc), List.reverse_reverse]
        have := @ih [c] [] (by simpa using hc) (by simp)
        exact .word hg hw hword (by simpa using hc) (by simpa using this)
    · rw [Bool.not_eq_true] at hc
      rw [if_neg (by simp [hc])]
      have hword' : ∀ d ∈ w ++ [c], isAsciiWhitespace d = false := by
        intro d hd
        rcases List.mem_append.mp hd with hd | hd
        · exact hword d hd
        · rwa [List.mem_singleton.mp hd]
      have := @ih g (w ++ [c]) hg hword'
      simpa [hc] using this

theorem AsciiWords.flatten {s t : List Char} {pieces : List (List Char)}
    (h : AsciiWords s pieces t) : s = pieces.flatten ++ t := by
  induction h with
  | done hg => rfl
  | word hg hw hword hnext rest ih =>
    simp only [List.flatten_cons, List.append_assoc]
    rw [← ih]

/-- The pieces of a segment, and its trailing white space. -/
def piecesOf (s : List Char) : List (List Char) × List Char := asciiPieces [] false s

theorem piecesOf_words (s : List Char) : AsciiWords s (piecesOf s).1 (piecesOf s).2 := by
  simpa [piecesOf] using @asciiPieces_words s [] [] (by simp) (by simp)

def pieceEnds : Nat → List (List Char) → List Nat
  | _, [] => []
  | o, p :: ps => (o + byteLen p) :: pieceEnds (o + byteLen p) ps

theorem wordSpans_ends (s : List Char) : ∀ {piece : List Char} {start : Option Nat}
    {pos base : Nat}, base + byteLen piece = pos →
      (wordSpans start pos s).map Prod.snd =
        pieceEnds base (asciiPieces piece start.isSome s).1 := by
  induction s with
  | nil =>
    intro piece start pos base hpos
    cases start with
    | none => rfl
    | some b =>
      rw [wordSpans, asciiPieces, Option.isSome_some, if_pos rfl]
      simp [pieceEnds, hpos]
  | cons c s ih =>
    intro piece start pos base hpos
    have hnext : base + byteLen (c :: piece) = pos + c.utf8Size := by
      rw [byteLen_cons]
      omega
    cases start with
    | none =>
      rw [wordSpans, asciiPieces, Option.isSome_none, Bool.false_and, if_neg Bool.false_ne_true,
        Bool.false_or]
      split
      · rename_i hc
        rw [ih hnext, hc]
        rfl
      · rename_i hc
        rw [Bool.not_eq_true] at hc
        rw [ih hnext, hc]
        rfl
    | some b =>
      rw [wordSpans, asciiPieces, Option.isSome_some, Bool.true_and, Bool.true_or]
      split
      · have hrest := @ih [c] none (pos + c.utf8Size) pos (by simp)
        rw [List.map_cons, hrest, pieceEnds, byteLen_reverse, hpos]
        rfl
      · exact ih hnext

/-! ## Groups -/

/-- Paragraph chunks one after the other. -/
def place : Nat → List (List Char) → List RawChunk
  | _, [] => []
  | o, t :: ts => paragraphChunk o (o + byteLen t) t :: place (o + byteLen t) ts

theorem place_append (o : Nat) (ts us : List (List Char)) :
    place o (ts ++ us) = place o ts ++ place (o + byteLen ts.flatten) us := by
  induction ts generalizing o with
  | nil => rfl
  | cons t ts ih =>
    rw [List.cons_append, place, ih, place, List.flatten_cons, byteLen_append, Nat.add_assoc]
    rfl

section Groups

variable (estimateTokens : List Char → Nat) (maxTokens : Nat)

/-- After the pieces of `group`: the groups that are closed, and the one that is open at the end. -/
def greedyGroups (group : List Char) : List (List Char) → List (List Char) × List Char
  | [] => ([], group)
  | piece :: pieces =>
    if maxTokens < estimateTokens (group ++ piece) ∧ 1 < byteLen (group ++ piece) then
      let rest := greedyGroups piece pieces
      (if group.isEmpty then rest.1 else group :: rest.1, rest.2)
    else greedyGroups (group ++ piece) pieces

theorem flatten_greedyGroups (group : List Char) (pieces : List (List Char)) :
    (greedyGroups estimateTokens maxTokens group pieces).1.flatten ++
      (greedyGroups estimateTokens maxTokens group pieces).2 = group ++ pieces.flatten := by
  induction pieces generalizing group with
  | nil => simp [greedyGroups]
  | cons piece pieces ih =>
    rw [greedyGroups]
    split
    · dsimp only
      split
      · rename_i hempty
        rw [List.isEmpty_iff.mp hempty, ih]
        rfl
      · rw [List.flatten_cons, List.append_assoc, ih]
        rfl
    · rw [ih, List.flatten_cons, List.append_assoc]

theorem wordGroups_eq {content b : List Char} {start : Nat} {pieces : List (List Char)} :
    ∀ {q group : List Char} {spans : List (Nat × Nat)} {base : Nat},
      content = q ++ (group ++ (pieces.flatten ++ b)) → start + base = byteLen (q ++ group) →
        spans.map Prod.snd = pieceEnds base pieces →
          wordGroups estimateTokens maxTokens content start (byteLen q) (byteLen (q ++ group))
              spans =
            some (place (byteLen q) (greedyGroups estimateTokens maxTokens group pieces).1,
              byteLen q +
                byteLen (greedyGroups estimateTokens maxTokens group pieces).1.flatten) := by
  induction pieces with
  | nil =>
    intro q group spans base hcontent hbase hspans
    obtain rfl : spans = [] := List.map_eq_nil_iff.mp hspans
    rfl
  | cons piece pieces ih =>
    intro q group spans base hcontent hbase hspans
    obtain ⟨span, spans, rfl, hspan, hrest⟩ := List.map_eq_cons_iff.mp hspans
    have hend : start + span.2 = byteLen q + byteLen (group ++ piece) := by
      rw [byteLen_append] at hbase ⊢
      omega
    have hcandidate : slice content (byteLen q) (start + span.2) = some (group ++ piece) :=
      slice_mid (q := pieces.flatten ++ b) (by simpa using hcontent) rfl hend.symm
    have hnext : start + (base + byteLen piece) = byteLen q + byteLen (group ++ piece) := by
      rw [byteLen_append] at hbase ⊢
      omega
    rw [wordGroups, hcandidate, greedyGroups]
    show (if maxTokens < estimateTokens (group ++ piece) ∧ byteLen q + 1 < start + span.2 then _
      else _) = _
    rw [hend]
    by_cases hover : maxTokens < estimateTokens (group ++ piece) ∧ 1 < byteLen (group ++ piece)
    · have hcut : prevCharBoundary content (byteLen (q ++ group)) = byteLen (q ++ group) := by
        apply prevCharBoundary_of_boundary
        rw [hcontent, ← List.append_assoc]
        exact isCharBoundary_append _ _
      have hclosed : slice content (byteLen q) (byteLen (q ++ group)) = some group :=
        slice_mid hcontent rfl (byteLen_append q group).symm
      have hall : byteLen q + byteLen (group ++ piece) = byteLen (q ++ group ++ piece) := by
        simp only [byteLen_append, Nat.add_assoc]
      have hrec := @ih (q ++ group) piece spans (base + byteLen piece) (by simpa using hcontent)
        (by rw [hnext, hall]) hrest
      rw [if_pos ⟨hover.1, by omega⟩, if_pos hover]
      dsimp only
      rw [hcut, hall, hrec]
      by_cases hempty : group = []
      · subst hempty
        rw [if_neg (by simp), List.isEmpty_nil, if_pos rfl]
        simp only [List.append_nil]
        rfl
      · have hpos := byteLen_pos hempty
        rw [if_pos (by rw [byteLen_append]; omega), hclosed,
          if_neg (by simpa using hempty), place, List.flatten_cons]
        simp only [byteLen_append, Nat.add_assoc]
        rfl
    · have hrec := @ih q (group ++ piece) spans (base + byteLen piece) (by simpa using hcontent)
        (by rw [hnext, byteLen_append q]) hrest
      rw [if_neg (by omega), if_neg hover, ← byteLen_append, hrec]

end Groups

/-! ## The last group -/

/-- Position `k` is white space right before a word. -/
def WordCut (t : List Char) (k : Nat) (c : Char) : Prop :=
  t[k]? = some c ∧ isWhiteSpace c = true ∧ ∃ d, t[k + 1]? = some d ∧ isWhiteSpace d = false

/-- The text before the last white space that a word follows, and that white space. -/
def lastCut : List Char → Option (List Char × Char)
  | c :: d :: s =>
    match lastCut (d :: s) with
    | some (a, e) => some (c :: a, e)
    | none => if isWhiteSpace c && !isWhiteSpace d then some ([], c) else none
  | _ => none

theorem lastCut_none {t : List Char} (h : lastCut t = none) (k : Nat) (e : Char) :
    ¬ WordCut t k e := by
  induction t generalizing k with
  | nil => simp [WordCut]
  | cons c s ih =>
    cases s with
    | nil => simp [WordCut]
    | cons d s =>
      rw [lastCut] at h
      split at h
      · cases h
      · rename_i hnone
        cases k with
        | succ k => exact ih hnone k
        | zero =>
          rintro ⟨hc, he, x, hx, hxw⟩
          obtain rfl := Option.some.inj hc
          obtain rfl := Option.some.inj hx
          simp [he, hxw] at h

theorem lastCut_some {t a : List Char} {e : Char} (h : lastCut t = some (a, e)) :
    WordCut t a.length e ∧ (∃ s, t = a ++ e :: s) ∧ ∀ k e', WordCut t k e' → k ≤ a.length := by
  induction t generalizing a with
  | nil => cases h
  | cons c s ih =>
    cases s with
    | nil => cases h
    | cons d s =>
      rw [lastCut] at h
      split at h
      · rename_i a' e' hsome
        obtain ⟨rfl, rfl⟩ := Prod.mk.inj (Option.some.inj h)
        obtain ⟨hcut, ⟨s', hs'⟩, hlast⟩ := ih hsome
        refine ⟨hcut, ⟨s', by rw [hs']; rfl⟩, fun k e' hk => ?_⟩
        cases k with
        | zero => exact Nat.zero_le _
        | succ k => exact Nat.succ_le_succ (hlast k e' hk)
      · rename_i hnone
        split at h
        · rename_i hcd
          obtain ⟨rfl, rfl⟩ := Prod.mk.inj (Option.some.inj h)
          rw [Bool.and_eq_true, Bool.not_eq_true'] at hcd
          refine ⟨⟨rfl, hcd.1, d, rfl, hcd.2⟩, ⟨d :: s, rfl⟩, fun k e' hk => ?_⟩
          cases k with
          | zero => exact Nat.le_refl 0
          | succ k => exact absurd hk (lastCut_none hnone k e')
        · cases h

/-- The byte that the code finds. -/
theorem rfind_trimEnd (t : List Char) :
    rfind isWhiteSpace (trimEnd t) = (lastCut t).map fun r => byteLen r.1 := by
  induction t with
  | nil => rfl
  | cons c s ih =>
    rw [trimEnd_cons]
    cases s with
    | nil =>
      cases hc : isWhiteSpace c <;> simp [trimEnd, rfind, lastCut, hc]
    | cons d s =>
      rw [lastCut]
      cases hcut : lastCut (d :: s) with
      | some r =>
        rw [hcut, Option.map_some] at ih
        rw [if_neg (by rintro ⟨-, h⟩; rw [h] at ih; cases ih), rfind, ih]
        simp
      | none =>
        rw [hcut, Option.map_none] at ih
        dsimp only
        by_cases hempty : trimEnd (d :: s) = []
        · have hd : isWhiteSpace d = true := by
            rw [trimEnd_cons] at hempty
            split at hempty
            · rename_i h
              exact h.1
            · cases hempty
          rw [hempty, hd]
          cases hc : isWhiteSpace c <;> simp [rfind, hc]
        · have hd : isWhiteSpace d = false := by
            rw [trimEnd_cons] at hempty ih
            split at hempty
            · exact absurd rfl hempty
            · rename_i h
              rw [if_neg h] at ih
              exact rfind_eq_none.mp ih d List.mem_cons_self
          rw [if_neg (fun h => hempty h.2), rfind, ih, hd]
          cases hc : isWhiteSpace c <;> simp

section Fit

variable (estimateTokens : List Char → Nat) (maxTokens : Nat)

/-- How much of a text is kept: as many words as fit, or the first one. `none`: the white space
before a word that is cut off takes several bytes. -/
def fitText : Nat → List Char → Option (List Char)
  | 0, _ => none
  | fuel + 1, t =>
    if maxTokens < estimateTokens t then
      match lastCut t with
      | some (a, c) => if c.utf8Size = 1 then fitText fuel (a ++ [c]) else none
      | none => some t
    else some t

/-- The white space before some word takes several bytes, and the split gets that far: neither the
text nor what is left of it when a later word is cut off fits. -/
def BadCut (t : List Char) : Prop :=
  ∃ k c, WordCut t k c ∧ 1 < c.utf8Size ∧ maxTokens < estimateTokens t ∧
    ∀ j e, WordCut t j e → k < j → maxTokens < estimateTokens (t.take (j + 1))

variable {estimateTokens maxTokens}

theorem WordCut.take_iff {t : List Char} {n k : Nat} {c : Char} :
    WordCut (t.take (n + 1)) k c ↔ WordCut t k c ∧ k < n := by
  simp only [WordCut, List.getElem?_take]
  constructor
  · rintro ⟨hk, hc, d, hd, hw⟩
    split at hd
    · rename_i hlt
      rw [if_pos (by omega)] at hk
      exact ⟨⟨hk, hc, d, hd, hw⟩, by omega⟩
    · cases hd
  · rintro ⟨⟨hk, hc, d, hd, hw⟩, hlt⟩
    rw [if_pos (by omega), if_pos (by omega)]
    exact ⟨hk, hc, d, hd, hw⟩

theorem fitText_eq_none {fuel : Nat} : ∀ {t : List Char}, t.length < fuel →
    (fitText estimateTokens maxTokens fuel t = none ↔ BadCut estimateTokens maxTokens t) := by
  induction fuel with
  | zero => exact fun h => absurd h (Nat.not_lt_zero _)
  | succ fuel ih =>
    intro t hlen
    rw [fitText]
    by_cases hover : maxTokens < estimateTokens t
    · rw [if_pos hover]
      cases hcut : lastCut t with
      | none =>
        refine ⟨fun h => (by cases h), ?_⟩
        rintro ⟨k, c, hk, -⟩
        exact absurd hk (lastCut_none hcut k c)
      | some r =>
        obtain ⟨a, c⟩ := r
        obtain ⟨hac, ⟨s, hs⟩, hlast⟩ := lastCut_some hcut
        have htake : t.take (a.length + 1) = a ++ [c] := by
          rw [hs, List.take_append, List.take_of_length_le (Nat.le_succ _),
            Nat.add_sub_cancel_left]
          rfl
        dsimp only
        by_cases hsize : c.utf8Size = 1
        · have hshort : (a ++ [c]).length < fuel := by
            obtain ⟨-, -, d, hd, -⟩ := hac
            have := (List.getElem?_eq_some_iff.mp hd).1
            rw [List.length_append, List.length_singleton]
            omega
          rw [if_pos hsize, ih hshort, ← htake]
          constructor
          · rintro ⟨k, e, hk, he, hfirst, hlater⟩
            obtain ⟨hk, hlt⟩ := WordCut.take_iff.mp hk
            refine ⟨k, e, hk, he, hover, fun j e' hj hkj => ?_⟩
            rcases Nat.lt_or_ge j a.length with hja | hja
            · have := hlater j e' (WordCut.take_iff.mpr ⟨hj, hja⟩) hkj
              rwa [List.take_take, Nat.min_eq_left (by omega)] at this
            · rwa [Nat.le_antisymm (hlast j e' hj) hja]
          · rintro ⟨k, e, hk, he, -, hlater⟩
            have hka : k < a.length := by
              refine Nat.lt_of_le_of_ne (hlast k e hk) fun heq => ?_
              have := hac.1.symm.trans (heq ▸ hk.1)
              rw [← Option.some.inj this, hsize] at he
              exact absurd he (Nat.lt_irrefl 1)
            refine ⟨k, e, WordCut.take_iff.mpr ⟨hk, hka⟩, he, hlater _ c hac hka,
              fun j e' hj hkj => ?_⟩
            obtain ⟨hj, hja⟩ := WordCut.take_iff.mp hj
            rw [List.take_take, Nat.min_eq_left (by omega)]
            exact hlater j e' hj hkj
        · rw [if_neg hsize]
          have := c.utf8Size_pos
          refine ⟨fun _ => ⟨a.length, c, hac, by omega, hover, fun j e hj hlt => ?_⟩, fun _ => rfl⟩
          exact absurd (hlast j e hj) (by omega)
    · rw [if_neg hover]
      refine ⟨fun h => (by cases h), ?_⟩
      rintro ⟨-, -, -, -, h, -⟩
      exact absurd h hover

theorem shrinkFit_eq {content p : List Char} {fuel : Nat} : ∀ {t b : List Char} {rounds : Nat},
    content = p ++ (t ++ b) → t ≠ [] → byteLen t ≤ rounds → t.length < fuel →
      shrinkFit estimateTokens maxTokens content (byteLen p) rounds (byteLen p + byteLen t) =
        (fitText estimateTokens maxTokens fuel t).map fun f => byteLen p + byteLen f := by
  induction fuel with
  | zero => exact fun _ _ _ h => absurd h (Nat.not_lt_zero _)
  | succ fuel ih =>
    intro t b rounds hcontent hne hrounds hlen
    have hpos := byteLen_pos hne
    obtain ⟨rounds, rfl⟩ : ∃ n, rounds = n + 1 := ⟨rounds - 1, by omega⟩
    have hslice : slice content (byteLen p) (byteLen p + byteLen t) = some t :=
      slice_mid hcontent rfl rfl
    rw [shrinkFit, if_pos (by omega), hslice, fitText]
    show (if maxTokens < estimateTokens t then _ else _) = _
    by_cases hover : maxTokens < estimateTokens t
    · rw [if_pos hover, if_pos hover, rfind_trimEnd]
      cases hcut : lastCut t with
      | none => rfl
      | some r =>
        obtain ⟨a, c⟩ := r
        obtain ⟨hac, ⟨s, rfl⟩, -⟩ := lastCut_some hcut
        have hlens : byteLen (a ++ c :: s) = byteLen a + c.utf8Size + byteLen s := by
          rw [byteLen_append, byteLen_cons, Nat.add_assoc]
        have hs : s ≠ [] := by
          rintro rfl
          obtain ⟨-, -, d, hd, -⟩ := hac
          simp at hd
        have hspos := byteLen_pos hs
        dsimp only [Option.map_some]
        by_cases hsize : c.utf8Size = 1
        · rw [if_pos hsize, ← @ih (a ++ [c]) (s ++ b) rounds (by simpa using hcontent) (by simp)
            (by simp only [byteLen_append, byteLen_cons, byteLen_nil]; omega)
            (by
              simp only [List.length_append, List.length_cons, List.length_nil] at hlen ⊢
              have := List.length_pos_iff.mpr hs
              omega)]
          congr 1
          simp only [byteLen_append, byteLen_cons, byteLen_nil, hsize]
        · -- the next slice would end inside the character
          have hc := c.utf8Size_pos
          have hout : slice content (byteLen p) (byteLen p + (byteLen a + 1)) = none := by
            rw [← Option.not_isSome_iff_eq_none, slice_isSome_iff]
            rintro ⟨-, -, hb⟩
            have := isCharBoundary_inside (a := p ++ a) (b := s ++ b) (c := c) (i := 1)
              (by omega) (by omega)
            rw [byteLen_append, Nat.add_assoc] at this
            rw [hcontent] at hb
            simp only [List.append_assoc, List.cons_append] at this hb
            rw [this] at hb
            cases hb
          rw [if_neg hsize]
          cases rounds with
          | zero => rfl
          | succ rounds =>
            rw [shrinkFit, if_pos (by omega), hout]
            rfl
    · rw [if_neg hover, if_neg hover]
      rfl

theorem fitText_some {fuel : Nat} : ∀ {t f : List Char},
    fitText estimateTokens maxTokens fuel t = some f → t ≠ [] →
      ∃ r, t = f ++ r ∧ f ≠ [] ∧ (estimateTokens f ≤ maxTokens ∨ lastCut f = none) ∧
        (r = [] ∨ ∃ a c, f = a ++ [c] ∧ isWhiteSpace c = true) := by
  induction fuel with
  | zero => exact fun h => by cases h
  | succ fuel ih =>
    intro t f h hne
    rw [fitText] at h
    split at h
    · split at h
      · rename_i a c hcut
        obtain ⟨hac, ⟨s, rfl⟩, -⟩ := lastCut_some hcut
        split at h
        · obtain ⟨r, hr, hf, hfit, hlast⟩ := ih h (by simp)
          refine ⟨r ++ s, by rw [← List.append_assoc, ← hr, List.append_assoc]; rfl, hf, hfit,
            .inr ?_⟩
          rcases hlast with rfl | hlast
          · rw [List.append_nil] at hr
            exact ⟨a, c, hr.symm, hac.2.1⟩
          · exact hlast
        · cases h
      · rename_i hnone
        obtain rfl := Option.some.inj h
        exact ⟨[], (List.append_nil t).symm, hne, .inr hnone, .inl rfl⟩
    · rename_i hfit
      obtain rfl := Option.some.inj h
      exact ⟨[], (List.append_nil t).symm, hne, .inl (Nat.not_lt.mp hfit), .inl rfl⟩

variable (estimateTokens maxTokens) in
/-- The last group of words of a segment, with the white space after it. -/
def lastGroup (s : List Char) : List Char :=
  (greedyGroups estimateTokens maxTokens [] (piecesOf s).1).2 ++ (piecesOf s).2

variable (estimateTokens maxTokens) in
/-- The texts of the chunks of a segment. -/
def wordGroupTexts (s : List Char) : Option (List (List Char)) :=
  let groups := (greedyGroups estimateTokens maxTokens [] (piecesOf s).1).1
  let tail := lastGroup estimateTokens maxTokens s
  if tail ≠ [] ∧ 0 < estimateTokens tail then
    (fitText estimateTokens maxTokens (tail.length + 1) tail).map fun fit =>
      groups ++ fit ::
        if tail.drop fit.length ≠ [] ∧ 0 < estimateTokens (tail.drop fit.length) then
          [tail.drop fit.length]
        else []
  else some groups

theorem groups_append_lastGroup (s : List Char) :
    (greedyGroups estimateTokens maxTokens [] (piecesOf s).1).1.flatten ++
      lastGroup estimateTokens maxTokens s = s := by
  rw [lastGroup, ← List.append_assoc, flatten_greedyGroups, List.nil_append]
  exact (piecesOf_words s).flatten.symm

/-- The hard split of a segment places the texts from its start on. -/
theorem pushWordGroups_eq {content p s b : List Char} (hcontent : content = p ++ (s ++ b)) :
    pushWordGroups estimateTokens maxTokens content (byteLen p) (byteLen p + byteLen s) =
      (wordGroupTexts estimateTokens maxTokens s).map (place (byteLen p)) := by
  have hall := @groups_append_lastGroup estimateTokens maxTokens s
  have hgroups := @wordGroups_eq estimateTokens maxTokens content ((piecesOf s).2 ++ b)
    (byteLen p) (piecesOf s).1 p [] (wordSpans none 0 s) 0
    (by
      have := (piecesOf_words s).flatten
      rw [hcontent, List.nil_append, ← List.append_assoc (piecesOf s).1.flatten, ← this])
    (by simp) (wordSpans_ends s (by simp))
  rw [List.append_nil] at hgroups
  unfold wordGroupTexts
  unfold pushWordGroups
  generalize lastGroup estimateTokens maxTokens s = tail at hall ⊢
  generalize (greedyGroups estimateTokens maxTokens [] (piecesOf s).1).1 = groups
    at hall hgroups ⊢
  have hseg : slice content (byteLen p) (byteLen p + byteLen s) = some s :=
    slice_mid hcontent rfl rfl
  have hstop : prevCharBoundary content (byteLen p + byteLen s) = byteLen p + byteLen s := by
    apply prevCharBoundary_of_boundary
    rw [hcontent, ← List.append_assoc, ← byteLen_append]
    exact isCharBoundary_append _ _
  have hlen : byteLen p + byteLen s = byteLen (p ++ groups.flatten) + byteLen tail := by
    rw [← hall, byteLen_append, byteLen_append, Nat.add_assoc]
  have hcut : content = (p ++ groups.flatten) ++ (tail ++ b) := by
    rw [hcontent, ← hall]
    simp only [List.append_assoc]
  simp only [hseg, hgroups, hstop, Option.bind_eq_bind, Option.bind_some, Option.pure_def]
  rw [hlen, ← byteLen_append p groups.flatten]
  by_cases htail : tail = []
  · rw [if_neg (by simp [htail]), if_neg (by simp [htail])]
    rfl
  · have hpos := byteLen_pos htail
    have hslice : slice content (byteLen (p ++ groups.flatten))
        (byteLen (p ++ groups.flatten) + byteLen tail) = some tail := slice_mid hcut rfl rfl
    rw [if_pos (by omega), hslice, Option.bind_some]
    by_cases hest : 0 < estimateTokens tail
    · rw [if_pos hest, if_pos ⟨htail, hest⟩,
        shrinkFit_eq hcut htail (by omega) (Nat.lt_succ_self _)]
      cases hfit : fitText estimateTokens maxTokens (tail.length + 1) tail with
      | none => rfl
      | some fit =>
        obtain ⟨r, rfl, hne, -, -⟩ := fitText_some hfit htail
        have hfitted : slice content (byteLen (p ++ groups.flatten))
            (byteLen (p ++ groups.flatten) + byteLen fit) = some fit :=
          slice_mid (q := r ++ b) (by simpa using hcut) rfl rfl
        have hplaced (us : List (List Char)) : place (byteLen p) (groups ++ us) =
            place (byteLen p) groups ++ place (byteLen (p ++ groups.flatten)) us := by
          rw [place_append, byteLen_append]
        rw [Option.map_some, Option.bind_some, hfitted, Option.bind_some, Option.map_some,
          Option.map_some, hplaced, List.drop_left]
        by_cases hr : r = []
        · subst hr
          rw [if_neg (by simp), if_neg (by simp)]
          rfl
        · have hrpos := byteLen_pos hr
          have hleft : slice content (byteLen (p ++ groups.flatten) + byteLen fit)
              (byteLen (p ++ groups.flatten) + byteLen (fit ++ r)) = some r :=
            slice_mid (p := p ++ groups.flatten ++ fit) (q := b) (by simpa using hcut)
              (byteLen_append _ _) (by rw [byteLen_append fit, Nat.add_assoc])
          rw [if_pos (by rw [byteLen_append fit]; omega), hleft, Option.bind_some]
          by_cases hrest : 0 < estimateTokens r
          · rw [if_pos hrest, if_pos ⟨hr, hrest⟩, byteLen_append fit, ← Nat.add_assoc]
            rfl
          · rw [if_neg hrest, if_neg (fun h => hrest h.2)]
            rfl
    · rw [if_neg hest, if_neg (fun h => hest h.2)]
      rfl

end Fit

end Arags.Embedding
