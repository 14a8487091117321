import Arags.Embedding.WordGroups

/-!
# Arags.Embedding.TextPlan

The paragraph chunker when it never goes back: the text is cut into parts at paragraph separators,
and each part becomes chunks by itself.

* `parts`        — what is pushed: groups of paragraphs, and paragraphs that are hard-split.
* `NoRewind`     — the next chunk always starts at the flush point.
* `placeParts`   — the chunks of the parts.
* `textChunk_eq` — the chunker returns these.
-/

namespace Arags.Embedding

open Text

inductive PartKind where
  /-- Paragraphs pushed before one that is hard-split. -/
  | group
  /-- Paragraphs pushed because the next one does not fit. -/
  | flushed
  /-- A paragraph over the budget. -/
  | paragraph
  /-- The paragraphs pushed at the end. -/
  | last
deriving DecidableEq, Repr

structure Part where
  kind : PartKind
  text : List Char
deriving DecidableEq, Repr

/-- The parts from here on, while the paragraphs of `group` are open. -/
def parts (estimateTokens : List Char → Nat) (maxTokens overlapTokens : Nat) :
    Option (List Char) → Nat → List (List Char) → List Part
  | none, _, [] => []
  | some g, _, [] => [⟨.last, g⟩]
  | none, _, para :: paras =>
    if maxTokens < estimateTokens para then
      ⟨.paragraph, para⟩ :: parts estimateTokens maxTokens overlapTokens none 0 paras
    else
      parts estimateTokens maxTokens overlapTokens (some para)
        (estimateTokens para + separatorTokens) paras
  | some g, tokens, para :: paras =>
    if maxTokens < estimateTokens para then
      ⟨.group, g⟩ :: ⟨.paragraph, para⟩ ::
        parts estimateTokens maxTokens overlapTokens none 0 paras
    else if maxTokens < tokens + estimateTokens para then
      ⟨.flushed, g⟩ :: parts estimateTokens maxTokens overlapTokens (some para)
        (overlapTokens + separatorTokens + (estimateTokens para + separatorTokens)) paras
    else
      parts estimateTokens maxTokens overlapTokens (some (g ++ (paragraphSeparator ++ para)))
        (tokens + (estimateTokens para + separatorTokens)) paras

def partsOf (estimateTokens : List Char → Nat) (maxTokens overlapTokens : Nat)
    (content : List Char) : List Part :=
  parts estimateTokens maxTokens overlapTokens none 0 (split paragraphSeparator content)

/-- The text of some parts and of the separators after them. -/
def textThrough (ps : List Part) : List Char := ps.flatMap fun q => q.text ++ paragraphSeparator

/-- No flush point has more words before it than the overlap. -/
def NoRewind (overlapTokens : Nat) (ps : List Part) : Prop :=
  overlapTokens = 0 ∨ ∀ before g after, ps = before ++ ⟨.flushed, g⟩ :: after →
    (words (textThrough (before ++ [⟨.flushed, g⟩]))).length ≤ overlapTokens

/-- The byte where the last two bytes of a text start is a boundary. -/
def EndsWhole (content : List Char) : Prop :=
  byteLen content < 2 ∨ isCharBoundary content (byteLen content - 2) = true

instance (content : List Char) : Decidable (EndsWhole content) :=
  inferInstanceAs (Decidable (_ ∨ _))

/-- What is pushed of a part: the last one loses a separator at its end. -/
def Part.pushed (content : List Char) (q : Part) : List Char :=
  if q.kind = .last ∧ paragraphSeparator.isSuffixOf content = true then
    q.text.take (q.text.length - 2)
  else q.text

section Plan

variable (estimateTokens : List Char → Nat) (maxTokens : Nat)

/-- The texts that `push` makes of a slice. -/
def sliceTexts (s : List Char) : Option (List (List Char)) :=
  if s = [] then some []
  else if maxTokens < estimateTokens s then wordGroupTexts estimateTokens maxTokens s
  else some (if estimateTokens s = 0 then [] else [s])

def Part.texts (content : List Char) (q : Part) : Option (List (List Char)) :=
  match q.kind with
  | .paragraph => wordGroupTexts estimateTokens maxTokens q.text
  | .last => if EndsWhole content then sliceTexts estimateTokens maxTokens (q.pushed content)
    else none
  | _ => sliceTexts estimateTokens maxTokens q.text

def placeParts (content : List Char) : Nat → List Part → Option (List RawChunk)
  | _, [] => some []
  | o, q :: ps => do
    let texts ← q.texts estimateTokens maxTokens content
    let rest ← placeParts content (o + byteLen q.text + 2) ps
    return place o texts ++ rest

variable {estimateTokens maxTokens}

theorem prevCharBoundary_append (a b : List Char) :
    prevCharBoundary (a ++ b) (byteLen a) = byteLen a :=
  prevCharBoundary_of_boundary (isCharBoundary_append a b)

theorem pushSlice_of_stop {content p s b : List Char} {e : Nat}
    (hcontent : content = p ++ (s ++ b))
    (hstop : trimStop content (min e (byteLen content)) = some (byteLen (p ++ s))) :
    pushSlice estimateTokens maxTokens content (byteLen p) e =
      (sliceTexts estimateTokens maxTokens s).map (place (byteLen p)) := by
  have hcut : prevCharBoundary content (byteLen (p ++ s)) = byteLen p + byteLen s := by
    rw [hcontent, ← List.append_assoc, prevCharBoundary_append, byteLen_append]
  unfold pushSlice sliceTexts
  simp only [hstop, hcut, Option.bind_eq_bind, Option.bind_some, Option.pure_def]
  by_cases hs : s = []
  · rw [if_pos (by simp [hs]), if_pos hs]
    rfl
  · have hpos := byteLen_pos hs
    have hslice : slice content (byteLen p) (byteLen p + byteLen s) = some s :=
      slice_mid hcontent rfl rfl
    rw [if_neg (by omega), if_neg hs, hslice, Option.bind_some]
    split
    · exact pushWordGroups_eq hcontent
    · split <;> rfl

theorem trimStop_sep {content x r : List Char} (h : content = x ++ (paragraphSeparator ++ r)) :
    trimStop content (byteLen x + 2) = some (byteLen x) := by
  have hslice : slice content (byteLen x) (byteLen x + 2) = some paragraphSeparator :=
    slice_mid h rfl rfl
  rw [trimStop, if_pos (by omega), Nat.add_sub_cancel, hslice, Option.map_some, if_pos rfl]

/-- A text between separators. -/
theorem pushSlice_eq {content p g r : List Char}
    (hcontent : content = p ++ (g ++ (paragraphSeparator ++ r))) :
    pushSlice estimateTokens maxTokens content (byteLen p) (byteLen p + (byteLen g + 2)) =
      (sliceTexts estimateTokens maxTokens g).map (place (byteLen p)) := by
  refine pushSlice_of_stop hcontent ?_
  have hlen : byteLen content = byteLen p + (byteLen g + (2 + byteLen r)) := by
    rw [hcontent]
    simp only [byteLen_append]
    rfl
  rw [Nat.min_eq_left (by omega), ← Nat.add_assoc, ← byteLen_append]
  exact trimStop_sep (by simpa using hcontent)

theorem trimStop_end (content : List Char) : trimStop content (byteLen content) =
    if EndsWhole content then
      some (if paragraphSeparator.isSuffixOf content = true then byteLen content - 2
        else byteLen content)
    else none := by
  have hlong (h : paragraphSeparator.isSuffixOf content = true) : 2 ≤ byteLen content := by
    obtain ⟨x, rfl⟩ := List.isSuffixOf_iff_suffix.mp h
    rw [byteLen_append]
    exact Nat.le_add_left _ _
  rw [trimStop]
  by_cases htwo : 2 ≤ byteLen content
  · rw [if_pos htwo]
    by_cases hb : isCharBoundary content (byteLen content - 2) = true
    · obtain ⟨x, t, rfl, hx⟩ := isCharBoundary_iff.mp hb
      have hslice : slice (x ++ t) (byteLen (x ++ t) - 2) (byteLen (x ++ t)) = some t := by
        refine slice_mid (q := []) (by rw [List.append_nil]) hx ?_
        rw [← hx, byteLen_append]
      have hiff : t = paragraphSeparator ↔ paragraphSeparator.isSuffixOf (x ++ t) = true := by
        rw [List.isSuffixOf_iff_suffix]
        refine ⟨fun h => ⟨x, by rw [h]⟩, fun ⟨y, hy⟩ => ?_⟩
        have hlen := congrArg byteLen hy
        have h2 : byteLen paragraphSeparator = 2 := rfl
        have hcut := splitAtByte_append x t
        rw [← hy, show byteLen x = byteLen y by rw [byteLen_append, h2] at hlen; omega,
          splitAtByte_append] at hcut
        exact (Prod.mk.inj (Option.some.inj hcut)).2.symm
      rw [hslice, if_pos (.inr hb), Option.map_some]
      simp only [hiff]
    · have hnone : slice content (byteLen content - 2) (byteLen content) = none := by
        rw [← Option.not_isSome_iff_eq_none, slice_isSome_iff]
        exact fun h => hb h.2.1
      rw [hnone, if_neg (by rintro (h | h); exacts [absurd htwo (by omega), hb h])]
      rfl
  · rw [if_neg htwo, if_pos (.inl (by omega)), if_neg (fun h => htwo (hlong h))]

/-- The last push, up to the end of the text. -/
theorem pushLast_eq {content p g : List Char} (hcontent : content = p ++ g) :
    pushSlice estimateTokens maxTokens content (byteLen p) (byteLen content) =
      ((Part.mk .last g).texts estimateTokens maxTokens content).map (place (byteLen p)) := by
  have hstop := trimStop_end content
  unfold Part.texts
  dsimp only
  by_cases hends : EndsWhole content
  · rw [if_pos hends] at hstop ⊢
    by_cases hsuffix : paragraphSeparator.isSuffixOf content = true
    · obtain ⟨x, hx⟩ := List.isSuffixOf_iff_suffix.mp hsuffix
      rw [if_pos hsuffix] at hstop
      have hlen : byteLen content - 2 = byteLen x := by
        rw [← hx, byteLen_append]
        rfl
      rw [hlen] at hstop
      have hpushed : (Part.mk .last g).pushed content = g.take (g.length - 2) :=
        if_pos ⟨rfl, hsuffix⟩
      rw [hpushed]
      obtain ⟨m, rfl, rfl⟩ | ⟨m, rfl, hm⟩ :=
        List.append_eq_append_iff.mp (hcontent.symm.trans hx.symm)
      · rw [List.length_append, show paragraphSeparator.length = 2 from rfl, Nat.add_sub_cancel,
          List.take_left' rfl]
        exact pushSlice_of_stop (b := paragraphSeparator) hcontent (by rw [Nat.min_self, hstop])
      · -- the separator starts before this part, so nothing of it is left
        have hshort : g.length ≤ 2 := by
          have := congrArg List.length hm
          rw [List.length_append, show paragraphSeparator.length = 2 from rfl] at this
          omega
        rw [Nat.sub_eq_zero_of_le hshort, List.take_zero, pushSlice, Nat.min_self, hstop]
        have hcut : prevCharBoundary content (byteLen x) = byteLen x := by
          rw [← hx, prevCharBoundary_append]
        simp only [Option.bind_eq_bind, Option.bind_some, hcut]
        rw [if_pos (by rw [byteLen_append]; omega)]
        rfl
    · rw [if_neg hsuffix, hcontent] at hstop
      have hpushed : (Part.mk .last g).pushed content = g := if_neg fun h => hsuffix h.2
      rw [hpushed]
      exact pushSlice_of_stop (b := []) (by rw [hcontent, List.append_nil])
        (by rw [Nat.min_self, hcontent, hstop])
  · rw [if_neg hends] at hstop ⊢
    rw [pushSlice, Nat.min_self, hstop]
    rfl

/-- An open group and the separator after it. -/
def openText : Option (List Char) → List Char
  | none => []
  | some g => g ++ paragraphSeparator

theorem byteLen_openText (g : List Char) : byteLen (openText (some g)) = byteLen g + 2 := by
  rw [openText, byteLen_append]
  rfl

theorem textThrough_append (ps : List Part) (q : Part) :
    textThrough (ps ++ [q]) = textThrough ps ++ (q.text ++ paragraphSeparator) := by
  rw [textThrough, List.flatMap_append, List.flatMap_singleton]
  rfl

theorem estimateOverlapBytes_zero {content pre r : List Char} {overlapTokens : Nat}
    (h : content = pre ++ r)
    (hwords : overlapTokens = 0 ∨ (words pre).length ≤ overlapTokens) :
    estimateOverlapBytes content (byteLen pre) overlapTokens = some 0 := by
  rw [estimateOverlapBytes]
  split
  · rfl
  · rename_i hne
    rcases hwords with hzero | hwords
    · exact absurd hzero hne
    · rw [slice_front h rfl]
      show bytesThrough pre 0 ((words pre).take ((words pre).length - overlapTokens)) = _
      rw [Nat.sub_eq_zero_of_le hwords]
      rfl

theorem exists_after_first (para : List Char) (paras : List (List Char)) :
    ∃ b, (para :: paras).flatMap (· ++ paragraphSeparator) =
      para ++ (b ++ paragraphSeparator) := by
  induction paras generalizing para with
  | nil => exact ⟨[], by simp⟩
  | cons q paras ih =>
    obtain ⟨b, hb⟩ := ih q
    refine ⟨paragraphSeparator ++ (q ++ b), ?_⟩
    rw [List.flatMap_cons, hb]
    simp only [List.append_assoc]

/-- The loop over these paragraphs makes the chunks of the plan, from wherever it comes: while
nothing is rewound, the chunk that is open starts where the parts that are done end, the
paragraphs of `group` are in it, and the cursor is where it ends. -/
def FollowsPlan (estimateTokens : List Char → Nat) (maxTokens : Nat) (content : List Char)
    (overlapTokens : Nat) (paras : List (List Char)) : Prop :=
  ∀ {finished : List Part} {group : Option (List Char)} {tokens cursor : Nat},
    content ++ paragraphSeparator =
        textThrough finished ++
          (openText group ++ paras.flatMap (· ++ paragraphSeparator)) →
      (0 < tokens ↔ group.isSome = true) →
        cursor = min (byteLen (textThrough finished ++ openText group)) (byteLen content) →
          NoRewind overlapTokens
            (finished ++ parts estimateTokens maxTokens overlapTokens group tokens paras) →
            textLoop estimateTokens maxTokens content overlapTokens
                (byteLen (textThrough finished))
                (byteLen (textThrough finished ++ openText group)) tokens cursor paras =
              placeParts estimateTokens maxTokens content (byteLen (textThrough finished))
                (parts estimateTokens maxTokens overlapTokens group tokens paras)

theorem followsPlan_nil {content : List Char} {overlapTokens : Nat} :
    FollowsPlan estimateTokens maxTokens content overlapTokens [] := by
  intro finished group tokens cursor hcontent _ _ _
  rw [textLoop]
  cases group with
  | none =>
    rw [openText, List.append_nil, if_neg (Nat.lt_irrefl _)]
    rfl
  | some g =>
    have hc : content = textThrough finished ++ g := by
      rw [openText, List.flatMap_nil, List.append_nil, ← List.append_assoc] at hcontent
      exact List.append_cancel_right hcontent
    have hlt : byteLen (textThrough finished) <
        byteLen (textThrough finished ++ openText (some g)) := by
      rw [byteLen_append, byteLen_openText]
      omega
    rw [if_pos hlt, pushLast_eq hc]
    show _ = (Part.texts estimateTokens maxTokens content ⟨.last, g⟩).bind _
    cases Part.texts estimateTokens maxTokens content ⟨.last, g⟩ with
    | none => rfl
    | some texts => exact congrArg some (List.append_nil _).symm

/-! At a paragraph, `before` the text up to it. -/

section Paragraph

variable {content before para : List Char} {paras : List (List Char)} {overlapTokens tokens : Nat}
  {finished : List Part}

/-- The text goes on with the paragraph, and the cursor is at it. -/
theorem at_paragraph (hcontent : content ++ paragraphSeparator =
      before ++ (para :: paras).flatMap (· ++ paragraphSeparator)) :
    ∃ b, content = before ++ (para ++ b) ∧
      min (byteLen before) (byteLen content) = byteLen before ∧
      min (byteLen before + byteLen para) (byteLen content) =
        byteLen before + byteLen para := by
  obtain ⟨b, hb⟩ := exists_after_first para paras
  have hc : content = before ++ (para ++ b) := by
    rw [hb] at hcontent
    simp only [← List.append_assoc] at hcontent ⊢
    exact List.append_cancel_right hcontent
  have hlen : byteLen content = byteLen before + (byteLen para + byteLen b) := by
    rw [hc]
    simp only [byteLen_append]
  exact ⟨b, hc, by omega, by omega⟩

/-- After a paragraph that is hard-split no group is open. -/
theorem textLoop_after (hplan : FollowsPlan estimateTokens maxTokens content overlapTokens paras)
    (hcontent : content ++ paragraphSeparator =
      before ++ (para :: paras).flatMap (· ++ paragraphSeparator))
    {ps : List Part} (hps : textThrough ps = before ++ (para ++ paragraphSeparator))
    (hrewind : NoRewind overlapTokens
      (ps ++ parts estimateTokens maxTokens overlapTokens none 0 paras)) :
    textLoop estimateTokens maxTokens content overlapTokens
        (min (byteLen before + byteLen para + 2) (byteLen content))
        (min (byteLen before + byteLen para + 2) (byteLen content)) 0
        (min (byteLen before + byteLen para + 2) (byteLen content)) paras =
      placeParts estimateTokens maxTokens content (byteLen before + byteLen para + 2)
        (parts estimateTokens maxTokens overlapTokens none 0 paras) := by
  have hthrough : byteLen (textThrough ps) = byteLen before + byteLen para + 2 := by
    rw [hps, byteLen_append, byteLen_append, ← Nat.add_assoc]
    rfl
  cases paras with
  | nil =>
    rw [textLoop, if_neg (Nat.lt_irrefl _)]
    rfl
  | cons q paras =>
    have hinside : byteLen before + byteLen para + 2 ≤ byteLen content := by
      have hall := congrArg byteLen hcontent
      have h2 : byteLen paragraphSeparator = 2 := rfl
      simp only [List.flatMap_cons, byteLen_append, h2] at hall
      omega
    have hrest := @hplan ps none 0 (byteLen before + byteLen para + 2)
      (by rw [hps, hcontent]; simp [openText, List.append_assoc]) (by simp)
      (by rw [openText, List.append_nil, hthrough, Nat.min_eq_left hinside]) hrewind
    rw [openText, List.append_nil, hthrough] at hrest
    rw [Nat.min_eq_left hinside]
    exact hrest

/-- The paragraph is over the budget, and no group is open. -/
theorem textLoop_paragraph
    (hplan : FollowsPlan estimateTokens maxTokens content overlapTokens paras)
    (hcontent : content ++ paragraphSeparator =
      textThrough finished ++ (para :: paras).flatMap (· ++ paragraphSeparator))
    (hover : maxTokens < estimateTokens para)
    (hrewind : NoRewind overlapTokens (finished ++ ⟨.paragraph, para⟩ ::
      parts estimateTokens maxTokens overlapTokens none 0 paras)) :
    textLoop estimateTokens maxTokens content overlapTokens (byteLen (textThrough finished))
        (byteLen (textThrough finished)) 0 (byteLen (textThrough finished)) (para :: paras) =
      placeParts estimateTokens maxTokens content (byteLen (textThrough finished))
        (⟨.paragraph, para⟩ :: parts estimateTokens maxTokens overlapTokens none 0 paras) := by
  obtain ⟨b, hc, hstart, hend⟩ := at_paragraph hcontent
  have hrest := @textLoop_after _ _ _ _ _ _ _ hplan hcontent (finished ++ [⟨.paragraph, para⟩])
    (textThrough_append _ _) (by rwa [List.append_assoc])
  rw [textLoop]
  dsimp only
  rw [hstart, hend, if_pos hover, if_neg (by omega), pushWordGroups_eq hc, hrest, placeParts]
  show _ = (wordGroupTexts estimateTokens maxTokens para).bind _
  cases wordGroupTexts estimateTokens maxTokens para with
  | none => rfl
  | some texts => rfl

/-- The paragraph opens a group. -/
theorem textLoop_opens
    (hplan : FollowsPlan estimateTokens maxTokens content overlapTokens paras)
    (hcontent : content ++ paragraphSeparator =
      textThrough finished ++ (para :: paras).flatMap (· ++ paragraphSeparator))
    (hover : ¬ maxTokens < estimateTokens para)
    (hrewind : NoRewind overlapTokens (finished ++ parts estimateTokens maxTokens overlapTokens
      (some para) (estimateTokens para + separatorTokens) paras)) :
    textLoop estimateTokens maxTokens content overlapTokens (byteLen (textThrough finished))
        (byteLen (textThrough finished)) 0 (byteLen (textThrough finished)) (para :: paras) =
      placeParts estimateTokens maxTokens content (byteLen (textThrough finished))
        (parts estimateTokens maxTokens overlapTokens (some para)
          (estimateTokens para + separatorTokens) paras) := by
  obtain ⟨b, hc, hstart, hend⟩ := at_paragraph hcontent
  have hrest := @hplan finished (some para) (estimateTokens para + separatorTokens)
    (min (byteLen (textThrough finished) + byteLen para + 2) (byteLen content))
    (by rw [hcontent]; simp [openText, List.append_assoc]) (by simp [separatorTokens])
    (by rw [byteLen_append, byteLen_openText, ← Nat.add_assoc]) hrewind
  rw [byteLen_append, byteLen_openText] at hrest
  rw [textLoop]
  dsimp only
  rw [hstart, hend, if_neg hover, if_neg (by simp), Nat.zero_add]
  exact hrest

section Group

variable {g : List Char} (hbefore : textThrough finished ++ openText (some g) = before)
include hbefore

/-- Where the open group ends. -/
theorem byteLen_before :
    byteLen (textThrough finished) + byteLen g + 2 = byteLen before := by
  rw [← hbefore, byteLen_append, byteLen_openText, Nat.add_assoc]

theorem pushGroup_eq (hcontent : content ++ paragraphSeparator =
      before ++ (para :: paras).flatMap (· ++ paragraphSeparator)) :
    pushSlice estimateTokens maxTokens content (byteLen (textThrough finished))
        (byteLen before) =
      (sliceTexts estimateTokens maxTokens g).map (place (byteLen (textThrough finished))) := by
  obtain ⟨b, hc, -, -⟩ := at_paragraph hcontent
  rw [← byteLen_before hbefore, Nat.add_assoc]
  exact @pushSlice_eq estimateTokens maxTokens content (textThrough finished) g (para ++ b)
    (by rw [hc, ← hbefore]; simp [openText, List.append_assoc])

/-- The paragraph is over the budget: the group is pushed first. -/
theorem textLoop_group
    (hplan : FollowsPlan estimateTokens maxTokens content overlapTokens paras)
    (hcontent : content ++ paragraphSeparator =
      before ++ (para :: paras).flatMap (· ++ paragraphSeparator))
    (htokens : 0 < tokens) (hover : maxTokens < estimateTokens para)
    (hrewind : NoRewind overlapTokens (finished ++ ⟨.group, g⟩ :: ⟨.paragraph, para⟩ ::
      parts estimateTokens maxTokens overlapTokens none 0 paras)) :
    textLoop estimateTokens maxTokens content overlapTokens (byteLen (textThrough finished))
        (byteLen before) tokens (byteLen before) (para :: paras) =
      placeParts estimateTokens maxTokens content (byteLen (textThrough finished))
        (⟨.group, g⟩ :: ⟨.paragraph, para⟩ ::
          parts estimateTokens maxTokens overlapTokens none 0 paras) := by
  obtain ⟨b, hc, hstart, hend⟩ := at_paragraph hcontent
  have hopen := byteLen_before hbefore
  have hrest := @textLoop_after _ _ _ _ _ _ _ hplan hcontent
    (finished ++ [⟨.group, g⟩] ++ [⟨.paragraph, para⟩])
    (by rw [textThrough_append, textThrough_append, ← hbefore, openText])
    (by simpa using hrewind)
  rw [textLoop]
  dsimp only
  rw [hstart, hend, if_pos hover, if_pos ⟨by omega, htokens⟩, pushGroup_eq hbefore hcontent,
    pushWordGroups_eq hc, hrest, placeParts, placeParts]
  dsimp only
  rw [hopen]
  show _ = (sliceTexts estimateTokens maxTokens g).bind _
  cases sliceTexts estimateTokens maxTokens g with
  | none => rfl
  | some texts =>
    show _ = ((wordGroupTexts estimateTokens maxTokens para).bind _).bind _
    cases wordGroupTexts estimateTokens maxTokens para with
    | none => rfl
    | some texts' =>
      cases placeParts estimateTokens maxTokens content (byteLen before + byteLen para + 2)
        (parts estimateTokens maxTokens overlapTokens none 0 paras) <;> rfl

/-- The paragraph does not fit: the group is pushed, and nothing is rewound. -/
theorem textLoop_flushed
    (hplan : FollowsPlan estimateTokens maxTokens content overlapTokens paras)
    (hcontent : content ++ paragraphSeparator =
      before ++ (para :: paras).flatMap (· ++ paragraphSeparator))
    (hover : ¬ maxTokens < estimateTokens para)
    (hflush : maxTokens < tokens + estimateTokens para)
    (hrewind : NoRewind overlapTokens (finished ++ ⟨.flushed, g⟩ ::
      parts estimateTokens maxTokens overlapTokens (some para)
        (overlapTokens + separatorTokens + (estimateTokens para + separatorTokens)) paras)) :
    textLoop estimateTokens maxTokens content overlapTokens (byteLen (textThrough finished))
        (byteLen before) tokens (byteLen before) (para :: paras) =
      placeParts estimateTokens maxTokens content (byteLen (textThrough finished))
        (⟨.flushed, g⟩ :: parts estimateTokens maxTokens overlapTokens (some para)
          (overlapTokens + separatorTokens + (estimateTokens para + separatorTokens)) paras) := by
  obtain ⟨b, hc, hstart, hend⟩ := at_paragraph hcontent
  have hopen := byteLen_before hbefore
  have hthrough : textThrough (finished ++ [⟨.flushed, g⟩]) = before := by
    rw [textThrough_append, ← hbefore, openText]
  have hoverlap : estimateOverlapBytes content (byteLen before) overlapTokens = some 0 := by
    refine estimateOverlapBytes_zero hc (hrewind.imp_right fun h => ?_)
    rw [← hthrough]
    exact h finished g _ rfl
  have hrest := @hplan (finished ++ [⟨.flushed, g⟩]) (some para)
    (overlapTokens + separatorTokens + (estimateTokens para + separatorTokens))
    (min (byteLen before + byteLen para + 2) (byteLen content))
    (by rw [hthrough, hcontent]; simp [openText, List.append_assoc])
    ⟨fun _ => rfl, fun _ => by rw [separatorTokens]; omega⟩
    (by rw [byteLen_append, byteLen_openText, hthrough, ← Nat.add_assoc])
    (by simpa using hrewind)
  have hsep : min separatorTokens (maxTokens + 1) = separatorTokens :=
    Nat.min_eq_left (Nat.le_add_left _ _)
  rw [byteLen_append, byteLen_openText, hthrough] at hrest
  rw [textLoop]
  dsimp only
  rw [hstart, hend, if_neg hover, if_pos ⟨hflush, by omega⟩, pushGroup_eq hbefore hcontent,
    hoverlap, placeParts]
  dsimp only
  rw [hopen, hsep]
  show _ = (sliceTexts estimateTokens maxTokens g).bind _
  cases sliceTexts estimateTokens maxTokens g with
  | none => rfl
  | some texts =>
    show (textLoop _ _ _ _ (byteLen before - 0) (byteLen before - 0 + _) _ _ _).bind _ = _
    rw [Nat.sub_zero, hrest]
    rfl

/-- The paragraph joins the group. -/
theorem textLoop_joins
    (hplan : FollowsPlan estimateTokens maxTokens content overlapTokens paras)
    (hcontent : content ++ paragraphSeparator =
      before ++ (para :: paras).flatMap (· ++ paragraphSeparator))
    (hover : ¬ maxTokens < estimateTokens para)
    (hflush : ¬ maxTokens < tokens + estimateTokens para)
    (hrewind : NoRewind overlapTokens (finished ++ parts estimateTokens maxTokens overlapTokens
      (some (g ++ (paragraphSeparator ++ para)))
      (tokens + (estimateTokens para + separatorTokens)) paras)) :
    textLoop estimateTokens maxTokens content overlapTokens (byteLen (textThrough finished))
        (byteLen before) tokens (byteLen before) (para :: paras) =
      placeParts estimateTokens maxTokens content (byteLen (textThrough finished))
        (parts estimateTokens maxTokens overlapTokens
          (some (g ++ (paragraphSeparator ++ para)))
          (tokens + (estimateTokens para + separatorTokens)) paras) := by
  obtain ⟨b, hc, hstart, hend⟩ := at_paragraph hcontent
  have hlonger : byteLen (textThrough finished ++
      openText (some (g ++ (paragraphSeparator ++ para)))) =
        byteLen before + (byteLen para + 2) := by
    rw [← hbefore]
    simp only [openText, byteLen_append, Nat.add_assoc]
    rfl
  have hrest := @hplan finished (some (g ++ (paragraphSeparator ++ para)))
    (tokens + (estimateTokens para + separatorTokens))
    (min (byteLen before + byteLen para + 2) (byteLen content))
    (by rw [hcontent, ← hbefore]; simp [openText, List.append_assoc])
    ⟨fun _ => rfl, fun _ => by rw [separatorTokens]; omega⟩
    (by rw [hlonger, Nat.add_assoc]) hrewind
  rw [hlonger] at hrest
  rw [textLoop]
  dsimp only
  rw [hstart, hend, if_neg hover, if_neg (fun h => hflush h.1)]
  exact hrest

end Group

end Paragraph

theorem textLoop_eq {content : List Char} {overlapTokens : Nat} {paras : List (List Char)} :
    FollowsPlan estimateTokens maxTokens content overlapTokens paras := by
  induction paras with
  | nil => exact followsPlan_nil
  | cons para paras ih =>
    intro finished group tokens cursor hcontent htokens hcursor hrewind
    rw [← List.append_assoc] at hcontent
    obtain ⟨-, -, hstart, -⟩ := at_paragraph hcontent
    obtain rfl := hcursor.trans hstart
    cases group with
    | none =>
      obtain rfl : tokens = 0 := by simpa using htokens
      rw [openText, List.append_nil] at hcontent ⊢
      rw [parts] at hrewind ⊢
      by_cases hover : maxTokens < estimateTokens para
      · rw [if_pos hover] at hrewind ⊢
        exact textLoop_paragraph ih hcontent hover hrewind
      · rw [if_neg hover] at hrewind ⊢
        exact textLoop_opens ih hcontent hover hrewind
    | some g =>
      rw [parts] at hrewind ⊢
      by_cases hover : maxTokens < estimateTokens para
      · rw [if_pos hover] at hrewind ⊢
        exact textLoop_group rfl ih hcontent (by simpa using htokens) hover hrewind
      · rw [if_neg hover] at hrewind ⊢
        by_cases hflush : maxTokens < tokens + estimateTokens para
        · rw [if_pos hflush] at hrewind ⊢
          exact textLoop_flushed rfl ih hcontent hover hflush hrewind
        · rw [if_neg hflush] at hrewind ⊢
          exact textLoop_joins rfl ih hcontent hover hflush hrewind

/-- Paragraphs with a separator after each are the text with one at its end. -/
theorem split_flatMap (content : List Char) : content ++ paragraphSeparator =
    (split paragraphSeparator content).flatMap (· ++ paragraphSeparator) := by
  have hjoin {s : List Char} {ps : List (List Char)} (hs : IsSplit paragraphSeparator s ps) :
      s ++ paragraphSeparator = ps.flatMap (· ++ paragraphSeparator) := by
    induction hs with
    | last s => simp
    | cons p rest ih =>
      rw [List.flatMap_cons, ← ih]
      simp only [List.append_assoc]
  exact hjoin (split_isSplit paragraphSeparator content)

/-- While nothing is rewound the chunker returns the chunks of the parts. -/
theorem textChunk_eq {content : List Char} {overlapTokens : Nat}
    (h : NoRewind overlapTokens (partsOf estimateTokens maxTokens overlapTokens content)) :
    (TextChunker.mk maxTokens overlapTokens).chunk estimateTokens content =
      placeParts estimateTokens maxTokens content 0
        (partsOf estimateTokens maxTokens overlapTokens content) :=
  @textLoop_eq estimateTokens maxTokens content overlapTokens _ [] none 0 0
    (split_flatMap content) (by simp) (Nat.zero_min _).symm h

end Plan

end Arags.Embedding
