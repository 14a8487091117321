import Mathlib.Data.List.Infix
import Arags.Lib.Paths

/-!
# Arags.Ignore.Glob

The glob matcher of `gitignore.rs`, and what it means on path components.

* `globImpl`    — the matcher, on characters.
* `pathMatches` — what git says a pattern matches: one component for each segment, any number of
  them for `**`, at least one when it is the last.
* `globImpl_joinPath` — on documented patterns the two agree.
-/

namespace Arags.Ignore

open Paths

/-! ## The matcher -/

/-- Where a `*` can end: up to the next slash. -/
def starSkips : List Char → List (List Char)
  | [] => [[]]
  | c :: s => (c :: s) :: if c = '/' then [] else starSkips s

/-- Where a `**` can end: at the start of the text and after each slash. -/
def segmentStarts : List Char → List (List Char)
  | [] => []
  | c :: s => if c = '/' then afterSlashes (c :: s) else (c :: s) :: afterSlashes (c :: s)

def globImpl : List Char → List Char → Bool
  | [], text => text.isEmpty
  | '*' :: '*' :: '/' :: rest, text =>
    globImpl rest [] || (segmentStarts text).any fun suffix => globImpl rest suffix
  | '*' :: '*' :: rest, text =>
    globImpl rest [] || (segmentStarts text).any fun suffix => globImpl rest suffix
  | '*' :: pat, text => (starSkips text).any fun suffix => globImpl pat suffix
  | '?' :: pat, text =>
    match text with
    | [] => false
    | c :: text => c != '/' && globImpl pat text
  | p :: pat, text =>
    match text with
    | [] => false
    | c :: text => c == p && globImpl pat text

/-! ## Components -/

/-- A pattern without slashes, on a component. -/
def segMatches : List Char → List Char → Bool
  | [], text => text.isEmpty
  | '*' :: pat, text => text.tails.any fun suffix => segMatches pat suffix
  | '?' :: pat, text =>
    match text with
    | [] => false
    | _ :: text => segMatches pat text
  | p :: pat, text =>
    match text with
    | [] => false
    | c :: text => c == p && segMatches pat text

def doubleStar : List Char := ['*', '*']

def pathMatches : List (List Char) → List (List Char) → Bool
  | [], path => path.isEmpty
  | seg :: segs, path =>
    if seg = doubleStar then
      if segs.isEmpty then !path.isEmpty else path.tails.any fun rest => pathMatches segs rest
    else
      match path with
      | [] => false
      | n :: path => segMatches seg n && pathMatches segs path

/-- Segments of the documented patterns: `**` only by itself. -/
def IsSegment (g : List Char) : Prop :=
  g ≠ [] ∧ '/' ∉ g ∧ (g = doubleStar ∨ ¬ doubleStar <:+: g)

instance (g : List Char) : Decidable (IsSegment g) :=
  inferInstanceAs (Decidable (g ≠ [] ∧ '/' ∉ g ∧ (g = doubleStar ∨ ¬ doubleStar <:+: g)))

/-! ## One segment -/

theorem starSkips_append {n t : List Char} (hn : '/' ∉ n)
    (ht : t.head? ≠ none → t.head? = some '/') :
    starSkips (n ++ t) = n.tails.map (· ++ t) := by
  induction n with
  | nil =>
    cases t with
    | nil => rfl
    | cons c t =>
      obtain rfl : c = '/' := Option.some.inj (ht (by simp))
      rfl
  | cons c n ih =>
    rw [List.mem_cons, not_or] at hn
    rw [List.cons_append, starSkips, if_neg (Ne.symm hn.1), ih hn.2]
    rfl

theorem globImpl_star {pat : List Char} (h : pat.head? ≠ some '*') (text : List Char) :
    globImpl ('*' :: pat) text = (starSkips text).any fun suffix => globImpl pat suffix := by
  cases pat with
  | nil => rfl
  | cons p pat =>
    have hp : p ≠ '*' := fun hp => h (by rw [hp]; rfl)
    simp [globImpl, hp]

theorem globImpl_cons {p : Char} (hstar : p ≠ '*') (hany : p ≠ '?') (pat text : List Char) :
    globImpl (p :: pat) text =
      match text with
      | [] => false
      | c :: text => c == p && globImpl pat text := by
  cases text <;> simp [globImpl, hstar]

theorem globImpl_char {p : Char} (hstar : p ≠ '*') (hany : p ≠ '?') (pat : List Char) (c : Char)
    (text : List Char) : globImpl (p :: pat) (c :: text) = (c == p && globImpl pat text) :=
  globImpl_cons hstar hany pat (c :: text)

theorem globImpl_char_nil {p : Char} (hstar : p ≠ '*') (pat : List Char) :
    globImpl (p :: pat) [] = false := by
  by_cases hany : p = '?'
  · rw [hany]
    rfl
  · exact globImpl_cons hstar hany pat []

theorem segMatches_star (pat text : List Char) :
    segMatches ('*' :: pat) text = text.tails.any fun suffix => segMatches pat suffix := rfl

theorem segMatches_any (pat : List Char) (c : Char) (text : List Char) :
    segMatches ('?' :: pat) (c :: text) = segMatches pat text := rfl

theorem segMatches_cons {p : Char} (hstar : p ≠ '*') (hany : p ≠ '?') (pat text : List Char) :
    segMatches (p :: pat) text =
      match text with
      | [] => false
      | c :: text => c == p && segMatches pat text := by
  cases text <;> simp [segMatches]

theorem segMatches_char {p : Char} (hstar : p ≠ '*') (hany : p ≠ '?') (pat : List Char) (c : Char)
    (text : List Char) : segMatches (p :: pat) (c :: text) = (c == p && segMatches pat text) :=
  segMatches_cons hstar hany pat (c :: text)

theorem segMatches_char_nil {p : Char} (hstar : p ≠ '*') (pat : List Char) :
    segMatches (p :: pat) [] = false := by
  by_cases hany : p = '?'
  · rw [hany]
    rfl
  · exact segMatches_cons hstar hany pat []

/-- A star takes a front of the component, if the rest of the segment takes what is left. -/
theorem globImpl_star_segment {g k : List Char} (hstars : ¬ doubleStar <:+: '*' :: g)
    (hk : k.head? ≠ none → k.head? = some '/') {n t : List Char} (hn : '/' ∉ n)
    (ht : t.head? ≠ none → t.head? = some '/')
    (hrest : ∀ m, '/' ∉ m → globImpl (g ++ k) (m ++ t) = (segMatches g m && globImpl k t)) :
    globImpl ('*' :: (g ++ k)) (n ++ t) = (segMatches ('*' :: g) n && globImpl k t) := by
  have hhead : (g ++ k).head? ≠ some '*' := by
    cases g with
    | nil =>
      rw [List.nil_append]
      intro hc
      have := hk (by rw [hc]; exact Option.some_ne_none _)
      rw [hc] at this
      cases this
    | cons p' g =>
      intro hc
      obtain rfl : p' = '*' := Option.some.inj hc
      exact hstars ⟨[], g, rfl⟩
  rw [globImpl_star hhead, starSkips_append hn ht, List.any_map, segMatches_star]
  have hall : ∀ m ∈ n.tails, ((fun suffix => globImpl (g ++ k) suffix) ∘ (· ++ t)) m =
      (segMatches g m && globImpl k t) := fun m hm =>
    hrest m fun hc => hn (((List.mem_tails _ _).mp hm).subset hc)
  rw [Bool.eq_iff_iff]
  simp only [List.any_eq_true, Bool.and_eq_true]
  constructor
  · rintro ⟨m, hm, hmatch⟩
    rw [hall m hm, Bool.and_eq_true] at hmatch
    exact ⟨⟨m, hm, hmatch.1⟩, hmatch.2⟩
  · rintro ⟨⟨m, hm, hmatch⟩, hend⟩
    exact ⟨m, hm, by rw [hall m hm, hmatch, hend]; rfl⟩

/-- Any other character takes one of the component. -/
theorem globImpl_char_segment {p : Char} {g k : List Char} (hstar : p ≠ '*') (hslash : p ≠ '/')
    {n t : List Char} (hn : '/' ∉ n) (ht : t.head? ≠ none → t.head? = some '/')
    (hrest : ∀ m, '/' ∉ m → globImpl (g ++ k) (m ++ t) = (segMatches g m && globImpl k t)) :
    globImpl (p :: (g ++ k)) (n ++ t) = (segMatches (p :: g) n && globImpl k t) := by
  cases n with
  | nil =>
    rw [List.nil_append, segMatches_char_nil hstar]
    cases t with
    | nil => rw [globImpl_char_nil hstar]; rfl
    | cons c t =>
      obtain rfl : c = '/' := Option.some.inj (ht (by simp))
      by_cases hany : p = '?'
      · rw [hany]
        rfl
      · rw [globImpl_char hstar hany]
        simp [Ne.symm hslash]
  | cons c n =>
    rw [List.mem_cons, not_or] at hn
    rw [List.cons_append]
    by_cases hany : p = '?'
    · subst hany
      show (c != '/' && globImpl (g ++ k) (n ++ t)) = _
      rw [hrest n hn.2]
      rw [segMatches_any, bne_iff_ne.mpr (Ne.symm hn.1), Bool.true_and]
    · rw [globImpl_char hstar hany, segMatches_char hstar hany, hrest n hn.2, Bool.and_assoc]

/-- A segment takes a component; the rest of the pattern goes on at the slash or the end. -/
theorem globImpl_segment {g k : List Char} (hg : '/' ∉ g) (hstars : ¬ doubleStar <:+: g)
    (hk : k.head? ≠ none → k.head? = some '/') {t : List Char}
    (ht : t.head? ≠ none → t.head? = some '/') : ∀ {n : List Char}, '/' ∉ n →
      globImpl (g ++ k) (n ++ t) = (segMatches g n && globImpl k t) := by
  induction g with
  | nil =>
    intro n hn
    rw [List.nil_append]
    cases n with
    | nil => rfl
    | cons c n =>
      rw [List.mem_cons, not_or] at hn
      cases k with
      | nil => rfl
      | cons p k =>
        obtain rfl : p = '/' := Option.some.inj (hk (by simp))
        rw [List.cons_append, globImpl_char (by decide) (by decide),
          beq_false_of_ne (Ne.symm hn.1)]
        rfl
  | cons p g ih =>
    intro n hn
    rw [List.mem_cons, not_or] at hg
    have hinfix : ¬ doubleStar <:+: g := fun h => hstars (h.trans (List.suffix_cons p g).isInfix)
    have hrest (m : List Char) (hm : '/' ∉ m) := ih hg.2 hinfix hm
    rw [List.cons_append]
    by_cases hstar : p = '*'
    · subst hstar
      exact globImpl_star_segment hstars hk hn ht hrest
    · exact globImpl_char_segment hstar (Ne.symm hg.1) hn ht hrest

/-! ## Whole patterns -/

theorem segMatches_of_nil {g : List Char} (h : segMatches g [] = true) (n : List Char)
    (hne : g ≠ []) : segMatches g n = true := by
  cases g with
  | nil => exact absurd rfl hne
  | cons p g =>
    by_cases hstar : p = '*'
    · subst hstar
      rw [segMatches_star, List.any_eq_true] at h ⊢
      obtain ⟨m, hm, hmatch⟩ := h
      obtain rfl : m = [] := List.suffix_nil.mp ((List.mem_tails _ _).mp hm)
      exact ⟨[], (List.mem_tails _ _).mpr List.nil_suffix, hmatch⟩
    · rw [segMatches_char_nil hstar] at h
      cases h

theorem pathMatches_cons (seg : List Char) (segs path : List (List Char)) :
    pathMatches (seg :: segs) path =
      if seg = doubleStar then
        if segs.isEmpty then !path.isEmpty else path.tails.any fun rest => pathMatches segs rest
      else
        match path with
        | [] => false
        | n :: path => segMatches seg n && pathMatches segs path := by
  cases path <;> rfl

theorem pathMatches_doubleStar (segs path : List (List Char)) :
    pathMatches (doubleStar :: segs) path =
      if segs.isEmpty then !path.isEmpty else path.tails.any fun rest => pathMatches segs rest :=
  (pathMatches_cons doubleStar segs path).trans (if_pos rfl)

theorem pathMatches_segment {g : List Char} (h : g ≠ doubleStar) (segs : List (List Char))
    (n : List Char) (path : List (List Char)) :
    pathMatches (g :: segs) (n :: path) = (segMatches g n && pathMatches segs path) :=
  (pathMatches_cons g segs (n :: path)).trans (if_neg h)

theorem pathMatches_nil {segs : List (List Char)} (hne : segs ≠ []) :
    pathMatches segs [] = false := by
  induction segs with
  | nil => exact absurd rfl hne
  | cons seg segs ih =>
    by_cases hdouble : seg = doubleStar
    · rw [hdouble, pathMatches_doubleStar]
      cases segs with
      | nil => rfl
      | cons s segs =>
        rw [List.isEmpty_cons, if_neg Bool.false_ne_true, List.tails, List.any_cons,
          List.any_nil, ih (List.cons_ne_nil s segs)]
        rfl
    · exact (pathMatches_cons seg segs []).trans (if_neg hdouble)

theorem slashed_head (ns : List (List Char)) : (slashed ns).head? ≠ none →
    (slashed ns).head? = some '/' := by
  cases ns with
  | nil => exact fun h => absurd rfl h
  | cons n ns => exact fun _ => rfl

theorem globImpl_doubleStar (segs : List (List Char)) (text : List Char) :
    globImpl (doubleStar ++ slashed segs) text =
      (globImpl (joinPath segs) [] ||
        (segmentStarts text).any fun s => globImpl (joinPath segs) s) := by
  cases segs with
  | nil => rfl
  | cons s segs => rw [slashed_cons]; rfl

/-- A pattern that matches the empty text matches every component. -/
theorem pathMatches_of_empty {segs : List (List Char)} (hsegs : ∀ g ∈ segs, IsSegment g)
    (hne : segs ≠ []) (h : globImpl (joinPath segs) [] = true) (n : List Char) :
    pathMatches segs [n] = true := by
  induction segs with
  | nil => exact absurd rfl hne
  | cons g segs ih =>
    obtain ⟨⟨hg, hslash, hstars⟩, hrest⟩ := List.forall_mem_cons.mp hsegs
    rw [joinPath] at h
    by_cases hdouble : g = doubleStar
    · rw [hdouble, pathMatches_doubleStar]
      cases segs with
      | nil => rfl
      | cons s segs =>
        rw [hdouble, globImpl_doubleStar, segmentStarts, List.any_nil, Bool.or_false] at h
        rw [List.isEmpty_cons, if_neg Bool.false_ne_true, List.any_eq_true]
        exact ⟨[n], List.mem_cons_self, ih hrest (List.cons_ne_nil s segs) h⟩
    · have hmatch := globImpl_segment hslash (hstars.resolve_left hdouble) (slashed_head segs)
        (t := []) (fun h => absurd rfl h) (n := []) (by simp)
      rw [List.append_nil, h] at hmatch
      obtain ⟨hseg, hend⟩ := Bool.and_eq_true_iff.mp hmatch.symm
      rw [pathMatches_segment hdouble, segMatches_of_nil hseg n hg]
      cases segs with
      | nil => rfl
      | cons s segs =>
        rw [slashed_cons, globImpl_char_nil (by decide)] at hend
        cases hend

theorem segmentStarts_joinPath {ns : List (List Char)} (h : Components ns) :
    segmentStarts (joinPath ns) = (suffixes ns).map joinPath := by
  cases ns with
  | nil => rfl
  | cons n ns =>
    obtain ⟨hn, hns⟩ := List.forall_mem_cons.mp h
    cases hcn : n with
    | nil => exact absurd hcn hn.1
    | cons c n' =>
      have hc : c ≠ '/' := by
        rintro rfl
        exact hn.2 (by rw [hcn]; exact List.mem_cons_self)
      have hafter := afterSlashes_append hn.2 (slashed ns)
      rw [hcn, List.cons_append] at hafter
      rw [joinPath, List.cons_append, segmentStarts, if_neg hc, hafter, afterSlashes_slashed hns]
      rfl

theorem mem_suffixes {α : Type} {l p : List α} : p ∈ suffixes l ↔ p ∈ l.tails ∧ p ≠ [] := by
  induction l with
  | nil => simp [suffixes]
  | cons a l ih =>
    rw [suffixes, List.mem_cons, ih, List.tails, List.mem_cons]
    constructor
    · rintro (rfl | h)
      · exact ⟨.inl rfl, List.cons_ne_nil a l⟩
      · exact ⟨.inr h.1, h.2⟩
    · rintro ⟨rfl | h, hne⟩
      · exact .inl rfl
      · exact .inr ⟨h, hne⟩

/-- Two stars in front match what some suffix of the components does. -/
theorem globImpl_joinPath_doubleStar {segs : List (List Char)} (hsegs : ∀ g ∈ segs, IsSegment g)
    (hne : segs ≠ []) {ns : List (List Char)} (hns : Components ns) (hnil : ns ≠ [])
    (hrest : ∀ {p : List (List Char)}, Components p → p ≠ [] →
      globImpl (joinPath segs) (joinPath p) = pathMatches segs p) :
    globImpl (doubleStar ++ slashed segs) (joinPath ns) =
      ns.tails.any fun rest => pathMatches segs rest := by
  have hsuffix {p : List (List Char)} (hp : p ∈ suffixes ns) :
      globImpl (joinPath segs) (joinPath p) = pathMatches segs p := by
    obtain ⟨htail, hpne⟩ := mem_suffixes.mp hp
    exact hrest (fun n hn => hns n (((List.mem_tails _ _).mp htail).subset hn)) hpne
  rw [globImpl_doubleStar, segmentStarts_joinPath hns, Bool.eq_iff_iff, Bool.or_eq_true,
    List.any_map, List.any_eq_true, List.any_eq_true]
  constructor
  · rintro (hempty | ⟨p, hp, hmatch⟩)
    · obtain ⟨n, hn⟩ := Option.isSome_iff_exists.mp (List.getLast?_isSome.mpr hnil)
      obtain ⟨pre, rfl⟩ := List.getLast?_eq_some_iff.mp hn
      exact ⟨[n], (List.mem_tails _ _).mpr (List.suffix_append pre [n]),
        pathMatches_of_empty hsegs hne hempty n⟩
    · exact ⟨p, (mem_suffixes.mp hp).1, by rw [← hsuffix hp]; exact hmatch⟩
  · rintro ⟨p, hp, hmatch⟩
    have hpne : p ≠ [] := by
      rintro rfl
      rw [pathMatches_nil hne] at hmatch
      cases hmatch
    have hp' := mem_suffixes.mpr ⟨hp, hpne⟩
    exact .inr ⟨p, hp', by rw [Function.comp_apply, hsuffix hp']; exact hmatch⟩

/-- On documented patterns and paths the matcher is git's. -/
theorem globImpl_joinPath {segs : List (List Char)} (hsegs : ∀ g ∈ segs, IsSegment g)
    (hne : segs ≠ []) : ∀ {ns : List (List Char)}, Components ns → ns ≠ [] →
      globImpl (joinPath segs) (joinPath ns) = pathMatches segs ns := by
  induction segs with
  | nil => exact absurd rfl hne
  | cons g segs ih =>
    intro ns hns hnil
    obtain ⟨⟨hg, hslash, hstars⟩, hrest⟩ := List.forall_mem_cons.mp hsegs
    rw [joinPath]
    by_cases hdouble : g = doubleStar
    · rw [hdouble, pathMatches_doubleStar]
      cases segs with
      | nil =>
        rw [globImpl_doubleStar, segmentStarts_joinPath hns]
        cases ns with
        | nil => exact absurd rfl hnil
        | cons n ns => rfl
      | cons s segs =>
        have hmore : s :: segs ≠ [] := List.cons_ne_nil s segs
        rw [List.isEmpty_cons, if_neg Bool.false_ne_true]
        exact globImpl_joinPath_doubleStar hrest hmore hns hnil (ih hrest hmore)
    · cases ns with
      | nil => exact absurd rfl hnil
      | cons n ns =>
        obtain ⟨hn, hns⟩ := List.forall_mem_cons.mp hns
        rw [pathMatches_segment hdouble, joinPath, globImpl_segment hslash
          (hstars.resolve_left hdouble) (slashed_head segs) (slashed_head ns) hn.2]
        refine congrArg (segMatches g n && ·) ?_
        cases segs with
        | nil =>
          cases ns with
          | nil => rfl
          | cons m ns => rfl
        | cons s segs =>
          cases ns with
          | nil =>
            rw [pathMatches_nil (List.cons_ne_nil s segs)]
            exact globImpl_char_nil (by decide) _
          | cons m ns =>
            rw [slashed_cons, slashed_cons, globImpl_char (by decide) (by decide),
              ih hrest (List.cons_ne_nil s segs) hns (List.cons_ne_nil m ns)]
            rfl

end Arags.Ignore
