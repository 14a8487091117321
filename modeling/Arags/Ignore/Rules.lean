import Arags.Lib.Slices
import Arags.Ignore.Glob

/-!
# Arags.Ignore.Rules

The lines of a `.gitignore` and the rules that `gitignore.rs` makes of them.

* `parseLine`, `IgnoreRule.matches` — the code.
* `IgnoreLine` — the lines of the documented subset, `IgnorePattern` those with a pattern.
* `names`, `reaches` — a path that a pattern names, and one below a path that it names.
* `matches_rule` — a rule matches both.
-/

namespace Arags.Ignore

open Text Paths

structure IgnoreRule where
  pattern : List Char
  base : List Char
  dirOnly : Bool
  anchored : Bool
  negated : Bool
deriving DecidableEq

def trimEndSlashes (s : List Char) : List Char := (s.reverse.dropWhile (· == '/')).reverse

def parseLine (line base : List Char) : Option IgnoreRule :=
  let trimmed := trimChars line
  if trimmed.isEmpty || trimmed.head? == some '#' then none
  else
    let negated := trimmed.head? == some '!'
    let rest := if negated then trimmed.tail else trimmed
    let dirOnly := rest.getLast? == some '/'
    let rest := if dirOnly then trimEndSlashes rest else rest
    if rest.isEmpty then none
    else
      let rest := if rest.head? == some '\\' && 1 < byteLen rest then rest.tail else rest
      some {
        pattern := rest.dropWhile (· == '/')
        base := base
        dirOnly := dirOnly
        anchored := rest.contains '/'
        negated := negated }

def relativeTo (base rel : List Char) : Option (List Char) :=
  if base = ['.'] ∨ base = [] then some rel else stripPrefix (base ++ ['/']) rel

def allSuffixSegments (rel : List Char) : List (List Char) := rel :: afterSlashes rel

def IgnoreRule.matches (self : IgnoreRule) (rel : List Char) (isDir : Bool) : Bool :=
  if self.dirOnly && !isDir then false
  else
    match relativeTo self.base rel with
    | none => false
    | some r =>
      (if self.anchored then r :: slashPrefixes r else allSuffixSegments r).any
        fun candidate => globImpl self.pattern candidate

/-! ## Documented lines -/

def patternBody (leading : Bool) (segs : List (List Char)) : List Char :=
  (if leading then ['/'] else []) ++ joinPath segs

def patternText (negated leading dirOnly : Bool) (segs : List (List Char)) : List Char :=
  (if negated then ['!'] else []) ++ (patternBody leading segs ++ if dirOnly then ['/'] else [])

/-- A line with a pattern, in the subset that the module documents. -/
structure IgnorePattern where
  negated : Bool
  /-- A slash in front. -/
  leading : Bool
  /-- A slash at the end. -/
  dirOnly : Bool
  segs : List (List Char)
  segs_ne : segs ≠ []
  segments : ∀ g ∈ segs, IsSegment g
  plain : ∀ g ∈ segs, '\\' ∉ g ∧ '[' ∉ g ∧ ']' ∉ g
  trimmed : trimChars (patternText negated leading dirOnly segs) =
    patternText negated leading dirOnly segs
  opens : negated = false → (patternText negated leading dirOnly segs).head? ≠ some '#' ∧
    (patternText negated leading dirOnly segs).head? ≠ some '!'

namespace IgnorePattern

variable (p : IgnorePattern)

def text : List Char := patternText p.negated p.leading p.dirOnly p.segs

/-- A slash at the beginning or in the middle. -/
def anchored : Bool := p.leading || decide (1 < p.segs.length)

def rule (base : List Char) : IgnoreRule where
  pattern := joinPath p.segs
  base := base
  dirOnly := p.dirOnly
  anchored := p.anchored
  negated := p.negated

/-- The pattern names a path, as seen from the directory of its file. -/
def names (path : List (List Char)) (isDir : Bool) : Bool :=
  (!p.dirOnly || isDir) && pathMatches (if p.anchored then p.segs else doubleStar :: p.segs) path

/-- With a slash, the code also tries the directories above the path. -/
def reaches (path : List (List Char)) (isDir : Bool) : Bool :=
  p.anchored && (!p.dirOnly || isDir) &&
    (properPrefixes path).any fun above => pathMatches p.segs above

end IgnorePattern

inductive IgnoreLine where
  | blank (spaces : Nat)
  | comment (text : List Char)
  | pattern (p : IgnorePattern)

def IgnoreLine.text : IgnoreLine → List Char
  | blank spaces => List.replicate spaces ' '
  | comment text => '#' :: text
  | pattern p => p.text

def IgnoreLine.pattern? : IgnoreLine → Option IgnorePattern
  | pattern p => some p
  | _ => none

/-! ## Parsing -/

theorem components_segs (p : IgnorePattern) : Components p.segs :=
  fun g hg => ⟨(p.segments g hg).1, (p.segments g hg).2.1⟩

theorem trimChars_cons {c : Char} (hc : isWhiteSpace c = false) (s : List Char) :
    ∃ r, trimChars (c :: s) = c :: r := by
  rw [trimChars, List.dropWhile_cons_of_neg (by simp [hc]), List.reverse_cons]
  induction s.reverse with
  | nil => exact ⟨[], by rw [List.nil_append, List.dropWhile_cons_of_neg (by simp [hc])]; rfl⟩
  | cons d t ih =>
    rw [List.cons_append]
    by_cases hd : isWhiteSpace d = true
    · rw [List.dropWhile_cons_of_pos hd]
      exact ih
    · rw [List.dropWhile_cons_of_neg hd]
      exact ⟨t.reverse ++ [d], by simp⟩

theorem trimEndSlashes_append {s : List Char} (h : s.getLast? ≠ some '/') :
    trimEndSlashes (s ++ ['/']) = s := by
  rw [trimEndSlashes, List.reverse_append, List.reverse_singleton, List.singleton_append,
    List.dropWhile_cons_of_pos (by rfl)]
  cases hs : s.reverse with
  | nil => rw [List.reverse_eq_nil_iff.mp hs]; rfl
  | cons c t =>
    have hlast : s.getLast? = some c := by
      rw [← List.head?_reverse, hs]
      rfl
    rw [List.dropWhile_cons_of_neg (by
      intro hc
      exact h (hlast.trans (congrArg some (by simpa using hc)))), ← hs, List.reverse_reverse]

/-! What a line says without `!` and without the slash at its end. -/

section Body

variable (p : IgnorePattern)

theorem patternBody_ne_nil : patternBody p.leading p.segs ≠ [] := by
  rw [patternBody, Ne, List.append_eq_nil_iff]
  exact fun h => joinPath_ne_nil (components_segs p) p.segs_ne h.2

theorem patternBody_head : (patternBody p.leading p.segs).head? ≠ some '\\' := by
  obtain ⟨g, segs, hsegs⟩ := List.exists_cons_of_ne_nil p.segs_ne
  have hg : g ∈ p.segs := by rw [hsegs]; exact List.mem_cons_self
  obtain ⟨d, g', hdg⟩ := List.exists_cons_of_ne_nil (p.segments g hg).1
  rw [patternBody, hsegs, joinPath, hdg]
  cases p.leading with
  | true => exact fun h => absurd (Option.some.inj h) (by decide)
  | false =>
    intro hd
    obtain rfl : d = '\\' := Option.some.inj hd
    exact (p.plain g hg).1 (by rw [hdg]; exact List.mem_cons_self)

theorem patternBody_getLast : (patternBody p.leading p.segs).getLast? ≠ some '/' := by
  have hjoin := joinPath_ne_nil (components_segs p) p.segs_ne
  obtain ⟨c, hc⟩ := Option.isSome_iff_exists.mp (List.getLast?_isSome.mpr hjoin)
  rw [patternBody, List.getLast?_append, hc]
  exact fun h => joinPath_getLast_ne (components_segs p) (hc.trans h)

theorem patternBody_dropWhile :
    (patternBody p.leading p.segs).dropWhile (· == '/') = joinPath p.segs := by
  have hself : (joinPath p.segs).dropWhile (· == '/') = joinPath p.segs := by
    obtain ⟨d, t, hdt⟩ :=
      List.exists_cons_of_ne_nil (joinPath_ne_nil (components_segs p) p.segs_ne)
    have hhead := joinPath_head_ne (components_segs p)
    rw [hdt] at hhead ⊢
    rw [List.dropWhile_cons_of_neg]
    exact fun hd => hhead (congrArg some (by simpa using hd))
  rw [patternBody]
  cases p.leading with
  | true =>
    show List.dropWhile _ ('/' :: joinPath p.segs) = _
    rw [List.dropWhile_cons_of_pos (by rfl), hself]
  | false => exact hself

theorem patternBody_slash : (patternBody p.leading p.segs).contains '/' = p.anchored := by
  rw [Bool.eq_iff_iff, List.contains_iff_mem, patternBody, List.mem_append,
    slash_mem_joinPath (components_segs p), IgnorePattern.anchored]
  cases p.leading <;> simp

theorem patternText_ne_nil : p.text ≠ [] := by
  rw [IgnorePattern.text, patternText, Ne, List.append_eq_nil_iff, List.append_eq_nil_iff]
  exact fun h => patternBody_ne_nil p h.2.1

theorem patternText_opens : p.text.head? ≠ some '#' ∧ (p.text.head? == some '!') = p.negated := by
  cases hneg : p.negated with
  | true =>
    rw [IgnorePattern.text, hneg]
    exact ⟨fun h => absurd (Option.some.inj h) (by decide), rfl⟩
  | false =>
    obtain ⟨hhash, hbang⟩ := p.opens hneg
    exact ⟨hhash, beq_eq_false_iff_ne.mpr hbang⟩

end Body

theorem parseLine_pattern (p : IgnorePattern) (base : List Char) :
    parseLine p.text base = some (p.rule base) := by
  obtain ⟨hhash, hneg⟩ := patternText_opens p
  have hopen : (p.text.isEmpty || p.text.head? == some '#') = false := by
    rw [List.isEmpty_eq_false_iff.mpr (patternText_ne_nil p), beq_eq_false_iff_ne.mpr hhash]
    rfl
  have hrest : (if p.negated then p.text.tail else p.text) =
      patternBody p.leading p.segs ++ if p.dirOnly then ['/'] else [] := by
    rw [IgnorePattern.text, patternText]
    cases p.negated <;> rfl
  have hdir : ((patternBody p.leading p.segs ++ if p.dirOnly then ['/'] else []).getLast? ==
      some '/') = p.dirOnly := by
    cases p.dirOnly with
    | true => simp
    | false => simpa using patternBody_getLast p
  have hbody : (if p.dirOnly then
      trimEndSlashes (patternBody p.leading p.segs ++ if p.dirOnly then ['/'] else [])
        else patternBody p.leading p.segs ++ if p.dirOnly then ['/'] else []) =
          patternBody p.leading p.segs := by
    cases p.dirOnly with
    | true => exact trimEndSlashes_append (patternBody_getLast p)
    | false => exact List.append_nil _
  have hescape : ((patternBody p.leading p.segs).head? == some '\\') = false :=
    beq_eq_false_iff_ne.mpr (patternBody_head p)
  unfold parseLine
  dsimp only
  rw [show trimChars p.text = p.text from p.trimmed, hopen, if_neg Bool.false_ne_true, hneg, hrest,
    hdir, hbody, List.isEmpty_eq_false_iff.mpr (patternBody_ne_nil p), if_neg Bool.false_ne_true,
    hescape, Bool.false_and, if_neg Bool.false_ne_true, patternBody_dropWhile, patternBody_slash]
  rfl

/-- Of the documented lines those with a pattern give a rule. -/
theorem parseLine_text (line : IgnoreLine) (base : List Char) :
    parseLine line.text base = line.pattern?.map fun p => p.rule base := by
  cases line with
  | blank spaces =>
    have htrim : trimChars (List.replicate spaces ' ') = [] := by
      rw [trimChars, List.dropWhile_replicate]
      rfl
    rw [IgnoreLine.text, parseLine, htrim]
    rfl
  | comment text =>
    obtain ⟨r, hr⟩ := @trimChars_cons '#' (by decide) text
    rw [IgnoreLine.text, parseLine, hr]
    rfl
  | pattern p => exact parseLine_pattern p base

/-! ## Matching -/

theorem pathText_ne_dot (b : List FileName) : pathText b ≠ ['.'] := by
  cases b with
  | nil => decide
  | cons f b =>
    intro h
    rw [pathText, List.map_cons, joinPath] at h
    cases b with
    | nil => exact f.not_here (by simpa [slashed] using h)
    | cons g b =>
      have hmem : '/' ∈ ['.'] := by
        rw [← h, List.map_cons, slashed_cons]
        exact List.mem_append_right _ List.mem_cons_self
      revert hmem
      decide

theorem relativeTo_pathText {b q : List FileName} (hq : q ≠ []) {r : List Char} :
    relativeTo (pathText b) (pathText q) = some r ↔
      ∃ rest, rest ≠ [] ∧ q = b ++ rest ∧ r = pathText rest := by
  rw [relativeTo]
  cases b with
  | nil =>
    rw [if_pos (.inr rfl)]
    constructor
    · intro h
      exact ⟨q, hq, rfl, (Option.some.inj h).symm⟩
    · rintro ⟨rest, -, rfl, rfl⟩
      rfl
  | cons f b =>
    have hne : pathText (f :: b) ≠ [] :=
      joinPath_ne_nil (components_names (f :: b)) (List.cons_ne_nil _ _)
    rw [if_neg (fun h => h.elim (pathText_ne_dot _) hne), stripPrefix_eq_some, List.append_assoc,
      List.singleton_append, eq_comm, pathText, pathText, joinPath_below (components_names _)
        (components_names _) (by simp)]
    constructor
    · rintro ⟨rest, hrest, hsplit, rfl⟩
      obtain ⟨q₁, q₂, rfl, h₁, h₂⟩ := List.map_eq_append_iff.mp hsplit
      have hinj : Function.Injective FileName.text := fun x y hxy => by
        cases x
        cases y
        cases hxy
        rfl
      rw [List.map_injective_iff.mpr hinj h₁]
      refine ⟨q₂, ?_, rfl, by rw [pathText, h₂]⟩
      rintro rfl
      exact hrest h₂.symm
    · rintro ⟨rest, hrest, rfl, rfl⟩
      exact ⟨rest.map FileName.text, by simpa using hrest, List.map_append, rfl⟩

theorem any_globImpl (p : IgnorePattern) {l : List (List (List Char))}
    (h : ∀ ns ∈ l, Components ns ∧ ns ≠ []) :
    (l.map joinPath).any (fun candidate => globImpl (joinPath p.segs) candidate) =
      l.any fun ns => pathMatches p.segs ns := by
  rw [List.any_map]
  induction l with
  | nil => rfl
  | cons ns l ih =>
    obtain ⟨⟨hcomps, hne⟩, hrest⟩ := List.forall_mem_cons.mp h
    rw [List.any_cons, List.any_cons, ih hrest, Function.comp_apply,
      globImpl_joinPath p.segments p.segs_ne hcomps hne]

theorem any_suffixes (p : IgnorePattern) (ns : List (List Char)) :
    ((suffixes ns).any fun ns => pathMatches p.segs ns) =
      pathMatches (doubleStar :: p.segs) ns := by
  rw [pathMatches_doubleStar, List.isEmpty_eq_false_iff.mpr p.segs_ne,
    if_neg Bool.false_ne_true, Bool.eq_iff_iff, List.any_eq_true, List.any_eq_true]
  constructor
  · rintro ⟨t, ht, hmatch⟩
    exact ⟨t, (mem_suffixes.mp ht).1, hmatch⟩
  · rintro ⟨t, ht, hmatch⟩
    refine ⟨t, mem_suffixes.mpr ⟨ht, ?_⟩, hmatch⟩
    rintro rfl
    rw [pathMatches_nil p.segs_ne] at hmatch
    cases hmatch

/-- The texts that a rule is tried on. -/
theorem any_candidates (p : IgnorePattern) {ns : List (List Char)} (h : Components ns)
    (hne : ns ≠ []) :
    ((if p.anchored then joinPath ns :: slashPrefixes (joinPath ns)
        else allSuffixSegments (joinPath ns)).any
      fun candidate => globImpl (joinPath p.segs) candidate) =
        (pathMatches (if p.anchored then p.segs else doubleStar :: p.segs) ns ||
          (p.anchored && (properPrefixes ns).any fun above => pathMatches p.segs above)) := by
  cases hanch : p.anchored with
  | true =>
    have habove := any_globImpl p (l := properPrefixes ns) fun above hmem => by
      obtain ⟨k, -, -, htake⟩ := mem_properPrefixes.mp hmem
      exact ⟨fun n hn => h n (List.mem_of_mem_take (htake ▸ hn)),
        ne_nil_of_mem_properPrefixes hmem⟩
    rw [if_pos rfl, if_pos rfl, List.any_cons, slashPrefixes_joinPath h, habove,
      globImpl_joinPath p.segments p.segs_ne h hne, Bool.true_and]
  | false =>
    have hsuffixes : allSuffixSegments (joinPath ns) = (suffixes ns).map joinPath := by
      cases ns with
      | nil => exact absurd rfl hne
      | cons n ns =>
        obtain ⟨hn, hns⟩ := List.forall_mem_cons.mp h
        rw [allSuffixSegments, joinPath, afterSlashes_append hn.2, afterSlashes_slashed hns]
        rfl
    have hbelow := any_globImpl p (l := suffixes ns) fun t ht => by
      obtain ⟨htail, htne⟩ := mem_suffixes.mp ht
      exact ⟨fun n hn => h n (((List.mem_tails _ _).mp htail).subset hn), htne⟩
    rw [if_neg Bool.false_ne_true, if_neg Bool.false_ne_true, hsuffixes, hbelow, any_suffixes,
      Bool.false_and, Bool.or_false]

/-- A rule of a file in `b` matches what its pattern names or reaches below `b`. -/
theorem matches_rule (p : IgnorePattern) {b q : List FileName} (hq : q ≠ []) (isDir : Bool) :
    (p.rule (pathText b)).matches (pathText q) isDir = true ↔ ∃ rest, rest ≠ [] ∧ q = b ++ rest ∧
      (p.names (rest.map FileName.text) isDir || p.reaches (rest.map FileName.text) isDir) =
        true := by
  have hrule {r : List Char} (hr : relativeTo (pathText b) (pathText q) = some r)
      (hdir : ¬ (p.dirOnly && !isDir) = true) : (p.rule (pathText b)).matches (pathText q) isDir =
        (if p.anchored then r :: slashPrefixes r else allSuffixSegments r).any
          fun candidate => globImpl (joinPath p.segs) candidate := by
    rw [IgnoreRule.matches]
    show (if (p.dirOnly && !isDir) = true then false else _) = _
    rw [if_neg hdir]
    show (match relativeTo (pathText b) (pathText q) with | none => false | some r => _) = _
    rw [hr]
    rfl
  have hkind (hdir : ¬ (p.dirOnly && !isDir) = true) : (!p.dirOnly || isDir) = true := by
    revert hdir
    cases p.dirOnly <;> cases isDir <;> decide
  by_cases hdir : (p.dirOnly && !isDir) = true
  · have hno : (!p.dirOnly || isDir) = false := by
      revert hdir
      cases p.dirOnly <;> cases isDir <;> decide
    have hfalse : (p.rule (pathText b)).matches (pathText q) isDir = false := if_pos hdir
    rw [hfalse]
    simp [IgnorePattern.names, IgnorePattern.reaches, hno]
  · constructor
    · intro h
      cases hr : relativeTo (pathText b) (pathText q) with
      | none =>
        rw [IgnoreRule.matches] at h
        change (if (p.dirOnly && !isDir) = true then false else match relativeTo (pathText b)
          (pathText q) with | none => false | some r => _) = true at h
        rw [if_neg hdir, hr] at h
        cases h
      | some r =>
        obtain ⟨rest, hrest, hsplit, rfl⟩ := (relativeTo_pathText hq).mp hr
        refine ⟨rest, hrest, hsplit, ?_⟩
        rw [hrule hr hdir, pathText,
          any_candidates p (components_names rest) (by simpa using hrest)] at h
        rw [IgnorePattern.names, IgnorePattern.reaches, hkind hdir, Bool.true_and, Bool.and_true]
        exact h
    · rintro ⟨rest, hrest, hsplit, hmatch⟩
      have hr := (relativeTo_pathText hq).mpr ⟨rest, hrest, hsplit, rfl⟩
      rw [hrule hr hdir, pathText, any_candidates p (components_names rest) (by simpa using hrest)]
      rw [IgnorePattern.names, IgnorePattern.reaches, hkind hdir, Bool.true_and, Bool.and_true]
        at hmatch
      exact hmatch

end Arags.Ignore
