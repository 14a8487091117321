import Arags.Lib.Slices
import Arags.Lib.Stars
import Mathlib.Data.List.Forall2

/-!
# Arags.Embedding.PipelineGlob

The patterns of the indexing pipeline, `arags-embedding/src/pipeline/files.rs`.

* `wildcardComponent` — `*` in a component, by a table.
* `componentMatch`    — `**` for any run of components, by recursion.
* `pathMatches`, `pathIsIgnored` — a pattern that forces a path in, patterns that keep it out.
* `pipeline_glob`     — what each of them holds of.
-/

namespace Arags.Pipeline

open Text Stars

/-- The pieces between the slashes, without the empty ones. -/
def components (s : List Char) : List (List Char) := (split ['/'] s).filter fun n => !n.isEmpty

/-- `dp`, row by row; the result is its last cell. -/
def wildcardComponent (pat comp : List Char) : Bool :=
  if pat = comp then true
  else if '*' ∉ pat then false
  else (lastRow (· = '*') (fun p c => p == c) comp pat).getD comp.length false

def doubleStar : List Char := ['*', '*']

def componentMatch : List (List Char) → List (List Char) → Bool
  | [], rel => rel.isEmpty
  | p :: pat, rel =>
    if p = doubleStar then pat.isEmpty || rel.tails.any fun rest => componentMatch pat rest
    else
      match rel with
      | [] => false
      | r :: rel => wildcardComponent p r && componentMatch pat rel

def pathMatches (pattern rel : List Char) : Bool :=
  let pcomp := components pattern
  let rcomp := components rel
  if pcomp.isEmpty then false
  else componentMatch pcomp rcomp ||
    (List.range' 1 (rcomp.length - 1)).any fun i => componentMatch pcomp (rcomp.take i)

def pathForceMatches (patterns : List (List Char)) (rel : List Char) : Bool :=
  patterns.any fun p => pathMatches p rel

def pathIsIgnored (patterns : List (List Char)) (rel : List Char) : Bool :=
  let rcomp := components rel
  patterns.any fun p =>
    match components p with
    | [] => false
    | [pc] => rcomp.any fun seg => wildcardComponent pc seg
    | pcomp =>
      if rcomp.length < pcomp.length then false
      else (pcomp.zip rcomp).all fun x => wildcardComponent x.1 x.2

/-! ## What they are for -/

/-- `comp` is `pat` with each `*` replaced by some string. -/
abbrev Wildcard (pat comp : List Char) : Prop := Fills (· = '*') Eq pat comp

/-- The components match one by one, `**` any run of them. -/
abbrev Matches (pat rel : List (List Char)) : Prop := Fills (· = doubleStar) Wildcard pat rel

/-- A directory above `rel`. -/
def IsAncestor (dir rel : List (List Char)) : Prop := dir <+: rel ∧ dir ≠ [] ∧ dir ≠ rel

/-- The pattern matches the path or an ancestor of it. -/
def MatchesAt (pattern rel : List Char) : Prop :=
  Matches (components pattern) (components rel) ∨
    ∃ dir, IsAncestor dir (components rel) ∧ Matches (components pattern) dir

/-- A pattern of one component matches any component, a longer one, by `Front`, a prefix. -/
def IgnoredBy (Front : List (List Char) → List (List Char) → Prop) (pattern rel : List Char) :
    Prop :=
  (∃ pc seg, components pattern = [pc] ∧ seg ∈ components rel ∧ Wildcard pc seg) ∨
    1 < (components pattern).length ∧ ∃ front, front <+: components rel ∧
      Front (components pattern) front

/-! ## Components -/

theorem wildcardComponent_iff (pat comp : List Char) :
    wildcardComponent pat comp = true ↔ Wildcard pat comp := by
  rw [wildcardComponent]
  split
  next heq =>
    subst heq
    exact iff_of_true rfl (fills_self fun _ _ _ => rfl)
  next hne =>
    split
    next hstar =>
      refine iff_of_false Bool.false_ne_true fun h => hne (eq_of_fills h ?_)
      rintro c hc rfl
      exact hstar hc
    next => exact table_correct (fun p c => beq_iff_eq) pat

theorem matches_star {pat rel : List (List Char)} : Matches (doubleStar :: pat) rel ↔
    ∃ w rest, rel = w ++ rest ∧ Matches pat rest :=
  @fills_star _ _ (· = doubleStar) Wildcard doubleStar pat rel rfl

theorem matches_one {p : List Char} (h : p ≠ doubleStar) {pat rel : List (List Char)} :
    Matches (p :: pat) rel ↔ ∃ r rest, rel = r :: rest ∧ Wildcard p r ∧ Matches pat rest :=
  @fills_one _ _ (· = doubleStar) Wildcard p pat rel h

theorem componentMatch_star (pat rel : List (List Char)) : componentMatch (doubleStar :: pat) rel =
    (pat.isEmpty || rel.tails.any fun rest => componentMatch pat rest) := by
  cases rel <;> exact if_pos rfl

theorem componentMatch_one {p : List Char} (h : p ≠ doubleStar) (pat : List (List Char))
    (r : List Char) (rel : List (List Char)) :
    componentMatch (p :: pat) (r :: rel) = (wildcardComponent p r && componentMatch pat rel) :=
  if_neg h

theorem componentMatch_nil {p : List Char} (h : p ≠ doubleStar) (pat : List (List Char)) :
    componentMatch (p :: pat) [] = false := if_neg h

theorem componentMatch_iff (pat rel : List (List Char)) :
    componentMatch pat rel = true ↔ Matches pat rel := by
  induction pat generalizing rel with
  | nil => exact List.isEmpty_iff.trans fills_nil.symm
  | cons p pat ih =>
    by_cases hstar : p = doubleStar
    · subst hstar
      rw [componentMatch_star, matches_star, Bool.or_eq_true, List.any_eq_true]
      constructor
      · rintro (hnil | ⟨rest, hrest, hm⟩)
        · rw [List.isEmpty_iff.mp hnil]
          exact ⟨rel, [], (List.append_nil rel).symm, .nil⟩
        · obtain ⟨w, rfl⟩ := (List.mem_tails _ _).mp hrest
          exact ⟨w, rest, rfl, (ih rest).mp hm⟩
      · rintro ⟨w, rest, rfl, hm⟩
        exact .inr ⟨rest, (List.mem_tails _ _).mpr (List.suffix_append w rest), (ih rest).mpr hm⟩
    · rw [matches_one hstar]
      cases rel with
      | nil =>
        rw [componentMatch_nil hstar]
        refine iff_of_false Bool.false_ne_true ?_
        rintro ⟨r, rest, heq, -⟩
        cases heq
      | cons r rel =>
        rw [componentMatch_one hstar, Bool.and_eq_true, wildcardComponent_iff, ih]
        constructor
        · rintro ⟨hr, hm⟩
          exact ⟨r, rel, rfl, hr, hm⟩
        · rintro ⟨r, rel, ⟨⟩, hr, hm⟩
          exact ⟨hr, hm⟩

/-! ## Paths -/

/-- The prefixes that the loop tries. -/
theorem mem_ancestors {dir rel : List (List Char)} :
    (∃ i ∈ List.range' 1 (rel.length - 1), rel.take i = dir) ↔ IsAncestor dir rel := by
  constructor
  · rintro ⟨i, hi, rfl⟩
    have hlen : (rel.take i).length = i := by
      rw [List.mem_range'_1] at hi
      rw [List.length_take]
      omega
    rw [List.mem_range'_1] at hi
    refine ⟨List.take_prefix i rel, ?_, ?_⟩
    · intro hnil
      rw [hnil, List.length_nil] at hlen
      omega
    · intro heq
      rw [heq] at hlen
      omega
  · rintro ⟨⟨below, rfl⟩, hne, hproper⟩
    have hdir := List.length_pos_iff.mpr hne
    have hbelow : 0 < below.length := by
      apply List.length_pos_iff.mpr
      rintro rfl
      exact hproper (List.append_nil dir).symm
    refine ⟨dir.length, ?_, List.take_left⟩
    rw [List.mem_range'_1, List.length_append]
    omega

theorem pathMatches_iff (pattern rel : List Char) :
    pathMatches pattern rel = true ↔ components pattern ≠ [] ∧ MatchesAt pattern rel := by
  have hloop : ((List.range' 1 ((components rel).length - 1)).any fun i =>
      componentMatch (components pattern) ((components rel).take i)) = true ↔
      ∃ dir, IsAncestor dir (components rel) ∧ Matches (components pattern) dir := by
    rw [List.any_eq_true]
    constructor
    · rintro ⟨i, hi, hm⟩
      exact ⟨_, mem_ancestors.mp ⟨i, hi, rfl⟩, (componentMatch_iff _ _).mp hm⟩
    · rintro ⟨dir, hdir, hm⟩
      obtain ⟨i, hi, rfl⟩ := mem_ancestors.mpr hdir
      exact ⟨i, hi, (componentMatch_iff _ _).mpr hm⟩
  rw [pathMatches, MatchesAt, ← hloop, ← componentMatch_iff, ← Bool.or_eq_true]
  split
  next hnil => simp [List.isEmpty_iff.mp hnil]
  next hne => exact (and_iff_right fun h => hne (List.isEmpty_iff.mpr h)).symm

theorem all_zip_iff {pcomp rcomp : List (List Char)} (h : pcomp.length ≤ rcomp.length) :
    ((pcomp.zip rcomp).all fun x => wildcardComponent x.1 x.2) = true ↔
      ∃ front, front <+: rcomp ∧ List.Forall₂ Wildcard pcomp front := by
  induction pcomp generalizing rcomp with
  | nil => exact iff_of_true rfl ⟨[], List.nil_prefix, .nil⟩
  | cons p pcomp ih =>
    cases rcomp with
    | nil => exact absurd h (Nat.not_succ_le_zero _)
    | cons r rcomp =>
      rw [List.zip_cons_cons, List.all_cons, Bool.and_eq_true, wildcardComponent_iff,
        ih (Nat.le_of_succ_le_succ h)]
      constructor
      · rintro ⟨hr, front, hfront, hall⟩
        exact ⟨r :: front, List.cons_prefix_cons.mpr ⟨rfl, hfront⟩, .cons hr hall⟩
      · rintro ⟨front, hfront, hall⟩
        cases hall with
        | cons hr hall =>
          obtain ⟨rfl, hrest⟩ := List.cons_prefix_cons.mp hfront
          exact ⟨hr, _, hrest, hall⟩

theorem pathIsIgnored_iff (patterns : List (List Char)) (rel : List Char) :
    pathIsIgnored patterns rel = true ↔
      ∃ p ∈ patterns, IgnoredBy (List.Forall₂ Wildcard) p rel := by
  rw [pathIsIgnored, List.any_eq_true]
  apply exists_congr
  intro p
  apply and_congr_right
  intro _
  rw [IgnoredBy]
  split
  next hnil => simp [hnil]
  next pc hone => simp [hone, wildcardComponent_iff]
  next hnil hone =>
    have hlen : 1 < (components p).length := by
      match h : components p with
      | [] => exact absurd h hnil
      | [pc] => exact absurd h (hone pc)
      | pc :: pc' :: pcomp => simp
    have hnone : ¬ ∃ pc seg, components p = [pc] ∧ seg ∈ components rel ∧ Wildcard pc seg := by
      rintro ⟨pc, -, heq, -⟩
      exact hone pc heq
    rw [or_iff_right hnone, and_iff_right hlen]
    split
    next hlt =>
      refine iff_of_false Bool.false_ne_true ?_
      rintro ⟨front, hfront, hall⟩
      have hle := hfront.length_le
      have heq := hall.length_eq
      omega
    next hge => exact all_zip_iff (Nat.le_of_not_lt hge)

/-! ## The patterns -/

/-- A pattern without components matches nothing; in a longer pattern that ignores, `**` is one
component. -/
theorem pipeline_glob (pat comp : List Char) (pats comps : List (List Char))
    (pattern rel : List Char) (patterns : List (List Char)) :
    (wildcardComponent pat comp = true ↔ Wildcard pat comp) ∧
      (componentMatch pats comps = true ↔ Matches pats comps) ∧
      (pathMatches pattern rel = true ↔ components pattern ≠ [] ∧ MatchesAt pattern rel) ∧
      (pathIsIgnored patterns rel = true ↔
        ∃ p ∈ patterns, IgnoredBy (List.Forall₂ Wildcard) p rel) :=
  ⟨wildcardComponent_iff pat comp, componentMatch_iff pats comps, pathMatches_iff pattern rel,
    pathIsIgnored_iff patterns rel⟩

theorem pipeline_glob_not :
    ¬ (pathMatches [] [] = true ↔ MatchesAt [] []) ∧
      ¬ (pathIsIgnored ["**/b".toList] "a/x/b".toList = true ↔
        ∃ p ∈ ["**/b".toList], IgnoredBy Matches p "a/x/b".toList) := by
  constructor
  · intro h
    have hroot : MatchesAt [] [] := .inl Fills.nil
    exact absurd (h.mpr hroot) (by decide)
  · intro h
    have hfront : Matches (components "**/b".toList) ["a".toList, "x".toList, "b".toList] :=
      (componentMatch_iff _ _).mp (by decide)
    have hignored : IgnoredBy Matches "**/b".toList "a/x/b".toList :=
      .inr ⟨by decide, _, List.prefix_refl _, hfront⟩
    exact absurd (h.mpr ⟨_, List.mem_singleton_self _, hignored⟩) (by decide)

end Arags.Pipeline
