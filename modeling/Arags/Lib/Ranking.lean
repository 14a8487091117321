import Mathlib.Data.List.Induction
import Mathlib.Data.List.Sort
import Mathlib.Order.Defs.LinearOrder

/-!
# Ranking

The first `k` elements of a stable sort by a score.

* `best f l`  — `l` by descending score; of equals the one that came first.
* `ahead`     — how many elements an occurrence has to let go first.
* `mem_take_best` — an element is among the first `k` exactly when it has an occurrence with less
  than `k` elements ahead of it.
* `aheadOf`, `mem_take_best_filterMap` — the same of a list before `filterMap`.
* `bestBy`, `stable_iff_untied` — a sort that breaks ties by a key, and when the first `k` of every
  stable sort are those of this one.
* `firstBest` — the first element of highest score, as a running maximum finds it.
-/

namespace Ranking

variable {α β : Type} [LinearOrder β] (f : α → β)

def best (l : List α) : List α := l.insertionSort fun a b => f b ≤ f a

/-- An occurrence of `x` between `pre` and `post`. -/
def ahead (pre post : List α) (x : α) : Nat :=
  pre.countP (fun y => decide (f x ≤ f y)) + post.countP fun y => decide (f x < f y)

variable {f}

theorem best_sorted (l : List α) : (best f l).Pairwise fun a b => f b ≤ f a := by
  have : Std.Total fun a b : α => f b ≤ f a := ⟨fun a b => le_total (f b) (f a)⟩
  have : IsTrans α fun a b : α => f b ≤ f a := ⟨fun a b c hab hbc => hbc.trans hab⟩
  exact List.pairwise_insertionSort _ l

theorem countP_best (l : List α) (p : α → Bool) : (best f l).countP p = l.countP p :=
  (List.perm_insertionSort _ l).countP_eq p

/-- In a sorted list the elements above a score come first. -/
theorem sorted_split {l : List α} (h : l.Pairwise fun a b => f b ≤ f a) (a : α) :
    (∀ b ∈ l.takeWhile fun b => ¬ f b ≤ f a, f a < f b) ∧
      ∀ b ∈ l.dropWhile fun b => ¬ f b ≤ f a, f b ≤ f a := by
  constructor
  · intro b hb
    simpa using List.all_eq_true.mp List.all_takeWhile b hb
  · induction l with
    | nil => exact fun b hb => nomatch hb
    | cons c l ih =>
      obtain ⟨hc, hl⟩ := List.pairwise_cons.mp h
      rw [List.dropWhile_cons]
      split
      · exact ih hl
      · rename_i hle
        have hca : f c ≤ f a := by simpa using hle
        intro b hb
        rcases List.mem_cons.mp hb with rfl | hb
        · exact hca
        · exact (hc b hb).trans hca

/-- Where the sort puts a first element among the others. -/
theorem best_cons (a : α) (l : List α) : ∃ above below, best f l = above ++ below ∧
    best f (a :: l) = above ++ a :: below ∧ (∀ b ∈ above, f a < f b) ∧
    (∀ b ∈ below, f b ≤ f a) ∧ above.length = l.countP fun b => decide (f a < f b) := by
  obtain ⟨habove, hbelow⟩ := sorted_split (best_sorted (f := f) l) a
  have hinsert : best f (a :: l) = ((best f l).takeWhile fun b => ¬ f b ≤ f a) ++
      a :: (best f l).dropWhile fun b => ¬ f b ≤ f a :=
    List.insertionSort_cons_eq_take_drop _ a l
  have hsplit : best f l = ((best f l).takeWhile fun b => ¬ f b ≤ f a) ++
      (best f l).dropWhile fun b => ¬ f b ≤ f a := List.takeWhile_append_dropWhile.symm
  generalize ((best f l).takeWhile fun b => ¬ f b ≤ f a) = above at *
  generalize ((best f l).dropWhile fun b => ¬ f b ≤ f a) = below at *
  refine ⟨above, below, hsplit, hinsert, habove, hbelow, ?_⟩
  have hall : above.countP (fun b => decide (f a < f b)) = above.length :=
    List.countP_eq_length.mpr fun b hb => decide_eq_true (habove b hb)
  have hnone : below.countP (fun b => decide (f a < f b)) = 0 :=
    List.countP_eq_zero.mpr fun b hb => by simpa using hbelow b hb
  rw [← countP_best (f := f) l, hsplit, List.countP_append, hall, hnone, Nat.add_zero]

/-- The occurrences in a list with one more element. -/
theorem occurrence_cons {a x : α} {l : List α} {k : Nat} :
    (∃ pre post, a :: l = pre ++ x :: post ∧ ahead f pre post x < k) ↔
      (a = x ∧ l.countP (fun y => decide (f x < f y)) < k) ∨
      ∃ pre post, l = pre ++ x :: post ∧
        ahead f pre post x + (if f x ≤ f a then 1 else 0) < k := by
  have hcons : ∀ pre post, ahead f (a :: pre) post x =
      ahead f pre post x + (if f x ≤ f a then 1 else 0) := by
    intro pre post
    simp only [ahead, List.countP_cons, decide_eq_true_eq]
    omega
  constructor
  · rintro ⟨pre, post, h, hk⟩
    cases pre with
    | nil =>
      rw [List.nil_append, List.cons.injEq] at h
      obtain ⟨rfl, rfl⟩ := h
      refine .inl ⟨rfl, ?_⟩
      simpa [ahead] using hk
    | cons b pre =>
      rw [List.cons_append, List.cons.injEq] at h
      obtain ⟨rfl, hl⟩ := h
      exact .inr ⟨pre, post, hl, by rwa [hcons] at hk⟩
  · rintro (⟨rfl, hk⟩ | ⟨pre, post, rfl, hk⟩)
    · exact ⟨[], l, rfl, by simpa [ahead] using hk⟩
    · exact ⟨a :: pre, post, rfl, by rwa [hcons]⟩

theorem mem_take_best {l : List α} {x : α} {k : Nat} :
    x ∈ (best f l).take k ↔ ∃ pre post, l = pre ++ x :: post ∧ ahead f pre post x < k := by
  induction l generalizing k with
  | nil => simp [best]
  | cons a l ih =>
    obtain ⟨above, below, hl, hal, habove, hbelow, hlength⟩ := best_cons (f := f) a l
    rw [occurrence_cons, hal, List.take_append, List.mem_append]
    have hih : ∀ k, (x ∈ above.take k ∨ x ∈ below.take (k - above.length)) ↔
        ∃ pre post, l = pre ++ x :: post ∧ ahead f pre post x < k := by
      intro k
      rw [← ih, hl, List.take_append, List.mem_append]
    by_cases hxa : f x ≤ f a
    · -- the elements above the first one are above `x`
      have hnot : ∀ k, x ∉ above.take k := fun k hx =>
        absurd (habove x (List.mem_of_mem_take hx)) (not_lt.mpr hxa)
      have hrest : (∃ pre post, l = pre ++ x :: post ∧ ahead f pre post x + 1 < k) ↔
          x ∈ below.take (k - 1 - above.length) := by
        refine Iff.trans ?_ ((hih (k - 1)).symm.trans (or_iff_right (hnot (k - 1))))
        refine exists_congr fun pre => exists_congr fun post => and_congr_right fun _ => ?_
        omega
      simp only [hxa, if_true, hrest, or_iff_right (hnot k)]
      cases hm : k - above.length with
      | zero =>
        have hnone : k - 1 - above.length = 0 := by omega
        rw [hnone, List.take_zero]
        refine iff_of_false List.not_mem_nil ?_
        rintro (⟨rfl, hk⟩ | hk)
        · omega
        · cases hk
      | succ m =>
        have hsome : k - 1 - above.length = m := by omega
        rw [hsome, List.take_succ_cons, List.mem_cons]
        have hfirst : x = a ↔ a = x ∧ l.countP (fun y => decide (f x < f y)) < k := by
          constructor
          · rintro rfl
            exact ⟨rfl, by omega⟩
          · exact fun h => h.1.symm
        rw [hfirst]
    · have hax : f a < f x := not_le.mp hxa
      have hne : a ≠ x := fun h => lt_irrefl _ (h ▸ hax)
      have hnot : ∀ m, x ∉ (a :: below).take m := by
        intro m hx
        rcases List.mem_cons.mp (List.mem_of_mem_take hx) with h | h
        · exact hne h.symm
        · exact absurd (hbelow x h) hxa
      have hnone : ∀ m, x ∉ below.take m := fun m hx =>
        absurd (hbelow x (List.mem_of_mem_take hx)) hxa
      simp only [hne, hxa, if_false, false_and, false_or, Nat.add_zero, ← hih,
        or_iff_left (hnot _), or_iff_left (hnone _)]

section FilterMap

variable {γ : Type} (g : γ → Option α)

/-- How many of the others `g` puts ahead. -/
def aheadOf (f : α → β) (pre post : List γ) (x : α) : Nat :=
  pre.countP (fun c => (g c).any fun y => decide (f x ≤ f y)) +
    post.countP fun c => (g c).any fun y => decide (f x < f y)

variable {g}

theorem ahead_filterMap (pre post : List γ) (x : α) :
    ahead f (pre.filterMap g) (post.filterMap g) x = aheadOf g f pre post x := by
  have hany : ∀ p : α → Bool, (fun c => ((g c).map p).getD false) = fun c => (g c).any p := by
    intro p
    funext c
    cases g c <;> rfl
  unfold ahead aheadOf
  rw [List.countP_filterMap, List.countP_filterMap, hany, hany]

theorem mem_take_best_filterMap {l : List γ} {x : α} {k : Nat} :
    x ∈ (best f (l.filterMap g)).take k ↔
      ∃ pre c post, l = pre ++ c :: post ∧ g c = some x ∧ aheadOf g f pre post x < k := by
  rw [mem_take_best]
  constructor
  · rintro ⟨pre, post, hl, hk⟩
    obtain ⟨pre, rest, rfl, rfl, hrest⟩ := List.filterMap_eq_append_iff.mp hl
    obtain ⟨skipped, c, post, rfl, hskipped, hc, rfl⟩ := List.filterMap_eq_cons_iff.mp hrest
    refine ⟨pre ++ skipped, c, post, (List.append_assoc ..).symm, hc, ?_⟩
    rw [← ahead_filterMap, List.filterMap_append,
      (List.filterMap_eq_nil_iff (l := skipped)).mpr hskipped, List.append_nil]
    exact hk
  · rintro ⟨pre, c, post, rfl, hc, hk⟩
    refine ⟨pre.filterMap g, post.filterMap g, ?_, by rwa [ahead_filterMap]⟩
    rw [List.filterMap_append, List.filterMap_cons_some hc]

end FilterMap

/-! ## Ties -/

section Ties

variable {γ : Type} [LinearOrder γ]

/-- By descending score, of equals the one with the smaller key. -/
def bestBy (f : α → β) (g : α → γ) (l : List α) : List α :=
  l.insertionSort fun a b => f b < f a ∨ f a = f b ∧ g a ≤ g b

theorem bestBy_sorted (g : α → γ) (l : List α) :
    (bestBy f g l).Pairwise fun a b => f b < f a ∨ f a = f b ∧ g a ≤ g b := by
  have : Std.Total fun a b : α => f b < f a ∨ f a = f b ∧ g a ≤ g b := by
    refine ⟨fun a b => ?_⟩
    obtain hlt | heq | hgt := lt_trichotomy (f a) (f b)
    · exact .inr (.inl hlt)
    · exact (le_total (g a) (g b)).imp (fun h => .inr ⟨heq, h⟩) fun h => .inr ⟨heq.symm, h⟩
    · exact .inl (.inl hgt)
  have : IsTrans α fun a b : α => f b < f a ∨ f a = f b ∧ g a ≤ g b := by
    refine ⟨fun a b c hab hbc => ?_⟩
    obtain hab | ⟨hab, hgab⟩ := hab
    · obtain hbc | ⟨hbc, -⟩ := hbc
      · exact .inl (hbc.trans hab)
      · exact .inl (hbc ▸ hab)
    · obtain hbc | ⟨hbc, hgbc⟩ := hbc
      · exact .inl (hab ▸ hbc)
      · exact .inr ⟨hab.trans hbc, hgab.trans hgbc⟩
  exact List.pairwise_insertionSort _ l

theorem bestBy_perm (g : α → γ) (l : List α) : (bestBy f g l).Perm l := List.perm_insertionSort _ l

theorem best_perm (l : List α) : (best f l).Perm l := List.perm_insertionSort _ l

/-- With keys the order does not depend on the list that is sorted. -/
theorem bestBy_congr {g : α → γ} {l m : List α} (h : l.Perm m)
    (hg : ∀ a ∈ l, ∀ b ∈ l, g a = g b → a = b) : bestBy f g l = bestBy f g m := by
  refine List.Perm.eq_of_pairwise ?_ (bestBy_sorted g l) (bestBy_sorted g m)
    ((bestBy_perm g l).trans (h.trans (bestBy_perm g m).symm))
  intro a b ha hb hab hba
  have ha := (bestBy_perm g l).mem_iff.mp ha
  have hb := h.mem_iff.mpr ((bestBy_perm g m).mem_iff.mp hb)
  obtain hlt | ⟨heq, hgab⟩ := hab
  · obtain hlt' | ⟨heq, -⟩ := hba
    · exact absurd hlt (lt_asymm hlt')
    · exact absurd hlt (heq ▸ lt_irrefl _)
  · obtain hlt | ⟨-, hgba⟩ := hba
    · exact absurd hlt (heq ▸ lt_irrefl _)
    · exact hg a ha b hb (le_antisymm hgab hgba)

variable (f) in
/-- Of equal scores none is among the first `k`. -/
def Untied (l : List α) (k : Nat) : Prop :=
  ∀ a ∈ l, ∀ b ∈ l, a ≠ b → f a = f b → k ≤ l.countP fun c => decide (f a < f c)

theorem Untied.perm {l m : List α} {k : Nat} (h : l.Perm m) (hl : Untied f l k) : Untied f m k := by
  intro a ha b hb hne heq
  rw [← h.countP_eq]
  exact hl a (h.mem_iff.mpr ha) b (h.mem_iff.mpr hb) hne heq

/-- Two sorted lists of the same elements begin with the same ones. -/
theorem take_eq_of_untied {l m : List α} {k : Nat} (hperm : l.Perm m)
    (hl : l.Pairwise fun a b => f b ≤ f a) (hm : m.Pairwise fun a b => f b ≤ f a)
    (h : Untied f l k) : l.take k = m.take k := by
  induction k generalizing l m with
  | zero => rw [List.take_zero, List.take_zero]
  | succ k ih =>
    cases l with
    | nil => rw [← hperm.nil_eq]
    | cons a l =>
      cases m with
      | nil => exact absurd hperm.symm.nil_eq nofun
      | cons b m =>
        obtain ⟨hla, hl⟩ := List.pairwise_cons.mp hl
        obtain ⟨hmb, hmrest⟩ := List.pairwise_cons.mp hm
        have htop : ∀ c ∈ a :: l, f c ≤ f a := by
          intro c hc
          obtain rfl | hc := List.mem_cons.mp hc
          · exact le_refl _
          · exact hla c hc
        have heq : f a = f b := by
          refine le_antisymm ?_ (htop b (hperm.mem_iff.mpr List.mem_cons_self))
          obtain rfl | hc := List.mem_cons.mp (hperm.mem_iff.mp (List.mem_cons_self (a := a)))
          · exact le_refl _
          · exact hmb a hc
        have hab : a = b := by
          by_contra hne
          have hk := h a List.mem_cons_self b (hperm.mem_iff.mpr List.mem_cons_self) hne heq
          have hnone : (a :: l).countP (fun c => decide (f a < f c)) = 0 :=
            List.countP_eq_zero.mpr fun c hc => by simpa using htop c hc
          omega
        subst hab
        rw [List.take_succ_cons, List.take_succ_cons]
        refine congrArg (a :: ·) (ih hperm.cons_inv hl hmrest fun c hc d hd hne hcd => ?_)
        have hk := h c (List.mem_cons_of_mem a hc) d (List.mem_cons_of_mem a hd) hne hcd
        rw [List.countP_cons] at hk
        split at hk <;> omega

theorem bestBy_best_sorted (g : α → γ) (l : List α) :
    (bestBy f g l).Pairwise fun a b => f b ≤ f a :=
  (bestBy_sorted g l).imp fun h => h.elim le_of_lt fun h => h.1.ge

/-- A stable sort of every arrangement of a list begins like the sort with keys exactly when no
equal scores are among the first `k`. -/
theorem stable_iff_untied (g : α → γ) (l : List α) (k : Nat) :
    (∀ m, m.Perm l → (best f m).take k = (bestBy f g l).take k) ↔ Untied f l k := by
  classical
  constructor
  · intro h a ha b hb hne heq
    by_contra hlt
    rw [Nat.not_le] at hlt
    -- whichever of the two comes first in the arrangement takes the place after the higher scores
    have hplace : ∀ c ∈ l, f c = f a →
        ((bestBy f g l).take k)[l.countP fun y => decide (f a < f y)]? = some c := by
      intro c hc hca
      obtain ⟨above, below, -, hsplit, -, -, hlen⟩ := best_cons (f := f) c (l.erase c)
      have hcount : l.countP (fun y => decide (f a < f y)) = above.length := by
        rw [hlen, hca, (List.perm_cons_erase hc).countP_eq, List.countP_cons, hca]
        simp
      rw [← h _ (List.perm_cons_erase hc).symm, hsplit, hcount,
        List.getElem?_take_of_lt (hcount ▸ hlt), List.getElem?_append_right (Nat.le_refl _),
        Nat.sub_self]
      rfl
    have hsame := (hplace a ha rfl).symm.trans (hplace b hb heq.symm)
    exact hne (Option.some.inj hsame)
  · intro h m hm
    exact take_eq_of_untied ((best_perm m).trans (hm.trans (bestBy_perm g l).symm))
      (best_sorted m) (bestBy_best_sorted g l) (h.perm (hm.symm.trans (best_perm m).symm))

end Ties

/-! ## The first one -/

section FirstBest

variable (f) in
def firstBest (l : List α) : Option α :=
  l.foldl (fun b a => if b.all fun c => decide (f c < f a) then some a else b) none

theorem firstBest_concat (l : List α) (a : α) : firstBest f (l ++ [a]) =
    if (firstBest f l).all fun c => decide (f c < f a) then some a else firstBest f l := by
  unfold firstBest
  rw [List.foldl_append]
  rfl

theorem firstBest_eq_none {l : List α} : firstBest f l = none ↔ l = [] := by
  induction l using List.reverseRecOn with
  | nil => exact ⟨fun _ => rfl, fun _ => rfl⟩
  | append_singleton l a ih =>
    rw [firstBest_concat]
    refine iff_of_false (fun h => ?_) (List.append_ne_nil_of_right_ne_nil l (List.cons_ne_nil a []))
    split at h
    · cases h
    · rename_i hall
      rw [h] at hall
      exact hall rfl

theorem firstBest_some {l : List α} {a : α} (h : firstBest f l = some a) :
    ∃ pre post, l = pre ++ a :: post ∧ (∀ b ∈ pre, f b < f a) ∧ ∀ b ∈ post, f b ≤ f a := by
  induction l using List.reverseRecOn generalizing a with
  | nil => cases h
  | append_singleton l x ih =>
    rw [firstBest_concat] at h
    split at h
    · rename_i hall
      obtain rfl := Option.some.inj h
      refine ⟨l, [], rfl, fun b hb => ?_, fun b hb => nomatch hb⟩
      cases hl : firstBest f l with
      | none =>
        rw [firstBest_eq_none.mp hl] at hb
        cases hb
      | some c =>
        rw [hl] at hall
        have hc : f c < f x := of_decide_eq_true hall
        obtain ⟨pre, post, rfl, hpre, hpost⟩ := ih hl
        obtain hb | hb := List.mem_append.mp hb
        · exact (hpre b hb).trans hc
        · obtain rfl | hb := List.mem_cons.mp hb
          · exact hc
          · exact (hpost b hb).trans_lt hc
    · rename_i hall
      rw [h] at hall
      have hle : f x ≤ f a := not_lt.mp fun hlt => hall (decide_eq_true hlt)
      obtain ⟨pre, post, rfl, hpre, hpost⟩ := ih h
      refine ⟨pre, post ++ [x], by rw [List.append_assoc, List.cons_append], hpre, fun b hb => ?_⟩
      obtain hb | hb := List.mem_append.mp hb
      · exact hpost b hb
      · rw [List.mem_singleton.mp hb]
        exact hle

/-- It is one of the list, and no other has a higher score. -/
theorem firstBest_max {l : List α} {a : α} (h : firstBest f l = some a) :
    a ∈ l ∧ ∀ b ∈ l, f b ≤ f a := by
  obtain ⟨pre, post, rfl, hpre, hpost⟩ := firstBest_some h
  refine ⟨List.mem_append_right pre List.mem_cons_self, fun b hb => ?_⟩
  obtain hb | hb := List.mem_append.mp hb
  · exact (hpre b hb).le
  · obtain rfl | hb := List.mem_cons.mp hb
    · exact le_refl _
    · exact hpost b hb

/-- An element of highest score is found when it stands first. -/
theorem firstBest_cons {l : List α} {a : α} (h : ∀ b ∈ l, f b ≤ f a) :
    firstBest f (a :: l) = some a := by
  cases hl : firstBest f (a :: l) with
  | none => exact absurd (firstBest_eq_none.mp hl) (List.cons_ne_nil a l)
  | some b =>
    obtain ⟨pre, post, hsplit, hpre, -⟩ := firstBest_some hl
    cases pre with
    | nil => exact congrArg some (List.cons.inj hsplit).1.symm
    | cons c pre =>
      obtain ⟨rfl, rfl⟩ := List.cons.inj hsplit
      have hle := h b (List.mem_append_right pre List.mem_cons_self)
      exact absurd (hpre a List.mem_cons_self) (not_lt.mpr hle)

theorem firstBest_map {γ : Type} (g : γ → α) (l : List γ) :
    firstBest f (l.map g) = (firstBest (fun c => f (g c)) l).map g := by
  induction l using List.reverseRecOn with
  | nil => rfl
  | append_singleton l x ih =>
    rw [List.map_append, List.map_singleton, firstBest_concat, firstBest_concat, ih]
    cases firstBest (fun c => f (g c)) l with
    | none => rfl
    | some c =>
      simp only [Option.map_some, Option.all_some]
      split
      · rfl
      · rfl

end FirstBest

end Ranking
