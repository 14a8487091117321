import Mathlib.Data.List.Sort

/-!
# Arags.Lib.LastMatch

Decision lists in which the last rule that matches decides.

* `lastMatch`              — that rule.
* `foldl_eq_lastMatch`     — a loop that overwrites its decision ends with it.
* `insertionSort_by_key`   — a stable sort by a number puts the classes one after the other.
-/

namespace LastMatch

variable {α β : Type}

def lastMatch (p : α → Bool) (l : List α) : Option α := (l.filter p).getLast?

theorem foldl_eq_lastMatch (p : α → Bool) (v : α → β) (l : List α) : ∀ d : β,
    l.foldl (fun d a => if p a = true then v a else d) d = ((lastMatch p l).map v).getD d := by
  induction l with
  | nil => exact fun d => rfl
  | cons a l ih =>
    intro d
    rw [List.foldl_cons, ih, lastMatch, lastMatch, List.filter_cons]
    split
    · rw [List.getLast?_cons]
      cases (l.filter p).getLast? <;> rfl
    · rfl

/-- When every match of `p` is one of `q`, a last match of `q` that `p` matches is the last of
`p`. -/
theorem lastMatch_of_imp {p q : α → Bool} {l : List α} (h : ∀ a ∈ l, p a = true → q a = true)
    {a : α} (hq : lastMatch q l = some a) (hp : p a = true) : lastMatch p l = some a := by
  have hsub : l.filter p = (l.filter q).filter p := by
    rw [List.filter_filter]
    refine List.filter_congr fun b hb => ?_
    cases hpb : p b with
    | false => rfl
    | true => rw [h b hb hpb]; rfl
  obtain ⟨pre, hpre⟩ := List.getLast?_eq_some_iff.mp hq
  rw [lastMatch, hsub, hpre, List.filter_append]
  simp [hp]

theorem lastMatch_eq_none {p : α → Bool} {l : List α} :
    lastMatch p l = none ↔ ∀ a ∈ l, p a = false := by
  rw [lastMatch, List.getLast?_eq_none_iff, List.filter_eq_nil_iff]
  exact forall₂_congr fun a _ => Bool.eq_false_iff.symm

theorem lastMatch_map (f : β → α) (p : α → Bool) (l : List β) :
    lastMatch p (l.map f) = (lastMatch (fun b => p (f b)) l).map f := by
  rw [lastMatch, lastMatch, List.filter_map, List.getLast?_map]
  rfl

/-! ## Stable sorts -/

section Stable

variable (key : α → Nat)

theorem sorted_split {l : List α} (h : l.Pairwise fun a b => key a ≤ key b) (k : Nat) :
    l = l.filter (fun a => key a < k) ++ l.filter (fun a => k ≤ key a) := by
  induction l with
  | nil => rfl
  | cons a l ih =>
    obtain ⟨ha, hl⟩ := List.pairwise_cons.mp h
    by_cases hk : key a < k
    · rw [List.filter_cons_of_pos (by simpa using hk), List.filter_cons_of_neg (by simpa using hk),
        List.cons_append, ← ih hl]
    · have hnone : l.filter (fun a => key a < k) = [] := by
        refine List.filter_eq_nil_iff.mpr fun b hb => ?_
        have := ha b hb
        simp only [decide_eq_true_eq]
        omega
      have hrest := ih hl
      rw [hnone, List.nil_append] at hrest
      rw [List.filter_cons_of_neg (by simpa using hk), hnone, List.nil_append,
        List.filter_cons_of_pos (by simpa using hk), ← hrest]

/-- A list sorted by a number is the concatenation of its classes. -/
theorem sorted_classes {n : Nat} : ∀ {l : List α}, (l.Pairwise fun a b => key a ≤ key b) →
    (∀ a ∈ l, key a < n) → l = (List.range n).flatMap fun k => l.filter fun a => key a = k := by
  induction n with
  | zero =>
    intro l _ hn
    cases l with
    | nil => rfl
    | cons a l => exact absurd (hn a List.mem_cons_self) (Nat.not_lt_zero _)
  | succ n ih =>
    intro l h hn
    have hlow := ih (h.filter (fun a => decide (key a < n)))
      (fun a ha => by simpa using (List.mem_filter.mp ha).2)
    have htop : l.filter (fun a => n ≤ key a) = l.filter fun a => key a = n := by
      refine List.filter_congr fun a ha => ?_
      have := hn a ha
      rw [decide_eq_decide]
      omega
    rw [List.range_succ, List.flatMap_append, List.flatMap_singleton, ← htop]
    conv_lhs => rw [sorted_split key h n, hlow]
    refine congrArg (· ++ _) (List.flatMap_congr fun k hk => ?_)
    have hkn := List.mem_range.mp hk
    rw [List.filter_filter]
    refine List.filter_congr fun a _ => ?_
    by_cases hkey : key a = k
    · simp [hkey, hkn]
    · simp [hkey]

theorem insertionSort_class (l : List α) (k : Nat) :
    (l.insertionSort fun a b => key a ≤ key b).filter (fun a => key a = k) =
      l.filter fun a => key a = k := by
  have hsame : (l.filter fun a => key a = k).Pairwise fun a b => key a ≤ key b := by
    refine List.pairwise_of_forall_mem_list fun a ha b hb => ?_
    have hka := (List.mem_filter.mp ha).2
    have hkb := (List.mem_filter.mp hb).2
    simp only [decide_eq_true_eq] at hka hkb
    omega
  have hsub := (List.sublist_insertionSort hsame List.filter_sublist).filter
    fun a => decide (key a = k)
  rw [List.filter_filter] at hsub
  simp only [Bool.and_self] at hsub
  exact (hsub.eq_of_length ((List.perm_insertionSort _ l).filter _).length_eq.symm).symm

theorem insertionSort_by_key {n : Nat} {l : List α} (h : ∀ a ∈ l, key a < n) :
    (l.insertionSort fun a b => key a ≤ key b) =
      (List.range n).flatMap fun k => l.filter fun a => key a = k := by
  have hsorted := List.pairwise_insertionSort (fun a b => key a ≤ key b) l
  have hmem : ∀ a ∈ l.insertionSort (fun a b => key a ≤ key b), key a < n :=
    fun a ha => h a (List.mem_insertionSort _ |>.mp ha)
  rw [sorted_classes key hsorted hmem]
  exact List.flatMap_congr fun k _ => insertionSort_class key l k

end Stable

end LastMatch
