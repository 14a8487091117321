import Mathlib.Data.List.Forall2
import Mathlib.Data.List.Nodup
import Mathlib.Data.List.Pairwise

/-!
# Override

Two lists are merged: an entry of the first gives way to the first entry of the second that is the
same, and the entries of the second that are not the same as any come after. Being the same is
reflexive and symmetric; it need not be transitive.

* `merge`       — the merge, and `merge_eq`, which says what comes after.
* `Apart`       — no two entries are the same.
* `Merged`      — what a merge should be.
* `merged_iff`  — it is that exactly when no entry replaces two.
-/

namespace Override

variable {α : Type}

section Merge

variable (same : α → α → Bool)

/-- The entry of `news` that replaces `g`. -/
def replacement? (news : List α) (g : α) : Option α := news.find? fun l => same l g

def replace (news : List α) (g : α) : α := (replacement? same news g).getD g

def appendNew (out news : List α) : List α :=
  news.foldl (fun out l => if out.any fun b => same b l then out else out ++ [l]) out

def merge (olds news : List α) : List α := appendNew same (olds.map (replace same news)) news

def Apart (l : List α) : Prop := l.Pairwise fun a b => same a b = false

/-- The replacements, one for each entry that is replaced. -/
def replacements (olds news : List α) : List α := olds.filterMap (replacement? same news)

/-- Every new entry is there once, and every old one that none of them replaces; no two are the
same; the old ones and their replacements come first. -/
structure Merged [DecidableEq α] (olds news result : List α) : Prop where
  added : ∀ l ∈ news, result.count l = 1
  kept : ∀ g ∈ olds, (∀ l ∈ news, same l g = false) → result.count g = 1
  replaced : ∀ g ∈ olds, (∃ l ∈ news, same l g = true) → g ∈ result → g ∈ news
  apart : Apart same result
  order : ∃ front back, result = front ++ back ∧
    List.Forall₂ (fun g b => b = g ∨ (b ∈ news ∧ same b g = true)) olds front ∧ back.Sublist news
  again : merge same result news = result

end Merge

section Same

variable {same : α → α → Bool} (hrefl : ∀ a, same a a = true)
  (hsymm : ∀ a b, same a b = same b a)

include hrefl in
theorem Apart.nodup {l : List α} (h : Apart same l) : l.Nodup :=
  List.Pairwise.imp (fun {a b} hab heq => by rw [heq, hrefl] at hab; cases hab) h

include hsymm in
theorem Apart.eq_of_same {l : List α} (h : Apart same l) {a b : α} (ha : a ∈ l) (hb : b ∈ l)
    (hab : same a b = true) : a = b := by
  by_contra hne
  have hsym : Std.Symm fun a b => same a b = false := ⟨fun a b h => by rwa [hsymm]⟩
  have := List.Pairwise.forall h ha hb hne
  rw [hab] at this
  cases this

theorem replacement?_mem {news : List α} {g l : α} (h : replacement? same news g = some l) :
    l ∈ news ∧ same l g = true :=
  ⟨List.mem_of_find?_eq_some h, by simpa using List.find?_some h⟩

theorem replacement?_none {news : List α} {g : α} :
    replacement? same news g = none ↔ ∀ l ∈ news, same l g = false := by
  rw [replacement?, List.find?_eq_none]
  simp only [Bool.not_eq_true]

include hrefl hsymm in
/-- A new entry is replaced by itself. -/
theorem replacement?_self {news : List α} (hnews : Apart same news) {l : α} (hl : l ∈ news) :
    replacement? same news l = some l := by
  cases h : replacement? same news l with
  | none =>
    have := replacement?_none.mp h l hl
    rw [hrefl] at this
    cases this
  | some l' =>
    obtain ⟨hl', hsame⟩ := replacement?_mem h
    rw [hnews.eq_of_same hsymm hl' hl hsame]

theorem mem_front {olds news : List α} {x : α} :
    x ∈ olds.map (replace same news) ↔ x ∈ replacements same olds news ∨
      (x ∈ olds ∧ ∀ l ∈ news, same l x = false) := by
  rw [List.mem_map, replacements, List.mem_filterMap]
  constructor
  · rintro ⟨g, hg, rfl⟩
    cases h : replacement? same news g with
    | none =>
      rw [replace, h]
      exact .inr ⟨hg, replacement?_none.mp h⟩
    | some l =>
      rw [replace, h]
      exact .inl ⟨g, hg, h⟩
  · rintro (⟨g, hg, h⟩ | ⟨hx, hnone⟩)
    · exact ⟨g, hg, by rw [replace, h]; rfl⟩
    · exact ⟨x, hx, by rw [replace, replacement?_none.mpr hnone]; rfl⟩

/-- What is left of the new entries comes after. -/
theorem appendNew_eq {news : List α} (hnews : Apart same news) : ∀ out : List α,
    appendNew same out news =
      out ++ news.filter fun l => !out.any fun b => same b l := by
  induction news with
  | nil => simp [appendNew]
  | cons l news ih =>
    intro out
    obtain ⟨hl, hnews⟩ := List.pairwise_cons.mp hnews
    rw [appendNew, List.foldl_cons, ← appendNew]
    cases hany : out.any fun b => same b l with
    | true => rw [if_pos rfl, ih hnews, List.filter_cons_of_neg (by simp [hany])]
    | false =>
      rw [if_neg Bool.false_ne_true, ih hnews, List.filter_cons_of_pos (by simp [hany]),
        List.append_assoc, List.singleton_append]
      congr 2
      refine List.filter_congr fun l' hl' => ?_
      rw [List.any_append, List.any_cons, hl l' hl']
      simp

include hrefl hsymm in
/-- A new entry is the same as one in front exactly when it is in front. -/
theorem any_front {olds news : List α} (hnews : Apart same news) {l : α} (hl : l ∈ news) :
    ((olds.map (replace same news)).any fun b => same b l) = true ↔
      l ∈ replacements same olds news := by
  rw [List.any_eq_true]
  constructor
  · rintro ⟨b, hb, hsame⟩
    rcases mem_front.mp hb with hb | ⟨-, hnone⟩
    · obtain ⟨g, -, hg⟩ := List.mem_filterMap.mp hb
      rwa [hnews.eq_of_same hsymm (replacement?_mem hg).1 hl hsame] at hb
    · rw [hsymm, hnone l hl] at hsame
      cases hsame
  · intro h
    exact ⟨l, mem_front.mpr (.inl h), hrefl l⟩

include hrefl hsymm in
theorem merge_eq [DecidableEq α] (olds : List α) {news : List α} (hnews : Apart same news) :
    merge same olds news = olds.map (replace same news) ++
      news.filter fun l => decide (l ∉ replacements same olds news) := by
  rw [merge, appendNew_eq hnews]
  congr 1
  refine List.filter_congr fun l hl => ?_
  rw [Bool.eq_iff_iff, Bool.not_eq_true', ← Bool.not_eq_true, any_front hrefl hsymm hnews hl,
    decide_eq_true_eq]

include hrefl hsymm in
theorem count_front [DecidableEq α] {news : List α} (hnews : Apart same news) {l : α}
    (hl : l ∈ news) (olds : List α) :
    (olds.map (replace same news)).count l = (replacements same olds news).count l := by
  induction olds with
  | nil => rfl
  | cons g olds ih =>
    rw [replacements, List.map_cons, List.count_cons, ih, List.filterMap_cons]
    cases h : replacement? same news g with
    | none =>
      have hne : g ≠ l := by
        rintro rfl
        rw [replacement?_self hrefl hsymm hnews hl] at h
        cases h
      rw [replace, h, if_neg (by simpa using hne)]
      rfl
    | some l' =>
      rw [replace, h, List.count_cons]
      rfl

include hsymm in
theorem front_apart {news : List α} (hnews : Apart same news) : ∀ {olds : List α},
    Apart same olds → (replacements same olds news).Nodup →
      Apart same (olds.map (replace same news)) := by
  intro olds
  induction olds with
  | nil => exact fun _ _ => .nil
  | cons g olds ih =>
    intro holds hnodup
    obtain ⟨hg, holds⟩ := List.pairwise_cons.mp holds
    rw [List.map_cons, Apart, List.pairwise_cons]
    cases h : replacement? same news g with
    | none =>
      rw [replacements, List.filterMap_cons, h] at hnodup
      refine ⟨fun b hb => ?_, ih holds hnodup⟩
      rw [replace, h]
      have hnone := replacement?_none.mp h
      obtain ⟨g', hg', rfl⟩ := List.mem_map.mp hb
      cases h' : replacement? same news g' with
      | none =>
        rw [replace, h']
        exact hg g' hg'
      | some l' =>
        rw [replace, h', hsymm]
        exact hnone l' (replacement?_mem h').1
    | some l =>
      rw [replacements, List.filterMap_cons, h] at hnodup
      obtain ⟨hl, hnodup⟩ := List.nodup_cons.mp hnodup
      refine ⟨fun b hb => ?_, ih holds hnodup⟩
      rw [replace, h]
      rcases mem_front.mp hb with hb | ⟨-, hnone⟩
      · change same l b = false
        by_contra hsame
        rw [Bool.not_eq_false] at hsame
        obtain ⟨g', -, hg'⟩ := List.mem_filterMap.mp hb
        have heq := hnews.eq_of_same hsymm (replacement?_mem h).1 (replacement?_mem hg').1 hsame
        exact hl (heq ▸ hb)
      · exact hnone l (replacement?_mem h).1

end Same

/-! ## When a merge is one -/

section Exact

variable [DecidableEq α] {same : α → α → Bool} (hrefl : ∀ a, same a a = true)
  (hsymm : ∀ a b, same a b = same b a) {olds news : List α}

include hrefl hsymm in
theorem count_merge (hnews : Apart same news) {l : α} (hl : l ∈ news) :
    (merge same olds news).count l = max ((replacements same olds news).count l) 1 := by
  have hone : news.count l = 1 := List.count_eq_one_of_mem (hnews.nodup hrefl) hl
  rw [merge_eq hrefl hsymm olds hnews, List.count_append, count_front hrefl hsymm hnews hl]
  by_cases hmem : l ∈ replacements same olds news
  · have hpos := List.count_pos_iff.mpr hmem
    have hnone : l ∉ news.filter fun l => decide (l ∉ replacements same olds news) := by
      rw [List.mem_filter, decide_eq_true_eq]
      exact fun h => h.2 hmem
    rw [List.count_eq_zero.mpr hnone]
    omega
  · rw [List.count_filter (by simpa using hmem), hone, List.count_eq_zero.mpr hmem]
    rfl

include hrefl hsymm in
theorem mem_merge (hnews : Apart same news) {x : α} : x ∈ merge same olds news ↔
    x ∈ news ∨ (x ∈ olds ∧ ∀ l ∈ news, same l x = false) := by
  rw [merge_eq hrefl hsymm olds hnews, List.mem_append, mem_front,
    List.mem_filter, decide_eq_true_eq]
  constructor
  · rintro ((h | h) | h)
    · obtain ⟨g, -, hg⟩ := List.mem_filterMap.mp h
      exact .inl (replacement?_mem hg).1
    · exact .inr h
    · exact .inl h.1
  · rintro (h | h)
    · by_cases hmem : x ∈ replacements same olds news
      · exact .inl (.inl hmem)
      · exact .inr ⟨h, hmem⟩
    · exact .inl (.inr h)

include hrefl hsymm in
/-- Merging again changes nothing. -/
theorem merge_again (hnews : Apart same news) :
    merge same (merge same olds news) news = merge same olds news := by
  have hkeep : ∀ x ∈ merge same olds news, replace same news x = x := by
    intro x hx
    rcases (mem_merge hrefl hsymm hnews).mp hx with hx | ⟨-, hnone⟩
    · rw [replace, replacement?_self hrefl hsymm hnews hx]
      rfl
    · rw [replace, replacement?_none.mpr hnone]
      rfl
  rw [merge_eq hrefl hsymm (merge same olds news) hnews, List.map_congr_left hkeep, List.map_id',
    List.filter_eq_nil_iff.mpr, List.append_nil]
  intro l hl
  have hmem : l ∈ merge same olds news := (mem_merge hrefl hsymm hnews).mpr (.inl hl)
  rw [decide_eq_true_eq, not_not]
  exact List.mem_filterMap.mpr ⟨l, hmem, replacement?_self hrefl hsymm hnews hl⟩

include hrefl hsymm in
theorem merge_apart (holds : Apart same olds) (hnews : Apart same news)
    (hnodup : (replacements same olds news).Nodup) : Apart same (merge same olds news) := by
  rw [merge_eq hrefl hsymm olds hnews, Apart, List.pairwise_append]
  refine ⟨front_apart hsymm hnews holds hnodup, hnews.sublist List.filter_sublist, ?_⟩
  intro x hx l hl
  obtain ⟨hl, hmem⟩ := List.mem_filter.mp hl
  rw [decide_eq_true_eq] at hmem
  rcases mem_front.mp hx with hx | ⟨-, hnone⟩
  · by_contra hsame
    rw [Bool.not_eq_false] at hsame
    obtain ⟨g, -, hg⟩ := List.mem_filterMap.mp hx
    rw [hnews.eq_of_same hsymm (replacement?_mem hg).1 hl hsame] at hx
    exact hmem hx
  · rw [hsymm]
    exact hnone l hl

include hrefl hsymm in
/-- An old entry that is not replaced is there once. -/
theorem count_kept (holds : Apart same olds) (hnews : Apart same news) {g : α} (hg : g ∈ olds)
    (hnone : ∀ l ∈ news, same l g = false) : (merge same olds news).count g = 1 := by
  have hnot : g ∉ news := fun h => by
    have := hnone g h
    rw [hrefl] at this
    cases this
  have hfront : (olds.map (replace same news)).count g = olds.count g := by
    clear hg holds
    induction olds with
    | nil => rfl
    | cons g' olds ih =>
      rw [List.map_cons, List.count_cons, List.count_cons, ih]
      cases h : replacement? same news g' with
      | none =>
        rw [replace, h]
        rfl
      | some l =>
        obtain ⟨hl, hsame⟩ := replacement?_mem h
        have hne : g' ≠ g := by
          rintro rfl
          rw [hnone l hl] at hsame
          cases hsame
        have hne' : l ≠ g := fun h => hnot (h ▸ hl)
        rw [replace, h, if_neg (by simpa using hne'), if_neg (by simpa using hne)]
  rw [merge_eq hrefl hsymm olds hnews, List.count_append, hfront,
    List.count_eq_one_of_mem (holds.nodup hrefl) hg,
    List.count_eq_zero.mpr fun h => hnot (List.mem_filter.mp h).1]

include hrefl hsymm in
/-- The merge is as it should be exactly when no entry replaces two. -/
theorem merged_iff (holds : Apart same olds) (hnews : Apart same news) :
    Merged same olds news (merge same olds news) ↔ (replacements same olds news).Nodup := by
  constructor
  · intro h
    rw [List.nodup_iff_count_le_one]
    intro l
    by_cases hmem : l ∈ replacements same olds news
    · obtain ⟨g, -, hg⟩ := List.mem_filterMap.mp hmem
      have hl := (replacement?_mem hg).1
      have := h.added l hl
      rw [count_merge hrefl hsymm hnews hl] at this
      omega
    · rw [List.count_eq_zero.mpr hmem]
      exact Nat.zero_le 1
  · intro hnodup
    refine ⟨fun l hl => ?_, fun g hg hnone => count_kept hrefl hsymm holds hnews hg hnone,
      fun g hg hsome hmem => ?_, merge_apart hrefl hsymm holds hnews hnodup, ?_,
      merge_again hrefl hsymm hnews⟩
    · rw [count_merge hrefl hsymm hnews hl]
      have := List.nodup_iff_count_le_one.mp hnodup l
      omega
    · rcases (mem_merge hrefl hsymm hnews).mp hmem with hmem | ⟨-, hnone⟩
      · exact hmem
      · obtain ⟨l, hl, hsame⟩ := hsome
        rw [hnone l hl] at hsame
        cases hsame
    · refine ⟨_, _, merge_eq hrefl hsymm olds hnews, ?_, List.filter_sublist⟩
      rw [List.forall₂_map_right_iff, List.forall₂_same]
      intro g _
      cases h : replacement? same news g with
      | none =>
        rw [replace, h]
        exact .inl rfl
      | some l =>
        rw [replace, h]
        exact .inr (replacement?_mem h)

end Exact

end Override
