import Arags.Rlm.Cliques
import Mathlib.Data.List.Sort

/-!
# Arags.Rlm.CliqueSearch

Whether `best_agreeing_clique` finds what its comment says: the largest set of candidates that
agree pairwise and, among the sets of that size, one with the highest minimum similarity.

* `bestAgreeingClique_best` — what is found is the best of the sets that a mask stands for.
* `wholeClasses_tried`      — which sets a mask stands for.
* `clique_search_exact`     — when the search is exact.
-/

namespace Arags

/-! ## What is searched for -/

/-- A set of two or more candidates that agree pairwise, as the list of its indices in order. -/
structure AgreeingSet (sims : List (List Rat)) (threshold : Rat) (set : List Nat) : Prop where
  increasing : set.Pairwise (· < ·)
  inRange : ∀ i ∈ set, i < sims.length
  two : 2 ≤ set.length
  clique : IsClique sims threshold set

/-- No agreeing set is larger, and none of the same size has a higher minimum similarity. -/
structure BestAgreeing (sims : List (List Rat)) (threshold : Rat) (set : List Nat) : Prop
    extends AgreeingSet sims threshold set where
  largest : ∀ other, AgreeingSet sims threshold other → other.length ≤ set.length
  densest : ∀ other, AgreeingSet sims threshold other → other.length = set.length →
    ∀ y ∈ (pairSims sims other).min?, ∀ x ∈ (pairSims sims set).min?, y ≤ x

def NoneAgree (sims : List (List Rat)) (threshold : Rat) : Prop :=
  ∀ set, ¬ AgreeingSet sims threshold set

/-- The best agreeing set is returned, and the empty set only where no two candidates agree. -/
def ExactSearch (sims : List (List Rat)) (threshold : Rat) : Prop :=
  BestAgreeing sims threshold (bestAgreeingClique sims threshold) ∨
    bestAgreeingClique sims threshold = [] ∧ NoneAgree sims threshold

def SymmetricSims (sims : List (List Rat)) : Prop :=
  (∀ row ∈ sims, row.length = sims.length) ∧
    ∀ i < sims.length, ∀ j < sims.length, (sims.getD i []).getD j 0 = (sims.getD j []).getD i 0

/-- With its members a set has all candidates of their classes modulo 32, and all classes are
below `m % 32`. -/
def WholeClasses (m : Nat) (set : List Nat) : Prop :=
  ∀ i ∈ set, i % 32 < m % 32 ∧ ∀ j < m, j % 32 = i % 32 → j ∈ set

/-- Fewer than 32 candidates, or none that agree, or a best set that a mask can stand for. -/
def SearchReaches (sims : List (List Rat)) (threshold : Rat) : Prop :=
  sims.length < 32 ∨ NoneAgree sims threshold ∨
    ∃ set, BestAgreeing sims threshold set ∧ WholeClasses sims.length set

/-! ## The best of the masks -/

section Search

variable {sims : List (List Rat)} {threshold : Rat}

theorem pairSims_ne_nil {set : List Nat} (h : 2 ≤ set.length) : pairSims sims set ≠ [] := by
  match set, h with
  | a :: b :: rest, _ =>
    rw [pairSims, List.map_cons, List.cons_append]
    exact List.cons_ne_nil _ _

theorem min?_pairSims (sims : List (List Rat)) {set : List Nat} (h : 2 ≤ set.length) :
    ∃ x, (pairSims sims set).min? = some x := by
  cases hm : (pairSims sims set).min? with
  | none => exact absurd (List.min?_eq_none_iff.mp hm) (pairSims_ne_nil h)
  | some x => exact ⟨x, rfl⟩

/-- The minimum is kept with the members, and no mask tried so far of their size has a higher
one. -/
structure DensestOf (sims : List (List Rat)) (threshold : Rat) (tried : List Nat)
    (best : BestClique) : Prop where
  kept : best.members ≠ [] → best.minSim = (pairSims sims best.members).min?
  densest : ∀ mask ∈ tried, Agrees sims threshold mask →
    (membersOf sims.length mask).length = best.members.length →
      ∀ y ∈ (pairSims sims (membersOf sims.length mask)).min?, ∀ x ∈ best.minSim, y ≤ x

theorem DensestOf.considerMask {tried : List Nat} {best : BestClique}
    (h : DensestOf sims threshold tried best) (hb : BestOf sims threshold tried best)
    (mask : Nat) :
    DensestOf sims threshold (mask :: tried) (considerMask sims threshold best mask) := by
  unfold Arags.considerMask
  dsimp only
  split
  · rename_i htwo
    refine ⟨h.kept, List.forall_mem_cons.mpr ⟨fun ha => ?_, h.densest⟩⟩
    exact absurd ha.two (Nat.not_le.mpr htwo)
  · rename_i htwo
    obtain ⟨new, hnew⟩ := min?_pairSims sims (Nat.not_lt.mp htwo)
    split
    · rename_i hc
      rw [Bool.and_eq_true, hnew] at hc
      obtain ⟨-, hbetter⟩ := hc
      refine ⟨fun _ => rfl, List.forall_mem_cons.mpr ⟨fun _ _ y hy x hx => ?_, ?_⟩⟩
      · rw [Option.mem_unique hy hx]
      · intro m hm ha hlen y hy x hx
        replace hlen : _ = (membersOf sims.length mask).length := hlen
        obtain rfl : new = x := Option.some.inj (hnew.symm.trans hx)
        have hle := hb.max m hm ha
        simp only [Bool.or_eq_true, Bool.and_eq_true, decide_eq_true_eq, beq_iff_eq] at hbetter
        obtain hlarger | ⟨hsame, hdenser⟩ := hbetter
        · omega
        · -- the members so far have the same size, so the minimum was compared with theirs
          have hne : best.members ≠ [] := by
            rw [← List.length_pos_iff]
            omega
          obtain ⟨old, hold⟩ := min?_pairSims sims (show 2 ≤ best.members.length by omega)
          have hmin : best.minSim = some old := (h.kept hne).trans hold
          rw [hmin] at hdenser
          have hlt : old < new := by simpa using hdenser
          exact Rat.le_trans (h.densest m hm ha (hlen.trans hsame) y hy old hmin)
            (Rat.le_of_lt hlt)
    · rename_i hc
      refine ⟨h.kept, List.forall_mem_cons.mpr ⟨fun ha hlen y hy x hx => ?_, h.densest⟩⟩
      obtain rfl : new = y := Option.some.inj (hnew.symm.trans hy)
      by_contra hlt
      rw [Bool.and_eq_true, all_pairSims] at hc
      have hx' : best.minSim = some x := hx
      exact hc ⟨ha.clique, by simp [hlen, hx', hnew, Rat.not_le.mp hlt]⟩

theorem densestOf_fold (masks tried : List Nat) {best : BestClique}
    (h : DensestOf sims threshold tried best) (hb : BestOf sims threshold tried best) :
    ∃ all, (∀ m, m ∈ all ↔ m ∈ tried ∨ m ∈ masks) ∧
      DensestOf sims threshold all (masks.foldl (considerMask sims threshold) best) := by
  induction masks generalizing tried best with
  | nil => exact ⟨tried, by simp, h⟩
  | cons mask masks ih =>
    obtain ⟨all, hall, hbest⟩ := ih (mask :: tried) (h.considerMask hb mask) (hb.considerMask mask)
    refine ⟨all, fun m => (hall m).trans ?_, hbest⟩
    simp only [List.mem_cons]
    tauto

/-- What is returned is an agreeing set of a mask, at least as good as every other, or there is
none. -/
theorem bestAgreeingClique_best (threshold : Rat) (hm : 2 ≤ sims.length) :
    (bestAgreeingClique sims threshold = [] ∧
      ∀ mask, Tried sims.length mask → ¬ Agrees sims threshold mask) ∨
    ∃ mask, Tried sims.length mask ∧ Agrees sims threshold mask ∧
      bestAgreeingClique sims threshold = membersOf sims.length mask ∧
      ∀ m, Tried sims.length m → Agrees sims threshold m →
        (membersOf sims.length m).length ≤ (membersOf sims.length mask).length ∧
        ((membersOf sims.length m).length = (membersOf sims.length mask).length →
          ∀ y ∈ (pairSims sims (membersOf sims.length m)).min?,
            ∀ x ∈ (pairSims sims (membersOf sims.length mask)).min?, y ≤ x) := by
  obtain ⟨hfound, hmax⟩ := bestAgreeingClique_spec threshold hm
  obtain hnil | ⟨mask, htried, hagrees, heq⟩ := hfound
  · refine .inl ⟨hnil, fun mask ht ha => ?_⟩
    have hle := hmax mask ht ha
    rw [hnil] at hle
    have htwo := ha.two
    exact absurd (Nat.le_trans htwo hle) (by decide)
  · refine .inr ⟨mask, htried, hagrees, heq, fun m ht ha => ?_⟩
    have hstart : BestOf sims threshold [] ⟨[], none⟩ := ⟨.inl rfl, nofun⟩
    have hempty : DensestOf sims threshold [] ⟨[], none⟩ := ⟨fun h => absurd rfl h, nofun⟩
    obtain ⟨all, hall, hbest⟩ :=
      densestOf_fold (List.range' 1 (2 ^ (sims.length % 32) - 1)) [] hempty hstart
    have hmem : m ∈ all := by
      have hpos : 0 < 2 ^ (sims.length % 32) := Nat.two_pow_pos _
      obtain ⟨hone, hlt⟩ := ht
      rw [hall, List.mem_range'_1]
      exact .inr ⟨hone, by omega⟩
    have hret := heq
    unfold bestAgreeingClique at hret
    rw [if_neg (by omega)] at hret
    have hne : membersOf sims.length mask ≠ [] := by
      rw [← List.length_pos_iff]
      exact Nat.lt_of_lt_of_le (by decide) hagrees.two
    refine ⟨?_, fun hlen y hy x hx => ?_⟩
    · rw [← heq]
      exact hmax m ht ha
    · refine hbest.densest m hmem ha (hlen.trans (by rw [hret])) y hy x ?_
      rw [hbest.kept (by rw [hret]; exact hne), hret]
      exact hx

end Search

/-! ## The sets of the masks -/

theorem agreeingSet_membersOf {sims : List (List Rat)} {threshold : Rat} {mask : Nat}
    (h : Agrees sims threshold mask) :
    AgreeingSet sims threshold (membersOf sims.length mask) where
  increasing := membersOf_increasing _ _
  inRange _ hi := (mem_membersOf.mp hi).1
  two := h.two
  clique := h.clique

theorem wholeClasses_membersOf {m mask : Nat} (h : Tried m mask) :
    WholeClasses m (membersOf m mask) := by
  intro i hi
  obtain ⟨-, hbit⟩ := mem_membersOf.mp hi
  refine ⟨?_, fun j hj hji => mem_membersOf.mpr ⟨hj, hji ▸ hbit⟩⟩
  by_contra hle
  have hpow : 2 ^ (m % 32) ≤ 2 ^ (i % 32) := Nat.pow_le_pow_right (by decide) (Nat.not_lt.mp hle)
  rw [Nat.testBit_lt_two_pow (Nat.lt_of_lt_of_le h.2 hpow)] at hbit
  exact Bool.false_ne_true hbit

/-- A set of whole classes has a mask: a bit for each class. -/
theorem wholeClasses_tried {m : Nat} {set : List Nat} (hinc : set.Pairwise (· < ·))
    (hm : ∀ i ∈ set, i < m) (hne : set ≠ []) (h : WholeClasses m set) :
    ∃ mask, Tried m mask ∧ membersOf m mask = set := by
  let mask := Nat.ofBits fun r : Fin (m % 32) => decide (r.val ∈ set)
  have hmem : ∀ i, i ∈ membersOf m mask ↔ i ∈ set := by
    intro i
    rw [mem_membersOf]
    by_cases hr : i % 32 < m % 32
    · have hlt : i % 32 < m := Nat.lt_of_lt_of_le hr (Nat.mod_le m 32)
      rw [Nat.testBit_ofBits_lt _ _ hr, decide_eq_true_eq]
      constructor
      · rintro ⟨hi, hmem⟩
        exact (h (i % 32) hmem).2 i hi (Nat.mod_mod i 32).symm
      · intro hi
        exact ⟨hm i hi, (h i hi).2 (i % 32) hlt (Nat.mod_mod i 32)⟩
    · rw [Nat.testBit_ofBits_ge _ _ (Nat.not_lt.mp hr)]
      constructor
      · rintro ⟨-, hfalse⟩
        exact absurd hfalse Bool.false_ne_true
      · intro hi
        exact absurd (h i hi).1 hr
  refine ⟨mask, ⟨?_, Nat.ofBits_lt_two_pow _⟩, ?_⟩
  · rw [Nat.one_le_iff_ne_zero]
    intro hzero
    obtain ⟨i, hi⟩ := List.exists_mem_of_ne_nil set hne
    have hbit := (mem_membersOf.mp ((hmem i).mpr hi)).2
    rw [hzero, Nat.zero_testBit] at hbit
    exact Bool.false_ne_true hbit
  · exact (membersOf_increasing m mask).eq_of_mem_iff hinc hmem

/-- Below 32 every class has one candidate. -/
theorem wholeClasses_of_lt {m : Nat} {set : List Nat} (hm : m < 32) (h : ∀ i ∈ set, i < m) :
    WholeClasses m set := by
  intro i hi
  have him := h i hi
  refine ⟨by omega, fun j hj hji => ?_⟩
  obtain rfl : j = i := by omega
  exact hi

/-! ## When the search is exact -/

section Exact

variable {sims : List (List Rat)} {threshold : Rat}

theorem AgreeingSet.ne_nil {set : List Nat} (h : AgreeingSet sims threshold set) : set ≠ [] := by
  rw [← List.length_pos_iff]
  exact Nat.lt_of_lt_of_le (by decide) h.two

theorem AgreeingSet.two_le {set : List Nat} (h : AgreeingSet sims threshold set) :
    2 ≤ sims.length := by
  have hsub : set.Subperm (List.range sims.length) :=
    List.subperm_of_subset (h.increasing.imp Nat.ne_of_lt)
      fun i hi => List.mem_range.mpr (h.inRange i hi)
  have hlen := hsub.length_le
  rw [List.length_range] at hlen
  exact Nat.le_trans h.two hlen

theorem AgreeingSet.mask {set : List Nat} (h : AgreeingSet sims threshold set)
    (hw : WholeClasses sims.length set) :
    ∃ mask, Tried sims.length mask ∧ Agrees sims threshold mask ∧
      membersOf sims.length mask = set := by
  obtain ⟨mask, htried, rfl⟩ := wholeClasses_tried h.increasing h.inRange h.ne_nil hw
  exact ⟨mask, htried, ⟨h.two, h.clique⟩, rfl⟩

/-- A best set that has a mask makes what is found a best set. -/
theorem exactSearch_of_whole {set : List Nat} (h : BestAgreeing sims threshold set)
    (hw : WholeClasses sims.length set) : ExactSearch sims threshold := by
  obtain ⟨mask, ht, ha, rfl⟩ := h.toAgreeingSet.mask hw
  obtain ⟨-, hnone⟩ | ⟨found, htf, haf, heq, hbest⟩ :=
    bestAgreeingClique_best threshold h.toAgreeingSet.two_le
  · exact absurd ha (hnone mask ht)
  · obtain ⟨hle, hdense⟩ := hbest mask ht ha
    have hsame : (membersOf sims.length found).length = (membersOf sims.length mask).length :=
      Nat.le_antisymm (h.largest _ (agreeingSet_membersOf haf)) hle
    obtain ⟨old, hold⟩ := min?_pairSims sims ha.two
    refine .inl ?_
    rw [heq]
    refine ⟨agreeingSet_membersOf haf, fun other ho => ?_, fun other ho hlen y hy x hx => ?_⟩
    · rw [hsame]
      exact h.largest other ho
    · exact Rat.le_trans (h.densest other ho (hlen.trans hsame) y hy old hold)
        (hdense hsame.symm old hold x hx)

/-- Below 32 every agreeing set has a mask. -/
theorem exactSearch_of_lt (hm : sims.length < 32) : ExactSearch sims threshold := by
  by_cases htwo : sims.length < 2
  · refine .inr ⟨if_pos htwo, fun set h => ?_⟩
    exact absurd h.two_le (Nat.not_le.mpr htwo)
  · obtain ⟨hnil, hnone⟩ | ⟨mask, ht, ha, heq, hbest⟩ :=
      bestAgreeingClique_best threshold (Nat.not_lt.mp htwo)
    · refine .inr ⟨hnil, fun set h => ?_⟩
      obtain ⟨mask, ht, ha, -⟩ := h.mask (wholeClasses_of_lt hm h.inRange)
      exact hnone mask ht ha
    · refine .inl ?_
      rw [heq]
      have hall : ∀ other, AgreeingSet sims threshold other → _ := fun other ho =>
        ho.mask (wholeClasses_of_lt hm ho.inRange)
      refine ⟨agreeingSet_membersOf ha, fun other ho => ?_, fun other ho hlen y hy x hx => ?_⟩
      · obtain ⟨m, htm, ham, rfl⟩ := hall other ho
        exact (hbest m htm ham).1
      · obtain ⟨m, htm, ham, rfl⟩ := hall other ho
        exact (hbest m htm ham).2 hlen y hy x hx

/-- The search is exact up to 31 candidates. From 32 on it is so only where none agree or a best
set consists of whole classes modulo 32. -/
theorem clique_search_exact (sims : List (List Rat)) (threshold : Rat) :
    ExactSearch sims threshold ↔ SearchReaches sims threshold := by
  constructor
  · rintro (hbest | ⟨-, hnone⟩)
    · obtain ⟨hnil, -⟩ | ⟨mask, ht, -, heq, -⟩ :=
        bestAgreeingClique_best threshold hbest.toAgreeingSet.two_le
      · exact absurd hnil hbest.toAgreeingSet.ne_nil
      · refine .inr (.inr ⟨_, hbest, ?_⟩)
        rw [heq]
        exact wholeClasses_membersOf ht
    · exact .inr (.inl hnone)
  · rintro (hlt | hnone | ⟨set, hbest, hwhole⟩)
    · exact exactSearch_of_lt hlt
    · by_cases htwo : sims.length < 2
      · exact .inr ⟨if_pos htwo, hnone⟩
      · obtain ⟨hnil, -⟩ | ⟨mask, -, ha, -⟩ :=
          bestAgreeingClique_best threshold (Nat.not_lt.mp htwo)
        · exact .inr ⟨hnil, hnone⟩
        · exact absurd (agreeingSet_membersOf ha) (hnone _)
    · exact exactSearch_of_whole hbest hwhole

/-- With 32 candidates the shift comes out at 1 and no mask is tried, whatever they agree on. -/
theorem clique_search_of_32 :
    ¬ ∀ sims : List (List Rat), SymmetricSims sims → ∀ threshold, ExactSearch sims threshold := by
  intro h
  have hsym : SymmetricSims (List.replicate 32 (List.replicate 32 1)) := by
    unfold SymmetricSims
    decide +kernel
  have hpair : AgreeingSet (List.replicate 32 (List.replicate 32 1)) (3 / 4) [0, 1] := by
    refine ⟨by decide, by decide, by decide, ?_⟩
    unfold IsClique
    decide +kernel
  have hnil : bestAgreeingClique (List.replicate 32 (List.replicate 32 1)) (3 / 4) = [] := by
    decide +kernel
  obtain hbest | ⟨-, hnone⟩ := h _ hsym (3 / 4)
  · exact hbest.toAgreeingSet.ne_nil hnil
  · exact hnone _ hpair

end Exact

end Arags
