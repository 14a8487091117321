import Arags.Qa.Query
import Mathlib.Algebra.Order.Ring.Unbundled.Rat

/-!
# Arags.Qa.DigestPlan

What `resolve_plan` makes of any thresholds: tier steps in any order, any bounds.

* `digestAt_mono`    — a later tier digests no less; past the schedule it is `novel_k`.
* `tier_of_higher`   — a higher similarity meets the same step or an earlier one.
* `digestK_antitone` — so it never digests more.
* `digest_plan`      — for which thresholds `provenance_k ≤ digest_k ≤ novel_k` comes out too.
-/

namespace Arags

/-- The first step that the similarity meets. -/
def tierOf (similarity : Rat) (steps : List Rat) : Option Nat :=
  steps.findIdx? fun step => decide (similarity ≥ step)

def digestAt (t : QaThresholds) (tier : Nat) : Nat :=
  min ((DIGEST_SCHEDULE[tier]?).getD t.novelK) t.novelK

def provenanceAt (t : QaThresholds) (tier : Nat) : Nat :=
  max (min ((PROV_SCHEDULE[tier]?).getD t.provenanceK) (digestAt t tier)) 1

/-- Below the floor, below every step, or too little in common. -/
def Misses (similarity jaccard : Rat) (t : QaThresholds) : Prop :=
  similarity < t.simFloor ∨ tierOf similarity t.tierSteps = none ∨ jaccard < t.jaccardMin

instance (similarity jaccard : Rat) (t : QaThresholds) : Decidable (Misses similarity jaccard t) :=
  inferInstanceAs (Decidable (similarity < t.simFloor ∨
    tierOf similarity t.tierSteps = none ∨ jaccard < t.jaccardMin))

/-- The plan widens as the similarity falls, and its bounds are in order. -/
structure PlanLawful (similarity jaccard : Rat) (t : QaThresholds) : Prop where
  widens : ∀ higher, similarity ≤ higher →
    (resolvePlan higher jaccard t).digestK ≤ (resolvePlan similarity jaccard t).digestK
  provenance : (resolvePlan similarity jaccard t).provenanceK ≤
    (resolvePlan similarity jaccard t).digestK
  digest : (resolvePlan similarity jaccard t).digestK ≤ t.novelK

/-! ## The two branches -/

theorem resolvePlan_miss {similarity jaccard : Rat} {t : QaThresholds}
    (h : Misses similarity jaccard t) : resolvePlan similarity jaccard t = missPlan t := by
  unfold resolvePlan
  split
  · rfl
  · rename_i hfloor
    split
    · rfl
    · rename_i tier htier
      rcases h with h | h | h
      · exact absurd h hfloor
      · rw [tierOf, htier] at h
        cases h
      · rw [if_pos h]

theorem resolvePlan_hit {similarity jaccard : Rat} {t : QaThresholds}
    (h : ¬ Misses similarity jaccard t) : ∃ tier, tierOf similarity t.tierSteps = some tier ∧
      resolvePlan similarity jaccard t = ⟨digestAt t tier, provenanceAt t tier, false, tier⟩ := by
  simp only [Misses, not_or] at h
  obtain ⟨hfloor, htier, hjaccard⟩ := h
  obtain ⟨tier, htier⟩ := Option.ne_none_iff_exists'.mp htier
  refine ⟨tier, htier, ?_⟩
  rw [tierOf] at htier
  unfold resolvePlan
  rw [if_neg hfloor, htier]
  dsimp only
  rw [if_neg hjaccard]
  rfl

/-! ## Widening -/

theorem digestAt_le (t : QaThresholds) (tier : Nat) : digestAt t tier ≤ t.novelK :=
  Nat.min_le_right ..

theorem schedule_sorted : DIGEST_SCHEDULE.Pairwise (· ≤ ·) := by decide

theorem schedule_pos : ∀ k ∈ DIGEST_SCHEDULE, 1 ≤ k := by decide

theorem digestAt_mono (t : QaThresholds) {i j : Nat} (h : i ≤ j) :
    digestAt t i ≤ digestAt t j := by
  unfold digestAt
  cases hj : DIGEST_SCHEDULE[j]? with
  | none => exact Nat.le_trans (Nat.min_le_right ..) (by simp)
  | some b =>
    obtain ⟨hlt, rfl⟩ := List.getElem?_eq_some_iff.mp hj
    have hi : i < DIGEST_SCHEDULE.length := Nat.lt_of_le_of_lt h hlt
    rw [List.getElem?_eq_getElem hi]
    have hle : DIGEST_SCHEDULE[i] ≤ DIGEST_SCHEDULE[j] := by
      rcases Nat.lt_or_eq_of_le h with h | rfl
      · exact List.pairwise_iff_getElem.mp schedule_sorted i j hi hlt h
      · exact Nat.le_refl _
    simp only [Option.getD_some]
    omega

theorem digestAt_pos {t : QaThresholds} (h : 1 ≤ t.novelK) (tier : Nat) : 1 ≤ digestAt t tier := by
  unfold digestAt
  cases htier : DIGEST_SCHEDULE[tier]? with
  | none => simpa using h
  | some k =>
    have hk := schedule_pos k (List.mem_of_getElem? htier)
    simp only [Option.getD_some]
    omega

/-- The steps need not descend: what meets a step, a higher similarity meets too. -/
theorem tier_of_higher {similarity higher : Rat} {steps : List Rat} {tier : Nat}
    (h : similarity ≤ higher) (htier : tierOf similarity steps = some tier) :
    ∃ tier' ≤ tier, tierOf higher steps = some tier' := by
  unfold tierOf at htier ⊢
  obtain ⟨hlt, hmeets, -⟩ := List.findIdx?_eq_some_iff_getElem.mp htier
  have hhigher : higher ≥ steps[tier] := Rat.le_trans (of_decide_eq_true hmeets) h
  cases hf : steps.findIdx? fun step => decide (higher ≥ step) with
  | none =>
    have hnone := List.findIdx?_eq_none_iff.mp hf steps[tier] (List.getElem_mem hlt)
    exact absurd hhigher (of_decide_eq_false hnone)
  | some tier' =>
    refine ⟨tier', ?_, rfl⟩
    obtain ⟨hlt', -, hbefore⟩ := List.findIdx?_eq_some_iff_getElem.mp hf
    by_contra hgt
    exact hbefore tier (Nat.lt_of_not_le hgt) (decide_eq_true hhigher)

theorem digestK_le (similarity jaccard : Rat) (t : QaThresholds) :
    (resolvePlan similarity jaccard t).digestK ≤ t.novelK := by
  by_cases h : Misses similarity jaccard t
  · rw [resolvePlan_miss h]
    exact Nat.le_refl _
  · obtain ⟨tier, -, he⟩ := resolvePlan_hit h
    rw [he]
    exact digestAt_le t tier

theorem digestK_antitone {similarity higher : Rat} (h : similarity ≤ higher) (jaccard : Rat)
    (t : QaThresholds) :
    (resolvePlan higher jaccard t).digestK ≤ (resolvePlan similarity jaccard t).digestK := by
  by_cases hmiss : Misses similarity jaccard t
  · -- a miss digests `novel_k`, and nothing digests more
    rw [resolvePlan_miss hmiss]
    exact digestK_le higher jaccard t
  · obtain ⟨tier, htier, he⟩ := resolvePlan_hit hmiss
    obtain ⟨tier', hle, htier'⟩ := tier_of_higher h htier
    have hhit : ¬ Misses higher jaccard t := by
      rintro (hfloor | hnone | hjaccard)
      · exact hmiss (.inl (lt_of_le_of_lt h hfloor))
      · rw [htier'] at hnone
        cases hnone
      · exact hmiss (.inr (.inr hjaccard))
    obtain ⟨tier'', htier'', he'⟩ := resolvePlan_hit hhit
    rw [htier', Option.some.injEq] at htier''
    subst htier''
    rw [he, he']
    exact digestAt_mono t hle

/-! ## The bounds -/

/-- A missed plan keeps its bounds in order when the configured ones are, and a served one when
there is anything to digest: it returns at least one chunk. -/
theorem digest_plan (similarity jaccard : Rat) (t : QaThresholds) :
    PlanLawful similarity jaccard t ↔
      if Misses similarity jaccard t then t.provenanceK ≤ t.novelK else 1 ≤ t.novelK := by
  split
  · rename_i hmiss
    have hplan := resolvePlan_miss hmiss
    constructor
    · intro h
      have hprovenance := h.provenance
      rw [hplan] at hprovenance
      exact hprovenance
    · intro h
      refine ⟨fun higher hle => digestK_antitone hle jaccard t, ?_, digestK_le similarity jaccard t⟩
      rw [hplan]
      exact h
  · rename_i hhit
    obtain ⟨tier, -, hplan⟩ := resolvePlan_hit hhit
    constructor
    · intro h
      have hprovenance := h.provenance
      rw [hplan] at hprovenance
      have hone : 1 ≤ digestAt t tier := Nat.le_trans (Nat.le_max_right ..) hprovenance
      exact Nat.le_trans hone (digestAt_le t tier)
    · intro h
      refine ⟨fun higher hle => digestK_antitone hle jaccard t, ?_, digestK_le similarity jaccard t⟩
      rw [hplan]
      exact Nat.max_le.mpr ⟨Nat.min_le_right .., digestAt_pos h tier⟩

/-- `novel_k` is set to 3 and `provenance_k` is left at 5: every miss has more provenance chunks
than it digests. -/
theorem digest_plan_narrow :
    resolvePlan 0 0 { QaThresholds.default with novelK := 3 } = ⟨3, 5, true, -1⟩ ∧
      ¬ ∀ similarity jaccard t, PlanLawful similarity jaccard t := by
  refine ⟨by decide +kernel, fun h => ?_⟩
  exact absurd (h 0 0 { QaThresholds.default with novelK := 3 }).provenance (by decide +kernel)

end Arags
