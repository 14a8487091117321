import Arags.Explore.Search
import Arags.Lib.Scores

/-!
# Arags.Explore.Confidence

What the confidence of a map does as its inputs grow, `arags-core/src/exploration.rs`.

* `ConfidenceConfig.Valid` — weights that take away, floors in the unit interval.
* `confidenceScore_eq` — the score from a decay for each kind of age and the balance of feedback.
* `confidence_laws` — range, the order in each argument, and balanced feedback.
-/

namespace Arags

open Scores

structure ConfidenceConfig.Valid (cfg : ConfidenceConfig) : Prop where
  driftWeight : 0 ≤ cfg.driftWeight
  ageWeight : 0 ≤ cfg.ageWeight
  feedbackWeight : 0 ≤ cfg.feedbackWeight
  driftFloor : 0 ≤ cfg.driftFloor ∧ cfg.driftFloor ≤ 1
  ageFloor : 0 ≤ cfg.ageFloor ∧ cfg.ageFloor ≤ 1

structure ConfidenceLaws (cfg : ConfidenceConfig) : Prop where
  range : ∀ similarity epochDrift ageDays confirmed contradicted,
    0 ≤ confidenceScore similarity epochDrift ageDays confirmed contradicted cfg ∧
      confidenceScore similarity epochDrift ageDays confirmed contradicted cfg ≤ 1
  similarity : ∀ epochDrift ageDays confirmed contradicted,
    Monotone fun s => confidenceScore s epochDrift ageDays confirmed contradicted cfg
  confirmed : ∀ similarity epochDrift ageDays contradicted,
    Monotone fun n => confidenceScore similarity epochDrift ageDays n contradicted cfg
  drift : ∀ similarity ageDays confirmed contradicted,
    Antitone fun n => confidenceScore similarity n ageDays confirmed contradicted cfg
  age : ∀ similarity epochDrift confirmed contradicted,
    Antitone fun n => confidenceScore similarity epochDrift n confirmed contradicted cfg
  contradicted : ∀ similarity epochDrift ageDays confirmed,
    Antitone fun n => confidenceScore similarity epochDrift ageDays confirmed n cfg
  balanced : ∀ similarity epochDrift ageDays n,
    confidenceScore similarity epochDrift ageDays n n cfg =
      confidenceScore similarity epochDrift ageDays 0 0 cfg

/-! ## The factors -/

theorem exactCount_mono : Monotone exactCount := by
  intro n m hnm
  exact Nat.cast_le.mpr (min_le_min_right MANTISSA_LIMIT hnm)

theorem exactCount_nonneg (n : Nat) : 0 ≤ exactCount n := Nat.cast_nonneg _

def ConfidenceConfig.ageRatio (cfg : ConfidenceConfig) (ageDays : Nat) : Rat :=
  if cfg.maxAgeDays ≤ 0 then 1 else exactCount ageDays / cfg.maxAgeDays

theorem ConfidenceConfig.ageRatio_mono (cfg : ConfidenceConfig) : Monotone cfg.ageRatio := by
  intro n m hnm
  rw [ageRatio, ageRatio]
  split
  next => exact le_refl 1
  next hmax => exact div_le_div_of_nonneg_right (exactCount_mono hnm) (le_of_not_ge hmax)

/-- The product of what is multiplied. -/
def ConfidenceConfig.trust (cfg : ConfidenceConfig) (similarity : Rat) (epochDrift ageDays : Nat) :
    Rat :=
  clamp similarity * decay cfg.driftWeight cfg.driftFloor (exactCount epochDrift) *
    decay cfg.ageWeight cfg.ageFloor (cfg.ageRatio ageDays)

theorem confidenceScore_eq (similarity : Rat) (epochDrift ageDays confirmed contradicted : Nat)
    (cfg : ConfidenceConfig) :
    confidenceScore similarity epochDrift ageDays confirmed contradicted cfg =
      clamp (cfg.trust similarity epochDrift ageDays +
        cfg.feedbackWeight * balance (exactCount confirmed) (exactCount contradicted)) := rfl

namespace ConfidenceConfig.Valid

variable {cfg : ConfidenceConfig} (h : cfg.Valid)

include h

theorem trust_similarity (epochDrift ageDays : Nat) :
    Monotone fun s => cfg.trust s epochDrift ageDays := by
  intro s s' hs
  have hdrift : 0 ≤ decay cfg.driftWeight cfg.driftFloor (exactCount epochDrift) :=
    decay_nonneg h.driftFloor.1 _
  exact mul_le_mul_of_nonneg_right (mul_le_mul_of_nonneg_right (clamp_monotone hs) hdrift)
    (decay_nonneg h.ageFloor.1 _)

theorem trust_drift (similarity : Rat) (ageDays : Nat) :
    Antitone fun n => cfg.trust similarity n ageDays := by
  intro n m hnm
  have hdecay : decay cfg.driftWeight cfg.driftFloor (exactCount m) ≤
      decay cfg.driftWeight cfg.driftFloor (exactCount n) :=
    decay_antitone h.driftWeight (exactCount_mono hnm)
  exact mul_le_mul_of_nonneg_right (mul_le_mul_of_nonneg_left hdecay (clamp_nonneg similarity))
    (decay_nonneg h.ageFloor.1 _)

theorem trust_age (similarity : Rat) (epochDrift : Nat) :
    Antitone (cfg.trust similarity epochDrift) := by
  intro n m hnm
  have hdecay : decay cfg.ageWeight cfg.ageFloor (cfg.ageRatio m) ≤
      decay cfg.ageWeight cfg.ageFloor (cfg.ageRatio n) :=
    decay_antitone h.ageWeight (cfg.ageRatio_mono hnm)
  exact mul_le_mul_of_nonneg_left hdecay
    (mul_nonneg (clamp_nonneg similarity) (decay_nonneg h.driftFloor.1 _))

/-- A score grows with what is multiplied and with what is added. -/
theorem score_le {similarity similarity' : Rat} {drift age c d drift' age' c' d' : Nat}
    (htrust : cfg.trust similarity drift age ≤ cfg.trust similarity' drift' age')
    (hbalance : balance (exactCount c) (exactCount d) ≤ balance (exactCount c') (exactCount d')) :
    confidenceScore similarity drift age c d cfg ≤
      confidenceScore similarity' drift' age' c' d' cfg := by
  rw [confidenceScore_eq, confidenceScore_eq]
  exact clamp_monotone
    (add_le_add htrust (mul_le_mul_of_nonneg_left hbalance h.feedbackWeight))

end ConfidenceConfig.Valid

/-! ## The laws -/

theorem confidence_laws (cfg : ConfidenceConfig) (h : cfg.Valid) : ConfidenceLaws cfg where
  range similarity epochDrift ageDays confirmed contradicted :=
    ⟨clamp_nonneg _, clamp_le_one _⟩
  similarity epochDrift ageDays confirmed contradicted := by
    intro s s' hs
    exact h.score_le (h.trust_similarity epochDrift ageDays hs) (le_refl _)
  confirmed similarity epochDrift ageDays contradicted := by
    intro n m hnm
    exact h.score_le (le_refl _) (balance_mono_left (exactCount_nonneg n)
      (exactCount_nonneg contradicted) (exactCount_mono hnm))
  drift similarity ageDays confirmed contradicted := by
    intro n m hnm
    exact h.score_le (h.trust_drift similarity ageDays hnm) (le_refl _)
  age similarity epochDrift confirmed contradicted := by
    intro n m hnm
    exact h.score_le (h.trust_age similarity epochDrift hnm) (le_refl _)
  contradicted similarity epochDrift ageDays confirmed := by
    intro n m hnm
    exact h.score_le (le_refl _) (balance_anti_right (exactCount_nonneg confirmed)
      (exactCount_nonneg n) (exactCount_mono hnm))
  balanced similarity epochDrift ageDays n := by
    rw [confidenceScore_eq, confidenceScore_eq, balance_self, balance_self]

theorem default_valid : ConfidenceConfig.default.Valid where
  driftWeight := by norm_num [ConfidenceConfig.default]
  ageWeight := by norm_num [ConfidenceConfig.default]
  feedbackWeight := by norm_num [ConfidenceConfig.default]
  driftFloor := by norm_num [ConfidenceConfig.default]
  ageFloor := by norm_num [ConfidenceConfig.default]

theorem confidence_laws_default :
    ConfidenceConfig.default.Valid ∧ ConfidenceLaws ConfidenceConfig.default :=
  ⟨default_valid, confidence_laws ConfidenceConfig.default default_valid⟩

end Arags
