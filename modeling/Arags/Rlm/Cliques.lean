import Arags.Rlm.Consensus

/-!
# Arags.Rlm.Cliques

What the search of `best_agreeing_clique` finds. The masks are of 32 bits and a shift count is taken
modulo 32, so with `m` candidates a mask has `m % 32` bits to choose from, and a bit stands for all
candidates whose index is that modulo 32.

* `bestAgreeingClique_spec` — what is found is an agreeing set of a mask, and no such set is larger.
* `length_membersOf`        — how many candidates a mask stands for.
-/

namespace Arags

/-- The candidates agree pairwise. -/
def IsClique (sims : List (List Rat)) (threshold : Rat) (set : List Nat) : Prop :=
  set.Pairwise fun a b => threshold ≤ (sims.getD a []).getD b 0

theorem forall_pairSims {sims : List (List Rat)} {set : List Nat} {P : Rat → Prop} :
    (∀ x ∈ pairSims sims set, P x) ↔ set.Pairwise fun a b => P ((sims.getD a []).getD b 0) := by
  induction set with
  | nil => simp [pairSims]
  | cons a rest ih =>
    rw [pairSims, List.pairwise_cons, ← ih]
    simp only [List.mem_append, List.mem_map]
    constructor
    · intro h
      exact ⟨fun b hb => h _ (.inl ⟨b, hb, rfl⟩), fun x hx => h x (.inr hx)⟩
    · rintro ⟨ha, hrest⟩ x (⟨b, hb, rfl⟩ | hx)
      · exact ha b hb
      · exact hrest x hx

theorem all_pairSims {sims : List (List Rat)} {threshold : Rat} {set : List Nat} :
    ((pairSims sims set).all fun s => decide (threshold ≤ s)) = true ↔
      IsClique sims threshold set := by
  rw [List.all_eq_true]
  simp only [decide_eq_true_eq]
  exact forall_pairSims

/-! ## The search -/

section Search

variable {sims : List (List Rat)} {threshold : Rat}

/-- A mask the search can settle on. -/
structure Agrees (sims : List (List Rat)) (threshold : Rat) (mask : Nat) : Prop where
  two : 2 ≤ (membersOf sims.length mask).length
  clique : IsClique sims threshold (membersOf sims.length mask)

/-- The best of the masks tried so far. -/
structure BestOf (sims : List (List Rat)) (threshold : Rat) (tried : List Nat)
    (best : BestClique) : Prop where
  found : best.members = [] ∨ ∃ mask ∈ tried, Agrees sims threshold mask ∧
    best.members = membersOf sims.length mask
  max : ∀ mask ∈ tried, Agrees sims threshold mask →
    (membersOf sims.length mask).length ≤ best.members.length

theorem BestOf.considerMask {tried : List Nat} {best : BestClique}
    (h : BestOf sims threshold tried best) (mask : Nat) :
    BestOf sims threshold (mask :: tried) (considerMask sims threshold best mask) := by
  have hkeep : (Agrees sims threshold mask →
      (membersOf sims.length mask).length ≤ best.members.length) →
      BestOf sims threshold (mask :: tried) best := by
    intro hle
    refine ⟨h.found.imp id ?_, List.forall_mem_cons.mpr ⟨hle, h.max⟩⟩
    rintro ⟨m, hm, hrest⟩
    exact ⟨m, List.mem_cons_of_mem mask hm, hrest⟩
  unfold Arags.considerMask
  dsimp only
  split
  · rename_i htwo
    exact hkeep fun ha => absurd ha.two (Nat.not_le.mpr htwo)
  · rename_i htwo
    split
    · rename_i hc
      rw [Bool.and_eq_true, all_pairSims] at hc
      obtain ⟨hclique, hbetter⟩ := hc
      have hle : best.members.length ≤ (membersOf sims.length mask).length := by
        simp only [Bool.or_eq_true, Bool.and_eq_true, decide_eq_true_eq, beq_iff_eq] at hbetter
        omega
      have hagrees : Agrees sims threshold mask := ⟨Nat.not_lt.mp htwo, hclique⟩
      refine ⟨.inr ⟨mask, List.mem_cons_self, hagrees, rfl⟩, ?_⟩
      rw [List.forall_mem_cons]
      exact ⟨fun _ => Nat.le_refl _, fun m hm ha => Nat.le_trans (h.max m hm ha) hle⟩
    · rename_i hc
      refine hkeep fun ha => ?_
      rw [Bool.and_eq_true, all_pairSims] at hc
      by_contra hlt
      exact hc ⟨ha.clique, by simp [Nat.not_le.mp hlt]⟩

theorem bestOf_fold (masks tried : List Nat) {best : BestClique}
    (h : BestOf sims threshold tried best) :
    ∃ all, (∀ m, m ∈ all ↔ m ∈ tried ∨ m ∈ masks) ∧
      BestOf sims threshold all (masks.foldl (considerMask sims threshold) best) := by
  induction masks generalizing tried best with
  | nil => exact ⟨tried, by simp, h⟩
  | cons mask masks ih =>
    obtain ⟨all, hall, hbest⟩ := ih (mask :: tried) (h.considerMask mask)
    refine ⟨all, fun m => (hall m).trans ?_, hbest⟩
    simp only [List.mem_cons]
    tauto

/-- The masks that are tried. -/
def Tried (m mask : Nat) : Prop := 1 ≤ mask ∧ mask < 2 ^ (m % 32)

theorem bestAgreeingClique_spec (threshold : Rat) (hm : 2 ≤ sims.length) :
    (bestAgreeingClique sims threshold = [] ∨ ∃ mask, Tried sims.length mask ∧
      Agrees sims threshold mask ∧
      bestAgreeingClique sims threshold = membersOf sims.length mask) ∧
    ∀ mask, Tried sims.length mask → Agrees sims threshold mask →
      (membersOf sims.length mask).length ≤ (bestAgreeingClique sims threshold).length := by
  have hstart : BestOf sims threshold [] ⟨[], none⟩ := ⟨.inl rfl, nofun⟩
  obtain ⟨all, hall, hbest⟩ :=
    bestOf_fold (List.range' 1 (2 ^ (sims.length % 32) - 1)) [] hstart
  have htried : ∀ mask, mask ∈ all ↔ Tried sims.length mask := by
    intro mask
    have hpos : 0 < 2 ^ (sims.length % 32) := Nat.two_pow_pos _
    rw [hall, List.mem_range'_1]
    simp only [List.not_mem_nil, false_or, Tried]
    omega
  unfold bestAgreeingClique
  rw [if_neg (by omega)]
  refine ⟨hbest.found.imp id ?_, fun mask ht => hbest.max mask ((htried mask).mpr ht)⟩
  rintro ⟨mask, hm, ha, he⟩
  exact ⟨mask, (htried mask).mp hm, ha, he⟩

end Search

/-! ## Sizes -/

theorem mem_membersOf {n mask i : Nat} :
    i ∈ membersOf n mask ↔ i < n ∧ mask.testBit (i % 32) = true := by
  simp [membersOf]

theorem membersOf_increasing (n mask : Nat) : (membersOf n mask).Pairwise (· < ·) :=
  List.pairwise_lt_range.filter _

/-- A predicate on the residues modulo 32 is counted once for each full round. -/
theorem countP_range_rounds (p : Nat → Bool) (q r : Nat) :
    (List.range (32 * q + r)).countP (fun i => p (i % 32)) =
      q * (List.range 32).countP p + (List.range r).countP fun i => p (i % 32) := by
  induction q with
  | zero => simp
  | succ q ih =>
    have hsplit : 32 * (q + 1) + r = 32 + (32 * q + r) := by omega
    have hfirst : (List.range 32).countP (fun i => p (i % 32)) = (List.range 32).countP p := by
      refine List.countP_congr fun i hi => ?_
      rw [Nat.mod_eq_of_lt (List.mem_range.mp hi)]
    have hrest : ((List.range (32 * q + r)).map (32 + ·)).countP (fun i => p (i % 32)) =
        (List.range (32 * q + r)).countP fun i => p (i % 32) := by
      rw [List.countP_map]
      refine List.countP_congr fun i _ => ?_
      simp only [Function.comp_apply, Nat.add_mod_left]
    rw [hsplit, List.range_add, List.countP_append, hfirst, hrest, ih, Nat.succ_mul]
    omega

theorem countP_testBit {mask r n : Nat} (h : mask < 2 ^ r) (hr : r ≤ n) :
    (List.range n).countP (fun i => mask.testBit i) =
      (List.range r).countP fun i => mask.testBit i := by
  obtain ⟨k, rfl⟩ := Nat.exists_eq_add_of_le hr
  rw [List.range_add, List.countP_append, Nat.add_eq_left, List.countP_eq_zero]
  intro i hi
  obtain ⟨j, -, rfl⟩ := List.mem_map.mp hi
  have hle : 2 ^ r ≤ 2 ^ (r + j) := Nat.pow_le_pow_right (by decide) (Nat.le_add_right r j)
  rw [Nat.testBit_lt_two_pow (Nat.lt_of_lt_of_le h hle)]
  exact Bool.false_ne_true

/-- The size of the set of a mask: its bits, once for each round of 32. -/
theorem length_membersOf {m mask : Nat} (h : mask < 2 ^ (m % 32)) :
    (membersOf m mask).length =
      (List.range (m % 32)).countP (fun i => mask.testBit i) * (m / 32 + 1) := by
  have hlt : m % 32 < 32 := Nat.mod_lt m (by decide)
  have hlast : (List.range (m % 32)).countP (fun i => mask.testBit (i % 32)) =
      (List.range (m % 32)).countP fun i => mask.testBit i := by
    refine List.countP_congr fun i hi => ?_
    rw [Nat.mod_eq_of_lt (Nat.lt_trans (List.mem_range.mp hi) hlt)]
  have hcount : (membersOf m mask).length =
      (List.range m).countP fun i => mask.testBit (i % 32) := (List.countP_eq_length_filter ..).symm
  have hrounds := countP_range_rounds (fun i => mask.testBit i) (m / 32) (m % 32)
  rw [Nat.div_add_mod] at hrounds
  rw [hcount, hrounds, countP_testBit h (Nat.le_of_lt hlt), hlast, Nat.mul_add, Nat.mul_one,
    Nat.mul_comm]

end Arags
