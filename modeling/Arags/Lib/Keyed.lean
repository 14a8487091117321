import Mathlib.Data.List.Nodup

/-!
# Keyed.Values

Lists of keyed values, as a stream of writes delivers them, and what a key holds after such a
stream.

* `valuesAt k l` — the values that `l` has for the key `k`, in order.
* `settle known vs ds` — what a cell holding `vs` holds after the values `ds`: a known cell keeps
  the last one, an unknown cell keeps them all.
-/

namespace Keyed

variable {κ η : Type} [DecidableEq κ]

def valuesAt (k : κ) (l : List (κ × η)) : List η := (l.filter fun x => x.1 == k).map Prod.snd

@[simp] theorem valuesAt_nil (k : κ) : valuesAt k ([] : List (κ × η)) = [] := rfl

theorem valuesAt_cons (k : κ) (x : κ × η) (l : List (κ × η)) :
    valuesAt k (x :: l) = if x.1 = k then x.2 :: valuesAt k l else valuesAt k l := by
  unfold valuesAt
  rw [List.filter_cons]
  by_cases h : x.1 = k
  · simp [h]
  · simp [h]

@[simp] theorem valuesAt_append (k : κ) (l l' : List (κ × η)) :
    valuesAt k (l ++ l') = valuesAt k l ++ valuesAt k l' := by
  simp [valuesAt]

theorem mem_valuesAt {k : κ} {v : η} {l : List (κ × η)} : v ∈ valuesAt k l ↔ (k, v) ∈ l := by
  simp [valuesAt]

theorem valuesAt_eq_nil {k : κ} {l : List (κ × η)} :
    valuesAt k l = [] ↔ k ∉ l.map Prod.fst := by
  rw [List.eq_nil_iff_forall_not_mem]
  constructor
  · rintro h hk
    obtain ⟨⟨k', v⟩, hx, rfl⟩ := List.mem_map.mp hk
    exact h v (mem_valuesAt.mpr hx)
  · intro h v hv
    exact h (List.mem_map.mpr ⟨(k, v), mem_valuesAt.mp hv, rfl⟩)

theorem valuesAt_of_nodup {k : κ} {v : η} {l : List (κ × η)} (hl : (l.map Prod.fst).Nodup)
    (h : (k, v) ∈ l) : valuesAt k l = [v] := by
  induction l with
  | nil => cases h
  | cons x l ih =>
    rw [List.map_cons, List.nodup_cons] at hl
    rw [valuesAt_cons]
    rcases List.mem_cons.mp h with rfl | h
    · rw [if_pos rfl, valuesAt_eq_nil.mpr hl.1]
    · have hne : x.1 ≠ k := by
        rintro rfl
        exact hl.1 (List.mem_map.mpr ⟨_, h, rfl⟩)
      rw [if_neg hne, ih hl.2 h]

theorem length_valuesAt_le_one {l : List (κ × η)} (hl : (l.map Prod.fst).Nodup) (k : κ) :
    (valuesAt k l).length ≤ 1 := by
  cases h : valuesAt k l with
  | nil => exact Nat.zero_le _
  | cons v vs =>
    have hv : v ∈ valuesAt k l := by rw [h]; exact List.mem_cons_self
    rw [valuesAt_of_nodup hl (mem_valuesAt.mp hv)] at h
    rw [← h]
    exact Nat.le_refl _

/-! ## Cells -/

/-- One value delivered to a cell. -/
def put (known : Bool) (vs : List η) (v : η) : List η := if known then [v] else vs ++ [v]

def settle (known : Bool) (vs ds : List η) : List η :=
  if known then (ds.getLast?.map fun v => [v]).getD vs else vs ++ ds

@[simp] theorem settle_nil (known : Bool) (vs : List η) : settle known vs [] = vs := by
  cases known <;> simp [settle]

theorem settle_put (known : Bool) (vs : List η) (d : η) (ds : List η) :
    settle known (put known vs d) ds = settle known vs (d :: ds) := by
  cases known with
  | false => simp [settle, put]
  | true =>
    cases ds with
    | nil => simp [settle, put]
    | cons e ds =>
      simp only [settle, put, if_true, List.getLast?_cons_cons]
      rw [List.getLast?_eq_some_getLast (List.cons_ne_nil e ds)]
      rfl

end Keyed
