import Mathlib.Data.List.Nodup

/-!
# Sql.KeyTable

Tables with a primary key that their inserts supply, such as a text: a list of rows, no key twice.

* `insert? k r` — `INSERT …`; `none` where the key is taken.
* `update p f`, `delete p` — as in a table with row ids; keys do not change.
-/

namespace Sql

/-- Where no key is there twice, the first row with a key is the row with it. -/
theorem find?_key {κ ρ : Type} [DecidableEq κ] {l : List (κ × ρ)} (h : (l.map Prod.fst).Nodup)
    {k : κ} {r : ρ} : (l.find? fun x => x.1 == k).map Prod.snd = some r ↔ (k, r) ∈ l := by
  have hkey {x : κ × ρ} (hx : l.find? (fun x => x.1 == k) = some x) : x.1 = k := by
    simpa using List.find?_some hx
  constructor
  · intro hfind
    obtain ⟨x, hx, rfl⟩ := Option.map_eq_some_iff.mp hfind
    exact hkey hx ▸ List.mem_of_find?_eq_some hx
  · intro hmem
    obtain ⟨x, hx⟩ : ∃ x, l.find? (fun x => x.1 == k) = some x := by
      apply Option.isSome_iff_exists.mp
      rw [List.find?_isSome]
      exact ⟨_, hmem, by simp⟩
    have hsame := List.inj_on_of_nodup_map h (List.mem_of_find?_eq_some hx) hmem (hkey hx)
    rw [hx, hsame]
    rfl

/-- A table whose keys are pairwise distinct. -/
structure KeyTable (κ ρ : Type) where
  rows : List (κ × ρ)
  nodup : (rows.map Prod.fst).Nodup

namespace KeyTable

variable {κ ρ : Type}

def empty : KeyTable κ ρ := ⟨[], List.nodup_nil⟩

def update (t : KeyTable κ ρ) (p : κ → ρ → Bool) (f : κ → ρ → ρ) : KeyTable κ ρ where
  rows := t.rows.map fun x => if p x.1 x.2 then (x.1, f x.1 x.2) else x
  nodup := by
    have h : ∀ x : κ × ρ, (if p x.1 x.2 then (x.1, f x.1 x.2) else x).1 = x.1 := by
      intro x; split <;> rfl
    simpa [List.map_map, Function.comp_def, h] using t.nodup

def delete (t : KeyTable κ ρ) (p : κ → ρ → Bool) : KeyTable κ ρ where
  rows := t.rows.filter fun x => !p x.1 x.2
  nodup := t.nodup.sublist (List.filter_sublist.map _)

def select (t : KeyTable κ ρ) (p : κ → ρ → Bool) : List (κ × ρ) :=
  t.rows.filter fun x => p x.1 x.2

@[simp] theorem mem_select {t : KeyTable κ ρ} {p : κ → ρ → Bool} {k : κ} {r : ρ} :
    (k, r) ∈ t.select p ↔ (k, r) ∈ t.rows ∧ p k r = true := by
  simp [select]

theorem mem_update {t : KeyTable κ ρ} {p : κ → ρ → Bool} {f : κ → ρ → ρ} {k : κ} {r : ρ} :
    (k, r) ∈ (t.update p f).rows ↔
      ∃ s, (k, s) ∈ t.rows ∧ r = if p k s then f k s else s := by
  simp only [update, List.mem_map, Prod.exists]
  constructor
  · rintro ⟨j, s, hs, he⟩
    split at he
    · cases he; exact ⟨s, hs, by simp [*]⟩
    · cases he; exact ⟨r, hs, by simp [*]⟩
  · rintro ⟨s, hs, rfl⟩
    exact ⟨k, s, hs, by split <;> rfl⟩

@[simp] theorem mem_delete {t : KeyTable κ ρ} {p : κ → ρ → Bool} {k : κ} {r : ρ} :
    (k, r) ∈ (t.delete p).rows ↔ (k, r) ∈ t.rows ∧ p k r = false := by
  simp [delete]

@[simp] theorem not_mem_empty {k : κ} {r : ρ} : (k, r) ∉ (empty : KeyTable κ ρ).rows := by
  simp [empty]

variable [DecidableEq κ]

def get? (t : KeyTable κ ρ) (k : κ) : Option ρ := (t.rows.find? fun x => x.1 == k).map Prod.snd

def insert? (t : KeyTable κ ρ) (k : κ) (r : ρ) : Option (KeyTable κ ρ) :=
  if h : k ∈ t.rows.map Prod.fst then none
  else some {
    rows := t.rows ++ [(k, r)]
    nodup := by
      rw [List.map_append, List.nodup_append]
      refine ⟨t.nodup, by simp, ?_⟩
      rintro a ha b hb rfl
      have hk : a = k := by simpa using hb
      exact h (hk ▸ ha) }

theorem get?_eq_some {t : KeyTable κ ρ} {k : κ} {r : ρ} :
    t.get? k = some r ↔ (k, r) ∈ t.rows := find?_key t.nodup

theorem mem_insert? {t t' : KeyTable κ ρ} {k : κ} {x : ρ} (h : t.insert? k x = some t')
    {j : κ} {r : ρ} : (j, r) ∈ t'.rows ↔ (j, r) ∈ t.rows ∨ (j = k ∧ r = x) := by
  unfold insert? at h
  split at h
  · cases h
  · cases h
    simp

theorem insert?_new {t t' : KeyTable κ ρ} {k : κ} {x : ρ} (h : t.insert? k x = some t') (r : ρ) :
    (k, r) ∉ t.rows := by
  unfold insert? at h
  split at h
  · cases h
  · rename_i hk
    exact fun hr => hk (List.mem_map_of_mem hr)

end KeyTable

end Sql
