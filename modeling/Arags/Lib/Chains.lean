import Mathlib.Logic.Relation
import Mathlib.Data.List.Pairwise

/-!
# Chains.Links

Revisions that point at their successors: each id holds a link, with the subject it revises, a
live mark, a version and the id of the revision that replaced it. Ids grow, so a walk along the
links ends, whatever they point at.

* `supersede m old id s` — the live revision `old` of `s` is replaced by the new id `id`.
* `remove m gone`        — some ids are deleted.
* `Shape`  — what both keep: links go to larger ids, one live revision a subject, nothing after
  a live one.
* `Linked` — a replaced revision points at the next one of its subject; `linked_remove_iff` says
  which deletions keep that.
* `walk`   — the revisions from an id on; `walk_total`, `walk_spec`.
* `Succession`, `Chronicle` — the shape without deletions: the revisions of a subject are those
  from version 1 on, in order; `Chronicle.supersede`, `Succession.walk`.
-/

namespace Chains

structure Link (κ : Type) where
  subject : κ
  live : Bool
  version : Int
  next : Option Int
  deriving DecidableEq, Repr

abbrev Links (κ : Type) := Int → Option (Link κ)

variable {κ : Type}

/-- The new revision is live; the old one, when there is one, points at it. -/
def supersede (m : Links κ) (old : Option Int) (id : Int) (s : κ) (version : Int) : Links κ :=
  fun i =>
    if i = id then some ⟨s, true, version, none⟩
    else if some i = old then (m i).map fun l => { l with live := false, next := some id }
    else m i

def remove (m : Links κ) (gone : Int → Bool) : Links κ := fun i => if gone i then none else m i

structure Shape (m : Links κ) : Prop where
  forward : ∀ i l j, m i = some l → l.next = some j → i < j
  unique : ∀ i j l k, m i = some l → m j = some k → l.live = true → k.live = true →
    l.subject = k.subject → i = j
  ends : ∀ i l, m i = some l → l.live = true → l.next = none

/-- A revision that is not live points at the next one of its subject. -/
def Linked (m : Links κ) : Prop :=
  ∀ i l, m i = some l → l.live = false → ∃ j k, l.next = some j ∧ m j = some k ∧
    k.subject = l.subject ∧ k.version = l.version + 1

/-- The revision that is replaced: the live one of the subject, if there is one. -/
structure Current (m : Links κ) (s : κ) (version : Int) (old : Option Int) : Prop where
  live : ∀ i, old = some i → ∃ l, m i = some l ∧ l.subject = s ∧ l.live = true ∧
    version = l.version + 1
  none : old = none → ∀ i l, m i = some l → l.subject = s → l.live = false

theorem Shape.empty : Shape (fun _ => none : Links κ) where
  forward := by intro i l j h; cases h
  unique := by intro i j l k h; cases h
  ends := by intro i l h; cases h

theorem Linked.empty : Linked (fun _ => none : Links κ) := by
  intro i l h; cases h

section Supersede

variable {m : Links κ} {old : Option Int} {id : Int} {s : κ} {version : Int}

/-- What the ids hold after a replacement. -/
theorem supersede_cases {i : Int} {l : Link κ}
    (h : supersede m old id s version i = some l) :
    (i = id ∧ l = ⟨s, true, version, none⟩) ∨
    (i ≠ id ∧ some i = old ∧ ∃ l₀, m i = some l₀ ∧
      l = { l₀ with live := false, next := some id }) ∨
    (i ≠ id ∧ some i ≠ old ∧ m i = some l) := by
  unfold supersede at h
  split at h
  · rename_i hi
    cases h
    exact .inl ⟨hi, rfl⟩
  · rename_i hi
    split at h
    · rename_i ho
      obtain ⟨l₀, hl₀, rfl⟩ := Option.map_eq_some_iff.mp h
      exact .inr (.inl ⟨hi, ho, l₀, hl₀, rfl⟩)
    · rename_i ho
      exact .inr (.inr ⟨hi, ho, h⟩)

theorem supersede_new : supersede m old id s version id = some ⟨s, true, version, none⟩ :=
  if_pos rfl

/-- The old ids stay, with their subjects and versions. -/
theorem supersede_old (hid : ∀ i l, m i = some l → i < id) {i : Int} {l : Link κ}
    (h : m i = some l) : ∃ k, supersede m old id s version i = some k ∧
      k.subject = l.subject ∧ k.version = l.version := by
  have hne : i ≠ id := Int.ne_of_lt (hid i l h)
  unfold supersede
  rw [if_neg hne]
  split
  · rw [h]
    exact ⟨_, rfl, rfl, rfl⟩
  · exact ⟨l, h, rfl, rfl⟩

theorem Shape.supersede (hm : Shape m) (hid : ∀ i l, m i = some l → i < id)
    (hold : Current m s version old) : Shape (supersede m old id s version) := by
  have hlive : ∀ i l, Chains.supersede m old id s version i = some l → l.live = true →
      l.subject = s → i = id := by
    intro i l h hl hs
    rcases supersede_cases h with ⟨hi, -⟩ | ⟨-, -, l₀, -, rfl⟩ | ⟨-, ho, h⟩
    · exact hi
    · cases hl
    · cases hold' : old with
      | none =>
        rw [hold.none hold' i l h hs] at hl
        cases hl
      | some j =>
        obtain ⟨k, hk, hks, hkl, -⟩ := hold.live j hold'
        have : i = j := hm.unique i j l k h hk hl hkl (hs.trans hks.symm)
        exact absurd (congrArg some this) (hold' ▸ ho)
  refine ⟨?_, ?_, ?_⟩
  · intro i l j h hn
    rcases supersede_cases h with ⟨-, rfl⟩ | ⟨-, -, l₀, h₀, rfl⟩ | ⟨-, -, h⟩
    · cases hn
    · cases hn
      exact hid i l₀ h₀
    · exact hm.forward i l j h hn
  · intro i j l k h h' hl hk hs
    by_cases hsub : l.subject = s
    · rw [hlive i l h hl hsub, hlive j k h' hk (hs ▸ hsub)]
    · rcases supersede_cases h with ⟨-, rfl⟩ | ⟨-, -, l₀, -, rfl⟩ | ⟨-, -, h⟩
      · exact absurd rfl hsub
      · cases hl
      · rcases supersede_cases h' with ⟨-, rfl⟩ | ⟨-, -, l₀, -, rfl⟩ | ⟨-, -, h'⟩
        · exact absurd hs hsub
        · cases hk
        · exact hm.unique i j l k h h' hl hk hs
  · intro i l h hl
    rcases supersede_cases h with ⟨-, rfl⟩ | ⟨-, -, l₀, -, rfl⟩ | ⟨-, -, h⟩
    · rfl
    · cases hl
    · exact hm.ends i l h hl

theorem Linked.supersede (hm : Linked m) (hid : ∀ i l, m i = some l → i < id)
    (hold : Current m s version old) : Linked (supersede m old id s version) := by
  intro i l h hl
  rcases supersede_cases h with ⟨-, rfl⟩ | ⟨-, ho, l₀, h₀, rfl⟩ | ⟨-, -, h⟩
  · cases hl
  · obtain ⟨l₁, h₁, hs, -, hv⟩ := hold.live i ho.symm
    rw [h₀, Option.some.injEq] at h₁
    subst h₁
    exact ⟨id, _, rfl, supersede_new, hs.symm, hv⟩
  · obtain ⟨j, k, hn, hk, hs, hv⟩ := hm i l h hl
    obtain ⟨k', hk', hs', hv'⟩ : ∃ k', Chains.supersede m old id s version j = some k' ∧
        k'.subject = k.subject ∧ k'.version = k.version := supersede_old hid hk
    exact ⟨j, k', hn, hk', hs'.trans hs, hv'.trans hv⟩

end Supersede

section Remove

variable {m : Links κ} {gone : Int → Bool}

theorem remove_eq_some {i : Int} {l : Link κ} :
    remove m gone i = some l ↔ gone i = false ∧ m i = some l := by
  unfold remove
  cases gone i <;> simp

theorem Shape.remove (hm : Shape m) (gone : Int → Bool) : Shape (remove m gone) where
  forward := by
    intro i l j h hn
    exact hm.forward i l j (remove_eq_some.mp h).2 hn
  unique := by
    intro i j l k h h' hl hk hs
    exact hm.unique i j l k (remove_eq_some.mp h).2 (remove_eq_some.mp h').2 hl hk hs
  ends := by
    intro i l h hl
    exact hm.ends i l (remove_eq_some.mp h).2 hl

/-- The chains survive exactly the deletions that take no successor from a revision they
leave. -/
theorem linked_remove_iff (hs : Shape m) (hm : Linked m) : Linked (remove m gone) ↔
    ∀ i l j, m i = some l → gone i = false → l.next = some j → gone j = false := by
  constructor
  · intro h i l j hi hg hn
    have hl : l.live = false := by
      cases hl : l.live with
      | false => rfl
      | true =>
        rw [hs.ends i l hi hl] at hn
        cases hn
    obtain ⟨j', k, hn', hk, -⟩ := h i l (remove_eq_some.mpr ⟨hg, hi⟩) hl
    rw [hn, Option.some.injEq] at hn'
    subst hn'
    exact (remove_eq_some.mp hk).1
  · intro h i l hi hl
    obtain ⟨hg, hi⟩ := remove_eq_some.mp hi
    obtain ⟨j, k, hn, hk, hsub, hv⟩ := hm i l hi hl
    exact ⟨j, k, hn, remove_eq_some.mpr ⟨h i l j hi hg hn, hk⟩, hsub, hv⟩

end Remove

/-! ## Walks -/

/-- `i` points at `j`. -/
def Points (m : Links κ) (i j : Int) : Prop := ∃ l, m i = some l ∧ l.next = some j

theorem Shape.acyclic {m : Links κ} (hm : Shape m) (i : Int) :
    ¬ Relation.TransGen (Points m) i i := by
  have hlt : ∀ j, Relation.TransGen (Points m) i j → i < j := by
    intro j h
    induction h with
    | single h =>
      obtain ⟨l, hl, hn⟩ := h
      exact hm.forward _ l _ hl hn
    | tail _ h ih =>
      obtain ⟨l, hl, hn⟩ := h
      exact Int.lt_trans ih (hm.forward _ l _ hl hn)
  intro h
  exact Int.lt_irrefl i (hlt i h)

/-- The revisions from an id on, oldest first; nothing when the fuel runs out. -/
def walk (m : Links κ) : Nat → Option Int → Option (List (Int × Link κ))
  | _, none => some []
  | 0, some _ => none
  | fuel + 1, some i =>
    match m i with
    | none => some []
    | some l => (walk m fuel l.next).map fun rest => (i, l) :: rest

/-- A walk ends: there is no id past `bound`. -/
theorem walk_total {m : Links κ} (hm : Shape m) {bound : Int}
    (hb : ∀ i l, m i = some l → i ≤ bound) :
    ∀ (fuel : Nat) (i : Int), bound + 1 - i < fuel → 0 < fuel →
      ∃ h, walk m fuel (some i) = some h := by
  intro fuel
  induction fuel with
  | zero => intro i _ h; omega
  | succ fuel ih =>
    intro i hfuel _
    rw [walk]
    cases hi : m i with
    | none => exact ⟨[], rfl⟩
    | some l =>
      cases hn : l.next with
      | none => exact ⟨[(i, l)], by cases fuel <;> simp [walk, hn]⟩
      | some j =>
        have hlt := hm.forward i l j hi hn
        have hle := hb i l hi
        obtain ⟨rest, hrest⟩ := ih j (by omega) (by omega)
        exact ⟨(i, l) :: rest, by simp [hn, hrest]⟩

/-- What a history is of: one subject, versions one after the other, a live revision last. -/
structure History (m : Links κ) (i : Int) (l : Link κ) (h : List (Int × Link κ)) : Prop where
  starts : h.head? = some (i, l)
  rows : ∀ x ∈ h, m x.1 = some x.2
  subject : ∀ x ∈ h, x.2.subject = l.subject
  versions : h.Pairwise fun x y => x.2.version < y.2.version
  ends : ∃ x, h.getLast? = some x ∧ x.2.live = true

theorem walk_spec {m : Links κ} (hm : Shape m) (hl : Linked m) :
    ∀ {fuel : Nat} {i : Int} {l : Link κ} {h : List (Int × Link κ)}, m i = some l →
      walk m fuel (some i) = some h →
      History m i l h ∧ ∀ x ∈ h, l.version ≤ x.2.version := by
  intro fuel
  induction fuel with
  | zero => intro i l h _ hw; cases hw
  | succ fuel ih =>
    intro i l h hi hw
    simp only [walk, hi] at hw
    obtain ⟨rest, hrest, rfl⟩ := Option.map_eq_some_iff.mp hw
    cases hlive : l.live with
    | true =>
      rw [hm.ends i l hi hlive] at hrest
      have : rest = [] := by cases fuel <;> simpa [walk] using hrest.symm
      subst this
      refine ⟨⟨rfl, ?_, ?_, List.pairwise_singleton _ _, _, rfl, hlive⟩, ?_⟩
      · intro x hx
        rw [List.mem_singleton.mp hx]
        exact hi
      · intro x hx
        rw [List.mem_singleton.mp hx]
      · intro x hx
        have hx := List.mem_singleton.mp hx
        subst hx
        exact Int.le_refl _
    | false =>
      obtain ⟨j, k, hn, hk, hs, hv⟩ := hl i l hi hlive
      rw [hn] at hrest
      obtain ⟨hh, hle⟩ := ih hk hrest
      obtain ⟨last, hlast, hlastlive⟩ := hh.ends
      have habove : ∀ x ∈ rest, l.version < x.2.version := by
        intro x hx
        have := hle x hx
        omega
      refine ⟨⟨rfl, ?_, ?_, List.pairwise_cons.mpr ⟨habove, hh.versions⟩, last, ?_, hlastlive⟩, ?_⟩
      · intro x hx
        rcases List.mem_cons.mp hx with rfl | hx
        · exact hi
        · exact hh.rows x hx
      · intro x hx
        rcases List.mem_cons.mp hx with rfl | hx
        · rfl
        · exact (hh.subject x hx).trans hs
      · rw [List.getLast?_cons, hlast]
        rfl
      · intro x hx
        rcases List.mem_cons.mp hx with rfl | hx
        · exact Int.le_refl _
        · exact Int.le_of_lt (habove x hx)

/-! ## Successions -/

/-- The revisions of `s` from version 1 on: each points at the next one, the last is live. -/
def Succession (m : Links κ) (s : κ) (ids : List Int) : Prop :=
  ∀ (n : Nat) (h : n < ids.length),
    m ids[n] = some ⟨s, decide (n + 1 = ids.length), (n : Int) + 1, ids[n + 1]?⟩

/-- Each subject with its revisions, and no others. -/
structure Chronicle (m : Links κ) (revisions : κ → List Int) : Prop where
  complete : ∀ i l, m i = some l → i ∈ revisions l.subject
  each : ∀ s, Succession m s (revisions s)

theorem Chronicle.empty : Chronicle (fun _ => none : Links κ) fun _ => [] where
  complete := by intro i l h; cases h
  each := by intro s n h; cases h

theorem Succession.mem {m : Links κ} {s : κ} {ids : List Int} (h : Succession m s ids) {i : Int}
    (hi : i ∈ ids) : ∃ n, ∃ hn : n < ids.length, ids[n] = i ∧
      m i = some ⟨s, decide (n + 1 = ids.length), (n : Int) + 1, ids[n + 1]?⟩ := by
  obtain ⟨n, hn, rfl⟩ := List.getElem_of_mem hi
  exact ⟨n, hn, rfl, h n hn⟩

/-- The walk from a revision lists it and the later ones. -/
theorem Succession.walk {m : Links κ} {s : κ} {ids : List Int} (h : Succession m s ids) :
    ∀ {fuel n : Nat}, ids.length < fuel + n →
      (walk m fuel ids[n]?).map (List.map Prod.fst) = some (ids.drop n) := by
  intro fuel
  induction fuel with
  | zero =>
    intro n hf
    have hn : ids.length ≤ n := by omega
    rw [List.getElem?_eq_none hn, List.drop_eq_nil_of_le hn]
    rfl
  | succ fuel ih =>
    intro n hf
    by_cases hn : n < ids.length
    · have hrest := ih (n := n + 1) (by omega)
      rw [List.getElem?_eq_getElem hn, Chains.walk, h n hn, List.drop_eq_getElem_cons hn]
      dsimp only
      obtain ⟨rest, hw, hids⟩ := Option.map_eq_some_iff.mp hrest
      rw [hw, Option.map_some, Option.map_some, List.map_cons, hids]
    · have hn : ids.length ≤ n := by omega
      rw [List.getElem?_eq_none hn, List.drop_eq_nil_of_le hn]
      rfl

section Next

variable {m : Links κ} {old : Option Int} {id : Int} {s : κ} {version : Int} {ids : List Int}

/-- The live revision is the last of its succession. -/
theorem Succession.current (h : Succession m s ids)
    (hall : ∀ i l, m i = some l → l.subject = s → i ∈ ids) (hold : Current m s version old)
    (hfirst : old = none → version = 1) :
    old = ids.getLast? ∧ version = (ids.length : Int) + 1 := by
  cases ho : old with
  | none =>
    have hnil : ids = [] := by
      rcases List.eq_nil_or_concat ids with hnil | ⟨init, i, hids⟩
      · exact hnil
      · subst hids
        have hlast := h init.length (by simp)
        have := hold.none ho _ _ hlast rfl
        simp at this
    subst hnil
    exact ⟨rfl, hfirst ho⟩
  | some j =>
    obtain ⟨l, hl, hs, hlive, hv⟩ := hold.live j ho
    obtain ⟨n, hn, hj, hlink⟩ := h.mem (hall j l hl hs)
    rw [hl, Option.some.injEq] at hlink
    subst hlink
    rw [decide_eq_true_eq] at hlive
    dsimp only at hv
    refine ⟨?_, by omega⟩
    rw [List.getLast?_eq_getElem?, ← hlive, Nat.add_sub_cancel, List.getElem?_eq_getElem hn, hj]

theorem Succession.supersede (h : Succession m s ids)
    (hall : ∀ i l, m i = some l → l.subject = s → i ∈ ids)
    (hid : ∀ i l, m i = some l → i < id) (hold : Current m s version old)
    (hfirst : old = none → version = 1) :
    Succession (Chains.supersede m old id s version) s (ids ++ [id]) := by
  obtain ⟨hlast, hversion⟩ := h.current hall hold hfirst
  intro n hn
  rw [List.length_append, List.length_singleton] at hn ⊢
  by_cases hend : n = ids.length
  · subst hend
    rw [List.getElem_concat_length rfl, supersede_new, hversion]
    simp
  · have hn : n < ids.length := by omega
    have hlink := h n hn
    have hne : ids[n] ≠ id := Int.ne_of_lt (hid _ _ hlink)
    rw [List.getElem_append_left hn]
    unfold Chains.supersede
    rw [if_neg hne]
    by_cases hlive : n + 1 = ids.length
    · have ho : some ids[n] = old := by
        rw [hlast, List.getLast?_eq_getElem?, ← hlive, Nat.add_sub_cancel,
          List.getElem?_eq_getElem hn]
      rw [if_pos ho, hlink, Option.map_some, hlive]
      simp
    · have ho : some ids[n] ≠ old := by
        intro ho
        obtain ⟨l, hl, -, hlive', -⟩ := hold.live _ ho.symm
        rw [hlink, Option.some.injEq] at hl
        subst hl
        exact hlive (decide_eq_true_eq.mp hlive')
      have hnext : n + 1 < ids.length := by omega
      have hstill : ¬ n + 1 = ids.length + 1 := by omega
      rw [if_neg ho, hlink, decide_eq_false hlive, decide_eq_false hstill,
        List.getElem?_append_left hnext]

/-- The others stay as they were. -/
theorem Succession.supersede_other {k : κ} (hk : k ≠ s) (h : Succession m k ids)
    (hid : ∀ i l, m i = some l → i < id) (hold : Current m s version old) :
    Succession (Chains.supersede m old id s version) k ids := by
  intro n hn
  have hlink := h n hn
  have hne : ids[n] ≠ id := Int.ne_of_lt (hid _ _ hlink)
  have ho : some ids[n] ≠ old := by
    intro ho
    obtain ⟨l, hl, hs, -, -⟩ := hold.live _ ho.symm
    rw [hlink, Option.some.injEq] at hl
    subst hl
    exact hk hs
  unfold Chains.supersede
  rw [if_neg hne, if_neg ho, hlink]

theorem Chronicle.supersede {revisions revisions' : κ → List Int} (h : Chronicle m revisions)
    (hid : ∀ i l, m i = some l → i < id) (hold : Current m s version old)
    (hfirst : old = none → version = 1) (hs : revisions' s = revisions s ++ [id])
    (ho : ∀ k, k ≠ s → revisions' k = revisions k) :
    Chronicle (Chains.supersede m old id s version) revisions' where
  complete := by
    have hsub : ∀ k i, i ∈ revisions k → i ∈ revisions' k := by
      intro k i hi
      by_cases hk : k = s
      · subst hk
        rw [hs]
        exact List.mem_append_left _ hi
      · rw [ho k hk]
        exact hi
    intro i l hl
    rcases supersede_cases hl with ⟨rfl, rfl⟩ | ⟨-, -, l₀, h₀, rfl⟩ | ⟨-, -, hl⟩
    · rw [hs]
      exact List.mem_append_right _ (List.mem_singleton_self _)
    · exact hsub _ _ (h.complete i l₀ h₀)
    · exact hsub _ _ (h.complete i l hl)
  each := by
    intro k
    by_cases hk : k = s
    · subst hk
      rw [hs]
      refine (h.each k).supersede ?_ hid hold hfirst
      rintro i l hl rfl
      exact h.complete i l hl
    · rw [ho k hk]
      exact (h.each k).supersede_other hk hid hold

end Next

end Chains
