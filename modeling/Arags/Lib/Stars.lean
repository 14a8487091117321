import Mathlib.Data.List.Infix

/-!
# Stars

Patterns in which some elements stand for any run, the others for one element each.

* `Fills star R p c`  — `c` is `p` with each star replaced by a run, the others by what `R` allows.
* `fills_star`, `fills_one`, `fills_append` — a pattern by its first element, and in two parts.
* `IsRow P s row`     — the cells of `row` say for each prefix of `s` whether it satisfies `P`.
* `table_correct`     — a table filled row by row, one row for each element of the pattern.
-/

namespace Stars

variable {α β : Type}

inductive Fills (star : β → Prop) (R : β → α → Prop) : List β → List α → Prop
  | nil : Fills star R [] []
  | star {b : β} {p : List β} {c : List α} (w : List α) : star b → Fills star R p c →
      Fills star R (b :: p) (w ++ c)
  | one {b : β} {a : α} {p : List β} {c : List α} : ¬ star b → R b a → Fills star R p c →
      Fills star R (b :: p) (a :: c)

variable {star : β → Prop} {R : β → α → Prop} {b : β} {p q : List β} {c : List α}

theorem fills_nil : Fills star R [] c ↔ c = [] := by
  constructor
  · rintro ⟨⟩
    rfl
  · rintro rfl
    exact .nil

theorem fills_star (hb : star b) :
    Fills star R (b :: p) c ↔ ∃ w c', c = w ++ c' ∧ Fills star R p c' := by
  constructor
  · intro h
    cases h with
    | star w _ h => exact ⟨w, _, rfl, h⟩
    | one hb' => exact absurd hb hb'
  · rintro ⟨w, c', rfl, h⟩
    exact .star w hb h

theorem fills_one (hb : ¬ star b) :
    Fills star R (b :: p) c ↔ ∃ a c', c = a :: c' ∧ R b a ∧ Fills star R p c' := by
  constructor
  · intro h
    cases h with
    | star _ hb' => exact absurd hb' hb
    | one _ ha h => exact ⟨_, _, rfl, ha, h⟩
  · rintro ⟨a, c', rfl, ha, h⟩
    exact .one hb ha h

theorem fills_append :
    Fills star R (p ++ q) c ↔ ∃ x y, c = x ++ y ∧ Fills star R p x ∧ Fills star R q y := by
  induction p generalizing c with
  | nil =>
    constructor
    · intro h
      exact ⟨[], c, rfl, .nil, h⟩
    · rintro ⟨x, y, rfl, hx, hy⟩
      rw [fills_nil.mp hx]
      exact hy
  | cons b p ih =>
    rw [List.cons_append]
    constructor
    · intro h
      cases h with
      | star w hb h =>
        obtain ⟨x, y, rfl, hx, hy⟩ := ih.mp h
        exact ⟨w ++ x, y, (List.append_assoc w x y).symm, .star w hb hx, hy⟩
      | one hb ha h =>
        obtain ⟨x, y, rfl, hx, hy⟩ := ih.mp h
        exact ⟨_ :: x, y, rfl, .one hb ha hx, hy⟩
    · rintro ⟨x, y, rfl, hx, hy⟩
      cases hx with
      | star w hb hx =>
        rw [List.append_assoc]
        exact .star w hb (ih.mpr ⟨_, y, rfl, hx, hy⟩)
      | one hb ha hx => exact .one hb ha (ih.mpr ⟨_, y, rfl, hx, hy⟩)

/-- A pattern that ends with a star takes what the pattern before it takes of the front. -/
theorem fills_concat_star (hb : star b) :
    Fills star R (p ++ [b]) c ↔ ∃ x, x <+: c ∧ Fills star R p x := by
  rw [fills_append]
  constructor
  · rintro ⟨x, y, rfl, hx, -⟩
    exact ⟨x, List.prefix_append x y, hx⟩
  · rintro ⟨x, ⟨y, rfl⟩, hx⟩
    exact ⟨x, y, rfl, hx, (fills_star hb).mpr ⟨y, [], (List.append_nil y).symm, .nil⟩⟩

theorem fills_concat_one (hb : ¬ star b) :
    Fills star R (p ++ [b]) c ↔ ∃ x a, c = x ++ [a] ∧ R b a ∧ Fills star R p x := by
  rw [fills_append]
  constructor
  · rintro ⟨x, y, rfl, hx, hy⟩
    obtain ⟨a, y, rfl, ha, hy⟩ := (fills_one hb).mp hy
    rw [fills_nil.mp hy]
    exact ⟨x, a, rfl, ha, hx⟩
  · rintro ⟨x, a, rfl, ha, hx⟩
    exact ⟨x, [a], rfl, hx, .one hb ha .nil⟩

/-- A pattern takes itself, if it takes each of its elements. -/
theorem fills_self {star : α → Prop} {R : α → α → Prop} {p : List α}
    (h : ∀ a ∈ p, ¬ star a → R a a) : Fills star R p p := by
  induction p with
  | nil => exact .nil
  | cons a p ih =>
    obtain ⟨ha, hp⟩ := List.forall_mem_cons.mp h
    by_cases hstar : star a
    · exact .star [a] hstar (ih hp)
    · exact .one hstar (ha hstar) (ih hp)

theorem eq_of_fills {star : α → Prop} {p c : List α} (hf : Fills star Eq p c)
    (h : ∀ a ∈ p, ¬ star a) : p = c := by
  induction hf with
  | nil => rfl
  | star w hb _ _ => exact absurd hb (h _ List.mem_cons_self)
  | one _ ha _ ih => rw [ha, ih fun a ha => h a (List.mem_cons_of_mem _ ha)]

/-! ## The table -/

/-- A cell is true where the one above it or the one to the left is. -/
def starRow : Bool → List Bool → List Bool
  | _, [] => []
  | left, up :: above => (up || left) :: starRow (up || left) above

/-- A cell is true where the element fits and the one above and to the left is. -/
def oneRow (fits : α → Bool) (s : List α) (above : List Bool) : List Bool :=
  false :: List.zipWith (fun a diagonal => fits a && diagonal) s above

def IsRow (P : List α → Prop) : List α → List Bool → Prop
  | [], row => ∃ b : Bool, row = [b] ∧ (b = true ↔ P [])
  | a :: s, row => ∃ (b : Bool) (rest : List Bool), row = b :: rest ∧ (b = true ↔ P []) ∧
      IsRow (fun t => P (a :: t)) s rest

theorem IsRow.congr {P Q : List α → Prop} (h : ∀ t, P t ↔ Q t) {s : List α} {row : List Bool}
    (hrow : IsRow P s row) : IsRow Q s row := by
  have hPQ : P = Q := funext fun t => propext (h t)
  exact hPQ ▸ hrow

/-- The last cell is about the whole. -/
theorem IsRow.last {P : List α → Prop} {s : List α} {row : List Bool} (h : IsRow P s row) :
    row.getD s.length false = true ↔ P s := by
  induction s generalizing P row with
  | nil =>
    obtain ⟨b, rfl, hb⟩ := h
    exact hb
  | cons a s ih =>
    obtain ⟨b, rest, rfl, -, hrest⟩ := h
    rw [List.length_cons, List.getD_cons_succ]
    exact ih hrest

theorem isRow_first (s : List α) : IsRow (· = []) s (true :: List.replicate s.length false) := by
  have hfalse : ∀ (P : List α → Prop) (s : List α), (∀ t, ¬ P t) →
      IsRow P s (List.replicate (s.length + 1) false) := by
    intro P s
    induction s generalizing P with
    | nil => exact fun h => ⟨false, rfl, by simp [h]⟩
    | cons a s ih =>
      exact fun h => ⟨false, _, rfl, by simp [h], ih _ fun t => h (a :: t)⟩
  cases s with
  | nil => exact ⟨true, rfl, by simp⟩
  | cons a s => exact ⟨true, _, rfl, by simp, hfalse _ s (by simp)⟩

/-- To the left of a cell stands whether any prefix so far satisfied `P`. -/
theorem isRow_star {P : List α → Prop} {s : List α} {row : List Bool} (left : Bool)
    (h : IsRow P s row) :
    IsRow (fun t => left = true ∨ ∃ x, x <+: t ∧ P x) s (starRow left row) := by
  induction s generalizing P row left with
  | nil =>
    obtain ⟨b, rfl, hb⟩ := h
    refine ⟨b || left, rfl, ?_⟩
    simp [hb, or_comm]
  | cons a s ih =>
    obtain ⟨b, rest, rfl, hb, hrest⟩ := h
    refine ⟨b || left, starRow (b || left) rest, rfl, by simp [hb, or_comm], ?_⟩
    apply (ih (b || left) hrest).congr
    intro t
    have hcons : (∃ x, x <+: a :: t ∧ P x) ↔ P [] ∨ ∃ x, x <+: t ∧ P (a :: x) := by
      constructor
      · rintro ⟨x, hx, hP⟩
        rcases List.prefix_cons_iff.mp hx with rfl | ⟨y, rfl, hy⟩
        · exact .inl hP
        · exact .inr ⟨y, hy, hP⟩
      · rintro (hP | ⟨x, hx, hP⟩)
        · exact ⟨[], List.nil_prefix, hP⟩
        · exact ⟨a :: x, List.cons_prefix_cons.mpr ⟨rfl, hx⟩, hP⟩
    dsimp only
    rw [hcons, Bool.or_eq_true, hb]
    exact or_assoc.trans or_left_comm

theorem append_singleton_eq {x : List α} {a a' : α} (h : [a] = x ++ [a']) : x = [] ∧ a = a' := by
  cases x with
  | nil => exact ⟨rfl, (List.cons.inj h).1⟩
  | cons y x => simp at h

theorem second_cell {fits : α → Bool} {P : List α → Prop} {a : α} {b : Bool}
    (hb : b = true ↔ P []) :
    (fits a && b) = true ↔ ∃ x a', [a] = x ++ [a'] ∧ fits a' = true ∧ P x := by
  rw [Bool.and_eq_true, hb]
  constructor
  · rintro ⟨ha, hP⟩
    exact ⟨[], a, rfl, ha, hP⟩
  · rintro ⟨x, a', heq, ha, hP⟩
    obtain ⟨rfl, rfl⟩ := append_singleton_eq heq
    exact ⟨ha, hP⟩

/-- The cells from the second on. -/
theorem isRow_one_tail (fits : α → Bool) {s : List α} : ∀ {P : List α → Prop} {a : α} {b : Bool}
    {rest : List Bool}, (b = true ↔ P []) → IsRow (fun t => P (a :: t)) s rest →
      IsRow (fun t => ∃ x a', a :: t = x ++ [a'] ∧ fits a' = true ∧ P x) s
        ((fits a && b) :: List.zipWith (fun a diagonal => fits a && diagonal) s rest) := by
  induction s with
  | nil =>
    intro P a b rest hb _
    exact ⟨fits a && b, rfl, second_cell hb⟩
  | cons a₂ s ih =>
    intro P a b rest hb hrest
    obtain ⟨b₂, rest, rfl, hb₂, hrest⟩ := hrest
    have htail := ih (P := fun t => P (a :: t)) hb₂ hrest
    refine ⟨fits a && b, _, rfl, second_cell hb, htail.congr ?_⟩
    intro t
    constructor
    · rintro ⟨x, a', heq, ha, hP⟩
      exact ⟨a :: x, a', congrArg (a :: ·) heq, ha, hP⟩
    · rintro ⟨x, a', heq, ha, hP⟩
      cases x with
      | nil => cases heq
      | cons y x =>
        obtain ⟨rfl, htail⟩ := List.cons.inj heq
        exact ⟨x, a', htail, ha, hP⟩

theorem isRow_one {P : List α → Prop} (fits : α → Bool) {s : List α} {row : List Bool}
    (h : IsRow P s row) :
    IsRow (fun t => ∃ x a, t = x ++ [a] ∧ fits a = true ∧ P x) s (oneRow fits s row) := by
  have hnil : false = true ↔ ∃ x a, [] = x ++ [a] ∧ fits a = true ∧ P x := by simp
  cases s with
  | nil => exact ⟨false, rfl, hnil⟩
  | cons a s =>
    obtain ⟨b, rest, rfl, hb, hrest⟩ := h
    exact ⟨false, _, rfl, hnil, isRow_one_tail fits hb hrest⟩

section Table

variable [DecidablePred star] (fits : β → α → Bool) (s : List α)

def nextRow (star : β → Prop) [DecidablePred star] (fits : β → α → Bool) (s : List α)
    (above : List Bool) (b : β) : List Bool :=
  if star b then starRow false above else oneRow (fits b) s above

/-- The last row of the table. -/
def lastRow (star : β → Prop) [DecidablePred star] (fits : β → α → Bool) (s : List α)
    (p : List β) : List Bool :=
  p.foldl (nextRow star fits s) (true :: List.replicate s.length false)

variable {fits s}

theorem nextRow_correct (hfits : ∀ b a, fits b a = true ↔ R b a) {row : List Bool}
    (h : IsRow (Fills star R p) s row) (b : β) :
    IsRow (Fills star R (p ++ [b])) s (nextRow star fits s row b) := by
  rw [nextRow]
  split
  next hb =>
    apply (isRow_star false h).congr
    intro t
    rw [fills_concat_star hb]
    simp
  next hb =>
    apply (isRow_one (fits b) h).congr
    intro t
    rw [fills_concat_one hb]
    simp only [hfits]

theorem foldl_correct (hfits : ∀ b a, fits b a = true ↔ R b a) (q : List β) {row : List Bool}
    (h : IsRow (Fills star R p) s row) :
    IsRow (Fills star R (p ++ q)) s (q.foldl (nextRow star fits s) row) := by
  induction q generalizing p row with
  | nil =>
    rw [List.append_nil]
    exact h
  | cons b q ih =>
    have hnext := ih (nextRow_correct hfits h b)
    rwa [List.append_assoc] at hnext

theorem table_correct (hfits : ∀ b a, fits b a = true ↔ R b a) (p : List β) :
    (lastRow star fits s p).getD s.length false = true ↔ Fills star R p s :=
  (foldl_correct hfits p ((isRow_first s).congr fun _ => fills_nil.symm)).last

end Table

end Stars
