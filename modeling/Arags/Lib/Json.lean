/-!
# Json

JSON values and their objects, whose fields stand in the order of their keys.

* `field? key v`   — a field of an object; `index` reads `null` where there is none.
* `set key x v`    — a field put in, in place of the one with its key.
* `setSome`        — the same, where there is something to put.
* `readArr read v` — the elements of an array, each of them read.
-/

/-- The sign and the absolute value of a floating-point number. -/
inductive Json.Number where
  | pos (n : Nat)
  | neg (n : Nat)
  | float (negative : Bool) (abs : Rat)
  deriving DecidableEq

inductive Json where
  | null
  | bool (b : Bool)
  | num (n : Json.Number)
  | str (s : String)
  | arr (elems : List Json)
  | obj (fields : List (String × Json))

namespace Json

def insertField (key : String) (x : Json) : List (String × Json) → List (String × Json)
  | [] => [(key, x)]
  | (k, y) :: fields =>
    if key < k then (key, x) :: (k, y) :: fields
    else if k = key then (key, x) :: fields
    else (k, y) :: insertField key x fields

def field? (key : String) : Json → Option Json
  | .obj fields => fields.lookup key
  | _ => none

def index (key : String) (v : Json) : Json := (field? key v).getD .null

def nth (n : Nat) : Json → Json
  | .arr elems => elems.getD n .null
  | _ => .null

/-- `null` becomes an object; of the values that are none, it is the only one that takes a field. -/
def set (key : String) (x : Json) : Json → Json
  | .obj fields => .obj (insertField key x fields)
  | _ => .obj [(key, x)]

def setSome (key : String) (x : Option Json) (v : Json) : Json :=
  match x with
  | some x => set key x v
  | none => v

def object (fields : List (String × Json)) : Json :=
  fields.foldl (fun v (key, x) => set key x v) (.obj [])

def isEmpty : Json → Bool
  | .obj fields => fields.isEmpty
  | _ => false

/-- An object put in, where it has a field. -/
def setNonempty (key : String) (x v : Json) : Json := if isEmpty x then v else set key x v

def asStr : Json → Option String
  | .str s => some s
  | _ => none

def asArr : Json → Option (List Json)
  | .arr elems => some elems
  | _ => none

def asU64 : Json → Option Nat
  | .num (.pos n) => some n
  | _ => none

/-! ## Fields -/

theorem lookup_insertField (key k : String) (x : Json) (fields : List (String × Json)) :
    (insertField key x fields).lookup k = if k = key then some x else fields.lookup k := by
  induction fields with
  | nil =>
    by_cases hk : k = key
    · simp [insertField, hk]
    · simp [insertField, hk]
  | cons f fields ih =>
    obtain ⟨k', y⟩ := f
    rw [insertField]
    by_cases hk : k = key
    · subst hk
      split
      · rw [List.lookup_cons, beq_self_eq_true, if_pos rfl]
      · split
        · rw [List.lookup_cons, beq_self_eq_true, if_pos rfl]
        · rename_i hne
          rw [List.lookup_cons, beq_eq_false_iff_ne.mpr (Ne.symm hne), ih,
            if_pos rfl, if_pos rfl]
    · have hbeq : (k == key) = false := beq_eq_false_iff_ne.mpr hk
      rw [if_neg hk] at ih ⊢
      split
      · rw [List.lookup_cons, hbeq]
      · split
        · rename_i heq
          rw [List.lookup_cons, List.lookup_cons, heq, hbeq]
        · rw [List.lookup_cons, List.lookup_cons, ih]

@[simp]
theorem field?_set (key k : String) (x v : Json) :
    field? k (set key x v) = if k = key then some x else field? k v := by
  cases v with
  | obj fields => exact lookup_insertField key k x fields
  | _ => exact lookup_insertField key k x []

@[simp]
theorem field?_setSome (key k : String) (x : Option Json) (v : Json) :
    field? k (setSome key x v) = if k = key then x.or (field? k v) else field? k v := by
  cases x with
  | none =>
    rw [setSome, Option.none_or, ite_self]
  | some x => exact field?_set key k x v

@[simp]
theorem field?_obj_nil (k : String) : field? k (.obj []) = none := rfl

@[simp]
theorem index_set (key k : String) (x v : Json) :
    index k (set key x v) = if k = key then x else index k v := by
  rw [index, field?_set]
  split
  · rfl
  · rfl

@[simp]
theorem index_setSome {key k : String} (h : k ≠ key) (x : Option Json) (v : Json) :
    index k (setSome key x v) = index k v := by
  rw [index, field?_setSome, if_neg h, index]

theorem field?_of_isEmpty {v : Json} (h : isEmpty v = true) (k : String) : field? k v = none := by
  cases v with
  | obj fields =>
    obtain rfl := List.isEmpty_iff.mp h
    rfl
  | _ => rfl

@[simp]
theorem field?_setNonempty {key k : String} (h : k ≠ key) (x v : Json) :
    field? k (setNonempty key x v) = field? k v := by
  rw [setNonempty]
  split
  · rfl
  · rw [field?_set, if_neg h]

@[simp]
theorem index_setNonempty {key k : String} (h : k ≠ key) (x v : Json) :
    index k (setNonempty key x v) = index k v := by
  rw [index, field?_setNonempty h, index]

/-- The fields of the object that was put in are read through the one that holds it. -/
theorem field?_index_setNonempty {key : String} {v : Json} (h : field? key v = none) (x : Json)
    (k : String) : field? k (index key (setNonempty key x v)) = field? k x := by
  rw [setNonempty]
  split
  · rename_i hempty
    rw [index, h, field?_of_isEmpty hempty]
    rfl
  · rw [index_set, if_pos rfl]

/-! ## Readers -/

def readAll {α : Type} (read : Json → Option α) : List Json → Option (List α)
  | [] => some []
  | v :: vs => do
    let x ← read v
    let xs ← readAll read vs
    return x :: xs

def readArr {α : Type} (read : Json → Option α) (v : Json) : Option (List α) :=
  (asArr v).bind (readAll read)

/-- An optional field, absent or read. -/
def readOpt {α : Type} (read : Json → Option α) : Option Json → Option (Option α)
  | none => some none
  | some v => (read v).map some

theorem readArr_map {α β : Type} {read : Json → Option β} {write : α → Json} {kept : α → β}
    {xs : List α} (h : ∀ x ∈ xs, read (write x) = some (kept x)) :
    readArr read (.arr (xs.map write)) = some (xs.map kept) := by
  rw [readArr, asArr, Option.bind_some]
  induction xs with
  | nil => rfl
  | cons x xs ih =>
    rw [List.map_cons, readAll, h x List.mem_cons_self,
      ih fun y hy => h y (List.mem_cons_of_mem x hy)]
    rfl

theorem readOpt_map {α β : Type} {read : Json → Option β} {write : α → Json} {kept : α → β}
    (h : ∀ x, read (write x) = some (kept x)) (x : Option α) :
    readOpt read (x.map write) = some (x.map kept) := by
  cases x with
  | none => rfl
  | some x => rw [Option.map_some, readOpt, h, Option.map_some, Option.map_some]

end Json
