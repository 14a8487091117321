import Arags.Lib.Slices

/-!
# Arags.Lib.Paths

Slash-separated paths, said on their components.

* `FileName` — a name that can stand between slashes.
* `joinPath` — the text of a path.
* `afterSlashes`, `slashPrefixes` — what stands after and before the slashes of a text, and what
  that is for a path.
* `stripPrefix`, `joinPath_below` — a path as seen from a directory above it.
-/

namespace Paths

structure FileName where
  text : List Char
  ne_nil : text ≠ []
  no_slash : '/' ∉ text
  not_here : text ≠ ['.']
  not_above : text ≠ ['.', '.']
deriving DecidableEq

/-- Each component with a slash before it. -/
def slashed (ns : List (List Char)) : List Char := ns.flatMap ('/' :: ·)

def joinPath : List (List Char) → List Char
  | [] => []
  | n :: ns => n ++ slashed ns

/-- What a text can be cut into by slashes. -/
def Components (ns : List (List Char)) : Prop := ∀ n ∈ ns, n ≠ [] ∧ '/' ∉ n

def pathText (p : List FileName) : List Char := joinPath (p.map FileName.text)

theorem components_names (p : List FileName) : Components (p.map FileName.text) := by
  intro n hn
  obtain ⟨f, -, rfl⟩ := List.mem_map.mp hn
  exact ⟨f.ne_nil, f.no_slash⟩

/-- The suffixes of a text after each slash. -/
def afterSlashes : List Char → List (List Char)
  | [] => []
  | c :: s => if c = '/' then s :: afterSlashes s else afterSlashes s

/-- The prefixes of a text before each slash. -/
def slashPrefixes : List Char → List (List Char)
  | [] => []
  | c :: s =>
    if c = '/' then [] :: (slashPrefixes s).map (c :: ·) else (slashPrefixes s).map (c :: ·)

def stripPrefix (pre s : List Char) : Option (List Char) :=
  if pre.isPrefixOf s then some (s.drop pre.length) else none

def suffixes {α : Type} : List α → List (List α)
  | [] => []
  | a :: l => (a :: l) :: suffixes l

/-- The prefixes of a list but the empty one and itself. -/
def properPrefixes {α : Type} : List α → List (List α)
  | [] => []
  | [_] => []
  | a :: b :: l => [a] :: (properPrefixes (b :: l)).map (a :: ·)

theorem slashed_cons (n : List Char) (ns : List (List Char)) :
    slashed (n :: ns) = '/' :: joinPath (n :: ns) := rfl

theorem joinPath_ne_nil {ns : List (List Char)} (h : Components ns) (hne : ns ≠ []) :
    joinPath ns ≠ [] := by
  cases ns with
  | nil => exact absurd rfl hne
  | cons n ns =>
    rw [joinPath, Ne, List.append_eq_nil_iff]
    exact fun hnil => (h n List.mem_cons_self).1 hnil.1

theorem afterSlashes_append {a : List Char} (ha : '/' ∉ a) (s : List Char) :
    afterSlashes (a ++ s) = afterSlashes s := by
  induction a with
  | nil => rfl
  | cons c a ih =>
    rw [List.mem_cons, not_or] at ha
    rw [List.cons_append, afterSlashes, if_neg (Ne.symm ha.1), ih ha.2]

theorem afterSlashes_slashed {ns : List (List Char)} (h : Components ns) :
    afterSlashes (slashed ns) = (suffixes ns).map joinPath := by
  induction ns with
  | nil => rfl
  | cons n ns ih =>
    obtain ⟨hn, hns⟩ := List.forall_mem_cons.mp h
    rw [slashed_cons, afterSlashes, if_pos rfl, joinPath, afterSlashes_append hn.2, ih hns]
    rfl

theorem slashPrefixes_append {a : List Char} (ha : '/' ∉ a) (s : List Char) :
    slashPrefixes (a ++ s) = (slashPrefixes s).map (a ++ ·) := by
  induction a with
  | nil => simp
  | cons c a ih =>
    rw [List.mem_cons, not_or] at ha
    rw [List.cons_append, slashPrefixes, if_neg (Ne.symm ha.1), ih ha.2, List.map_map]
    rfl

theorem ne_nil_of_mem_properPrefixes {α : Type} {l p : List α} (h : p ∈ properPrefixes l) :
    p ≠ [] := by
  cases l with
  | nil => cases h
  | cons a l =>
    cases l with
    | nil => cases h
    | cons b l =>
      rcases List.mem_cons.mp h with rfl | h
      · exact List.cons_ne_nil _ _
      · obtain ⟨q, -, rfl⟩ := List.mem_map.mp h
        exact List.cons_ne_nil _ _

theorem slashPrefixes_joinPath {ns : List (List Char)} (h : Components ns) :
    slashPrefixes (joinPath ns) = (properPrefixes ns).map joinPath := by
  induction ns with
  | nil => rfl
  | cons n ns ih =>
    obtain ⟨hn, hns⟩ := List.forall_mem_cons.mp h
    rw [joinPath, slashPrefixes_append hn.2]
    cases ns with
    | nil => rfl
    | cons m ns =>
      rw [slashed_cons, slashPrefixes, if_pos rfl, ih hns, properPrefixes, List.map_cons,
        List.map_cons, List.append_nil, List.map_map, List.map_map, List.map_map]
      refine congrArg₂ List.cons (List.append_nil n).symm (List.map_congr_left fun p hp => ?_)
      cases p with
      | nil => exact absurd rfl (ne_nil_of_mem_properPrefixes hp)
      | cons a p => rfl

theorem mem_properPrefixes {α : Type} {l p : List α} :
    p ∈ properPrefixes l ↔ ∃ k, 0 < k ∧ k < l.length ∧ p = l.take k := by
  induction l generalizing p with
  | nil => simp [properPrefixes]
  | cons a l ih =>
    cases l with
    | nil =>
      refine ⟨fun h => (by cases h), fun ⟨k, hk, hlt, _⟩ => ?_⟩
      rw [List.length_singleton] at hlt
      omega
    | cons b l =>
      rw [properPrefixes, List.mem_cons, List.mem_map]
      constructor
      · rintro (rfl | ⟨q, hq, rfl⟩)
        · exact ⟨1, Nat.one_pos, by simp, rfl⟩
        · obtain ⟨k, hk, hlt, rfl⟩ := ih.mp hq
          exact ⟨k + 1, Nat.succ_pos k, Nat.succ_lt_succ hlt, rfl⟩
      · rintro ⟨k, hk, hlt, rfl⟩
        rcases Nat.lt_or_eq_of_le (Nat.succ_le_of_lt hk) with h | rfl
        · obtain ⟨j, rfl⟩ : ∃ j, k = j + 1 := ⟨k - 1, by omega⟩
          exact .inr ⟨(b :: l).take j, ih.mpr ⟨j, by omega, Nat.lt_of_succ_lt_succ hlt, rfl⟩, rfl⟩
        · exact .inl rfl

theorem stripPrefix_eq_some {pre s r : List Char} :
    stripPrefix pre s = some r ↔ s = pre ++ r := by
  rw [stripPrefix]
  constructor
  · intro h
    split at h
    · rename_i hpre
      obtain ⟨t, rfl⟩ := List.isPrefixOf_iff_prefix.mp hpre
      rw [List.drop_left] at h
      rw [Option.some.inj h]
    · cases h
  · rintro rfl
    rw [if_pos (List.isPrefixOf_iff_prefix.mpr (List.prefix_append pre r)), List.drop_left]

theorem joinPath_head_ne {ns : List (List Char)} (h : Components ns) :
    (joinPath ns).head? ≠ some '/' := by
  cases ns with
  | nil => simp [joinPath]
  | cons n ns =>
    obtain ⟨hn, -⟩ := List.forall_mem_cons.mp h
    cases hcn : n with
    | nil => exact absurd hcn hn.1
    | cons c n' =>
      intro hc
      obtain rfl : c = '/' := Option.some.inj hc
      exact hn.2 (by rw [hcn]; exact List.mem_cons_self)

theorem joinPath_getLast_ne {ns : List (List Char)} (h : Components ns) :
    (joinPath ns).getLast? ≠ some '/' := by
  cases ns with
  | nil => simp [joinPath]
  | cons n ns =>
    induction ns generalizing n with
    | nil =>
      rw [joinPath, slashed, List.flatMap_nil, List.append_nil]
      exact fun hlast => (h n List.mem_cons_self).2 (List.mem_of_getLast? hlast)
    | cons m ns ih =>
      have hrest : Components (m :: ns) := (List.forall_mem_cons.mp h).2
      have hne := joinPath_ne_nil hrest (List.cons_ne_nil m ns)
      rw [joinPath, slashed_cons, List.getLast?_append, List.getLast?_cons]
      intro hlast
      obtain ⟨c, hc⟩ := Option.isSome_iff_exists.mp (List.getLast?_isSome.mpr hne)
      rw [hc] at hlast
      exact ih m hrest (hc.trans hlast)

theorem slash_mem_joinPath {ns : List (List Char)} (h : Components ns) :
    '/' ∈ joinPath ns ↔ 1 < ns.length := by
  cases ns with
  | nil => simp [joinPath]
  | cons n ns =>
    rw [joinPath, List.mem_append, or_iff_right (h n List.mem_cons_self).2]
    cases ns with
    | nil => simp [slashed]
    | cons m ns => simp [slashed]

theorem split_slash_append {a : List Char} (ha : '/' ∉ a) (s : List Char) :
    Text.splitGo ['/'] 0 (a ++ s) = (Text.splitGo ['/'] 0 s).modifyHead (a ++ ·) := by
  induction a with
  | nil =>
    rw [List.nil_append]
    cases Text.splitGo ['/'] 0 s <;> rfl
  | cons c a ih =>
    rw [List.mem_cons, not_or] at ha
    rw [List.cons_append, Text.splitGo, if_neg (by simpa using ha.1), ih ha.2]
    cases Text.splitGo ['/'] 0 s <;> rfl

/-- The components are what stands between the slashes. -/
theorem split_joinPath {ns : List (List Char)} (h : Components ns) (hne : ns ≠ []) :
    Text.split ['/'] (joinPath ns) = ns := by
  rw [Text.split, if_neg (by decide)]
  induction ns with
  | nil => exact absurd rfl hne
  | cons n ns ih =>
    obtain ⟨hn, hns⟩ := List.forall_mem_cons.mp h
    rw [joinPath, split_slash_append hn.2]
    cases ns with
    | nil => simp [slashed, Text.splitGo]
    | cons m ns =>
      rw [slashed_cons, Text.splitGo, if_pos (by rfl)]
      show (([] : List Char) :: Text.splitGo ['/'] 0 (joinPath (m :: ns))).modifyHead (n ++ ·) = _
      rw [ih hns (List.cons_ne_nil m ns)]
      simp

/-- A path below a directory starts with the directory's text and a slash. -/
theorem joinPath_below {b q : List (List Char)} {r : List Char} (hb : Components b)
    (hq : Components q) (hne : b ≠ []) :
    joinPath b ++ '/' :: r = joinPath q ↔
      ∃ rest, rest ≠ [] ∧ q = b ++ rest ∧ r = joinPath rest := by
  induction b generalizing q with
  | nil => exact absurd rfl hne
  | cons n b ih =>
    obtain ⟨hn, hb⟩ := List.forall_mem_cons.mp hb
    have hcut {x : List Char} (h : n ++ '/' :: x = joinPath q) : ∃ ms, ms ≠ [] ∧ q = n :: ms ∧
        x = joinPath ms := by
      cases q with
      | nil =>
        have := congrArg List.length h
        simp [joinPath] at this
      | cons m ms =>
        obtain ⟨hm, -⟩ := List.forall_mem_cons.mp hq
        cases ms with
        | nil =>
          rw [joinPath, slashed, List.flatMap_nil, List.append_nil] at h
          exact absurd (h ▸ List.mem_append_right n List.mem_cons_self) hm.2
        | cons m' ms =>
          rw [joinPath, slashed_cons] at h
          obtain ⟨rfl, rfl⟩ := Text.append_sep_inj hn.2 hm.2 h
          exact ⟨m' :: ms, List.cons_ne_nil _ _, rfl, rfl⟩
    cases b with
    | nil =>
      rw [joinPath, slashed, List.flatMap_nil, List.append_nil]
      refine ⟨fun h => ?_, ?_⟩
      · obtain ⟨ms, hms, rfl, rfl⟩ := hcut h
        exact ⟨ms, hms, rfl, rfl⟩
      · rintro ⟨rest, hrest, rfl, rfl⟩
        cases rest with
        | nil => exact absurd rfl hrest
        | cons m ms => rfl
    | cons n' b =>
      rw [joinPath, slashed_cons, List.append_assoc, List.cons_append]
      refine ⟨fun h => ?_, ?_⟩
      · obtain ⟨ms, hms, rfl, hx⟩ := hcut h
        obtain ⟨rest, hrest, rfl, rfl⟩ := (ih (q := ms) hb (List.forall_mem_cons.mp hq).2
          (List.cons_ne_nil _ _)).mp hx
        exact ⟨rest, hrest, rfl, rfl⟩
      · rintro ⟨rest, hrest, rfl, rfl⟩
        rw [(ih (q := n' :: b ++ rest) hb (List.forall_mem_cons.mp hq).2
          (List.cons_ne_nil _ _)).mpr ⟨rest, hrest, rfl, rfl⟩]
        rfl

end Paths
