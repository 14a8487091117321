import Arags.Lib.Ranking
import Arags.Qa.AnswerHistory
import Mathlib.Algebra.Order.Ring.Unbundled.Rat
import Mathlib.Data.List.Dedup
import Mathlib.Order.WithBot

/-!
# Arags.Qa.Eviction

The weighted-LRU eviction of `sqlite/qa_cache/evict.rs`, with the score that its query sorts by.

* `evictScore`, `evictQaCounted`, `evictAllQa` — the code.
* `LowestCut` — what an eviction may take from a project, and what it has to leave alone.
* `evict_lowest` — an eviction is such a cut; `evictAllQa_bounded` is about all projects.
-/

namespace Arags

open Sql Ranking

/-! ## The code -/

/-- `(access_count * 1.0) / (1.0 + ((?2 - last_accessed_at) * 1.0 / ?3))`, each operation rounded by
`rnd`. A division by zero is `NULL`, which sorts before every number. -/
def evictScore (rnd : Rat → Rat) (now lambda : Int) (r : QaCacheRow) : WithBot Rat :=
  let age := rnd (rnd (now - r.lastAccessedAt : Int) / rnd lambda)
  let weight := rnd (1 + age)
  if weight = 0 then ⊥ else ↑(rnd (rnd r.accessCount / weight))

/-- `ORDER BY … ASC` over the rows as they are scanned. -/
def scoreOrder (rnd : Rat → Rat) (scan : ScanOrder QaCacheRow) (now lambda : Int) :
    ScanOrder QaCacheRow where
  order l := best (fun x => OrderDual.toDual (evictScore rnd now lambda x.2)) (scan.order l)
  perm l := (best_perm _).trans (scan.perm l)

/-- The table that is left, and the number of rows that were deleted. -/
def evictQaCounted (rnd : Rat → Rat) (scan : ScanOrder QaCacheRow) (t : Table QaCacheRow)
    (project : String) (maxEntries : Nat) (lambdaMs now : Int) : Table QaCacheRow × Nat :=
  let lambda := if lambdaMs ≤ 0 then 1 else lambdaMs
  let order := scoreOrder rnd scan now lambda
  (evictQa order t project maxEntries, (evictIds order t project maxEntries).length)

/-- `SELECT DISTINCT project FROM qa_cache`. -/
def qaProjects (scan : ScanOrder QaCacheRow) (t : Table QaCacheRow) : List String :=
  ((scan.order t.rows).map fun x => x.2.project).dedup

/-- `clock` is the time of each project's round. -/
def evictAllQa (rnd : Rat → Rat) (scan : ScanOrder QaCacheRow) (t : Table QaCacheRow)
    (maxEntries : Nat) (lambdaMs : Int) (clock : String → Int) : Table QaCacheRow × Nat :=
  (qaProjects scan t).foldl (fun s project =>
    let res := evictQaCounted rnd scan s.1 project maxEntries lambdaMs (clock project)
    (res.1, s.2 + res.2)) (t, 0)

/-! ## A cut -/

def QaCacheRow.activeOf (project : String) (r : QaCacheRow) : Bool :=
  r.project == project && r.isActive

def activeCount (t : Table QaCacheRow) (project : String) : Nat :=
  t.count fun _ r => r.activeOf project

/-- From `t` to `t'` the project has lost `removed` active rows, those of lowest score, and nothing
else has changed. -/
structure LowestCut (score : QaCacheRow → WithBot Rat) (t t' : Table QaCacheRow)
    (project : String) (maxEntries removed : Nat) : Prop where
  bounded : activeCount t' project ≤ maxEntries
  counted : activeCount t' project + removed = activeCount t project
  excess : removed = activeCount t project - maxEntries
  lowest : ∀ x ∈ t.rows, ∀ y ∈ t'.rows, x ∉ t'.rows → y.2.activeOf project = true →
    score x.2 ≤ score y.2
  frame : ∀ x, x.2.activeOf project = false → (x ∈ t'.rows ↔ x ∈ t.rows)
  kept : ∀ x ∈ t'.rows, x ∈ t.rows

section Eviction

variable {t : Table QaCacheRow} {project : String} {maxEntries : Nat}

theorem count_deleteAll (ids : List Int) (p : QaCacheRow → Bool) :
    (ids.foldl deleteQa t).count (fun _ r => p r) = t.count fun i r => p r && !ids.contains i := by
  induction ids generalizing t with
  | nil => simp
  | cons id ids ih =>
    rw [List.foldl_cons, ih, deleteQa, Table.count_delete]
    refine Table.count_congr fun i r _ => ?_
    rw [List.contains_cons, Bool.not_or, Bool.and_assoc, Bool.and_comm (!ids.contains i)]

/-- Deleting rows of a clause by their ids leaves that many less. -/
theorem count_deleteAll_add {ids : List Int} (hn : ids.Nodup) {p : QaCacheRow → Bool}
    (h : ∀ i ∈ ids, ∃ r, (i, r) ∈ t.rows ∧ p r = true) :
    (ids.foldl deleteQa t).count (fun _ r => p r) + ids.length = t.count fun _ r => p r := by
  rw [count_deleteAll, ← Table.count_ids hn h]
  unfold Table.count Table.select
  have hsplit := List.length_eq_length_filter_add (l := t.rows.filter fun x => p x.2)
    fun x => ids.contains x.1
  rw [hsplit, List.filter_filter, List.filter_filter, Nat.add_comm]
  simp only [Bool.and_comm]

variable (t project maxEntries) in
/-- The rows that an eviction takes, and those that it passes over, in the order of the query. -/
theorem evictIds_split (order : ScanOrder QaCacheRow) (hmax : 0 < maxEntries) :
    ∃ taken left, order.order (t.select fun _ r => r.activeOf project) = taken ++ left ∧
      evictIds order t project maxEntries = taken.map Prod.fst ∧
      taken.length = activeCount t project - maxEntries := by
  have hselect : (t.select fun _ r => r.project == project && r.isActive) =
      t.select fun _ r => r.activeOf project := rfl
  have hlength : (order.order (t.select fun _ r => r.activeOf project)).length =
      activeCount t project := (order.perm _).length_eq
  unfold evictIds
  dsimp only
  rw [hselect]
  split
  · refine ⟨[], _, rfl, rfl, ?_⟩
    have hle : activeCount t project ≤ maxEntries := by
      rename_i h
      exact h.resolve_left (Nat.ne_of_gt hmax)
    exact (Nat.sub_eq_zero_of_le hle).symm
  · refine ⟨_, _, (List.take_append_drop (activeCount t project - maxEntries) _).symm, rfl, ?_⟩
    rw [List.length_take, hlength]
    exact Nat.min_eq_left (Nat.sub_le _ _)

/-- In a sorted list what comes later does not have a lower score. -/
theorem evict_cut {order : ScanOrder QaCacheRow} {score : QaCacheRow → WithBot Rat}
    (hsorted : ∀ l, (order.order l).Pairwise fun x y => score x.2 ≤ score y.2)
    (hmax : 0 < maxEntries) :
    LowestCut score t (evictQa order t project maxEntries) project maxEntries
      (evictIds order t project maxEntries).length := by
  obtain ⟨taken, left, hsplit, hids, hlength⟩ := evictIds_split t project maxEntries order hmax
  have hselected : ∀ x ∈ taken ++ left, x ∈ t.rows ∧ x.2.activeOf project = true := by
    intro x hx
    rw [← hsplit, order.mem_order] at hx
    exact Table.mem_select.mp hx
  have hnodup : ((taken ++ left).map Prod.fst).Nodup := hsplit ▸ order.ids_nodup t _
  have htaken : (taken.map Prod.fst).Nodup :=
    hnodup.sublist ((List.sublist_append_left taken left).map _)
  have hmem : ∀ x, x ∈ (evictQa order t project maxEntries).rows ↔
      x ∈ t.rows ∧ x.1 ∉ taken.map Prod.fst := by
    intro x
    rw [evictQa, hids]
    exact mem_deleteAll _
  have hcount : activeCount (evictQa order t project maxEntries) project + taken.length =
      activeCount t project := by
    have h := count_deleteAll_add (t := t) htaken (p := QaCacheRow.activeOf project) ?_
    · rw [List.length_map] at h
      rw [activeCount, evictQa, hids]
      exact h
    · intro i hi
      obtain ⟨x, hx, rfl⟩ := List.mem_map.mp hi
      exact ⟨x.2, hselected x (List.mem_append_left left hx)⟩
  have htakenRow : ∀ x ∈ t.rows, x.1 ∈ taken.map Prod.fst → x ∈ taken := by
    intro x hx hi
    obtain ⟨y, hy, hyx⟩ := List.mem_map.mp hi
    obtain ⟨j, s⟩ := y
    obtain rfl : j = x.1 := hyx
    have hrow := (hselected _ (List.mem_append_left left hy)).1
    obtain rfl := Table.eq_of_mem hrow hx
    exact hy
  rw [hids, List.length_map]
  constructor
  · omega
  · exact hcount
  · exact hlength
  · intro x hx y hy hgone hya
    obtain ⟨hyt, hykept⟩ := (hmem y).mp hy
    have hxtaken : x ∈ taken := by
      refine htakenRow x hx (by_contra fun hkept => hgone ((hmem x).mpr ⟨hx, hkept⟩))
    have hyleft : y ∈ left := by
      have hsel : y ∈ taken ++ left := by
        rw [← hsplit, order.mem_order]
        exact Table.mem_select.mpr ⟨hyt, hya⟩
      exact (List.mem_append.mp hsel).resolve_left fun h => hykept (List.mem_map_of_mem h)
    have hpairs := hsorted (t.select fun _ r => r.activeOf project)
    rw [hsplit] at hpairs
    exact (List.pairwise_append.mp hpairs).2.2 x hxtaken y hyleft
  · intro x hx
    rw [hmem]
    refine and_iff_left_of_imp fun hxt hi => ?_
    rw [(hselected x (List.mem_append_left left (htakenRow x hxt hi))).2] at hx
    cases hx
  · exact fun x hx => ((hmem x).mp hx).1

theorem scoreOrder_sorted (rnd : Rat → Rat) (scan : ScanOrder QaCacheRow) (now lambda : Int)
    (l : List (Int × QaCacheRow)) : ((scoreOrder rnd scan now lambda).order l).Pairwise
      fun x y => evictScore rnd now lambda x.2 ≤ evictScore rnd now lambda y.2 := by
  have hsorted := best_sorted (f := fun x : Int × QaCacheRow =>
    OrderDual.toDual (evictScore rnd now lambda x.2)) (scan.order l)
  exact hsorted.imp OrderDual.toDual_le_toDual.mp

end Eviction

/-! ## Evictions -/

/-- An eviction takes the rows beyond `max_entries` with the lowest scores, and nothing else. -/
theorem evict_lowest (rnd : Rat → Rat) (scan : ScanOrder QaCacheRow) (t : Table QaCacheRow)
    (project : String) {maxEntries : Nat} (hmax : 0 < maxEntries) (lambdaMs now : Int) :
    LowestCut (evictScore rnd now (if lambdaMs ≤ 0 then 1 else lambdaMs)) t
      (evictQaCounted rnd scan t project maxEntries lambdaMs now).1 project maxEntries
      (evictQaCounted rnd scan t project maxEntries lambdaMs now).2 :=
  evict_cut (scoreOrder_sorted rnd scan now _) hmax

def scoredAnswer (project question : String) (accessCount lastAccessedAt : Int) : QaCacheRow :=
  { (StoreAnswerInput.row ⟨none, project, question, question, "answer", [], []⟩ "id" 1
      lastAccessedAt) with accessCount := accessCount }

/-- Two answers of `p`, of which the first has been read, and one of `o`. -/
def scoredAnswers : Table QaCacheRow :=
  ((Table.empty.insert (scoredAnswer "p" "read" 3 0)).insert (scoredAnswer "p" "new" 0 5)).insert
    (scoredAnswer "o" "other" 0 0)

theorem evict_lowest_unread :
    LowestCut (evictScore id 10 1000) scoredAnswers
        (evictQaCounted id .rowid scoredAnswers "p" 1 1000 10).1 "p" 1
        (evictQaCounted id .rowid scoredAnswers "p" 1 1000 10).2 ∧
      (evictQaCounted id .rowid scoredAnswers "p" 1 1000 10).1.rows.map
        (fun x => x.2.questionText) = ["read", "other"] :=
  ⟨evict_lowest id .rowid scoredAnswers "p" (by decide) 1000 10, by decide +kernel⟩

/-! ## All projects -/

section AllProjects

variable {rnd : Rat → Rat} {scan : ScanOrder QaCacheRow} {maxEntries : Nat} {lambdaMs : Int}
  {clock : String → Int}

theorem evictQa_count_le (order : ScanOrder QaCacheRow) (t : Table QaCacheRow)
    (project other : String) :
    activeCount (evictQa order t project maxEntries) other ≤ activeCount t other := by
  unfold activeCount evictQa
  rw [count_deleteAll]
  refine List.Sublist.length_le ?_
  exact List.monotone_filter_right _ fun x hx => ((Bool.and_eq_true _ _).mp hx).1

/-- The rounds for a list of projects. -/
theorem evictRounds (hmax : 0 < maxEntries) (projects : List String) (s : Table QaCacheRow × Nat) :
    let left := (projects.foldl (fun s project =>
      let res := evictQaCounted rnd scan s.1 project maxEntries lambdaMs (clock project)
      (res.1, s.2 + res.2)) s).1
    (∀ project, activeCount left project ≤ activeCount s.1 project ∧
      (project ∈ projects → activeCount left project ≤ maxEntries)) ∧
    ∀ x, x.2.isActive = false → (x ∈ left.rows ↔ x ∈ s.1.rows) := by
  induction projects generalizing s with
  | nil => exact ⟨fun _ => ⟨Nat.le_refl _, fun h => nomatch h⟩, fun _ _ => Iff.rfl⟩
  | cons p projects ih =>
    have hcut := evict_lowest rnd scan s.1 p hmax lambdaMs (clock p)
    have hle : ∀ other, activeCount (evictQaCounted rnd scan s.1 p maxEntries lambdaMs
        (clock p)).1 other ≤ activeCount s.1 other := evictQa_count_le _ s.1 p
    obtain ⟨hbound, hframe⟩ := ih
      ((evictQaCounted rnd scan s.1 p maxEntries lambdaMs (clock p)).1,
        s.2 + (evictQaCounted rnd scan s.1 p maxEntries lambdaMs (clock p)).2)
    rw [List.foldl_cons]
    refine ⟨fun project => ⟨(hbound project).1.trans (hle project), fun hmem => ?_⟩, ?_⟩
    · obtain rfl | hmem := List.mem_cons.mp hmem
      · exact (hbound project).1.trans hcut.bounded
      · exact (hbound project).2 hmem
    · intro x hx
      rw [hframe x hx, hcut.frame x]
      rw [QaCacheRow.activeOf, hx, Bool.and_false]

/-- After a round over all projects none has more than `max_entries` active rows, and no superseded
row is gone. -/
theorem evictAllQa_bounded (t : Table QaCacheRow) (hmax : 0 < maxEntries) :
    (∀ project, activeCount (evictAllQa rnd scan t maxEntries lambdaMs clock).1 project ≤
      maxEntries) ∧
    ∀ x, x.2.isActive = false →
      (x ∈ (evictAllQa rnd scan t maxEntries lambdaMs clock).1.rows ↔ x ∈ t.rows) := by
  obtain ⟨hbound, hframe⟩ :=
    @evictRounds rnd scan maxEntries lambdaMs clock hmax (qaProjects scan t) (t, 0)
  refine ⟨fun project => ?_, hframe⟩
  by_cases hmem : project ∈ qaProjects scan t
  · exact (hbound project).2 hmem
  · have hnone : activeCount t project = 0 := by
      refine Table.count_eq_zero.mpr fun i r hr => Bool.eq_false_iff.mpr fun hactive => hmem ?_
      have hproject := beq_iff_eq.mp ((Bool.and_eq_true _ _).mp hactive).1
      refine List.mem_dedup.mpr (List.mem_map.mpr ⟨(i, r), scan.mem_order.mpr hr, hproject⟩)
    have hle := (hbound project).1
    rw [hnone] at hle
    exact hle.trans (Nat.zero_le _)

end AllProjects

end Arags
