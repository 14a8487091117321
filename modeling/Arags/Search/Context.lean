import Arags.Lib.Slices
import Mathlib.Data.List.Nodup
import Mathlib.Data.Rat.Defs

/-!
# Arags.Search.Context

Search results under a token budget, `arags-search/src/context.rs`.

* `loadChunks`, `applyTokenBudget`, `buildSearchResults` — the code.
* `stored`, `WithinBudget` — the results with what is stored, and what is returned of them.
* `cutHits`, `buildSearchResults_eq` — the second list of the code is found by its ids again.
* `cutHits_sum`, `cutHits_shape`, `cutHits_first` — the budget, the prefix and the first result.
* `build_search_results_budget` — the results are within the budget.
-/

namespace Arags.Context

open Text

structure HybridResult where
  chunkId : Int
  score : Rat

/-- The columns of a chunk besides its id. -/
structure ChunkColumns where
  bufferId : Int
  filePath : String
  lineStart : Int
  lineEnd : Int
  language : Option String
  epoch : Int
  createdBy : Option String
  model : Option String
  version : Int

structure ChunkWithText extends ChunkColumns where
  id : Int
  content : List Char

structure SearchResult where
  chunkId : Int
  score : Rat
  filePath : String
  lineStart : Int
  lineEnd : Int
  content : List Char
  language : Option String
  epoch : Int
  createdBy : Option String
  model : Option String
  version : Int

/-- `get_chunk` selects by the id, so the row has that id; both reads may fail. -/
structure Storage where
  getChunk : Int → Except String (Option ChunkColumns)
  getChunkContent : Int → Except String (Option (List Char))

section Code

variable (storage : Storage)

def loadChunk (chunkId : Int) : Except String (Option ChunkWithText) := do
  let chunk ← storage.getChunk chunkId
  let content ← storage.getChunkContent chunkId
  return chunk.map fun c => { c with id := chunkId, content := content.getD [] }

def loadChunks : List HybridResult → Except String (List ChunkWithText)
  | [] => .ok []
  | hr :: results => do
    let chunk ← loadChunk storage hr.chunkId
    let chunks ← loadChunks results
    return chunk.toList ++ chunks

/-- Words times 1.3, rounded up; the cast to 32 bits saturates. -/
def estimateTokens (text : List Char) : Nat :=
  if text.isEmpty then 0 else min ((13 * (words text).length + 9) / 10) (2 ^ 32 - 1)

/-- Tokens by 1.3, rounded down. -/
def truncateToTokens (text : List Char) (maxTokens : Nat) : List Char :=
  let maxWords := 10 * maxTokens / 13
  if (words text).length ≤ maxWords then text
  else [' '].intercalate ((words text).take maxWords)

/-- The loop of `apply_token_budget`; the sum is one of 32 bits. -/
def applyTokenBudget (chunks : List ChunkWithText) (maxTokens : Nat) :
    Nat → List HybridResult → List ChunkWithText
  | _, [] => []
  | usedTokens, hr :: results =>
    match chunks.find? fun c => c.id == hr.chunkId with
    | none => applyTokenBudget chunks maxTokens usedTokens results
    | some chunk =>
      let used := (usedTokens + estimateTokens chunk.content) % 2 ^ 32
      if used ≤ maxTokens then chunk :: applyTokenBudget chunks maxTokens used results
      else
        let remaining := maxTokens - usedTokens
        if remaining > 100 then
          [{ chunk with content := truncateToTokens chunk.content remaining }]
        else []

def toSearchResult (hr : HybridResult) (c : ChunkWithText) : SearchResult where
  chunkId := hr.chunkId
  score := hr.score
  filePath := c.filePath
  lineStart := c.lineStart
  lineEnd := c.lineEnd
  content := c.content
  language := c.language
  epoch := c.epoch
  createdBy := c.createdBy
  model := c.model
  version := c.version

def collectResults (chunks : List ChunkWithText) (results : List HybridResult) :
    List SearchResult :=
  results.filterMap fun hr =>
    (chunks.find? fun c => c.id == hr.chunkId).map (toSearchResult hr)

def buildSearchResults (results : List HybridResult) (maxTokens : Option Nat) :
    Except String (List SearchResult) := do
  let chunks ← loadChunks storage results
  let chunks := match maxTokens with
    | some budget => applyTokenBudget chunks budget 0 results
    | none => chunks
  return collectResults chunks results

end Code

/-! ## What it is for -/

section Statement

variable (storage : Storage)

/-- The chunk of a result, where it can be loaded. -/
def loadable (hr : HybridResult) : Option ChunkWithText :=
  match loadChunk storage hr.chunkId with
  | .ok chunk => chunk
  | .error _ => none

/-- The loadable results in order, with what is stored. -/
def stored (results : List HybridResult) : List SearchResult :=
  results.filterMap fun hr => (loadable storage hr).map (toSearchResult hr)

def tokens (results : List SearchResult) : Nat :=
  (results.map fun r => estimateTokens r.content).sum

structure WithinBudget (all returned : List SearchResult) (maxTokens : Nat) : Prop where
  budget : tokens returned ≤ maxTokens
  /-- The last result has its content, or a prefix of the words of it. -/
  shape : (∃ after, all = returned ++ after) ∨ ∃ before r after n, all = before ++ r :: after ∧
    returned = before ++ [{ r with content := [' '].intercalate ((words r.content).take n) }]
  first : ∀ r after, all = r :: after → returned = [] →
    maxTokens < estimateTokens r.content ∧ maxTokens ≤ 100

end Statement

/-! ## Estimates -/

theorem estimateTokens_le {text : List Char} {n : Nat} (h : (words text).length ≤ 10 * n / 13) :
    estimateTokens text ≤ n := by
  rw [estimateTokens]
  split
  · exact Nat.zero_le n
  · omega

/-- A text that is cut for a budget is within it. -/
theorem estimateTokens_truncate (text : List Char) (n : Nat) :
    estimateTokens (truncateToTokens text n) ≤ n := by
  apply estimateTokens_le
  rw [truncateToTokens]
  split
  next h => exact h
  next h =>
    rw [words_intercalate fun w hw => mem_words (List.mem_of_mem_take hw), List.length_take]
    omega

/-! ## The list of the hits -/

section Hits

variable {storage : Storage}

/-- The results with their chunks, where these can be loaded. -/
def hits (storage : Storage) (results : List HybridResult) :
    List (HybridResult × ChunkWithText) :=
  results.filterMap fun hr => (loadable storage hr).map fun c => (hr, c)

/-- The loop over the hits alone. -/
def cutHits (maxTokens : Nat) :
    Nat → List (HybridResult × ChunkWithText) → List (HybridResult × ChunkWithText)
  | _, [] => []
  | usedTokens, (hr, chunk) :: rest =>
    let used := (usedTokens + estimateTokens chunk.content) % 2 ^ 32
    if used ≤ maxTokens then (hr, chunk) :: cutHits maxTokens used rest
    else
      let remaining := maxTokens - usedTokens
      if remaining > 100 then
        [(hr, { chunk with content := truncateToTokens chunk.content remaining })]
      else []

theorem hits_cons_none {hr : HybridResult} {results : List HybridResult}
    (h : loadable storage hr = none) : hits storage (hr :: results) = hits storage results := by
  rw [hits, List.filterMap_cons_none (by rw [h]; rfl)]
  rfl

theorem hits_cons_some {hr : HybridResult} {results : List HybridResult} {c : ChunkWithText}
    (h : loadable storage hr = some c) :
    hits storage (hr :: results) = (hr, c) :: hits storage results := by
  rw [hits, List.filterMap_cons_some (by rw [h]; rfl)]
  rfl

theorem loadable_id {hr : HybridResult} {c : ChunkWithText}
    (h : loadable storage hr = some c) : c.id = hr.chunkId := by
  rw [loadable, loadChunk] at h
  cases hc : storage.getChunk hr.chunkId with
  | error e =>
    rw [hc] at h
    cases h
  | ok chunk =>
    rw [hc] at h
    cases ht : storage.getChunkContent hr.chunkId with
    | error e =>
      rw [ht] at h
      cases h
    | ok content =>
      rw [ht] at h
      obtain ⟨x, -, rfl⟩ := Option.map_eq_some_iff.mp h
      rfl

theorem loadChunks_ok {results : List HybridResult} {chunks : List ChunkWithText}
    (h : loadChunks storage results = .ok chunks) :
    chunks = results.filterMap (loadable storage) := by
  induction results generalizing chunks with
  | nil =>
    cases h
    rfl
  | cons hr results ih =>
    rw [loadChunks] at h
    cases hc : loadChunk storage hr.chunkId with
    | error e =>
      rw [hc] at h
      cases h
    | ok chunk =>
      rw [hc] at h
      cases hcs : loadChunks storage results with
      | error e =>
        rw [hcs] at h
        cases h
      | ok rest =>
        rw [hcs] at h
        cases h
        have hload : loadable storage hr = chunk := by rw [loadable, hc]
        rw [ih hcs]
        cases chunk with
        | none => rw [List.filterMap_cons_none hload]; rfl
        | some c => rw [List.filterMap_cons_some hload]; rfl

theorem loadChunks_error_or_ok (storage : Storage) (results : List HybridResult) :
    (∃ e, loadChunks storage results = .error e) ∨
      loadChunks storage results = .ok (results.filterMap (loadable storage)) := by
  cases h : loadChunks storage results with
  | error e => exact .inl ⟨e, rfl⟩
  | ok chunks => exact .inr (by rw [loadChunks_ok h])

/-- A chunk with the id of no result is not found. -/
theorem find_none {chunks : List ChunkWithText} {hr : HybridResult}
    (h : ∀ c ∈ chunks, c.id ≠ hr.chunkId) :
    chunks.find? (fun c => c.id == hr.chunkId) = none := by
  rw [List.find?_eq_none]
  intro c hc heq
  exact h c hc (eq_of_beq heq)

theorem loadable_congr {hr hr' : HybridResult} (h : hr.chunkId = hr'.chunkId) :
    loadable storage hr = loadable storage hr' := by
  rw [loadable, loadable, h]

/-- Of equal ids the chunks are equal, so the chunk of a result is found by its id. -/
theorem find_loadable {results : List HybridResult} {hr : HybridResult} (hmem : hr ∈ results) :
    (results.filterMap (loadable storage)).find? (fun c => c.id == hr.chunkId) =
      loadable storage hr := by
  induction results with
  | nil => cases hmem
  | cons x results ih =>
    by_cases hid : x.chunkId = hr.chunkId
    · rw [← loadable_congr hid]
      cases hl : loadable storage x with
      | none =>
        rw [List.filterMap_cons_none hl]
        apply find_none
        intro c hc heq
        obtain ⟨y, -, hc⟩ := List.mem_filterMap.mp hc
        have hsame : y.chunkId = x.chunkId := (loadable_id hc).symm.trans (heq.trans hid.symm)
        rw [loadable_congr hsame, hl] at hc
        cases hc
      | some c =>
        rw [List.filterMap_cons_some hl, List.find?_cons_of_pos]
        rw [loadable_id hl, hid]
        exact beq_self_eq_true _
    · have hmem : hr ∈ results := by
        rcases List.mem_cons.mp hmem with rfl | hmem
        · exact absurd rfl hid
        · exact hmem
      cases hl : loadable storage x with
      | none =>
        rw [List.filterMap_cons_none hl]
        exact ih hmem
      | some c =>
        rw [List.filterMap_cons_some hl, List.find?_cons_of_neg, ih hmem]
        intro heq
        exact hid ((loadable_id hl).symm.trans (eq_of_beq heq))

/-- The loop over the results is the loop over the hits. -/
theorem applyTokenBudget_eq {chunks : List ChunkWithText} (maxTokens : Nat)
    {results : List HybridResult}
    (h : ∀ hr ∈ results, chunks.find? (fun c => c.id == hr.chunkId) = loadable storage hr)
    (used : Nat) :
    applyTokenBudget chunks maxTokens used results =
      (cutHits maxTokens used (hits storage results)).map Prod.snd := by
  induction results generalizing used with
  | nil => rfl
  | cons hr results ih =>
    have hrest := ih fun x hx => h x (List.mem_cons_of_mem _ hx)
    rw [applyTokenBudget, h hr List.mem_cons_self]
    cases hl : loadable storage hr with
    | none =>
      rw [hits_cons_none hl]
      exact hrest used
    | some c =>
      rw [hits_cons_some hl, cutHits]
      dsimp only
      split
      · rw [List.map_cons, hrest]
      · split <;> rfl

/-- The second list holds the chunks of some of the results, in their order. -/
theorem collectResults_eq {kept : List (HybridResult × ChunkWithText)}
    {results : List HybridResult} (hids : (results.map HybridResult.chunkId).Nodup)
    (hsub : (kept.map Prod.fst).Sublist results) (hkept : ∀ x ∈ kept, x.2.id = x.1.chunkId) :
    collectResults (kept.map Prod.snd) results = kept.map fun x => toSearchResult x.1 x.2 := by
  induction results generalizing kept with
  | nil =>
    rw [List.map_eq_nil_iff.mp (List.sublist_nil.mp hsub)]
    rfl
  | cons hr results ih =>
    rw [List.map_cons, List.nodup_cons] at hids
    obtain ⟨hhr, hids⟩ := hids
    rcases List.sublist_cons_iff.mp hsub with hsub | ⟨fsts, heq, hsub⟩
    · have hnone : (kept.map Prod.snd).find? (fun c => c.id == hr.chunkId) = none := by
        apply find_none
        intro c hc heq
        obtain ⟨x, hx, rfl⟩ := List.mem_map.mp hc
        have hmem : x.1 ∈ results := hsub.mem (List.mem_map_of_mem hx)
        rw [hkept x hx] at heq
        exact hhr (heq ▸ List.mem_map_of_mem hmem)
      rw [← ih hids hsub hkept, collectResults, List.filterMap_cons_none (by rw [hnone]; rfl)]
      rfl
    · cases kept with
      | nil => cases heq
      | cons x kept =>
        obtain ⟨hx, hkept⟩ := List.forall_mem_cons.mp hkept
        obtain ⟨rfl, rfl⟩ := List.cons.inj heq
        -- no result further on has the id of this one
        have hskip : ∀ r ∈ results, (x.2 :: kept.map Prod.snd).find? (fun c => c.id == r.chunkId) =
            (kept.map Prod.snd).find? fun c => c.id == r.chunkId := by
          intro r hr
          apply List.find?_cons_of_neg
          intro heq
          rw [hx] at heq
          exact hhr (eq_of_beq heq ▸ List.mem_map_of_mem hr)
        rw [List.map_cons, List.map_cons, ← ih hids hsub hkept, collectResults,
          List.filterMap_cons_some (b := toSearchResult x.1 x.2)]
        · congr 1
          exact List.filterMap_congr fun r hr => by rw [hskip r hr]
        · rw [List.find?_cons_of_pos (by rw [hx]; exact beq_self_eq_true _)]
          rfl

/-! ## The cut -/

theorem mem_hits {results : List HybridResult} {x : HybridResult × ChunkWithText}
    (h : x ∈ hits storage results) : x.2.id = x.1.chunkId := by
  obtain ⟨hr, -, hx⟩ := List.mem_filterMap.mp h
  obtain ⟨c, hc, rfl⟩ := Option.map_eq_some_iff.mp hx
  exact loadable_id hc

theorem hits_sublist (results : List HybridResult) :
    ((hits storage results).map Prod.fst).Sublist results := by
  induction results with
  | nil => exact List.Sublist.slnil
  | cons hr results ih =>
    cases hl : loadable storage hr with
    | none =>
      rw [hits_cons_none hl]
      exact ih.cons hr
    | some c =>
      rw [hits_cons_some hl]
      exact ih.cons_cons hr

theorem stored_eq (results : List HybridResult) :
    stored storage results = (hits storage results).map fun x => toSearchResult x.1 x.2 := by
  rw [stored, hits, List.map_filterMap]
  exact List.filterMap_congr fun hr _ => by rw [Option.map_map]; rfl

/-- All hits before the one that does not fit stay, and of that one the first words. -/
theorem cutHits_shape (maxTokens used : Nat) (l : List (HybridResult × ChunkWithText)) :
    (∃ after, l = cutHits maxTokens used l ++ after) ∨
      ∃ before x after n, l = before ++ x :: after ∧ cutHits maxTokens used l =
        before ++ [(x.1, { x.2 with content := [' '].intercalate ((words x.2.content).take n) })]
    := by
  induction l generalizing used with
  | nil => exact .inl ⟨[], rfl⟩
  | cons x l ih =>
    rw [cutHits]
    dsimp only
    split
    · rcases ih ((used + estimateTokens x.2.content) % 2 ^ 32) with
        ⟨after, heq⟩ | ⟨before, y, after, n, heq, hcut⟩
      · exact .inl ⟨after, by rw [List.cons_append, ← heq]⟩
      · refine .inr ⟨x :: before, y, after, n, ?_, ?_⟩
        · rw [List.cons_append, ← heq]
        · rw [List.cons_append, ← hcut]
    · split
      · rw [truncateToTokens]
        split
        · exact .inl ⟨l, rfl⟩
        · exact .inr ⟨[], x, l, _, rfl, rfl⟩
      · exact .inl ⟨x :: l, rfl⟩

/-- Whatever is kept comes with the result it is of. -/
theorem mem_cutHits {maxTokens used : Nat} {l : List (HybridResult × ChunkWithText)}
    (hl : ∀ x ∈ l, x.2.id = x.1.chunkId) :
    ∀ x ∈ cutHits maxTokens used l, x.2.id = x.1.chunkId := by
  intro x hx
  rcases cutHits_shape maxTokens used l with ⟨after, heq⟩ | ⟨before, y, after, n, heq, hcut⟩
  · exact hl x (heq ▸ List.mem_append_left after hx)
  · rw [hcut] at hx
    rcases List.mem_append.mp hx with hx | hx
    · exact hl x (heq ▸ List.mem_append_left _ hx)
    · rw [List.mem_singleton.mp hx]
      exact hl y (heq ▸ List.mem_append_right _ List.mem_cons_self)

theorem cutHits_fsts (maxTokens used : Nat) (l : List (HybridResult × ChunkWithText)) :
    (cutHits maxTokens used l).map Prod.fst <+: l.map Prod.fst := by
  rcases cutHits_shape maxTokens used l with ⟨after, heq⟩ | ⟨before, y, after, n, heq, hcut⟩
  · exact ⟨after.map Prod.fst, by rw [← List.map_append, ← heq]⟩
  · refine ⟨after.map Prod.fst, ?_⟩
    rw [hcut, heq, List.map_append, List.map_append, List.append_assoc]
    rfl

/-- Sums stay below the width of the counter, so each comparison is of the true sum. -/
theorem cutHits_sum {maxTokens used : Nat} {l : List (HybridResult × ChunkWithText)}
    (hused : used ≤ maxTokens)
    (hsum : used + (l.map fun x => estimateTokens x.2.content).sum < 2 ^ 32) :
    used + ((cutHits maxTokens used l).map fun x => estimateTokens x.2.content).sum
      ≤ maxTokens := by
  induction l generalizing used with
  | nil => exact hused
  | cons x l ih =>
    rw [List.map_cons, List.sum_cons, ← Nat.add_assoc] at hsum
    have hmod : (used + estimateTokens x.2.content) % 2 ^ 32 =
        used + estimateTokens x.2.content :=
      Nat.mod_eq_of_lt (Nat.lt_of_le_of_lt (Nat.le_add_right _ _) hsum)
    rw [cutHits]
    dsimp only
    rw [hmod]
    split
    next hfit =>
      rw [List.map_cons, List.sum_cons, ← Nat.add_assoc]
      exact ih hfit hsum
    next hfit =>
      split
      · have hcut := estimateTokens_truncate x.2.content (maxTokens - used)
        rw [List.map_singleton, List.sum_singleton]
        dsimp only
        omega
      · exact hused

theorem cutHits_first {maxTokens : Nat} {x : HybridResult × ChunkWithText}
    {l : List (HybridResult × ChunkWithText)} (hx : estimateTokens x.2.content < 2 ^ 32)
    (h : cutHits maxTokens 0 (x :: l) = []) :
    maxTokens < estimateTokens x.2.content ∧ maxTokens ≤ 100 := by
  rw [cutHits, Nat.zero_add, Nat.mod_eq_of_lt hx] at h
  dsimp only at h
  split at h
  · cases h
  next hfit =>
    split at h
    · cases h
    next hrem => exact ⟨by omega, by omega⟩

end Hits

/-! ## The results within the budget -/

/-- What is returned is the cut of the hits. -/
theorem buildSearchResults_eq (storage : Storage) {results : List HybridResult}
    (hids : (results.map HybridResult.chunkId).Nodup) (maxTokens : Nat)
    (hload : loadChunks storage results = .ok (results.filterMap (loadable storage))) :
    buildSearchResults storage results (some maxTokens) =
      .ok ((cutHits maxTokens 0 (hits storage results)).map fun x => toSearchResult x.1 x.2) := by
  have hsub := (cutHits_fsts maxTokens 0 (hits storage results)).sublist.trans
    (hits_sublist results)
  rw [buildSearchResults, hload]
  change Except.ok (collectResults (applyTokenBudget _ maxTokens 0 results) results) = _
  rw [applyTokenBudget_eq maxTokens fun hr hmem => find_loadable hmem,
    collectResults_eq hids hsub (mem_cutHits fun x hx => mem_hits hx)]

theorem withinBudget_cutHits (maxTokens : Nat) {l : List (HybridResult × ChunkWithText)}
    (hsum : (l.map fun x => estimateTokens x.2.content).sum < 2 ^ 32) :
    WithinBudget (l.map fun x => toSearchResult x.1 x.2)
      ((cutHits maxTokens 0 l).map fun x => toSearchResult x.1 x.2) maxTokens where
  budget := by
    have hcut := cutHits_sum (Nat.zero_le maxTokens) (by rwa [Nat.zero_add])
    rw [tokens, List.map_map]
    rwa [Nat.zero_add] at hcut
  shape := by
    rcases cutHits_shape maxTokens 0 l with ⟨after, heq⟩ | ⟨before, x, after, n, heq, hcut⟩
    · refine .inl ⟨after.map fun x => toSearchResult x.1 x.2, ?_⟩
      rw [← List.map_append, ← heq]
    · refine .inr ⟨before.map fun x => toSearchResult x.1 x.2, toSearchResult x.1 x.2,
        after.map fun x => toSearchResult x.1 x.2, n, ?_, ?_⟩
      · rw [heq, List.map_append, List.map_cons]
      · rw [hcut, List.map_append]
        rfl
  first := by
    intro r after heq hnil
    cases l with
    | nil => cases heq
    | cons x l =>
      obtain ⟨rfl, -⟩ := List.cons.inj heq
      rw [List.map_cons, List.sum_cons] at hsum
      exact cutHits_first (by omega) (List.map_eq_nil_iff.mp hnil)

/-- A read that fails fails the call; else the results are within the budget. -/
theorem build_search_results_budget (storage : Storage) (results : List HybridResult)
    (hids : (results.map HybridResult.chunkId).Nodup) (maxTokens : Nat)
    (hsum : tokens (stored storage results) < 2 ^ 32) :
    (∃ e, loadChunks storage results = .error e ∧
        buildSearchResults storage results (some maxTokens) = .error e) ∨
      ∃ returned, buildSearchResults storage results (some maxTokens) = .ok returned ∧
        WithinBudget (stored storage results) returned maxTokens := by
  rcases loadChunks_error_or_ok storage results with ⟨e, hload⟩ | hload
  · refine .inl ⟨e, hload, ?_⟩
    rw [buildSearchResults, hload]
    rfl
  · rw [stored_eq] at hsum ⊢
    rw [tokens, List.map_map] at hsum
    exact .inr ⟨_, buildSearchResults_eq storage hids maxTokens hload,
      withinBudget_cutHits maxTokens hsum⟩

/-- Two chunks of which the first is in storage no more. -/
def twoResults : List HybridResult := [⟨7, 2⟩, ⟨8, 1⟩]

def oneChunk : Storage where
  getChunk := fun id =>
    .ok (if id = 8 then some ⟨1, "a.md", 1, 2, none, 0, none, none, 1⟩ else none)
  getChunkContent := fun id => .ok (if id = 8 then some "one two".toList else none)

theorem build_search_results_budget_deleted :
    (twoResults.map HybridResult.chunkId).Nodup ∧ tokens (stored oneChunk twoResults) = 3 ∧
      ∃ returned, buildSearchResults oneChunk twoResults (some 2) = .ok returned ∧
        WithinBudget (stored oneChunk twoResults) returned 2 := by
  have hids : (twoResults.map HybridResult.chunkId).Nodup := by decide
  have hsum : tokens (stored oneChunk twoResults) = 3 := by decide
  refine ⟨hids, hsum, ?_⟩
  rcases build_search_results_budget oneChunk twoResults hids 2 (by omega) with
    ⟨e, herr, -⟩ | hok
  · cases herr
  · exact hok

end Arags.Context
