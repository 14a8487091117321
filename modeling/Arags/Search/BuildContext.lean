import Arags.Search.Context

/-!
# Arags.Search.BuildContext

The text of search results for a prompt, `build_context` of `arags-search/src/context.rs`. A slice
out of range or inside a character panics, which is `none` here.

* `Sliced.applyTokenBudget`, `buildContext` — the code with its slices.
* `applyTokenBudget_sliced` — the budget slices the words within their range.
* `Shown`, `JsonSafe` — the texts that are shown, and when each of them can be cut at byte 200.
* `build_context_returns` — the call returns unless its format is JSON and a text cannot be cut.
-/

namespace Arags.Context

open Text

/-! ## Slices of words -/

namespace Sliced

/-- `words[..n]`. -/
def takeWords (ws : List (List Char)) (n : Nat) : Option (List (List Char)) :=
  if n ≤ ws.length then some (ws.take n) else none

def truncateToTokens (text : List Char) (maxTokens : Nat) : Option (List Char) :=
  let maxWords := 10 * maxTokens / 13
  if (words text).length ≤ maxWords then some text
  else (takeWords (words text) maxWords).map [' '].intercalate

def applyTokenBudget (chunks : List ChunkWithText) (maxTokens : Nat) :
    Nat → List HybridResult → Option (List ChunkWithText)
  | _, [] => some []
  | usedTokens, hr :: results =>
    match chunks.find? fun c => c.id == hr.chunkId with
    | none => applyTokenBudget chunks maxTokens usedTokens results
    | some chunk =>
      let used := (usedTokens + estimateTokens chunk.content) % 2 ^ 32
      if used ≤ maxTokens then
        (applyTokenBudget chunks maxTokens used results).map (chunk :: ·)
      else
        let remaining := maxTokens - usedTokens
        if remaining > 100 then
          (truncateToTokens chunk.content remaining).map fun t => [{ chunk with content := t }]
        else some []

end Sliced

theorem truncateToTokens_sliced (text : List Char) (maxTokens : Nat) :
    Sliced.truncateToTokens text maxTokens = some (truncateToTokens text maxTokens) := by
  rw [Sliced.truncateToTokens, truncateToTokens]
  split
  next => rfl
  next hlt =>
    rw [Sliced.takeWords, if_pos (Nat.le_of_lt (Nat.lt_of_not_le hlt))]
    rfl

/-- Words are sliced only where there are more of them. -/
theorem applyTokenBudget_sliced (chunks : List ChunkWithText) (maxTokens used : Nat)
    (results : List HybridResult) : Sliced.applyTokenBudget chunks maxTokens used results =
      some (applyTokenBudget chunks maxTokens used results) := by
  induction results generalizing used with
  | nil => rfl
  | cons hr results ih =>
    rw [Sliced.applyTokenBudget, applyTokenBudget]
    cases chunks.find? fun c => c.id == hr.chunkId with
    | none => exact ih used
    | some chunk =>
      dsimp only
      split
      · rw [ih]
        rfl
      · split
        · rw [truncateToTokens_sliced]
          rfl
        · rfl

/-! ## The formats -/

inductive OutputFormat where
  | prompt | json | markdown
  deriving DecidableEq, Repr

structure JsonItem where
  chunkId : Int
  score : Rat
  filePath : String
  lineStart : Int
  lineEnd : Int
  contentPreview : List Char
  language : Option String

/-- What the formats call: `{:.2}` of a score, and the serializer. -/
structure Formatter where
  fixed2 : Rat → String
  toStringPretty : List JsonItem → Except String String

section Code

variable (fmt : Formatter)

def formatPrompt (results : List HybridResult) (chunks : List ChunkWithText) : String :=
  "## Project Context\n\n" ++ String.join (results.zipIdx.map fun (hr, i) =>
    match chunks.find? fun c => c.id == hr.chunkId with
    | none => ""
    | some chunk =>
      "### File " ++ toString (i + 1) ++ " (score: " ++ fmt.fixed2 hr.score ++ ")\n" ++
        chunk.filePath ++ "\n```" ++ chunk.language.getD "" ++ "\n" ++
        String.ofList chunk.content ++ "\n```\n\n")

def formatMarkdown (results : List HybridResult) (chunks : List ChunkWithText) : String :=
  "# Search Results\n\n" ++ String.join (results.zipIdx.map fun (hr, i) =>
    match chunks.find? fun c => c.id == hr.chunkId with
    | none => ""
    | some chunk =>
      "## " ++ toString (i + 1) ++ " " ++ chunk.filePath ++ " (score: " ++
        fmt.fixed2 hr.score ++ ")\n\n```" ++ chunk.language.getD "" ++ "\n" ++
        String.ofList chunk.content ++ "\n```\n\n")

def PREVIEW_LEN : Nat := 200

/-- `&content[..200.min(content.len())]`. -/
def preview (content : List Char) : Option (List Char) :=
  slice content 0 (min PREVIEW_LEN (byteLen content))

def jsonItem (hr : HybridResult) (c : ChunkWithText) : Option JsonItem :=
  (preview c.content).map fun contentPreview => {
    chunkId := hr.chunkId
    score := hr.score
    filePath := c.filePath
    lineStart := c.lineStart
    lineEnd := c.lineEnd
    contentPreview
    language := c.language }

def jsonItems (chunks : List ChunkWithText) : List HybridResult → Option (List JsonItem)
  | [] => some []
  | hr :: results =>
    match chunks.find? fun c => c.id == hr.chunkId with
    | none => jsonItems chunks results
    | some c => do
      let item ← jsonItem hr c
      let items ← jsonItems chunks results
      return item :: items

def formatJson (results : List HybridResult) (chunks : List ChunkWithText) :
    Option (Except String String) :=
  (jsonItems chunks results).map fun items =>
    (fmt.toStringPretty items).mapError fun _ => "failed to serialize results to JSON"

/-- `none` where the call panics. -/
def buildContext (storage : Storage) (results : List HybridResult) (format : OutputFormat)
    (maxTokens : Option Nat) : Option (Except String String) :=
  match loadChunks storage results with
  | .error e => some (.error e)
  | .ok chunks => do
    let chunks ← match maxTokens with
      | some budget => Sliced.applyTokenBudget chunks budget 0 results
      | none => some chunks
    match format with
    | .prompt => return .ok (formatPrompt fmt results chunks)
    | .json => formatJson fmt results chunks
    | .markdown => return .ok (formatMarkdown fmt results chunks)

end Code

/-! ## The texts that are shown -/

/-- A text is cut after its first 200 bytes, if it has more. -/
def Previewable (text : List Char) : Prop :=
  byteLen text ≤ PREVIEW_LEN ∨ isCharBoundary text PREVIEW_LEN = true

/-- A read of the chunk of a result fails. -/
def ReadFails (storage : Storage) (hr : HybridResult) : Prop :=
  ∃ e, storage.getChunk hr.chunkId = .error e ∨ storage.getChunkContent hr.chunkId = .error e

/-- The counter of tokens has 32 bits. -/
def countTokens (used : Nat) (x : HybridResult × ChunkWithText) : Nat :=
  (used + estimateTokens x.2.content) % 2 ^ 32

def usedAfter (used : Nat) (l : List (HybridResult × ChunkWithText)) : Nat :=
  l.foldl countTokens used

/-- The counter is within the budget all along `l`. -/
def Admitted (maxTokens used : Nat) (l : List (HybridResult × ChunkWithText)) : Prop :=
  ∀ front, front <+: l → usedAfter used front ≤ maxTokens

/-- What is shown of `x` after the texts `before` it: all of it where it fits, and where it is the
first that does not, the words that fit. -/
def Shown (maxTokens used : Nat) (before : List (HybridResult × ChunkWithText))
    (x : HybridResult × ChunkWithText) (text : List Char) : Prop :=
  Admitted maxTokens used (before ++ [x]) ∧ text = x.2.content ∨
    Admitted maxTokens used before ∧ maxTokens < usedAfter used (before ++ [x]) ∧
      100 < maxTokens - usedAfter used before ∧
        text = truncateToTokens x.2.content (maxTokens - usedAfter used before)

/-- Every text that is shown can be cut; of results with one id, only the first is shown. -/
def JsonSafe (storage : Storage) (results : List HybridResult) (maxTokens : Option Nat) : Prop :=
  ∀ before x after text, hits storage results = before ++ x :: after →
    (∀ y ∈ before, y.2.id ≠ x.2.id) →
      (match maxTokens with
        | none => text = x.2.content
        | some budget => Shown budget 0 before x text) → Previewable text

theorem preview_isSome_iff (content : List Char) :
    (preview content).isSome = true ↔ Previewable content := by
  have hend : isCharBoundary content (byteLen content) = true := by
    have := isCharBoundary_append content []
    rwa [List.append_nil] at this
  have hstart : isCharBoundary content 0 = true := isCharBoundary_append [] content
  rw [preview, slice_isSome_iff, and_iff_right (Nat.zero_le _), and_iff_right hstart, Previewable]
  rcases Nat.le_total (byteLen content) PREVIEW_LEN with hle | hle
  · rw [Nat.min_eq_right hle]
    exact iff_of_true hend (.inl hle)
  · rw [Nat.min_eq_left hle]
    constructor
    · exact .inr
    · rintro (hle' | hb)
      · rw [Nat.le_antisymm hle hle']
        exact hend
      · exact hb

/-- The items are there if each chunk that is found can be cut. -/
theorem jsonItems_isSome_iff (chunks : List ChunkWithText) (results : List HybridResult) :
    (jsonItems chunks results).isSome = true ↔ ∀ hr ∈ results, ∀ c,
      chunks.find? (fun c => c.id == hr.chunkId) = some c → Previewable c.content := by
  induction results with
  | nil => simp [jsonItems]
  | cons hr results ih =>
    rw [jsonItems, List.forall_mem_cons, ← ih]
    cases chunks.find? fun c => c.id == hr.chunkId with
    | none => simp
    | some c =>
      have hitem : (jsonItem hr c).isSome = true ↔ Previewable c.content := by
        rw [jsonItem, Option.isSome_map, preview_isSome_iff]
      simp only [Option.some.injEq, forall_eq', ← hitem]
      cases jsonItem hr c with
      | none => simp
      | some item => cases jsonItems chunks results <;> simp

section Firsts

variable {maxTokens used : Nat} {l before : List (HybridResult × ChunkWithText)}
  {x y : HybridResult × ChunkWithText} {text : List Char} {P : List Char → Prop} {seen : List Int}

theorem admitted_nil : Admitted maxTokens used [] ↔ used ≤ maxTokens := by
  simp [Admitted, usedAfter]

theorem admitted_cons : Admitted maxTokens used (x :: l) ↔ used ≤ maxTokens ∧
    Admitted maxTokens (countTokens used x) l := by
  constructor
  · intro h
    exact ⟨h [] List.nil_prefix, fun front hfront => h (x :: front)
      (List.cons_prefix_cons.mpr ⟨rfl, hfront⟩)⟩
  · rintro ⟨hused, h⟩ front hfront
    rcases List.prefix_cons_iff.mp hfront with rfl | ⟨rest, rfl, hrest⟩
    · exact hused
    · exact h rest hrest

theorem shown_cons : Shown maxTokens used (x :: before) y text ↔ used ≤ maxTokens ∧
    Shown maxTokens (countTokens used x) before y text := by
  simp only [Shown, List.cons_append, admitted_cons, usedAfter, List.foldl_cons, and_assoc,
    ← and_or_left]

theorem shown_fits (hused : used ≤ maxTokens)
    (h : countTokens used x ≤ maxTokens) :
    Shown maxTokens used [] x text ↔ text = x.2.content := by
  simp [Shown, admitted_cons, admitted_nil, usedAfter, hused, h, Nat.not_lt_of_le h]

theorem shown_cut (hused : used ≤ maxTokens)
    (h : ¬ countTokens used x ≤ maxTokens) :
    Shown maxTokens used [] x text ↔ 100 < maxTokens - used ∧
      text = truncateToTokens x.2.content (maxTokens - used) := by
  simp [Shown, admitted_cons, admitted_nil, usedAfter, hused, h, Nat.lt_of_not_le h]

/-- Each text is fine that is the first with its id and whose id was not seen before. -/
def Firsts (P : List Char → Prop) (seen : List Int) (l : List (HybridResult × ChunkWithText)) :
    Prop :=
  ∀ before x after, l = before ++ x :: after → (∀ y ∈ before, y.2.id ≠ x.2.id) →
    x.2.id ∉ seen → P x.2.content

/-- The same of the texts that are shown. -/
def ShownFirsts (P : List Char → Prop) (maxTokens used : Nat) (seen : List Int)
    (l : List (HybridResult × ChunkWithText)) : Prop :=
  ∀ before x after text, l = before ++ x :: after → (∀ y ∈ before, y.2.id ≠ x.2.id) →
    x.2.id ∉ seen → Shown maxTokens used before x text → P text

theorem firsts_nil : Firsts P seen [] := by
  intro before x after heq
  simp at heq

/-- The first of each id that was not seen, in a list that starts with `x`. -/
theorem forall_first_cons
    {Q : List (HybridResult × ChunkWithText) → HybridResult × ChunkWithText → Prop} :
    (∀ before y after, x :: l = before ++ y :: after → (∀ z ∈ before, z.2.id ≠ y.2.id) →
      y.2.id ∉ seen → Q before y) ↔
    (x.2.id ∉ seen → Q [] x) ∧
      ∀ before y after, l = before ++ y :: after → (∀ z ∈ before, z.2.id ≠ y.2.id) →
        y.2.id ∉ x.2.id :: seen → Q (x :: before) y := by
  constructor
  · intro h
    refine ⟨fun hx => h [] x l rfl (List.forall_mem_nil _) hx, ?_⟩
    rintro before y after rfl hbefore hy
    rw [List.mem_cons, not_or] at hy
    exact h (x :: before) y after rfl (List.forall_mem_cons.mpr ⟨Ne.symm hy.1, hbefore⟩) hy.2
  · rintro ⟨hx, h⟩ before y after heq hbefore hy
    cases before with
    | nil =>
      obtain ⟨rfl, rfl⟩ := List.cons.inj heq
      exact hx hy
    | cons z before =>
      obtain ⟨rfl, rfl⟩ := List.cons.inj heq
      obtain ⟨hne, hbefore⟩ := List.forall_mem_cons.mp hbefore
      exact h before y after rfl hbefore (List.mem_cons.not.mpr (not_or.mpr ⟨Ne.symm hne, hy⟩))

theorem firsts_cons : Firsts P seen (x :: l) ↔
    (x.2.id ∉ seen → P x.2.content) ∧ Firsts P (x.2.id :: seen) l :=
  forall_first_cons (Q := fun _ y => P y.2.content)

theorem shownFirsts_iff : ShownFirsts P maxTokens used seen l ↔
    ∀ before y after, l = before ++ y :: after → (∀ z ∈ before, z.2.id ≠ y.2.id) →
      y.2.id ∉ seen → ∀ text, Shown maxTokens used before y text → P text :=
  ⟨fun h before y after heq hbefore hy text => h before y after text heq hbefore hy,
    fun h before y after text heq hbefore hy => h before y after heq hbefore hy text⟩

theorem shownFirsts_cons (hused : used ≤ maxTokens) :
    ShownFirsts P maxTokens used seen (x :: l) ↔
      (∀ text, x.2.id ∉ seen → Shown maxTokens used [] x text → P text) ∧
        ShownFirsts P maxTokens (countTokens used x)
          (x.2.id :: seen) l := by
  rw [shownFirsts_iff, shownFirsts_iff, forall_first_cons]
  simp only [shown_cons, hused, true_and]
  exact and_congr_left fun _ => ⟨fun h text hx => h hx text, fun h hx text => h text hx⟩

/-- After a text that does not fit nothing is shown. -/
theorem shownFirsts_over (h : ¬ used ≤ maxTokens) : ShownFirsts P maxTokens used seen l := by
  rintro before x after text - - - (⟨hadm, -⟩ | ⟨hadm, -⟩)
  · exact absurd (hadm [] List.nil_prefix) h
  · exact absurd (hadm [] List.nil_prefix) h

theorem cutHits_cons : cutHits maxTokens used (x :: l) =
    if countTokens used x ≤ maxTokens then x :: cutHits maxTokens (countTokens used x) l
    else if maxTokens - used > 100 then
      [(x.1, { x.2 with content := truncateToTokens x.2.content (maxTokens - used) })]
    else [] := rfl

/-- The cut of the hits has the texts that are shown. -/
theorem firsts_cutHits (hused : used ≤ maxTokens) :
    Firsts P seen (cutHits maxTokens used l) ↔ ShownFirsts P maxTokens used seen l := by
  induction l generalizing used seen with
  | nil =>
    refine iff_of_true firsts_nil ?_
    intro before x after text heq
    simp at heq
  | cons x l ih =>
    rw [shownFirsts_cons hused, cutHits_cons]
    split
    next hfit =>
      rw [firsts_cons, ih hfit]
      simp [shown_fits hused hfit]
    next hfit =>
      simp only [shown_cut hused hfit]
      rw [and_iff_left (shownFirsts_over hfit)]
      split
      next hrem => simp [firsts_cons, firsts_nil, hrem]
      next hrem => simp [firsts_nil, hrem]

end Firsts

/-! ## When the call returns -/

section Returns

variable {storage : Storage} {results : List HybridResult} {P : List Char → Prop}

theorem loadChunk_error_iff {hr : HybridResult} :
    (∃ e, loadChunk storage hr.chunkId = .error e) ↔ ReadFails storage hr := by
  rw [loadChunk, ReadFails]
  cases storage.getChunk hr.chunkId with
  | error e => exact iff_of_true ⟨e, rfl⟩ ⟨e, .inl rfl⟩
  | ok chunk =>
    cases storage.getChunkContent hr.chunkId with
    | error e => exact iff_of_true ⟨e, rfl⟩ ⟨e, .inr rfl⟩
    | ok content =>
      refine iff_of_false ?_ ?_
      · rintro ⟨e, he⟩
        cases he
      · rintro ⟨e, he | he⟩ <;> cases he

theorem loadChunks_error_iff :
    (∃ e, loadChunks storage results = .error e) ↔ ∃ hr ∈ results, ReadFails storage hr := by
  induction results with
  | nil =>
    refine iff_of_false ?_ (by simp)
    rintro ⟨e, he⟩
    cases he
  | cons hr results ih =>
    rw [List.exists_mem_cons_iff, ← ih, ← loadChunk_error_iff, loadChunks]
    cases loadChunk storage hr.chunkId with
    | error e => exact iff_of_true ⟨e, rfl⟩ (.inl ⟨e, rfl⟩)
    | ok chunk =>
      cases loadChunks storage results with
      | error e => exact iff_of_true ⟨e, rfl⟩ (.inr ⟨e, rfl⟩)
      | ok chunks =>
        refine iff_of_false ?_ ?_
        · rintro ⟨e, he⟩
          cases he
        · rintro (⟨e, he⟩ | ⟨e, he⟩) <;> cases he

/-- A chunk is found by its id where it is the first with that id. -/
theorem find_firsts {kept : List (HybridResult × ChunkWithText)}
    (hkept : ∀ x ∈ kept, x.1 ∈ results ∧ x.2.id = x.1.chunkId) :
    (∀ hr ∈ results, ∀ c, (kept.map Prod.snd).find? (fun c => c.id == hr.chunkId) = some c →
      P c.content) ↔ Firsts P [] kept := by
  constructor
  · rintro h before x after rfl hbefore -
    obtain ⟨hmem, hid⟩ := hkept x (List.mem_append_right _ List.mem_cons_self)
    refine h x.1 hmem x.2 (List.find?_eq_some_iff_append.mpr ⟨?_, before.map Prod.snd,
      after.map Prod.snd, by rw [List.map_append, List.map_cons], ?_⟩)
    · rw [hid]
      exact beq_self_eq_true _
    · intro c hc
      obtain ⟨y, hy, rfl⟩ := List.mem_map.mp hc
      simpa [← hid] using hbefore y hy
  · intro h hr _ c hfind
    obtain ⟨hid, front, rest, heq, hfront⟩ := List.find?_eq_some_iff_append.mp hfind
    obtain ⟨before, tail, rfl, rfl, htail⟩ := List.map_eq_append_iff.mp heq
    obtain ⟨x, after, rfl, rfl, rfl⟩ := List.map_eq_cons_iff.mp htail
    refine h before x after rfl (fun y hy heq => ?_) List.not_mem_nil
    have hne := hfront y.2 (List.mem_map_of_mem hy)
    rw [heq, hid] at hne
    cases hne

theorem hits_mem {x : HybridResult × ChunkWithText} (h : x ∈ hits storage results) :
    x.1 ∈ results :=
  (hits_sublist results).subset (List.mem_map_of_mem h)

theorem hits_chunks : results.filterMap (loadable storage) =
    (hits storage results).map Prod.snd := by
  rw [hits, List.map_filterMap]
  exact List.filterMap_congr fun hr _ => by cases loadable storage hr <;> rfl

/-- What the JSON format cuts, without a budget and with one. -/
theorem jsonItems_hits : (jsonItems ((hits storage results).map Prod.snd) results).isSome = true ↔
    JsonSafe storage results none := by
  rw [jsonItems_isSome_iff, find_firsts fun x hx => ⟨hits_mem hx, mem_hits hx⟩]
  constructor
  · rintro h before x after text heq hbefore rfl
    exact h before x after heq hbefore List.not_mem_nil
  · intro h before x after heq hbefore _
    exact h before x after _ heq hbefore rfl

theorem jsonItems_cutHits (maxTokens : Nat) :
    (jsonItems ((cutHits maxTokens 0 (hits storage results)).map Prod.snd) results).isSome = true ↔
      JsonSafe storage results (some maxTokens) := by
  have hkept : ∀ x ∈ cutHits maxTokens 0 (hits storage results),
      x.1 ∈ results ∧ x.2.id = x.1.chunkId := by
    intro x hx
    have hfst := (cutHits_fsts maxTokens 0 _).subset (List.mem_map_of_mem hx)
    exact ⟨(hits_sublist results).subset hfst, mem_cutHits (fun x hx => mem_hits hx) x hx⟩
  rw [jsonItems_isSome_iff, find_firsts hkept, firsts_cutHits (Nat.zero_le maxTokens)]
  constructor
  · intro h before x after text heq hbefore hshown
    exact h before x after text heq hbefore List.not_mem_nil hshown
  · intro h before x after text heq hbefore _ hshown
    exact h before x after text heq hbefore hshown

end Returns

theorem buildContext_error {fmt : Formatter} {storage : Storage} {results : List HybridResult}
    {e : String} (h : loadChunks storage results = .error e) (format : OutputFormat)
    (maxTokens : Option Nat) :
    buildContext fmt storage results format maxTokens = some (.error e) := by
  rw [buildContext, h]

/-- The chunks that the formats get. -/
def keptChunks (storage : Storage) (results : List HybridResult) (maxTokens : Option Nat) :
    List ChunkWithText :=
  match maxTokens with
  | none => (hits storage results).map Prod.snd
  | some budget => (cutHits budget 0 (hits storage results)).map Prod.snd

theorem buildContext_ok {fmt : Formatter} {storage : Storage} {results : List HybridResult}
    (h : loadChunks storage results = .ok (results.filterMap (loadable storage)))
    (format : OutputFormat) (maxTokens : Option Nat) :
    buildContext fmt storage results format maxTokens =
      match format with
      | .prompt => some (.ok (formatPrompt fmt results (keptChunks storage results maxTokens)))
      | .json => formatJson fmt results (keptChunks storage results maxTokens)
      | .markdown => some (.ok (formatMarkdown fmt results (keptChunks storage results maxTokens)))
    := by
  rw [buildContext, h]
  cases maxTokens with
  | none =>
    rw [keptChunks, ← hits_chunks]
    cases format <;> rfl
  | some budget =>
    rw [keptChunks, ← applyTokenBudget_eq budget (fun hr hmem => find_loadable hmem)]
    dsimp only
    rw [applyTokenBudget_sliced]
    cases format <;> rfl

/-- Only the JSON format can panic, and it does where a text that it shows is longer than its
preview and has a character across the end of it. -/
theorem build_context_returns (fmt : Formatter) (storage : Storage) (results : List HybridResult)
    (format : OutputFormat) (maxTokens : Option Nat) :
    (buildContext fmt storage results format maxTokens).isSome = true ↔
      (format = .json → (∃ hr ∈ results, ReadFails storage hr) ∨
        JsonSafe storage results maxTokens) := by
  rcases loadChunks_error_or_ok storage results with ⟨e, hload⟩ | hload
  · rw [buildContext_error hload]
    exact iff_of_true rfl fun _ => .inl (loadChunks_error_iff.mp ⟨e, hload⟩)
  · have hreads : ¬ ∃ hr ∈ results, ReadFails storage hr := by
      rw [← loadChunks_error_iff, hload]
      rintro ⟨e, he⟩
      cases he
    rw [buildContext_ok hload, or_iff_right hreads]
    cases format with
    | prompt => exact iff_of_true rfl nofun
    | markdown => exact iff_of_true rfl nofun
    | json =>
      rw [formatJson, Option.isSome_map, forall_prop_of_true rfl]
      cases maxTokens with
      | none => exact jsonItems_hits
      | some budget => exact jsonItems_cutHits budget

/-- One chunk with the id 7. -/
def oneText (text : List Char) : Storage where
  getChunk := fun _ => .ok (some ⟨1, "a.md", 1, 2, none, 0, none, none, 1⟩)
  getChunkContent := fun _ => .ok (some text)

theorem oneText_panics {text : List Char} (h : preview text = none) (fmt : Formatter) :
    buildContext fmt (oneText text) [⟨7, 1⟩] .json none = none := by
  have hload : loadChunks (oneText text) [⟨7, 1⟩] =
      .ok [⟨⟨1, "a.md", 1, 2, none, 0, none, none, 1⟩, 7, text⟩] := rfl
  rw [buildContext, hload]
  simp [formatJson, jsonItems, jsonItem, h]

/-- A text of 201 bytes, the last two of them one character. -/
def accented : List Char := List.replicate 199 'a' ++ ['é']

theorem preview_accented : preview accented = none := by
  have hfront : byteLen (List.replicate 199 'a') = 199 := by
    rw [byteLen, List.map_replicate, List.sum_replicate_nat]
    rfl
  have hlen : byteLen accented = 201 := by
    rw [accented, byteLen_append, hfront]
    rfl
  have hinside : isCharBoundary accented 200 = false := by
    have h := isCharBoundary_inside (a := List.replicate 199 'a') (b := []) (c := 'é') (i := 1)
      (by omega) (by decide)
    rwa [hfront] at h
  rw [← Option.not_isSome_iff_eq_none, preview_isSome_iff]
  rintro (hle | hb)
  · rw [hlen] at hle
    exact absurd hle (by decide)
  · rw [PREVIEW_LEN, hinside] at hb
    cases hb

theorem build_context_returns_not :
    buildContext ⟨fun _ => "", fun _ => .ok ""⟩ (oneText accented) [⟨7, 1⟩] .json none = none :=
  oneText_panics preview_accented _

end Arags.Context
