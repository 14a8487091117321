import Arags.Embedding.RecursiveChunker

/-!
# Arags.Embedding.RecursiveBudget

The token budget of the recursive chunker.

* `WithinBudget` — a text within the budget, or without white space.
* `overBudget`   — what is over the budget after the last separator.
* `byteWindows`  — what the last resort makes of it: windows of bytes that are not counted again.
-/

namespace Arags.Embedding

open Text

def WithinBudget (estimateTokens : List Char → Nat) (maxTokens : Nat) (text : List Char) : Prop :=
  estimateTokens text ≤ maxTokens ∨ ∀ c ∈ text, isWhiteSpace c = false

def ChunksWithin (estimateTokens : List Char → Nat) (maxTokens : Nat) (chunks : List RawChunk) :
    Prop := ∀ c ∈ chunks, WithinBudget estimateTokens maxTokens c.content

theorem chunksWithin_append {estimateTokens : List Char → Nat} {maxTokens : Nat}
    {cs ds : List RawChunk} : ChunksWithin estimateTokens maxTokens (cs ++ ds) ↔
      ChunksWithin estimateTokens maxTokens cs ∧ ChunksWithin estimateTokens maxTokens ds :=
  List.forall_mem_append

/-- Windows that take as many characters as `n` bytes hold, while `window` is open. -/
def byteWindows (n : Nat) (window : List Char) : List Char → List (List Char)
  | [] => if window.isEmpty then [] else [window]
  | c :: s =>
    if byteLen window + c.utf8Size ≤ n then byteWindows n (window ++ [c]) s
    else window :: byteWindows n [c] s

/-- The pieces of a text with the separators given back. -/
def withSeparator (separator : List Char) : List (List Char) → List (List Char)
  | [] => []
  | piece :: pieces =>
    (if pieces.isEmpty then piece else piece ++ separator) :: withSeparator separator pieces

/-- The pieces that are still over the budget when there is no separator left. -/
def overBudget (estimateTokens : List Char → Nat) (maxTokens : Nat) :
    List (List Char) → List Char → List (List Char)
  | [], content => if estimateTokens content ≤ maxTokens then [] else [content]
  | separator :: separators, content =>
    if estimateTokens content ≤ maxTokens then []
    else (withSeparator separator (split separator content)).flatMap
      (overBudget estimateTokens maxTokens separators)

/-- Every window of the last resort is within the budget. -/
def RecursiveFits (estimateTokens : List Char → Nat) (maxTokens : Nat)
    (separators : List (List Char)) (content : List Char) : Prop :=
  ∀ text ∈ overBudget estimateTokens maxTokens separators content,
    ∀ window ∈ byteWindows (maxTokens * 4) [] text, WithinBudget estimateTokens maxTokens window

section Fits

variable {estimateTokens : List Char → Nat} {maxTokens : Nat}

theorem byteWindows_full {n : Nat} (hn : 4 ≤ n) {m q : List Char} : ∀ {w : List Char},
    w ++ m ≠ [] → byteLen (w ++ m) ≤ n → (∀ d ∈ q.head?, n < byteLen (w ++ m) + d.utf8Size) →
      byteWindows n w (m ++ q) = (w ++ m) :: byteWindows n [] q := by
  induction m with
  | nil =>
    intro w hne hle hfull
    rw [List.append_nil] at hne hle hfull ⊢
    cases q with
    | nil =>
      rw [List.nil_append, byteWindows, if_neg (by simpa using hne)]
      rfl
    | cons d q =>
      have hd := hfull d rfl
      have := d.utf8Size_le_four
      rw [List.nil_append, byteWindows, if_neg (by omega), byteWindows,
        if_pos (by rw [byteLen_nil]; omega)]
      rfl
  | cons c m ih =>
    intro w hne hle hfull
    have hlen : byteLen (w ++ c :: m) = byteLen w + (c.utf8Size + byteLen m) := by
      rw [byteLen_append, byteLen_cons]
    have hshift : w ++ c :: m = w ++ [c] ++ m := by simp
    rw [List.cons_append, byteWindows, if_pos (by omega), hshift]
    rw [hshift] at hne hle hfull
    exact ih hne hle hfull

theorem hardSplit_within (hmax : 1 ≤ maxTokens) (chunkStart : Nat) {fuel : Nat} :
    ∀ {p t : List Char} {chunks : List RawChunk},
      hardSplit estimateTokens maxTokens (p ++ t) chunkStart fuel (byteLen p) = some chunks →
        (ChunksWithin estimateTokens maxTokens chunks ↔
          ∀ window ∈ byteWindows (maxTokens * 4) [] t,
            WithinBudget estimateTokens maxTokens window) := by
  have hdone : ChunksWithin estimateTokens maxTokens [] ↔
      ∀ window ∈ byteWindows (maxTokens * 4) [] [],
        WithinBudget estimateTokens maxTokens window := by
    simp [ChunksWithin, byteWindows]
  induction fuel with
  | zero =>
    intro p t chunks h
    rw [hardSplit] at h
    split at h
    · cases h
    · rename_i hend
      obtain rfl : t = [] := byteLen_eq_zero.mp (by rw [byteLen_append] at hend; omega)
      obtain rfl := Option.some.inj h
      exact hdone
  | succ fuel ih =>
    intro p t chunks h
    cases t with
    | nil =>
      rw [hardSplit, if_neg (by simp)] at h
      obtain rfl := Option.some.inj h
      exact hdone
    | cons c t =>
      obtain ⟨m, q, htail, hm, hle, hfull, hround⟩ :=
        hardSplit_round estimateTokens hmax chunkStart fuel p c t
      rw [hround] at h
      obtain ⟨rest, hrest, hchunks⟩ := Option.map_eq_some_iff.mp h
      have hrec := @ih (p ++ m) q rest (by rw [List.append_assoc, ← htail]; exact hrest)
      rw [htail, byteWindows_full (by omega) (w := []) hm hle hfull, List.nil_append,
        List.forall_mem_cons, ← hrec, ← hchunks]
      split
      · exact List.forall_mem_cons
      · rename_i hzero
        exact (and_iff_right (.inl (by omega))).symm

theorem chunkPieces_within {chunkFurther : List Char → Nat → Option (List RawChunk)}
    {Fits : List Char → Prop} (hfurther : ∀ t o chunks, chunkFurther t o = some chunks →
      (ChunksWithin estimateTokens maxTokens chunks ↔ Fits t))
    {separator t : List Char} {pieces : List (List Char)} (hsplit : IsSplit separator t pieces) :
    ∀ {p : List Char} {offset : Nat} {chunks : List RawChunk},
      chunkPieces chunkFurther (p ++ t) separator (byteLen p) offset pieces = some chunks →
        (ChunksWithin estimateTokens maxTokens chunks ↔
          ∀ text ∈ withSeparator separator pieces, Fits text) := by
  induction hsplit with
  | last t =>
    intro p offset chunks h
    have hslice : slice (p ++ t) (byteLen p) (byteLen p + byteLen t) = some t :=
      slice_mid (by rw [List.append_nil]) rfl rfl
    rw [chunkPieces, List.isEmpty_nil, if_pos rfl, hslice] at h
    change (chunkFurther t offset).bind _ = _ at h
    obtain ⟨sub, hsub, hchunks⟩ := Option.bind_eq_some_iff.mp h
    obtain rfl : sub ++ [] = chunks := Option.some.inj hchunks
    rw [List.append_nil, hfurther t offset sub hsub, withSeparator, withSeparator]
    simp
  | @cons piece s pieces hrest ih =>
    intro p offset chunks h
    have hslice : slice (p ++ (piece ++ (separator ++ s))) (byteLen p)
        (byteLen p + byteLen piece + byteLen separator) = some (piece ++ separator) :=
      slice_mid (q := s) (by simp only [List.append_assoc]) rfl
        (by rw [byteLen_append, Nat.add_assoc])
    rw [chunkPieces, List.isEmpty_eq_false_iff.mpr hrest.ne_nil, if_neg Bool.false_ne_true,
      hslice] at h
    change (chunkFurther (piece ++ separator) offset).bind _ = _ at h
    obtain ⟨sub, hsub, h⟩ := Option.bind_eq_some_iff.mp h
    obtain ⟨rest, hrests, hchunks⟩ := Option.bind_eq_some_iff.mp h
    obtain rfl : sub ++ rest = chunks := Option.some.inj hchunks
    have hrec := @ih (p ++ (piece ++ separator)) (offset + byteLen (piece ++ separator)) rest (by
      rw [byteLen_append p, byteLen_append piece, ← Nat.add_assoc]
      simp only [List.append_assoc]
      rw [byteLen_append] at hrests
      exact hrests)
    rw [chunksWithin_append, hfurther _ _ _ hsub, hrec, withSeparator,
      List.isEmpty_eq_false_iff.mpr hrest.ne_nil, if_neg Bool.false_ne_true, List.forall_mem_cons]

/-- The chunks of a text are within the budget exactly when the windows of the last resort are. -/
theorem chunkRecursive_within (hmax : 1 ≤ maxTokens) {fuel : Nat} {separators : List (List Char)} :
    ∀ {content : List Char} {chunkStart : Nat} {chunks : List RawChunk},
      chunkRecursive estimateTokens maxTokens fuel separators content chunkStart = some chunks →
        (ChunksWithin estimateTokens maxTokens chunks ↔
          RecursiveFits estimateTokens maxTokens separators content) := by
  have hwhole {content : List Char} (chunkStart : Nat) (h : estimateTokens content ≤ maxTokens) :
      ChunksWithin estimateTokens maxTokens (if estimateTokens content = 0 then []
        else [recursiveChunk chunkStart content]) := by
    split
    · exact fun c hc => (by cases hc)
    · exact List.forall_mem_singleton.mpr (.inl h)
  induction separators with
  | nil =>
    intro content chunkStart chunks h
    rw [chunkRecursive] at h
    rw [RecursiveFits, overBudget]
    split at h
    · rename_i hfit
      obtain rfl := Option.some.inj h
      rw [if_pos hfit]
      exact iff_of_true (hwhole chunkStart hfit) (by simp)
    · rename_i hover
      rw [if_neg hover, List.forall_mem_singleton]
      exact @hardSplit_within _ _ hmax chunkStart fuel [] content chunks h
  | cons separator separators ih =>
    intro content chunkStart chunks h
    rw [chunkRecursive] at h
    rw [RecursiveFits, overBudget]
    split at h
    · rename_i hfit
      obtain rfl := Option.some.inj h
      rw [if_pos hfit]
      exact iff_of_true (hwhole chunkStart hfit) (by simp)
    · rename_i hover
      rw [if_neg hover, List.forall_mem_flatMap]
      exact @chunkPieces_within _ _ _ _ (fun t o cs hcs => ih hcs) separator content _
        (split_isSplit separator content) [] chunkStart chunks h

end Fits

end Arags.Embedding
