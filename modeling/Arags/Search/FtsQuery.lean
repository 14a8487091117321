import Arags.Lib.Fts5
import Arags.Search.Hybrid
import Arags.Search.Unified

/-!
# Arags.Search.FtsQuery

The query strings of the full-text index, as FTS5 reads them: `sanitize_query` of
`arags-storage/src/fts.rs`, `sanitize_fts` of `grpc/util.rs`, and the lexical pass of
`summary_search`.

* `keepWords`      — the two sanitizers; `sanitizeQuery_eq`, `sanitizeFts_eq`.
* `bm25Match`, `summaryMatches` — the expressions that are executed.
* `Plain`          — no word is an operator, and white space is that of FTS5.
* `runs_keepWords` — what is left are the words of the text.
* `fts_query_plain` — a query means all of its words, and the second one of `summary_search` any.
-/

namespace Arags.Fts

open Text Fts5

/-- `char::is_alphanumeric`. -/
structure CharClass where
  isAlphanumeric : Char → Bool
  ascii : ∀ c, c.toNat < 128 → isAlphanumeric c = c.isAlphanum
  not_white : ∀ c, isAlphanumeric c = true → isWhiteSpace c = false

section Code

variable (cls : CharClass)

/-- What `sanitize_query` and `sanitize_fts` do with the characters. -/
def keepWords (query : List Char) : List Char :=
  query.map fun c => if cls.isAlphanumeric c || isWhiteSpace c then c else ' '

theorem sanitizeQuery_eq {ε : Type} (env : HybridEnv ε)
    (h : env.isAlphanumeric = cls.isAlphanumeric) (query : String) :
    sanitizeQuery env query = String.ofList (keepWords cls query.toList) := by
  rw [sanitizeQuery, keepWords, h, ← String.toList_inj, String.toList_map, String.toList_ofList]

theorem sanitizeFts_eq {ε : Type} (env : SearchServerEnv ε)
    (h : env.isAlphanumeric = cls.isAlphanumeric) (query : String) :
    sanitizeFts env query = String.ofList (keepWords cls query.toList) := by
  rw [sanitizeFts, keepWords, h, ← String.toList_inj, String.toList_map, String.toList_ofList]

/-- What `Bm25Search::search` binds to `MATCH`. -/
def bm25Match (query : List Char) : Option (List Char) :=
  let safeQuery := keepWords cls query
  if (words safeQuery).isEmpty then none else some safeQuery

/-- What `summary_search` binds to `MATCH`, one after the other. -/
def summaryMatches (found : List Char → Bool) (ftsQuery : List Char) : List (List Char) :=
  if !found ftsQuery && (words ftsQuery).length > 1 then
    [ftsQuery, " OR ".toList.intercalate (words ftsQuery)]
  else [ftsQuery]

end Code

/-! ## What a query means -/

section Meaning

variable (cls : CharClass)

/-- The words of a text: every other character separates two of them. -/
def textWords (text : List Char) : List (List Char) := runs cls.isAlphanumeric text

/-- The expression is valid, and all words match what it matches. -/
def MeansAll (words : List (List Char)) (query : List Char) : Prop :=
  ∀ (δ : Type) (string : List Char → δ → Prop),
    ∃ q, parse query = some q ∧ ∀ d, q.Matches string d ↔ ∀ w ∈ words, string w d

def MeansAny (words : List (List Char)) (query : List Char) : Prop :=
  ∀ (δ : Type) (string : List Char → δ → Prop),
    ∃ q, parse query = some q ∧ ∀ d, q.Matches string d ↔ ∃ w ∈ words, string w d

/-- No word is an operator, and white space is that of FTS5. -/
structure Plain (text : List Char) : Prop where
  no_operator : ∀ w ∈ textWords cls text, IsString w
  white : ∀ c ∈ text, isWhiteSpace c = true → isSpace c = true

structure QueriesMean (text : List Char) : Prop where
  /-- Without a word nothing is searched. -/
  no_word : textWords cls text = [] → bm25Match cls text = none
  /-- A query means all of its words, also when it was sanitized before. -/
  all_words : textWords cls text ≠ [] → ∃ q, bm25Match cls text = some q ∧
    bm25Match cls (keepWords cls text) = some q ∧ MeansAll (textWords cls text) q
  /-- The second query of the summaries means any of them. -/
  summaries : ∀ found, textWords cls text ≠ [] →
    ∀ q ∈ summaryMatches found (keepWords cls text),
      q = keepWords cls text ∧ MeansAll (textWords cls text) q ∨
      found (keepWords cls text) = false ∧ 1 < (textWords cls text).length ∧
        MeansAny (textWords cls text) q

end Meaning

section Proofs

variable {cls : CharClass} {text : List Char}

theorem isBareword_alphanumeric {c : Char} (h : cls.isAlphanumeric c = true) :
    isBareword c = true := by
  obtain hc | hc := Nat.lt_or_ge c.toNat 128
  · rw [cls.ascii c hc] at h
    simp [isBareword, h]
  · simp [isBareword, hc]

theorem not_bareword_space {c : Char} (h : isSpace c = true) : isBareword c = false := by
  simp only [isSpace, Bool.or_eq_true, beq_iff_eq] at h
  obtain ((rfl | rfl) | rfl) | rfl := h <;> rfl

/-- What is left are the words of the text. -/
theorem words_keepWords (text : List Char) : words (keepWords cls text) = textWords cls text := by
  rw [words_eq_runs, keepWords, textWords]
  refine runs_map (fun c _ => ?_) (fun c _ hc => by simp [hc])
  cases hc : cls.isAlphanumeric c with
  | true => simp [cls.not_white c hc]
  | false =>
    cases hw : isWhiteSpace c with
    | true => simp [hw]
    | false => simpa [hc, hw] using show isWhiteSpace ' ' = true from rfl

/-- FTS5 reads the same words. -/
theorem runs_keepWords (h : Plain cls text) :
    runs isBareword (keepWords cls text) = textWords cls text := by
  refine runs_map (fun c hmem => ?_) (fun c _ hc => by simp [hc])
  cases hc : cls.isAlphanumeric c with
  | true => simpa [hc] using isBareword_alphanumeric hc
  | false =>
    cases hw : isWhiteSpace c with
    | true => simpa [hc, hw] using not_bareword_space (h.white c hmem hw)
    | false => simpa [hc, hw] using show isBareword ' ' = false from rfl

theorem keepWords_chars (h : Plain cls text) :
    ∀ c ∈ keepWords cls text, isSpace c = true ∨ isBareword c = true := by
  intro c hc
  obtain ⟨x, hx, rfl⟩ := List.mem_map.mp hc
  cases halpha : cls.isAlphanumeric x with
  | true => exact .inr (by simpa [halpha] using isBareword_alphanumeric halpha)
  | false =>
    cases hw : isWhiteSpace x with
    | true => exact .inl (by simpa [halpha, hw] using h.white x hx hw)
    | false => exact .inl rfl

/-- A query means all of its words. -/
theorem keepWords_means (h : Plain cls text) (hne : textWords cls text ≠ []) :
    MeansAll (textWords cls text) (keepWords cls text) := by
  intro δ string
  have hruns := runs_keepWords h
  rw [← hruns]
  rw [← hruns] at hne
  exact parse_strings (keepWords_chars h) (fun w hw => h.no_operator w (hruns ▸ hw)) hne

theorem retry_means (h : Plain cls text) (hne : textWords cls text ≠ []) :
    MeansAny (textWords cls text) (" OR ".toList.intercalate (textWords cls text)) := by
  intro δ string
  refine parse_or hne fun v hv => ?_
  obtain ⟨hv0, hchars⟩ := mem_runs hv
  exact ⟨hv0, fun c hc => isBareword_alphanumeric (hchars c hc), h.no_operator v hv⟩

/-- The sanitizers make no difference to what one of them has made. -/
theorem keepWords_keepWords (text : List Char) :
    keepWords cls (keepWords cls text) = keepWords cls text := by
  rw [keepWords, keepWords, List.map_map]
  refine List.map_congr_left fun c _ => ?_
  have hblank : isWhiteSpace ' ' = true := rfl
  by_cases hc : (cls.isAlphanumeric c || isWhiteSpace c) = true
  · simp only [Function.comp_apply, if_pos hc]
  · simp only [Function.comp_apply, if_neg hc, hblank, Bool.or_true, if_true]

/-- What is searched means the words of a text, where none is an operator. -/
theorem fts_query_plain (cls : CharClass) (text : List Char) (h : Plain cls text) :
    QueriesMean cls text where
  no_word hnil := by simp [bm25Match, words_keepWords, hnil]
  all_words hne := by
    simp only [bm25Match, keepWords_keepWords, words_keepWords]
    exact ⟨keepWords cls text, by simp [hne], by simp [hne], keepWords_means h hne⟩
  summaries found hne q hq := by
    rw [summaryMatches, words_keepWords] at hq
    split at hq
    next hretry =>
      simp only [Bool.and_eq_true, Bool.not_eq_true', decide_eq_true_eq] at hretry
      obtain rfl | hq := List.mem_cons.mp hq
      · exact .inl ⟨rfl, keepWords_means h hne⟩
      · obtain rfl := List.mem_singleton.mp hq
        exact .inr ⟨hretry.1, hretry.2, retry_means h hne⟩
    next =>
      obtain rfl := List.mem_singleton.mp hq
      exact .inl ⟨rfl, keepWords_means h hne⟩

end Proofs

/-! Two words, and the second query about them. -/

theorem isAlphanum_not_white {c : Char} (h : c.isAlphanum = true) : isWhiteSpace c = false := by
  have hclass : (decide (c.val ≥ 65 ∧ c.val ≤ 90) || (decide (c.val ≥ 97) && decide (c.val ≤ 122)) ||
      (decide (c.val ≥ 48) && decide (c.val ≤ 57))) = true := h
  simp only [Bool.or_eq_true, Bool.and_eq_true, decide_eq_true_eq, ge_iff_le,
    UInt32.le_iff_toNat_le] at hclass
  have hc : (65 ≤ c.toNat ∧ c.toNat ≤ 90 ∨ 97 ≤ c.toNat ∧ c.toNat ≤ 122) ∨
      48 ≤ c.toNat ∧ c.toNat ≤ 57 := hclass
  simp only [isWhiteSpace, Bool.or_eq_false_iff, Bool.and_eq_false_iff, decide_eq_false_iff_not,
    beq_eq_false_iff_ne]
  omega

def asciiClass : CharClass where
  isAlphanumeric := Char.isAlphanum
  ascii := fun _ _ => rfl
  not_white := fun _ => isAlphanum_not_white

theorem fts_query_plain_two : QueriesMean asciiClass "x-y".toList := by
  have hwhite : "x-y".toList.all (!isWhiteSpace ·) = true := by decide
  refine fts_query_plain asciiClass "x-y".toList ⟨by simp only [IsString]; decide, ?_⟩
  intro c hc hblank
  have := List.all_eq_true.mp hwhite c hc
  rw [hblank] at this
  cases this

theorem fts_query_retry : ¬ ∀ q ∈
    summaryMatches (fun _ => false) (keepWords asciiClass "x-y".toList),
      q = [] ∨ MeansAll (textWords asciiClass "x-y".toList) q := by
  intro h
  have hmem : "x OR y".toList ∈ summaryMatches (fun _ => false)
      (keepWords asciiClass "x-y".toList) := by decide
  obtain hnil | hall := h _ hmem
  · cases hnil
  obtain ⟨q, hparse, hmeans⟩ := hall Unit fun w _ => w = ['x']
  have hor : parse "x OR y".toList = some (.or (.string ['x']) (.string ['y'])) := rfl
  cases hor.symm.trans hparse
  have hwords : ['y'] ∈ textWords asciiClass "x-y".toList := by decide
  exact absurd ((hmeans ()).mp (.inl rfl) _ hwords) (by decide)

end Arags.Fts
