import Arags.Lib.Slices

/-!
# Fts5

The query language of the full-text index FTS5, as far as barewords and the operators `AND`, `OR`
and `NOT` go.

* `lex`, `parse` — an expression from a text. The sequence of two strings is an implicit `AND`,
  which binds tighter than `NOT`, that tighter than `AND`, and that tighter than `OR`.
* `Query.Matches` — what an expression means, over the meaning of a string.
* `parse_strings`, `parse_or` — strings one after another, and strings with `OR` between them.
-/

namespace Fts5

open Text

def isSpace (c : Char) : Bool := c == ' ' || c == '\t' || c == '\n' || c == '\r'

/-- Letters and digits of ASCII, the underscore, the substitute character, and all beyond ASCII. -/
def isBareword (c : Char) : Bool :=
  c.isAlphanum || c == '_' || c.toNat == 26 || decide (128 ≤ c.toNat)

inductive Token where
  | and
  | or
  | not
  | string (w : List Char)
  deriving DecidableEq

/-- The operators are in upper case. -/
def token (w : List Char) : Token :=
  if w = "AND".toList then .and
  else if w = "OR".toList then .or
  else if w = "NOT".toList then .not
  else .string w

/-- Other characters are a syntax error, or begin what is not modelled here. -/
def lex (s : List Char) : Option (List Token) :=
  if s.all fun c => isSpace c || isBareword c then some ((runs isBareword s).map token) else none

inductive Query where
  | string (w : List Char)
  | and (a b : Query)
  | or (a b : Query)
  | not (a b : Query)

section Meaning

variable {δ : Type} (string : List Char → δ → Prop)

def Query.Matches (d : δ) : Query → Prop
  | .string w => string w d
  | .and a b => a.Matches d ∧ b.Matches d
  | .or a b => a.Matches d ∨ b.Matches d
  | .not a b => a.Matches d ∧ ¬ b.Matches d

end Meaning

/-- The operands of an operator that groups from the left. -/
def leftAssoc (op : Query → Query → Query) : List Query → Option Query
  | [] => none
  | q :: qs => some (qs.foldl op q)

def parseString : Token → Option Query
  | .string w => some (.string w)
  | _ => none

def parseImplicit (ts : List Token) : Option Query :=
  (ts.mapM parseString).bind (leftAssoc .and)

def parseNot (ts : List Token) : Option Query :=
  ((ts.splitOn .not).mapM parseImplicit).bind (leftAssoc .not)

def parseAnd (ts : List Token) : Option Query :=
  ((ts.splitOn .and).mapM parseNot).bind (leftAssoc .and)

def parseOr (ts : List Token) : Option Query :=
  ((ts.splitOn .or).mapM parseAnd).bind (leftAssoc .or)

def parse (s : List Char) : Option Query := (lex s).bind parseOr

/-- The expression binds `NOT` tighter than `OR`, and a sequence tighter than both. -/
example : parse "a b NOT c OR d".toList = some (.or
    (.not (.and (.string ['a']) (.string ['b'])) (.string ['c'])) (.string ['d'])) := by
  rfl

/-! ## Reading an expression -/

section Parse

variable {δ : Type} {string : List Char → δ → Prop} {d : δ}

/-- A token is no operator. -/
def IsString (w : List Char) : Prop := token w = .string w

theorem operand_single (op : Query → Query → Query) (f : List Token → Option Query) {sep : Token}
    {ts : List Token} (h : sep ∉ ts) :
    ((ts.splitOn sep).mapM f).bind (leftAssoc op) = f ts := by
  have hsplit : ts.splitOn sep = [ts] := by
    rw [List.splitOn_eq_splitOnP]
    exact List.splitOnP_eq_singleton fun t ht => beq_eq_false_iff_ne.mpr fun hne => h (hne ▸ ht)
  rw [hsplit]
  cases hf : f ts <;> simp [hf, leftAssoc]

theorem mapM_strings (ws : List (List Char)) :
    (ws.map Token.string).mapM parseString = some (ws.map Query.string) := by
  induction ws with
  | nil => rfl
  | cons w ws ih =>
    rw [List.map_cons, List.mapM_cons, ih]
    rfl

/-- Strings alone are one operand of every operator. -/
theorem parseAnd_strings (ws : List (List Char)) :
    parseAnd (ws.map Token.string) = leftAssoc .and (ws.map Query.string) := by
  rw [parseAnd, operand_single _ _ (by simp), parseNot, operand_single _ _ (by simp),
    parseImplicit, mapM_strings]
  rfl

theorem matches_foldl_and (q : Query) (qs : List Query) :
    (qs.foldl .and q).Matches string d ↔ ∀ q' ∈ q :: qs, q'.Matches string d := by
  induction qs generalizing q with
  | nil => simp
  | cons q' qs ih =>
    rw [List.foldl_cons, ih]
    simp [Query.Matches, and_assoc]

theorem matches_foldl_or (q : Query) (qs : List Query) :
    (qs.foldl .or q).Matches string d ↔ ∃ q' ∈ q :: qs, q'.Matches string d := by
  induction qs generalizing q with
  | nil => simp
  | cons q' qs ih =>
    rw [List.foldl_cons, ih]
    simp [Query.Matches, or_assoc]

theorem matches_leftAssoc_and {ws : List (List Char)} (h : ws ≠ []) :
    ∃ q, leftAssoc .and (ws.map Query.string) = some q ∧
      ∀ d, q.Matches string d ↔ ∀ w ∈ ws, string w d := by
  obtain ⟨w, ws, rfl⟩ := List.exists_cons_of_ne_nil h
  refine ⟨_, rfl, fun d => ?_⟩
  rw [matches_foldl_and]
  simp [Query.Matches]

/-- Strings one after another mean that all of them match. -/
theorem parse_strings {s : List Char} (hchars : ∀ c ∈ s, isSpace c = true ∨ isBareword c = true)
    (hstrings : ∀ w ∈ runs isBareword s, IsString w) (hne : runs isBareword s ≠ []) :
    ∃ q, parse s = some q ∧ ∀ d, q.Matches string d ↔ ∀ w ∈ runs isBareword s, string w d := by
  have hlex : lex s = some ((runs isBareword s).map Token.string) := by
    rw [lex, if_pos (by simpa using hchars)]
    exact congrArg some (List.map_congr_left hstrings)
  rw [parse, hlex, Option.bind_some, parseOr, operand_single _ _ (by simp), parseAnd_strings]
  exact matches_leftAssoc_and hne

/-- The runs of strings with `OR` between them. -/
theorem runs_or {w : List Char} {ws : List (List Char)}
    (h : ∀ v ∈ w :: ws, v ≠ [] ∧ ∀ c ∈ v, isBareword c = true) :
    runs isBareword (" OR ".toList.intercalate (w :: ws)) =
      ["OR".toList].intercalate ((w :: ws).map fun v => [v]) := by
  induction ws generalizing w with
  | nil =>
    obtain ⟨hne, hw⟩ := h w List.mem_cons_self
    simp [runs_self hne hw]
  | cons v ws ih =>
    obtain ⟨hne, hw⟩ := h w List.mem_cons_self
    rw [List.intercalate_cons_cons, List.append_assoc]
    rw [show " OR ".toList ++ " OR ".toList.intercalate (v :: ws) =
        ' ' :: ("OR".toList ++ ' ' :: " OR ".toList.intercalate (v :: ws)) from rfl]
    have hor : ∀ c ∈ "OR".toList, isBareword c = true := List.all_eq_true.mp (by decide)
    rw [runs_append hne hw (by decide), runs_append (by decide) hor (by decide),
      ih fun u hu => h u (List.mem_cons_of_mem w hu)]
    simp [List.intercalate_cons_cons]

theorem lex_or {w : List Char} {ws : List (List Char)}
    (h : ∀ v ∈ w :: ws, v ≠ [] ∧ (∀ c ∈ v, isBareword c = true) ∧ IsString v) :
    lex (" OR ".toList.intercalate (w :: ws)) =
      some ([Token.or].intercalate ((w :: ws).map fun v => [Token.string v])) := by
  have hchars : ∀ c ∈ " OR ".toList.intercalate (w :: ws),
      isSpace c = true ∨ isBareword c = true := by
    induction ws generalizing w with
    | nil =>
      rw [List.intercalate_singleton]
      exact fun c hc => .inr ((h w List.mem_cons_self).2.1 c hc)
    | cons v ws ih =>
      have hsep : ∀ c ∈ " OR ".toList, isSpace c = true ∨ isBareword c = true := by
        have hall : (" OR ".toList.all fun c => isSpace c || isBareword c) = true := by decide
        intro c hc
        simpa using List.all_eq_true.mp hall c hc
      rw [List.intercalate_cons_cons]
      intro c hc
      obtain (hc | hc) | hc := by simpa only [List.mem_append] using hc
      · exact .inr ((h w List.mem_cons_self).2.1 c hc)
      · exact hsep c hc
      · exact ih (fun u hu => h u (List.mem_cons_of_mem w hu)) c hc
  have htokens : (["OR".toList].intercalate ((w :: ws).map fun v => [v])).map token =
      [Token.or].intercalate ((w :: ws).map fun v => [Token.string v]) := by
    clear hchars
    induction ws generalizing w with
    | nil =>
      have hw : token w = .string w := (h w List.mem_cons_self).2.2
      simp [hw]
    | cons v ws ih =>
      have hw : token w = .string w := (h w List.mem_cons_self).2.2
      have ih := ih fun u hu => h u (List.mem_cons_of_mem w hu)
      simp only [List.map_cons] at ih ⊢
      rw [List.intercalate_cons_cons, List.intercalate_cons_cons, List.map_append, ih]
      simp [hw, show token ['O', 'R'] = .or from rfl]
  rw [lex, if_pos (by simpa using hchars), runs_or fun v hv => ⟨(h v hv).1, (h v hv).2.1⟩,
    htokens]

/-- Strings with `OR` between them mean that one of them matches. -/
theorem parse_or {ws : List (List Char)} (hne : ws ≠ [])
    (h : ∀ v ∈ ws, v ≠ [] ∧ (∀ c ∈ v, isBareword c = true) ∧ IsString v) :
    ∃ q, parse (" OR ".toList.intercalate ws) = some q ∧
      ∀ d, q.Matches string d ↔ ∃ w ∈ ws, string w d := by
  obtain ⟨w, ws, rfl⟩ := List.exists_cons_of_ne_nil hne
  have hoperands (vs : List (List Char)) :
      (vs.map fun v => [Token.string v]).mapM parseAnd = some (vs.map Query.string) := by
    induction vs with
    | nil => rfl
    | cons v vs ih =>
      rw [List.map_cons, List.mapM_cons, ih, show parseAnd [Token.string v] = some (.string v) from
        parseAnd_strings [v]]
      rfl
  rw [parse, lex_or h, Option.bind_some, parseOr,
    List.splitOn_intercalate Token.or (by simp) (by simp), hoperands, Option.bind_some]
  refine ⟨_, rfl, fun d => ?_⟩
  rw [matches_foldl_or]
  simp [Query.Matches]

end Parse

end Fts5
