import Arags.Lib.Utf8
import Arags.Wiki.Format
import Mathlib.Data.List.AList

/-!
# Arags.Wiki.Pages

The pages that are persisted, `persist/ops.rs`, `persist/engine.rs` and the names of
`persist/format.rs`.

* `sanitizeSlug`, `sanitizeIdentifier`, `nextSequence` — where the file names come from.
* `Call`, `persist`, `persistAll` — the five operations, and a sequence of them.
* `Persists` — no page is written over another one.
* `number_fresh` — the number that comes next is the number of no file.
* `persist_step`, `persistAll_kept` — one operation, and a sequence of them.
* `persist_run` — which sequences write no page over another one.
-/

namespace Arags.Wiki

open Text

/-! ## The code -/

inductive WikiScope where
  | searches
  | analyses
  | decisions
  | sessions
  | trajectories
  deriving DecidableEq

/-- The files of a directory by the bytes of their names. -/
abbrev Dir := AList fun _ : List UInt8 => List Char

abbrev WikiRoot := WikiScope → Dir

/-- `Utc::now`, as the two texts it is written as. -/
structure Now where
  date : List Char
  rfc3339 : List Char

structure SearchPersistOptions where
  query : List Char
  tier : List Char
  project : List Char
  entities : List (List Char)
  tags : List (List Char)
  body : List Char

structure AnalysisPersistOptions where
  title : List Char
  project : List Char
  tags : List (List Char)
  body : List Char

structure DecisionPersistOptions where
  title : List Char
  tags : List (List Char)
  body : List Char
  supersedes : Option (List Char)

structure SessionPersistOptions where
  sessionId : List Char
  project : List Char
  body : List Char

structure TrajectoryPersistOptions where
  runId : List Char
  project : List Char
  body : List Char

/-- A file system takes names of so many bytes; arithmetic is checked or it wraps. -/
structure Platform where
  nameMax : Nat
  overflowChecks : Bool

inductive PersistFailure where
  | overflow
  | write
  deriving DecidableEq

def isAsciiAlphanumeric (c : Char) : Bool :=
  ('a' ≤ c && c ≤ 'z') || ('A' ≤ c && c ≤ 'Z') || ('0' ≤ c && c ≤ '9')

def toAsciiLowercase (c : Char) : Char :=
  if 'A' ≤ c && c ≤ 'Z' then Char.ofNat (c.toNat + 32) else c

/-- The state is the slug so far, the last character first, and `prev_hyphen`. -/
def slugStep : List Char × Bool → Char → List Char × Bool
  | (slug, prevHyphen), ch =>
    if isAsciiAlphanumeric ch then (toAsciiLowercase ch :: slug, false)
    else if ((ch == '_' || ch == '-') || (isWhiteSpace ch || ch == '/' || ch == '\\')) &&
        !prevHyphen && !slug.isEmpty then ('-' :: slug, true)
    else (slug, prevHyphen)

def sanitizeSlug (input : List Char) : List Char :=
  (((input.foldl slugStep ([], false)).1.dropWhile (· == '-')).reverse).dropWhile (· == '-')

def sanitizeIdentifier (input : List Char) : List Char :=
  input.filter fun ch => isAsciiAlphanumeric ch || ch == '_' || ch == '-' || ch == '.'

/-- `str::parse::<u32>`. -/
def parseU32 (s : List Char) : Option Nat :=
  let digits := match s with
    | '+' :: ds => ds
    | ds => ds
  if digits.isEmpty || digits.any (fun c => !c.isDigit) then none
  else
    let n := Nat.ofDigitChars 10 digits 0
    if n < 2 ^ 32 then some n else none

/-- The number at the front of a name. -/
def sequenceOf (name : List UInt8) : Option Nat :=
  parseU32 ((lossyChars name.length name).takeWhile (· != '-'))

def maxSequence (dir : Dir) : Nat := (dir.keys.filterMap sequenceOf).foldl max 0

def nextSequence (platform : Platform) (dir : Dir) : Except PersistFailure Nat :=
  if maxSequence dir + 1 < 2 ^ 32 then .ok (maxSequence dir + 1)
  else if platform.overflowChecks then .error .overflow
  else .ok 0

/-- `{seq:03}`. -/
def format3 (seq : Nat) : List Char := (Nat.toDigits 10 seq).leftpad 3 '0'

def numberedName (seq : Nat) (title : List Char) : List Char :=
  format3 seq ++ '-' :: (sanitizeSlug title ++ ".md".toList)

def newFrontmatter (title : List Char) (now : Now) : Frontmatter where
  title := title
  created := now.rfc3339
  updated := now.rfc3339
  query := none
  tier := none
  project := none
  entities := []
  tags := []
  pinned := false
  expiresAt := none
  salience := 1
  accessCount := 0
  supersedes := none

inductive Call where
  | search (now : Now) (options : SearchPersistOptions)
  | analysis (now : Now) (options : AnalysisPersistOptions)
  | decision (now : Now) (options : DecisionPersistOptions)
  | session (now : Now) (options : SessionPersistOptions)
  | trajectory (now : Now) (options : TrajectoryPersistOptions)

namespace Call

def scope : Call → WikiScope
  | search .. => .searches
  | analysis .. => .analyses
  | decision .. => .decisions
  | session .. => .sessions
  | trajectory .. => .trajectories

def fileName (platform : Platform) (wiki : WikiRoot) : Call → Except PersistFailure (List Char)
  | search now options =>
    .ok (now.date ++ '_' :: (sanitizeSlug options.query ++ ".md".toList))
  | analysis _ options => do
    let seq ← nextSequence platform (wiki .analyses)
    return numberedName seq options.title
  | decision _ options => do
    let seq ← nextSequence platform (wiki .decisions)
    return numberedName seq options.title
  | session _ options => .ok (sanitizeIdentifier options.sessionId ++ ".md".toList)
  | trajectory _ options => .ok (sanitizeIdentifier options.runId ++ ".md".toList)

def frontmatter : Call → Frontmatter
  | search now options =>
    { newFrontmatter (options.query ++ " - search".toList) now with
      query := some options.query
      tier := some options.tier
      project := some options.project
      entities := options.entities
      tags := options.tags }
  | analysis now options =>
    { newFrontmatter options.title now with
      project := some options.project
      tags := options.tags }
  | decision now options =>
    { newFrontmatter options.title now with
      tags := options.tags
      supersedes := options.supersedes }
  | session now options =>
    { newFrontmatter ("session ".toList ++ options.sessionId) now with
      project := some options.project }
  | trajectory now options =>
    { newFrontmatter ("run ".toList ++ options.runId) now with
      project := some options.project }

def body : Call → List Char
  | search _ options => options.body
  | analysis _ options => options.body
  | decision _ options => options.body
  | session _ options => options.body
  | trajectory _ options => options.body

/-- The id of the session or the run whose page is written. -/
def pageId : Call → Option (List Char)
  | session _ options => some options.sessionId
  | trajectory _ options => some options.runId
  | _ => none

end Call

/-- The name of the file is returned with the files. -/
def persist (platform : Platform) (yaml : YamlLibrary) (call : Call) (wiki : WikiRoot) :
    Except PersistFailure (WikiRoot × List UInt8) := do
  let fileName ← call.fileName platform wiki
  let content := renderMarkdown yaml call.frontmatter call.body
  let name := utf8Bytes fileName
  if name.length ≤ platform.nameMax then
    return (Function.update wiki call.scope ((wiki call.scope).insert name content), name)
  else throw .write

def persistAll (platform : Platform) (yaml : YamlLibrary) :
    List Call → WikiRoot → Except PersistFailure WikiRoot
  | [], wiki => .ok wiki
  | call :: calls, wiki => do
    let (wiki', _) ← persist platform yaml call wiki
    persistAll platform yaml calls wiki'

/-! ## What it is for -/

section Statement

variable (platform : Platform) (yaml : YamlLibrary)

/-- The text is the page of the session or the run that the call is about. -/
def Call.samePage (call : Call) (text : List Char) : Bool :=
  call.pageId.isSome &&
    match parseMarkdown yaml text with
    | .ok (frontmatter, _) => frontmatter.title == call.frontmatter.title
    | .error _ => false

/-- The file has the page of the call. -/
def Call.Reads (call : Call) (wiki : WikiRoot) (name : List UInt8) : Prop :=
  ∃ text, (wiki call.scope).lookup name = some text ∧
    parseMarkdown yaml text = .ok (call.frontmatter, call.body)

/-- The same call, or a later one about the same session or run. -/
def Call.Rewrites (call call' : Call) : Prop :=
  call' = call ∨ call.pageId.isSome ∧ call'.scope = call.scope ∧ call'.pageId = call.pageId

structure Persists (wiki : WikiRoot) (calls : List Call) : Prop where
  succeeds : ∃ wiki', persistAll platform yaml calls wiki = .ok wiki'
  no_overwrite : ∀ before call after, calls = before ++ call :: after →
    ∀ wiki₁, persistAll platform yaml before wiki = .ok wiki₁ →
    ∀ wiki₂ name, persist platform yaml call wiki₁ = .ok (wiki₂, name) →
    ∀ text, (wiki₁ call.scope).lookup name = some text → call.samePage yaml text
  readable : ∀ before call after, calls = before ++ call :: after →
    ∀ wiki₁, persistAll platform yaml before wiki = .ok wiki₁ →
    ∀ wiki₂ name, persist platform yaml call wiki₁ = .ok (wiki₂, name) →
    ∀ wiki₃, persistAll platform yaml after wiki₂ = .ok wiki₃ →
    ∃ call' ∈ call :: after, call.Rewrites call' ∧ call'.Reads yaml wiki₃ name
  kept : ∀ wiki', persistAll platform yaml calls wiki = .ok wiki' →
    ∀ scope name text, (wiki scope).lookup name = some text →
      (wiki' scope).lookup name = some text ∨
      ∃ call ∈ calls, call.scope = scope ∧ call.samePage yaml text ∧ call.Reads yaml wiki' name

/-- The name of a search is free, a number is left, the file of an id is the page of that id. -/
def Call.Free (wiki : WikiRoot) : Call → Prop
  | .search now options =>
    utf8Bytes (now.date ++ '_' :: (sanitizeSlug options.query ++ ".md".toList)) ∉ wiki .searches
  | .analysis .. => maxSequence (wiki .analyses) + 1 < 2 ^ 32
  | .decision .. => maxSequence (wiki .decisions) + 1 < 2 ^ 32
  | .session now options => ∀ text,
    (wiki .sessions).lookup (utf8Bytes (sanitizeIdentifier options.sessionId ++ ".md".toList)) =
      some text → (session now options).samePage yaml text
  | .trajectory now options => ∀ text,
    (wiki .trajectories).lookup (utf8Bytes (sanitizeIdentifier options.runId ++ ".md".toList)) =
      some text → (trajectory now options).samePage yaml text

/-- The file system takes the name. -/
def Call.Fits (call : Call) (wiki : WikiRoot) : Prop :=
  ∀ fileName, call.fileName platform wiki = .ok fileName →
    (utf8Bytes fileName).length ≤ platform.nameMax

/-- Every call of a sequence is free and fits where it is made. -/
def FreeRun : List Call → WikiRoot → Prop
  | [], _ => True
  | call :: calls, wiki => call.Free yaml wiki ∧ call.Fits platform wiki ∧
    ∀ wiki' name, persist platform yaml call wiki = .ok (wiki', name) → FreeRun calls wiki'

end Statement

/-! ## Numbers -/

theorem isDigit_of_mem_format3 {n : Nat} {c : Char} (h : c ∈ format3 n) : c.isDigit = true := by
  rw [format3, List.leftpad, List.mem_append, List.mem_replicate] at h
  obtain ⟨-, rfl⟩ | h := h
  · decide
  · exact Nat.isDigit_of_mem_toDigits (by decide : 0 < 10) (by decide) h

theorem format3_ne_nil (n : Nat) : format3 n ≠ [] := by
  rw [format3, List.leftpad]
  exact List.append_ne_nil_of_right_ne_nil _ Nat.toDigits_ne_nil

theorem parseU32_format3 {n : Nat} (hn : n < 2 ^ 32) : parseU32 (format3 n) = some n := by
  have hdigits : (match format3 n with
      | '+' :: ds => ds
      | ds => ds) = format3 n := by
    split
    next ds h => exact absurd (isDigit_of_mem_format3 (h ▸ List.mem_cons_self)) (by decide)
    next => rfl
  have hvalue : Nat.ofDigitChars 10 (format3 n) 0 = n := by
    rw [format3, List.leftpad, Nat.ofDigitChars_append, Nat.ofDigitChars_replicate_zero]
    exact Nat.ofDigitChars_ten_toDigits
  have hok : ((format3 n).isEmpty || (format3 n).any fun c => !c.isDigit) = false := by
    rw [Bool.or_eq_false_iff, List.isEmpty_eq_false_iff, List.any_eq_false]
    exact ⟨format3_ne_nil n, fun c hc => by simp [isDigit_of_mem_format3 hc]⟩
  unfold parseU32
  simp only [hdigits, hok, hvalue, if_pos hn, Bool.false_eq_true, if_false]

/-- The number of a written name is read back. -/
theorem sequenceOf_numberedName {n : Nat} (hn : n < 2 ^ 32) (title : List Char) :
    sequenceOf (utf8Bytes (numberedName n title)) = some n := by
  have hdigit : ∀ c ∈ format3 n, (c != '-') = true := fun c hc =>
    bne_iff_ne.mpr fun h => absurd (h ▸ isDigit_of_mem_format3 hc) (by decide)
  rw [sequenceOf, lossyChars_utf8Bytes _ (length_le_utf8Bytes _), numberedName,
    List.takeWhile_append_of_pos hdigit]
  simpa using parseU32_format3 hn

theorem le_foldl_max {l : List Nat} {m n : Nat} (h : n ≤ m ∨ n ∈ l) : n ≤ l.foldl max m := by
  induction l generalizing m with
  | nil => simpa using h
  | cons x l ih =>
    refine ih ?_
    rw [List.mem_cons] at h
    obtain h | rfl | h := h
    · exact .inl (Nat.le_trans h (Nat.le_max_left m x))
    · exact .inl (Nat.le_max_right m n)
    · exact .inr h

/-- The number that comes next is the number of no file. -/
theorem number_fresh {dir : Dir} (h : maxSequence dir + 1 < 2 ^ 32) (title : List Char) :
    utf8Bytes (numberedName (maxSequence dir + 1) title) ∉ dir := by
  intro hmem
  have hseq := sequenceOf_numberedName h title
  have hle : maxSequence dir + 1 ≤ maxSequence dir :=
    le_foldl_max (.inr (List.mem_filterMap.mpr ⟨_, AList.mem_keys.mp hmem, hseq⟩))
  omega

/-! ## One operation -/

section Steps

variable {platform : Platform} {yaml : YamlLibrary}

/-- The frontmatter of every call can be written and read. -/
def Written (yaml : YamlLibrary) (calls : List Call) : Prop :=
  ∀ call ∈ calls, ∃ text, yaml.Inverse call.frontmatter text

theorem nextSequence_eq {dir : Dir} (h : maxSequence dir + 1 < 2 ^ 32) :
    nextSequence platform dir = .ok (maxSequence dir + 1) :=
  if_pos h

/-- The name that a free call gets, and whose page is there before. -/
theorem fileName_free (platform : Platform) {call : Call} {wiki : WikiRoot}
    (hfree : call.Free yaml wiki) :
    ∃ fileName, call.fileName platform wiki = .ok fileName ∧
      ∀ text, (wiki call.scope).lookup (utf8Bytes fileName) = some text →
        call.samePage yaml text := by
  have habsent {dir : Dir} {name : List UInt8} (hname : name ∉ dir) {P : Prop}
      {text : List Char} (h : dir.lookup name = some text) : P := by
    rw [AList.lookup_eq_none.mpr hname] at h
    cases h
  cases call with
  | search now options => exact ⟨_, rfl, fun text => habsent hfree⟩
  | analysis now options =>
    refine ⟨numberedName (maxSequence (wiki .analyses) + 1) options.title, ?_,
      fun text => habsent (number_fresh hfree _)⟩
    rw [Call.fileName, nextSequence_eq hfree]
    rfl
  | decision now options =>
    refine ⟨numberedName (maxSequence (wiki .decisions) + 1) options.title, ?_,
      fun text => habsent (number_fresh hfree _)⟩
    rw [Call.fileName, nextSequence_eq hfree]
    rfl
  | session now options => exact ⟨_, rfl, hfree⟩
  | trajectory now options => exact ⟨_, rfl, hfree⟩

/-- What a call that is free and fits does. -/
theorem persist_step {call : Call} {wiki : WikiRoot} (hfree : call.Free yaml wiki)
    (hfits : call.Fits platform wiki) : ∃ name,
      persist platform yaml call wiki = .ok (Function.update wiki call.scope
        ((wiki call.scope).insert name (renderMarkdown yaml call.frontmatter call.body)), name) ∧
      ∀ text, (wiki call.scope).lookup name = some text → call.samePage yaml text := by
  obtain ⟨fileName, hname, hsame⟩ := fileName_free platform hfree
  refine ⟨utf8Bytes fileName, ?_, hsame⟩
  rw [persist, hname]
  exact if_pos (hfits fileName hname)

/-- The page of one session or run is the page of no other one. -/
theorem rewrites_of_samePage {call call' : Call} {text : List Char}
    (hread : parseMarkdown yaml text = .ok (call.frontmatter, call.body))
    (hscope : call'.scope = call.scope) (hsame : call'.samePage yaml text) :
    call.pageId.isSome ∧ call'.pageId = call.pageId := by
  rw [Call.samePage, hread] at hsame
  simp only [Bool.and_eq_true, beq_iff_eq] at hsame
  obtain ⟨hid, htitle⟩ := hsame
  cases call <;> cases call' <;>
    simp_all [Call.scope, Call.pageId, Call.frontmatter, newFrontmatter]

theorem samePage_trans {call call' : Call} {text text' : List Char}
    (hread : parseMarkdown yaml text' = .ok (call.frontmatter, call.body))
    (h : call.samePage yaml text) (h' : call'.samePage yaml text') : call'.samePage yaml text := by
  rw [Call.samePage, hread] at h'
  rw [Call.samePage] at h ⊢
  cases hp : parseMarkdown yaml text with
  | error e => simp [hp] at h
  | ok x =>
    simp only [hp, Bool.and_eq_true, beq_iff_eq] at h h' ⊢
    exact ⟨h'.1, h.2.trans h'.2⟩

theorem reads_page {call : Call} {calls : List Call} (hwritten : Written yaml calls)
    (hmem : call ∈ calls) :
    parseMarkdown yaml (renderMarkdown yaml call.frontmatter call.body) =
      .ok (call.frontmatter, call.body) := by
  obtain ⟨text, hinv⟩ := hwritten call hmem
  rw [renderMarkdown_eq hinv, parseMarkdown_page hinv]

/-! ## A sequence of operations -/

theorem persistAll_cons {call : Call} {calls : List Call} {wiki wiki' : WikiRoot}
    {name : List UInt8} (h : persist platform yaml call wiki = .ok (wiki', name)) :
    persistAll platform yaml (call :: calls) wiki = persistAll platform yaml calls wiki' := by
  rw [persistAll, h]
  rfl

theorem persistAll_ok {calls : List Call} {wiki : WikiRoot}
    (h : FreeRun platform yaml calls wiki) :
    ∃ wiki', persistAll platform yaml calls wiki = .ok wiki' := by
  induction calls generalizing wiki with
  | nil => exact ⟨wiki, rfl⟩
  | cons call calls ih =>
    obtain ⟨hfree, hfits, hrest⟩ := h
    obtain ⟨name, hstep, -⟩ := persist_step hfree hfits
    rw [persistAll_cons hstep]
    exact ih (hrest _ _ hstep)

theorem freeRun_append {before after : List Call} {wiki wiki₁ : WikiRoot}
    (h : FreeRun platform yaml (before ++ after) wiki)
    (hrun : persistAll platform yaml before wiki = .ok wiki₁) :
    FreeRun platform yaml after wiki₁ := by
  induction before generalizing wiki with
  | nil =>
    cases hrun
    exact h
  | cons call before ih =>
    obtain ⟨hfree, hfits, hrest⟩ := h
    obtain ⟨name, hstep, -⟩ := persist_step hfree hfits
    rw [persistAll_cons hstep] at hrun
    exact ih (hrest _ _ hstep) hrun

/-- A file keeps its text until a call about the same session or run rewrites it. -/
theorem persistAll_kept {calls : List Call} {wiki wiki' : WikiRoot}
    (hwritten : Written yaml calls) (h : FreeRun platform yaml calls wiki)
    (hrun : persistAll platform yaml calls wiki = .ok wiki') {scope : WikiScope}
    {name : List UInt8} {text : List Char} (hfile : (wiki scope).lookup name = some text) :
    (wiki' scope).lookup name = some text ∨
      ∃ call ∈ calls, call.scope = scope ∧ call.samePage yaml text ∧
        call.Reads yaml wiki' name := by
  induction calls generalizing wiki text with
  | nil =>
    cases hrun
    exact .inl hfile
  | cons call calls ih =>
    obtain ⟨hfree, hfits, hrest⟩ := h
    obtain ⟨written, hstep, hsame⟩ := persist_step hfree hfits
    rw [persistAll_cons hstep] at hrun
    have hread := reads_page hwritten List.mem_cons_self
    have hwritten' : Written yaml calls := fun c hc => hwritten c (List.mem_cons_of_mem _ hc)
    simp only [List.mem_cons, exists_eq_or_imp]
    by_cases hhere : scope = call.scope ∧ name = written
    · -- the file is rewritten: what comes later is about the same session or run
      obtain ⟨rfl, rfl⟩ := hhere
      have hpage := hsame text hfile
      obtain hkept | ⟨c, hc, hscope, hlater, hreads⟩ :=
        ih hwritten' (hrest _ _ hstep) hrun (by rw [Function.update_self, AList.lookup_insert])
      · exact .inr (.inl ⟨rfl, hpage, _, hkept, hread⟩)
      · exact .inr (.inr ⟨c, hc, hscope, samePage_trans hread hpage hlater, hreads⟩)
    · have helse : (Function.update wiki call.scope ((wiki call.scope).insert written
          (renderMarkdown yaml call.frontmatter call.body)) scope).lookup name = some text := by
        by_cases hscope : scope = call.scope
        · subst hscope
          rw [Function.update_self, AList.lookup_insert_ne (fun h => hhere ⟨rfl, h⟩)]
          exact hfile
        · rw [Function.update_of_ne hscope]
          exact hfile
      obtain hkept | hlater := ih hwritten' (hrest _ _ hstep) hrun helse
      · exact .inl hkept
      · exact .inr (.inr hlater)

/-- No page is written over another one when every call is free and fits. -/
theorem persist_run (platform : Platform) (yaml : YamlLibrary) (wiki : WikiRoot)
    (calls : List Call) (hwritten : Written yaml calls) (h : FreeRun platform yaml calls wiki) :
    Persists platform yaml wiki calls where
  succeeds := persistAll_ok h
  no_overwrite := by
    rintro before call after rfl wiki₁ hbefore wiki₂ name hpersist
    obtain ⟨hfree, hfits, -⟩ := freeRun_append h hbefore
    obtain ⟨written, hstep, hsame⟩ := persist_step hfree hfits
    rw [hstep] at hpersist
    cases hpersist
    exact hsame
  readable := by
    rintro before call after rfl wiki₁ hbefore wiki₂ name hpersist wiki₃ hafter
    obtain ⟨hfree, hfits, hrest⟩ := freeRun_append h hbefore
    obtain ⟨written, hstep, -⟩ := persist_step hfree hfits
    rw [hstep] at hpersist
    cases hpersist
    have hread := reads_page hwritten (List.mem_append_right before List.mem_cons_self)
    have hwritten' : Written yaml after := fun c hc =>
      hwritten c (List.mem_append_right before (List.mem_cons_of_mem _ hc))
    have hfile : (Function.update wiki₁ call.scope ((wiki₁ call.scope).insert name
        (renderMarkdown yaml call.frontmatter call.body)) call.scope).lookup name =
          some (renderMarkdown yaml call.frontmatter call.body) := by
      rw [Function.update_self, AList.lookup_insert]
    obtain hkept | ⟨c, hc, hscope, hsame, hreads⟩ :=
      persistAll_kept hwritten' (hrest _ _ hstep) hafter hfile
    · exact ⟨call, List.mem_cons_self, .inl rfl, _, hkept, hread⟩
    · exact ⟨c, List.mem_cons_of_mem _ hc,
        .inr ⟨(rewrites_of_samePage hread hscope hsame).1, hscope,
          (rewrites_of_samePage hread hscope hsame).2⟩, hreads⟩
  kept := fun _ hrun _ _ _ hfile => persistAll_kept hwritten h hrun hfile

end Steps

/-! Two pages of one session, and two searches of one day with one slug. -/

/-- The library on the frontmatters of a table. -/
def tableYaml (table : List (Frontmatter × List Char)) : YamlLibrary where
  toString f := (table.lookup f).map fun text => text ++ ['\n']
  fromStr s := (table.find? fun x => s == x.2 || s == x.2 ++ ['\n']).map fun x => x.1

def sampleSearch (query : List Char) : Call :=
  .search ⟨"2024-01-01".toList, "t".toList⟩
    ⟨query, "fts".toList, "p".toList, [], [], "body".toList⟩

def sampleSession (time body : List Char) : Call :=
  .session ⟨"2024-01-01".toList, time⟩ ⟨"s_1".toList, "p".toList, body⟩

def searchText (query : List Char) : List Char :=
  "title: ".toList ++ query ++ " - search\ncreated: t\nupdated: t\nquery: ".toList ++ query ++
    "\ntier: fts\nproject: p\npinned: false\nsalience: 1.0\naccess_count: 0".toList

def sessionText (time : List Char) : List Char :=
  "title: session s_1\ncreated: ".toList ++ time ++ "\nupdated: ".toList ++ time ++
    "\nproject: p\npinned: false\nsalience: 1.0\naccess_count: 0".toList

def searchesYaml : YamlLibrary :=
  tableYaml [((sampleSearch "a b".toList).frontmatter, searchText "a b".toList),
    ((sampleSearch "a-b".toList).frontmatter, searchText "a-b".toList)]

def sessionsYaml : YamlLibrary :=
  tableYaml [((sampleSession "t1".toList []).frontmatter, sessionText "t1".toList),
    ((sampleSession "t2".toList []).frontmatter, sessionText "t2".toList)]

theorem sessionsYaml_written : Written sessionsYaml
    [sampleSession "t1".toList "a".toList, sampleSession "t2".toList "b".toList] := by
  intro call hcall
  simp only [List.mem_cons, List.not_mem_nil, or_false] at hcall
  obtain rfl | rfl := hcall
  · exact ⟨sessionText "t1".toList, by decide, by decide, by decide, by decide, by decide⟩
  · exact ⟨sessionText "t2".toList, by decide, by decide, by decide, by decide, by decide⟩

theorem persist_run_session :
    Persists ⟨255, true⟩ sessionsYaml (fun _ => ∅)
      [sampleSession "t1".toList "a".toList, sampleSession "t2".toList "b".toList] := by
  refine persist_run _ _ _ _ sessionsYaml_written ⟨?_, ?_, fun wiki' name h => ⟨?_, ?_, ?_⟩⟩
  · intro text h
    cases h
  · intro fileName h
    cases h
    decide
  · cases h
    intro text htext
    cases htext
    decide +kernel
  · cases h
    intro fileName h
    cases h
    decide
  · exact fun _ _ _ => trivial

theorem searchesYaml_written :
    Written searchesYaml [sampleSearch "a b".toList, sampleSearch "a-b".toList] := by
  intro call hcall
  simp only [List.mem_cons, List.not_mem_nil, or_false] at hcall
  obtain rfl | rfl := hcall
  · exact ⟨searchText "a b".toList, by decide, by decide, by decide, by decide, by decide⟩
  · exact ⟨searchText "a-b".toList, by decide, by decide, by decide, by decide, by decide⟩

theorem persist_run_collision :
    Written searchesYaml [sampleSearch "a b".toList, sampleSearch "a-b".toList] ∧
    ¬ Persists ⟨255, true⟩ searchesYaml (fun _ => ∅)
      [sampleSearch "a b".toList, sampleSearch "a-b".toList] := by
  refine ⟨searchesYaml_written, fun h => ?_⟩
  have hsame := h.no_overwrite [sampleSearch "a b".toList] (sampleSearch "a-b".toList) [] rfl
    _ rfl _ _ rfl _ rfl
  exact absurd hsame (by decide)

end Arags.Wiki
