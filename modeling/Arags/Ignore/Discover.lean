import Arags.Lib.LastMatch
import Arags.Ignore.Rules
import Mathlib.Algebra.GroupWithZero.Nat

/-!
# Arags.Ignore.Discover

Discovery of files: `dispatch/discover.rs` on a directory tree, with the rules that
`load_gitignores` collects.

* `Entries`       — a directory, its entries in the order they are read.
* `loadGitignores`, `gitignoreDecides` — the rules by depth; the last that matches decides.
* `discoverLoop`  — the walk with its stack; `fuel` counts the directories.
* `discover_kept` — a file is returned when it and every directory above it are kept.
-/

namespace Arags.Ignore

open Text Paths

abbrev FilePath := List FileName

inductive Entries where
  | nil
  | file (name : FileName) (content : List Char) (rest : Entries)
  | dir (name : FileName) (children : Entries) (rest : Entries)

/-! ## Ignore rules -/

/-- Directories in which no `.gitignore` is looked for. -/
def skippedDirs : List (List Char) :=
  [".git".toList, "target".toList, "node_modules".toList, ".venv".toList]

/-- The `.gitignore` files below directory `path`, each with its directory. -/
def collectGitignoreFiles (path : FilePath) (depth : Nat) :
    Entries → List (FilePath × List Char)
  | .nil => []
  | .file name content rest =>
    (if name.text = ".gitignore".toList then [(path, content)] else []) ++
      collectGitignoreFiles path depth rest
  | .dir name children rest =>
    (if skippedDirs.contains name.text then []
      else if 32 < depth + 1 then []
      else collectGitignoreFiles (path ++ [name]) (depth + 1) children) ++
      collectGitignoreFiles path depth rest

/-- `str::lines`. -/
def lines (s : List Char) : List (List Char) :=
  (splitInclusive s).map fun line =>
    if line.getLast? = some '\n' then
      if line.dropLast.getLast? = some '\r' then line.dropLast.dropLast else line.dropLast
    else line

/-- The rules of a file in directory `dir`, each with the depth of that directory. -/
def fileRules (dir : FilePath) (content : List Char) : List (Nat × IgnoreRule) :=
  ((lines content).filterMap fun line => parseLine line (pathText dir)).map (dir.length, ·)

def loadGitignores (root : Entries) : List IgnoreRule :=
  (((collectGitignoreFiles [] 0 root).flatMap fun (dir, content) =>
    fileRules dir content).insertionSort fun a b => a.1 ≤ b.1).map Prod.snd

def gitignoreDecides (rules : List IgnoreRule) (rel : List Char) (isDir : Bool) : Bool :=
  rules.foldl (fun decision rule => if rule.matches rel isDir then !rule.negated else decision)
    false

/-! ## Names -/

def defaultIgnoredDirs : List (List Char) :=
  [".git", ".arags", "target", "node_modules", "vendor", ".venv", "venv", "__pycache__", ".idea",
    ".vscode", "dist", "build", ".next", ".terraform", "Seeds", ".seeds", "REFERENCE",
    "_Exemplos"].map String.toList

def defaultIgnoredPathPrefixes : List (List Char) := ["storage/logs".toList]

def defaultIgnoredExts : List (List Char) :=
  ["lock", "png", "jpg", "jpeg", "gif", "ico", "pdf", "zip", "gz", "tar", "bin", "exe", "dll",
    "so", "dylib", "woff", "woff2", "ttf", "eot", "mp4", "mp3", "wav"].map String.toList

def toAsciiLowercase (s : List Char) : List Char := s.map Char.toLower

def hasComponent (rel name : List Char) : Bool := (split ['/'] rel).any (· == name)

def isDefaultIgnored (rel : List Char) (isDir : Bool) : Bool :=
  if isDir then
    defaultIgnoredDirs.any (hasComponent rel ·) ||
      defaultIgnoredPathPrefixes.any fun p => rel == p || (p ++ ['/']).isPrefixOf rel
  else defaultIgnoredExts.any (·.isSuffixOf (toAsciiLowercase rel))

/-- A component that starts with a dot. -/
def hasDotComponent (rel : List Char) : Bool :=
  (split ['/'] rel).any fun seg => seg.head? == some '.'

def matchesPattern (rel pat : List Char) : Bool :=
  if pat.getLast? = some '/' then hasComponent rel pat.dropLast
  else if ['*', '.'].isPrefixOf pat then (pat.drop 2).isSuffixOf (toAsciiLowercase rel)
  else if pat.contains '*' then
    let simple := pat.filter (· != '*')
    !simple.isEmpty && (find simple (toAsciiLowercase rel)).isSome
  else if pat.contains '/' then rel == pat || pat.isSuffixOf rel || (find pat rel).isSome
  else hasComponent rel pat

def matchesAny (rel : List Char) (patterns : List (List Char)) : Bool :=
  patterns.any fun p => matchesPattern rel p

/-! ## The walk -/

/-- What the walk does not skip: a directory it descends into, a file it returns. -/
def keepEntry (rules : List IgnoreRule) (ignore forceInclude : List (List Char)) (rel : List Char)
    (isDir : Bool) : Bool :=
  if hasDotComponent rel && !matchesAny rel forceInclude then false
  else matchesAny rel forceInclude ||
    !(isDefaultIgnored rel isDir || matchesAny rel ignore || gitignoreDecides rules rel isDir)

section Walk

variable (keep : List Char → Bool → Bool)

/-- One directory: those pushed onto the stack, and the files that are returned. -/
def visit (dir : FilePath) : Entries → List (FilePath × Entries) × List FilePath
  | .nil => ([], [])
  | .file name _ rest =>
    let r := visit dir rest
    (r.1, if keep (pathText (dir ++ [name])) false then (dir ++ [name]) :: r.2 else r.2)
  | .dir name children rest =>
    let r := visit dir rest
    (if keep (pathText (dir ++ [name])) true then (dir ++ [name], children) :: r.1 else r.1, r.2)

/-- The stack, with the directory that is popped next at its head. -/
def discoverLoop : Nat → List (FilePath × Entries) → Option (List FilePath)
  | _, [] => some []
  | 0, _ :: _ => none
  | fuel + 1, (dir, entries) :: stack =>
    let r := visit keep dir entries
    (discoverLoop fuel (r.1.reverse ++ stack)).map (r.2 ++ ·)

/-- The files that are kept with every directory between `dir` and them. -/
def keptFiles (dir : FilePath) : Entries → List FilePath
  | .nil => []
  | .file name _ rest =>
    (if keep (pathText (dir ++ [name])) false then [dir ++ [name]] else []) ++ keptFiles dir rest
  | .dir name children rest =>
    (if keep (pathText (dir ++ [name])) true then keptFiles (dir ++ [name]) children else []) ++
      keptFiles dir rest

end Walk

def discoverFiles (fuel : Nat) (root : Entries) (ignore forceInclude : List (List Char)) :
    Option (List FilePath) :=
  discoverLoop (keepEntry (loadGitignores root) ignore forceInclude) fuel [([], root)]

/-- The files of a tree. -/
def files (dir : FilePath) (entries : Entries) : List FilePath :=
  keptFiles (fun _ _ => true) dir entries

def Entries.dirs : Entries → Nat
  | .nil => 0
  | .file _ _ rest => rest.dirs
  | .dir _ children rest => children.dirs + 1 + rest.dirs

/-! ## What is returned -/

section Kept

variable {keep : List Char → Bool → Bool}

def stackDirs (stack : List (FilePath × Entries)) : Nat :=
  (stack.map fun x => x.2.dirs + 1).sum

theorem visit_dirs (dir : FilePath) (entries : Entries) :
    stackDirs (visit keep dir entries).1 ≤ entries.dirs := by
  induction entries with
  | nil => exact Nat.le_refl 0
  | file name content rest ih => exact ih
  | dir name children rest _ ih =>
    rw [visit]
    dsimp only
    split
    · rw [stackDirs, List.map_cons, List.sum_cons]
      exact Nat.add_le_add_left ih _
    · exact Nat.le_trans ih (Nat.le_add_left _ _)

/-- A round for each directory is enough. -/
theorem discoverLoop_some {fuel : Nat} : ∀ {stack : List (FilePath × Entries)},
    stackDirs stack ≤ fuel → (discoverLoop keep fuel stack).isSome = true := by
  induction fuel with
  | zero =>
    intro stack h
    cases stack with
    | nil => rfl
    | cons x stack =>
      rw [stackDirs, List.map_cons, List.sum_cons] at h
      omega
  | succ fuel ih =>
    intro stack h
    cases stack with
    | nil => rfl
    | cons x stack =>
      obtain ⟨dir, entries⟩ := x
      have hvisit := @visit_dirs keep dir entries
      rw [stackDirs, List.map_cons, List.sum_cons] at h
      rw [discoverLoop, Option.isSome_map]
      refine ih ?_
      rw [stackDirs, List.map_append, List.sum_append, List.map_reverse, List.sum_reverse]
      change stackDirs _ + stackDirs stack ≤ fuel
      change entries.dirs + 1 + stackDirs stack ≤ fuel + 1 at h
      omega

theorem visit_kept {path : FilePath} (dir : FilePath) (entries : Entries) :
    path ∈ keptFiles keep dir entries ↔ path ∈ (visit keep dir entries).2 ∨
      ∃ x ∈ (visit keep dir entries).1, path ∈ keptFiles keep x.1 x.2 := by
  induction entries with
  | nil => simp [keptFiles, visit]
  | file name content rest ih =>
    rw [keptFiles, visit, List.mem_append, ih, ← or_assoc]
    refine or_congr_left ?_
    dsimp only
    split
    · rw [List.mem_singleton, List.mem_cons]
    · exact or_iff_right (fun h => (by cases h))
  | dir name children rest _ ih =>
    rw [keptFiles, visit, List.mem_append, ih, or_left_comm]
    refine or_congr_right ?_
    dsimp only
    split
    · simp only [List.mem_cons, exists_eq_or_imp]
    · exact or_iff_right (fun h => (by cases h))

theorem discoverLoop_kept {path : FilePath} {fuel : Nat} :
    ∀ {stack : List (FilePath × Entries)} {out : List FilePath},
      discoverLoop keep fuel stack = some out →
        (path ∈ out ↔ ∃ x ∈ stack, path ∈ keptFiles keep x.1 x.2) := by
  induction fuel with
  | zero =>
    intro stack out h
    cases stack with
    | nil =>
      obtain rfl := Option.some.inj h
      simp
    | cons x stack => cases h
  | succ fuel ih =>
    intro stack out h
    cases stack with
    | nil =>
      obtain rfl := Option.some.inj h
      simp
    | cons x stack =>
      obtain ⟨dir, entries⟩ := x
      rw [discoverLoop] at h
      obtain ⟨rest, hrest, rfl⟩ := Option.map_eq_some_iff.mp h
      rw [List.mem_append, ih hrest]
      simp only [List.mem_cons, List.mem_append, List.mem_reverse, or_and_right, exists_or,
        exists_eq_left]
      rw [visit_kept dir entries, or_assoc]

theorem files_below {dir path : FilePath} {entries : Entries}
    (h : path ∈ keptFiles keep dir entries) : ∃ rest, rest ≠ [] ∧ path = dir ++ rest := by
  induction entries generalizing dir with
  | nil => cases h
  | file name content rest ih =>
    rcases List.mem_append.mp h with h | h
    · split at h
      · exact ⟨[name], List.cons_ne_nil _ _, List.mem_singleton.mp h⟩
      · cases h
    · exact ih h
  | dir name children rest ihc ih =>
    rcases List.mem_append.mp h with h | h
    · split at h
      · obtain ⟨below, -, rfl⟩ := ihc h
        exact ⟨name :: below, List.cons_ne_nil _ _, List.append_assoc dir [name] below⟩
      · cases h
    · exact ih h

theorem mem_keptFiles {dir path : FilePath} {entries : Entries} :
    path ∈ keptFiles keep dir entries ↔ path ∈ files dir entries ∧
      (∀ k, dir.length < k → k < path.length → keep (pathText (path.take k)) true = true) ∧
        keep (pathText path) false = true := by
  induction entries generalizing dir with
  | nil => exact iff_of_false (fun h => (by cases h)) (fun h => (by cases h.1))
  | file name content rest ih =>
    rw [files, keptFiles, keptFiles, List.mem_append, List.mem_append, ih, or_and_right,
      if_pos rfl, List.mem_singleton]
    refine or_congr_left ?_
    constructor
    · intro h
      split at h
      · rename_i hkeep
        obtain rfl := List.mem_singleton.mp h
        refine ⟨rfl, fun k hk hlt => ?_, hkeep⟩
        rw [List.length_append, List.length_singleton] at hlt
        omega
      · cases h
    · rintro ⟨rfl, -, hkeep⟩
      rw [if_pos hkeep]
      exact List.mem_singleton_self _
  | dir name children rest ihc ih =>
    rw [files, keptFiles, keptFiles, List.mem_append, List.mem_append, ih, or_and_right,
      if_pos rfl]
    refine or_congr_left ?_
    have hat (h : path ∈ files (dir ++ [name]) children) :
        path.take (dir.length + 1) = dir ++ [name] := by
      obtain ⟨below, -, rfl⟩ := files_below h
      exact List.take_left' (by simp)
    have hlonger (h : path ∈ files (dir ++ [name]) children) : dir.length + 1 < path.length := by
      obtain ⟨below, hne, rfl⟩ := files_below h
      have := List.length_pos_iff.mpr hne
      rw [List.length_append, List.length_append, List.length_singleton]
      omega
    constructor
    · intro h
      split at h
      · rename_i hkeep
        obtain ⟨hfile, hdirs, hself⟩ := ihc.mp h
        refine ⟨hfile, fun k hk hlt => ?_, hself⟩
        rcases Nat.lt_or_eq_of_le (Nat.succ_le_of_lt hk) with hmore | rfl
        · exact hdirs k (by rw [List.length_append, List.length_singleton]; exact hmore) hlt
        · rw [Nat.succ_eq_add_one, hat hfile]
          exact hkeep
      · cases h
    · rintro ⟨hfile, hdirs, hself⟩
      have hkeep := hdirs _ (Nat.lt_succ_self _) (hlonger hfile)
      rw [Nat.succ_eq_add_one, hat hfile] at hkeep
      rw [if_pos hkeep]
      refine ihc.mpr ⟨hfile, fun k hk hlt => hdirs k ?_ hlt, hself⟩
      rw [List.length_append, List.length_singleton] at hk
      omega

/-- With fuel for its directories the walk returns exactly the files that it keeps with every
directory above them. -/
theorem discover_kept {fuel : Nat} {root : Entries} (hfuel : root.dirs < fuel)
    (ignore forceInclude : List (List Char)) : ∃ out,
      discoverFiles fuel root ignore forceInclude = some out ∧ ∀ path ∈ files [] root,
        (path ∈ out ↔ (∀ k, 0 < k → k < path.length →
          keepEntry (loadGitignores root) ignore forceInclude (pathText (path.take k)) true =
            true) ∧
          keepEntry (loadGitignores root) ignore forceInclude (pathText path) false = true) := by
  have hsome : (discoverFiles fuel root ignore forceInclude).isSome = true := by
    refine discoverLoop_some ?_
    rw [stackDirs, List.map_singleton, List.sum_singleton]
    exact hfuel
  obtain ⟨out, hout⟩ := Option.isSome_iff_exists.mp hsome
  refine ⟨out, hout, fun path hpath => ?_⟩
  rw [discoverLoop_kept hout]
  simp [mem_keptFiles, hpath]

end Kept

end Arags.Ignore
