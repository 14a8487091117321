import Arags.Ignore.Discover

/-!
# Arags.Ignore.GitSemantics

What git ignores, and when discovery ignores the same.

* `gitExcludes`, `gitIgnores` — the last rule that names a path decides on it; a file is ignored
  when it or a directory above it is excluded.
* `gitignoreDecides_rules`    — the code decides by the last rule that names or reaches the path.
* `discover_git`              — a file is returned exactly when git keeps it, if and only if no
  rule strays on its way.
-/

namespace Arags.Ignore

open Text Paths LastMatch

/-! ## Git -/

/-- Every `.gitignore` of a tree, each with its directory. -/
def gitignores (path : FilePath) : Entries → List (FilePath × List Char)
  | .nil => []
  | .file name content rest =>
    (if name.text = ".gitignore".toList then [(path, content)] else []) ++ gitignores path rest
  | .dir name children rest => gitignores (path ++ [name]) children ++ gitignores path rest

/-- The `.gitignore` of each directory consists of these lines. -/
def Documented (root : Entries) (docs : FilePath → List IgnoreLine) : Prop :=
  ∀ dir, ((gitignores [] root).filter fun x => x.1 = dir).flatMap (fun x => lines x.2) =
    (docs dir).map IgnoreLine.text

section Git

variable (docs : FilePath → List IgnoreLine)

/-- The patterns for a path, with the depth of their directory: those of the root first. -/
def gitRules (path : FilePath) : List (Nat × IgnorePattern) :=
  (List.range path.length).flatMap fun k =>
    ((docs (path.take k)).filterMap IgnoreLine.pattern?).map (k, ·)

def below (path : FilePath) (k : Nat) : List (List Char) := (path.drop k).map FileName.text

def ruleNames (path : FilePath) (isDir : Bool) (r : Nat × IgnorePattern) : Bool :=
  r.2.names (below path r.1) isDir

def ruleReaches (path : FilePath) (isDir : Bool) (r : Nat × IgnorePattern) : Bool :=
  r.2.reaches (below path r.1) isDir

def verdict (r : Option (Nat × IgnorePattern)) : Bool :=
  (r.map fun r => !r.2.negated).getD false

/-- The last rule that names the path excludes it. -/
def gitExcludes (path : FilePath) (isDir : Bool) : Bool :=
  verdict (lastMatch (ruleNames path isDir) (gitRules docs path))

/-- On the way to a file: each directory above it, and the file. -/
def OnWay (path : FilePath) (k : Nat) : Prop := 0 < k ∧ k ≤ path.length

def gitIgnores (path : FilePath) : Prop :=
  ∃ k, OnWay path k ∧ gitExcludes docs (path.take k) (k < path.length) = true

/-- The last rule that names the path or reaches it, of those that are loaded. -/
def lastRead (path : FilePath) (isDir : Bool) : Option (Nat × IgnorePattern) :=
  lastMatch (fun r => decide (r.1 ≤ 32) && (ruleNames path isDir r || ruleReaches path isDir r))
    (gitRules docs path)

/-- A rule from deeper than files are loaded names the path. -/
def Unread (path : FilePath) (isDir : Bool) : Prop :=
  ∃ r ∈ gitRules docs path, 32 < r.1 ∧ ruleNames path isDir r = true

/-- A path that git keeps, below one that a later rule with a slash excludes. -/
def StrayExclusion (path : FilePath) (isDir : Bool) : Prop :=
  gitExcludes docs path isDir = false ∧ ∃ r, lastRead docs path isDir = some r ∧
    r.2.negated = false ∧ (ruleNames path isDir r = false ∨ Unread docs path isDir)

/-- A path that git excludes, below one that a later negated rule with a slash names; or the rule
that excludes it is not loaded. -/
def StrayInclusion (path : FilePath) (isDir : Bool) : Prop :=
  gitExcludes docs path isDir = true ∧
    ((∃ r, lastRead docs path isDir = some r ∧ r.2.negated = true ∧
      (ruleNames path isDir r = false ∨ Unread docs path isDir)) ∨
    lastRead docs path isDir = none ∧ Unread docs path isDir)

variable {docs}

/-- The code's reading differs from git's exactly where a rule strays. -/
theorem verdict_lastRead (path : FilePath) (isDir : Bool) :
    verdict (lastRead docs path isDir) = true ↔
      (gitExcludes docs path isDir = true ∧ ¬ StrayInclusion docs path isDir) ∨
        StrayExclusion docs path isDir := by
  by_cases hunread : Unread docs path isDir
  · cases hlast : lastRead docs path isDir with
    | none => simp [verdict, StrayExclusion, StrayInclusion, hlast, hunread]
    | some r =>
      cases hneg : r.2.negated <;> cases hgit : gitExcludes docs path isDir <;>
        simp [verdict, hgit, StrayExclusion, StrayInclusion, hlast, hneg, hunread]
  · have himp : ∀ r ∈ gitRules docs path, ruleNames path isDir r = true →
        (decide (r.1 ≤ 32) && (ruleNames path isDir r || ruleReaches path isDir r)) = true := by
      intro r hr h
      have hdepth : r.1 ≤ 32 := Nat.not_lt.mp fun hdeep => hunread ⟨r, hr, hdeep, h⟩
      rw [h, decide_eq_true hdepth]
      rfl
    cases hlast : lastRead docs path isDir with
    | none =>
      have hnone : lastMatch (ruleNames path isDir) (gitRules docs path) = none :=
        lastMatch_eq_none.mpr fun r hr => by
          rw [Bool.eq_false_iff]
          intro h
          have := lastMatch_eq_none.mp hlast r hr
          rw [himp r hr h] at this
          cases this
      have hgit : gitExcludes docs path isDir = false := by
        rw [gitExcludes, hnone]
        rfl
      simp [verdict, hgit, StrayExclusion, hlast]
    | some r =>
      cases hnames : ruleNames path isDir r with
      | true =>
        have hgit : gitExcludes docs path isDir = !r.2.negated := by
          rw [gitExcludes, lastMatch_of_imp himp hlast hnames]
          rfl
        simp [verdict, hgit, StrayExclusion, StrayInclusion, hlast, hnames, hunread]
      | false =>
        cases hneg : r.2.negated <;> cases hgit : gitExcludes docs path isDir <;>
          simp [verdict, hgit, StrayExclusion, StrayInclusion, hlast, hnames, hneg]

end Git

/-! ## The rules of the code -/

/-- The rules that are loaded, each with its directory. -/
def codeRules (found : List (FilePath × List Char)) : List (FilePath × IgnoreRule) :=
  found.flatMap fun x =>
    ((lines x.2).filterMap fun line => parseLine line (pathText x.1)).map (x.1, ·)

theorem loadGitignores_eq (root : Entries) : loadGitignores root =
    ((codeRules (collectGitignoreFiles [] 0 root)).insertionSort
      fun a b => a.1.length ≤ b.1.length).map Prod.snd := by
  have hrules : ((collectGitignoreFiles [] 0 root).flatMap fun x => fileRules x.1 x.2) =
      (codeRules (collectGitignoreFiles [] 0 root)).map fun x => (x.1.length, x.2) := by
    rw [codeRules, List.map_flatMap]
    refine List.flatMap_congr fun x _ => ?_
    rw [fileRules, List.map_map]
    rfl
  have hsort := List.map_insertionSort (fun a b : FilePath × IgnoreRule =>
      a.1.length ≤ b.1.length) (fun a b : Nat × IgnoreRule => a.1 ≤ b.1)
    (fun x => (x.1.length, x.2)) (codeRules (collectGitignoreFiles [] 0 root))
    (fun a _ b _ => Iff.rfl)
  rw [loadGitignores]
  show ((((collectGitignoreFiles [] 0 root).flatMap fun x => fileRules x.1 x.2)).insertionSort
    _).map _ = _
  rw [hrules, ← hsort, List.map_map]
  rfl

theorem codeRules_at (found : List (FilePath × List Char)) (dir : FilePath) :
    (codeRules found).filter (fun x => x.1 = dir) =
      (((found.filter fun x => x.1 = dir).flatMap fun x => lines x.2).filterMap
        fun line => parseLine line (pathText dir)).map (dir, ·) := by
  induction found with
  | nil => rfl
  | cons x found ih =>
    rw [codeRules, List.flatMap_cons, ← codeRules, List.filter_append, ih]
    by_cases hx : x.1 = dir
    · rw [List.filter_cons_of_pos (by simpa using hx), List.flatMap_cons, List.filterMap_append,
        List.map_append, List.filter_eq_self.mpr]
      · rw [hx]
      · intro y hy
        obtain ⟨r, -, rfl⟩ := List.mem_map.mp hy
        exact decide_eq_true hx
    · rw [List.filter_cons_of_neg (by simpa using hx), List.filter_eq_nil_iff.mpr, List.nil_append]
      intro y hy
      obtain ⟨r, -, rfl⟩ := List.mem_map.mp hy
      simpa using hx

theorem gitignores_below {path : FilePath} {entries : Entries} :
    ∀ x ∈ gitignores path entries, path <+: x.1 := by
  induction entries generalizing path with
  | nil => exact fun x hx => (by cases hx)
  | file name content rest ih =>
    intro x hx
    rcases List.mem_append.mp hx with hx | hx
    · split at hx
      · rw [List.mem_singleton.mp hx]
      · cases hx
    · exact ih x hx
  | dir name children rest ihc ih =>
    intro x hx
    rcases List.mem_append.mp hx with hx | hx
    · exact (List.prefix_append path [name]).trans (ihc x hx)
    · exact ih x hx

/-- Directories that are not too deep and not below a skipped one are read. -/
theorem collect_at {dir : FilePath} (hdepth : dir.length ≤ 32)
    (hskip : ∀ n ∈ dir, skippedDirs.contains n.text = false) (entries : Entries) :
    ∀ path : FilePath, (collectGitignoreFiles path path.length entries).filter
      (fun x => x.1 = dir) = (gitignores path entries).filter fun x => x.1 = dir := by
  induction entries with
  | nil => exact fun path => rfl
  | file name content rest ih =>
    intro path
    rw [collectGitignoreFiles, gitignores, List.filter_append, List.filter_append, ih path]
  | dir name children rest ihc ih =>
    intro path
    rw [collectGitignoreFiles, gitignores, List.filter_append, List.filter_append, ih path]
    refine congrArg (· ++ _) ?_
    have hnone (h : ¬ path ++ [name] <+: dir) :
        (gitignores (path ++ [name]) children).filter (fun x => x.1 = dir) = [] := by
      refine List.filter_eq_nil_iff.mpr fun x hx hdir => h ?_
      have := gitignores_below x hx
      rwa [show x.1 = dir by simpa using hdir] at this
    split
    · rename_i hskipped
      refine (hnone fun hpre => ?_).symm
      have := hskip name (hpre.subset (List.mem_append_right path (List.mem_singleton_self name)))
      rw [this] at hskipped
      cases hskipped
    · split
      · rename_i hdeep
        refine (hnone fun hpre => ?_).symm
        have := hpre.length_le
        rw [List.length_append, List.length_singleton] at this
        omega
      · have := ihc (path ++ [name])
        rwa [List.length_append, List.length_singleton] at this

theorem parseLine_base {line base : List Char} {rule : IgnoreRule}
    (h : parseLine line base = some rule) : rule.base = base := by
  unfold parseLine at h
  dsimp only at h
  rw [Option.ite_none_left_eq_some, Option.ite_none_left_eq_some] at h
  rw [← Option.some.inj h.2.2]

theorem codeRules_base {found : List (FilePath × List Char)} {x : FilePath × IgnoreRule}
    (h : x ∈ codeRules found) : x.2.base = pathText x.1 := by
  obtain ⟨y, -, hx⟩ := List.mem_flatMap.mp h
  obtain ⟨rule, hrule, rfl⟩ := List.mem_map.mp hx
  obtain ⟨line, -, hline⟩ := List.mem_filterMap.mp hrule
  exact parseLine_base hline

/-- A rule matches only below its directory. -/
theorem matches_below {found : List (FilePath × List Char)} {x : FilePath × IgnoreRule}
    (h : x ∈ codeRules found) {path : FilePath} (hne : path ≠ []) {isDir : Bool}
    (hmatch : x.2.matches (pathText path) isDir = true) :
    x.1.length < path.length ∧ x.1 = path.take x.1.length := by
  have hsome : ∃ r, relativeTo (pathText x.1) (pathText path) = some r := by
    rw [IgnoreRule.matches, codeRules_base h] at hmatch
    split at hmatch
    · cases hmatch
    · split at hmatch
      · cases hmatch
      · rename_i r hr
        exact ⟨r, hr⟩
  obtain ⟨r, hr⟩ := hsome
  obtain ⟨rest, hrest, hsplit, -⟩ := (relativeTo_pathText hne).mp hr
  have hpos := List.length_pos_iff.mpr hrest
  rw [hsplit, List.length_append, List.take_left]
  exact ⟨by omega, rfl⟩

/-! ## Agreement -/

section Agree

variable {root : Entries} {docs : FilePath → List IgnoreLine}

def docRules (docs : FilePath → List IgnoreLine) (dir : FilePath) : List IgnorePattern :=
  (docs dir).filterMap IgnoreLine.pattern?

theorem codeRules_documented (hdocs : Documented root docs) {dir : FilePath}
    (hdepth : dir.length ≤ 32) (hskip : ∀ n ∈ dir, skippedDirs.contains n.text = false) :
    (codeRules (collectGitignoreFiles [] 0 root)).filter (fun x => x.1 = dir) =
      (docRules docs dir).map fun p => (dir, p.rule (pathText dir)) := by
  have hcollect := collect_at hdepth hskip root []
  rw [List.length_nil] at hcollect
  rw [codeRules_at, hcollect, hdocs dir, List.filterMap_map, docRules, List.map_filterMap]
  rw [List.map_filterMap]
  refine List.filterMap_congr fun line _ => ?_
  rw [Function.comp_apply, parseLine_text, Option.map_map]
  rfl

/-- The rules of the directory at depth `k` that match a path are those that name or reach it. -/
theorem matching_at (hdocs : Documented root docs) {path : FilePath} (hne : path ≠ [])
    (isDir : Bool) {k : Nat} (hk : k < path.length) (hdepth : k ≤ 32)
    (hskip : ∀ n ∈ path.take k, skippedDirs.contains n.text = false) :
    ((codeRules (collectGitignoreFiles [] 0 root)).filter fun x => x.1.length = k).filter
        (fun x => x.2.matches (pathText path) isDir) =
      (((docRules docs (path.take k)).map (k, ·)).filter
        fun r => ruleNames path isDir r || ruleReaches path isDir r).map
          fun r => (path.take r.1, r.2.rule (pathText (path.take r.1))) := by
  have hlen : (path.take k).length = k := List.length_take_of_le (Nat.le_of_lt hk)
  have hsame : ((codeRules (collectGitignoreFiles [] 0 root)).filter fun x =>
        x.1.length = k).filter (fun x => x.2.matches (pathText path) isDir) =
      ((codeRules (collectGitignoreFiles [] 0 root)).filter fun x => x.1 = path.take k).filter
        fun x => x.2.matches (pathText path) isDir := by
    rw [List.filter_filter, List.filter_filter]
    refine List.filter_congr fun x hx => ?_
    cases hmatch : x.2.matches (pathText path) isDir with
    | false => rfl
    | true =>
      obtain ⟨-, htake⟩ := matches_below hx hne hmatch
      rw [Bool.true_and, Bool.true_and, decide_eq_decide]
      refine ⟨fun h => ?_, fun h => by rw [h, hlen]⟩
      rw [htake, h]
  rw [hsame, codeRules_documented hdocs (by omega) hskip, List.filter_map, List.filter_map,
    List.map_map]
  refine congrArg (List.map _) (List.filter_congr fun p _ => ?_)
  rw [Function.comp_apply, Function.comp_apply, Bool.eq_iff_iff, matches_rule p hne]
  constructor
  · rintro ⟨rest, -, hsplit, hmatch⟩
    have hdrop : path.drop k = rest := by
      conv_lhs => rw [hsplit]
      exact List.drop_left' hlen
    rw [ruleNames, ruleReaches, below, hdrop]
    exact hmatch
  · intro hmatch
    refine ⟨path.drop k, ?_, (List.take_append_drop k path).symm, hmatch⟩
    rw [Ne, List.drop_eq_nil_iff]
    omega

theorem flatMap_range_of_le {α : Type} {f : Nat → List α} {m n : Nat} (h : m ≤ n)
    (hnil : ∀ k, m ≤ k → k < n → f k = []) :
    (List.range m).flatMap f = (List.range n).flatMap f := by
  obtain ⟨d, rfl⟩ := Nat.exists_eq_add_of_le h
  rw [List.range_add, List.flatMap_append, List.flatMap_map]
  have : (List.range d).flatMap (fun i => f (m + i)) = [] := by
    rw [List.flatMap_eq_nil_iff]
    exact fun i hi => hnil (m + i) (Nat.le_add_right m i)
      (Nat.add_lt_add_left (List.mem_range.mp hi) m)
  rw [this, List.append_nil]

theorem collect_depth {entries : Entries} : ∀ {path : FilePath}, path.length ≤ 32 →
    ∀ x ∈ collectGitignoreFiles path path.length entries, x.1.length ≤ 32 := by
  induction entries with
  | nil => exact fun _ x hx => (by cases hx)
  | file name content rest ih =>
    intro path hpath x hx
    rcases List.mem_append.mp hx with hx | hx
    · split at hx
      · rw [List.mem_singleton.mp hx]
        exact hpath
      · cases hx
    · exact ih hpath x hx
  | dir name children rest ihc ih =>
    intro path hpath x hx
    rcases List.mem_append.mp hx with hx | hx
    · split at hx
      · cases hx
      · split at hx
        · cases hx
        · rename_i hdepth
          refine @ihc (path ++ [name]) ?_ x ?_
          · rw [List.length_append, List.length_singleton]
            omega
          · rw [List.length_append, List.length_singleton]
            exact hx
    · exact ih hpath x hx

/-- The rules that match in the order of the code: those of git that name the path or reach it, of
the first 33 depths. -/
theorem sorted_matching (hdocs : Documented root docs) {path : FilePath} (hne : path ≠ [])
    (isDir : Bool) (hskip : ∀ n ∈ path.dropLast, skippedDirs.contains n.text = false) :
    ((codeRules (collectGitignoreFiles [] 0 root)).insertionSort
        fun a b => a.1.length ≤ b.1.length).filter
          (fun x => x.2.matches (pathText path) isDir) =
      ((gitRules docs path).filter fun r => decide (r.1 ≤ 32) &&
        (ruleNames path isDir r || ruleReaches path isDir r)).map
          fun r => (path.take r.1, r.2.rule (pathText (path.take r.1))) := by
  have hlen : ∀ x ∈ codeRules (collectGitignoreFiles [] 0 root), x.1.length < 33 := by
    intro x hx
    obtain ⟨y, hy, hx⟩ := List.mem_flatMap.mp hx
    obtain ⟨rule, -, rfl⟩ := List.mem_map.mp hx
    exact Nat.lt_succ_of_le (@collect_depth root [] (Nat.zero_le 32) y hy)
  have hat {k : Nat} (hk : k < path.length) (hdepth : k < 33) :
      ((codeRules (collectGitignoreFiles [] 0 root)).filter fun x => x.1.length = k).filter
          (fun x => x.2.matches (pathText path) isDir) =
        (((docRules docs (path.take k)).map (k, ·)).filter fun r => decide (r.1 ≤ 32) &&
          (ruleNames path isDir r || ruleReaches path isDir r)).map
            fun r => (path.take r.1, r.2.rule (pathText (path.take r.1))) := by
    rw [matching_at hdocs hne isDir hk (Nat.le_of_lt_succ hdepth) fun n hn => hskip n ?_]
    · refine congrArg (List.map _) (List.filter_congr fun r hr => ?_)
      obtain ⟨p, -, rfl⟩ := List.mem_map.mp hr
      rw [decide_eq_true (Nat.le_of_lt_succ hdepth), Bool.true_and]
    · rw [List.dropLast_eq_take]
      exact (List.take_sublist_take_left (by omega)).subset hn
  rw [insertionSort_by_key (fun x : FilePath × IgnoreRule => x.1.length) hlen, gitRules,
    List.filter_flatMap, List.filter_flatMap, List.map_flatMap]
  rcases Nat.le_total path.length 33 with hshort | hlong
  · rw [← flatMap_range_of_le hshort]
    · exact List.flatMap_congr fun k hk =>
        hat (List.mem_range.mp hk) (Nat.lt_of_lt_of_le (List.mem_range.mp hk) hshort)
    · -- no rule of a directory at this depth is above the path
      intro k hk _
      refine List.filter_eq_nil_iff.mpr fun x hx hmatch => ?_
      obtain ⟨hx, hkey⟩ := List.mem_filter.mp hx
      have := (matches_below hx hne hmatch).1
      rw [decide_eq_true_eq] at hkey
      omega
  · rw [← flatMap_range_of_le hlong]
    · exact List.flatMap_congr fun k hk =>
        hat (Nat.lt_of_lt_of_le (List.mem_range.mp hk) hlong) (List.mem_range.mp hk)
    · intro k hk _
      rw [List.map_eq_nil_iff, List.filter_eq_nil_iff]
      intro r hr
      obtain ⟨p, -, rfl⟩ := List.mem_map.mp hr
      rw [decide_eq_false (by omega), Bool.false_and]
      exact Bool.false_ne_true

/-- The code decides by the last rule it loaded that names the path or reaches it. -/
theorem gitignoreDecides_rules (hdocs : Documented root docs) {path : FilePath} (hne : path ≠ [])
    (isDir : Bool) (hskip : ∀ n ∈ path.dropLast, skippedDirs.contains n.text = false) :
    gitignoreDecides (loadGitignores root) (pathText path) isDir =
      verdict (lastRead docs path isDir) := by
  rw [gitignoreDecides, loadGitignores_eq, foldl_eq_lastMatch
    (fun rule : IgnoreRule => rule.matches (pathText path) isDir) fun rule => !rule.negated,
    lastMatch_map, lastMatch, sorted_matching hdocs hne isDir hskip, List.getLast?_map,
    Option.map_map, Option.map_map, verdict, lastRead, lastMatch]
  rfl

end Agree

/-! ## Discovery -/

/-- No path on the way to a file is hidden or ignored by default. -/
def Plain (path : FilePath) : Prop :=
  ∀ k, OnWay path k → hasDotComponent (pathText (path.take k)) = false ∧
    isDefaultIgnored (pathText (path.take k)) (k < path.length) = false

/-- No rule strays on the way to a file that git keeps; and of one that git ignores some path is
excluded for the code as well. -/
def RulesAgree (docs : FilePath → List IgnoreLine) (path : FilePath) : Prop :=
  (¬ gitIgnores docs path → ∀ k, OnWay path k →
    ¬ StrayExclusion docs (path.take k) (k < path.length)) ∧
  (gitIgnores docs path → ∃ k, OnWay path k ∧
    ((gitExcludes docs (path.take k) (k < path.length) = true ∧
      ¬ StrayInclusion docs (path.take k) (k < path.length)) ∨
    StrayExclusion docs (path.take k) (k < path.length)))

theorem hasComponent_pathText {path : FilePath} (hne : path ≠ []) {name : FileName}
    (h : name ∈ path) : hasComponent (pathText path) name.text = true := by
  rw [hasComponent, pathText, split_joinPath (components_names path) (by simpa using hne),
    List.any_eq_true]
  exact ⟨name.text, List.mem_map_of_mem h, beq_self_eq_true _⟩

/-- Directories that no `.gitignore` is read from are ignored by default. -/
theorem Plain.not_skipped {path : FilePath} (h : Plain path) :
    ∀ n ∈ path.dropLast, skippedDirs.contains n.text = false := by
  intro n hn
  rw [List.dropLast_eq_take] at hn
  have hlen : 0 < path.length - 1 := by
    by_contra hzero
    rw [Nat.eq_zero_of_not_pos hzero] at hn
    cases hn
  have hne : path.take (path.length - 1) ≠ [] := List.ne_nil_of_mem hn
  obtain ⟨-, hdefault⟩ := h (path.length - 1) ⟨hlen, Nat.sub_le _ _⟩
  rw [decide_eq_true (by omega), isDefaultIgnored, if_pos rfl, Bool.or_eq_false_iff] at hdefault
  by_contra hskipped
  rw [Bool.not_eq_false] at hskipped
  have hmem : n.text ∈ defaultIgnoredDirs := by
    rw [List.contains_iff_mem] at hskipped
    revert hskipped
    generalize n.text = t
    simp only [skippedDirs, List.mem_cons, List.not_mem_nil, or_false]
    rintro (rfl | rfl | rfl | rfl) <;> decide
  have hno := List.any_eq_false.mp hdefault.1 n.text hmem
  exact hno (hasComponent_pathText hne hn)

theorem keepEntry_plain (root : Entries) {rel : List Char} {isDir : Bool}
    (hdot : hasDotComponent rel = false) (hdefault : isDefaultIgnored rel isDir = false) :
    keepEntry (loadGitignores root) [] [] rel isDir =
      !gitignoreDecides (loadGitignores root) rel isDir := by
  simp [keepEntry, matchesAny, hdot, hdefault]

/-- On the way to a plain path the code drops what git excludes, but for rules that stray. -/
theorem keepEntry_onWay {root : Entries} {docs : FilePath → List IgnoreLine}
    (hdocs : Documented root docs) {path : FilePath} (hplain : Plain path) (hne : path ≠ [])
    {k : Nat} (hk : OnWay path k) :
    keepEntry (loadGitignores root) [] [] (pathText (path.take k)) (k < path.length) = true ↔
      ¬ ((gitExcludes docs (path.take k) (k < path.length) = true ∧
        ¬ StrayInclusion docs (path.take k) (k < path.length)) ∨
        StrayExclusion docs (path.take k) (k < path.length)) := by
  obtain ⟨hdot, hdefault⟩ := hplain k hk
  have hnil : path.take k ≠ [] := by
    rw [Ne, List.take_eq_nil_iff]
    exact fun h => h.elim (by have := hk.1; omega) hne
  have hskip : ∀ n ∈ (path.take k).dropLast, skippedDirs.contains n.text = false := by
    intro n hn
    refine hplain.not_skipped n ?_
    rw [List.dropLast_eq_take, List.take_take] at hn
    rw [List.dropLast_eq_take]
    refine (List.take_sublist_take_left ?_).subset hn
    rw [List.length_take]
    omega
  rw [keepEntry_plain root hdot hdefault, gitignoreDecides_rules hdocs hnil _ hskip,
    ← verdict_lastRead, Bool.not_eq_true', Bool.not_eq_true]

/-- A path is returned when all on its way is kept. -/
theorem discovered_onWay {root : Entries} {fuel : Nat} (hfuel : root.dirs < fuel) {path : FilePath}
    (hpath : path ∈ files [] root) (hne : path ≠ []) :
    (∃ out, discoverFiles fuel root [] [] = some out ∧ path ∈ out) ↔
      ∀ k, OnWay path k → keepEntry (loadGitignores root) [] [] (pathText (path.take k))
        (k < path.length) = true := by
  obtain ⟨out, hout, hkept⟩ := discover_kept hfuel [] []
  rw [hout]
  simp only [Option.some.injEq, exists_eq_left']
  rw [hkept path hpath]
  constructor
  · rintro ⟨hdirs, hself⟩ k ⟨hk, hle⟩
    rcases Nat.lt_or_eq_of_le hle with hlt | rfl
    · rw [decide_eq_true hlt]
      exact hdirs k hk hlt
    · rw [decide_eq_false (Nat.lt_irrefl _), List.take_length]
      exact hself
  · intro h
    refine ⟨fun k hk hlt => ?_, ?_⟩
    · have := h k ⟨hk, Nat.le_of_lt hlt⟩
      rwa [decide_eq_true hlt] at this
    · have := h path.length ⟨List.length_pos_iff.mpr hne, Nat.le_refl _⟩
      rwa [decide_eq_false (Nat.lt_irrefl _), List.take_length] at this

/-- A file is returned exactly when git keeps it, if and only if the rules agree on its way. -/
theorem discover_git (root : Entries) (docs : FilePath → List IgnoreLine)
    (hdocs : Documented root docs) (fuel : Nat) (hfuel : root.dirs < fuel) (path : FilePath)
    (hpath : path ∈ files [] root) (hplain : Plain path) :
    ((∃ out, discoverFiles fuel root [] [] = some out ∧ path ∈ out) ↔ ¬ gitIgnores docs path) ↔
      RulesAgree docs path := by
  have hne : path ≠ [] := by
    obtain ⟨rest, hrest, rfl⟩ := files_below hpath
    exact hrest
  have hdropped : ¬ (∃ out, discoverFiles fuel root [] [] = some out ∧ path ∈ out) ↔
      ∃ k, OnWay path k ∧ ((gitExcludes docs (path.take k) (k < path.length) = true ∧
        ¬ StrayInclusion docs (path.take k) (k < path.length)) ∨
        StrayExclusion docs (path.take k) (k < path.length)) := by
    rw [discovered_onWay hfuel hpath hne, not_forall]
    exact exists_congr fun k => by
      rw [Classical.not_imp]
      exact and_congr_right fun hk => by rw [keepEntry_onWay hdocs hplain hne hk, not_not]
  by_cases hgit : gitIgnores docs path
  · refine ⟨fun h => ⟨fun hno => absurd hgit hno, fun _ => hdropped.mp fun hr => h.mp hr hgit⟩,
      fun h => ⟨fun hr => absurd hr (hdropped.mpr (h.2 hgit)), fun hno => absurd hgit hno⟩⟩
  · have hexcluded {k : Nat} (hk : OnWay path k) :
        ¬ gitExcludes docs (path.take k) (k < path.length) = true :=
      fun h => hgit ⟨k, hk, h⟩
    refine ⟨fun h => ⟨fun _ k hk hstray => hdropped.mpr ⟨k, hk, .inr hstray⟩ (h.mpr hgit),
      fun hyes => absurd hyes hgit⟩, fun h => ⟨fun _ => hgit, fun _ => ?_⟩⟩
    by_contra hdrop
    obtain ⟨k, hk, hcode⟩ := hdropped.mp hdrop
    rcases hcode with hcode | hstray
    · exact hexcluded hk hcode.1
    · exact h.1 hgit k hk hstray

/-! A tree in which rules stray: `a/b` is kept with a slash at the end, and what it holds is not
returned; `keep` is named by a negated rule, and what git ignores in it is returned. -/

def dirA : FileName := ⟨"a".toList, by decide, by decide, by decide, by decide⟩
def dirB : FileName := ⟨"b".toList, by decide, by decide, by decide, by decide⟩
def dirKeep : FileName := ⟨"keep".toList, by decide, by decide, by decide, by decide⟩
def fileC : FileName := ⟨"c".toList, by decide, by decide, by decide, by decide⟩
def fileLog : FileName := ⟨"x.log".toList, by decide, by decide, by decide, by decide⟩
def fileIgnore : FileName := ⟨".gitignore".toList, by decide, by decide, by decide, by decide⟩

def strayTree : Entries :=
  .file fileIgnore "a/*\n!/a/b/\n*.log\n!/keep\n".toList (.dir dirA (.dir dirB (.file fileC [] .nil)
    .nil) (.dir dirKeep (.file fileLog [] .nil) .nil))

def strayLines : List IgnoreLine :=
  [.pattern ⟨false, false, false, ["a".toList, "*".toList], by decide, by decide, by decide,
      by decide, by decide⟩,
    .pattern ⟨true, true, true, ["a".toList, "b".toList], by decide, by decide, by decide,
      by decide, by decide⟩,
    .pattern ⟨false, false, false, ["*.log".toList], by decide, by decide, by decide,
      by decide, by decide⟩,
    .pattern ⟨true, true, false, ["keep".toList], by decide, by decide, by decide,
      by decide, by decide⟩]

def strayDocs (dir : FilePath) : List IgnoreLine := if dir = [] then strayLines else []

theorem strayTree_documented : Documented strayTree strayDocs := by
  intro dir
  have hfound : gitignores [] strayTree =
      [([], "a/*\n!/a/b/\n*.log\n!/keep\n".toList)] := by rfl
  have hlines : lines "a/*\n!/a/b/\n*.log\n!/keep\n".toList =
      strayLines.map IgnoreLine.text := by decide
  rw [hfound, strayDocs]
  by_cases hdir : dir = []
  · rw [if_pos hdir, List.filter_cons_of_pos (by simpa using hdir.symm), List.filter_nil,
      List.flatMap_singleton, hlines]
  · rw [if_neg hdir, List.filter_cons_of_neg (by simpa using Ne.symm hdir)]
    rfl

theorem discover_git_not :
    (discoverFiles 4 strayTree [] []).map (·.map pathText) = some ["keep/x.log".toList] ∧
    ¬ ∀ (root : Entries) (docs : FilePath → List IgnoreLine), Documented root docs →
      ∀ (fuel : Nat), root.dirs < fuel → ∀ path ∈ files [] root, Plain path →
        ((∃ out, discoverFiles fuel root [] [] = some out ∧ path ∈ out) ↔
          ¬ gitIgnores docs path) := by
  have hrun : discoverFiles 4 strayTree [] [] = some [[dirKeep, fileLog]] := by decide
  refine ⟨by rw [hrun]; decide, fun h => ?_⟩
  have hplain : Plain [dirKeep, fileLog] := by
    rintro k ⟨hk, hle⟩
    obtain rfl | rfl : k = 1 ∨ k = 2 := by
      change k ≤ 2 at hle
      omega
    · decide
    · decide
  refine (h strayTree strayDocs strayTree_documented 4 (by decide) [dirKeep, fileLog] (by decide)
    hplain).mp ⟨_, hrun, List.mem_singleton_self _⟩ ⟨2, ⟨Nat.succ_pos 1, Nat.le_refl 2⟩, ?_⟩
  decide

theorem discover_git_kept :
    ((∃ out, discoverFiles 4 strayTree [] [] = some out ∧ [dirA, dirB, fileC] ∈ out) ↔
      ¬ gitIgnores strayDocs [dirA, dirB, fileC]) ↔ RulesAgree strayDocs [dirA, dirB, fileC] := by
  refine discover_git strayTree strayDocs strayTree_documented 4 (by decide) _ (by decide) ?_
  rintro k ⟨hk, hle⟩
  obtain rfl | rfl | rfl : k = 1 ∨ k = 2 ∨ k = 3 := by
    change k ≤ 3 at hle
    omega
  all_goals decide

end Arags.Ignore
