import Arags.Ignore.GitSemantics

/-!
# Arags.Ignore.Force

What `force_include` wins over. The walk reaches a forced file only through directories that it
keeps.

* `Excluded`       — hidden, or ignored by name, by the user or by a `.gitignore`.
* `ForceWins`      — a forced file is returned, another one when nothing on its way is excluded.
* `discover_force` — it holds of a file exactly when no directory above it stands in the way.
-/

namespace Arags.Ignore

open Text Paths

/-- `ext` is what stands after the last dot of the name. -/
def HasExtension (name ext : List Char) : Prop := '.' ∉ ext ∧ ∃ stem, name = stem ++ '.' :: ext

/-- The extension of the file is one of those that are ignored by default. -/
def ExtensionIgnored (path : FilePath) : Prop :=
  ∃ name ∈ path.getLast?, ∃ ext ∈ defaultIgnoredExts, HasExtension (toAsciiLowercase name.text) ext

/-- The path ends with the letters of such an extension. -/
def EndsIgnored (path : FilePath) : Prop := isDefaultIgnored (pathText path) false = true

section Exclusion

variable (root : Entries) (ignore forceInclude : List (List Char))

def Forced (path : FilePath) : Prop := matchesAny (pathText path) forceInclude = true

/-- Hidden, or ignored for another reason than the extension. -/
def Excluded (path : FilePath) (isDir : Bool) : Prop :=
  hasDotComponent (pathText path) = true ∨ matchesAny (pathText path) ignore = true ∨
    gitignoreDecides (loadGitignores root) (pathText path) isDir = true ∨
    isDir = true ∧ isDefaultIgnored (pathText path) true = true

/-- A directory strictly above the file. -/
def Above (path : FilePath) (k : Nat) : Prop := 0 < k ∧ k < path.length

/-- The file and every directory above it are neither hidden nor ignored. -/
def Visible (path : FilePath) : Prop :=
  (∀ k, Above path k → ¬ Excluded root ignore (path.take k) true) ∧
    ¬ Excluded root ignore path false ∧ ¬ ExtensionIgnored path

def Returned (fuel : Nat) (path : FilePath) : Prop :=
  ∃ out, discoverFiles fuel root ignore forceInclude = some out ∧ path ∈ out

def ForceWins (fuel : Nat) (path : FilePath) : Prop :=
  (Forced forceInclude path → Returned root ignore forceInclude fuel path) ∧
  (¬ Forced forceInclude path →
    (Returned root ignore forceInclude fuel path ↔ Visible root ignore path))

/-- Every excluded directory above a forced file is forced as well. Of the other files, one with
nothing excluded on its way ends like an ignored extension only where that is its extension; and
one below an excluded directory is excluded itself or lies below one that is not forced. -/
def ForceReaches (path : FilePath) : Prop :=
  (Forced forceInclude path → ∀ k, Above path k → Excluded root ignore (path.take k) true →
    Forced forceInclude (path.take k)) ∧
  (¬ Forced forceInclude path →
    ((∀ k, Above path k → ¬ Excluded root ignore (path.take k) true) →
      ¬ Excluded root ignore path false → EndsIgnored path → ExtensionIgnored path) ∧
    ((∃ k, Above path k ∧ Excluded root ignore (path.take k) true) →
      Excluded root ignore path false ∨ EndsIgnored path ∨
        ∃ k, Above path k ∧ Excluded root ignore (path.take k) true ∧
          ¬ Forced forceInclude (path.take k)))

end Exclusion

section Reach

variable {root : Entries} {ignore forceInclude : List (List Char)} {path : FilePath}

theorem keepEntry_dir : keepEntry (loadGitignores root) ignore forceInclude (pathText path) true =
    true ↔ Forced forceInclude path ∨ ¬ Excluded root ignore path true := by
  rw [keepEntry, Forced, Excluded]
  cases matchesAny (pathText path) forceInclude <;> cases hasDotComponent (pathText path) <;>
    simp [not_or, and_assoc, and_comm, and_left_comm]

theorem keepEntry_file :
    keepEntry (loadGitignores root) ignore forceInclude (pathText path) false = true ↔
      Forced forceInclude path ∨ (¬ Excluded root ignore path false ∧ ¬ EndsIgnored path) := by
  rw [keepEntry, Forced, Excluded, EndsIgnored]
  cases matchesAny (pathText path) forceInclude <;> cases hasDotComponent (pathText path) <;>
    simp [not_or, and_comm, and_left_comm]

theorem joinPath_concat (ns : List (List Char)) (n : List Char) :
    n <:+ joinPath (ns ++ [n]) := by
  cases ns with
  | nil => simp [joinPath, slashed]
  | cons m ns =>
    refine ⟨m ++ slashed ns ++ ['/'], ?_⟩
    simp [joinPath, slashed]

/-- An ignored extension is among the endings that are tried. -/
theorem EndsIgnored.of_extension (h : ExtensionIgnored path) : EndsIgnored path := by
  obtain ⟨name, hlast, ext, hext, -, stem, hstem⟩ := h
  rw [EndsIgnored, isDefaultIgnored, if_neg Bool.false_ne_true, List.any_eq_true]
  refine ⟨ext, hext, ?_⟩
  rw [List.isSuffixOf_iff_suffix]
  have hends : name.text <:+ pathText path := by
    obtain ⟨dir, rfl⟩ := List.getLast?_eq_some_iff.mp hlast
    rw [pathText, List.map_append]
    exact joinPath_concat _ _
  have hlower : toAsciiLowercase name.text <:+ toAsciiLowercase (pathText path) := hends.map _
  have hext : ext <:+ toAsciiLowercase name.text := ⟨stem ++ ['.'], by rw [hstem]; simp⟩
  exact hext.trans hlower

/-- A file is returned when every directory above it is forced or not excluded, and the file is
forced or not ignored. -/
theorem returned_iff {fuel : Nat} (hfuel : root.dirs < fuel) (hpath : path ∈ files [] root) :
    Returned root ignore forceInclude fuel path ↔
      (∀ k, Above path k → Forced forceInclude (path.take k) ∨
        ¬ Excluded root ignore (path.take k) true) ∧
      (Forced forceInclude path ∨ (¬ Excluded root ignore path false ∧ ¬ EndsIgnored path)) := by
  obtain ⟨out, hout, hkept⟩ := discover_kept hfuel ignore forceInclude
  rw [Returned, hout]
  simp only [Option.some.injEq, exists_eq_left']
  rw [hkept path hpath, keepEntry_file]
  refine and_congr_left fun _ => forall_congr' fun k => ?_
  rw [keepEntry_dir, Above, and_imp]

end Reach

/-- Forced files are returned and the others exactly when nothing on their way is excluded, if
and only if forcing reaches them. -/
theorem discover_force (root : Entries) (ignore forceInclude : List (List Char)) (fuel : Nat)
    (hfuel : root.dirs < fuel) (path : FilePath) (hpath : path ∈ files [] root) :
    ForceWins root ignore forceInclude fuel path ↔ ForceReaches root ignore forceInclude path := by
  rw [ForceWins, ForceReaches, returned_iff hfuel hpath]
  refine and_congr ?_ ?_
  · -- A forced file is lost only above it.
    refine imp_congr_right fun hforced => ⟨fun h k hk hex => ?_,
      fun h => ⟨fun k hk => ?_, .inl hforced⟩⟩
    · exact (h.1 k hk).resolve_right (not_not.mpr hex)
    · by_cases hex : Excluded root ignore (path.take k) true
      · exact .inl (h k hk hex)
      · exact .inr hex
  · refine imp_congr_right fun hforced => ⟨fun h => ⟨fun hdirs hself hends => ?_, ?_⟩, ?_⟩
    · by_contra hext
      have := (h.mpr ⟨hdirs, hself, hext⟩).2.resolve_left hforced
      exact this.2 hends
    · rintro ⟨k, hk, hex⟩
      by_contra hkept
      rw [not_or, not_or] at hkept
      obtain ⟨hself, hends, hall⟩ := hkept
      refine (h.mp ⟨fun j hj => ?_, .inr ⟨hself, hends⟩⟩).1 k hk hex
      by_contra hj'
      rw [not_or, not_not] at hj'
      exact hall ⟨j, hj, hj'.2, hj'.1⟩
    · rintro ⟨hclean, habove⟩
      constructor
      · rintro ⟨hdirs, hself⟩
        obtain ⟨hself, hends⟩ := hself.resolve_left hforced
        refine ⟨fun k hk hex => ?_, hself, fun hext => hends (.of_extension hext)⟩
        rcases habove ⟨k, hk, hex⟩ with hbad | hbad | ⟨j, hj, hexj, hnot⟩
        · exact hself hbad
        · exact hends hbad
        · exact (hdirs j hj).elim hnot fun hno => hno hexj
      · rintro ⟨hdirs, hself, hext⟩
        exact ⟨fun k hk => .inr (hdirs k hk), .inr ⟨hself, fun hends =>
          hext (hclean hdirs hself hends)⟩⟩

/-! A library below `vendor` that is forced, and a file whose name ends like a lock file's. -/

def dirVendor : FileName := ⟨"vendor".toList, by decide, by decide, by decide, by decide⟩
def fileLib : FileName := ⟨"lib.rs".toList, by decide, by decide, by decide, by decide⟩
def fileBlock : FileName := ⟨"block".toList, by decide, by decide, by decide, by decide⟩

def vendorTree : Entries := .file fileBlock [] (.dir dirVendor (.file fileLib [] .nil) .nil)

theorem discover_force_not :
    discoverFiles 2 vendorTree [] ["vendor/lib.rs".toList] = some [] ∧
    ¬ ∀ (root : Entries) (ignore forceInclude : List (List Char)) (fuel : Nat),
      root.dirs < fuel → ∀ path ∈ files [] root, ForceWins root ignore forceInclude fuel path := by
  have hrun : discoverFiles 2 vendorTree [] ["vendor/lib.rs".toList] = some [] := by decide
  refine ⟨hrun, fun h => ?_⟩
  have hforced : Forced ["vendor/lib.rs".toList] [dirVendor, fileLib] := by
    rw [Forced]
    decide
  obtain ⟨out, hout, hmem⟩ := (h vendorTree [] ["vendor/lib.rs".toList] 2 (by decide)
    [dirVendor, fileLib] (by decide)).1 hforced
  rw [hrun] at hout
  rw [← Option.some.inj hout] at hmem
  cases hmem

theorem discover_force_named :
    ForceWins vendorTree [] ["vendor".toList] 2 [dirVendor, fileLib] ↔
      ForceReaches vendorTree [] ["vendor".toList] [dirVendor, fileLib] :=
  discover_force vendorTree [] ["vendor".toList] 2 (by decide) _ (by decide)

end Arags.Ignore
