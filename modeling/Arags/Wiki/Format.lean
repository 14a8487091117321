import Arags.Lib.Slices
import Mathlib.Data.Rat.Defs

/-!
# Arags.Wiki.Format

The pages of the wiki, `persist/format.rs`: YAML frontmatter between two delimiters, and a body.

* `YamlLibrary`  — `serde_yaml_ng`; `Inverse` is what is relied on for one frontmatter.
* `renderMarkdown`, `parseMarkdown` — the code.
* `split_rendered` — the delimiter that is found is the one that was written.
* `parse_render` — a page is read back.
-/

namespace Arags.Wiki

open Text

structure Frontmatter where
  title : List Char
  created : List Char
  updated : List Char
  query : Option (List Char)
  tier : Option (List Char)
  project : Option (List Char)
  entities : List (List Char)
  tags : List (List Char)
  pinned : Bool
  expiresAt : Option (List Char)
  salience : Rat
  accessCount : Nat
  supersedes : Option (List Char)
  deriving DecidableEq

structure YamlLibrary where
  toString : Frontmatter → Option (List Char)
  fromStr : List Char → Option Frontmatter

/-- The output ends in a newline, after at least one other character; it is read back, also
without the newline; and none of its lines is a delimiter. -/
structure YamlLibrary.Inverse (yaml : YamlLibrary) (f : Frontmatter) (text : List Char) :
    Prop where
  written : yaml.toString f = some (text ++ ['\n'])
  ne_nil : text ≠ []
  read : yaml.fromStr (text ++ ['\n']) = some f
  read_trimmed : yaml.fromStr text = some f
  no_delimiter : "---".toList ∉ split ['\n'] (text ++ ['\n'])

/-! ## The code -/

def renderMarkdown (yaml : YamlLibrary) (frontmatter : Frontmatter) (body : List Char) :
    List Char :=
  "---\n".toList ++ (yaml.toString frontmatter).getD [] ++ "---\n\n".toList ++ body

def stripPrefix (pre s : List Char) : Option (List Char) :=
  if pre.isPrefixOf s then some (s.drop pre.length) else none

/-- The frontmatter and what follows its closing delimiter. -/
def splitFrontmatter (rest : List Char) : Option (List Char × List Char) :=
  (Text.splitOnce "\n---\n".toList rest).or
    ((Text.splitOnce "\n---\r\n".toList rest).or
      (((rsplitOnce "\n---".toList rest).filter fun x => x.2.all isWhiteSpace).map
        fun x => (x.1, [])))

def parseMarkdown (yaml : YamlLibrary) (content : List Char) :
    Except String (Frontmatter × List Char) :=
  let content := (stripPrefix ['\uFEFF'] content).getD content
  match (stripPrefix "---\n".toList content).or (stripPrefix "---\r\n".toList content) with
  | none => .error "missing opening frontmatter delimiter"
  | some rest =>
    match splitFrontmatter rest with
    | none => .error "missing closing frontmatter delimiter"
    | some (yamlPart, body) =>
      match yaml.fromStr yamlPart with
      | none => .error "failed to parse frontmatter YAML"
      | some frontmatter => .ok (frontmatter, (stripPrefix ['\n'] body).getD body)

/-! ## Reading a page back -/

section Parse

variable {yaml : YamlLibrary} {f : Frontmatter} {text : List Char}

/-- No line of the frontmatter is a delimiter, and a match cannot reach past its end. -/
theorem no_earlier_delimiter (h : "---".toList ∉ split ['\n'] (text ++ ['\n'])) (b : List Char) :
    ∀ i < text.length, ¬ "\n---\n".toList <+: (text ++ ("\n---\n".toList ++ b)).drop i := by
  intro i hi hpre
  have hdash : "\n---\n".toList = ['\n', '-', '-', '-', '\n'] := by decide
  have hline : "---".toList = ['-', '-', '-'] := by decide
  rw [hline] at h
  rw [hdash] at hpre
  have hcut := List.take_append_drop i text
  rw [List.drop_append_of_le_length (Nat.le_of_lt hi)] at hpre
  have hpos : 0 < (text.drop i).length := by
    rw [List.length_drop]
    omega
  have hinside {q : List Char}
      (hq : text.drop i ++ ['\n'] = '\n' :: ('-' :: '-' :: '-' :: '\n' :: q)) : False := by
    refine h ?_
    rw [← hcut, List.append_assoc, hq]
    exact @mem_split_between ['-', '-', '-'] (by decide) _ q
  match hd : text.drop i with
  | [] => simp [hd] at hpos
  | [a] => simp [hd] at hpre
  | [a, b] => simp [hd] at hpre
  | [a, b, c] => simp [hd] at hpre
  | [a, b, c, d] =>
    rw [hd] at hpre hinside
    simp at hpre
    obtain ⟨rfl, rfl, rfl, rfl⟩ := hpre
    exact hinside (q := []) rfl
  | a :: b :: c :: d :: e :: l =>
    rw [hd] at hpre hinside
    simp at hpre
    obtain ⟨rfl, rfl, rfl, rfl, rfl⟩ := hpre
    exact hinside (q := l ++ ['\n']) rfl

/-- The delimiter that is found is the one that was written. -/
theorem split_rendered (h : yaml.Inverse f text) (body : List Char) :
    splitFrontmatter (text ++ ("\n---\n".toList ++ ('\n' :: body))) =
      some (text, '\n' :: body) := by
  rw [splitFrontmatter, splitOnce_append (by decide) _ (no_earlier_delimiter h.no_delimiter _)]
  rfl

theorem renderMarkdown_eq (h : yaml.Inverse f text) (body : List Char) :
    renderMarkdown yaml f body =
      "---\n".toList ++ (text ++ ("\n---\n".toList ++ ('\n' :: body))) := by
  rw [renderMarkdown, h.written, Option.getD_some]
  simp

theorem stripPrefix_append (pre s : List Char) : stripPrefix pre (pre ++ s) = some s := by
  rw [stripPrefix, if_pos (List.isPrefixOf_iff_prefix.mpr (List.prefix_append pre s)),
    List.drop_left]

theorem parseMarkdown_page (h : yaml.Inverse f text) (body : List Char) :
    parseMarkdown yaml ("---\n".toList ++ (text ++ ("\n---\n".toList ++ ('\n' :: body)))) =
      .ok (f, body) := by
  have hbom (s : List Char) : stripPrefix ['\uFEFF'] ("---\n".toList ++ s) = none := by
    rw [stripPrefix, if_neg (by simp)]
  rw [parseMarkdown, hbom, Option.getD_none, stripPrefix_append, Option.some_or]
  dsimp only
  rw [split_rendered h]
  dsimp only
  rw [h.read_trimmed]
  dsimp only
  rw [show '\n' :: body = ['\n'] ++ body from rfl, stripPrefix_append]
  rfl

/-- Every page is read back as it was written. -/
theorem parse_render (yaml : YamlLibrary) (f : Frontmatter) (text : List Char)
    (h : yaml.Inverse f text) (body : List Char) :
    parseMarkdown yaml (renderMarkdown yaml f body) = .ok (f, body) := by
  rw [renderMarkdown_eq h, parseMarkdown_page h]

end Parse

/-! A page whose body has a delimiter in it. -/

def samplePage : Frontmatter :=
  ⟨"t".toList, "c".toList, "u".toList, none, none, none, [], [], false, none, 1, 0, none⟩

def samplePageYaml : List Char :=
  "title: t\ncreated: c\nupdated: u\npinned: false\nsalience: 1.0\naccess_count: 0".toList

def sampleYaml : YamlLibrary where
  toString f := if f = samplePage then some (samplePageYaml ++ ['\n']) else none
  fromStr s := if s = samplePageYaml ∨ s = samplePageYaml ++ ['\n'] then some samplePage else none

theorem sampleYaml_inverse : sampleYaml.Inverse samplePage samplePageYaml where
  written := by simp [sampleYaml]
  ne_nil := by decide
  read := by simp [sampleYaml]
  read_trimmed := by simp [sampleYaml]
  no_delimiter := by decide

theorem parse_render_delimiter :
    parseMarkdown sampleYaml (renderMarkdown sampleYaml samplePage "\na\n---\nb".toList) =
      .ok (samplePage, "\na\n---\nb".toList) :=
  parse_render sampleYaml samplePage samplePageYaml sampleYaml_inverse _

end Arags.Wiki
