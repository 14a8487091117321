import Arags.Lib.Override

/-!
# Arags.Cli.Backends

The merge of two lists of language model backends, `user_config/ops.rs`: those of the project over
those of the user.

* `sameBackend`          — by name, else by model, else by family.
* `mergeBackends`        — the code, and `mergeBackends_eq`: it is `Override.merge`.
* `merge_backends_exact` — the lists merge without loss when no backend overrides two.
-/

namespace Arags.Cli

open Override

inductive BackendFamily where
  | openAi
  | anthropic
  | gemini
  | ollama
  deriving DecidableEq

inductive AuthScheme where
  | bearer
  | header
  | query
  | none
  deriving DecidableEq

inductive HealthMethod where
  | get
  | post
  deriving DecidableEq

structure BackendConfig where
  family : BackendFamily
  baseUrl : String
  model : Option String
  apiKey : Option String
  completionsPath : String
  auth : AuthScheme
  authHeader : String
  authPrefix : String
  authQueryParam : String
  extraHeaders : List (String × String)
  healthPath : String
  healthMethod : HealthMethod
  name : Option String
  deriving DecidableEq

/-- A name or a model decides only where both backends have one. -/
def sameBackend (a b : BackendConfig) : Bool :=
  match a.name, b.name with
  | some an, some bn => an == bn
  | _, _ =>
    match a.model, b.model with
    | some am, some bm => am == bm
    | _, _ => a.family == b.family

def mergeBackends (globals locals : List BackendConfig) : List BackendConfig :=
  let out := globals.foldl (fun out g =>
    match locals.find? fun l => sameBackend l g with
    | some l => out ++ [l]
    | none => out ++ [g]) []
  locals.foldl (fun out l => if !out.any fun b => sameBackend b l then out ++ [l] else out) out

theorem sameBackend_refl (a : BackendConfig) : sameBackend a a = true := by
  unfold sameBackend
  cases a.name <;> cases a.model <;> simp

theorem sameBackend_symm (a b : BackendConfig) : sameBackend a b = sameBackend b a := by
  unfold sameBackend
  cases a.name <;> cases b.name <;> cases a.model <;> cases b.model <;> simp [Bool.beq_comm]

theorem mergeBackends_eq (globals locals : List BackendConfig) :
    mergeBackends globals locals = merge sameBackend globals locals := by
  have hfront : ∀ out : List BackendConfig, globals.foldl (fun out g =>
      match locals.find? fun l => sameBackend l g with
      | some l => out ++ [l]
      | none => out ++ [g]) out = out ++ globals.map (replace sameBackend locals) := by
    induction globals with
    | nil => simp
    | cons g globals ih =>
      intro out
      rw [List.foldl_cons, ih, List.map_cons, replace, replacement?]
      cases locals.find? fun l => sameBackend l g <;> simp
  rw [mergeBackends, hfront, List.nil_append, merge, appendNew]
  congr 1
  funext out l
  cases out.any fun b => sameBackend b l <;> rfl

/-- Merging loses nothing and repeats nothing exactly when no backend of the project is the first
that overrides two backends of the user. -/
theorem merge_backends_exact (globals locals : List BackendConfig)
    (hglobals : Apart sameBackend globals) (hlocals : Apart sameBackend locals) :
    Merged sameBackend globals locals (mergeBackends globals locals) ↔
      (replacements sameBackend globals locals).Nodup := by
  rw [mergeBackends_eq]
  exact merged_iff sameBackend_refl sameBackend_symm hglobals hlocals

/-! Two named backends of a family, and one of that family without name and model. -/

def sampleBackend (name : Option String) : BackendConfig where
  family := .openAi
  baseUrl := "https://api.openai.com/v1"
  model := none
  apiKey := none
  completionsPath := "chat/completions"
  auth := .bearer
  authHeader := "x-api-key"
  authPrefix := "Bearer"
  authQueryParam := "key"
  extraHeaders := []
  healthPath := "models"
  healthMethod := .get
  name := name

theorem sampleBackends_apart :
    Apart sameBackend [sampleBackend (some "fast"), sampleBackend (some "spare")] := by
  rw [Apart]
  decide

theorem merge_backends_exact_not :
    mergeBackends [sampleBackend (some "fast"), sampleBackend (some "spare")]
      [sampleBackend none] = [sampleBackend none, sampleBackend none] ∧
    ¬ ∀ globals locals : List BackendConfig, Apart sameBackend globals → Apart sameBackend locals →
      Merged sameBackend globals locals (mergeBackends globals locals) := by
  have hrun : mergeBackends [sampleBackend (some "fast"), sampleBackend (some "spare")]
      [sampleBackend none] = [sampleBackend none, sampleBackend none] := by decide
  refine ⟨hrun, fun h => ?_⟩
  have hone := (h _ [sampleBackend none] sampleBackends_apart (List.pairwise_singleton _ _)).added
    (sampleBackend none) (List.mem_singleton_self _)
  rw [hrun] at hone
  revert hone
  decide

theorem merge_backends_exact_named :
    Merged sameBackend [sampleBackend (some "fast"), sampleBackend (some "spare")]
      [sampleBackend (some "fast")]
      (mergeBackends [sampleBackend (some "fast"), sampleBackend (some "spare")]
        [sampleBackend (some "fast")]) ↔
      (replacements sameBackend [sampleBackend (some "fast"), sampleBackend (some "spare")]
        [sampleBackend (some "fast")]).Nodup :=
  merge_backends_exact _ _ sampleBackends_apart (List.pairwise_singleton _ _)

end Arags.Cli
