import Arags.Lib.Json
import Arags.Llm.Transport

/-!
# Arags.Llm.Families

The wire formats of the providers, `backend/family.rs` and its four modules: what a request becomes.

* `build family req` — the body of a request.
* `kept family req`  — what of a request a body holds; `readBody` reads it back.
* `sameBody_iff`     — two requests have one body when what is kept of them is the same.
-/

namespace Arags.Llm

open Json (field? index nth setSome setNonempty object asStr asArr asU64 readArr readOpt)

inductive Role where
  | system
  | user
  | assistant
  deriving DecidableEq, Repr

def Role.toString : Role → String
  | .system => "system"
  | .user => "user"
  | .assistant => "assistant"

structure Message where
  role : Role
  content : String
  deriving DecidableEq, Repr

structure ToolDefinition where
  name : String
  description : String
  parameters : Json

/-- A 32-bit number, which is exact in 64 bits. -/
inductive F32 where
  | nan
  | infinite (negative : Bool)
  | finite (negative : Bool) (abs : Rat)
  deriving DecidableEq

structure CompletionRequest where
  model : String
  messages : List Message
  temperature : Option F32
  maxTokens : Option Nat
  stop : Option (List String)
  seed : Option Nat
  tools : Option (List ToolDefinition)

inductive BackendFamily where
  | openAi
  | anthropic
  | gemini
  | ollama
  deriving DecidableEq, Repr

/-! ## Bodies -/

/-- `json!` of a number that is not finite is `null`. -/
def jsonF32 : F32 → Json
  | .finite negative abs => .num (.float negative abs)
  | _ => .null

def jsonNat (n : Nat) : Json := .num (.pos n)

def jsonStrs (l : List String) : Json := .arr (l.map .str)

def simpleMessage (m : Message) : Json :=
  object [("role", .str m.role.toString), ("content", .str m.content)]

def messagesSimple (messages : List Message) : Json := .arr (messages.map simpleMessage)

def textPart (text : String) : Json := object [("text", .str text)]

def anthropicMessage (m : Message) : Json :=
  object [("role", .str m.role.toString),
    ("content", .arr [object [("type", .str "text"), ("text", .str m.content)]])]

def anthropicMessages (messages : List Message) : Json := .arr (messages.map anthropicMessage)

def geminiRole : Role → String
  | .user | .system => "user"
  | .assistant => "model"

def geminiContent (m : Message) : Json :=
  object [("role", .str (geminiRole m.role)), ("parts", .arr [textPart m.content])]

def geminiContents (messages : List Message) : Json := .arr (messages.map geminiContent)

/-- A system message takes the place of the one before it. -/
def splitStep (split : Option String × List Message) (m : Message) :
    Option String × List Message :=
  if m.role = .system then (some m.content, split.2) else (split.1, split.2 ++ [m])

def splitSystem (messages : List Message) : Option String × List Message :=
  messages.foldl splitStep (none, [])

def functionTool (params : String) (t : ToolDefinition) : Json :=
  object [("name", .str t.name), ("description", .str t.description), (params, t.parameters)]

namespace OpenAi

def tool (t : ToolDefinition) : Json :=
  object [("type", .str "function"), ("function", functionTool "parameters" t)]

def build (req : CompletionRequest) : Json :=
  let v := object [("model", .str req.model), ("messages", messagesSimple req.messages)]
  let v := setSome "temperature" (req.temperature.map jsonF32) v
  let v := setSome "max_tokens" (req.maxTokens.map jsonNat) v
  let v := setSome "stop" (req.stop.map jsonStrs) v
  let v := setSome "seed" (req.seed.map jsonNat) v
  setSome "tools" (req.tools.map fun tools => .arr (tools.map tool)) v

end OpenAi

namespace Anthropic

def build (req : CompletionRequest) : Json :=
  let (system, rest) := splitSystem req.messages
  let v := object [("model", .str req.model), ("messages", anthropicMessages rest)]
  let v := setSome "system" (system.map .str) v
  let v := setSome "max_tokens" (req.maxTokens.map jsonNat) v
  let v := setSome "temperature" (req.temperature.map jsonF32) v
  let v := setSome "stop_sequences" (req.stop.map jsonStrs) v
  setSome "tools" (req.tools.map fun tools => .arr (tools.map (functionTool "input_schema"))) v

end Anthropic

namespace Gemini

def systemInstruction (sys : String) : Json := object [("parts", .arr [textPart sys])]

def declarations (tools : List ToolDefinition) : Json :=
  object [("functionDeclarations", .arr (tools.map (functionTool "parameters")))]

/-- The model is part of the address. -/
def build (req : CompletionRequest) : Json :=
  let (system, rest) := splitSystem req.messages
  let v := object [("contents", geminiContents rest)]
  let v := setSome "systemInstruction" (system.map systemInstruction) v
  let genCfg := object []
  let genCfg := setSome "temperature" (req.temperature.map jsonF32) genCfg
  let genCfg := setSome "maxOutputTokens" (req.maxTokens.map jsonNat) genCfg
  let genCfg := setSome "stopSequences" (req.stop.map jsonStrs) genCfg
  let v := setNonempty "generationConfig" genCfg v
  setSome "tools" (req.tools.map declarations) v

end Gemini

namespace Ollama

def build (req : CompletionRequest) : Json :=
  let v := object [("model", .str req.model), ("messages", messagesSimple req.messages),
    ("stream", .bool false)]
  let opts := object []
  let opts := setSome "temperature" (req.temperature.map jsonF32) opts
  let opts := setSome "num_predict" (req.maxTokens.map jsonNat) opts
  setNonempty "options" opts v

end Ollama

def build : BackendFamily → CompletionRequest → Json
  | .openAi => OpenAi.build
  | .anthropic => Anthropic.build
  | .gemini => Gemini.build
  | .ollama => Ollama.build

/-! ## What a body keeps -/

/-- A temperature that is not finite is sent as none of them. -/
def F32.sent : F32 → F32
  | .finite negative abs => .finite negative abs
  | _ => .nan

/-- The last system message, before the messages that are none. -/
def gathered (messages : List Message) : List Message :=
  let (system, rest) := splitSystem messages
  (system.map (Message.mk .system)).toList ++ rest

def kept (family : BackendFamily) (req : CompletionRequest) : CompletionRequest :=
  let req := { req with temperature := req.temperature.map F32.sent }
  match family with
  | .openAi => req
  | .anthropic => { req with messages := gathered req.messages, seed := none }
  | .gemini => { req with model := "", messages := gathered req.messages, seed := none }
  | .ollama => { req with stop := none, seed := none, tools := none }

def readRole (assistant : String) (v : Json) : Option Role := do
  let s ← asStr v
  if s = "system" then return .system
  else if s = "user" then return .user
  else if s = assistant then return .assistant
  else none

def readSimpleMessage (v : Json) : Option Message :=
  return ⟨← readRole "assistant" (index "role" v), ← asStr (index "content" v)⟩

def readAnthropicMessage (v : Json) : Option Message :=
  return ⟨← readRole "assistant" (index "role" v),
    ← asStr (index "text" (nth 0 (index "content" v)))⟩

def readGeminiContent (v : Json) : Option Message :=
  return ⟨← readRole "model" (index "role" v), ← asStr (index "text" (nth 0 (index "parts" v)))⟩

def readF32 : Json → Option F32
  | .num (.float negative abs) => some (.finite negative abs)
  | .null => some .nan
  | _ => none

def readFunctionTool (params : String) (v : Json) : Option ToolDefinition :=
  return ⟨← asStr (index "name" v), ← asStr (index "description" v), index params v⟩

def readOpenAiTool (v : Json) : Option ToolDefinition :=
  readFunctionTool "parameters" (index "function" v)

def readSystemInstruction (v : Json) : Option String :=
  asStr (index "text" (nth 0 (index "parts" v)))

def readDeclarations (v : Json) : Option (List ToolDefinition) :=
  readArr (readFunctionTool "parameters") (index "functionDeclarations" v)

def readStrs : Json → Option (List String) := readArr asStr

def withSystem (system : Option String) (rest : List Message) : List Message :=
  (system.map (Message.mk .system)).toList ++ rest

def readBody : BackendFamily → Json → Option CompletionRequest
  | .openAi, v => do
    return {
      model := ← asStr (index "model" v)
      messages := ← readArr readSimpleMessage (index "messages" v)
      temperature := ← readOpt readF32 (field? "temperature" v)
      maxTokens := ← readOpt asU64 (field? "max_tokens" v)
      stop := ← readOpt readStrs (field? "stop" v)
      seed := ← readOpt asU64 (field? "seed" v)
      tools := ← readOpt (readArr readOpenAiTool) (field? "tools" v) }
  | .anthropic, v => do
    let system ← readOpt asStr (field? "system" v)
    return {
      model := ← asStr (index "model" v)
      messages := withSystem system (← readArr readAnthropicMessage (index "messages" v))
      temperature := ← readOpt readF32 (field? "temperature" v)
      maxTokens := ← readOpt asU64 (field? "max_tokens" v)
      stop := ← readOpt readStrs (field? "stop_sequences" v)
      seed := none
      tools := ← readOpt (readArr (readFunctionTool "input_schema")) (field? "tools" v) }
  | .gemini, v => do
    let system ← readOpt readSystemInstruction (field? "systemInstruction" v)
    let genCfg := index "generationConfig" v
    return {
      model := ""
      messages := withSystem system (← readArr readGeminiContent (index "contents" v))
      temperature := ← readOpt readF32 (field? "temperature" genCfg)
      maxTokens := ← readOpt asU64 (field? "maxOutputTokens" genCfg)
      stop := ← readOpt readStrs (field? "stopSequences" genCfg)
      seed := none
      tools := ← readOpt readDeclarations (field? "tools" v) }
  | .ollama, v => do
    let opts := index "options" v
    return {
      model := ← asStr (index "model" v)
      messages := ← readArr readSimpleMessage (index "messages" v)
      temperature := ← readOpt readF32 (field? "temperature" opts)
      maxTokens := ← readOpt asU64 (field? "num_predict" opts)
      stop := none
      seed := none
      tools := none }

/-! ### Parts -/

theorem foldl_splitStep (messages : List Message) (split : Option String × List Message) :
    messages.foldl splitStep split =
      (((messages.filter (·.role = .system)).getLast?.map Message.content).or split.1,
        split.2 ++ messages.filter (·.role ≠ .system)) := by
  induction messages generalizing split with
  | nil => simp
  | cons m ms ih =>
    rw [List.foldl_cons, ih, splitStep]
    by_cases hm : m.role = .system
    · cases hlast : (ms.filter (·.role = .system)).getLast? with
      | none => simp [hm, List.getLast?_cons, hlast]
      | some last => simp [hm, List.getLast?_cons, hlast]
    · simp [hm]

theorem splitSystem_eq (messages : List Message) :
    splitSystem messages =
      ((messages.filter (·.role = .system)).getLast?.map Message.content,
        messages.filter (·.role ≠ .system)) := by
  rw [splitSystem, foldl_splitStep, Option.or_none, List.nil_append]

theorem readSimpleMessage_simpleMessage (m : Message) :
    readSimpleMessage (simpleMessage m) = some m := by
  obtain ⟨role, content⟩ := m
  cases role <;>
  simp [readSimpleMessage, simpleMessage, readRole, Role.toString, object, asStr]

theorem readAnthropicMessage_anthropicMessage (m : Message) :
    readAnthropicMessage (anthropicMessage m) = some m := by
  obtain ⟨role, content⟩ := m
  cases role <;>
  simp [readAnthropicMessage, anthropicMessage, readRole, Role.toString, object, asStr, nth]

theorem readGeminiContent_geminiContent {m : Message} (h : m.role ≠ .system) :
    readGeminiContent (geminiContent m) = some m := by
  obtain ⟨role, content⟩ := m
  cases role with
  | system => exact absurd rfl h
  | _ =>
    simp [readGeminiContent, geminiContent, readRole, geminiRole, object, asStr, nth,
      textPart]

theorem readF32_jsonF32 (t : F32) : readF32 (jsonF32 t) = some t.sent := by
  cases t <;> rfl

theorem readFunctionTool_functionTool {params : String} (hname : params ≠ "name")
    (hdescription : params ≠ "description") (t : ToolDefinition) :
    readFunctionTool params (functionTool params t) = some t := by
  simp [readFunctionTool, functionTool, object, asStr, hname.symm, hdescription.symm]

theorem readStrs_jsonStrs (l : List String) : readStrs (jsonStrs l) = some l := by
  have hread : ∀ s ∈ l, asStr (.str s) = some (id s) := fun _ _ => rfl
  rw [readStrs, jsonStrs, Json.readArr_map hread, List.map_id]

theorem asU64_jsonNat (n : Nat) : asU64 (jsonNat n) = some n := rfl

theorem readMessagesSimple (messages : List Message) :
    readArr readSimpleMessage (messagesSimple messages) = some messages := by
  have hread : ∀ m ∈ messages, readSimpleMessage (simpleMessage m) = some (id m) :=
    fun m _ => readSimpleMessage_simpleMessage m
  rw [messagesSimple, Json.readArr_map hread, List.map_id]

theorem readAnthropicMessages (messages : List Message) :
    readArr readAnthropicMessage (anthropicMessages messages) = some messages := by
  have hread : ∀ m ∈ messages, readAnthropicMessage (anthropicMessage m) = some (id m) :=
    fun m _ => readAnthropicMessage_anthropicMessage m
  rw [anthropicMessages, Json.readArr_map hread, List.map_id]

theorem readGeminiContents (messages : List Message) :
    readArr readGeminiContent (geminiContents (splitSystem messages).2) =
      some (splitSystem messages).2 := by
  have hread : ∀ m ∈ (splitSystem messages).2,
      readGeminiContent (geminiContent m) = some (id m) := by
    intro m hm
    rw [splitSystem_eq] at hm
    exact readGeminiContent_geminiContent (of_decide_eq_true (List.mem_filter.mp hm).2)
  rw [geminiContents, Json.readArr_map hread, List.map_id]

theorem readTools {params : String} (hname : params ≠ "name")
    (hdescription : params ≠ "description") (tools : List ToolDefinition) :
    readArr (readFunctionTool params) (.arr (tools.map (functionTool params))) = some tools := by
  have hread : ∀ t ∈ tools, readFunctionTool params (functionTool params t) = some (id t) :=
    fun t _ => readFunctionTool_functionTool hname hdescription t
  rw [Json.readArr_map hread, List.map_id]

theorem readOpenAiTools (tools : List ToolDefinition) :
    readArr readOpenAiTool (.arr (tools.map OpenAi.tool)) = some tools := by
  have hread : ∀ t ∈ tools, readOpenAiTool (OpenAi.tool t) = some (id t) := by
    intro t _
    have hfunction : index "function" (OpenAi.tool t) = functionTool "parameters" t := by
      simp [OpenAi.tool, object]
    rw [readOpenAiTool, hfunction]
    exact readFunctionTool_functionTool (by decide) (by decide) t
  rw [Json.readArr_map hread, List.map_id]

/-- An optional field is read as it was written. -/
theorem readOpt_same {α : Type} {read : Json → Option α} {write : α → Json}
    (h : ∀ x, read (write x) = some x) (x : Option α) :
    readOpt read (x.map write) = some x := by
  have hid : ∀ x, read (write x) = some (id x) := h
  rw [Json.readOpt_map hid, Option.map_id, id]

theorem readBody_openAi (req : CompletionRequest) :
    readBody .openAi (OpenAi.build req) = some (kept .openAi req) := by
  simp [readBody, OpenAi.build, kept, object, readMessagesSimple, asStr,
    Json.readOpt_map readF32_jsonF32, readOpt_same asU64_jsonNat, readOpt_same readStrs_jsonStrs,
    readOpt_same readOpenAiTools]

theorem readBody_anthropic (req : CompletionRequest) :
    readBody .anthropic (Anthropic.build req) = some (kept .anthropic req) := by
  have htools := readOpt_same
    (readTools (by decide : "input_schema" ≠ "name") (by decide))
  have hstr : ∀ s, asStr (.str s) = some s := fun _ => rfl
  have hsystem := readOpt_same hstr
  simp [readBody, Anthropic.build, kept, gathered, withSystem, object, readAnthropicMessages, asStr,
    Json.readOpt_map readF32_jsonF32, readOpt_same asU64_jsonNat, readOpt_same readStrs_jsonStrs,
    htools, hsystem]

theorem readSystemInstruction_systemInstruction (sys : String) :
    readSystemInstruction (Gemini.systemInstruction sys) = some sys := by
  simp [readSystemInstruction, Gemini.systemInstruction, textPart, object, nth, asStr]

theorem readDeclarations_declarations (tools : List ToolDefinition) :
    readDeclarations (Gemini.declarations tools) = some tools := by
  have hindex : index "functionDeclarations" (Gemini.declarations tools) =
      .arr (tools.map (functionTool "parameters")) := by
    simp [Gemini.declarations, object]
  rw [readDeclarations, hindex, readTools (by decide) (by decide)]

theorem readBody_gemini (req : CompletionRequest) :
    readBody .gemini (Gemini.build req) = some (kept .gemini req) := by
  simp [readBody, Gemini.build, kept, gathered, withSystem, object, readGeminiContents,
    Json.readOpt_map readF32_jsonF32, readOpt_same asU64_jsonNat, readOpt_same readStrs_jsonStrs,
    readOpt_same readSystemInstruction_systemInstruction,
    readOpt_same readDeclarations_declarations, Json.field?_index_setNonempty]

theorem readBody_ollama (req : CompletionRequest) :
    readBody .ollama (Ollama.build req) = some (kept .ollama req) := by
  simp [readBody, Ollama.build, kept, object, readMessagesSimple, asStr,
    Json.readOpt_map readF32_jsonF32, readOpt_same asU64_jsonNat,
    Json.field?_index_setNonempty]

/-- What of a request the body of its family can be read back for. -/
theorem readBody_build (family : BackendFamily) (req : CompletionRequest) :
    readBody family (build family req) = some (kept family req) := by
  cases family with
  | openAi => exact readBody_openAi req
  | anthropic => exact readBody_anthropic req
  | gemini => exact readBody_gemini req
  | ollama => exact readBody_ollama req

theorem jsonF32_sent (t : F32) : jsonF32 t.sent = jsonF32 t := by
  cases t <;> rfl

theorem splitSystem_gathered (messages : List Message) :
    splitSystem (gathered messages) = splitSystem messages := by
  have hnone : (messages.filter (·.role ≠ .system)).filter (·.role = .system) = [] := by
    simp [List.filter_filter]
  have hrest : (messages.filter (·.role ≠ .system)).filter (·.role ≠ .system) =
      messages.filter (·.role ≠ .system) := by
    simp [List.filter_filter]
  rw [splitSystem_eq (gathered messages), gathered, splitSystem_eq messages]
  cases (messages.filter (·.role = .system)).getLast? with
  | none =>
    simp only [Option.map_none, Option.toList_none, List.nil_append, hnone, hrest,
      List.getLast?_nil]
  | some last =>
    simp only [Option.map_some, Option.toList_some, List.filter_append, hnone, hrest]
    simp

/-- Nothing else of a request reaches its body. -/
theorem build_kept (family : BackendFamily) (req : CompletionRequest) :
    build family (kept family req) = build family req := by
  have htemperature : (req.temperature.map F32.sent).map jsonF32 = req.temperature.map jsonF32 := by
    rw [Option.map_map]
    exact congrArg (req.temperature.map ·) (funext jsonF32_sent)
  cases family with
  | openAi => simp only [build, kept, OpenAi.build, htemperature]
  | anthropic => simp only [build, kept, Anthropic.build, htemperature, splitSystem_gathered]
  | gemini => simp only [build, kept, Gemini.build, htemperature, splitSystem_gathered]
  | ollama => simp only [build, kept, Ollama.build, htemperature]

theorem sameBody_iff (family : BackendFamily) (req req' : CompletionRequest) :
    build family req = build family req' ↔ kept family req = kept family req' := by
  constructor
  · intro h
    refine Option.some_inj.mp ((readBody_build family req).symm.trans ?_)
    exact h ▸ readBody_build family req'
  · intro h
    rw [← build_kept family req, h, build_kept]

end Arags.Llm
