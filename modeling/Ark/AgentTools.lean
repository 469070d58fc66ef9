import Mathlib.Logic.Function.Basic
import Mathlib.Data.List.Basic

/-!
# Agent tools and their registration

An agent's `spec.tools` names Tool resources of the agent's namespace. `MakeAgent` registers an
executor for every entry under the name the model will call, and separately keeps the entries that
ask for approval under their own `name`. Kubernetes reads and MCP connections are the fields of
`K8sClient`. Each registered executor remembers the entry that it was built from; no operation
reads that entry.
-/

namespace Ark

structure ToolFunction where
  name : String
  value : String := ""
  deriving DecidableEq, Repr

structure ToolPartial where
  name : String
  parameters : List ToolFunction
  deriving DecidableEq, Repr

/-- The timeout is in nanoseconds, as a `time.Duration` is. -/
structure ToolApprovalConfig where
  required : Bool
  timeout : Option Int
  onTimeout : String
  deriving DecidableEq, Repr

structure AgentTool where
  type : String
  name : String
  description : String := ""
  functions : List ToolFunction := []
  toolPartial : Option ToolPartial := none
  approval : Option ToolApprovalConfig := none
  deriving DecidableEq, Repr

namespace AgentTool

def getToolCRDName (t : AgentTool) : String :=
  match t.toolPartial with
  | some p => if p.name ≠ "" then p.name else t.name
  | none => t.name

def approvalRequired (t : AgentTool) : Bool := t.approval.any (·.required)

end AgentTool

/-! ### Validation -/

def isValidBuiltInTool (name : String) : Bool := name = "noop" || name = "terminate"

def toolError (index : Nat) (text : String) : Except String Unit :=
  .error ("tool[" ++ toString index ++ "]: " ++ text)

def validateToolApprovalConfig (index : Nat) (tool : AgentTool) : Except String Unit :=
  match tool.approval with
  | none => .ok ()
  | some approval =>
    if approval.timeout.any (· ≤ 0) then
      toolError index "approval.timeout must be a positive duration"
    else if approval.onTimeout ≠ "" && approval.onTimeout ≠ "reject" &&
        approval.onTimeout ≠ "proceed" then
      toolError index "approval.onTimeout must be 'reject' or 'proceed'"
    else .ok ()

def validateAgentTool (index : Nat) (tool : AgentTool) : Except String Unit :=
  if tool.type = "built-in" then
    if tool.name = "" then toolError index "built-in tools must specify a name"
    else if !isValidBuiltInTool tool.name then
      toolError index ("unsupported built-in tool '" ++ tool.name ++
        "': supported built-in tools are: noop, terminate")
    -- the approval settings of built-in tools are not checked
    else .ok ()
  else if tool.type ∈ ["custom", "mcp", "http", "agent", "team", "builtin"] then
    if tool.name = "" then toolError index (tool.type ++ " tools must specify a name")
    else validateToolApprovalConfig index tool
  else toolError index ("unsupported tool type '" ++ tool.type ++
    "': supported types are: built-in, mcp, http, agent, team, builtin")

def validateAgentTools (index : Nat) : List AgentTool → Except String Unit
  | [] => .ok ()
  | tool :: tools => do
    validateAgentTool index tool
    validateAgentTools (index + 1) tools

/-- `ValidateAgent`, with the outcomes of the checks of the spec's parameters and overrides. -/
def validateAgent (parameters overrides : Except String Unit) (tools : List AgentTool) :
    Except String Unit := do
  parameters
  overrides
  validateAgentTools 0 tools

/-! ### Tool definitions -/

/-- One item of a JSON array: a string, or another value with its printed form. -/
inductive SchemaItem
  | str (s : String)
  | other (printed : String)
  deriving DecidableEq, Repr

/-- The value of one key of a tool's JSON schema, as far as the registration looks at it. -/
inductive SchemaValue
  | object (fields : List (String × String))
  | strings (values : List String)
  | array (items : List SchemaItem)
  | other (goType : String)
  deriving DecidableEq, Repr

abbrev ToolParameters := String → Option SchemaValue

structure ToolDefinition where
  name : String
  description : String
  parameters : ToolParameters

/-- What `json.Unmarshal` makes of `spec.inputSchema`. -/
inductive InputSchema
  | absent
  | invalid
  | null
  | object (fields : List (String × SchemaValue))
  deriving DecidableEq, Repr

structure MCPToolRef where
  serverName : String
  serverNamespace : String
  toolName : String
  deriving DecidableEq, Repr

/-- A Tool resource. -/
structure Tool where
  name : String
  type : String
  description : String := ""
  annotations : List (String × String) := []
  inputSchema : InputSchema := .absent
  http : Option String := none
  mcp : Option MCPToolRef := none
  agent : Option String := none
  team : Option String := none
  deriving DecidableEq, Repr

def getDefaultToolDescription (tool : Tool) : String :=
  match tool.type, tool.http with
  | "http", some url => "HTTP request to " ++ url
  | "builtin", _ => "Built-in tool: " ++ tool.name
  | _, _ => "Custom tool: " ++ tool.name

def getToolDescription (tool : Tool) : String :=
  if tool.description ≠ "" then tool.description
  else match tool.annotations.lookup "description" with
    | some desc => if desc ≠ "" then desc else getDefaultToolDescription tool
    | none => getDefaultToolDescription tool

def getToolParameters (tool : Tool) : ToolParameters :=
  let parameters : ToolParameters := fun key =>
    [("type", SchemaValue.other "string"), ("properties", .object [])].lookup key
  match tool.inputSchema with
  | .absent | .invalid => parameters
  | .null => fun _ => none
  | .object fields => fun key => (fields.lookup key).or (parameters key)

def createToolFromCRD (tool : Tool) : ToolDefinition where
  name := tool.name
  description := getToolDescription tool
  parameters := getToolParameters tool

def requiredStrings : List SchemaItem → Except String (List String)
  | [] => .ok []
  | .str s :: items => (requiredStrings items).map (s :: ·)
  | .other printed :: _ =>
    .error ("tool schema 'required' field contains non-string value: " ++ printed)

def getRequiredFields (params : ToolParameters) : Except String (Option (List String)) :=
  match params "required" with
  | none => .ok none
  | some (.strings values) => .ok (some values)
  | some (.array items) => (requiredStrings items).map some
  | some (.object _) => .error
      "tool schema 'required' field is not []string or []interface{}, got map[string]interface {}"
  | some (.other goType) => .error
      ("tool schema 'required' field is not []string or []interface{}, got " ++ goType)

def createPartialToolDefinition (definition : ToolDefinition) :
    Option ToolPartial → Except String ToolDefinition
  | none => .ok definition
  | some p => do
    let newName := if p.name ≠ "" then p.name else definition.name
    let injected := p.parameters.map (·.name)
    match definition.parameters "properties" with
    | some (.object props) =>
      let newParams : ToolParameters := Function.update definition.parameters "properties"
        (some (.object (props.filter fun f => f.1 ∉ injected)))
      match ← getRequiredFields newParams with
      | none => pure { definition with name := newName, parameters := newParams }
      | some required =>
        pure { definition with
          name := newName
          parameters := Function.update newParams "required"
            (some (.strings (required.filter fun r => r ∉ injected))) }
    | _ => .error "tool schema missing or invalid 'properties' field"

/-! ### Executors -/

inductive ToolExecutor
  | http (toolName toolNamespace : String)
  | mcp (toolName : String)
  | agent (agentName agentNamespace : String)
  | team (teamName teamNamespace : String)
  | noop
  | terminate
  | selectNextSpeaker
  | partialTool (base : ToolExecutor) (toolPartial : ToolPartial)
  | filtered (base : ToolExecutor) (functions : List ToolFunction)
  deriving DecidableEq, Repr

/-- The cluster and the MCP servers, as `MakeAgent` reads them. `setup` is the outcome of what it
resolves before the tools: headers, model, execution engine and MCP settings. -/
structure K8sClient where
  setup : Except String Unit
  getTool : String → Except String Tool
  getAgent : String → Except String Unit
  getTeam : String → Except String Unit
  mcpClient : MCPToolRef → Except String Unit

namespace K8sClient

variable (k : K8sClient)

def createToolExecutor (tool : Tool) (ns : String) : Except String ToolExecutor :=
  match tool.type with
  | "http" =>
    match tool.http with
    | none => .error ("http spec is required for tool " ++ tool.name)
    | some _ => .ok (.http tool.name ns)
  | "mcp" =>
    match tool.mcp with
    | none => .error ("mcp spec is required for tool " ++ tool.name)
    | some ref => (k.mcpClient ref).map fun _ => .mcp ref.toolName
  | "agent" =>
    match tool.agent with
    | none => .error "invalid memory address or nil pointer dereference"
    | some name =>
      if name = "" then .error ("agent spec is required for tool " ++ tool.name)
      else (k.getAgent name).map fun _ => .agent name ns
  | "team" =>
    match tool.team with
    | none => .error "invalid memory address or nil pointer dereference"
    | some name =>
      if name = "" then .error ("team spec is required for tool " ++ tool.name)
      else (k.getTeam name).map fun _ => .team name ns
  | "builtin" =>
    if tool.name = "noop" then .ok .noop
    else if tool.name = "terminate" then .ok .terminate
    else .error ("unsupported builtin tool " ++ tool.name)
  | type => .error ("unsupported tool type " ++ type ++ " for tool " ++ tool.name)

end K8sClient

/-! ### The registry -/

/-- An executor together with the `spec.tools` entry that it was built from. -/
structure Registered where
  executor : ToolExecutor
  entry : AgentTool
  deriving DecidableEq, Repr

structure ToolRegistry where
  tools : String → Option ToolDefinition
  executors : String → Option Registered

namespace ToolRegistry

def new : ToolRegistry where
  tools := fun _ => none
  executors := fun _ => none

def register (r : ToolRegistry) (definition : ToolDefinition) (executor : Registered) :
    ToolRegistry where
  tools := Function.update r.tools definition.name (some definition)
  executors := Function.update r.executors definition.name (some executor)

/-- `registerTool`. -/
def registerTool (k : K8sClient) (ns : String) (r : ToolRegistry) (agentTool : AgentTool) :
    Except String ToolRegistry := do
  let toolName := agentTool.getToolCRDName
  let tool ← (k.getTool toolName).mapError ("failed to get tool " ++ toolName ++ ": " ++ ·)
  let exposed := { createToolFromCRD tool with name := agentTool.name }
  let base ← (k.createToolExecutor tool ns).mapError
    ("failed to create executor for tool " ++ exposed.name ++ ": " ++ ·)
  let described := { exposed with
    description := if agentTool.description ≠ "" then agentTool.description
      else exposed.description }
  let definition ← (createPartialToolDefinition described agentTool.toolPartial).mapError
    ("failed to create partial tool definition for tool " ++ toolName ++ ": " ++ ·)
  let injecting := match agentTool.toolPartial with
    | some p => ToolExecutor.partialTool base p
    | none => base
  let executor := if agentTool.functions ≠ [] then
      ToolExecutor.filtered injecting agentTool.functions
    else injecting
  pure (r.register definition ⟨executor, agentTool⟩)

def registerTools (k : K8sClient) (ns : String) (r : ToolRegistry) :
    List AgentTool → Except String ToolRegistry
  | [] => .ok r
  | agentTool :: tools => do
    let r' ← r.registerTool k ns agentTool
    r'.registerTools k ns tools

end ToolRegistry

/-! ### What registration leaves -/

theorem bind_eq_ok {α β : Type} {x : Except String α} {f : α → Except String β} {b : β} :
    (x >>= f) = .ok b ↔ ∃ a, x = .ok a ∧ f a = .ok b := by
  cases x with
  | error e => simp [bind, Except.bind]
  | ok a => simp [bind, Except.bind]

theorem mapError_eq_ok {α : Type} {x : Except String α} {f : String → String} {a : α} :
    x.mapError f = .ok a ↔ x = .ok a := by
  cases x with
  | error e => simp [Except.mapError]
  | ok a => simp [Except.mapError]

/-- The exposed name is the name of the Tool resource, also where an entry renames it. -/
theorem createPartialToolDefinition_name {definition d : ToolDefinition} {t : AgentTool}
    (h : createPartialToolDefinition definition t.toolPartial = .ok d)
    (hname : definition.name = t.name) : d.name = t.getToolCRDName := by
  unfold AgentTool.getToolCRDName
  cases hp : t.toolPartial with
  | none =>
    rw [hp] at h
    simp only [createPartialToolDefinition, Except.ok.injEq] at h
    rw [← h, hname]
  | some p =>
    rw [hp] at h
    simp only [createPartialToolDefinition] at h
    split at h
    next props hprops =>
      obtain ⟨required, -, hd⟩ := bind_eq_ok.mp h
      cases required <;> cases hd <;> simp only [hname]
    next => cases h

namespace ToolRegistry

/-- One entry's registration, seen from the executors. -/
theorem registerTool_executors {k : K8sClient} {ns : String} {r r' : ToolRegistry} {t : AgentTool}
    (h : r.registerTool k ns t = .ok r') :
    ∃ executor, r'.executors =
      Function.update r.executors t.getToolCRDName (some ⟨executor, t⟩) := by
  unfold registerTool at h
  obtain ⟨tool, -, h⟩ := bind_eq_ok.mp h
  obtain ⟨base, -, h⟩ := bind_eq_ok.mp h
  obtain ⟨definition, hdef, h⟩ := bind_eq_ok.mp h
  have hname := createPartialToolDefinition_name (mapError_eq_ok.mp hdef) rfl
  rw [← hname]
  cases h
  exact ⟨_, rfl⟩

end ToolRegistry

/-- The entry whose executor answers calls to `name`: the last one registered under it. -/
def answering (tools : List AgentTool) (name : String) : Option AgentTool :=
  tools.reverse.find? fun t => t.getToolCRDName = name

/-- After registration every name is answered by the last entry exposed under it. -/
theorem registerTools_executors {k : K8sClient} {ns : String} {tools : List AgentTool}
    {r r' : ToolRegistry} (h : r.registerTools k ns tools = .ok r') (name : String) :
    (r'.executors name).map (·.entry) =
      (answering tools name).or ((r.executors name).map (·.entry)) := by
  induction tools generalizing r with
  | nil =>
    cases h
    rfl
  | cons t tools ih =>
    obtain ⟨r₁, ht, h⟩ := bind_eq_ok.mp h
    obtain ⟨executor, hr₁⟩ := ToolRegistry.registerTool_executors ht
    rw [ih h, hr₁]
    by_cases hname : t.getToolCRDName = name
    · subst hname
      simp [answering, List.find?_append]
    · simp [answering, List.find?_append, hname, Function.update_of_ne (Ne.symm hname)]

end Ark
