import Ark.ApprovalGate
import Ark.GoDuration
import Ark.GoStruct
import Ark.Handler
import Ark.TaskLifecycle

/-!
# What an approval task carries

An approval pauses a run, and all that is left of it is the metadata of a protocol task: the calls and
the execution context as JSON texts, the timeout as a duration, the policy as it is. The A2ATask keeps
them as strings; the task controller reads the timeout and the policy again, and the resumption reads
the calls and the agent.
-/

namespace Ark.A2A

open Json GoJson

/-! ### Writing -/

/-- `openai.ChatCompletionMessageToolCall`. -/
def toolCallValue (call : ToolCall) : Value :=
  .obj [(literal "id", ofString call.id),
    (literal "function", .obj [
      (literal "arguments", ofString call.arguments), (literal "name", ofString call.name)]),
    (literal "type", ofString "function")]

def toolResultValue (result : ToolResult) : Value :=
  .obj ([(literal "id", ofString result.id), (literal "name", ofString result.name)] ++
    (if result.content = "" then [] else [(literal "content", ofString result.content)]) ++
    if result.error = "" then [] else [(literal "error", ofString result.error)])

def contextValue (context : ExecutionContext) : Value :=
  .obj [(literal "ConversationID", ofString context.conversationID),
    (literal "PendingToolCallIndex", ofNat context.pendingToolCallIndex),
    (literal "CompletedToolResults", .arr (context.completedToolResults.map toolResultValue)),
    (literal "AgentName", ofString context.agentName),
    (literal "AgentNamespace", ofString context.agentNamespace)]

/-- The protocol task of an approval request. -/
def approvalTask (f : Formats) (taskID : String) (request : ApprovalRequest) : ProtocolTask where
  id := taskID
  contextID := request.contextID
  artifacts := []
  history := []
  metadata := fun k => ([
    ("toolCalls", marshal (.arr (request.toolCalls.map toolCallValue))),
    ("timeout", f.durationString request.timeout),
    ("onTimeout", request.onTimeout),
    ("context", marshal (contextValue request.context))].lookup k).map .str
  state := "input-required"
  message := none
  timestamp := ""

/-! ### Reading -/

def fitsToolCalls : Value → Bool :=
  fitsSlice (fitsStruct [("id", fitsString),
    ("function", fitsStruct [("name", fitsString), ("arguments", fitsString)]),
    ("type", fitsString)])

def toolCallOf (v : Value) : ToolCall :=
  let function := structField "function" (membersOf v)
  { id := stringField "id" (membersOf v)
    name := stringField "name" function
    arguments := stringField "arguments" function }

/-- `json.Unmarshal` of the calls. -/
def parseToolCalls (text : String) : Option (List ToolCall) :=
  match unmarshal text with
  | some v => if fitsToolCalls v then some ((itemsOf v).map toolCallOf) else none
  | none => none

def fitsToolResult : Value → Bool :=
  fitsStruct [("id", fitsString), ("name", fitsString), ("content", fitsString),
    ("error", fitsString)]

def fitsContext : Value → Bool :=
  fitsStruct [("ConversationID", fitsString), ("PendingToolCallIndex", fitsInt),
    ("CompletedToolResults", fitsSlice fitsToolResult), ("AgentName", fitsString),
    ("AgentNamespace", fitsString)]

/-- `json.Unmarshal` of an execution context: the name and the namespace of its agent. -/
def parseContextAgent (text : String) : Option (String × String) :=
  match unmarshal text with
  | some v =>
    if fitsContext v then
      some (stringField "AgentName" (membersOf v), stringField "AgentNamespace" (membersOf v))
    else none
  | none => none

namespace TaskResource

variable (t : TaskResource)

/-- The calls that `handleResumption` takes up; `unmarshalError` is the text of the JSON error. -/
def resumptionToolCalls (unmarshalError : String → String) : Except String (List ToolCall) :=
  if t.contextID = "" then .error "A2ATask has no contextId for memory retrieval"
  else match t.status.protocolMetadata "toolCalls" with
    | none => .error "A2ATask has no toolCalls in protocolMetadata"
    | some text =>
      match parseToolCalls text with
      | none => .error ("failed to parse toolCalls from A2ATask: " ++ unmarshalError text)
      | some toolCalls => .ok toolCalls

/-- `resolveResumptionAgent`: the name and the namespace of the agent to resume. -/
def resumptionAgent (s : ExecutionState) : String × String :=
  match (t.status.protocolMetadata "context").bind parseContextAgent with
  | none => (s.target.name, s.namespace)
  | some (agentName, agentNamespace) =>
    (if agentName ≠ "" then agentName else s.target.name,
      if agentNamespace ≠ "" then agentNamespace else s.namespace)

end TaskResource

/-! ### Round trips -/

theorem valid_literals (texts : List String) : Valid (texts.map literal) := by
  intro s hs
  obtain ⟨text, -, rfl⟩ := List.mem_map.mp hs
  exact valid_literal text

theorem valid_items {α : Type} {f : α → Value} (h : ∀ x, Valid (strings (f x))) (xs : List α) :
    Valid (strings (.arr (xs.map f))) := by
  intro s hs
  rw [strings] at hs
  induction xs with
  | nil => simp [stringsOfItems] at hs
  | cons x xs ih =>
    rw [List.map_cons, stringsOfItems, List.mem_append] at hs
    obtain hs | hs := hs
    · exact h x s hs
    · exact ih hs

theorem valid_toolCallValue (call : ToolCall) : Valid (strings (toolCallValue call)) :=
  valid_literals ["id", call.id, "function", "arguments", call.arguments, "name", call.name, "type",
    "function"]

theorem valid_toolResultValue (result : ToolResult) : Valid (strings (toolResultValue result)) := by
  rw [toolResultValue]
  by_cases hcontent : result.content = "" <;> by_cases herror : result.error = ""
  · rw [if_pos hcontent, if_pos herror]
    exact valid_literals ["id", result.id, "name", result.name]
  · rw [if_pos hcontent, if_neg herror]
    exact valid_literals ["id", result.id, "name", result.name, "error", result.error]
  · rw [if_neg hcontent, if_pos herror]
    exact valid_literals ["id", result.id, "name", result.name, "content", result.content]
  · rw [if_neg hcontent, if_neg herror]
    exact valid_literals ["id", result.id, "name", result.name, "content", result.content, "error",
      result.error]

theorem valid_contextValue (context : ExecutionContext) :
    Valid (strings (contextValue context)) := by
  have hstrings : strings (contextValue context) =
      ["ConversationID", context.conversationID, "PendingToolCallIndex",
        "CompletedToolResults"].map literal ++
      (strings (.arr (context.completedToolResults.map toolResultValue)) ++
        ["AgentName", context.agentName, "AgentNamespace", context.agentNamespace].map literal) :=
    rfl
  intro s hs
  rw [hstrings, List.mem_append, List.mem_append] at hs
  obtain hs | hs | hs := hs
  · exact valid_literals _ s hs
  · exact valid_items valid_toolResultValue _ s hs
  · exact valid_literals _ s hs

theorem fitsToolResult_toolResultValue (result : ToolResult) :
    fitsToolResult (toolResultValue result) = true := by
  rw [toolResultValue]
  by_cases hcontent : result.content = "" <;> by_cases herror : result.error = ""
  · rw [if_pos hcontent, if_pos herror]
    rfl
  · rw [if_pos hcontent, if_neg herror]
    rfl
  · rw [if_neg hcontent, if_pos herror]
    rfl
  · rw [if_neg hcontent, if_neg herror]
    rfl

theorem toolCallOf_toolCallValue (call : ToolCall) : toolCallOf (toolCallValue call) = call := by
  obtain ⟨id, name, arguments⟩ := call
  have hmembers : structField "function" (membersOf (toolCallValue ⟨id, name, arguments⟩)) =
      [(literal "arguments", ofString arguments), (literal "name", ofString name)] := rfl
  rw [toolCallOf, hmembers]
  congr 1
  · exact readString_literal id
  · exact readString_literal name
  · exact readString_literal arguments

theorem fitsToolCalls_map (calls : List ToolCall) :
    fitsToolCalls (.arr (calls.map toolCallValue)) = true := by
  rw [fitsToolCalls, fitsSlice, List.all_map, List.all_eq_true]
  intro call _
  rfl

/-- The calls are read back whatever their texts are. -/
theorem parseToolCalls_marshal (calls : List ToolCall) :
    parseToolCalls (marshal (.arr (calls.map toolCallValue))) = some calls := by
  rw [parseToolCalls, unmarshal_marshal (valid_items valid_toolCallValue calls)]
  dsimp only
  have hinverse : toolCallOf ∘ toolCallValue = id := funext toolCallOf_toolCallValue
  rw [if_pos (fitsToolCalls_map calls), itemsOf, List.map_map, hinverse, List.map_id]

/-- A context is read back up to an index that is an `int`. -/
theorem fitsContext_contextValue {context : ExecutionContext}
    (h : context.pendingToolCallIndex ≤ 9223372036854775807) :
    fitsContext (contextValue context) = true := by
  have hfits : fitsContext (contextValue context) =
      (fitsInt (ofNat context.pendingToolCallIndex) &&
        (((context.completedToolResults.map toolResultValue).all fitsToolResult) && true)) := rfl
  rw [hfits, fitsInt_ofNat h, Bool.and_true, Bool.true_and, List.all_map, List.all_eq_true]
  exact fun result _ => fitsToolResult_toolResultValue result

theorem parseContextAgent_marshal {context : ExecutionContext}
    (h : context.pendingToolCallIndex ≤ 9223372036854775807) :
    parseContextAgent (marshal (contextValue context)) =
      some (context.agentName, context.agentNamespace) := by
  rw [parseContextAgent, unmarshal_marshal (valid_contextValue context)]
  dsimp only
  rw [if_pos (fitsContext_contextValue h)]
  congr 2
  · exact readString_literal context.agentName
  · exact readString_literal context.agentNamespace

/-! ### Requests -/

/-- An agent that admission lets in. Names and namespaces are not empty, durations have 64 bits, and
the schema limits the policies of built-in tools too. -/
structure Accepted (crd : AgentCRD) : Prop where
  validated : validateAgent (.ok ()) (.ok ()) crd.tools = .ok ()
  name : crd.name ≠ ""
  ns : crd.namespace ≠ ""
  timeouts : ∀ t ∈ crd.tools, ∀ approval, t.approval = some approval → ∀ d,
    approval.timeout = some d → -9223372036854775808 ≤ d ∧ d < 9223372036854775808
  builtIn : ∀ t ∈ crd.tools, t.type = "built-in" → ∀ approval, t.approval = some approval →
    approval.onTimeout ∈ ["", "reject", "proceed"]

/-- An approval request that an accepted agent raises, itself or through an agent that is a tool of
it. -/
inductive Raised : ApprovalRequiredError → Prop
  | intro {k : K8sClient} {crd : AgentCRD} {A : Agent} {W : Type} {env : Env W}
    {calls : List ToolCall} {p q : Progress W} {e : ApprovalRequiredError}
    (accepted : Accepted crd) (made : makeAgent k crd = .ok A)
    (nested : ∀ w executor call e', (env.run w executor call).1.2 = some (.approvalRequired e') →
      Raised e')
    (h : A.executeToolCalls env calls p = (some (.approvalRequired e), q)) : Raised e

/-- What an approval request keeps of the agent that raised it. -/
structure Encodable (e : ApprovalRequiredError) : Prop where
  timeout : ∀ d, e.config.timeout = some d → -9223372036854775808 ≤ d ∧ d < 9223372036854775808
  onTimeout : e.config.onTimeout ∈ ["", "reject", "proceed"]
  index : e.context.pendingToolCallIndex ≤ 9223372036854775807
  agentName : e.context.agentName ≠ ""
  agentNamespace : e.context.agentNamespace ≠ ""

theorem validateAgentTool_of_mem {tools : List AgentTool} {index : ℕ}
    (h : validateAgentTools index tools = .ok ()) {t : AgentTool} (ht : t ∈ tools) :
    ∃ i, validateAgentTool i t = .ok () := by
  induction tools generalizing index with
  | nil => cases ht
  | cons tool tools ih =>
    rw [validateAgentTools] at h
    obtain ⟨⟨⟩, hfirst, hrest⟩ := bind_eq_ok.mp h
    obtain rfl | ht := List.mem_cons.mp ht
    · exact ⟨index, hfirst⟩
    · exact ih hrest ht

theorem onTimeout_of_validated {t : AgentTool} {index : ℕ} (htype : t.type ≠ "built-in")
    (h : validateAgentTool index t = .ok ()) {approval : ToolApprovalConfig}
    (happroval : t.approval = some approval) : approval.onTimeout ∈ ["", "reject", "proceed"] := by
  rw [validateAgentTool, if_neg htype] at h
  split at h
  · split at h
    · cases h
    · rw [validateToolApprovalConfig, happroval] at h
      dsimp only at h
      split at h
      · cases h
      · split at h
        · cases h
        next hpolicy =>
          simp only [List.mem_cons, List.not_mem_nil, or_false]
          by_contra hcontra
          simp only [not_or] at hcontra
          exact hpolicy (by simp [hcontra])
  · cases h

theorem approvalMap_eq_some {tools : List AgentTool} {m : String → Option ToolApprovalConfig}
    {name : String} {config : ToolApprovalConfig} (h : approvalMap m tools name = some config) :
    (∃ t ∈ tools, t.approval = some config) ∨ m name = some config := by
  induction tools generalizing m with
  | nil => exact .inr h
  | cons t tools ih =>
    rw [Agent.approvalMap_cons] at h
    obtain ⟨t', ht', happroval⟩ | h := ih h
    · exact .inl ⟨t', List.mem_cons_of_mem t ht', happroval⟩
    · split at h
      · by_cases hname : name = t.name
        · rw [hname, Function.update_self] at h
          exact .inl ⟨t, List.mem_cons_self, h⟩
        · rw [Function.update_of_ne hname] at h
          exact .inr h
      · exact .inr h

theorem Accepted.config {crd : AgentCRD} (h : Accepted crd) {k : K8sClient} {A : Agent}
    (hmake : makeAgent k crd = .ok A) {name : String} {config : ToolApprovalConfig}
    (hconfig : A.requiresApproval name = some config) :
    (∀ d, config.timeout = some d → -9223372036854775808 ≤ d ∧ d < 9223372036854775808) ∧
      config.onTimeout ∈ ["", "reject", "proceed"] := by
  rw [Agent.requiresApproval, (Agent.makeAgent_spec hmake).2] at hconfig
  obtain ⟨t, ht, happroval⟩ | hnone := approvalMap_eq_some hconfig
  · refine ⟨h.timeouts t ht config happroval, ?_⟩
    by_cases htype : t.type = "built-in"
    · exact h.builtIn t ht htype config happroval
    · have hvalidated : validateAgentTools 0 crd.tools = .ok () := h.validated
      obtain ⟨i, hi⟩ := validateAgentTool_of_mem hvalidated ht
      exact onTimeout_of_validated htype hi happroval
  · cases hnone

/-- A request that the second pass raises was raised by an executor. -/
theorem runToolCalls_approvalRequired {W : Type} {A : Agent} {env : Env W} {calls : List ToolCall}
    {p q : Progress W} {e : ApprovalRequiredError}
    (h : A.runToolCalls env calls p = (some (.approvalRequired e), q)) :
    ∃ w executor call, (env.run w executor call).1.2 = some (.approvalRequired e) := by
  induction calls generalizing p with
  | nil => cases h
  | cons call calls ih =>
    rw [Agent.runToolCalls] at h
    split at h
    · cases h
    · rw [Agent.executeToolCall, Agent.executeTool] at h
      cases hr : A.tools.executors call.name with
      | none =>
        simp only [hr] at h
        cases h
      | some r =>
        simp only [hr] at h
        cases herr : (env.run p.world r.executor call).1.2 with
        | none =>
          simp only [herr] at h
          exact ih h
        | some err =>
          simp only [herr] at h
          refine ⟨p.world, r.executor, call, ?_⟩
          cases err with
          | approvalRequired e' =>
            obtain ⟨he, -⟩ := Prod.mk.inj h
            cases he
            exact herr
          | failed => cases h
          | terminateTeam => cases h
          | selectionMade => cases h

theorem Raised.encodable {e : ApprovalRequiredError} (h : Raised e) : Encodable e := by
  induction h with
  | intro accepted made nested h ih =>
    rename_i k crd A W env calls p q e
    unfold Agent.executeToolCalls at h
    dsimp only at h
    cases hgate : calls.findSome? fun call => A.requiresApproval call.name with
    | some config =>
      rw [hgate] at h
      obtain ⟨call, -, hconfig⟩ := List.exists_of_findSome?_eq_some hgate
      obtain ⟨htimeout, honTimeout⟩ := accepted.config made hconfig
      obtain ⟨-, -, hagent⟩ := bind_eq_ok.mp made
      obtain ⟨tools, -, hagent⟩ := bind_eq_ok.mp hagent
      cases hagent
      cases h
      exact ⟨htimeout, honTimeout, Nat.zero_le _, accepted.name, accepted.ns⟩
    | none =>
      rw [hgate] at h
      obtain ⟨w, executor, call, hrun⟩ := runToolCalls_approvalRequired h
      exact ih w executor call e hrun

/-! ### Survival -/

/-- The formats of the standard library, and any reading of a decision. -/
def goFormats (x : GoTime.Scaling) (decision : String → Except String String) : Formats where
  parseDuration := GoTime.parseDuration x
  durationString := GoTime.durationString
  decision := decision

/-- The phase that an approval setting asks for at the time `now`, if any. -/
def timeoutPhase (config : ToolApprovalConfig) (start now : Int) : Option A2APhase :=
  match config.timeout with
  | none => none
  | some timeout =>
    if now < start + timeout then none
    else some (if config.onTimeout = "proceed" then .completed else .failed)

/-- `t'` is the task `t` after a decision, by the timeout or by the user's input. -/
def TaskResource.DecidedAs (f : Formats) (t t' : TaskResource) : Prop :=
  ∃ input now s, { t with input := input }.decideApproval f now = some s ∧
    t' = { t with input := input, status := s }

/-- The stored task `t` keeps what the request `e` said: the timeout and its policy for the
controller, the calls and the agent for the resumption. -/
structure Recovers (f : Formats) (e : ApprovalRequiredError) (start : Int) (t : TaskResource) :
    Prop where
  timeout : ∀ now, (t.approval.checkApprovalTimeout f now).map (Option.map A2ATask.phase) =
    .ok (timeoutPhase e.config start now)
  toolCalls : ∀ t', t.DecidedAs f t' → ∀ unmarshalError,
    t'.resumptionToolCalls unmarshalError = .ok e.toolCalls
  agent : ∀ t', t.DecidedAs f t' → ∀ s,
    t'.resumptionAgent s = (e.context.agentName, e.context.agentNamespace)

/-- An approval request becomes a task, and whatever status the creation of its A2ATask writes over,
the stored task keeps what the request said. -/
def Survives (f : Formats) (s : ExecutionState) (e : ApprovalRequiredError) : Prop :=
  ∃ request, s.handleApprovalRequired e = .task request ∧
    ∀ taskID now start agentName ns queryName status t,
      newA2ATask f now (approvalTask f taskID request) agentName ns queryName none = .ok t →
      Recovers f e start { t with
        status := creatorStatus start (approvalTask f taskID request) status }

section Survival

variable {x : GoTime.Scaling} {decision : String → Except String String}

theorem durationString_ne_empty (x : GoTime.Scaling) {d : Int}
    (h : -9223372036854775808 ≤ d ∧ d < 9223372036854775808) : GoTime.durationString d ≠ "" := by
  intro hempty
  have hread := GoTime.parseDuration_durationString x h
  rw [hempty] at hread
  cases hread

/-- The controller applies the configured timeout and policy to the texts of a request. -/
theorem checkApprovalTimeout_phase {t : A2ATask} {config : ToolApprovalConfig} {start d : Int}
    (hd : -9223372036854775808 ≤ d ∧ d < 9223372036854775808) (htimeout : config.timeout = some d)
    (hpolicy : config.onTimeout ∈ ["", "reject", "proceed"])
    (hmetadata : t.protocolMetadata =
      some [("timeout", GoTime.durationString d), ("onTimeout", config.onTimeout)])
    (hstart : t.startTime = some start) (now : Int) :
    (t.checkApprovalTimeout (goFormats x decision) now).map (Option.map A2ATask.phase) =
      .ok (timeoutPhase config start now) := by
  have hread : (goFormats x decision).parseDuration (GoTime.durationString d) = .ok d :=
    GoTime.parseDuration_durationString x hd
  have hlookup : [("timeout", GoTime.durationString d), ("onTimeout", config.onTimeout)].lookup
      "timeout" = some (GoTime.durationString d) := rfl
  have hlookup' : [("timeout", GoTime.durationString d), ("onTimeout", config.onTimeout)].lookup
      "onTimeout" = some config.onTimeout := rfl
  rw [A2ATask.checkApprovalTimeout, hmetadata, timeoutPhase, htimeout]
  simp only [hlookup, hlookup', Option.getD_some]
  rw [if_neg (durationString_ne_empty x hd), hread]
  simp only [hstart]
  by_cases hnow : now < start + d
  · rw [if_pos hnow, if_pos hnow]
    rfl
  · rw [if_neg hnow, if_neg hnow]
    simp only [List.mem_cons, List.not_mem_nil, or_false] at hpolicy
    obtain hempty | hreject | hproceed := hpolicy
    · rw [hempty]
      rfl
    · rw [hreject]
      rfl
    · rw [hproceed]
      rfl

theorem TaskResource.decided_metadata (t : TaskResource) (now : Int) (a : A2ATask) :
    (t.decided now a).protocolMetadata = t.status.protocolMetadata := by
  unfold TaskResource.decided
  dsimp only
  cases a.condition <;> rfl

/-- A decision leaves the metadata alone. -/
theorem TaskResource.decideApproval_metadata {f : Formats} {t : TaskResource} {now : Int}
    {s : TaskStatus} (h : t.decideApproval f now = some s) :
    s.protocolMetadata = t.status.protocolMetadata := by
  unfold TaskResource.decideApproval at h
  split at h
  · cases h
    exact t.decided_metadata now _
  · split at h
    · obtain ⟨a, -, rfl⟩ := Option.map_eq_some_iff.mp h
      exact t.decided_metadata now a
    · cases h
  · split at h
    · obtain ⟨a, -, rfl⟩ := Option.map_eq_some_iff.mp h
      exact t.decided_metadata now a
    · cases h

theorem TaskResource.DecidedAs.metadata {f : Formats} {t t' : TaskResource}
    (h : t.DecidedAs f t') : t'.contextID = t.contextID ∧
      t'.status.protocolMetadata = t.status.protocolMetadata := by
  obtain ⟨input, now, s, hs, rfl⟩ := h
  have hmetadata := TaskResource.decideApproval_metadata hs
  exact ⟨rfl, hmetadata⟩

/-- After its timeout a task is decided. -/
theorem TaskResource.decidedAs_of_timeout {f : Formats} {t : TaskResource} {now : Int}
    {phase : A2APhase}
    (h : (t.approval.checkApprovalTimeout f now).map (Option.map A2ATask.phase) =
      .ok (some phase)) : ∃ t', t.DecidedAs f t' := by
  cases hcheck : t.approval.checkApprovalTimeout f now with
  | error e =>
    rw [hcheck] at h
    cases h
  | ok result =>
    cases result with
    | none =>
      rw [hcheck] at h
      cases h
    | some a =>
      refine ⟨{ t with status := t.decided now a }, t.input, now, t.decided now a, ?_, rfl⟩
      unfold TaskResource.decideApproval
      rw [hcheck]

/-- The metadata of a stored approval task. -/
theorem creatorStatus_metadata (f : Formats) (taskID : String) (request : ApprovalRequest)
    (start : Int) (status : TaskStatus) :
    (creatorStatus start (approvalTask f taskID request) status).protocolMetadata =
      fun k => ([
        ("toolCalls", marshal (.arr (request.toolCalls.map toolCallValue))),
        ("timeout", f.durationString request.timeout),
        ("onTimeout", request.onTimeout),
        ("context", marshal (contextValue request.context))].lookup k) := by
  funext k
  simp only [creatorStatus, populateA2ATaskStatusFromProtocol, approvalTask,
    convertMetadataToStringMap, Option.map_map]
  exact Option.map_id'

theorem newA2ATask_contextID {f : Formats} {now : Int} {task : ProtocolTask}
    {agentName ns queryName : String} {a2aServerRef : Option String} {t : TaskResource}
    (h : newA2ATask f now task agentName ns queryName a2aServerRef = .ok t) :
    t.contextID = task.contextID := by
  rw [newA2ATask] at h
  split at h
  · cases h
  · cases h
    rfl

/-- The timeout that the controller applies to a stored approval task. -/
theorem checkApprovalTimeout_stored {e : ApprovalRequiredError} (he : Encodable e) {d : Int}
    (htimeout : e.config.timeout = some d) {request : ApprovalRequest}
    (hrequest : request.timeout = d) (hpolicy : request.onTimeout = e.config.onTimeout)
    {taskID : String} {start : Int} {status : TaskStatus} {t : TaskResource}
    (ht : t.status = creatorStatus start (approvalTask (goFormats x decision) taskID request) status)
    (now : Int) :
    (t.approval.checkApprovalTimeout (goFormats x decision) now).map (Option.map A2ATask.phase) =
      .ok (timeoutPhase e.config start now) := by
  have hstart : t.approval.startTime = some start := by
    rw [TaskResource.approval, ht]
    rfl
  refine checkApprovalTimeout_phase (he.timeout d htimeout) htimeout he.onTimeout ?_ hstart now
  simp only [TaskResource.approval, ht, creatorStatus_metadata, hrequest, hpolicy]
  rfl

/-- A request that becomes a task and has a context survives. -/
theorem recovers_stored {e : ApprovalRequiredError} (he : Encodable e) {s : ExecutionState}
    (hcontext : s.conversationId ≠ "") {d : Int} (htimeout : e.config.timeout = some d) :
    Survives (goFormats x decision) s e := by
  refine ⟨_, by rw [ExecutionState.handleApprovalRequired, htimeout], ?_⟩
  intro taskID now start agentName ns queryName status t ht
  refine ⟨?_, ?_, ?_⟩
  · intro now
    exact checkApprovalTimeout_stored he htimeout rfl rfl rfl now
  · intro t' hdecided unmarshalError
    obtain ⟨hid, hmetadata⟩ := hdecided.metadata
    have hid' : t'.contextID = s.conversationId := hid.trans (newA2ATask_contextID ht)
    have htext : t'.status.protocolMetadata "toolCalls" =
        some (marshal (.arr (e.toolCalls.map toolCallValue))) := by
      rw [hmetadata]
      dsimp only
      rw [creatorStatus_metadata]
      rfl
    rw [TaskResource.resumptionToolCalls, hid', if_neg hcontext, htext]
    dsimp only
    rw [parseToolCalls_marshal]
  · intro t' hdecided s'
    obtain ⟨-, hmetadata⟩ := hdecided.metadata
    have htext : t'.status.protocolMetadata "context" =
        some (marshal (contextValue e.context)) := by
      rw [hmetadata]
      dsimp only
      rw [creatorStatus_metadata]
      rfl
    rw [TaskResource.resumptionAgent, htext, Option.bind_some, parseContextAgent_marshal he.index]
    dsimp only
    rw [if_pos he.agentName, if_pos he.agentNamespace]

/-- An approval request survives exactly if its setting has a timeout and the query a
conversation. -/
theorem approval_survives_iff {s : ExecutionState} {e : ApprovalRequiredError} (h : Raised e) :
    Survives (goFormats x decision) s e ↔ e.config.timeout.isSome ∧ s.conversationId ≠ "" := by
  have he := h.encodable
  constructor
  · rintro ⟨request, hrequest, hrecovers⟩
    cases htimeout : e.config.timeout with
    | none =>
      rw [ExecutionState.handleApprovalRequired, htimeout] at hrequest
      cases hrequest
    | some d =>
      refine ⟨rfl, fun hcontext => ?_⟩
      rw [ExecutionState.handleApprovalRequired, htimeout] at hrequest
      cases hrequest
      have hstored := hrecovers "task" 0 0 "agent" "default" "query" {} _ rfl
      have hexpired := hstored.timeout d
      rw [timeoutPhase, htimeout] at hexpired
      dsimp only at hexpired
      rw [if_neg (by omega)] at hexpired
      obtain ⟨t', hdecided⟩ := TaskResource.decidedAs_of_timeout hexpired
      have hid : t'.contextID = "" := hdecided.metadata.1.trans hcontext
      have hcalls := hstored.toolCalls t' hdecided id
      rw [TaskResource.resumptionToolCalls, if_pos hid] at hcalls
      cases hcalls
  · rintro ⟨htimeout, hcontext⟩
    obtain ⟨d, hd⟩ := Option.isSome_iff_exists.mp htimeout
    exact recovers_stored he hcontext hd

end Survival

/-! ### A request without a timeout -/

/-- An agent whose only tool asks for approval, for as long as `timeout` says. -/
def recordsCRD (timeout : Option Int) : AgentCRD where
  name := "operator"
  «namespace» := "default"
  tools := [{
    type := "http"
    name := "delete-record"
    approval := some ⟨true, timeout, "reject"⟩ }]

def deletion : ToolCall := ⟨"call-1", "delete-record", "\x7b\"id\": \"7\"\x7d"⟩

def deletionRequest (timeout : Option Int) : ApprovalRequiredError where
  toolCalls := [deletion]
  config := ⟨true, timeout, "reject"⟩
  context := ⟨"", 0, [], "operator", "default"⟩

def operatorQuery (A : Agent) : ExecutionState where
  «namespace» := "default"
  target := .agent A ""
  conversationId := "conversation-1"
  input := "Delete record 7."

theorem raised_deletionRequest {timeout : Option Int}
    (hvalidated : validateAgent (.ok ()) (.ok ()) (recordsCRD timeout).tools = .ok ())
    (htimeout : ∀ d, timeout = some d → -9223372036854775808 ≤ d ∧ d < 9223372036854775808) :
    Raised (deletionRequest timeout) := by
  have haccepted : Accepted (recordsCRD timeout) := by
    refine ⟨hvalidated, by simp [recordsCRD], by simp [recordsCRD], ?_, ?_⟩
    · intro t ht approval happroval d hd
      obtain rfl := List.mem_singleton.mp ht
      cases happroval
      exact htimeout d hd
    · intro t ht htype
      obtain rfl := List.mem_singleton.mp ht
      exact absurd htype (by simp)
  obtain ⟨A, hA⟩ : ∃ A, makeAgent Agent.recordClient (recordsCRD timeout) = .ok A := ⟨_, rfl⟩
  have hnested : ∀ (w : Unit) executor call e', (Agent.deletingEnv.run w executor call).1.2 =
      some (.approvalRequired e') → Raised e' := by
    intro w executor call e' hrun
    cases hrun
  have hrun : A.executeToolCalls Agent.deletingEnv [deletion] ⟨(), [], [], []⟩ =
      (some (.approvalRequired (deletionRequest timeout)), ⟨(), [], [], []⟩) := by
    cases hA
    rfl
  exact .intro haccepted hA hnested hrun

/-- Whole quotients are exact, whatever is done with the others. -/
def flooring : GoTime.Scaling where
  scaled := fun f unit scale => f * unit / scale
  exact := fun f _ _ hdvd _ _ => Nat.mul_div_assoc f hdvd

theorem approval_survives_sixty_seconds :
    ∃ A, makeAgent Agent.recordClient (recordsCRD (some 60000000000)) = .ok A ∧
      Survives (goFormats flooring .ok) (operatorQuery A) (deletionRequest (some 60000000000)) := by
  have hraised : Raised (deletionRequest (some 60000000000)) := by
    refine raised_deletionRequest rfl fun d hd => ?_
    cases hd
    decide
  refine ⟨_, rfl, ?_⟩
  exact (approval_survives_iff hraised).mpr ⟨rfl, by simp [operatorQuery]⟩

/-- A setting without a timeout is accepted, and its approval request ends in a nil pointer. -/
theorem approval_without_timeout_panics :
    validateAgent (.ok ()) (.ok ()) (recordsCRD none).tools = .ok () ∧
      ∃ A, makeAgent Agent.recordClient (recordsCRD none) = .ok A ∧
        Raised (deletionRequest none) ∧
        (operatorQuery A).handleApprovalRequired (deletionRequest none) = .panicked ∧
        ∀ f, ¬ Survives f (operatorQuery A) (deletionRequest none) := by
  refine ⟨rfl, _, rfl, ?_, rfl, ?_⟩
  · exact raised_deletionRequest rfl fun d hd => by cases hd
  · rintro f ⟨request, hrequest, -⟩
    cases hrequest

end Ark.A2A
