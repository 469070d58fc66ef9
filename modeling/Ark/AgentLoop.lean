import Ark.AgentTools

/-!
# The agent loop

A local agent alternates model calls and tool calls. `executeToolCalls` first looks for calls whose
name asks for approval and, if there is one, gives up the reply before any call of it has run. A run
that was given up is taken up again by `resumeFromApproval`.

The model, the tool executors and the state of the world that they act on are an `Env`; a loop is run
for a number of rounds. Every run records what was sent to the model and which executors were
invoked. An agent that runs as a tool of another one is part of that tool's executor here.
-/

namespace Ark

structure ToolCall where
  id : String
  name : String
  arguments : String
  deriving DecidableEq, Repr

inductive Message
  | system (content : String)
  | user (content : String)
  | assistant (name : Option String) (content : String) (toolCalls : List ToolCall)
  | tool (content toolCallID : String)
  deriving DecidableEq, Repr

structure ToolResult where
  id : String
  name : String := ""
  content : String := ""
  error : String := ""
  deriving DecidableEq, Repr

structure ExecutionContext where
  conversationID : String
  pendingToolCallIndex : Nat
  completedToolResults : List ToolResult
  agentName : String
  agentNamespace : String
  deriving DecidableEq, Repr

structure ApprovalRequiredError where
  toolCalls : List ToolCall
  config : ToolApprovalConfig
  context : ExecutionContext
  deriving DecidableEq, Repr

/-- The errors of a tool executor; an agent that is a tool may itself ask for an approval. -/
inductive ToolError
  | failed (text : String)
  | terminateTeam
  | selectionMade (selectedName : String)
  | approvalRequired (e : ApprovalRequiredError)
  deriving DecidableEq, Repr

/-- The errors of the agent loop. -/
inductive ExecError
  | cancelled
  | failed (text : String)
  | tool (e : ToolError)
  | approvalRequired (e : ApprovalRequiredError)
  deriving DecidableEq, Repr

/-- A tool's error as the loop returns it, where `errors.As` finds an approval request again. -/
def ToolError.toExecError : ToolError → ExecError
  | .approvalRequired e => .approvalRequired e
  | e => .tool e

structure Choice where
  content : String
  toolCalls : List ToolCall
  deriving DecidableEq, Repr

/-- What a run of an agent shows: the message lists sent to the model and the calls handed to
`ExecuteTool`, each with the executor that answered it, if the registry knows the name. -/
inductive Event
  | sent (messages : List Message)
  | executed (call : ToolCall) (by_ : Option Registered)
  deriving DecidableEq, Repr

/-- The agent's surroundings, over a type `W` of states of the world. An execution engine answers with
texts. -/
structure Env (W : Type) where
  queryConversationId : String
  resolvePrompt : Except String String
  chat : W → List Message → Except String (List Choice) × W
  engine : W → Message → List Message → Except String (List String) × W
  run : W → ToolExecutor → ToolCall → (ToolResult × Option ToolError) × W
  cancelled : W → Bool

structure AgentCRD where
  name : String
  «namespace» : String
  tools : List AgentTool
  dispatchesToEngine : Bool := false
  deriving DecidableEq, Repr

structure Agent where
  name : String
  «namespace» : String
  hasModel : Bool
  dispatchesToEngine : Bool
  tools : ToolRegistry
  approvalRequiredTools : String → Option ToolApprovalConfig

/-- `approvalMap` of `MakeAgent`. -/
def approvalMap (m : String → Option ToolApprovalConfig) :
    List AgentTool → String → Option ToolApprovalConfig
  | [] => m
  | tool :: tools =>
    match tool.approval with
    | some approval =>
      if approval.required then approvalMap (Function.update m tool.name (some approval)) tools
      else approvalMap m tools
    | none => approvalMap m tools

def makeAgent (k : K8sClient) (crd : AgentCRD) : Except String Agent := do
  k.setup
  let tools ← ToolRegistry.new.registerTools k crd.namespace crd.tools
  pure {
    name := crd.name
    «namespace» := crd.namespace
    hasModel := !crd.dispatchesToEngine
    dispatchesToEngine := crd.dispatchesToEngine
    tools := tools
    approvalRequiredTools := approvalMap (fun _ => none) crd.tools }

/-- The state of a loop: its two message lists and the trace so far. -/
structure Progress (W : Type) where
  world : W
  agentMessages : List Message
  newMessages : List Message
  trace : List Event

/-- How far a loop came: still running after the given rounds, or returned. -/
inductive Outcome
  | running
  | returned (messages : Option (List Message)) (err : Option ExecError)
  deriving DecidableEq, Repr

def Progress.say {W : Type} (p : Progress W) (m : Message) : Progress W where
  world := p.world
  agentMessages := p.agentMessages ++ [m]
  newMessages := p.newMessages ++ [m]
  trace := p.trace

def withoutOwnAgentName (agentName : String) : Message → Message
  | .assistant name content toolCalls =>
    .assistant (if name.getD "" = agentName then none else name) content toolCalls
  | m => m

namespace Agent

variable {W : Type} (A : Agent) (env : Env W)

def fullName : String := A.namespace ++ "/" ++ A.name

def requiresApproval (toolName : String) : Option ToolApprovalConfig :=
  A.approvalRequiredTools toolName

/-- `ToolRegistry.ExecuteTool`. -/
def executeTool (call : ToolCall) (p : Progress W) : (ToolResult × Option ToolError) × Progress W :=
  let trace := p.trace ++ [.executed call (A.tools.executors call.name)]
  match A.tools.executors call.name with
  | none =>
    let text := "tool " ++ call.name ++ " not found"
    (({ id := call.id, name := call.name, error := text }, some (.failed text)),
      { p with trace := trace })
  | some r =>
    let (result, world) := env.run p.world r.executor call
    (result, { p with world := world, trace := trace })

def executeToolCall (call : ToolCall) (p : Progress W) :
    (Message × Option ToolError) × Progress W :=
  let ((result, err), p) := A.executeTool env call p
  let content := if result.error ≠ "" then result.error else result.content
  ((.tool content result.id, err), p)

/-- The second pass of `executeToolCalls`. -/
def runToolCalls : List ToolCall → Progress W → Option ExecError × Progress W
  | [], p => (none, p)
  | call :: calls, p =>
    if env.cancelled p.world then (some .cancelled, p)
    else match A.executeToolCall env call p with
      | ((toolMessage, none), p) => runToolCalls calls (p.say toolMessage)
      | ((toolMessage, some e), p) => (some e.toExecError, p.say toolMessage)

def executeToolCalls (toolCalls : List ToolCall) (p : Progress W) :
    Option ExecError × Progress W :=
  let needing := toolCalls.filter fun call => (A.requiresApproval call.name).isSome
  match toolCalls.findSome? fun call => A.requiresApproval call.name with
  | some config =>
    (some (.approvalRequired {
      toolCalls := needing
      config := config
      context := {
        conversationID := env.queryConversationId
        pendingToolCallIndex := 0
        completedToolResults := []
        agentName := A.name
        agentNamespace := A.namespace } }), p)
  | none => A.runToolCalls env toolCalls p

def executeModelCall (p : Progress W) : Except String Choice × Progress W :=
  let messages := p.agentMessages.map (withoutOwnAgentName A.name)
  let (response, world) := env.chat p.world messages
  let p := { p with world := world, trace := p.trace ++ [.sent messages] }
  match response with
  | .error e => (.error ("agent " ++ A.fullName ++ " execution failed: " ++ e), p)
  | .ok [] => (.error ("agent " ++ A.fullName ++ " received empty response"), p)
  | .ok (choice :: _) => (.ok choice, p)

def processAssistantMessage (choice : Choice) : Message :=
  .assistant (some A.name) choice.content choice.toolCalls

/-- The loop that `executeLocally` and `runAgenticLoopFromResumption` share; `onToolError` is what
the latter does to the new messages before it returns a tool error. -/
def agenticLoop (onToolError : ExecError → List Message → List Message) :
    Nat → Progress W → Outcome × Progress W
  | 0, p => (.running, p)
  | rounds + 1, p =>
    if env.cancelled p.world then (.returned (some p.newMessages) (some .cancelled), p)
    else match A.executeModelCall env p with
      | (.error e, p) => (.returned none (some (.failed e)), p)
      | (.ok choice, p) =>
        let p := p.say (A.processAssistantMessage choice)
        if choice.toolCalls = [] then (.returned (some p.newMessages) none, p)
        else match A.executeToolCalls env choice.toolCalls p with
          | (some e, p) => (.returned (some (onToolError e p.newMessages)) (some e), p)
          | (none, p) => agenticLoop onToolError rounds p

def prepareMessages (userInput : Message) (history : List Message) : Except String (List Message) :=
  match env.resolvePrompt with
  | .error e => .error ("agent " ++ A.fullName ++ " prompt resolution failed: " ++ e)
  | .ok prompt => .ok ([.system prompt] ++ history ++ [userInput])

def executeLocally (rounds : Nat) (w : W) (userInput : Message) (history : List Message) :
    Outcome × Progress W :=
  match A.prepareMessages env userInput history with
  | .error e => (.returned none (some (.failed e)), ⟨w, [], [], []⟩)
  | .ok messages =>
    if A.hasModel then A.agenticLoop env (fun _ ms => ms) rounds ⟨w, messages, [], []⟩
    else (.returned none (some (.failed ("agent " ++ A.fullName ++ " has no model configured"))),
      ⟨w, messages, [], []⟩)

def executeAgent (rounds : Nat) (w : W) (userInput : Message) (history : List Message) :
    Outcome × Progress W :=
  if A.dispatchesToEngine then
    match env.engine w userInput history with
    | (.error e, w) => (.returned none (some (.failed e)), ⟨w, [], [], []⟩)
    | (.ok texts, w) =>
      (.returned (some (texts.map fun text => .assistant none text [])) none, ⟨w, [], [], []⟩)
  else A.executeLocally env rounds w userInput history

/-! ### Resumption -/

def resultMessage (result : ToolResult) : Message :=
  .tool (if result.error ≠ "" then result.error else result.content) result.id

/-- `reconstructMessagesForResumption`, from what `memory.GetMessages` returned. -/
def reconstructMessagesForResumption (toolCalls : List ToolCall)
    (approvedResults : List ToolResult) (memory : Except String (List Message))
    (originalInput : List Message) : Except String (List Message × List Message) :=
  match memory with
  | .error e => .error ("failed to fetch conversation history: " ++ e)
  | .ok stored =>
    let base := if stored = [] then originalInput else stored
    let newMessages := .assistant none "" toolCalls :: approvedResults.map resultMessage
    .ok (base ++ newMessages, newMessages)

/-- For a cascading approval the assistant message whose calls were not run is dropped. -/
def handleResumptionToolError : ExecError → List Message → List Message
  | .approvalRequired _, newMessages => newMessages.dropLast
  | _, newMessages => newMessages

def runAgenticLoopFromResumption (rounds : Nat) (p : Progress W) : Outcome × Progress W :=
  A.agenticLoop env handleResumptionToolError rounds p

def resumeFromApproval (rounds : Nat) (w : W) (toolCalls : List ToolCall)
    (approvedResults : List ToolResult) (memory : Except String (List Message))
    (originalInput : List Message) : Outcome × Progress W :=
  if A.hasModel then
    match reconstructMessagesForResumption toolCalls approvedResults memory originalInput with
    | .error e => (.returned none (some (.failed e)), ⟨w, [], [], []⟩)
    | .ok (agentMessages, newMessages) =>
      A.runAgenticLoopFromResumption env rounds ⟨w, agentMessages, newMessages, []⟩
  else (.returned none (some (.failed ("agent " ++ A.fullName ++ " has no model configured"))),
    ⟨w, [], [], []⟩)

end Agent
end Ark
