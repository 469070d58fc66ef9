import Ark.Team

/-!
# The executor's handler

`ProcessMessage` executes the target of a query, or resumes the agent that an approval task names. A
pause unwinds the run: what it leaves is the task, with the calls and the agent's name, and what has
been saved to memory. The resumption starts from these.

A dispatch reads the conversation before it runs and adds to it when it is over; `saved` is what it
hands to `AddMessages`, if it is not empty.
-/

namespace Ark

def ToolError.text : ToolError → String
  | .failed text => text
  | .terminateTeam => "TerminateTeam"
  | .selectionMade selectedName => "selection made: " ++ selectedName
  | .approvalRequired e => "approval required for " ++ toString e.toolCalls.length ++ " tool call(s)"

def ExecError.text : ExecError → String
  | .cancelled => "context canceled"
  | .failed text => text
  | .tool e => e.text
  | .approvalRequired e => (ToolError.approvalRequired e).text

def TeamError.text (e : TeamError) : String := e.context ++ e.cause.text

/-- The metadata of the task that `handleApprovalRequired` creates. -/
structure ApprovalRequest where
  contextID : String
  toolCalls : List ToolCall
  timeout : Int
  onTimeout : String
  context : ExecutionContext
  deriving DecidableEq, Repr

inductive Decision
  | approved
  | rejected (timedOut : Bool)
  deriving DecidableEq, Repr

inductive DispatchResponse
  | running
  | message (messages : List Message)
  | task (request : ApprovalRequest)
  | failed (text : String)
  | panicked
  deriving DecidableEq, Repr

structure ExecutionState where
  «namespace» : String
  target : Member
  conversationId : String
  input : String

/-- `getAgent` loads and makes an agent; `printContent` is what `%v` prints for a tool message without
content. -/
structure HandlerEnv (W : Type) extends TeamEnv W where
  getAgent : («namespace» name : String) → Except String Agent
  printContent : String

structure Dispatch (W : Type) where
  response : DispatchResponse
  saved : List Message
  world : W
  trace : List TeamEvent

namespace ExecutionState

variable (s : ExecutionState)

def inputMessages : List Message := [.user s.input]

/-- Without a timeout its duration is read through a nil pointer. -/
def handleApprovalRequired (e : ApprovalRequiredError) : DispatchResponse :=
  match e.config.timeout with
  | none => .panicked
  | some timeout => .task {
      contextID := s.conversationId
      toolCalls := e.toolCalls
      timeout := timeout
      onTimeout := e.config.onTimeout
      context := e.context }

/-- The name and the namespace of the agent to resume. -/
def resolveResumptionAgent (context : ExecutionContext) : String × String :=
  (if context.agentName ≠ "" then context.agentName else s.target.name,
    if context.agentNamespace ≠ "" then context.agentNamespace else s.namespace)

def saveErrorMessages (text : String) : List Message :=
  s.inputMessages ++ [.assistant none ("Error: " ++ text) []]

def saveFinalMessages (isResumption : Bool) (responseMessages : List Message) : List Message :=
  if responseMessages = [] then []
  else if isResumption then responseMessages
  else s.inputMessages ++ responseMessages

end ExecutionState

namespace HandlerEnv

variable {W : Type} (H : HandlerEnv W)

/-- The response to a first execution, with what it saves. -/
def executeResponse (s : ExecutionState) :
    Ending TeamFailure ExecutionResult → DispatchResponse × List Message
  | .running => (.running, [])
  | .ok result => (.message result.messages, s.saveFinalMessages false result.messages)
  | .failed e =>
    match e.err.cause with
    | .approvalRequired a => (s.handleApprovalRequired a, s.inputMessages)
    | _ => (.failed ("execution failed: " ++ e.err.text), s.saveErrorMessages e.err.text)

/-- The first execution of a query, given the conversation that `GetMessages` returned. -/
def execute (approvals : Bool) (n : ℕ) (w : W) (s : ExecutionState) (history : List Message) :
    Dispatch W :=
  let r := s.target.execute H.toTeamEnv approvals n (.user s.input) history w
  { response := (executeResponse s r.ending).1
    saved := (executeResponse s r.ending).2
    world := r.world
    trace := r.trace }

/-- The result of an approved call, from the tool message and the error of `executeToolCall`. -/
def approvedResult (call : ToolCall) : Message × Option ToolError → ToolResult
  | (_, some e) => { id := call.id, content := "Error executing tool: " ++ e.text }
  | (.tool content _, none) =>
    { id := call.id, content := if content ≠ "" then content else H.printContent }
  | (_, none) => { id := call.id, content := H.printContent }

def executeApprovedCalls (A : Agent) :
    List ToolCall → Progress W → List ToolResult × Progress W
  | [], p => ([], p)
  | call :: calls, p =>
    let (outcome, p) := A.executeToolCall (H.agents A.name) call p
    let (results, p) := executeApprovedCalls A calls p
    (H.approvedResult call outcome :: results, p)

def rejectionError (timedOut : Bool) : String :=
  if timedOut then "Tool execution rejected: approval timeout exceeded"
  else "Tool execution rejected by user"

def decidedResults (A : Agent) (w : W) (toolCalls : List ToolCall) :
    Decision → List ToolResult × Progress W
  | .approved => H.executeApprovedCalls A toolCalls ⟨w, [], [], []⟩
  | .rejected timedOut =>
    (toolCalls.map fun call =>
      { id := call.id, name := call.name, error := rejectionError timedOut }, ⟨w, [], [], []⟩)

/-- The response to a resumption, with what it saves. -/
def resumeResponse (s : ExecutionState) : Outcome → DispatchResponse × List Message
  | .running => (.running, [])
  | .returned messages none =>
    (.message (messages.getD []), s.saveFinalMessages true (messages.getD []))
  | .returned messages (some (.approvalRequired e)) =>
    (s.handleApprovalRequired e, messages.getD [])
  | .returned _ (some e) =>
    (.failed ("resumption failed: failed to resume agent execution: " ++ e.text), [])

/-- `handleResumption`, given what `GetMessages` returns. -/
def resume (n : ℕ) (w : W) (s : ExecutionState) (memory : Except String (List Message))
    (request : ApprovalRequest) (decision : Decision) : Dispatch W :=
  if request.contextID = "" then
    ⟨.failed "resumption failed: A2ATask has no contextId for memory retrieval", [], w, []⟩
  else
    let agent := s.resolveResumptionAgent request.context
    match H.getAgent agent.2 agent.1 with
    | .error e => ⟨.failed ("resumption failed: " ++ e), [], w, []⟩
    | .ok A =>
      let (results, p) := H.decidedResults A w request.toolCalls decision
      let (outcome, q) := A.resumeFromApproval (H.agents A.name) n p.world request.toolCalls results
        memory s.inputMessages
      { response := (resumeResponse s outcome).1
        saved := (resumeResponse s outcome).2
        world := q.world
        trace := (p.trace ++ q.trace).map (.agent A.name) }

/-! ### A query whose approval requests are granted -/

/-- Go on after the dispatch `d` for as long as there are approval requests, at most `k` times. The
memory stores what it is given. -/
def granted (n : ℕ) (s : ExecutionState) : ℕ → List Message → Dispatch W → List TeamEvent
  | 0, _, d => d.trace
  | k + 1, memory, d =>
    match d.response with
    | .task request =>
      d.trace ++ granted n s k (memory ++ d.saved)
        (H.resume n d.world s (.ok (memory ++ d.saved)) request .approved)
    | _ => d.trace

/-- The run of a query with every approval request granted, within the bound `n`. -/
def approvedRun (s : ExecutionState) (w : W) (memory : List Message) (n : ℕ) : List TeamEvent :=
  H.granted n s n memory (H.execute true n w s memory)

/-- The run of the query with the approval settings removed, within the bound `n`. -/
def plainRun (s : ExecutionState) (w : W) (memory : List Message) (n : ℕ) : List TeamEvent :=
  (H.execute false n w s memory).trace

end HandlerEnv

/-- Two runs, each given by its traces within growing bounds, show the same. -/
def SameRun {E : Type} (f g : ℕ → List E) : Prop :=
  (∀ n, ∃ m, f n <+: g m) ∧ ∀ n, ∃ m, g n <+: f m

end Ark
