import Ark.AgentLoop
import Ark.Traced

/-!
# Teams

A team executes its members in turns: one after the other, round and round, or as a selector agent
chooses. A member is an agent or again a team. A run is bounded by a number that limits the rounds of
every agent, the turns of every team and the depth of the nesting. It records the turns of members
beside what the agents do, and the replies of agents that call tools which ask for approval. The same
run without approvals is the run of the same members with their `approvalRequiredTools` emptied.

The text of the selector's prompt comes from a template, and the answer of a selector that runs on an
execution engine is read by two functions of its text; all three are fields of `TeamEnv`.
-/

namespace Ark

inductive Signal
  | terminate
  | selectionMade (selectedName : String)
  deriving DecidableEq, Repr

structure ExecutionResult where
  messages : List Message
  signal : Option Signal := none
  deriving DecidableEq, Repr

structure TeamSelectorSpec where
  agent : String
  selectorPrompt : String := ""
  enableTerminateTool : Option Bool := none
  terminatePrompt : String := ""
  deriving DecidableEq, Repr

structure TeamGraphEdge where
  from_ : String
  to_ : String
  deriving DecidableEq, Repr

/-- A team but for its members. -/
structure TeamSpec where
  name : String
  «namespace» : String
  description : String := ""
  strategy : String
  loops : Bool := false
  maxTurns : Option Int := none
  selector : Option TeamSelectorSpec := none
  graph : Option (List TeamGraphEdge) := none
  deriving DecidableEq, Repr

/-- The agent that `loadSelectorAgent` finds, and whether it runs on a named execution engine. -/
structure SelectorAgent where
  agent : Agent
  engineBacked : Bool

inductive Member
  | agent (A : Agent) (description : String)
  | team (spec : TeamSpec) (selectorAgent : Except String SelectorAgent) (members : List Member)

namespace Member

def name : Member → String
  | .agent A _ => A.name
  | .team spec _ _ => spec.name

def description : Member → String
  | .agent _ description => description
  | .team spec _ _ => spec.description

end Member

/-- An error together with what the teams that it passed put in front of it. -/
structure TeamError where
  context : String := ""
  cause : ExecError
  deriving DecidableEq, Repr

/-- A failed member may leave messages. -/
structure TeamFailure where
  result : Option ExecutionResult := none
  err : TeamError
  deriving DecidableEq, Repr

/-- What a run of a team shows. -/
inductive TeamEvent
  | turn (team member : String) (input : Message) (history : List Message)
  | agent (name : String) (e : Event)
  | asked (agent : String) (calls : List ToolCall)
  deriving DecidableEq, Repr

namespace TeamEvent

def isTurn : TeamEvent → Bool
  | .turn _ _ _ _ => true
  | _ => false

def isAsked : TeamEvent → Bool
  | .asked _ _ => true
  | _ => false

def isMark (e : TeamEvent) : Bool := e.isTurn || e.isAsked

end TeamEvent

structure TeamEnv (W : Type) where
  agents : String → Env W
  selectors : String → Env W
  cancelled : W → Bool
  parseTemplate : String → Except String Unit
  render : (template roles participants history : String) → Except String String
  parseEngineTerminate : (reply : String) → (candidates : List String) → Option String
  matchSelectedName : (reply : String) → (candidates : List String) → Except String String

abbrev TeamM (W : Type) := Traced W TeamEvent TeamFailure

namespace Agent

variable {W : Type} (A : Agent)

def withoutApproval : Agent := { A with approvalRequiredTools := fun _ => none }

/-- The calls of a reply to tools that ask for approval. -/
def asking : Message → List ToolCall
  | .assistant _ _ toolCalls => toolCalls.filter fun call => (A.requiresApproval call.name).isSome
  | _ => []

def askedEvents (newMessages : List Message) : List TeamEvent :=
  (newMessages.filter fun m => A.asking m ≠ []).map fun m => .asked A.name (A.asking m)

/-- How `Agent.Execute` ends: the two signals among the errors become results. -/
def ending : Outcome → Ending TeamFailure ExecutionResult
  | .running => .running
  | .returned messages none => .ok ⟨messages.getD [], none⟩
  | .returned messages (some (.tool .terminateTeam)) => .ok ⟨messages.getD [], some .terminate⟩
  | .returned messages (some (.tool (.selectionMade name))) =>
    .ok ⟨messages.getD [], some (.selectionMade name)⟩
  | .returned _ (some e) => .failed ⟨none, ⟨"", e⟩⟩

/-- `Agent.Execute`, with the agent's approval settings or without. -/
def execute (env : Env W) (approvals : Bool) (n : ℕ) (userInput : Message)
    (history : List Message) : TeamM W ExecutionResult := fun w =>
  let run := (if approvals then A else A.withoutApproval).executeAgent env n w userInput history
  { ending := ending run.1
    world := run.2.world
    trace := run.2.trace.map (.agent A.name) ++ A.askedEvents run.2.newMessages }

end Agent

/-! ### Selection -/

/-- How a selection ends without a member; a termination may carry a response with its messages. -/
inductive SelectionError
  | invalidAgent (selectedName : String)
  | toolNotCalled
  | terminate (response : List Message)
  deriving DecidableEq, Repr

def buildHistory (messages : List Message) : String :=
  "\n".intercalate (messages.filterMap fun m => match m with
    | .assistant name content _ => some ("# " ++ name.getD "" ++ ":\n" ++ content ++ "\n")
    | .user content => some ("# user:\n" ++ content ++ "\n")
    | _ => none)

def buildParticipants (members : List Member) : String := ", ".intercalate (members.map (·.name))

def buildRoles (members : List Member) : String :=
  ", ".intercalate (members.map fun m =>
    if m.description ≠ "" then m.name ++ ": " ++ m.description else m.name)

def defaultSelectorPrompt : String :=
  "You are in a role play game. The following roles are available:\n" ++
  "\x7b\x7b.Roles\x7d\x7d.\n" ++
  "Read the following conversation, then use the select-next-speaker tool to select the next role " ++
  "from \x7b\x7b.Participants\x7d\x7d to play.\n\n\x7b\x7b.History\x7d\x7d\n\n" ++
  "Read the above conversation, then use the select-next-speaker tool to select the next role from " ++
  "\x7b\x7b.Participants\x7d\x7d to play."

def defaultTerminatePrompt : String :=
  "If the most recent user message has been given an adequate response, do not return a role. " ++
  "Instead call the terminate tool."

def defaultEngineTerminatePrompt : String :=
  "If the most recent user message has been given an adequate response, do not return a role."

def engineTerminateToken : String := "TERMINATE"

def engineTerminateFallbackToken : String := "TERMINATE_TEAM"

/-- The text of the last assistant message that has any. -/
def extractLastAssistantMessageContent (messages : List Message) : String :=
  (messages.reverse.findSome? fun m => match m with
    | .assistant _ content _ => if content ≠ "" then some content else none
    | _ => none).getD ""

def extractTerminateToolResponse (messages : List Message) : String :=
  (messages.reverse.findSome? fun m => match m with
    | .tool content _ => some content
    | _ => none).getD ""

/-- What a turn leaves: the member's signal and the two message lists that it has added to. -/
structure Accumulated where
  signal : Option Signal
  messages : List Message
  newMessages : List Message

abbrev MemberRun (W : Type) := Member → Message → List Message → TeamM W ExecutionResult

namespace TeamSpec

variable {W : Type} (spec : TeamSpec)

def fullName : String := spec.namespace ++ "/" ++ spec.name

def terminateEnabled : Bool := spec.selector.any fun s => s.enableTerminateTool.getD false

def terminatePromptFor (engineBacked : Bool) (terminateToken : String) : String :=
  let prompt := if engineBacked then defaultEngineTerminatePrompt else defaultTerminatePrompt
  let prompt := match spec.selector with
    | some s => if s.terminatePrompt ≠ "" then s.terminatePrompt else prompt
    | none => prompt
  if engineBacked then prompt ++ "\n\nYou have no tools available. To stop, reply with " ++
    terminateToken ++ " instead of a name, optionally followed by a colon and a closing response " ++
    "to the user."
  else prompt

/-- The selector agent with the tools that a selection leaves it. -/
def selectorTools (A : Agent) : Agent :=
  let selecting : Registered := ⟨.selectNextSpeaker, { type := "builtin", name := "select-next-speaker" }⟩
  let terminating : Registered := ⟨.terminate, { type := "builtin", name := "terminate" }⟩
  let definition (name : String) : ToolDefinition := ⟨name, "", fun _ => none⟩
  let tools := if spec.terminateEnabled then
      ToolRegistry.new.register (definition "terminate") terminating
    else ToolRegistry.new
  { A with tools := tools.register (definition "select-next-speaker") selecting }

def selectingAgent (selector : SelectorAgent) : Agent :=
  if selector.engineBacked then selector.agent else spec.selectorTools selector.agent

def resolveSelectedMember (selectedName : String) (members : List Member) :
    Except SelectionError Member :=
  match members.find? fun m => m.name = selectedName with
  | some member => .ok member
  | none => .error (.invalidAgent selectedName)

def resolveEngineSelection (env : TeamEnv W) (messages : List Message) (members : List Member) :
    Except SelectionError Member :=
  let reply := extractLastAssistantMessageContent messages
  let candidateNames := members.map (·.name)
  let terminated := if spec.terminateEnabled then env.parseEngineTerminate reply candidateNames
    else none
  match terminated with
  | some response =>
    .error (.terminate (if response ≠ "" then [.assistant none response []] else []))
  | none => match env.matchSelectedName reply candidateNames with
    | .ok selectedName => resolveSelectedMember selectedName members
    | .error selected => .error (.invalidAgent selected)

/-- What a selection makes of the selector agent's result. -/
def resolveSelection (env : TeamEnv W) (engineBacked : Bool) (result : ExecutionResult)
    (members : List Member) : Except SelectionError Member :=
  match result.signal with
  | none =>
    if engineBacked then spec.resolveEngineSelection env result.messages members
    else .error .toolNotCalled
  | some (.selectionMade selectedName) => resolveSelectedMember selectedName members
  | some .terminate => .error (.terminate
      (if extractTerminateToolResponse result.messages ≠ "" then result.messages else []))

def selectorMessage (engineBacked : Bool) (terminateToken participantsList prompt : String) :
    String :=
  let message := prompt ++
    if engineBacked then "\n\nIgnore any instruction above to use a tool: no tools are available to " ++
      "you. Reply with only the name of the next speaker, exactly as written in " ++
      participantsList ++ ", and nothing else."
    else "\n\nUse the select-next-speaker tool to express your next speaker selection."
  if spec.terminateEnabled then
    message ++ "\n\n" ++ spec.terminatePromptFor engineBacked terminateToken
  else message

def selectorUserPrompt (engineBacked : Bool) (terminateToken : String) : String :=
  match engineBacked, spec.terminateEnabled with
  | true, false => "Reply with only the name of the next speaker to respond."
  | true, true => "Reply with only the name of the next speaker to respond, or " ++ terminateToken ++
      " (optionally followed by a colon and a closing response) if the original question has been " ++
      "answered."
  | false, false => "Select the next speaker to respond using the select-next-speaker tool."
  | false, true => "Select the next speaker to respond using the select-next-speaker tool, or use " ++
      "the terminate tool if you think the user's original question has been answered."

def selectMember (env : TeamEnv W) (approvals : Bool) (selectorAgent : Except String SelectorAgent)
    (n : ℕ) (messages : List Message) (template : String) (members : List Member) :
    TeamM W (Except SelectionError Member) :=
  match env.render template (buildRoles members) (buildParticipants members)
      (buildHistory messages), selectorAgent with
  | .error e, _ => .fail { err := ⟨"", .failed e⟩ }
  | .ok _, .error e => .fail { err := ⟨"", .failed e⟩ }
  | .ok prompt, .ok selector =>
    if members = [] then pure (.error (.terminate []))
    else do
      let token := if members.any fun m => m.name.toLower = engineTerminateToken.toLower then
          engineTerminateFallbackToken
        else engineTerminateToken
      let system := Message.system
        (spec.selectorMessage selector.engineBacked token (buildParticipants members) prompt)
      let user := Message.user (spec.selectorUserPrompt selector.engineBacked token)
      let A := spec.selectingAgent selector
      let result ← (A.execute (env.selectors A.name) approvals n user [system]).mapError fun e =>
        { err := { e.err with context := "selector agent call failed: " ++ e.err.context } }
      pure (spec.resolveSelection env selector.engineBacked result members)

/-! ### Turns -/

def teamMemberHistory (history : List Message) (userInput : Message) (turns : List Message)
    (turn : ℕ) : List Message :=
  if turn = 0 then history else history ++ [userInput] ++ turns

def memberTurnInput (userInput : Message) (member : Member) (turn : ℕ) : Message :=
  if turn = 0 then userInput
  else .user ("It is your turn, " ++ member.name ++
    ". Respond to the conversation above according to your own instructions.")

def addAgentName (agentName : String) : Message → Message
  | .assistant _ content toolCalls => .assistant (some agentName) content toolCalls
  | m => m

/-- What a team leaves that returns an error with the messages so far. -/
def leaving (newMessages : List Message) (e : TeamFailure) : TeamFailure :=
  { e with result := some ⟨newMessages, none⟩ }

def executeMemberAndAccumulate (execute : MemberRun W) (member : Member) (userInput : Message)
    (messages newMessages : List Message) :
    TeamM W Accumulated := do
  .emit (.turn spec.name member.name userInput messages)
  let result ← (execute member userInput messages).mapError fun e =>
    leaving (newMessages ++
      (e.result.elim [] (·.messages)).map (addAgentName member.name)) e
  let messagesWithName := result.messages.map (addAgentName member.name)
  pure ⟨result.signal, messages ++ messagesWithName, newMessages ++ messagesWithName⟩

def failIfCancelled (cancelled : W → Bool) (newMessages : List Message) : TeamM W Unit := do
  if ← Traced.observe cancelled then .fail (leaving newMessages { err := ⟨"", .cancelled⟩ })

def maxTurnsMessage (maxTurns : Int) : Message :=
  .system ("Team conversation reached maximum turns limit (" ++ toString maxTurns ++ ")")

def executeSequential (cancelled : W → Bool) (execute : MemberRun W) (userInput : Message)
    (history : List Message) : ℕ → List Message → List Member → TeamM W (List Message)
  | _, newMessages, [] => pure newMessages
  | turn, newMessages, member :: members => do
    failIfCancelled cancelled newMessages
    let t ← spec.executeMemberAndAccumulate execute member
      (memberTurnInput userInput member turn)
      (teamMemberHistory history userInput newMessages turn) newMessages
    if t.signal = some .terminate then pure t.newMessages
    else executeSequential cancelled execute userInput history (turn + 1) t.newMessages members

def executeSequentialWithLoops (cancelled : W → Bool) (execute : MemberRun W)
    (members : List Member) (userInput : Message) (history : List Message) :
    ℕ → ℕ → ℕ → List Message → TeamM W (List Message)
  | 0, _, _, _ => .unfinished
  | bound + 1, messageCount, memberIndex, newMessages => do
    failIfCancelled cancelled newMessages
    match spec.maxTurns.filter fun maxTurns => maxTurns ≤ (messageCount : Int),
        members[memberIndex]? with
    | some maxTurns, _ => pure (newMessages ++ [maxTurnsMessage maxTurns])
    | none, none => .fail { err := ⟨"", .failed "runtime error: index out of range"⟩ }
    | none, some member =>
      let t ← (spec.executeMemberAndAccumulate execute member
        (memberTurnInput userInput member messageCount)
        (teamMemberHistory history userInput newMessages messageCount) newMessages).mapError
          fun e => { e with err := { e.err with
            context := "agent " ++ member.name ++ " failed in team " ++ spec.fullName ++ ": " ++
              e.err.context } }
      if t.signal = some .terminate then pure t.newMessages
      else
        executeSequentialWithLoops cancelled execute members userInput history bound
          (messageCount + 1) ((memberIndex + 1) % members.length) t.newMessages

/-! ### The selector strategy -/

def memberLookup (members : List Member) (name : String) : Option Member :=
  members.reverse.find? fun m => m.name = name

/-- The edges of `buildLegalTransitionsMap`. -/
def legalTransitions (members : List Member) : List (String × Member) :=
  (spec.graph.getD []).filterMap fun edge =>
    (memberLookup members edge.to_).map fun member => (edge.from_, member)

def determineNextMember (env : TeamEnv W) (approvals : Bool)
    (selectorAgent : Except String SelectorAgent) (n : ℕ) (members : List Member)
    (messages : List Message) (template previousMember : String) :
    TeamM W (Except SelectionError Member) :=
  let select := spec.selectMember env approvals selectorAgent n messages template
  if spec.legalTransitions members = [] then select members
  else if previousMember = "" then select members
  else match ((spec.legalTransitions members).filter fun t => t.1 = previousMember).map (·.2) with
    | [] => pure (.error (.terminate []))
    | [member] => pure (.ok member)
    | legal => select legal

/-- `handleMemberSelectionError`, for the errors that end the team's run; the others are returned. -/
def handleMemberSelectionError (newMessages : List Message) : SelectionError → List Message
  | .invalidAgent selectedName =>
    newMessages ++ [.system ("Selector returned invalid agent name: " ++ selectedName)]
  | .toolNotCalled =>
    newMessages ++ [.system "Selector agent did not use the select-next-speaker tool"]
  | .terminate response => newMessages ++ response

def checkAndHandleMaxTurns (turn : ℕ) (newMessages : List Message) : Option (List Message) :=
  (spec.maxTurns.filter fun maxTurns => maxTurns ≤ (turn : Int) + 1).map fun maxTurns =>
    newMessages ++ [maxTurnsMessage maxTurns]

def selectorTranscript (history : List Message) (userInput : Message)
    (accumulated : List Message) : List Message :=
  history ++ [userInput] ++ accumulated.drop history.length

/-- The turns of `executeSelector`. -/
def selectorTurns (env : TeamEnv W) (approvals : Bool)
    (selectorAgent : Except String SelectorAgent) (n : ℕ) (execute : MemberRun W)
    (members : List Member) (template : String) (userInput : Message) (history : List Message) :
    ℕ → ℕ → String → List Message → List Message → TeamM W (List Message)
  | 0, _, _, _, _ => .unfinished
  | bound + 1, turn, previousMember, messages, newMessages => do
    let next ← (spec.determineNextMember env approvals selectorAgent n members
      (selectorTranscript history userInput messages) template previousMember).mapError
        (leaving newMessages)
    match next with
    | .error e => pure (handleMemberSelectionError newMessages e)
    | .ok member =>
      let t ← spec.executeMemberAndAccumulate execute member
        userInput messages newMessages
      if t.signal = some .terminate then pure t.newMessages
      else
        match spec.checkAndHandleMaxTurns turn t.newMessages with
        | some newMessages => pure newMessages
        | none =>
          selectorTurns env approvals selectorAgent n execute members template userInput history
            bound (turn + 1) member.name t.messages t.newMessages

def selectorTemplate : String :=
  match spec.selector with
  | some s => if s.selectorPrompt ≠ "" then s.selectorPrompt else defaultSelectorPrompt
  | none => defaultSelectorPrompt

def executeSelector (env : TeamEnv W) (approvals : Bool)
    (selectorAgent : Except String SelectorAgent) (n : ℕ) (execute : MemberRun W)
    (members : List Member) (userInput : Message) (history : List Message) :
    TeamM W (List Message) :=
  match env.parseTemplate spec.selectorTemplate with
  | .error e => .fail (leaving [] { err := ⟨"", .failed e⟩ })
  | .ok () => spec.selectorTurns env approvals selectorAgent n execute members
      spec.selectorTemplate userInput history n 0 "" history []

/-- The function that `Team.Execute` chooses for the strategy. -/
def execFunc (env : TeamEnv W) (approvals : Bool) (selectorAgent : Except String SelectorAgent)
    (n : ℕ) (execute : MemberRun W) (members : List Member) (userInput : Message)
    (history : List Message) : TeamM W (List Message) :=
  match spec.strategy with
  | "sequential" =>
    if spec.loops then
      spec.executeSequentialWithLoops env.cancelled execute members userInput history n 0 0 []
    else spec.executeSequential env.cancelled execute userInput history 0 [] members
  | "selector" =>
    spec.executeSelector env approvals selectorAgent n execute members userInput history
  | strategy => .fail { err := ⟨"", .failed
      ("unsupported strategy " ++ strategy ++ " for team " ++ spec.fullName)⟩ }

/-- `Team.Execute`, over the execution of its members. -/
def execute (env : TeamEnv W) (approvals : Bool) (selectorAgent : Except String SelectorAgent)
    (n : ℕ) (execute : MemberRun W) (members : List Member) (userInput : Message)
    (history : List Message) : TeamM W ExecutionResult :=
  if members = [] then
    .fail { err := ⟨"", .failed ("team " ++ spec.fullName ++ " has no members configured")⟩ }
  else do
    let messages ← spec.execFunc env approvals selectorAgent n execute members userInput history
    pure ⟨messages, none⟩

end TeamSpec

/-- `TeamMember.Execute` within the bound `n`. -/
def Member.execute {W : Type} (env : TeamEnv W) (approvals : Bool) :
    ℕ → Member → Message → List Message → TeamM W ExecutionResult
  | 0, _, _, _ => .unfinished
  | n + 1, .agent A _, userInput, history =>
    A.execute (env.agents A.name) approvals n userInput history
  | n + 1, .team spec selectorAgent members, userInput, history =>
    spec.execute env approvals selectorAgent n (Member.execute env approvals n) members userInput
      history

end Ark
