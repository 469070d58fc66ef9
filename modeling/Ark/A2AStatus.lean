import Ark.ApprovalTask
import Mathlib.Data.List.Basic
import Mathlib.Logic.Function.Basic

/-!
# The status of an A2A task

What a protocol task becomes as the status of its A2ATask resource, and how a later answer of the
server is merged into a status. A value of a `map[string]any` is a string or has the form that `%v`
prints.
-/

namespace Ark.A2A

abbrev StringMap := String → Option String

inductive AnyValue
  | str (s : String)
  | other (printed : String)
  deriving DecidableEq, Repr

def AnyValue.print : AnyValue → String
  | .str s => s
  | .other printed => printed

/-! ### Protocol tasks -/

inductive ProtocolFile
  | withURI (uri : String) (mimeType : Option String)
  | withBytes (bytes : String) (mimeType : Option String)
  | other
  deriving DecidableEq, Repr

inductive ProtocolPart
  | text (text : String)
  | data (data : AnyValue)
  | file (file : ProtocolFile)
  | other
  deriving DecidableEq, Repr

structure ProtocolArtifact where
  artifactID : String
  name : Option String
  description : Option String
  parts : List ProtocolPart
  metadata : String → Option AnyValue

structure ProtocolMessage where
  messageID : String
  role : String
  parts : List ProtocolPart
  metadata : String → Option AnyValue

/-- `protocol.Task`; the last three fields but `metadata` are those of its `Status`. -/
structure ProtocolTask where
  id : String
  contextID : String
  artifacts : List ProtocolArtifact
  history : List ProtocolMessage
  metadata : String → Option AnyValue
  state : String
  message : Option ProtocolMessage
  timestamp : String

/-! ### Stored tasks -/

structure TaskPart where
  kind : String
  text : String := ""
  data : String := ""
  mimeType : String := ""
  uri : String := ""
  metadata : StringMap := fun _ => none

structure TaskArtifact where
  artifactID : String
  name : String
  description : String
  parts : List TaskPart
  metadata : StringMap

structure TaskMessage where
  messageID : String
  role : String
  parts : List TaskPart
  metadata : StringMap

inductive ConditionStatus
  | conditionTrue
  | conditionFalse
  | conditionUnknown
  deriving DecidableEq, Repr

structure Condition where
  type : String
  status : ConditionStatus
  observedGeneration : Int
  lastTransitionTime : Int
  reason : String
  message : String
  deriving DecidableEq, Repr

structure TaskStatus where
  phase : A2APhase := .unset
  conditions : List Condition := []
  startTime : Option Int := none
  completionTime : Option Int := none
  error : String := ""
  protocolState : String := ""
  contextID : String := ""
  artifacts : List TaskArtifact := []
  history : List TaskMessage := []
  protocolMetadata : StringMap := fun _ => none
  lastStatusMessage : Option TaskMessage := none
  lastStatusTimestamp : String := ""

/-! ### Conversion -/

def convertA2AStateToPhase (state : String) : A2APhase :=
  if state = "submitted" then .assigned
  else if state = "working" then .running
  else if state = "input-required" then .inputRequired
  else if state = "auth-required" then .authRequired
  else if state = "completed" then .completed
  else if state = "failed" then .failed
  else if state = "canceled" then .cancelled
  else if state = "rejected" then .failed
  else .unknown

def convertPartFromProtocol : ProtocolPart → TaskPart
  | .text text => { kind := "text", text := text }
  | .data data => { kind := "data", data := data.print }
  | .file (.withURI uri mimeType) => { kind := "file", uri := uri, mimeType := mimeType.getD "" }
  | .file (.withBytes bytes mimeType) =>
    { kind := "file", data := bytes, mimeType := mimeType.getD "" }
  | .file .other => { kind := "file" }
  | .other => { kind := "text", text := "unknown part type" }

def convertMetadataToStringMap (metadata : String → Option AnyValue) : StringMap :=
  fun k => (metadata k).map AnyValue.print

/-- Artifacts without parts are left out. -/
def convertArtifactsFromProtocol (artifacts : List ProtocolArtifact) : List TaskArtifact :=
  (artifacts.filter (! ·.parts.isEmpty)).map fun a =>
    { artifactID := a.artifactID
      name := a.name.getD ""
      description := a.description.getD ""
      parts := a.parts.map convertPartFromProtocol
      metadata := convertMetadataToStringMap a.metadata }

def convertMessageFromProtocol (m : ProtocolMessage) : TaskMessage where
  messageID := m.messageID
  role := m.role
  parts := m.parts.map convertPartFromProtocol
  metadata := convertMetadataToStringMap m.metadata

/-- Messages without parts are left out. -/
def convertHistoryFromProtocol (history : List ProtocolMessage) : List TaskMessage :=
  (history.filter (! ·.parts.isEmpty)).map convertMessageFromProtocol

namespace ProtocolTask

variable (task : ProtocolTask)

def phase : A2APhase := convertA2AStateToPhase task.state

/-- The history with the status message at its end. -/
def fullHistory : List TaskMessage :=
  convertHistoryFromProtocol (task.history ++ task.message.toList)

end ProtocolTask

def populateA2ATaskStatusFromProtocol (status : TaskStatus) (task : ProtocolTask) : TaskStatus :=
  { status with
    protocolState := task.state
    phase := task.phase
    contextID := task.contextID
    artifacts := convertArtifactsFromProtocol task.artifacts
    history := task.fullHistory
    protocolMetadata := convertMetadataToStringMap task.metadata
    lastStatusMessage := task.message.map convertMessageFromProtocol
    lastStatusTimestamp := task.timestamp }

/-! ### Updates -/

def mergeArtifacts (existing new : List TaskArtifact) : List TaskArtifact :=
  existing ++ new.filter fun a => a.artifactID ∉ existing.map (·.artifactID)

/-- The messages that have an identifier which is neither in `seen` nor that of an earlier one. -/
def unseen (seen : List String) : List TaskMessage → List TaskMessage
  | [] => []
  | m :: messages =>
    if m.messageID ≠ "" ∧ m.messageID ∉ seen then m :: unseen (m.messageID :: seen) messages
    else unseen seen messages

def mergeHistory (existing new : List TaskMessage) : List TaskMessage :=
  existing ++ unseen ((existing.map (·.messageID)).filter (· ≠ "")) new

/-- `parse` is `time.Parse` with the layout RFC 3339. -/
def parseProtocolTimestamp (parse : String → Option Int) (timestamp : String) : Option Int :=
  if timestamp = "" then none else parse timestamp

def setTaskTimestamps (parse : String → Option Int) (status : TaskStatus) (oldPhase : A2APhase)
    (task : ProtocolTask) : TaskStatus :=
  let timestamp := parseProtocolTimestamp parse task.timestamp
  { status with
    phase := task.phase
    startTime :=
      if oldPhase = .pending ∧ status.startTime = none then timestamp else status.startTime
    completionTime :=
      if !oldPhase.isTerminal && task.phase.isTerminal then timestamp.or status.completionTime
      else status.completionTime }

def updateA2ATaskStatus (parse : String → Option Int) (status : TaskStatus) :
    Option ProtocolTask → TaskStatus
  | none => status
  | some task =>
    let new := populateA2ATaskStatusFromProtocol {} task
    let merged : TaskStatus := { status with
      artifacts := mergeArtifacts status.artifacts new.artifacts
      history := mergeHistory status.history new.history
      protocolState := new.protocolState
      protocolMetadata := new.protocolMetadata
      contextID := new.contextID
      lastStatusMessage := new.lastStatusMessage
      lastStatusTimestamp := new.lastStatusTimestamp }
    if status.history.isEmpty && status.artifacts.isEmpty then
      setTaskTimestamps parse (populateA2ATaskStatusFromProtocol status task) status.phase task
    else setTaskTimestamps parse merged status.phase task

/-! ### Conditions -/

def completedType : String := "Completed"

/-- `meta.SetStatusCondition`: the transition time changes with the status only. -/
def setStatusCondition (now : Int) (new : Condition) : List Condition → List Condition
  | [] => [{ new with lastTransitionTime := now }]
  | c :: conditions =>
    if c.type = new.type then
      { new with lastTransitionTime := if c.status = new.status then c.lastTransitionTime else now }
        :: conditions
    else c :: setStatusCondition now new conditions

def setConditionCompleted (now generation : Int) (status : ConditionStatus)
    (reason message : String) (s : TaskStatus) : TaskStatus :=
  let completed : Condition :=
    { type := completedType
      status := status
      observedGeneration := generation
      lastTransitionTime := now
      reason := reason
      message := message }
  { s with conditions := setStatusCondition now completed s.conditions }

def updateConditionsAndEvents (now generation : Int) (oldPhase : A2APhase) (s : TaskStatus) :
    TaskStatus :=
  if s.phase = oldPhase then s
  else match s.phase with
    | .pending | .assigned =>
      setConditionCompleted now generation .conditionFalse "TaskPending"
        "Task is pending execution" s
    | .running =>
      setConditionCompleted now generation .conditionFalse "TaskRunning" "Task is running" s
    | .completed =>
      setConditionCompleted now generation .conditionTrue "TaskSucceeded"
        "Task completed successfully" s
    | .failed => setConditionCompleted now generation .conditionTrue "TaskFailed" "Task failed" s
    | .cancelled =>
      setConditionCompleted now generation .conditionTrue "TaskCancelled" "Task was cancelled" s
    | _ => s

end Ark.A2A
