import Ark.Machine

/-!
# Approval tasks

The task controller decides an approval task in `Reconcile`: it applies the timeout policy first and
looks at the user's decision only if the timeout did nothing. Its status updates succeed only on the
version that it read. A task that an external server works on is polled instead and is not
modelled. What the standard library makes of a duration or of a JSON text is a `Formats`; times are
nanoseconds.
-/

namespace Ark

inductive A2APhase
  | unset
  | pending
  | assigned
  | running
  | inputRequired
  | authRequired
  | completed
  | failed
  | cancelled
  | unknown
  deriving DecidableEq, Repr

def A2APhase.isTerminal : A2APhase → Bool
  | .completed | .failed | .cancelled => true
  | _ => false

/-- The condition of type `A2ATaskCompleted`, the only one the controller sets. -/
structure TaskCondition where
  status : Bool
  reason : String
  message : String
  deriving DecidableEq, Repr

structure A2ATask where
  input : String
  ttl : Option Int
  creationTimestamp : Int
  phase : A2APhase
  error : String
  protocolMetadata : Option (List (String × String))
  startTime : Option Int
  completionTime : Option Int
  condition : Option TaskCondition
  deriving DecidableEq, Repr

/-- `time.ParseDuration`, `Duration.String`, and `json.Unmarshal` into a struct with the field
`decision`. -/
structure Formats where
  parseDuration : String → Except String Int
  durationString : Int → String
  decision : String → Except String String

namespace A2ATask

def setConditionCompleted (t : A2ATask) (status : Bool) (reason message : String) : A2ATask :=
  { t with condition := some ⟨status, reason, message⟩ }

def defaultTaskTTL : Int := 720 * 3600 * 1000000000

/-- The moment from which `reconcileTTL` deletes the task. -/
def expiry (t : A2ATask) : Int := t.creationTimestamp + t.ttl.getD defaultTaskTTL

variable (f : Formats) (now : Int)

def checkApprovalTimeout (t : A2ATask) : Except String (Option A2ATask) :=
  match t.protocolMetadata with
  | none => .ok none
  | some metadata =>
    let timeoutStr := (metadata.lookup "timeout").getD ""
    if timeoutStr = "" then .ok none
    else match f.parseDuration timeoutStr with
      | .error e => .error ("invalid timeout format: " ++ e)
      | .ok timeout =>
        match t.startTime with
        | none => .ok none
        | some startTime =>
          if now < startTime + timeout then .ok none
          else
            let onTimeout := (metadata.lookup "onTimeout").getD ""
            if onTimeout = "proceed" then
              .ok (some ({ t with phase := .completed, completionTime := some now }
                |>.setConditionCompleted true "ApprovalTimeoutProceeded"
                  "Approval timeout exceeded, proceeding per onTimeout policy"))
            else if onTimeout = "reject" ∨ onTimeout = "" then
              .ok (some ({ t with
                phase := .failed
                error := "Approval timeout exceeded after " ++ f.durationString timeout
                completionTime := some now }
                |>.setConditionCompleted true "ApprovalTimeoutRejected"
                  "Approval timeout exceeded, rejecting per onTimeout policy"))
            else .error ("invalid onTimeout value: " ++ onTimeout)

def processApprovalDecision (t : A2ATask) : Option A2ATask :=
  match f.decision t.input with
  | .error e => some ({ t with
      phase := .failed
      error := "Invalid approval decision format: " ++ e
      completionTime := some now }
      |>.setConditionCompleted false "InvalidApprovalDecision"
        ("Failed to parse approval decision: " ++ e))
  | .ok decision =>
    if decision = "" then none
    else if decision = "approved" then
      some ({ t with phase := .completed, completionTime := some now }
        |>.setConditionCompleted true "ApprovalGranted" "User approved the tool calls")
    else if decision = "rejected" then
      some ({ t with
        phase := .failed
        error := "Tool execution rejected by user"
        completionTime := some now }
        |>.setConditionCompleted true "ApprovalRejected" "Tool execution rejected by user")
    else
      some ({ t with
        phase := .failed
        error := "Invalid decision value: " ++ decision
        completionTime := some now }
        |>.setConditionCompleted false "InvalidApprovalDecision"
          ("Unknown decision value: " ++ decision))

def notStarted (t : A2ATask) : A2ATask :=
  { t with phase := if t.phase = A2APhase.unset then A2APhase.pending else t.phase }
    |>.setConditionCompleted false "TaskNotStarted" "Task has not been started yet"

/-- What a reconcile is about to send: nothing, the deletion, or a status update. -/
inductive Verdict
  | nothing
  | delete
  | update (t : A2ATask)
  deriving DecidableEq, Repr

def reconcile (t : A2ATask) : Verdict :=
  if t.expiry ≤ now then .delete
  else if t.condition = none then
    .update t.notStarted
  else if t.phase ≠ .inputRequired then .nothing
  else match t.checkApprovalTimeout f now with
    | .ok (some t') => .update t'
    | .ok none | .error _ =>
      if t.input = "" then .nothing
      else match t.processApprovalDecision f now with
        | some t' => .update t'
        | none => .nothing

/-- How a query takes up the task: not at all, or knowing whether it was approved. -/
def checkResumption (t : A2ATask) : Option Bool :=
  if t.phase = .completed then some true
  else if t.condition.any fun c => c.reason = "ApprovalRejected" ||
      c.reason = "ApprovalTimeoutRejected" then some false
  else none

end A2ATask

/-- A task as it is stored, its earlier versions, the newest first, and the status update that the
controller is about to send, with the version that it was computed from. -/
structure TaskState where
  task : A2ATask
  past : List A2ATask
  deleted : Bool
  clock : Int
  pending : Option (ℕ × A2ATask)
  deriving DecidableEq, Repr

inductive TaskAction
  | reconcile (age : ℕ)
  | commit
  | abandon
  | writeInput (text : String)
  | touch
  | tick (n : ℕ)
  deriving DecidableEq, Repr

namespace TaskState

def store (s : TaskState) (t : A2ATask) : TaskState := { s with task := t, past := s.task :: s.past }

def version (s : TaskState) (age : ℕ) : Option A2ATask := (s.task :: s.past)[age]?

def step (f : Formats) (s : TaskState) : TaskAction → Option TaskState
  | .reconcile age =>
    match s.pending, s.version age with
    | none, some t =>
      match t.reconcile f s.clock with
      | .nothing => some s
      | .delete => some { s with deleted := true }
      | .update t' => some { s with pending := some (s.past.length - age, t') }
    | _, _ => none
  | .commit =>
    match s.pending with
    | some (version, t) =>
      if version = s.past.length ∧ s.deleted = false then
        some { s.store t with pending := none }
      else none
    | none => none
  | .abandon => some { s with pending := none }
  | .writeInput text =>
    if s.deleted then none else some (s.store { s.task with input := text })
  | .touch => if s.deleted then none else some (s.store s.task)
  | .tick n => some { s with clock := s.clock + n }

/-- Tasks that wait for an approval. -/
def machine (f : Formats) : Machine TaskState TaskAction where
  init s := s.task.phase = .inputRequired ∧ s.past = [] ∧ s.deleted = false ∧ s.pending = none
  step := step f

end TaskState
end Ark
