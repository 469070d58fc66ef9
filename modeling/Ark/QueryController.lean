import Ark.Machine
import Ark.Slots

/-!
# The query controller and its executor, for one query

A query is stored as a sequence of versions; a reconcile or a goroutine may read any of them from
its cache, the executor reads the current one. Status writes go through `mutateStatus`, which refetches,
applies its mutation and writes only if nothing intervened, so a write that succeeds acts on the
current version. `executeQueryAsync` runs as numbered executions, of which the entry of `operations`
names at most one; each dispatch is a run of the executor's `ProcessMessage`.

The last three fields of the state record what has happened and are read by no step.
-/

namespace Ark

inductive QueryPhase
  | unset
  | pending
  | provisioning
  | queued
  | running
  | inputRequired
  | done
  | error
  | canceled
  deriving DecidableEq, Repr

def QueryPhase.isTerminal : QueryPhase → Bool
  | .done | .error | .canceled => true
  | _ => false

def QueryPhase.isPreExecution : QueryPhase → Bool
  | .unset | .pending | .provisioning | .queued => true
  | _ => false

/-- The task that `status.response.a2a.taskID` names: one that waits for an approval, or one of an
external agent. -/
inductive TaskRef
  | approval (id : ℕ)
  | external
  deriving DecidableEq, Repr

structure Response where
  taskID : Option TaskRef
  deriving DecidableEq, Repr

/-- A stored version; `started` says that it has conditions. -/
structure Query where
  phase : QueryPhase
  response : Option Response
  cancel : Bool
  deleting : Bool
  finalizer : Bool
  started : Bool
  deriving DecidableEq, Repr

def Query.taskID (q : Query) : Option TaskRef := q.response.bind (·.taskID)

/-- The query as the user creates it. -/
def Query.new : Query := ⟨.unset, none, false, false, false, false⟩

/-- The mutation of a status write: `updateStatus` with its saved response, or
`failQueryOnTimeout`. -/
structure StatusWrite where
  phase : QueryPhase
  saved : Option Response
  timeout : Bool := false
  deriving DecidableEq, Repr

namespace StatusWrite

def failOnTimeout : StatusWrite := ⟨.error, none, true⟩

/-- What the mutation makes of the refetched query; a timeout declines a terminal one. -/
def apply (w : StatusWrite) (q : Query) : Option Query :=
  if w.timeout then
    if q.phase.isTerminal then none
    else some { q with phase := .error, response := some ⟨q.taskID⟩, started := true }
  else some { q with phase := w.phase, response := w.saved.or q.response, started := true }

end StatusWrite

/-- How `mutateStatus` ends: written, skipped without an error, or with an error. -/
inductive WriteOutcome
  | stored
  | dropped
  | failed
  deriving DecidableEq, Repr

inductive ExecutionPc
  | spawned
  | ready
  | dispatching (run : ℕ)
  | panicked
  | writing (w : StatusWrite)
  | finishing
  | releasing
  deriving DecidableEq, Repr

/-- A goroutine of `executeQueryAsync`: its copy of the query, whether its context is cancelled, and
where it is. -/
structure Execution where
  obj : Query
  cancelled : Bool
  pc : ExecutionPc
  deriving DecidableEq, Repr

namespace Execution

/-- The goroutine has not yet removed its entry from `operations`. -/
def executing (e : Execution) : Bool := e.pc ≠ .releasing

/-- The goroutine executes the query under a context that has not been cancelled. -/
def live (e : Execution) : Bool := e.executing && !e.cancelled

/-- The goroutine may still start `handleQueryDispatch`. -/
def beforeDispatch (e : Execution) : Bool :=
  match e.pc with
  | .spawned | .ready => true
  | _ => false

end Execution

inductive Reply
  | done (taskID : Option TaskRef)
  | inputRequired (calls : ℕ)
  | failed
  deriving DecidableEq, Repr

/-- Where the executor is with one dispatch; `resuming t i` has executed the first `i` calls of the
approved task `t`. -/
inductive RunPc
  | requested
  | loaded (taskID : Option TaskRef)
  | fresh
  | denied
  | resuming (task next : ℕ)
  | replied (reply : Reply)
  deriving DecidableEq, Repr

inductive TaskPhase
  | inputRequired
  | completed
  | denied
  | failed (hasError : Bool)
  deriving DecidableEq, Repr

/-- An A2ATask that waits for an approval, with the number of its tool calls. -/
structure ApprovalTask where
  phase : TaskPhase
  calls : ℕ
  deriving DecidableEq, Repr

inductive ReconcilePc
  | idle
  | fetched (version : ℕ) (obj : Query)
  | unlisted (obj : Query)
  | acquired (obj : Query)
  | updating (w : StatusWrite) (obj : Query) (start : Bool)
  | starting (obj : Query)
  deriving DecidableEq, Repr

structure QueryState where
  current : Query
  past : List Query
  removed : Bool
  reconcile : ReconcilePc
  operations : Option ℕ
  executions : Slots Execution
  nextExecution : ℕ
  runs : Slots RunPc
  nextRun : ℕ
  tasks : List ApprovalTask
  lateDispatch : Bool
  takenUp : List ℕ
  executed : List (ℕ × ℕ)
  deriving DecidableEq, Repr

/-- What a reconcile finds around it: whether the time budget is used up, whether its cache shows the
task, whether the approval cascade has reached its cap, and which of its other requests fail. -/
structure ReconcileView where
  budgetExhausted : Bool := false
  taskVisible : Bool := true
  cascadeCapped : Bool := false
  annotationFails : Bool := false
  brokerFails : Bool := false
  updateFails : Bool := false
  deriving DecidableEq, Repr

inductive LostReply
  | cancelled
  | deadline
  | failed
  deriving DecidableEq, Repr

inductive QueryAction
  | fetch (age : ℕ)
  | handle (v : ReconcileView)
  | tryAcquire (granted : Bool)
  | markRunning
  | updateStatus (o : WriteOutcome)
  | startExecution
  | refetch (g : ℕ) (age : Option ℕ)
  | clientFails (g : ℕ)
  | dispatch (g : ℕ)
  | dispatchFails (g : ℕ)
  | takeReply (g : ℕ) (created : Bool)
  | loseReply (g : ℕ) (why : LostReply)
  | panic (g : ℕ)
  | recoverPanic (g : ℕ) (age : Option ℕ)
  | write (g : ℕ) (o : WriteOutcome)
  | deleteEntry (g : ℕ)
  | release (g : ℕ)
  | load (r : ℕ)
  | check (r : ℕ) (readable : Bool)
  | executeCall (r : ℕ)
  | reply (r : ℕ) (reply : Reply)
  | crash (r : ℕ)
  | decide (task : ℕ) (phase : TaskPhase)
  | requestCancel
  | requestDelete
  | touch
  deriving DecidableEq, Repr

namespace QueryState

def new : QueryState where
  current := Query.new
  past := []
  removed := false
  reconcile := .idle
  operations := none
  executions := []
  nextExecution := 0
  runs := []
  nextRun := 0
  tasks := []
  lateDispatch := false
  takenUp := []
  executed := []

variable (s : QueryState)

/-- Some stored version was done, error or canceled. -/
def finished : Bool := (s.current :: s.past).any (·.phase.isTerminal)

/-- The version that a cache shows that is `age` versions behind. -/
def version (age : ℕ) : Option Query := (s.current :: s.past)[age]?

def store (q : Query) : QueryState := { s with current := q, past := s.current :: s.past }

/-- The phase of a task, for a reader that sees it. -/
def taskPhase (visible : Bool) (t : ℕ) : Option TaskPhase :=
  if visible then (s.tasks[t]?).map (·.phase) else none

/-- Cancel the context of the execution that `operations` names and remove the entry. -/
def cancelOperation : QueryState := { s with
  operations := none
  executions := s.executions.map fun p =>
    if s.operations = some p.1 then (p.1, { p.2 with cancelled := true }) else p }

/-! ### Reconcile -/

/-- `clearOperationCacheForResumption` and the write of `running`, after `stampRoundAnchor` has put
its annotation on the stored query and left that version in the reconcile's copy. -/
def resume : QueryState :=
  { (s.store s.current).cancelOperation with
    reconcile := .updating ⟨.running, s.current.response, false⟩ s.current false }

def handleInputRequiredPhase (obj : Query) (v : ReconcileView) : QueryState :=
  let idle := { s with reconcile := .idle }
  match obj.taskID with
  | some (.approval t) =>
    match s.taskPhase v.taskVisible t with
    | some .completed => if v.annotationFails || s.removed then idle else s.resume
    | some .denied =>
      if v.cascadeCapped then { s with reconcile := .updating ⟨.error, some ⟨none⟩, false⟩ obj false }
      else if v.annotationFails || s.removed then idle else s.resume
    | some (.failed hasError) => { s with
        reconcile := .updating
          ⟨.error, if hasError then some ⟨none⟩ else obj.response, false⟩ obj false }
    | some .inputRequired | none => idle
  | some .external | none => idle

def handleQueryExecution (obj : Query) (v : ReconcileView) : QueryState :=
  if obj.cancel && obj.phase ≠ .canceled then
    { s.cancelOperation with reconcile := .updating ⟨.canceled, obj.response, false⟩ obj false }
  else if obj.phase.isPreExecution && v.budgetExhausted then
    { s.cancelOperation with reconcile := .updating StatusWrite.failOnTimeout obj false }
  else match obj.phase with
    | .done | .error | .canceled => { s with reconcile := .idle }
    | .inputRequired => s.handleInputRequiredPhase obj v
    | .unset | .pending | .provisioning | .queued | .running =>
      match s.operations with
      | some _ => { s with reconcile := .idle }
      | none => { s with reconcile := .unlisted obj }

/-- A full update of the object, which succeeds only on the version it was read from. -/
def updateObject (version : ℕ) (q : Query) (v : ReconcileView) : QueryState :=
  if v.updateFails || s.removed || s.past.length ≠ version then { s with reconcile := .idle }
  else { s.store q with reconcile := .idle }

/-- `finalize` and, unless the broker cleanup is to be retried, the removal of the finalizer. -/
def finalize (version : ℕ) (v : ReconcileView) : QueryState :=
  if v.brokerFails || v.updateFails || s.removed || s.past.length ≠ version then
    { s.cancelOperation with reconcile := .idle }
  else { s.cancelOperation with reconcile := .idle, removed := true }

/-- `Reconcile` after the fetch. The deletion of an expired query is a `requestDelete` before it. -/
def handle (version : ℕ) (obj : Query) (v : ReconcileView) : QueryState :=
  if obj.deleting then
    if obj.finalizer then s.finalize version v else { s with reconcile := .idle }
  else if !obj.finalizer then s.updateObject version { obj with finalizer := true } v
  else if !obj.started then s.updateObject version { obj with started := true } v
  else s.handleQueryExecution obj v

/-- Whether a status write may be skipped: the query is gone, or the mutation declines it. -/
def skips (w : StatusWrite) : Bool := s.removed || (w.apply s.current).isNone

def reconcileStep : QueryAction → Option QueryState
  | .fetch age =>
    match s.reconcile with
    | .idle => (s.version age).map fun obj =>
        { s with reconcile := .fetched (s.past.length - age) obj }
    | _ => none
  | .handle v =>
    match s.reconcile with
    | .fetched version obj => some (s.handle version obj v)
    | _ => none
  | .tryAcquire granted =>
    match s.reconcile with
    | .unlisted obj =>
      if granted then some { s with reconcile := .acquired obj }
      else if obj.phase = .queued then some { s with reconcile := .idle }
      else some { s with reconcile := .updating ⟨.queued, obj.response, false⟩ obj false }
    | _ => none
  | .markRunning =>
    match s.reconcile with
    | .acquired obj =>
      if obj.phase = .running then some { s with reconcile := .starting obj }
      else some { s with reconcile := .updating ⟨.running, obj.response, false⟩ obj true }
    | _ => none
  | .updateStatus o =>
    match s.reconcile with
    | .updating w obj start =>
      match o with
      | .stored =>
        if s.removed then none
        else (w.apply s.current).map fun q =>
          { s.store q with reconcile := if start then .starting q else .idle }
      | .dropped =>
        if s.skips w then some { s with reconcile := if start then .starting obj else .idle }
        else none
      | .failed => some { s with reconcile := .idle }
    | _ => none
  | .startExecution =>
    match s.reconcile with
    | .starting obj => some { s with
        reconcile := .idle
        operations := some s.nextExecution
        executions := s.executions ++ [(s.nextExecution, ⟨obj, false, .spawned⟩)]
        nextExecution := s.nextExecution + 1 }
    | _ => none
  | _ => none

/-! ### The goroutine -/

def setPc (g : ℕ) (e : Execution) (pc : ExecutionPc) : QueryState :=
  { s with executions := s.executions.put g { e with pc := pc } }

/-- Leave the body of `executeQueryAsync` through a status write, which `mutateStatus` skips under a
cancelled context. -/
def leave (g : ℕ) (e : Execution) (w : StatusWrite) : QueryState :=
  s.setPc g e (if e.cancelled then .finishing else .writing w)

def dropRun (r : ℕ) : QueryState := { s with runs := s.runs.filter (·.1 ≠ r) }

def takeReply (g : ℕ) (e : Execution) (created : Bool) : Reply → QueryState
  | .done taskID => s.leave g e ⟨.done, some ⟨taskID⟩, false⟩
  | .inputRequired calls =>
    -- `HandleA2ATaskResponse` creates the task before the query names it
    if created then
      leave { s with tasks := s.tasks ++ [⟨.inputRequired, calls⟩] } g e
        ⟨.inputRequired, some ⟨some (.approval s.tasks.length)⟩, false⟩
    else s.leave g e ⟨.error, some ⟨none⟩, false⟩
  | .failed => s.leave g e ⟨.error, some ⟨none⟩, false⟩

def executionStep (g : ℕ) (e : Execution) : QueryAction → Option QueryState
  | .refetch _ age =>
    match e.pc, age with
    | .spawned, none => some (s.leave g e ⟨.error, e.obj.response, false⟩)
    | .spawned, some age => (s.version age).map fun obj => s.setPc g { e with obj := obj } .ready
    | _, _ => none
  | .clientFails _ =>
    match e.pc with
    | .ready => some (s.leave g e ⟨.error, e.obj.response, false⟩)
    | _ => none
  | .dispatch _ =>
    match e.pc with
    | .ready => some { s.setPc g e (.dispatching s.nextRun) with
        runs := s.runs ++ [(s.nextRun, .requested)]
        nextRun := s.nextRun + 1
        lateDispatch := s.lateDispatch || s.finished }
    | _ => none
  | .dispatchFails _ =>
    match e.pc with
    | .dispatching r =>
      if s.runs.get? r = some .requested then
        some ((s.dropRun r).leave g e ⟨.error, e.obj.response, false⟩)
      else none
    | _ => none
  | .takeReply _ created =>
    match e.pc with
    | .dispatching r =>
      match s.runs.get? r with
      | some (.replied reply) => some ((s.dropRun r).takeReply g e created reply)
      | _ => none
    | _ => none
  | .loseReply _ why =>
    match e.pc with
    | .dispatching _ =>
      match why with
      | .cancelled => if e.cancelled then some (s.setPc g e .finishing) else none
      | .deadline => some (s.leave g e StatusWrite.failOnTimeout)
      | .failed => some (s.leave g e ⟨.error, some ⟨none⟩, false⟩)
    | _ => none
  | .panic _ =>
    match e.pc with
    | .spawned | .ready | .dispatching _ | .writing _ => some (s.setPc g e .panicked)
    | _ => none
  | .recoverPanic _ age =>
    match e.pc, age with
    | .panicked, none => some (s.setPc g e .finishing)
    | .panicked, some age => (s.version age).map fun q =>
        s.leave g e ⟨.error, some ⟨q.taskID⟩, false⟩
    | _, _ => none
  | .write _ o =>
    match e.pc with
    | .writing w =>
      match o with
      | .stored =>
        if s.removed then none
        else (w.apply s.current).map fun q => (s.store q).setPc g e .finishing
      | .dropped => if e.cancelled || s.skips w then some (s.setPc g e .finishing) else none
      | .failed => some (s.setPc g e .finishing)
    | _ => none
  | .deleteEntry _ =>
    match e.pc with
    | .finishing => some { s.setPc g e .releasing with operations := none }
    | _ => none
  | .release _ =>
    match e.pc with
    | .releasing => some { s with executions := s.executions.filter (·.1 ≠ g) }
    | _ => none
  | _ => none

/-! ### The executor -/

def setRun (r : ℕ) (pc : RunPc) : QueryState := { s with runs := s.runs.put r pc }

/-- `checkResumption`, on the task as it is stored. -/
def checkResumption (r : ℕ) (readable : Bool) (taskID : Option TaskRef) : QueryState :=
  match taskID with
  | some (.approval t) =>
    match s.taskPhase readable t with
    | some .completed => { s.setRun r (.resuming t 0) with takenUp := t :: s.takenUp }
    | some .denied => s.setRun r .denied
    | _ => s.setRun r .fresh
  | _ => s.setRun r .fresh

def runStep (r : ℕ) (pc : RunPc) : QueryAction → Option QueryState
  | .load _ =>
    match pc with
    | .requested => some (s.setRun r
        (if s.removed then .replied .failed else .loaded s.current.taskID))
    | _ => none
  | .check _ readable =>
    match pc with
    | .loaded taskID => some (s.checkResumption r readable taskID)
    | _ => none
  | .executeCall _ =>
    match pc with
    | .resuming t i =>
      if (s.tasks[t]?).any (i < ·.calls) then
        some { s.setRun r (.resuming t (i + 1)) with executed := (t, i) :: s.executed }
      else none
    | _ => none
  | .reply _ reply =>
    match pc with
    | .fresh | .denied => some (s.setRun r (.replied reply))
    | .resuming t i =>
      if reply = .failed ∨ (s.tasks[t]?).any (i = ·.calls) then
        some (s.setRun r (.replied reply))
      else none
    | _ => none
  | .crash _ => some (s.dropRun r)
  | _ => none

/-! ### The surroundings -/

def environmentStep : QueryAction → Option QueryState
  | .decide t phase =>
    match s.tasks[t]? with
    | some task =>
      if task.phase = .inputRequired ∧ phase ≠ .inputRequired then
        some { s with tasks := s.tasks.set t { task with phase := phase } }
      else none
    | none => none
  | .requestCancel => if s.removed then none else some (s.store { s.current with cancel := true })
  | .requestDelete =>
    if s.removed then none
    else some { s.store { s.current with deleting := true } with removed := !s.current.finalizer }
  | .touch => if s.removed then none else some (s.store s.current)
  | _ => none

def step (a : QueryAction) : Option QueryState :=
  match a with
  | .fetch _ | .handle _ | .tryAcquire _ | .markRunning | .updateStatus _ | .startExecution =>
    s.reconcileStep a
  | .refetch g _ | .clientFails g | .dispatch g | .dispatchFails g | .takeReply g _
  | .loseReply g _ | .panic g | .recoverPanic g _ | .write g _ | .deleteEntry g | .release g =>
    (s.executions.get? g).bind fun e => s.executionStep g e a
  | .load r | .check r _ | .executeCall r | .reply r _ | .crash r =>
    (s.runs.get? r).bind fun pc => s.runStep r pc a
  | .decide _ _ | .requestCancel | .requestDelete | .touch => s.environmentStep a

end QueryState
end Ark
