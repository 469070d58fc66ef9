import Ark.TaskPoll

/-!
# The life of an A2A task

The query's side creates the A2ATask resource without a status and then writes the status of the
protocol task, three times at most. The task controller reconciles the resource meanwhile. Both read
a version that may be stale, and a write is refused unless the version it was read from is current.
A status update that is computed here is the one that the update request carries.
-/

namespace Ark.A2A

/-- A stored A2ATask with the part of its spec that is read. -/
structure TaskResource extends TaskObject where
  taskID : String
  contextID : String
  queryName : String
  agentName : String
  ns : String
  a2aServerRef : Option String
  input : String
  timeout : Option Int
  ttl : Option Int
  creationTimestamp : Int

def defaultTaskTimeout : Int := 43200 * second

/-! ### Creation -/

def extractApprovalTimeout (f : Formats) (metadata : String → Option AnyValue) : Option Int :=
  match metadata "timeout" with
  | some (.str s) => if s = "" then none else (f.parseDuration s).toOption
  | _ => none

/-- The resource that `HandleA2ATaskResponse` creates, with the defaults of the schema. Its status is
dropped by the creation. -/
def newA2ATask (f : Formats) (now : Int) (task : ProtocolTask) (agentName ns queryName : String)
    (a2aServerRef : Option String) : Except String TaskResource :=
  if queryName = "" then .error "unable to determine A2A Task originating query"
  else .ok
    { annotations := fun _ => none
      generation := 1
      pollInterval := some defaultPollInterval
      status := {}
      taskID := task.id
      contextID := task.contextID
      queryName := queryName
      agentName := agentName
      ns := ns
      a2aServerRef := a2aServerRef
      input := ""
      timeout := some ((extractApprovalTimeout f task.metadata).getD defaultTaskTimeout)
      ttl := some A2ATask.defaultTaskTTL
      creationTimestamp := now }

/-- The status that the creation writes over the one it has read. -/
def creatorStatus (start : Int) (task : ProtocolTask) (s : TaskStatus) : TaskStatus :=
  { populateA2ATaskStatusFromProtocol s task with startTime := some start }

/-! ### A reconcile -/

/-- What a reconcile is about to do: nothing, unless it asks to be run again; a deletion; a status
update; or an update of the annotations, after which the status in memory, if any, is written when it
differs from the snapshot. -/
inductive Plan
  | nothing (requeue : Bool)
  | delete
  | status (s : TaskStatus)
  | annotate (annotations : StringMap) (before : Snapshot) (memory : Option TaskStatus)

def changedStatus (before : Snapshot) (s : TaskStatus) : Option TaskStatus :=
  if snapshotA2ATaskStatus s = before then none else some s

def pollPlan (env : PollEnv) (t : TaskObject) : Plan :=
  let before := snapshotA2ATaskStatus t.status
  match env.fetchA2ATaskStatus t with
  | .error _ => .annotate (recordFailure t (getFailureCount t + 1)).annotations before none
  | .ok fetched =>
    if 0 < getFailureCount t then
      .annotate (recordFailure fetched 0).annotations before (some fetched.status)
    else match changedStatus before fetched.status with
      | some s => .status s
      | none => .nothing (!fetched.status.phase.isTerminal)

/-- The stored task after the calls of a plan that nobody interferes with. -/
def Plan.run (env : PollEnv) (t : TaskObject) : Plan → TaskObject
  | .status s =>
    match env.statusUpdateError with
    | some _ => t
    | none => { t with status := s }
  | .annotate annotations before memory =>
    match env.updateError with
    | none => { t with annotations := annotations }
    | some _ =>
      match memory.bind (changedStatus before), env.statusUpdateError with
      | some s, none => { t with status := s }
      | _, _ => t
  | _ => t

/-- The plan of a poll does what the poll does in one piece. -/
theorem run_pollPlan (env : PollEnv) (t : TaskObject) :
    (pollPlan env t).run env t = (env.pollTaskStatus t).stored := by
  unfold pollPlan PollEnv.pollTaskStatus
  cases hfetch : env.fetchA2ATaskStatus t with
  | error err =>
    simp only [Plan.run, PollEnv.handlePollFailure, PollEnv.update, Option.bind_none]
    cases env.updateError <;> rfl
  | ok fetched =>
    have hrest : fetched = { t with status := fetched.status } := by
      unfold PollEnv.fetchA2ATaskStatus at hfetch
      split at hfetch
      next => cases hfetch
      next =>
        obtain rfl := Except.ok.inj hfetch
        rfl
      next =>
        obtain rfl := Except.ok.inj hfetch
        rfl
    rw [hrest]
    dsimp only
    by_cases hcount : 0 < getFailureCount t
    · simp only [if_pos hcount, Plan.run, PollEnv.update, recordFailure, Option.bind_some,
        changedStatus]
      cases env.updateError with
      | none => simp
      | some err =>
        by_cases hchanged : snapshotA2ATaskStatus fetched.status = snapshotA2ATaskStatus t.status
        · simp [hchanged]
        · cases env.statusUpdateError <;> simp [hchanged]
    · simp only [if_neg hcount, changedStatus]
      by_cases hchanged : snapshotA2ATaskStatus fetched.status = snapshotA2ATaskStatus t.status
      · simp [hchanged, Plan.run]
      · cases hstatus : env.statusUpdateError <;> simp [hchanged, hstatus, Plan.run]

namespace TaskResource

variable (f : Formats) (now : Int) (t : TaskResource)

def setCompleted (status : ConditionStatus) (reason message : String) (s : TaskStatus) :
    TaskStatus := setConditionCompleted now t.generation status reason message s

/-- The fields that decide an approval. -/
def approval : A2ATask where
  input := t.input
  ttl := t.ttl
  creationTimestamp := t.creationTimestamp
  phase := t.status.phase
  error := t.status.error
  protocolMetadata := some (["timeout", "onTimeout"].filterMap fun k =>
    (t.status.protocolMetadata k).map (k, ·))
  startTime := t.status.startTime
  completionTime := t.status.completionTime
  condition := none

/-- The status after a decision, which sets the condition. -/
def decided (a : A2ATask) : TaskStatus :=
  let s := { t.status with
    phase := a.phase, error := a.error, completionTime := a.completionTime }
  match a.condition with
  | some c => t.setCompleted now (if c.status then .conditionTrue else .conditionFalse)
      c.reason c.message s
  | none => s

/-- The part of `Reconcile` for the phase `input-required`. -/
def decideApproval : Option TaskStatus :=
  match t.approval.checkApprovalTimeout f now with
  | .ok (some a) => some (t.decided now a)
  | .ok none | .error _ =>
    if t.a2aServerRef = none ∧ t.input ≠ "" then
      (t.approval.processApprovalDecision f now).map (t.decided now)
    else none

def reconcileTimeout : Option TaskStatus :=
  let timeout := t.timeout.getD defaultTaskTimeout
  if t.a2aServerRef = none ∨ now < t.creationTimestamp + timeout then none
  else some (t.setCompleted now .conditionTrue "TaskTimeout"
    ("Task did not reach terminal state within " ++ f.durationString timeout)
    { t.status with
      phase := .failed
      error := "Task polling timeout after " ++ f.durationString timeout
      completionTime := some now })

/-- The object in memory has a phase. -/
def withPhase : TaskResource :=
  { t with
    status := { t.status with phase := if t.status.phase = .unset then .pending else t.status.phase } }

/-- An external server answers `answer`; a task without one is not polled. -/
def pollEnv (parse : String → Option Int) (answer : Except String ProtocolTask) : PollEnv where
  fetched := if t.a2aServerRef = none then .ok none else answer.map some
  updateError := none
  statusUpdateError := none
  parse := parse
  now := now

def reconcileWithPhase (parse : String → Option Int) (answer : Except String ProtocolTask) : Plan :=
  if t.status.conditions = [] then
    .status (t.setCompleted now .conditionFalse "TaskNotStarted" "Task has not been started yet"
      t.status)
  else if t.status.phase.isTerminal then .nothing false
  else match (if t.status.phase = .inputRequired then t.decideApproval f now else none) with
    | some s => .status s
    | none =>
      match t.reconcileTimeout f now with
      | some s => .status s
      | none => pollPlan (t.pollEnv now parse answer) t.toTaskObject

def reconcile (parse : String → Option Int) (answer : Except String ProtocolTask) : Plan :=
  if t.creationTimestamp + t.ttl.getD A2ATask.defaultTaskTTL ≤ now then .delete
  else t.withPhase.reconcileWithPhase f now parse answer

end TaskResource

/-! ### Interleavings -/

/-- How far the creation is: it looks for its new resource, or is at one of its three attempts to
write the status and has perhaps read a version for it. -/
inductive Creator
  | refetch (failed : ℕ)
  | attempt (i : ℕ) (read : Option (ℕ × TaskResource))
  | done

def Creator.afterFailure : Creator → Creator
  | .refetch failed => if failed + 1 < 3 then .refetch (failed + 1) else .done
  | .attempt i _ => if i + 1 < 3 then .attempt (i + 1) none else .done
  | .done => .done

/-- A stored task with its earlier versions, the newest first, and what the controller is about to
do with the version that it has read. -/
structure Lifecycle where
  task : TaskResource
  past : List TaskResource
  deleted : Bool
  clock : Int
  pending : Option (ℕ × Plan)
  creator : Creator

inductive LifecycleAction
  | reconcile (age : ℕ) (answer : Except String ProtocolTask)
  | call
  | callFails
  | creatorGet (age : ℕ)
  | creatorGetFails
  | creatorUpdate
  | creatorUpdateFails
  | writeInput (text : String)
  | touch
  | tick (n : ℕ)

/-- The steps of the controller. -/
def LifecycleAction.isReconciler : LifecycleAction → Bool
  | .reconcile .. | .call | .callFails => true
  | _ => false

/-- `created` is the protocol task that the resource is created for, at `start`. -/
structure LifecycleEnv where
  formats : Formats
  parse : String → Option Int
  created : ProtocolTask
  start : Int

/-- What is left to do after a call that was refused. -/
def Plan.afterRefusal : Plan → Option Plan
  | .annotate _ before memory => (memory.bind (changedStatus before)).map .status
  | _ => none

namespace Lifecycle

def store (s : Lifecycle) (t : TaskResource) : Lifecycle :=
  { s with task := t, past := s.task :: s.past }

def version (s : Lifecycle) (age : ℕ) : Option TaskResource := (s.task :: s.past)[age]?

def accepts (s : Lifecycle) (version : ℕ) : Bool := version == s.past.length && !s.deleted

def call (s : Lifecycle) (version : ℕ) : Plan → Lifecycle
  | .nothing _ => { s with pending := none }
  | .delete => { s with deleted := true, pending := none }
  | .status status =>
    if s.accepts version then
      { s.store { s.task with status := status } with pending := none }
    else { s with pending := none }
  | .annotate annotations before memory =>
    if s.accepts version then
      -- the status in memory is now the stored one
      let rest := (memory.bind fun _ => changedStatus before s.task.status).map Plan.status
      { s.store { s.task with annotations := annotations } with
        pending := rest.map fun p => (version + 1, p) }
    else
      { s with
        pending := (Plan.annotate annotations before memory).afterRefusal.map fun p => (version, p) }

def step (env : LifecycleEnv) (s : Lifecycle) : LifecycleAction → Option Lifecycle
  | .reconcile age answer =>
    match s.pending, s.version age with
    | none, some t => some { s with
        pending := some (s.past.length - age, t.reconcile env.formats s.clock env.parse answer) }
    | _, _ => none
  | .call => s.pending.map fun p => s.call p.1 p.2
  | .callFails => s.pending.map fun p =>
      { s with pending := p.2.afterRefusal.map fun plan => (p.1, plan) }
  | .creatorGet age =>
    match s.creator, s.version age with
    | .refetch _, some t => some { s with creator := .attempt 0 (some (s.past.length - age, t)) }
    | .attempt i none, some t =>
      some { s with creator := .attempt i (some (s.past.length - age, t)) }
    | _, _ => none
  | .creatorGetFails =>
    match s.creator with
    | .refetch _ | .attempt _ none => some { s with creator := s.creator.afterFailure }
    | _ => none
  | .creatorUpdate =>
    match s.creator with
    | .attempt _ (some (version, t)) =>
      if s.accepts version then
        some { s.store { s.task with status := creatorStatus env.start env.created t.status } with
          creator := .done }
      else some { s with creator := s.creator.afterFailure }
    | _ => none
  | .creatorUpdateFails =>
    match s.creator with
    | .attempt _ (some _) => some { s with creator := s.creator.afterFailure }
    | _ => none
  | .writeInput text =>
    if s.deleted then none
    else some (s.store { s.task with input := text, generation := s.task.generation + 1 })
  | .touch => if s.deleted then none else some (s.store s.task)
  | .tick n => some { s with clock := s.clock + n }

/-- The resource has just been created, by a query and for a server or an approval. -/
def machine (env : LifecycleEnv) : Machine Lifecycle LifecycleAction where
  init s := s.past = [] ∧ s.deleted = false ∧ s.pending = none ∧ s.creator = .refetch 0 ∧
    s.clock = env.start ∧ ∃ agentName ns queryName server,
      newA2ATask env.formats env.start env.created agentName ns queryName server = .ok s.task
  step := step env

end Lifecycle

/-! ### Truthful conditions -/

/-- The condition Completed is True. -/
def isCompleted (s : TaskStatus) : Bool :=
  (s.conditions.find? fun c => c.type == completedType).any fun c => c.status == .conditionTrue

/-- The condition is True exactly in the terminal phases. -/
def TellsTruth (s : TaskStatus) : Prop := isCompleted s = s.phase.isTerminal

/-- The decision that a reconcile would read is none that it knows. -/
def InvalidDecision (f : Formats) (now : Int) (t : TaskResource) : Prop :=
  t.status.phase = .inputRequired ∧ t.a2aServerRef = none ∧ t.input ≠ "" ∧
    (∀ a, t.approval.checkApprovalTimeout f now ≠ .ok (some a)) ∧
    ∀ d, f.decision t.input = .ok d → d ∉ ["", "approved", "rejected"]

namespace Lifecycle

/-- No invalid decision is processed, and where the creation's status update goes through, its phase
is terminal exactly if the condition is True already. -/
def Conforms (env : LifecycleEnv) (s : Lifecycle) : LifecycleAction → Prop
  | .reconcile 0 _ => ¬ InvalidDecision env.formats s.clock s.task
  | .creatorUpdate => ∀ i t, s.creator = .attempt i (some (s.past.length, t)) →
      isCompleted t.status = env.created.phase.isTerminal
  | _ => True

/-- Neither the creation nor the controller has anything left to do. -/
def Quiesced (env : LifecycleEnv) (s : Lifecycle) : Prop :=
  s.pending = none ∧ s.deleted = false ∧ s.creator = .done ∧
    ∀ answer, s.task.reconcile env.formats s.clock env.parse answer = .nothing false

end Lifecycle

/-! ### What the writes of the controller say -/

section Truth

variable {f : Formats} {now generation : Int} {s : TaskStatus} {t : TaskResource}

theorem isCompleted_setStatusCondition {c : Condition} (hc : c.type = completedType)
    (conditions : List Condition) :
    ((setStatusCondition now c conditions).find? fun c => c.type == completedType).any
      (fun c => c.status == .conditionTrue) = (c.status == .conditionTrue) := by
  induction conditions with
  | nil => simp [setStatusCondition, hc]
  | cons c' conditions ih =>
    rw [setStatusCondition]
    split
    next => simp [hc]
    next hne =>
      have hne' : (c'.type == completedType) = false := by
        rw [beq_eq_false_iff_ne, ← hc]
        exact hne
      rw [List.find?_cons, hne', ih]

@[simp] theorem isCompleted_setConditionCompleted (status : ConditionStatus)
    (reason message : String) :
    isCompleted (setConditionCompleted now generation status reason message s) =
      (status == .conditionTrue) := by
  rw [isCompleted, setConditionCompleted]
  exact isCompleted_setStatusCondition rfl s.conditions

@[simp] theorem phase_setConditionCompleted (status : ConditionStatus) (reason message : String) :
    (setConditionCompleted now generation status reason message s).phase = s.phase := rfl

theorem tellsTruth_setConditionCompleted {status : ConditionStatus} {reason message : String}
    (h : (status == .conditionTrue) = s.phase.isTerminal) :
    TellsTruth (setConditionCompleted now generation status reason message s) := by
  rw [TellsTruth, isCompleted_setConditionCompleted, phase_setConditionCompleted]
  exact h

theorem tellsTruth_updateConditionsAndEvents {oldPhase : A2APhase}
    (hold : isCompleted s = oldPhase.isTerminal) (hphase : oldPhase.isTerminal = false) :
    TellsTruth (updateConditionsAndEvents now generation oldPhase s) := by
  unfold updateConditionsAndEvents
  split
  next h => rw [TellsTruth, hold, h]
  next =>
    split
    next h => exact tellsTruth_setConditionCompleted (by rw [h]; rfl)
    next h => exact tellsTruth_setConditionCompleted (by rw [h]; rfl)
    next h => exact tellsTruth_setConditionCompleted (by rw [h]; rfl)
    next h => exact tellsTruth_setConditionCompleted (by rw [h]; rfl)
    next h => exact tellsTruth_setConditionCompleted (by rw [h]; rfl)
    next h => exact tellsTruth_setConditionCompleted (by rw [h]; rfl)
    next hp ha hr hc hf hx =>
      rw [TellsTruth, hold, hphase]
      cases h : s.phase <;> first | rfl | contradiction

/-- A poll of a task that has not finished. -/
theorem tellsTruth_polled {env : PollEnv} {t : TaskObject} {answer : ProtocolTask}
    (h : TellsTruth t.status) (hphase : t.status.phase.isTerminal = false) :
    TellsTruth (env.polled t answer) := by
  refine tellsTruth_updateConditionsAndEvents ?_ hphase
  rw [updateA2ATaskStatus_eq]
  exact h

theorem tellsTruth_decided {a : A2ATask} {c : TaskCondition} (hc : a.condition = some c)
    (h : c.status = a.phase.isTerminal) : TellsTruth (t.decided now a) := by
  rw [TaskResource.decided, hc]
  apply tellsTruth_setConditionCompleted
  rw [← h]
  cases c.status <;> rfl

theorem checkApprovalTimeout_condition {a b : A2ATask}
    (h : a.checkApprovalTimeout f now = .ok (some b)) :
    ∃ c, b.condition = some c ∧ c.status = b.phase.isTerminal := by
  unfold A2ATask.checkApprovalTimeout at h
  split at h
  next => cases h
  next =>
    dsimp only at h
    split at h
    next => cases h
    next =>
      split at h
      next => cases h
      next =>
        split at h
        next => cases h
        next =>
          split at h
          next => cases h
          next =>
            split at h
            next =>
              obtain rfl := Option.some.inj (Except.ok.inj h)
              exact ⟨_, rfl, rfl⟩
            next =>
              split at h
              next =>
                obtain rfl := Option.some.inj (Except.ok.inj h)
                exact ⟨_, rfl, rfl⟩
              next => cases h

theorem processApprovalDecision_condition {a b : A2ATask} {d : String}
    (hd : f.decision a.input = .ok d) (hvalid : d ∈ ["", "approved", "rejected"])
    (h : a.processApprovalDecision f now = some b) :
    ∃ c, b.condition = some c ∧ c.status = b.phase.isTerminal := by
  unfold A2ATask.processApprovalDecision at h
  rw [hd] at h
  dsimp only at h
  split at h
  next => cases h
  next hempty =>
    split at h
    next =>
      obtain rfl := Option.some.inj h
      exact ⟨_, rfl, rfl⟩
    next happroved =>
      split at h
      next =>
        obtain rfl := Option.some.inj h
        exact ⟨_, rfl, rfl⟩
      next hrejected => simp [hempty, happroved, hrejected] at hvalid

theorem tellsTruth_decideApproval (hphase : t.status.phase = .inputRequired)
    (hvalid : ¬ InvalidDecision f now t) (h : t.decideApproval f now = some s) : TellsTruth s := by
  unfold TaskResource.decideApproval at h
  split at h
  next a ha =>
    obtain rfl := Option.some.inj h
    obtain ⟨c, hc, hstatus⟩ := checkApprovalTimeout_condition ha
    exact tellsTruth_decided hc hstatus
  all_goals
    next hnot =>
      split at h
      next hinput =>
        obtain ⟨b, hb, rfl⟩ := Option.map_eq_some_iff.mp h
        have hd : ∃ d, f.decision t.input = .ok d ∧ d ∈ ["", "approved", "rejected"] := by
          by_contra hd
          push Not at hd
          refine hvalid ⟨hphase, hinput.1, hinput.2, fun a ha => ?_, hd⟩
          rw [hnot] at ha
          cases ha
        obtain ⟨d, hd, hmem⟩ := hd
        obtain ⟨c, hc, hstatus⟩ := processApprovalDecision_condition hd hmem hb
        exact tellsTruth_decided hc hstatus
      next => cases h

end Truth

/-! ### What a plan writes -/

/-- The statuses that a plan may write, apart from the stored one. -/
def Plan.writes : Plan → List TaskStatus
  | .status s => [s]
  | .annotate _ _ memory => memory.toList
  | _ => []

theorem eq_of_changedStatus {before : Snapshot} {s s' : TaskStatus}
    (h : changedStatus before s = some s') : s' = s := by
  unfold changedStatus at h
  split at h
  next => cases h
  next => exact (Option.some.inj h).symm

theorem Plan.writes_afterRefusal {plan rest : Plan} (h : plan.afterRefusal = some rest) :
    ∀ s ∈ rest.writes, s ∈ plan.writes := by
  cases plan with
  | annotate annotations before memory =>
    obtain ⟨status, hstatus, rfl⟩ := Option.map_eq_some_iff.mp h
    obtain ⟨m, rfl, hchanged⟩ := Option.bind_eq_some_iff.mp hstatus
    obtain rfl := eq_of_changedStatus hchanged
    exact fun s hs => hs
  | nothing => cases h
  | delete => cases h
  | status => cases h

section Plans

variable {f : Formats} {now : Int} {s : TaskStatus} {t : TaskResource}
  {parse : String → Option Int} {answer : Except String ProtocolTask}

/-- What a poll may write is the status it has read or the one updated for an answer. -/
theorem writes_pollPlan {env : PollEnv} {t : TaskObject} (h : s ∈ (pollPlan env t).writes) :
    s = t.status ∨ ∃ task, s = env.polled t task := by
  have hfetched : ∀ fetched, env.fetchA2ATaskStatus t = .ok fetched →
      fetched.status = t.status ∨ ∃ task, fetched.status = env.polled t task := by
    intro fetched hfetched
    unfold PollEnv.fetchA2ATaskStatus at hfetched
    split at hfetched
    next => cases hfetched
    next =>
      obtain rfl := Except.ok.inj hfetched
      exact .inl rfl
    next task _ =>
      obtain rfl := Except.ok.inj hfetched
      exact .inr ⟨task, rfl⟩
  unfold pollPlan at h
  split at h
  next => cases h
  next fetched hok =>
    have hcases := hfetched fetched hok
    split at h
    next =>
      obtain rfl := List.mem_singleton.mp h
      exact hcases
    next =>
      dsimp only at h
      split at h
      next hchanged =>
        obtain rfl := eq_of_changedStatus hchanged
        obtain rfl := List.mem_singleton.mp h
        exact hcases
      next => cases h

theorem withPhase_isTerminal : t.withPhase.status.phase.isTerminal = t.status.phase.isTerminal := by
  simp only [TaskResource.withPhase]
  split
  next h => rw [h]; rfl
  next => rfl

theorem withPhase_of_isTerminal (h : t.status.phase.isTerminal = true) :
    t.withPhase.status.phase = t.status.phase := by
  simp only [TaskResource.withPhase]
  split
  next hunset => rw [hunset] at h; cases h
  next => rfl

theorem not_invalidDecision_withPhase (h : ¬ InvalidDecision f now t) :
    ¬ InvalidDecision f now t.withPhase := by
  rintro ⟨hphase, hrest⟩
  have hunset : t.status.phase ≠ .unset := by
    intro hunset
    simp only [TaskResource.withPhase, hunset, if_true] at hphase
    cases hphase
  have heq : t.withPhase = t := by simp only [TaskResource.withPhase, if_neg hunset]
  rw [heq] at hphase hrest
  exact h ⟨hphase, hrest⟩

/-- A reconcile of a task that has finished writes at most a condition. -/
theorem keeps_reconcile (hphase : t.status.phase.isTerminal = true)
    (h : s ∈ (t.reconcile f now parse answer).writes) : s.phase = t.status.phase := by
  unfold TaskResource.reconcile at h
  split at h
  next => cases h
  next =>
    unfold TaskResource.reconcileWithPhase at h
    split at h
    next =>
      obtain rfl := List.mem_singleton.mp h
      exact withPhase_of_isTerminal hphase
    next =>
      rw [if_pos (withPhase_isTerminal.trans hphase)] at h
      cases h

/-- A reconcile of a truthful status without an invalid decision writes truthful statuses. -/
theorem tellsTruth_reconcile (ht : TellsTruth t.status) (hvalid : ¬ InvalidDecision f now t)
    (h : s ∈ (t.reconcile f now parse answer).writes) : TellsTruth s := by
  have ht' : TellsTruth t.withPhase.status := by
    rw [TellsTruth, withPhase_isTerminal]
    exact ht
  have hvalid' := not_invalidDecision_withPhase hvalid
  unfold TaskResource.reconcile at h
  split at h
  next => cases h
  next =>
    unfold TaskResource.reconcileWithPhase at h
    split at h
    next hconditions =>
      obtain rfl := List.mem_singleton.mp h
      apply tellsTruth_setConditionCompleted
      rw [← ht', isCompleted, hconditions]
      rfl
    next =>
      split at h
      next => cases h
      next hterminal =>
        rw [Bool.not_eq_true] at hterminal
        split at h
        next s' hdecided =>
          obtain rfl := List.mem_singleton.mp h
          split at hdecided
          next hinput => exact tellsTruth_decideApproval hinput hvalid' hdecided
          next => cases hdecided
        next =>
          split at h
          next s' htimeout =>
            obtain rfl := List.mem_singleton.mp h
            unfold TaskResource.reconcileTimeout at htimeout
            dsimp only at htimeout
            split at htimeout
            next => cases htimeout
            next =>
              obtain rfl := Option.some.inj htimeout
              exact tellsTruth_setConditionCompleted rfl
          next =>
            obtain rfl | ⟨task, rfl⟩ := writes_pollPlan h
            · exact ht'
            · exact tellsTruth_polled ht' hterminal

end Plans

/-! ### One step -/

namespace Lifecycle

variable {env : LifecycleEnv} {s t : Lifecycle} {a : LifecycleAction}

theorem age_of_version {age : ℕ} {r : TaskResource} (h : s.version age = some r)
    (hcurrent : s.past.length - age = s.past.length) : age = 0 ∧ r = s.task := by
  obtain ⟨hlt, hr⟩ := List.getElem?_eq_some_iff.mp h
  rw [List.length_cons] at hlt
  obtain rfl : age = 0 := by omega
  exact ⟨rfl, hr.symm⟩

theorem accepts_iff {v : ℕ} : s.accepts v = true ↔ v = s.past.length ∧ s.deleted = false := by
  simp [accepts]

/-- What a step does to the stored task: nothing, or one of the writes. -/
inductive Stores (env : LifecycleEnv) (s t : Lifecycle) : LifecycleAction → Prop
  | same {a : LifecycleAction} (task : t.task = s.task) (past : t.past = s.past) : Stores env s t a
  | spec {a : LifecycleAction} (status : t.task.status = s.task.status)
      (past : t.past = s.task :: s.past) : Stores env s t a
  | status {w : TaskStatus} (plan : s.pending = some (s.past.length, .status w))
      (status : t.task.status = w) (past : t.past = s.task :: s.past) : Stores env s t .call
  | created {i : ℕ} {r : TaskResource} (creator : s.creator = .attempt i (some (s.past.length, r)))
      (status : t.task.status = creatorStatus env.start env.created r.status)
      (past : t.past = s.task :: s.past) : Stores env s t .creatorUpdate

theorem stores_step (h : step env s a = some t) : Stores env s t a := by
  cases a with
  | reconcile age answer =>
    simp only [step] at h
    split at h
    next =>
      obtain rfl := Option.some.inj h
      exact .same rfl rfl
    next => cases h
  | call =>
    obtain ⟨⟨v, plan⟩, hpending, rfl⟩ := Option.map_eq_some_iff.mp h
    cases plan with
    | nothing => exact .same rfl rfl
    | delete => exact .same rfl rfl
    | status w =>
      simp only [call]
      split
      next haccepts =>
        obtain ⟨rfl, -⟩ := accepts_iff.mp haccepts
        exact .status hpending rfl rfl
      next => exact .same rfl rfl
    | annotate annotations before memory =>
      simp only [call]
      split
      next => exact .spec rfl rfl
      next => exact .same rfl rfl
  | callFails =>
    obtain ⟨p, -, rfl⟩ := Option.map_eq_some_iff.mp h
    exact .same rfl rfl
  | creatorGet age =>
    simp only [step] at h
    split at h
    next =>
      obtain rfl := Option.some.inj h
      exact .same rfl rfl
    next =>
      obtain rfl := Option.some.inj h
      exact .same rfl rfl
    next => cases h
  | creatorGetFails =>
    simp only [step] at h
    split at h
    next =>
      obtain rfl := Option.some.inj h
      exact .same rfl rfl
    next =>
      obtain rfl := Option.some.inj h
      exact .same rfl rfl
    next => cases h
  | creatorUpdate =>
    simp only [step] at h
    split at h
    next hcreator =>
      split at h
      next haccepts =>
        obtain ⟨rfl, -⟩ := accepts_iff.mp haccepts
        obtain rfl := Option.some.inj h
        exact .created hcreator rfl rfl
      next =>
        obtain rfl := Option.some.inj h
        exact .same rfl rfl
    next => cases h
  | creatorUpdateFails =>
    simp only [step] at h
    split at h
    next =>
      obtain rfl := Option.some.inj h
      exact .same rfl rfl
    next => cases h
  | writeInput text =>
    simp only [step] at h
    split at h
    next => cases h
    next =>
      obtain rfl := Option.some.inj h
      exact .spec rfl rfl
  | touch =>
    simp only [step] at h
    split at h
    next => cases h
    next =>
      obtain rfl := Option.some.inj h
      exact .spec rfl rfl
  | tick n =>
    obtain rfl := Option.some.inj h
    exact .same rfl rfl

/-- What a step does to the pending plan: nothing, a new reconcile, or what follows a call. -/
theorem pending_step (h : step env s a = some t) {v : ℕ} {plan : Plan}
    (hpending : t.pending = some (v, plan)) :
    s.pending = some (v, plan) ∨
      (∃ age answer r, a = .reconcile age answer ∧ s.version age = some r ∧
        v = s.past.length - age ∧
          plan = r.reconcile env.formats s.clock env.parse answer) ∨
      (v = s.past.length + 1 ∧ t.past.length = s.past.length + 1 ∧
        plan = .status t.task.status) ∨
      ∃ plan', s.pending = some (v, plan') ∧ plan'.afterRefusal = some plan := by
  cases a with
  | reconcile age answer =>
    simp only [step] at h
    split at h
    next r _ hr =>
      obtain rfl := Option.some.inj h
      obtain ⟨rfl, rfl⟩ := Prod.mk.inj (Option.some.inj hpending)
      exact .inr (.inl ⟨age, answer, r, rfl, hr, rfl, rfl⟩)
    next => cases h
  | call =>
    obtain ⟨⟨v', plan'⟩, hplan, rfl⟩ := Option.map_eq_some_iff.mp h
    cases plan' with
    | nothing => cases hpending
    | delete => cases hpending
    | status w =>
      simp only [call] at hpending
      split at hpending <;> cases hpending
    | annotate annotations before memory =>
      simp only [call] at hpending ⊢
      split at hpending
      next haccepts =>
        obtain ⟨rfl, -⟩ := accepts_iff.mp haccepts
        obtain ⟨plan'', hrest, heq⟩ := Option.map_eq_some_iff.mp hpending
        obtain ⟨rfl, rfl⟩ := Prod.mk.inj heq
        obtain ⟨w, hw, rfl⟩ := Option.map_eq_some_iff.mp hrest
        obtain ⟨m, -, hchanged⟩ := Option.bind_eq_some_iff.mp hw
        obtain rfl := eq_of_changedStatus hchanged
        rw [if_pos haccepts]
        exact .inr (.inr (.inl ⟨rfl, rfl, rfl⟩))
      next =>
        obtain ⟨plan'', hrest, heq⟩ := Option.map_eq_some_iff.mp hpending
        obtain ⟨rfl, rfl⟩ := Prod.mk.inj heq
        exact .inr (.inr (.inr ⟨_, hplan, hrest⟩))
  | callFails =>
    obtain ⟨⟨v', plan'⟩, hplan, rfl⟩ := Option.map_eq_some_iff.mp h
    obtain ⟨plan'', hrest, heq⟩ := Option.map_eq_some_iff.mp hpending
    obtain ⟨rfl, rfl⟩ := Prod.mk.inj heq
    exact .inr (.inr (.inr ⟨plan', hplan, hrest⟩))
  | creatorGet age =>
    simp only [step] at h
    split at h
    next =>
      obtain rfl := Option.some.inj h
      exact .inl hpending
    next =>
      obtain rfl := Option.some.inj h
      exact .inl hpending
    next => cases h
  | creatorGetFails =>
    simp only [step] at h
    split at h
    next =>
      obtain rfl := Option.some.inj h
      exact .inl hpending
    next =>
      obtain rfl := Option.some.inj h
      exact .inl hpending
    next => cases h
  | creatorUpdate =>
    simp only [step] at h
    split at h
    next =>
      split at h <;> (obtain rfl := Option.some.inj h; exact .inl hpending)
    next => cases h
  | creatorUpdateFails =>
    simp only [step] at h
    split at h
    next =>
      obtain rfl := Option.some.inj h
      exact .inl hpending
    next => cases h
  | writeInput text =>
    simp only [step] at h
    split at h
    next => cases h
    next =>
      obtain rfl := Option.some.inj h
      exact .inl hpending
  | touch =>
    simp only [step] at h
    split at h
    next => cases h
    next =>
      obtain rfl := Option.some.inj h
      exact .inl hpending
  | tick n =>
    obtain rfl := Option.some.inj h
    exact .inl hpending

/-! ### Invariants -/

/-- The pending plan is for a version no newer than the stored one, and if it is for the stored one
then what it writes is related to what is stored. -/
def Plans (Q : TaskStatus → TaskStatus → Prop) (s : Lifecycle) : Prop :=
  ∀ v plan, s.pending = some (v, plan) → v ≤ s.past.length ∧
    (v = s.past.length → ∀ w ∈ plan.writes, Q s.task.status w)

theorem Stores.log (h : Stores env s t a) :
    (t.task = s.task ∧ t.past = s.past) ∨ t.past.length = s.past.length + 1 := by
  cases h with
  | same htask hpast => exact .inl ⟨htask, hpast⟩
  | spec _ hpast => exact .inr (congrArg List.length hpast)
  | status _ _ hpast => exact .inr (congrArg List.length hpast)
  | created _ _ hpast => exact .inr (congrArg List.length hpast)

theorem Plans.step {Q : TaskStatus → TaskStatus → Prop} (hs : s.Plans Q)
    (hself : Q t.task.status t.task.status)
    (hreconcile : ∀ answer, a = .reconcile 0 answer →
      ∀ w ∈ (s.task.reconcile env.formats s.clock env.parse answer).writes, Q s.task.status w)
    (h : Lifecycle.step env s a = some t) : t.Plans Q := by
  intro v plan hpending
  have hlog := (stores_step h).log
  -- a plan for an old version that was fine stays so
  have hold : ∀ v plan, v ≤ s.past.length → (v = s.past.length →
      ∀ w ∈ plan.writes, Q s.task.status w) → v ≤ t.past.length ∧
        (v = t.past.length → ∀ w ∈ Plan.writes plan, Q t.task.status w) := by
    intro v plan hle hwrites
    obtain ⟨htask, hpast⟩ | hlength := hlog
    · rw [htask, hpast]
      exact ⟨hle, hwrites⟩
    · exact ⟨by omega, by omega⟩
  obtain hsame | ⟨age, answer, r, rfl, hr, rfl, rfl⟩ | ⟨rfl, hlength, rfl⟩ | ⟨plan', hplan, hrest⟩ :=
    pending_step h hpending
  · exact hold v plan (hs v plan hsame).1 (hs v plan hsame).2
  · apply hold _ _ (Nat.sub_le _ _)
    intro hcurrent
    obtain ⟨rfl, rfl⟩ := age_of_version hr hcurrent
    exact hreconcile answer rfl
  · refine ⟨Nat.le_of_eq hlength.symm, fun _ w hw => ?_⟩
    obtain rfl := List.mem_singleton.mp hw
    exact hself
  · obtain ⟨hle, hwrites⟩ := hs v plan' hplan
    exact hold v plan hle fun hv w hw => hwrites hv w (Plan.writes_afterRefusal hrest w hw)

/-- A plan for the stored version keeps a terminal phase. -/
theorem keeps_of_reachable {ok : Lifecycle → LifecycleAction → Prop}
    (h : (machine env).Reachable ok s) :
    s.Plans fun stored w => stored.phase.isTerminal = true → w.phase = stored.phase := by
  apply h.invariant
  · rintro s ⟨-, -, hpending, -⟩ v plan hplan
    rw [hpending] at hplan
    cases hplan
  · exact fun s a t hs _ hstep => Plans.step hs (fun _ => rfl)
      (fun _ _ w hw hphase => keeps_reconcile hphase hw) hstep

/-- The controller never changes a terminal phase. -/
theorem terminal_phase_kept {ok : Lifecycle → LifecycleAction → Prop}
    (h : (machine env).Reachable ok s) (hreconciler : a.isReconciler = true)
    (hphase : s.task.status.phase.isTerminal = true) (hstep : step env s a = some t) :
    t.task.status.phase = s.task.status.phase := by
  cases stores_step hstep with
  | same htask => rw [htask]
  | spec hstatus => rw [hstatus]
  | status hplan hstatus =>
    rw [hstatus]
    exact ((keeps_of_reachable h) _ _ hplan).2 rfl _ List.mem_cons_self hphase
  | created => cases hreconciler

structure Truthful (s : Lifecycle) : Prop where
  stored : TellsTruth s.task.status
  plans : s.Plans fun _ w => TellsTruth w

theorem Truthful.step (hs : s.Truthful) (hok : Conforms env s a)
    (h : Lifecycle.step env s a = some t) : t.Truthful := by
  have hstored : TellsTruth t.task.status := by
    cases stores_step h with
    | same htask =>
      rw [htask]
      exact hs.stored
    | spec hstatus =>
      rw [hstatus]
      exact hs.stored
    | status hplan hstatus =>
      rw [hstatus]
      exact (hs.plans _ _ hplan).2 rfl _ List.mem_cons_self
    | created hcreator hstatus =>
      rw [hstatus]
      exact hok _ _ hcreator
  refine ⟨hstored, hs.plans.step hstored ?_ h⟩
  rintro answer rfl w hw
  exact tellsTruth_reconcile hs.stored hok hw

theorem truthful_of_reachable (h : (machine env).Reachable (Conforms env) s) : s.Truthful := by
  apply h.invariant
  · rintro s ⟨-, -, hpending, -, -, agentName, ns, queryName, server, hnew⟩
    unfold newA2ATask at hnew
    split at hnew
    next => cases hnew
    next =>
      constructor
      · rw [← Except.ok.inj hnew]
        rfl
      · intro v plan hplan
        rw [hpending] at hplan
        cases hplan
  · exact fun _ _ _ hs hok hstep => Truthful.step hs hok hstep

/-- The task has finished, all writers are done with it, and the condition is not True. -/
def settledUntrue (s : Lifecycle) : Bool :=
  s.pending.isNone && !s.deleted &&
    (match s.creator with
      | .done => true
      | _ => false) &&
    !s.task.status.conditions.isEmpty && s.task.status.phase.isTerminal &&
    s.clock < s.task.creationTimestamp + s.task.ttl.getD A2ATask.defaultTaskTTL &&
    !isCompleted s.task.status

theorem quiesced_of_settledUntrue (h : s.settledUntrue = true) :
    s.Quiesced env ∧ ¬ TellsTruth s.task.status := by
  simp only [settledUntrue, Bool.and_eq_true, Option.isNone_iff_eq_none, Bool.not_eq_true',
    List.isEmpty_eq_false_iff, decide_eq_true_eq] at h
  obtain ⟨⟨⟨⟨⟨⟨hpending, hdeleted⟩, hcreator⟩, hconditions⟩, hphase⟩, hexpiry⟩, hcompleted⟩ := h
  have hdone : s.creator = .done := by
    cases hc : s.creator with
    | done => rfl
    | refetch => rw [hc] at hcreator; cases hcreator
    | attempt => rw [hc] at hcreator; cases hcreator
  refine ⟨⟨hpending, hdeleted, hdone, fun answer => ?_⟩, ?_⟩
  · have hconditions' : s.task.withPhase.status.conditions ≠ [] := hconditions
    rw [TaskResource.reconcile, if_neg (Int.not_le.mpr hexpiry), TaskResource.reconcileWithPhase,
      if_neg hconditions', if_pos (withPhase_isTerminal.trans hphase)]
  · rw [TellsTruth, hcompleted, hphase]
    exact Bool.false_ne_true

/-- A decision text that is read is one of the two here. -/
def sampleFormats : Formats where
  parseDuration _ := .error "invalid duration"
  durationString _ := "12h0m0s"
  decision text :=
    if text = "approve" then .ok "approved" else if text = "hold" then .ok "hold"
    else .error "invalid character"

def sampleEnv (state : String) : LifecycleEnv where
  formats := sampleFormats
  parse _ := none
  created := answerIn state "context-1"
  start := 0

def sampleTask : TaskResource where
  annotations _ := none
  generation := 1
  pollInterval := some defaultPollInterval
  status := {}
  taskID := "task-1"
  contextID := "context-1"
  queryName := "query-1"
  agentName := "agent-1"
  ns := "default"
  a2aServerRef := none
  input := ""
  timeout := some defaultTaskTimeout
  ttl := some A2ATask.defaultTaskTTL
  creationTimestamp := 0

def created : Lifecycle where
  task := sampleTask
  past := []
  deleted := false
  clock := 0
  pending := none
  creator := .refetch 0

theorem init_created (state : String) : (machine (sampleEnv state)).init created :=
  ⟨rfl, rfl, rfl, rfl, rfl, "agent-1", "default", "query-1", none, rfl⟩

end Lifecycle

end Ark.A2A
