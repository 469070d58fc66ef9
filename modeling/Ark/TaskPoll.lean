import Ark.A2AStatus

/-!
# Polling an A2A task

One poll of the task controller: the answer of the server is merged into the status of the object in
memory, the failure count in the annotations is reset, and the status is written if a snapshot of five
fields has changed. `Update` of the main resource ignores the status and overwrites the object in
memory with the stored one. Durations are nanoseconds.
-/

namespace Ark.A2A

structure TaskObject where
  annotations : StringMap
  generation : Int
  pollInterval : Option Int
  status : TaskStatus

def pollFailureCountAnnotation : String := "ark.mckinsey.com/poll-failure-count"

def second : Int := 1000000000

def defaultPollInterval : Int := 5 * second

def maxPollBackoff : Int := 300 * second

def rateLimitBackoffFloor : Int := 30 * second

def maxBackoffExponent : Int := 16

/-! ### The failure count -/

def decimal : ℕ → List Char → Option ℕ
  | n, [] => some n
  | n, c :: cs => if c.isDigit then decimal (10 * n + (c.toNat - 48)) cs else none

/-- `strconv.Atoi` on 64 bits. -/
def atoi (s : String) : Option Int :=
  let number : Option Int := match s.toList with
    | '-' :: c :: cs => (decimal 0 (c :: cs)).map fun n => -(n : Int)
    | '+' :: c :: cs => (decimal 0 (c :: cs)).map Int.ofNat
    | c :: cs => (decimal 0 (c :: cs)).map Int.ofNat
    | [] => none
  number.filter fun n => -9223372036854775808 ≤ n && n ≤ 9223372036854775807

def parseFailureCount (annotations : StringMap) : Option Int :=
  match annotations pollFailureCountAnnotation with
  | none => some 0
  | some value => atoi value

def getFailureCount (task : TaskObject) : Int := (parseFailureCount task.annotations).getD 0

def recordFailure (task : TaskObject) (count : Int) : TaskObject :=
  { task with
    annotations := Function.update task.annotations pollFailureCountAnnotation
      (some (toString count)) }

/-! ### Backoff -/

/-- `strings.Contains`. -/
def contains (text : List Char) : List Char → Bool
  | [] => text.isEmpty
  | c :: cs => text.isPrefixOf (c :: cs) || contains text cs

def isRateLimited (message : String) : Bool :=
  ["http status 429", "http status 402", "http status 503"].any fun code =>
    contains code.toList message.toList

/-- The value of an `int64` multiplication. -/
def wrap64 (n : Int) : Int :=
  (n + 9223372036854775808) % 18446744073709551616 - 9223372036854775808

def computePollBackoff (failureCount base : Int) (rateLimited : Bool) : Int :=
  let base := if base ≤ 0 then defaultPollInterval else base
  let exponent := min (max failureCount 0) maxBackoffExponent
  let backoff := wrap64 (base * ((1 <<< exponent.toNat : ℕ) : Int))
  let backoff := if backoff ≤ 0 ∨ maxPollBackoff < backoff then maxPollBackoff else backoff
  if rateLimited ∧ backoff < rateLimitBackoffFloor then rateLimitBackoffFloor else backoff

def pollIntervalOrDefault (task : TaskObject) : Int := task.pollInterval.getD defaultPollInterval

/-! ### A poll -/

/-- `fetched` is the answer of the server, if the task has one. -/
structure PollEnv where
  fetched : Except String (Option ProtocolTask)
  updateError : Option String
  statusUpdateError : Option String
  parse : String → Option Int
  now : Int

structure Snapshot where
  phase : A2APhase
  protocolState : String
  errMsg : String
  artifactsLen : ℕ
  historyLen : ℕ
  deriving DecidableEq, Repr

def snapshotA2ATaskStatus (s : TaskStatus) : Snapshot where
  phase := s.phase
  protocolState := s.protocolState
  errMsg := s.error
  artifactsLen := s.artifacts.length
  historyLen := s.history.length

/-- The stored task, and the delay after which the task is polled again or the error. -/
structure PollResult where
  stored : TaskObject
  result : Except String (Option Int)

namespace PollEnv

variable (env : PollEnv)

/-- The status after `UpdateA2ATaskStatus` and `updateConditionsAndEvents`. -/
def polled (task : TaskObject) (answer : ProtocolTask) : TaskStatus :=
  updateConditionsAndEvents env.now task.generation task.status.phase
    (updateA2ATaskStatus env.parse task.status (some answer))

def fetchA2ATaskStatus (task : TaskObject) : Except String TaskObject :=
  match env.fetched with
  | .error err => .error err
  | .ok none => .ok task
  | .ok (some answer) => .ok { task with status := env.polled task answer }

/-- `Update` of the main resource: the stored object, and the object in memory. -/
def update (stored task : TaskObject) : TaskObject × TaskObject :=
  match env.updateError with
  | some _ => (stored, task)
  | none => ({ task with status := stored.status }, { task with status := stored.status })

def handlePollFailure (task : TaskObject) (err : String) (failureCount : Int) : PollResult where
  stored := (env.update task (recordFailure task (failureCount + 1))).1
  result := .ok (some (computePollBackoff (failureCount + 1) (pollIntervalOrDefault task)
    (isRateLimited err)))

/-- The task is the stored one when the poll begins. -/
def pollTaskStatus (task : TaskObject) : PollResult :=
  match env.fetchA2ATaskStatus task with
  | .error err => env.handlePollFailure task err (getFailureCount task)
  | .ok fetched =>
    let (stored, inMemory) :=
      if 0 < getFailureCount task then env.update task (recordFailure fetched 0)
      else (task, fetched)
    let requeue :=
      if inMemory.status.phase.isTerminal then none else some (pollIntervalOrDefault inMemory)
    if snapshotA2ATaskStatus inMemory.status = snapshotA2ATaskStatus task.status then
      { stored := stored, result := .ok requeue }
    else match env.statusUpdateError with
      | some err => { stored := stored, result := .error err }
      | none => { stored := { stored with status := inMemory.status }, result := .ok requeue }

end PollEnv

/-! ### What a poll writes -/

/-- The answer changes the phase or the protocol state, or it has an artifact or a message that the
status takes up. -/
def Visible (s : TaskStatus) (answer : ProtocolTask) : Prop :=
  s.phase ≠ answer.phase ∨ s.protocolState ≠ answer.state ∨
    (∃ a ∈ convertArtifactsFromProtocol answer.artifacts,
      a.artifactID ∉ s.artifacts.map (·.artifactID)) ∨
    ∃ m ∈ answer.fullHistory, (s.history = [] ∧ s.artifacts = []) ∨
      (m.messageID ≠ "" ∧ m.messageID ∉ s.history.map (·.messageID))

/-- The other fields of the answer are the ones that the status has. -/
def Repeats (s : TaskStatus) (answer : ProtocolTask) : Prop :=
  s.contextID = answer.contextID ∧
    s.protocolMetadata = convertMetadataToStringMap answer.metadata ∧
    s.lastStatusMessage = answer.message.map convertMessageFromProtocol ∧
    s.lastStatusTimestamp = answer.timestamp

theorem convertA2AStateToPhase_ne_pending (state : String) :
    convertA2AStateToPhase state ≠ .pending := by
  unfold convertA2AStateToPhase
  split_ifs <;> exact A2APhase.noConfusion

theorem unseen_eq_nil {seen : List String} {messages : List TaskMessage} :
    unseen seen messages = [] ↔ ∀ m ∈ messages, m.messageID = "" ∨ m.messageID ∈ seen := by
  induction messages with
  | nil => simp [unseen]
  | cons m messages ih =>
    rw [unseen]
    split
    next h =>
      simp only [reduceCtorEq, List.mem_cons, forall_eq_or_imp, false_iff, not_and]
      exact fun hm => absurd hm (not_or.mpr h)
    next h =>
      rw [ih, List.forall_mem_cons, and_iff_right]
      by_contra hm
      exact h (not_or.mp hm)

section Poll

variable {env : PollEnv} {task : TaskObject} {s : TaskStatus} {answer : ProtocolTask}

theorem mergeArtifacts_length {existing new : List TaskArtifact} :
    (mergeArtifacts existing new).length = existing.length ↔
      ∀ a ∈ new, a.artifactID ∈ existing.map (·.artifactID) := by
  rw [mergeArtifacts, List.length_append, Nat.add_eq_left, List.length_eq_zero_iff,
    List.filter_eq_nil_iff]
  simp only [decide_eq_true_eq, not_not]

theorem mergeHistory_length {existing new : List TaskMessage} :
    (mergeHistory existing new).length = existing.length ↔
      ∀ m ∈ new, m.messageID = "" ∨ m.messageID ∈ existing.map (·.messageID) := by
  rw [mergeHistory, List.length_append, Nat.add_eq_left, List.length_eq_zero_iff, unseen_eq_nil]
  refine forall₂_congr fun m _ => ?_
  simp only [List.mem_filter, ne_eq, decide_not, Bool.not_eq_eq_eq_not, Bool.not_true,
    decide_eq_false_iff_not]
  tauto

theorem mergeArtifacts_eq_left {existing new : List TaskArtifact}
    (h : ∀ a ∈ new, a.artifactID ∈ existing.map (·.artifactID)) :
    mergeArtifacts existing new = existing := by
  have hlength := mergeArtifacts_length.mpr h
  rw [mergeArtifacts, List.length_append, Nat.add_eq_left, List.length_eq_zero_iff] at hlength
  rw [mergeArtifacts, hlength, List.append_nil]

theorem mergeHistory_eq_left {existing new : List TaskMessage}
    (h : ∀ m ∈ new, m.messageID = "" ∨ m.messageID ∈ existing.map (·.messageID)) :
    mergeHistory existing new = existing := by
  have hlength := mergeHistory_length.mpr h
  rw [mergeHistory, List.length_append, Nat.add_eq_left, List.length_eq_zero_iff] at hlength
  rw [mergeHistory, hlength, List.append_nil]

/-- Conditions are no part of the snapshot, nor of what a poll takes from the answer. -/
theorem updateConditionsAndEvents_spec (now generation : Int) (oldPhase : A2APhase) :
    ∃ conditions, updateConditionsAndEvents now generation oldPhase s =
      { s with conditions := conditions } ∧ (s.phase = oldPhase → conditions = s.conditions) := by
  unfold updateConditionsAndEvents
  split
  next h => exact ⟨_, rfl, fun _ => rfl⟩
  next h => split <;> exact ⟨_, rfl, fun hphase => absurd hphase h⟩

theorem mergeArtifacts_nil (new : List TaskArtifact) : mergeArtifacts [] new = new := by
  simp [mergeArtifacts]

theorem updateA2ATaskStatus_eq (parse : String → Option Int) :
    updateA2ATaskStatus parse s (some answer) = { s with
      phase := answer.phase
      startTime := if s.phase = .pending ∧ s.startTime = none then
        parseProtocolTimestamp parse answer.timestamp else s.startTime
      completionTime := if !s.phase.isTerminal && answer.phase.isTerminal then
        (parseProtocolTimestamp parse answer.timestamp).or s.completionTime else s.completionTime
      protocolState := answer.state
      contextID := answer.contextID
      artifacts := mergeArtifacts s.artifacts (convertArtifactsFromProtocol answer.artifacts)
      history := if s.history.isEmpty && s.artifacts.isEmpty then answer.fullHistory
        else mergeHistory s.history answer.fullHistory
      protocolMetadata := convertMetadataToStringMap answer.metadata
      lastStatusMessage := answer.message.map convertMessageFromProtocol
      lastStatusTimestamp := answer.timestamp } := by
  simp only [updateA2ATaskStatus]
  split
  next h =>
    have hartifacts : s.artifacts = [] := by
      rw [Bool.and_eq_true, List.isEmpty_iff, List.isEmpty_iff] at h
      exact h.2
    rw [hartifacts, mergeArtifacts_nil]
    rfl
  next => rfl

theorem mergedHistory_length :
    (if s.history.isEmpty && s.artifacts.isEmpty then answer.fullHistory
      else mergeHistory s.history answer.fullHistory).length = s.history.length ↔
        ∀ m ∈ answer.fullHistory, ¬ ((s.history = [] ∧ s.artifacts = []) ∨
          (m.messageID ≠ "" ∧ m.messageID ∉ s.history.map (·.messageID))) := by
  split
  next h =>
    rw [Bool.and_eq_true, List.isEmpty_iff, List.isEmpty_iff] at h
    rw [h.1, List.length_nil, List.length_eq_zero_iff, List.eq_nil_iff_forall_not_mem]
    refine forall₂_congr fun m _ => ?_
    simp [h.2]
  next h =>
    rw [Bool.and_eq_true, List.isEmpty_iff, List.isEmpty_iff] at h
    rw [mergeHistory_length]
    refine forall₂_congr fun m _ => ?_
    rw [or_iff_right h]
    tauto

/-- The snapshot changes if and only if the answer is visible. -/
theorem snapshot_polled : snapshotA2ATaskStatus (env.polled task answer) =
    snapshotA2ATaskStatus task.status ↔ ¬ Visible task.status answer := by
  obtain ⟨conditions, hpolled, -⟩ := updateConditionsAndEvents_spec (s := updateA2ATaskStatus
    env.parse task.status (some answer)) env.now task.generation task.status.phase
  rw [PollEnv.polled, hpolled, updateA2ATaskStatus_eq]
  simp only [snapshotA2ATaskStatus, Snapshot.mk.injEq, true_and, mergeArtifacts_length,
    mergedHistory_length, Visible]
  push Not
  rw [eq_comm, eq_comm (a := answer.state)]

/-- An answer that is not visible changes nothing else if and only if it repeats the status. -/
theorem polled_eq_iff (h : ¬ Visible task.status answer) :
    env.polled task answer = task.status ↔ Repeats task.status answer := by
  unfold Visible at h
  push Not at h
  obtain ⟨hphase, hstate, hartifacts, hhistory⟩ := h
  have hpending : task.status.phase ≠ .pending := by
    rw [hphase]
    exact convertA2AStateToPhase_ne_pending answer.state
  have hmerged : (if task.status.history.isEmpty && task.status.artifacts.isEmpty then
      answer.fullHistory else mergeHistory task.status.history answer.fullHistory) =
        task.status.history := by
    split
    next hempty =>
      rw [Bool.and_eq_true, List.isEmpty_iff, List.isEmpty_iff] at hempty
      rw [hempty.1]
      refine List.eq_nil_iff_forall_not_mem.mpr fun m hm => ?_
      exact (hhistory m hm).1 hempty.1 hempty.2
    next =>
      apply mergeHistory_eq_left
      intro m hm
      by_cases hid : m.messageID = ""
      · exact .inl hid
      · exact .inr ((hhistory m hm).2 hid)
  obtain ⟨conditions, hpolled, hconditions⟩ := updateConditionsAndEvents_spec
    (s := updateA2ATaskStatus env.parse task.status (some answer)) env.now task.generation
    task.status.phase
  rw [updateA2ATaskStatus_eq] at hpolled hconditions
  rw [PollEnv.polled, updateA2ATaskStatus_eq, hpolled, hconditions hphase.symm, hmerged,
    mergeArtifacts_eq_left hartifacts, ← hphase, ← hstate, if_neg fun h => hpending h.1, Repeats]
  rw [Bool.not_and_self, if_neg Bool.false_ne_true]
  constructor
  · intro heq
    exact ⟨congrArg TaskStatus.contextID heq.symm, congrArg TaskStatus.protocolMetadata heq.symm,
      congrArg TaskStatus.lastStatusMessage heq.symm,
      congrArg TaskStatus.lastStatusTimestamp heq.symm⟩
  · rintro ⟨hcontext, hmetadata, hmessage, htimestamp⟩
    rw [← hcontext, ← hmetadata, ← hmessage, ← htimestamp]

section Persist

variable (hfetch : env.fetched = .ok (some answer)) (hstatus : env.statusUpdateError = none)
include hfetch

theorem fetchA2ATaskStatus_eq :
    env.fetchA2ATaskStatus task = .ok { task with status := env.polled task answer } := by
  rw [PollEnv.fetchA2ATaskStatus, hfetch]

/-- After a failure the object in memory is replaced by the stored one before it is compared. -/
theorem poll_after_failure (hupdate : env.updateError = none) (hcount : 0 < getFailureCount task) :
    (env.pollTaskStatus task).stored.status = task.status := by
  rw [PollEnv.pollTaskStatus, fetchA2ATaskStatus_eq hfetch]
  simp only [if_pos hcount, PollEnv.update, hupdate, if_true]

include hstatus

theorem poll_without_failure (hcount : ¬ 0 < getFailureCount task) :
    (env.pollTaskStatus task).stored.status =
      if snapshotA2ATaskStatus (env.polled task answer) = snapshotA2ATaskStatus task.status then
        task.status
      else env.polled task answer := by
  rw [PollEnv.pollTaskStatus, fetchA2ATaskStatus_eq hfetch]
  simp only [if_neg hcount, hstatus]
  split <;> rfl

/-- A poll stores what it saw if and only if the answer is visible and no failure is on record, or
the answer repeats the status. -/
theorem poll_persists_iff (hupdate : env.updateError = none) :
    (env.pollTaskStatus task).stored.status = env.polled task answer ↔
      (Visible task.status answer ∧ getFailureCount task ≤ 0) ∨
        (¬ Visible task.status answer ∧ Repeats task.status answer) := by
  have hne : Visible task.status answer → task.status ≠ env.polled task answer := by
    intro hvisible heq
    exact snapshot_polled.mp (congrArg snapshotA2ATaskStatus heq.symm) hvisible
  by_cases hvisible : Visible task.status answer
  · simp only [hvisible, true_and, not_true_eq_false, false_and, or_false]
    by_cases hcount : 0 < getFailureCount task
    · rw [poll_after_failure hfetch hupdate hcount]
      exact iff_of_false (hne hvisible) (Int.not_le.mpr hcount)
    · rw [poll_without_failure hfetch hstatus hcount, if_neg (snapshot_polled.not_left.mpr hvisible)]
      exact iff_of_true rfl (Int.not_lt.mp hcount)
  · simp only [hvisible, false_and, not_false_eq_true, true_and, false_or]
    have hrepeats : env.polled task answer = task.status ↔ _ := polled_eq_iff hvisible
    rw [← hrepeats, eq_comm (a := env.polled task answer)]
    by_cases hcount : 0 < getFailureCount task
    · rw [poll_after_failure hfetch hupdate hcount]
    · rw [poll_without_failure hfetch hstatus hcount, if_pos (snapshot_polled.mpr hvisible)]

end Persist

end Poll

/-! ### A task that completes -/

section Completes

def runningTask (annotations : StringMap) : TaskObject where
  annotations := annotations
  generation := 1
  pollInterval := none
  status := { phase := .running, protocolState := "working" }

def answerIn (state contextID : String) : ProtocolTask where
  id := "task-1"
  contextID := contextID
  artifacts := []
  history := []
  metadata _ := none
  state := state
  message := none
  timestamp := ""

def answering (answer : ProtocolTask) : PollEnv where
  fetched := .ok (some answer)
  updateError := none
  statusUpdateError := none
  parse _ := none
  now := 0

theorem poll_persists_completed :
    ((answering (answerIn "completed" "")).pollTaskStatus (runningTask fun _ => none)).stored.status =
        (answering (answerIn "completed" "")).polled (runningTask fun _ => none)
          (answerIn "completed" "") ↔
      (Visible (runningTask fun _ => none).status (answerIn "completed" "") ∧
        getFailureCount (runningTask fun _ => none) ≤ 0) ∨
      (¬ Visible (runningTask fun _ => none).status (answerIn "completed" "") ∧
        Repeats (runningTask fun _ => none).status (answerIn "completed" "")) :=
  poll_persists_iff rfl rfl rfl

/-- The completion is lost when a failure was on record, and a new context when nothing else
changed. -/
theorem poll_loses_answer :
    ((answering (answerIn "completed" "")).pollTaskStatus
      (runningTask fun _ => some "3")).stored.status ≠
        (answering (answerIn "completed" "")).polled (runningTask fun _ => some "3")
          (answerIn "completed" "") ∧
    ((answering (answerIn "working" "context-1")).pollTaskStatus
      (runningTask fun _ => none)).stored.status ≠
        (answering (answerIn "working" "context-1")).polled (runningTask fun _ => none)
          (answerIn "working" "context-1") := by
  constructor
  · intro h
    have hcount : 0 < getFailureCount (runningTask fun _ => some "3") := by decide
    rw [poll_after_failure rfl rfl hcount] at h
    exact absurd (congrArg TaskStatus.phase h) (by decide)
  · intro h
    have hcount : ¬ 0 < getFailureCount (runningTask fun _ => none) := by decide
    have hsnapshot : snapshotA2ATaskStatus ((answering (answerIn "working" "context-1")).polled
        (runningTask fun _ => none) (answerIn "working" "context-1")) =
          snapshotA2ATaskStatus (runningTask fun _ => none).status := by decide
    rw [poll_without_failure rfl rfl hcount, if_pos hsnapshot] at h
    exact absurd (congrArg TaskStatus.contextID h) (by decide)

end Completes

end Ark.A2A
