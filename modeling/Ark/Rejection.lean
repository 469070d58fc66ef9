import Ark.ApprovalTask

/-!
# A rejection that stands

A rejection that is stored while its task waits for an approval is acted on by a later reconcile, but
that reconcile looks at the timeout first: under `onTimeout: proceed` it completes a task whose
approval has expired, whatever the user has decided in time.
-/

namespace Ark

namespace A2ATask

variable {f : Formats} {now : Int} {t t' : A2ATask}

/-- The approval has expired by `now` under the policy that lets the tool calls proceed. -/
structure ProceedsAt (f : Formats) (now : Int) (t : A2ATask) : Prop where
  expired : ∃ metadata timeout startTime, t.protocolMetadata = some metadata ∧
    (metadata.lookup "timeout").getD "" ≠ "" ∧
    f.parseDuration ((metadata.lookup "timeout").getD "") = .ok timeout ∧
    t.startTime = some startTime ∧ startTime + timeout ≤ now ∧
    (metadata.lookup "onTimeout").getD "" = "proceed"

/-- What a status update leaves alone. -/
structure SameTask (t t' : A2ATask) : Prop where
  input : t'.input = t.input
  ttl : t'.ttl = t.ttl
  creationTimestamp : t'.creationTimestamp = t.creationTimestamp
  protocolMetadata : t'.protocolMetadata = t.protocolMetadata
  startTime : t'.startTime = t.startTime

theorem SameTask.refl (t : A2ATask) : SameTask t t := ⟨rfl, rfl, rfl, rfl, rfl⟩

theorem SameTask.trans {t'' : A2ATask} (h : SameTask t t') (h' : SameTask t' t'') :
    SameTask t t'' where
  input := h'.input.trans h.input
  ttl := h'.ttl.trans h.ttl
  creationTimestamp := h'.creationTimestamp.trans h.creationTimestamp
  protocolMetadata := h'.protocolMetadata.trans h.protocolMetadata
  startTime := h'.startTime.trans h.startTime

theorem SameTask.expiry (h : SameTask t t') : t'.expiry = t.expiry := by
  rw [A2ATask.expiry, A2ATask.expiry, h.ttl, h.creationTimestamp]

theorem SameTask.proceedsAt (h : SameTask t t') (hp : t.ProceedsAt f now) : t'.ProceedsAt f now := by
  constructor
  rw [h.protocolMetadata, h.startTime]
  exact hp.expired

theorem SameTask.symm (h : SameTask t t') : SameTask t' t where
  input := h.input.symm
  ttl := h.ttl.symm
  creationTimestamp := h.creationTimestamp.symm
  protocolMetadata := h.protocolMetadata.symm
  startTime := h.startTime.symm

theorem ProceedsAt.mono {later : Int} (h : t.ProceedsAt f now) (hle : now ≤ later) :
    t.ProceedsAt f later := by
  obtain ⟨metadata, timeout, startTime, hmeta, hne, hparse, hstart, hexp, hpolicy⟩ := h.expired
  exact ⟨metadata, timeout, startTime, hmeta, hne, hparse, hstart, by omega, hpolicy⟩

/-! ### What a reconcile decides -/

/-- A timeout that is acted on completes the task under the policy that proceeds, and fails it
otherwise. -/
theorem checkApprovalTimeout_some (h : t.checkApprovalTimeout f now = .ok (some t')) :
    SameTask t t' ∧ (t'.phase = .completed ∧ t.ProceedsAt f now ∨ t'.phase = .failed) := by
  unfold checkApprovalTimeout at h
  split at h
  next => cases h
  next metadata hmeta =>
    simp only at h
    split at h
    next => cases h
    next hne =>
      split at h
      next => cases h
      next timeout hparse =>
        split at h
        next => cases h
        next startTime hstart =>
          split at h
          next => cases h
          next hexp =>
            split at h
            next hpolicy =>
              cases h
              refine ⟨⟨rfl, rfl, rfl, rfl, rfl⟩, .inl ⟨rfl, ?_⟩⟩
              exact ⟨metadata, timeout, startTime, hmeta, hne, hparse, hstart, by omega, hpolicy⟩
            next =>
              split at h
              next =>
                cases h
                exact ⟨⟨rfl, rfl, rfl, rfl, rfl⟩, .inr rfl⟩
              next => cases h

theorem checkApprovalTimeout_of_proceedsAt (h : t.ProceedsAt f now) :
    ∃ t', t.checkApprovalTimeout f now = .ok (some t') ∧ t'.phase = .completed := by
  obtain ⟨metadata, timeout, startTime, hmeta, hne, hparse, hstart, hexp, hpolicy⟩ := h.expired
  unfold checkApprovalTimeout
  simp only [hmeta, hne, if_false, hparse, hstart, hpolicy, if_true]
  rw [if_neg (by omega)]
  exact ⟨_, rfl, rfl⟩

theorem processApprovalDecision_some (h : t.processApprovalDecision f now = some t') :
    SameTask t t' ∧ t'.phase.isTerminal = true := by
  unfold processApprovalDecision at h
  split at h
  next =>
    cases h
    exact ⟨⟨rfl, rfl, rfl, rfl, rfl⟩, rfl⟩
  next =>
    split at h
    next => cases h
    next =>
      split at h
      next =>
        cases h
        exact ⟨⟨rfl, rfl, rfl, rfl, rfl⟩, rfl⟩
      next =>
        split at h <;> cases h <;> exact ⟨⟨rfl, rfl, rfl, rfl, rfl⟩, rfl⟩

theorem processApprovalDecision_rejected (hdecision : f.decision t.input = .ok "rejected")
    (h : t.processApprovalDecision f now = some t') : t'.phase = .failed := by
  unfold processApprovalDecision at h
  simp only [hdecision] at h
  cases h
  rfl

theorem sameTask_notStarted (t : A2ATask) : SameTask t t.notStarted := ⟨rfl, rfl, rfl, rfl, rfl⟩

/-- A status update keeps the task's data, and leaves it waiting only if it was. -/
theorem reconcile_update (h : t.reconcile f now = .update t') :
    SameTask t t' ∧ (t'.phase = .inputRequired → t.phase = .inputRequired) := by
  unfold reconcile at h
  split at h
  next => cases h
  next =>
    split at h
    next =>
      cases h
      refine ⟨t.sameTask_notStarted, ?_⟩
      intro hphase
      simp only [notStarted, setConditionCompleted] at hphase
      split at hphase
      next => cases hphase
      next => exact hphase
    next =>
      split at h
      next => cases h
      next hphase =>
        refine ⟨?_, fun _ => not_not.mp hphase⟩
        split at h
        next hcheck =>
          cases h
          exact (checkApprovalTimeout_some hcheck).1
        all_goals
          split at h
          next => cases h
          next =>
            split at h
            next hdecision =>
              cases h
              exact (processApprovalDecision_some hdecision).1
            next => cases h

/-- A rejected task is completed only by its timeout. -/
theorem reconcile_rejected (hphase : t.phase = .inputRequired ∨ t.phase = .failed)
    (hdecision : f.decision t.input = .ok "rejected")
    (hp : t.phase = .inputRequired → ¬ t.ProceedsAt f now) (h : t.reconcile f now = .update t') : t'.phase = .inputRequired ∨ t'.phase = .failed := by
  unfold reconcile at h
  split at h
  next => cases h
  next =>
    split at h
    next =>
      cases h
      rcases hphase with hphase | hphase
      · exact .inl (by simp [notStarted, setConditionCompleted, hphase])
      · exact .inr (by simp [notStarted, setConditionCompleted, hphase])
    next =>
      split at h
      next => cases h
      next hwaiting =>
        split at h
        next hcheck =>
          cases h
          rcases (checkApprovalTimeout_some hcheck).2 with ⟨-, hproceeds⟩ | hfailed
          · exact absurd hproceeds (hp (not_not.mp hwaiting))
          · exact .inr hfailed
        all_goals
          split at h
          next => cases h
          next =>
            split at h
            next hsome =>
              cases h
              exact .inr (processApprovalDecision_rejected hdecision hsome)
            next => cases h

theorem reconcile_proceeds (halive : now < t.expiry) (hcond : t.condition ≠ none)
    (hphase : t.phase = .inputRequired) (hp : t.ProceedsAt f now) :
    ∃ t', t.reconcile f now = .update t' ∧ t'.phase = .completed := by
  obtain ⟨t', hcheck, hcompleted⟩ := checkApprovalTimeout_of_proceedsAt hp
  refine ⟨t', ?_, hcompleted⟩
  unfold reconcile
  rw [if_neg (by omega), if_neg hcond, if_neg (by simpa using hphase)]
  simp only [hcheck]

theorem reconcile_of_condition_none (halive : now < t.expiry) (hcond : t.condition = none) :
    t.reconcile f now = .update t.notStarted := by
  unfold reconcile
  rw [if_neg (by omega), if_pos hcond]

/-- A task that the user has rejected and that nothing has approved. -/
def StandsRejected (f : Formats) (t : A2ATask) : Prop :=
  f.decision t.input = .ok "rejected" ∧ (t.phase = .inputRequired ∨ t.phase = .failed)

theorem StandsRejected.reconcile (h : t.StandsRejected f)
    (hp : t.phase = .inputRequired → ¬ t.ProceedsAt f now) (ht : t.reconcile f now = .update t') :
    t'.StandsRejected f ∧ t'.input = t.input := by
  have hsame := (reconcile_update ht).1
  refine ⟨⟨?_, ?_⟩, hsame.input⟩
  · rw [hsame.input]
    exact h.1
  · exact reconcile_rejected h.2 h.1 hp ht

theorem checkResumption_ne_some_true (h : t.phase ≠ .completed) : t.checkResumption ≠ some true := by
  unfold checkResumption
  rw [if_neg h]
  split <;> simp

end A2ATask

namespace TaskState

open Machine A2ATask

variable {f : Formats} {s t : TaskState} {a : TaskAction}

def versions (s : TaskState) : List A2ATask := s.task :: s.past

/-- The rejection has just been stored: the task waits, its input decodes to a rejection, and no
status update has been computed from this version. -/
structure Rejected (f : Formats) (s : TaskState) : Prop where
  waiting : s.task.phase = .inputRequired
  decision : f.decision s.task.input = .ok "rejected"
  undecided : ∀ version t, s.pending = some (version, t) → version ≠ s.past.length
  stored : s.deleted = false

/-- Nobody writes the input again. -/
def inputUnchanged (_ : TaskState) (a : TaskAction) : Prop := ∀ text, a ≠ .writeInput text

/-- Nobody writes the input again, and no reconcile finds the task still waiting when its approval
has expired under the policy that proceeds. -/
def undisturbed (f : Formats) (s : TaskState) (a : TaskAction) : Prop :=
  (∀ text, a ≠ .writeInput text) ∧
    (a = .reconcile 0 → s.task.phase = .inputRequired → ¬ s.task.ProceedsAt f s.clock)

/-- No version of the task is completed, and no query that reads one takes it for approved. -/
def NeverApproved (s : TaskState) : Prop :=
  ∀ t ∈ s.versions, t.phase ≠ .completed ∧ t.checkResumption ≠ some true

/-! ### What a step does -/

/-- A step stores the pending update, a new input or the same task again, or it stores nothing and at
most computes an update from a version that it reads. -/
theorem step_cases (h : s.step f a = some t) :
    (∃ version q, s.pending = some (version, q) ∧ version = s.past.length ∧
      t = { s.store q with pending := none }) ∨
    (∃ text, a = .writeInput text ∧ t = s.store { s.task with input := text }) ∨
    t = s.store s.task ∨
    (t.task = s.task ∧ t.past = s.past ∧ (t.pending = s.pending ∨ t.pending = none ∨
      ∃ age q r, a = .reconcile age ∧ s.version age = some q ∧ q.reconcile f s.clock = .update r ∧
        t.pending = some (s.past.length - age, r))) := by
  cases a with
  | reconcile age =>
    simp only [step] at h
    split at h
    next q hnone hq =>
      right; right; right
      split at h
      next => cases h; exact ⟨rfl, rfl, .inl rfl⟩
      next => cases h; exact ⟨rfl, rfl, .inl rfl⟩
      next r hr => cases h; exact ⟨rfl, rfl, .inr (.inr ⟨age, q, r, rfl, hq, hr, rfl⟩)⟩
    next => cases h
  | commit =>
    simp only [step] at h
    split at h
    next version q hpending =>
      split at h
      next hv => cases h; exact .inl ⟨version, q, hpending, hv.1, rfl⟩
      next => cases h
    next => cases h
  | abandon => cases h; exact .inr (.inr (.inr ⟨rfl, rfl, .inr (.inl rfl)⟩))
  | writeInput text =>
    simp only [step] at h
    split at h
    next => cases h
    next => cases h; exact .inr (.inl ⟨text, rfl, rfl⟩)
  | touch =>
    simp only [step] at h
    split at h
    next => cases h
    next => cases h; exact .inr (.inr (.inl rfl))
  | tick n => cases h; exact .inr (.inr (.inr ⟨rfl, rfl, .inl rfl⟩))

/-- An update computed from an older version than the current one will conflict. -/
theorem version_of_current {age : ℕ} {q : A2ATask} (h : s.version age = some q)
    (hcurrent : s.past.length - age = s.past.length) : age = 0 ∧ q = s.task := by
  have hlt : age < (s.task :: s.past).length := (List.getElem?_eq_some_iff.mp h).1
  have hage : age = 0 := by
    rw [List.length_cons] at hlt
    omega
  subst hage
  exact ⟨rfl, (Option.some.inj h).symm⟩

/-! ### Before the rejection -/

/-- While the task waits, all its versions have waited, and an update of the current version would
let it wait on only if it waits now. -/
structure Waiting (s : TaskState) : Prop where
  past : s.task.phase = .inputRequired → ∀ q ∈ s.past, q.phase = .inputRequired
  pending : ∀ version q, s.pending = some (version, q) → version ≤ s.past.length ∧
    (version = s.past.length → q.phase = .inputRequired → s.task.phase = .inputRequired)

theorem Waiting.store (h : s.Waiting) {q : A2ATask}
    (hq : q.phase = .inputRequired → s.task.phase = .inputRequired) : (s.store q).Waiting where
  past hphase p hp := by
    rcases List.mem_cons.mp hp with rfl | hp
    · exact hq hphase
    · exact h.past (hq hphase) p hp
  pending version p hp := by
    have hle := (h.pending version p hp).1
    rw [TaskState.store, List.length_cons]
    exact ⟨by omega, by omega⟩

theorem Waiting.step (h : s.Waiting) (hst : s.step f a = some t) : t.Waiting := by
  rcases step_cases hst with ⟨version, q, hp, hv, rfl⟩ | ⟨text, -, rfl⟩ | rfl | ⟨htask, hpast, hp⟩
  · exact ⟨(h.store ((h.pending version q hp).2 hv)).past, by simp⟩
  · exact h.store id
  · exact h.store id
  · constructor
    · rw [htask, hpast]
      exact h.past
    · rw [htask, hpast]
      rcases hp with hp | hp | ⟨age, q, r, -, hq, hr, hp⟩
      · rw [hp]
        exact h.pending
      · simp [hp]
      · intro version p heq
        rw [hp] at heq
        cases heq
        refine ⟨by omega, ?_⟩
        intro hv hphase
        rw [← (version_of_current hq hv).2]
        exact (reconcile_update hr).2 hphase

theorem waiting (hs : (machine f).Reachable always s) : s.Waiting := by
  refine hs.invariant ?_ (fun _ _ _ h _ hst => h.step hst)
  rintro s ⟨-, hpast, -, hpending⟩
  exact ⟨by simp [hpast], by simp [hpending]⟩

/-! ### After the rejection -/

/-- Every version waits or has failed, the current one still holds the rejection, and so does an
update of it. -/
structure Standing (f : Formats) (s : TaskState) : Prop where
  current : s.task.StandsRejected f
  past : ∀ q ∈ s.past, q.phase = .inputRequired ∨ q.phase = .failed
  pending : ∀ version q, s.pending = some (version, q) → version ≤ s.past.length ∧
    (version = s.past.length → q.StandsRejected f)

theorem Standing.store (h : s.Standing f) {q : A2ATask} (hq : q.StandsRejected f) :
    (s.store q).Standing f where
  current := hq
  past p hp := by
    rcases List.mem_cons.mp hp with rfl | hp
    · exact h.current.2
    · exact h.past p hp
  pending version p hp := by
    have hle := (h.pending version p hp).1
    rw [TaskState.store, List.length_cons]
    exact ⟨by omega, by omega⟩

theorem Standing.step (h : s.Standing f) (hok : s.undisturbed f a) (hst : s.step f a = some t) :
    t.Standing f := by
  rcases step_cases hst with ⟨version, q, hp, hv, rfl⟩ | ⟨text, rfl, -⟩ | rfl | ⟨htask, hpast, hp⟩
  · have hnext := h.store ((h.pending version q hp).2 hv)
    exact ⟨hnext.current, hnext.past, by simp⟩
  · exact absurd rfl (hok.1 text)
  · exact h.store h.current
  · constructor
    · rw [htask]
      exact h.current
    · rw [hpast]
      exact h.past
    · rw [hpast]
      rcases hp with hp | hp | ⟨age, q, r, rfl, hq, hr, hp⟩
      · rw [hp]
        exact h.pending
      · simp [hp]
      · intro version p heq
        rw [hp] at heq
        cases heq
        refine ⟨by omega, ?_⟩
        intro hv
        obtain ⟨rfl, rfl⟩ := version_of_current hq hv
        exact (h.current.reconcile (hok.2 rfl) hr).1

theorem Rejected.standing (hrej : s.Rejected f) (h : s.Waiting) : s.Standing f where
  current := ⟨hrej.decision, .inl hrej.waiting⟩
  past q hq := .inl (h.past hrej.waiting q hq)
  pending version q hp :=
    ⟨(h.pending version q hp).1, fun hv => absurd hv (hrej.undecided version q hp)⟩

theorem Standing.neverApproved (h : s.Standing f) : s.NeverApproved := by
  intro q hq
  have hphase : q.phase = .inputRequired ∨ q.phase = .failed := by
    rcases List.mem_cons.mp hq with rfl | hq
    · exact h.current.2
    · exact h.past q hq
  have hne : q.phase ≠ .completed := by
    rcases hphase with hphase | hphase <;> rw [hphase] <;> decide
  exact ⟨hne, checkResumption_ne_some_true hne⟩

/-! ### The run that overrides it -/

/-- A reconcile and its status update. -/
theorem run_update {ok : TaskState → TaskAction → Prop} {r : A2ATask} (hpending : s.pending = none)
    (hstored : s.deleted = false) (hr : s.task.reconcile f s.clock = .update r)
    (hok : ok s (.reconcile 0)) (hcommit : ∀ u, ok u .commit) :
    (machine f).Run ok s (s.store r) := by
  have hreconcile : s.step f (.reconcile 0) = some { s with pending := some (s.past.length, r) } := by
    simp [TaskState.step, TaskState.version, hpending, hr]
  refine (Run.refl.tail (a := .reconcile 0) hok hreconcile).tail (hcommit _) ?_
  simp [machine, TaskState.step, TaskState.store, hstored, hpending]

/-- A waiting task is completed by one reconcile once its approval has expired. -/
theorem run_completed (hpending : s.pending = none) (hstored : s.deleted = false)
    (hphase : s.task.phase = .inputRequired) (hcond : s.task.condition ≠ none)
    (halive : s.clock < s.task.expiry) (hp : s.task.ProceedsAt f s.clock) :
    ∃ t, (machine f).Run inputUnchanged s t ∧ t.task.phase = .completed := by
  obtain ⟨r, hr, hcompleted⟩ := reconcile_proceeds halive hcond hphase hp
  exact ⟨s.store r, run_update hpending hstored hr (fun _ => TaskAction.noConfusion)
    (fun _ _ => TaskAction.noConfusion), hcompleted⟩

theorem run_wait {now : Int} (hclock : s.clock ≤ now) :
    (machine f).Run inputUnchanged s { s with pending := none, clock := now } := by
  refine (Run.refl.tail (a := .abandon) ?_ rfl).tail (a := .tick (now - s.clock).toNat) ?_ ?_
  · intro text; exact TaskAction.noConfusion
  · intro text; exact TaskAction.noConfusion
  · simp [machine, TaskState.step]
    omega

theorem Rejected.exists_completed {now : Int} (hrej : s.Rejected f) (hclock : s.clock ≤ now)
    (halive : now < s.task.expiry) (hp : s.task.ProceedsAt f now) :
    ∃ t, (machine f).Run inputUnchanged s t ∧ t.task.phase = .completed := by
  have hwait := run_wait (f := f) hclock
  by_cases hcond : s.task.condition = none
  · -- the first reconcile only sets the condition
    have hr := reconcile_of_condition_none (f := f) halive hcond
    have hfirst := hwait.trans (run_update rfl hrej.stored hr (fun _ => TaskAction.noConfusion)
      (fun _ _ => TaskAction.noConfusion))
    obtain ⟨t, ht, hcompleted⟩ := run_completed
      (s := { s with pending := none, clock := now }.store s.task.notStarted) rfl hrej.stored
      (by simp [TaskState.store, notStarted, setConditionCompleted, hrej.waiting])
      (by simp [TaskState.store, notStarted, setConditionCompleted]) halive
      (s.task.sameTask_notStarted.proceedsAt hp)
    exact ⟨t, hfirst.trans ht, hcompleted⟩
  · obtain ⟨t, ht, hcompleted⟩ := run_completed
      (s := { s with pending := none, clock := now }) rfl hrej.stored hrej.waiting hcond halive hp
    exact ⟨t, hwait.trans ht, hcompleted⟩

/-- A rejection stands in every run in which no reconcile finds the task still waiting when its
approval has expired under `onTimeout: proceed`; and where the approval expires so before the task
itself does, some run overrides the rejection. -/
theorem rejection_stands (hs : (machine f).Reachable always s) (hrej : s.Rejected f) :
    (∀ t, (machine f).Run (undisturbed f) s t → t.NeverApproved) ∧
    (∀ now, s.clock ≤ now → now < s.task.expiry → s.task.ProceedsAt f now →
      ∃ t, (machine f).Run inputUnchanged s t ∧ t.task.phase = .completed) := by
  constructor
  · intro t ht
    have hstanding := ht.preserves (fun _ _ _ h hok hst => h.step hok hst)
      (hrej.standing (waiting hs))
    exact hstanding.neverApproved
  · intro now hclock halive hp
    exact hrej.exists_completed hclock halive hp

/-! ### An approval request with a timeout of five minutes -/

def seconds (n : ℕ) : Int := n * 1000000000

/-- Only the texts that the two runs below use. -/
def formats : Formats where
  parseDuration text := if text = "5m0s" then .ok (seconds 300) else .error "invalid duration"
  durationString _ := "5m0s"
  decision text :=
    if text = "\x7b\"decision\":\"rejected\"\x7d" then .ok "rejected" else .error "invalid character"

def request : TaskState where
  task := {
    input := ""
    ttl := none
    creationTimestamp := 0
    phase := .inputRequired
    error := ""
    protocolMetadata := some [("timeout", "5m0s"), ("onTimeout", "proceed")]
    startTime := some 0
    completionTime := none
    condition := some ⟨false, "TaskNotStarted", "Task has not been started yet"⟩ }
  past := []
  deleted := false
  clock := 0
  pending := none

/-- The user rejects the request one second before it expires. -/
def rejectedInTime : TaskState :=
  { request.store { request.task with input := "\x7b\"decision\":\"rejected\"\x7d" } with
    clock := seconds 299 }

theorem reachable_rejectedInTime : (machine formats).Reachable always rejectedInTime := by
  refine ⟨request, ⟨rfl, rfl, rfl, rfl⟩, ?_⟩
  refine (Run.refl.tail (a := .tick 299000000000) trivial rfl).tail
    (a := .writeInput "\x7b\"decision\":\"rejected\"\x7d") trivial ?_
  rfl

theorem rejected_rejectedInTime : rejectedInTime.Rejected formats where
  waiting := rfl
  decision := by decide
  undecided := by intro version t h; cases h
  stored := rfl

theorem proceedsAt_rejectedInTime (now : Int) :
    rejectedInTime.task.ProceedsAt formats now ↔ seconds 300 ≤ now := by
  constructor
  · intro h
    obtain ⟨metadata, timeout, startTime, hmeta, -, hparse, hstart, hexpired, -⟩ := h.expired
    obtain rfl : _ = metadata := Option.some.inj hmeta
    obtain rfl : _ = startTime := Option.some.inj hstart
    obtain rfl : seconds 300 = timeout := Except.ok.inj hparse
    omega
  · intro h
    exact ⟨_, seconds 300, 0, rfl, by decide, by decide, rfl, by omega, by decide⟩

/-- The reconcile comes a second after the timeout and completes the task that the user has
rejected. -/
theorem rejection_overridden :
    (machine formats).Reachable always rejectedInTime ∧ rejectedInTime.Rejected formats ∧
    ∃ t, (machine formats).Run inputUnchanged rejectedInTime t ∧ t.task.phase = .completed ∧
      t.task.checkResumption = some true := by
  refine ⟨reachable_rejectedInTime, rejected_rejectedInTime, ?_⟩
  have hproceeds := (proceedsAt_rejectedInTime (seconds 300)).mpr (Int.le_refl _)
  obtain ⟨t, ht, hcompleted⟩ :=
    rejected_rejectedInTime.exists_completed (by decide) (by decide) hproceeds
  exact ⟨t, ht, hcompleted, if_pos hcompleted⟩

/-- A reconcile that comes in time fails the task, and nothing later approves it. -/
theorem rejection_stands_in_time :
    ∃ t, (machine formats).Run (undisturbed formats) rejectedInTime t ∧ t.task.phase = .failed ∧
      t.NeverApproved := by
  obtain ⟨r, hr, hphase⟩ : ∃ r, rejectedInTime.task.reconcile formats (seconds 299) = .update r ∧
      r.phase = .failed := ⟨_, rfl, rfl⟩
  have hrun : (machine formats).Run (undisturbed formats) rejectedInTime (rejectedInTime.store r) := by
    refine run_update rfl rfl hr ⟨fun _ => TaskAction.noConfusion, ?_⟩
      fun _ => ⟨fun _ => TaskAction.noConfusion, fun h => TaskAction.noConfusion h⟩
    intro _ _ hp
    exact absurd ((proceedsAt_rejectedInTime _).mp hp) (by decide)
  exact ⟨_, hrun, hphase, (rejection_stands reachable_rejectedInTime rejected_rejectedInTime).1 _ hrun⟩

end TaskState
end Ark
