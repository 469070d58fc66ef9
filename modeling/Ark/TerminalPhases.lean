import Ark.QueryOperations

/-!
# Terminal phases and the QueryCompleted condition

Every status write sets the condition that belongs to its phase beside the phase. `failQueryOnTimeout`
declines a query that has finished; `updateStatus` does not look at the phase it refetched, so a
writer that decided earlier, and a cancellation that comes later, overwrite the phase of a finished
query. Where they do not, terminal phases stay and the condition tells them.
-/

namespace Ark

/-- `setConditionForPhase`, on the status of QueryCompleted. -/
def QueryPhase.setCondition (completed : Option Bool) : QueryPhase → Option Bool
  | .running | .queued => some false
  | .done | .error | .canceled => some true
  | .unset | .pending | .provisioning | .inputRequired => completed

/-- What a status write makes of the condition. -/
def StatusWrite.setCondition (w : StatusWrite) (completed : Option Bool) : Option Bool :=
  if w.timeout then some true else w.phase.setCondition completed

/-- A query with the status of its stored QueryCompleted condition. -/
structure ConditionedQuery where
  query : QueryState
  completed : Option Bool

namespace ConditionedQuery

/-- The first reconcile after the finalizer stores the condition QueryNotStarted. -/
def initializes (s : QueryState) : QueryAction → Bool
  | .handle v =>
    match s.reconcile with
    | .fetched version obj => !obj.deleting && obj.finalizer && !obj.started &&
        !(v.updateFails || s.removed || s.past.length ≠ version)
    | _ => false
  | _ => false

def conditionAfter (s : ConditionedQuery) (a : QueryAction) : Option Bool :=
  match s.query.pendingWrite a with
  | some w => w.setCondition s.completed
  | none => if initializes s.query a then some false else s.completed

def step (s : ConditionedQuery) (a : QueryAction) : Option ConditionedQuery :=
  (s.query.step a).map fun t => ⟨t, s.conditionAfter a⟩

def machine : Machine ConditionedQuery QueryAction where
  init s := s = ⟨.new, none⟩
  step := step

/-- The stored phase is done, error or canceled. -/
def finished (s : ConditionedQuery) : Bool := s.query.current.phase.isTerminal

/-- The condition is True exactly in the terminal phases. -/
def TellsTruth (s : ConditionedQuery) : Prop := s.completed = some true ↔ s.finished = true

/-- A status write is stored only over a phase that is not terminal, or over the one it writes: the
check of `failQueryOnTimeout`. -/
def keepsTerminal (s : ConditionedQuery) (a : QueryAction) : Bool :=
  match s.query.pendingWrite a with
  | some w => w.timeout || !s.finished || w.phase == s.query.current.phase
  | none => true

variable {s t : ConditionedQuery} {a : QueryAction} {w : StatusWrite}

/-! ### One step -/

/-- A status write that is stored is applied to the stored version. -/
theorem pendingWrite_stored {q q' : QueryState} (hw : q.pendingWrite a = some w)
    (h : q.step a = some q') : w.apply q.current = some q'.current := by
  unfold QueryState.pendingWrite at hw
  split at hw
  next =>
    split at hw
    next w' obj start hpc =>
      obtain rfl := Option.some.inj hw
      simp only [QueryState.step, QueryState.reconcileStep, hpc] at h
      split at h
      next => cases h
      next =>
        obtain ⟨v, hv, rfl⟩ := Option.map_eq_some_iff.mp h
        exact hv
    next => cases hw
  next g =>
    obtain ⟨e, he, hw⟩ := Option.bind_eq_some_iff.mp hw
    obtain ⟨e', he', h⟩ := Option.bind_eq_some_iff.mp h
    obtain rfl := Option.some.inj (he.symm.trans he')
    split at hw
    next w' hpc =>
      obtain rfl := Option.some.inj hw
      simp only [QueryState.executionStep, hpc] at h
      split at h
      next => cases h
      next =>
        obtain ⟨v, hv, rfl⟩ := Option.map_eq_some_iff.mp h
        exact hv
    next => cases hw
  next => cases hw

/-- A stored write that is no timeout stores its phase. -/
theorem phase_of_apply {q q' : Query} (htimeout : w.timeout = false)
    (h : w.apply q = some q') : q'.phase = w.phase := by
  simp only [StatusWrite.apply, htimeout, Bool.false_eq_true, if_false] at h
  obtain rfl := Option.some.inj h
  rfl

/-- The condition after a write is True exactly when the phase it leaves is terminal. -/
theorem setCondition_apply {q q' : Query} {completed : Option Bool} (h : w.apply q = some q')
    (hold : w.timeout = false → w.phase.isTerminal = false → completed ≠ some true) :
    w.setCondition completed = some true ↔ q'.phase.isTerminal = true := by
  rw [QueryState.isTerminal_of_apply h]
  unfold StatusWrite.setCondition StatusWrite.isTerminal
  cases htimeout : w.timeout with
  | true => simp
  | false =>
    have hold := hold htimeout
    cases hphase : w.phase <;> simp_all [QueryPhase.setCondition, QueryPhase.isTerminal]

theorem step_some (h : s.step a = some t) :
    s.query.step a = some t.query ∧ t.completed = s.conditionAfter a := by
  obtain ⟨q, hq, rfl⟩ := Option.map_eq_some_iff.mp h
  exact ⟨hq, rfl⟩

/-- A step that stores no status write leaves the phase. -/
theorem phase_kept (hc : s.query.Cached) (hw : s.query.pendingWrite a = none)
    (h : s.step a = some t) : t.query.current.phase = s.query.current.phase := by
  cases QueryState.step_stores hc (step_some h).1 with
  | nothing hcurrent => rw [hcurrent]
  | quietly _ hphase => exact hphase
  | writes w hw' =>
    rw [hw] at hw'
    cases hw'

/-- What holds in every state of a run without overwritten terminal phases. -/
structure Kept (s : ConditionedQuery) : Prop where
  cached : s.query.Cached
  started : s.query.current.started = false → s.query.current.phase = .unset
  tellsTruth : s.TellsTruth

theorem started_step (hc : s.query.Cached)
    (hs : s.query.current.started = false → s.query.current.phase = .unset)
    (h : s.step a = some t) :
    t.query.current.started = false → t.query.current.phase = .unset := by
  intro hnew
  cases QueryState.step_stores hc (step_some h).1 with
  | nothing hcurrent =>
    rw [hcurrent] at hnew ⊢
    exact hs hnew
  | quietly _ hphase _ hstarted =>
    rw [hphase]
    apply hs
    by_contra hold
    rw [Bool.not_eq_false] at hold
    rw [hstarted hold] at hnew
    cases hnew
  | writes w _ _ happly =>
    unfold StatusWrite.apply at happly
    split at happly
    next =>
      split at happly
      next => cases happly
      next =>
        rw [← Option.some.inj happly] at hnew
        cases hnew
    next =>
      rw [← Option.some.inj happly] at hnew
      cases hnew

/-- The first condition is stored on a version without conditions, which has no phase yet. -/
theorem unset_of_initializes (h : s.Kept) (hi : initializes s.query a = true) :
    s.query.current.phase = .unset := by
  unfold initializes at hi
  split at hi
  next v =>
    split at hi
    next version obj hpc =>
      simp only [Bool.and_eq_true, Bool.not_eq_true', Bool.or_eq_false_iff,
        decide_eq_false_iff_not, not_not] at hi
      obtain ⟨⟨-, hstarted⟩, -, hversion⟩ := hi
      obtain rfl := (h.cached version obj hpc).2.2 hversion.symm
      exact h.started hstarted
    next => cases hi
  next => cases hi

theorem tellsTruth_step (hs : s.Kept) (hok : s.keepsTerminal a = true) (h : s.step a = some t) :
    t.TellsTruth := by
  obtain ⟨hq, hcond⟩ := step_some h
  have htruth : s.completed = some true ↔ s.finished = true := hs.tellsTruth
  unfold TellsTruth
  cases hw : s.query.pendingWrite a with
  | some w =>
    rw [hcond, conditionAfter, hw]
    apply setCondition_apply (pendingWrite_stored hw hq)
    intro htimeout hphase hcompleted
    have hfinished := htruth.mp hcompleted
    simp only [keepsTerminal, hw, htimeout, hfinished, Bool.not_true, Bool.false_or,
      beq_iff_eq] at hok
    rw [finished, ← hok, hphase] at hfinished
    cases hfinished
  | none =>
    have hphase := phase_kept hs.cached hw h
    rw [hcond, conditionAfter, hw, finished, hphase]
    by_cases hi : initializes s.query a = true
    · simp [hi, unset_of_initializes hs hi, QueryPhase.isTerminal]
    · simp only [hi, if_false, Bool.false_eq_true]
      exact htruth

theorem kept_step (hs : s.Kept) (hok : s.keepsTerminal a = true) (h : s.step a = some t) :
    t.Kept where
  cached := QueryState.cached_step hs.cached (step_some h).1
  started := started_step hs.cached hs.started h
  tellsTruth := tellsTruth_step hs hok h

theorem kept_init (h : machine.init s) : s.Kept := by
  obtain rfl : s = ⟨.new, none⟩ := h
  refine ⟨?_, fun _ => rfl, by simp [TellsTruth, finished, QueryState.new, Query.new,
    QueryPhase.isTerminal]⟩
  intro version obj hpc
  cases hpc

/-- A step that stores no write over another terminal phase leaves a terminal phase as it is. -/
theorem terminal_step (hc : s.query.Cached) (hok : s.keepsTerminal a = true)
    (h : s.step a = some t) (hfinished : s.finished = true) :
    t.query.current.phase = s.query.current.phase := by
  cases hw : s.query.pendingWrite a with
  | none => exact phase_kept hc hw h
  | some w =>
    have happly := pendingWrite_stored hw (step_some h).1
    cases htimeout : w.timeout with
    | true =>
      -- `failQueryOnTimeout` declines
      unfold finished at hfinished
      simp [StatusWrite.apply, htimeout, hfinished] at happly
    | false =>
      simp only [keepsTerminal, hw, htimeout, hfinished, Bool.not_true, Bool.false_or,
        beq_iff_eq] at hok
      rw [phase_of_apply htimeout happly, hok]

end ConditionedQuery
end Ark
