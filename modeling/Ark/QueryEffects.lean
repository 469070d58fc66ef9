import Ark.QueryController

/-!
# What one step of the query controller can do

Two summaries of a step are used by all later arguments: what it does to the executions and the
entry of `operations`, and what it stores.
-/

namespace Ark

namespace ReconcilePc

/-- The reconcile has found no entry in `operations` and may be about to start an execution. -/
def starts : ReconcilePc → Bool
  | .unlisted _ | .acquired _ | .starting _ => true
  | .updating _ _ start => start
  | .idle | .fetched _ _ => false

/-- The reconcile holds the permit of an execution that it may be about to start. -/
def holdsPermit : ReconcilePc → Bool
  | .acquired _ | .starting _ => true
  | .updating _ _ start => start
  | .idle | .fetched _ _ | .unlisted _ => false

end ReconcilePc

namespace QueryState

variable {s t : QueryState} {a : QueryAction}

/-! ### Executions and operations -/

/-- The controller's goroutines are where they were, and nothing of them is recorded. -/
structure Unmoved (s t : QueryState) : Prop where
  executions : t.executions = s.executions
  next : t.nextExecution = s.nextExecution
  operations : t.operations = s.operations
  reconcile : t.reconcile = s.reconcile
  lateDispatch : t.lateDispatch = s.lateDispatch

/-- What a step of a goroutine does to the executions and to `operations`. -/
inductive ExecutionEffect (s t : QueryState) (a : QueryAction) : Prop
  | runs (g : ℕ) (e e' : Execution) (hget : s.executions.get? g = some e)
      (hrun : e.executing = true) (hcancelled : e'.cancelled = e.cancelled)
      (hwait : e'.beforeDispatch = true → e.beforeDispatch = true)
      (hexec : t.executions = s.executions.put g e') (hnext : t.nextExecution = s.nextExecution)
      (hops : t.operations = s.operations) (hrec : t.reconcile = s.reconcile)
  | deletes (g : ℕ) (e : Execution) (hact : a = .deleteEntry g) (hget : s.executions.get? g = some e)
      (hexec : t.executions = s.executions.put g { e with pc := .releasing })
      (hnext : t.nextExecution = s.nextExecution) (hops : t.operations = none)
      (hrec : t.reconcile = s.reconcile)
  | releases (g : ℕ) (e : Execution) (hact : a = .release g) (hget : s.executions.get? g = some e)
      (hpc : e.pc = .releasing) (hexec : t.executions = s.executions.filter (·.1 ≠ g))
      (hnext : t.nextExecution = s.nextExecution) (hops : t.operations = s.operations)
      (hrec : t.reconcile = s.reconcile)

/-- What a step does to the executions, to `operations` and to the reconcile's way to a start. -/
inductive Effect (s t : QueryState) (a : QueryAction) : Prop
  | unmoved (h : Unmoved s t)
  | executes (h : ExecutionEffect s t a)
  | reconciles (hexec : t.executions = s.executions) (hnext : t.nextExecution = s.nextExecution)
      (hops : t.operations = s.operations)
      (hstarts : t.reconcile.starts = true → s.reconcile.starts = true ∨ s.operations = none)
  | cancels (hexec : t.executions = s.cancelOperation.executions)
      (hnext : t.nextExecution = s.nextExecution) (hops : t.operations = none)
  | starts (obj : Query) (hpc : s.reconcile = .starting obj) (hact : a = .startExecution)
      (hexec : t.executions = s.executions ++ [(s.nextExecution, ⟨obj, false, .spawned⟩)])
      (hnext : t.nextExecution = s.nextExecution + 1) (hops : t.operations = some s.nextExecution)
      (hidle : t.reconcile = .idle)

theorem effect_of_idle (hexec : t.executions = s.executions)
    (hnext : t.nextExecution = s.nextExecution) (hops : t.operations = s.operations)
    (hstarts : t.reconcile.starts = false) : Effect s t a := by
  apply Effect.reconciles hexec hnext hops
  intro h
  rw [hstarts] at h
  cases h

theorem resume_effect : Effect s s.resume a := .cancels rfl rfl rfl

theorem updateObject_effect (version : ℕ) (q : Query) (v : ReconcileView) :
    Effect s (s.updateObject version q v) a := by
  unfold updateObject
  split <;> exact effect_of_idle rfl rfl rfl rfl

theorem finalize_effect (version : ℕ) (v : ReconcileView) : Effect s (s.finalize version v) a := by
  unfold finalize
  split <;> exact .cancels rfl rfl rfl

theorem handleInputRequiredPhase_effect (obj : Query) (v : ReconcileView) :
    Effect s (s.handleInputRequiredPhase obj v) a := by
  unfold handleInputRequiredPhase
  split
  next =>
    split
    next =>
      split
      next => exact effect_of_idle rfl rfl rfl rfl
      next => exact resume_effect
    next =>
      split
      next => exact effect_of_idle rfl rfl rfl rfl
      next =>
        split
        next => exact effect_of_idle rfl rfl rfl rfl
        next => exact resume_effect
    all_goals exact effect_of_idle rfl rfl rfl rfl
  all_goals exact effect_of_idle rfl rfl rfl rfl

theorem handleQueryExecution_effect (obj : Query) (v : ReconcileView) :
    Effect s (s.handleQueryExecution obj v) a := by
  unfold handleQueryExecution
  split
  next => exact .cancels rfl rfl rfl
  next =>
    split
    next => exact .cancels rfl rfl rfl
    next =>
      split
      case h_4 => exact handleInputRequiredPhase_effect obj v
      case h_1 | h_2 | h_3 => exact effect_of_idle rfl rfl rfl rfl
      all_goals
        split
        next => exact effect_of_idle rfl rfl rfl rfl
        next hops => exact .reconciles rfl rfl rfl fun _ => .inr hops

theorem handle_effect (version : ℕ) (obj : Query) (v : ReconcileView) :
    Effect s (s.handle version obj v) a := by
  unfold handle
  split
  next =>
    split
    next => exact finalize_effect version v
    next => exact effect_of_idle rfl rfl rfl rfl
  next =>
    split
    next => exact updateObject_effect version _ v
    next =>
      split
      next => exact updateObject_effect version _ v
      next => exact handleQueryExecution_effect obj v

theorem reconcileStep_effect (h : s.reconcileStep a = some t) : Effect s t a := by
  cases a with
  | fetch age =>
    simp only [reconcileStep] at h
    split at h
    next =>
      obtain ⟨obj, -, rfl⟩ := Option.map_eq_some_iff.mp h
      exact effect_of_idle rfl rfl rfl rfl
    next => cases h
  | handle v =>
    simp only [reconcileStep] at h
    split at h
    next version obj _ =>
      cases h
      exact handle_effect version obj v
    next => cases h
  | tryAcquire granted =>
    simp only [reconcileStep] at h
    split at h
    next obj hpc =>
      split at h
      next =>
        cases h
        exact .reconciles rfl rfl rfl fun _ => .inl (by rw [hpc]; rfl)
      next => split at h <;> cases h <;> exact effect_of_idle rfl rfl rfl rfl
    next => cases h
  | markRunning =>
    simp only [reconcileStep] at h
    split at h
    next obj hpc =>
      split at h <;> cases h <;> exact .reconciles rfl rfl rfl fun _ => .inl (by rw [hpc]; rfl)
    next => cases h
  | updateStatus o =>
    simp only [reconcileStep] at h
    split at h
    next w obj start hpc =>
      have hstart : start = true → s.reconcile.starts = true := by
        intro hs
        rw [hpc, hs]
        rfl
      cases o with
      | stored =>
        simp only at h
        split at h
        next => cases h
        next =>
          obtain ⟨q, -, rfl⟩ := Option.map_eq_some_iff.mp h
          cases start with
          | true => exact .reconciles rfl rfl rfl fun _ => .inl (hstart rfl)
          | false => exact effect_of_idle rfl rfl rfl rfl
      | dropped =>
        simp only at h
        split at h
        next =>
          cases h
          cases start with
          | true => exact .reconciles rfl rfl rfl fun _ => .inl (hstart rfl)
          | false => exact effect_of_idle rfl rfl rfl rfl
        next => cases h
      | failed =>
        cases h
        exact effect_of_idle rfl rfl rfl rfl
    next => cases h
  | startExecution =>
    simp only [reconcileStep] at h
    split at h
    next obj hpc =>
      cases h
      exact .starts obj hpc rfl rfl rfl rfl rfl
    next => cases h
  | _ => cases h

theorem leave_effect {g : ℕ} {e e' : Execution} (hget : s.executions.get? g = some e)
    (hrun : e.executing = true) (hcancelled : e'.cancelled = e.cancelled) (w : StatusWrite)
    (hs : t.executions = s.executions) (hnext : t.nextExecution = s.nextExecution)
    (hops : t.operations = s.operations) (hrec : t.reconcile = s.reconcile) :
    ExecutionEffect s (t.leave g e' w) a := by
  apply ExecutionEffect.runs g e { e' with
    pc := if e'.cancelled then .finishing else .writing w } hget hrun hcancelled
  · intro h
    revert h
    unfold Execution.beforeDispatch
    cases e'.cancelled <;> simp
  · unfold leave setPc
    rw [hs]
  · exact hnext
  · exact hops
  · exact hrec

theorem finishing_effect {g : ℕ} {e : Execution} (hget : s.executions.get? g = some e)
    (hrun : e.executing = true) : ExecutionEffect s (s.setPc g e .finishing) a := by
  apply ExecutionEffect.runs g e { e with pc := .finishing } hget hrun
  · rfl
  · intro h
    cases h
  all_goals rfl

theorem takeReply_effect {g r : ℕ} {e : Execution} (hget : s.executions.get? g = some e)
    (hrun : e.executing = true) (created : Bool) (reply : Reply) :
    ExecutionEffect s ((s.dropRun r).takeReply g e created reply) a := by
  unfold takeReply
  cases reply with
  | done taskID => exact leave_effect hget hrun rfl _ rfl rfl rfl rfl
  | inputRequired calls =>
    cases created with
    | true => exact leave_effect hget hrun rfl _ rfl rfl rfl rfl
    | false => exact leave_effect hget hrun rfl _ rfl rfl rfl rfl
  | failed => exact leave_effect hget hrun rfl _ rfl rfl rfl rfl

theorem executing_of_pc {e : Execution} (h : e.pc ≠ .releasing) : e.executing = true := by
  simpa [Execution.executing] using h

theorem executionStep_effect {g : ℕ} {e : Execution} (hget : s.executions.get? g = some e)
    (hg : ∀ g', a = .deleteEntry g' ∨ a = .release g' → g' = g)
    (h : s.executionStep g e a = some t) : ExecutionEffect s t a := by
  cases a with
  | refetch g' age =>
    simp only [executionStep] at h
    split at h
    next hpc =>
      cases h
      exact leave_effect hget (executing_of_pc (by rw [hpc]; simp)) rfl _ rfl rfl rfl rfl
    next hpc =>
      obtain ⟨obj, -, rfl⟩ := Option.map_eq_some_iff.mp h
      refine ExecutionEffect.runs _ _ _ hget (executing_of_pc (by rw [hpc]; simp)) ?_ ?_ rfl rfl rfl rfl
      · rfl
      · intro _
        rw [Execution.beforeDispatch, hpc]
    next => cases h
  | clientFails g' =>
    simp only [executionStep] at h
    split at h
    next hpc =>
      cases h
      exact leave_effect hget (executing_of_pc (by rw [hpc]; simp)) rfl _ rfl rfl rfl rfl
    next => cases h
  | dispatch g' =>
    simp only [executionStep] at h
    split at h
    next hpc =>
      cases h
      refine ExecutionEffect.runs _ _ _ hget (executing_of_pc (by rw [hpc]; simp)) ?_ ?_ rfl rfl rfl rfl
      · rfl
      · intro hwait
        cases hwait
    next => cases h
  | dispatchFails g' =>
    simp only [executionStep] at h
    split at h
    next r hpc =>
      split at h
      next =>
        cases h
        exact leave_effect hget (executing_of_pc (by rw [hpc]; simp)) rfl _ rfl rfl rfl rfl
      next => cases h
    next => cases h
  | takeReply g' created =>
    simp only [executionStep] at h
    split at h
    next r hpc =>
      split at h
      next reply _ =>
        cases h
        exact takeReply_effect hget (executing_of_pc (by rw [hpc]; simp)) created reply
      next => cases h
    next => cases h
  | loseReply g' why =>
    simp only [executionStep] at h
    split at h
    next r hpc =>
      have hrun := executing_of_pc (e := e) (by rw [hpc]; simp)
      cases why with
      | cancelled =>
        simp only at h
        split at h
        next =>
          cases h
          exact finishing_effect hget hrun
        next => cases h
      | deadline =>
        cases h
        exact leave_effect hget hrun rfl _ rfl rfl rfl rfl
      | failed =>
        cases h
        exact leave_effect hget hrun rfl _ rfl rfl rfl rfl
    next => cases h
  | panic g' =>
    simp only [executionStep] at h
    split at h
    all_goals first | cases h; done | skip
    all_goals
      rename_i hpc
      cases h
      refine ExecutionEffect.runs _ _ _ hget (executing_of_pc (by rw [hpc]; simp)) ?_ ?_ rfl rfl rfl rfl
      · rfl
      · intro hwait
        cases hwait
  | recoverPanic g' age =>
    simp only [executionStep] at h
    split at h
    next hpc =>
      cases h
      exact finishing_effect hget (executing_of_pc (by rw [hpc]; simp))
    next hpc =>
      obtain ⟨q, -, rfl⟩ := Option.map_eq_some_iff.mp h
      exact leave_effect hget (executing_of_pc (by rw [hpc]; simp)) rfl _ rfl rfl rfl rfl
    next => cases h
  | write g' o =>
    simp only [executionStep] at h
    split at h
    next w hpc =>
      have hrun := executing_of_pc (e := e) (by rw [hpc]; simp)
      cases o with
      | stored =>
        simp only at h
        split at h
        next => cases h
        next =>
          obtain ⟨q, -, rfl⟩ := Option.map_eq_some_iff.mp h
          refine ExecutionEffect.runs _ _ _ hget hrun ?_ ?_ rfl rfl rfl rfl
          · rfl
          · intro hwait
            cases hwait
      | dropped =>
        simp only at h
        split at h
        next =>
          cases h
          exact finishing_effect hget hrun
        next => cases h
      | failed =>
        cases h
        exact finishing_effect hget hrun
    next => cases h
  | deleteEntry g' =>
    obtain rfl := hg g' (.inl rfl)
    simp only [executionStep] at h
    split at h
    next hpc =>
      cases h
      exact .deletes g' e rfl hget rfl rfl rfl rfl
    next => cases h
  | release g' =>
    obtain rfl := hg g' (.inr rfl)
    simp only [executionStep] at h
    split at h
    next hpc =>
      cases h
      exact .releases g' e rfl hget hpc rfl rfl rfl rfl
    next => cases h
  | _ => cases h

theorem runStep_unmoved {r : ℕ} {pc : RunPc} (h : s.runStep r pc a = some t) : Unmoved s t := by
  cases a with
  | load r' =>
    simp only [runStep] at h
    split at h <;> cases h
    exact ⟨rfl, rfl, rfl, rfl, rfl⟩
  | check r' readable =>
    simp only [runStep] at h
    split at h
    next =>
      cases h
      unfold checkResumption
      split
      · split <;> exact ⟨rfl, rfl, rfl, rfl, rfl⟩
      · exact ⟨rfl, rfl, rfl, rfl, rfl⟩
    next => cases h
  | executeCall r' =>
    simp only [runStep] at h
    split at h
    next =>
      split at h <;> cases h
      exact ⟨rfl, rfl, rfl, rfl, rfl⟩
    next => cases h
  | reply r' reply =>
    simp only [runStep] at h
    split at h
    next =>
      cases h
      exact ⟨rfl, rfl, rfl, rfl, rfl⟩
    next =>
      cases h
      exact ⟨rfl, rfl, rfl, rfl, rfl⟩
    next =>
      split at h <;> cases h
      exact ⟨rfl, rfl, rfl, rfl, rfl⟩
    next => cases h
  | crash r' =>
    cases h
    exact ⟨rfl, rfl, rfl, rfl, rfl⟩
  | _ => cases h

theorem environmentStep_unmoved (h : s.environmentStep a = some t) : Unmoved s t := by
  cases a with
  | decide task phase =>
    simp only [environmentStep] at h
    split at h
    next =>
      split at h <;> cases h
      exact ⟨rfl, rfl, rfl, rfl, rfl⟩
    next => cases h
  | requestCancel | requestDelete | touch =>
    simp only [environmentStep] at h
    split at h <;> cases h
    exact ⟨rfl, rfl, rfl, rfl, rfl⟩
  | _ => cases h

/-- What a step is: one of the reconcile, of a goroutine, of an executor run or of the
surroundings. -/
theorem step_actor (h : s.step a = some t) :
    s.reconcileStep a = some t ∨
      (∃ g e, s.executions.get? g = some e ∧ s.executionStep g e a = some t ∧
        (∀ g', a = .deleteEntry g' ∨ a = .release g' → g' = g) ∧ ∀ g' o, a = .write g' o → g' = g) ∨
      (∃ r pc, s.runs.get? r = some pc ∧ s.runStep r pc a = some t) ∨
      s.environmentStep a = some t := by
  cases a with
  | fetch | handle | tryAcquire | markRunning | updateStatus | startExecution => exact .inl h
  | refetch g | clientFails g | dispatch g | dispatchFails g | takeReply g | loseReply g | panic g
  | recoverPanic g | write g | deleteEntry g | release g =>
    obtain ⟨e, he, hstep⟩ := Option.bind_eq_some_iff.mp h
    refine .inr (.inl ⟨g, e, he, hstep, ?_, ?_⟩)
    · intro g' hg'
      rcases hg' with hg' | hg' <;> cases hg' <;> rfl
    · intro g' o hg'
      cases hg' <;> rfl
  | load r | check r | executeCall r | reply r | crash r =>
    obtain ⟨pc, hpc, hstep⟩ := Option.bind_eq_some_iff.mp h
    exact .inr (.inr (.inl ⟨r, pc, hpc, hstep⟩))
  | decide | requestCancel | requestDelete | touch => exact .inr (.inr (.inr h))

theorem step_effect (h : s.step a = some t) : Effect s t a := by
  rcases step_actor h with h | ⟨g, e, hget, h, hg⟩ | ⟨r, pc, -, h⟩ | h
  · exact reconcileStep_effect h
  · exact .executes (executionStep_effect hget hg.1 h)
  · exact .unmoved (runStep_unmoved h)
  · exact .unmoved (environmentStep_unmoved h)

/-! ### Stored versions -/

/-- The status write that a step stores, if it is one that stores a status write. -/
def pendingWrite (s : QueryState) : QueryAction → Option StatusWrite
  | .updateStatus .stored =>
    match s.reconcile with
    | .updating w _ _ => some w
    | _ => none
  | .write g .stored => (s.executions.get? g).bind fun e =>
    match e.pc with
    | .writing w => some w
    | _ => none
  | _ => none

/-- What a step does to the stored versions: nothing, or it adds one, which differs from the
current one in phase and response only if it is a status write. -/
inductive Stores (s t : QueryState) (a : QueryAction) : Prop
  | nothing (hcurrent : t.current = s.current) (hpast : t.past = s.past)
  | quietly (hpast : t.past = s.current :: s.past) (hphase : t.current.phase = s.current.phase)
      (hresponse : t.current.response = s.current.response)
      (hstarted : s.current.started = true → t.current.started = true)
  | writes (w : StatusWrite) (hw : s.pendingWrite a = some w) (hpast : t.past = s.current :: s.past)
      (happly : w.apply s.current = some t.current)

/-- The copy that a reconcile starts from is a stored version, and the current one if nothing was
stored since. -/
def Cached (s : QueryState) : Prop := ∀ version obj, s.reconcile = .fetched version obj →
  version ≤ s.past.length ∧ obj ∈ s.current :: s.past ∧
    (version = s.past.length → obj = s.current)

theorem updateObject_stores {version : ℕ} {obj q : Query} {v : ReconcileView}
    (hobj : version = s.past.length → obj = s.current) (hphase : q.phase = obj.phase)
    (hresponse : q.response = obj.response) (hstarted : obj.started = true → q.started = true) :
    Stores s (s.updateObject version q v) a := by
  unfold updateObject
  split
  next => exact .nothing rfl rfl
  next hcas =>
    have hver : version = s.past.length := by
      simp only [Bool.or_eq_true, decide_eq_true_eq, not_or, not_not] at hcas
      exact hcas.2.symm
    have hcur := hobj hver
    rw [hcur] at hphase hresponse hstarted
    exact .quietly rfl hphase hresponse hstarted

theorem resume_stores : Stores s s.resume a := .quietly rfl rfl rfl id

theorem handleInputRequiredPhase_stores (obj : Query) (v : ReconcileView) :
    Stores s (s.handleInputRequiredPhase obj v) a := by
  unfold handleInputRequiredPhase
  split
  next =>
    split
    next =>
      split
      next => exact .nothing rfl rfl
      next => exact resume_stores
    next =>
      split
      next => exact .nothing rfl rfl
      next =>
        split
        next => exact .nothing rfl rfl
        next => exact resume_stores
    all_goals exact .nothing rfl rfl
  all_goals exact .nothing rfl rfl

theorem handleQueryExecution_stores (obj : Query) (v : ReconcileView) :
    Stores s (s.handleQueryExecution obj v) a := by
  unfold handleQueryExecution
  split
  next => exact .nothing rfl rfl
  next =>
    split
    next => exact .nothing rfl rfl
    next =>
      split
      case h_4 => exact handleInputRequiredPhase_stores obj v
      case h_1 | h_2 | h_3 => exact .nothing rfl rfl
      all_goals split <;> exact .nothing rfl rfl

theorem handle_stores {version : ℕ} {obj : Query} (v : ReconcileView)
    (hobj : version = s.past.length → obj = s.current) :
    Stores s (s.handle version obj v) a := by
  unfold handle
  split
  next =>
    split
    next =>
      unfold finalize
      split <;> exact .nothing rfl rfl
    next => exact .nothing rfl rfl
  next =>
    split
    next => exact updateObject_stores hobj rfl rfl id
    next =>
      split
      next => exact updateObject_stores hobj rfl rfl fun _ => rfl
      next => exact handleQueryExecution_stores obj v

theorem reconcileStep_stores (hc : s.Cached) (h : s.reconcileStep a = some t) : Stores s t a := by
  cases a with
  | fetch age =>
    simp only [reconcileStep] at h
    split at h
    next =>
      obtain ⟨obj, -, rfl⟩ := Option.map_eq_some_iff.mp h
      exact .nothing rfl rfl
    next => cases h
  | handle v =>
    simp only [reconcileStep] at h
    split at h
    next version obj hpc =>
      cases h
      exact handle_stores v (hc version obj hpc).2.2
    next => cases h
  | tryAcquire granted =>
    simp only [reconcileStep] at h
    split at h
    next =>
      split at h
      next =>
        cases h
        exact .nothing rfl rfl
      next => split at h <;> cases h <;> exact .nothing rfl rfl
    next => cases h
  | markRunning =>
    simp only [reconcileStep] at h
    split at h
    next => split at h <;> cases h <;> exact .nothing rfl rfl
    next => cases h
  | updateStatus o =>
    simp only [reconcileStep] at h
    split at h
    next w obj start hpc =>
      cases o with
      | stored =>
        simp only at h
        split at h
        next => cases h
        next =>
          obtain ⟨q, hq, rfl⟩ := Option.map_eq_some_iff.mp h
          exact .writes w (by rw [pendingWrite, hpc]) rfl hq
      | dropped =>
        simp only at h
        split at h <;> cases h
        exact .nothing rfl rfl
      | failed =>
        cases h
        exact .nothing rfl rfl
    next => cases h
  | startExecution =>
    simp only [reconcileStep] at h
    split at h <;> cases h
    exact .nothing rfl rfl
  | _ => cases h

theorem takeReply_stores (g : ℕ) (e : Execution) (created : Bool) (reply : Reply) (r : ℕ) :
    Stores s ((s.dropRun r).takeReply g e created reply) a := by
  unfold takeReply
  cases reply with
  | inputRequired calls => cases created <;> exact .nothing rfl rfl
  | _ => exact .nothing rfl rfl

theorem executionStep_stores {g : ℕ} {e : Execution} (hget : s.executions.get? g = some e)
    (hg : ∀ g' o, a = .write g' o → g' = g) (h : s.executionStep g e a = some t) :
    Stores s t a := by
  cases a with
  | refetch g' age =>
    simp only [executionStep] at h
    split at h
    next =>
      cases h
      exact .nothing rfl rfl
    next =>
      obtain ⟨obj, -, rfl⟩ := Option.map_eq_some_iff.mp h
      exact .nothing rfl rfl
    next => cases h
  | clientFails g' | dispatch g' | deleteEntry g' | release g' =>
    simp only [executionStep] at h
    split at h <;> cases h
    exact .nothing rfl rfl
  | dispatchFails g' =>
    simp only [executionStep] at h
    split at h
    next =>
      split at h <;> cases h
      exact .nothing rfl rfl
    next => cases h
  | takeReply g' created =>
    simp only [executionStep] at h
    split at h
    next =>
      split at h <;> cases h
      exact takeReply_stores g e created _ _
    next => cases h
  | loseReply g' why =>
    simp only [executionStep] at h
    split at h
    next =>
      cases why with
      | cancelled =>
        simp only at h
        split at h <;> cases h
        exact .nothing rfl rfl
      | deadline | failed =>
        cases h
        exact .nothing rfl rfl
    next => cases h
  | panic g' =>
    simp only [executionStep] at h
    split at h <;> cases h <;> exact .nothing rfl rfl
  | recoverPanic g' age =>
    simp only [executionStep] at h
    split at h
    next =>
      cases h
      exact .nothing rfl rfl
    next =>
      obtain ⟨q, -, rfl⟩ := Option.map_eq_some_iff.mp h
      exact .nothing rfl rfl
    next => cases h
  | write g' o =>
    obtain rfl := hg g' o rfl
    simp only [executionStep] at h
    split at h
    next w hpc =>
      cases o with
      | stored =>
        simp only at h
        split at h
        next => cases h
        next =>
          obtain ⟨q, hq, rfl⟩ := Option.map_eq_some_iff.mp h
          exact .writes w (by rw [pendingWrite, hget, Option.bind_some, hpc]) rfl hq
      | dropped =>
        simp only at h
        split at h <;> cases h
        exact .nothing rfl rfl
      | failed =>
        cases h
        exact .nothing rfl rfl
    next => cases h
  | _ => cases h

theorem runStep_stores {r : ℕ} {pc : RunPc} (h : s.runStep r pc a = some t) : Stores s t a := by
  cases a with
  | load r' =>
    simp only [runStep] at h
    split at h <;> cases h
    exact .nothing rfl rfl
  | check r' readable =>
    simp only [runStep] at h
    split at h
    next =>
      cases h
      unfold checkResumption
      split
      · split <;> exact .nothing rfl rfl
      · exact .nothing rfl rfl
    next => cases h
  | executeCall r' =>
    simp only [runStep] at h
    split at h
    next =>
      split at h <;> cases h
      exact .nothing rfl rfl
    next => cases h
  | reply r' reply =>
    simp only [runStep] at h
    split at h
    next =>
      cases h
      exact .nothing rfl rfl
    next =>
      cases h
      exact .nothing rfl rfl
    next =>
      split at h <;> cases h
      exact .nothing rfl rfl
    next => cases h
  | crash r' =>
    cases h
    exact .nothing rfl rfl
  | _ => cases h

theorem environmentStep_stores (h : s.environmentStep a = some t) : Stores s t a := by
  cases a with
  | decide task phase =>
    simp only [environmentStep] at h
    split at h
    next =>
      split at h <;> cases h
      exact .nothing rfl rfl
    next => cases h
  | requestCancel | requestDelete | touch =>
    simp only [environmentStep] at h
    split at h <;> cases h
    exact .quietly rfl rfl rfl id
  | _ => cases h

theorem step_stores (hc : s.Cached) (h : s.step a = some t) : Stores s t a := by
  rcases step_actor h with h | ⟨g, e, hget, h, hg⟩ | ⟨r, pc, -, h⟩ | h
  · exact reconcileStep_stores hc h
  · exact executionStep_stores hget hg.2 h
  · exact runStep_stores h
  · exact environmentStep_stores h

theorem ExecutionEffect.reconcile (h : ExecutionEffect s t a) : t.reconcile = s.reconcile := by
  cases h <;> assumption

theorem handle_not_fetched (version version' : ℕ) (obj obj' : Query) (v : ReconcileView) :
    (s.handle version obj v).reconcile ≠ .fetched version' obj' := by
  unfold handle finalize updateObject handleQueryExecution handleInputRequiredPhase resume
  repeat' split
  all_goals simp

theorem reconcileStep_fetched {version : ℕ} {obj : Query} (h : s.reconcileStep a = some t)
    (hpc : t.reconcile = .fetched version obj) : ∃ age, s.version age = some obj ∧
      version = s.past.length - age ∧ t.past = s.past ∧ t.current = s.current := by
  cases a with
  | fetch age =>
    simp only [reconcileStep] at h
    split at h
    next =>
      obtain ⟨obj', hobj, rfl⟩ := Option.map_eq_some_iff.mp h
      cases hpc
      exact ⟨age, hobj, rfl, rfl, rfl⟩
    next => cases h
  | handle v =>
    simp only [reconcileStep] at h
    split at h <;> cases h
    exact absurd hpc (handle_not_fetched _ _ _ _ _)
  | tryAcquire granted =>
    simp only [reconcileStep] at h
    split at h
    next =>
      split at h
      next =>
        cases h
        cases hpc
      next => split at h <;> cases h <;> cases hpc
    next => cases h
  | markRunning =>
    simp only [reconcileStep] at h
    split at h
    next => split at h <;> cases h <;> cases hpc
    next => cases h
  | updateStatus o =>
    simp only [reconcileStep] at h
    split at h
    next w obj' start _ =>
      cases o with
      | stored =>
        simp only at h
        split at h
        next => cases h
        next =>
          obtain ⟨q, -, rfl⟩ := Option.map_eq_some_iff.mp h
          cases start <;> cases hpc
      | dropped =>
        simp only at h
        split at h <;> cases h
        cases start <;> cases hpc
      | failed =>
        cases h
        cases hpc
    next => cases h
  | startExecution =>
    simp only [reconcileStep] at h
    split at h <;> cases h
    cases hpc
  | _ => cases h

/-- A reconcile that has fetched its copy has just done so, or had fetched it already. -/
theorem fetched_step {version : ℕ} {obj : Query} (h : s.step a = some t)
    (hpc : t.reconcile = .fetched version obj) : s.reconcile = .fetched version obj ∨
      ∃ age, s.version age = some obj ∧ version = s.past.length - age ∧ t.past = s.past ∧
        t.current = s.current := by
  rcases step_actor h with h | ⟨g, e, hget, h, hg⟩ | ⟨r, pc, -, h⟩ | h
  · exact .inr (reconcileStep_fetched h hpc)
  · exact .inl ((executionStep_effect hget hg.1 h).reconcile ▸ hpc)
  · exact .inl ((runStep_unmoved h).reconcile ▸ hpc)
  · exact .inl ((environmentStep_unmoved h).reconcile ▸ hpc)

theorem cached_step (hc : s.Cached) (h : s.step a = some t) : t.Cached := by
  intro version obj hpc
  rcases fetched_step h hpc with hs | ⟨age, hage, hversion, hpast, hcurrent⟩
  · obtain ⟨hle, hmem, heq⟩ := hc version obj hs
    have hgrown : t.past = s.current :: s.past →
        version ≤ t.past.length ∧ obj ∈ t.current :: t.past ∧
          (version = t.past.length → obj = t.current) := by
      intro hpast
      rw [hpast, List.length_cons]
      refine ⟨by omega, List.mem_cons_of_mem _ hmem, ?_⟩
      intro hlen
      omega
    cases step_stores hc h with
    | nothing hcurrent hpast =>
      rw [hcurrent, hpast]
      exact ⟨hle, hmem, heq⟩
    | quietly hpast => exact hgrown hpast
    | writes w hw hpast => exact hgrown hpast
  · rw [hpast, hcurrent]
    refine ⟨by omega, List.mem_of_getElem? hage, ?_⟩
    intro hlen
    have hlt : age < (s.current :: s.past).length := (List.getElem?_eq_some_iff.mp hage).1
    rw [List.length_cons] at hlt
    obtain rfl : age = 0 := by omega
    exact (Option.some.inj hage).symm

/-! ### The executor's side -/

/-- The executor's runs, the tasks and the record of what happened are as they were. -/
structure ExecutorUnmoved (s t : QueryState) : Prop where
  runs : t.runs = s.runs
  nextRun : t.nextRun = s.nextRun
  tasks : t.tasks = s.tasks
  lateDispatch : t.lateDispatch = s.lateDispatch
  takenUp : t.takenUp = s.takenUp
  executed : t.executed = s.executed

theorem handle_executor (version : ℕ) (obj : Query) (v : ReconcileView) :
    ExecutorUnmoved s (s.handle version obj v) := by
  unfold handle finalize updateObject handleQueryExecution handleInputRequiredPhase resume
  repeat' split
  all_goals exact ⟨rfl, rfl, rfl, rfl, rfl, rfl⟩

theorem reconcileStep_executor (h : s.reconcileStep a = some t) : ExecutorUnmoved s t := by
  cases a with
  | fetch age =>
    simp only [reconcileStep] at h
    split at h
    next =>
      obtain ⟨obj, -, rfl⟩ := Option.map_eq_some_iff.mp h
      exact ⟨rfl, rfl, rfl, rfl, rfl, rfl⟩
    next => cases h
  | handle v =>
    simp only [reconcileStep] at h
    split at h <;> cases h
    exact handle_executor _ _ v
  | tryAcquire granted =>
    simp only [reconcileStep] at h
    split at h
    next =>
      split at h
      next =>
        cases h
        exact ⟨rfl, rfl, rfl, rfl, rfl, rfl⟩
      next => split at h <;> cases h <;> exact ⟨rfl, rfl, rfl, rfl, rfl, rfl⟩
    next => cases h
  | markRunning =>
    simp only [reconcileStep] at h
    split at h
    next => split at h <;> cases h <;> exact ⟨rfl, rfl, rfl, rfl, rfl, rfl⟩
    next => cases h
  | updateStatus o =>
    simp only [reconcileStep] at h
    split at h
    next w obj start _ =>
      cases o with
      | stored =>
        simp only at h
        split at h
        next => cases h
        next =>
          obtain ⟨q, -, rfl⟩ := Option.map_eq_some_iff.mp h
          exact ⟨rfl, rfl, rfl, rfl, rfl, rfl⟩
      | dropped =>
        simp only at h
        split at h <;> cases h
        exact ⟨rfl, rfl, rfl, rfl, rfl, rfl⟩
      | failed =>
        cases h
        exact ⟨rfl, rfl, rfl, rfl, rfl, rfl⟩
    next => cases h
  | startExecution =>
    simp only [reconcileStep] at h
    split at h <;> cases h
    exact ⟨rfl, rfl, rfl, rfl, rfl, rfl⟩
  | _ => cases h

end QueryState
end Ark
