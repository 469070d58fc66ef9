import Ark.QueryController
import Ark.TaskPoll
import Mathlib.Data.Finset.Card

/-!
# The cap on denied approvals, for one query

A query that waits for an approval is resumed when the approval is granted or denied. An annotation
counts the denials in a row and the query is ended when it has reached the cap. A reconcile reads some
stored version and then makes its calls one by one; any of them may fail, take effect without a reply,
or be the last one before the controller stops.

The last two fields of the state record what has happened and are read by no step.
-/

namespace Ark

def maxApprovalCascades : ℕ := 3

/-- What the capped query answers. -/
def cascadeLimitReached : String :=
  "Approval cascade limit reached (" ++ toString maxApprovalCascades ++
    "). The agent kept retrying a denied tool; aborting."

structure CascadeResponse where
  taskID : Option ℕ
  content : String
  deriving DecidableEq, Repr

/-- A stored version; `cascadeCount` is the annotation `approval-cascade-count`. -/
structure CascadeQuery where
  phase : QueryPhase
  response : Option CascadeResponse
  cascadeCount : Option String
  deriving DecidableEq, Repr

def CascadeQuery.taskID (q : CascadeQuery) : Option ℕ := q.response.bind (·.taskID)

def readApprovalCascadeCount (q : CascadeQuery) : Int :=
  match q.cascadeCount with
  | none => 0
  | some value =>
    match A2A.atoi value with
    | some count => if count < 0 then 0 else count
    | none => 0

/-- An approval task: undecided, granted, denied in a way the agent can react to, or failed. -/
inductive ApprovalOutcome
  | inputRequired
  | completed
  | denied
  | failed (error : String)
  deriving DecidableEq, Repr

/-- Why a query is resumed. -/
inductive Resumption
  | taskCompleted
  | approvalDenial
  deriving DecidableEq, Repr

/-- The next call of the reconcile: the update that removes the annotation, the one that counts a
denial, the patch of the round anchor, and the two status updates with the response they save. -/
inductive CascadePc
  | idle
  | resetting
  | counting (count : Int)
  | stamping (reason : Resumption)
  | resuming (saved : Option CascadeResponse) (reason : Resumption)
  | ending (saved : Option CascadeResponse) (cap : Bool)
  deriving DecidableEq, Repr

/-- `denied` are the tasks denied since the last approval, `capped` says that the cap has ended the
query. -/
structure CascadeState where
  query : CascadeQuery
  past : List CascadeQuery
  tasks : List ApprovalOutcome
  reconcile : CascadePc
  denied : Finset ℕ
  capped : Bool
  deriving DecidableEq

inductive CallResult
  | succeeds
  | fails
  | replyLost
  deriving DecidableEq, Repr

inductive CascadeAction
  | fetch (age : ℕ) (visible : Bool)
  | call (r : CallResult)
  | stop
  | ask
  | decide (task : ℕ) (outcome : ApprovalOutcome)
  | finish (phase : QueryPhase)
  | cancel
  deriving DecidableEq, Repr

namespace CascadeState

def new (initial : Option String) : CascadeState where
  query := ⟨.running, none, initial⟩
  past := []
  tasks := []
  reconcile := .idle
  denied := ∅
  capped := false

variable (s : CascadeState)

def version (age : ℕ) : Option CascadeQuery := (s.query :: s.past)[age]?

def store (q : CascadeQuery) : CascadeState := { s with query := q, past := s.query :: s.past }

def taskOutcome (visible : Bool) (t : ℕ) : Option ApprovalOutcome :=
  if visible then s.tasks[t]? else none

/-! ### Reconcile -/

def handleApprovedTask (obj : CascadeQuery) : CascadePc :=
  if obj.cascadeCount.isSome then .resetting else .stamping .taskCompleted

def handleResumableDenial (obj : CascadeQuery) : CascadePc :=
  if maxApprovalCascades ≤ readApprovalCascadeCount obj then
    .ending (some ⟨none, cascadeLimitReached⟩) true
  else .counting (readApprovalCascadeCount obj)

def handleInputRequiredPhase (obj : CascadeQuery) (visible : Bool) : CascadePc :=
  match obj.taskID with
  | none => .idle
  | some t =>
    match s.taskOutcome visible t with
    | some .completed => handleApprovedTask obj
    | some .denied => handleResumableDenial obj
    | some (.failed error) =>
      .ending (if error = "" then obj.response else some ⟨none, error⟩) false
    | some .inputRequired | none => .idle

/-- The next call takes effect, on the current version. -/
def proceed : Option CascadeState :=
  match s.reconcile with
  | .idle => none
  | .resetting =>
    if s.query.cascadeCount.isSome then
      some { s.store { s.query with cascadeCount := none } with
        reconcile := .stamping .taskCompleted }
    else some { s with reconcile := .stamping .taskCompleted }
  | .counting count =>
    some { s.store { s.query with cascadeCount := some (toString (count + 1)) } with
      reconcile := .stamping .approvalDenial }
  | .stamping reason =>
    some { s.store s.query with reconcile := .resuming s.query.response reason }
  | .resuming saved _ =>
    some { s.store { s.query with phase := .running, response := saved.or s.query.response } with
      reconcile := .idle }
  | .ending saved cap =>
    some { s.store { s.query with phase := .error, response := saved.or s.query.response } with
      reconcile := .idle
      capped := s.capped || cap }

def call : CallResult → Option CascadeState
  | .succeeds => s.proceed
  | .fails =>
    match s.reconcile with
    | .idle => none
    -- the failed reset is only logged
    | .resetting => some { s with reconcile := .stamping .taskCompleted }
    | _ => some { s with reconcile := .idle }
  | .replyLost =>
    match s.reconcile with
    | .resetting => s.proceed
    | _ => s.proceed.map ({ · with reconcile := .idle })

/-! ### Steps -/

/-- The tasks denied since the last approval, after another one was decided. -/
def deniedAfter (t : ℕ) : ApprovalOutcome → Finset ℕ
  | .completed => ∅
  | .denied => insert t s.denied
  | .inputRequired | .failed _ => s.denied

/-- A reconcile of a query in another phase makes none of the calls here. The executor of a running
query asks for an approval or ends the query; `cancel` is the reconcile of a canceled one. -/
def step : CascadeAction → Option CascadeState
  | .fetch age visible =>
    match s.reconcile with
    | .idle => (s.version age).map fun obj =>
        if obj.phase = .inputRequired then
          { s with reconcile := s.handleInputRequiredPhase obj visible }
        else s
    | _ => none
  | .call r => s.call r
  | .stop => some { s with reconcile := .idle }
  | .ask =>
    if s.query.phase = .running then
      some { s.store { s.query with
          phase := .inputRequired
          response := some ⟨some s.tasks.length, ""⟩ } with
        tasks := s.tasks ++ [.inputRequired] }
    else none
  | .decide t outcome =>
    if s.tasks[t]? = some .inputRequired ∧ outcome ≠ .inputRequired then
      some { s with tasks := s.tasks.set t outcome, denied := s.deniedAfter t outcome }
    else none
  | .finish phase =>
    if s.query.phase = .running ∧ phase.isTerminal then
      some (s.store { s.query with phase := phase })
    else none
  | .cancel =>
    if s.reconcile = .idle ∧ !s.query.phase.isTerminal then
      some (s.store { s.query with phase := .canceled })
    else none

end CascadeState

def cascadeMachine : Machine CascadeState CascadeAction where
  init s := ∃ initial, s = .new initial ∧ readApprovalCascadeCount s.query = 0
  step := CascadeState.step

namespace CascadeState

variable {s s' : CascadeState} {t : ℕ} {a : CascadeAction}

/-! ### Exactness -/

/-- The remaining calls of a reconcile, all of them successful. -/
def settle : ℕ → CascadeState → CascadeState
  | 0, s => s
  | n + 1, s => (s.proceed.map (settle n)).getD s

/-- A whole reconcile of the current version; it makes three calls at most. -/
def reconciled (s : CascadeState) : CascadeState :=
  settle 3 { s with reconcile := s.handleInputRequiredPhase s.query true }

/-- The query waits for the task, which has been denied. -/
def Denied (s : CascadeState) (t : ℕ) : Prop :=
  s.query.phase = .inputRequired ∧ s.query.taskID = some t ∧ s.tasks[t]? = some .denied

/-- The cap ends the query when more than `maxApprovalCascades` tasks have been denied, and not
before. -/
structure CapExact (s : CascadeState) : Prop where
  capped : s.capped = true → maxApprovalCascades < s.denied.card
  stopped : maxApprovalCascades < s.denied.card → s.query.phase ≠ .running
  reconciled : ∀ t, s.reconcile = .idle → s.Denied t →
    (s.reconciled.capped = true ↔ maxApprovalCascades < s.denied.card)

/-- No step leaves a denial counted and the query waiting for it, no reconcile takes up an outdated
version of a waiting query, and no reset of a positive count fails. -/
def undisturbed (s : CascadeState) : CascadeAction → Bool
  | .fetch age _ => (s.version age).all fun obj => obj.phase ≠ .inputRequired || obj = s.query
  | .call .fails =>
    match s.reconcile with
    | .resetting => readApprovalCascadeCount s.query = 0
    | .stamping .approvalDenial | .resuming _ .approvalDenial => false
    | _ => true
  | .call .replyLost =>
    match s.reconcile with
    | .counting _ | .stamping .approvalDenial => false
    | _ => true
  | .stop =>
    match s.reconcile with
    | .stamping .approvalDenial | .resuming _ .approvalDenial => false
    | _ => true
  | _ => true

/-! ### The invariant -/

def count (s : CascadeState) : Int := readApprovalCascadeCount s.query

/-- Where the reconcile of a waiting query is, how its task was decided, the count of the annotation
and the number of denials. -/
inductive Waiting : CascadePc → ApprovalOutcome → Int → ℕ → Prop
  | undecided {k : Int} {n : ℕ} (hcount : k = n) (hcap : n ≤ maxApprovalCascades) :
      Waiting .idle .inputRequired k n
  | granted {k : Int} : Waiting .idle .completed k 0
  | resetting {k : Int} : Waiting .resetting .completed k 0
  | stampingApproval : Waiting (.stamping .taskCompleted) .completed 0 0
  | resumingApproval {saved : Option CascadeResponse} :
      Waiting (.resuming saved .taskCompleted) .completed 0 0
  | denied {k : Int} {n : ℕ} (hcount : k + 1 = n) (hcap : k ≤ maxApprovalCascades) :
      Waiting .idle .denied k n
  | counting {k : Int} {n : ℕ} (hcount : k + 1 = n) (hcap : k < maxApprovalCascades) :
      Waiting (.counting k) .denied k n
  | stampingDenial {k : Int} {n : ℕ} (hcount : k = n) (hcap : n ≤ maxApprovalCascades) :
      Waiting (.stamping .approvalDenial) .denied k n
  | resumingDenial {saved : Option CascadeResponse} {k : Int} {n : ℕ} (hcount : k = n)
      (hcap : n ≤ maxApprovalCascades) : Waiting (.resuming saved .approvalDenial) .denied k n
  | capping {saved : Option CascadeResponse} {k : Int} {n : ℕ} (hcount : k + 1 = n)
      (hcap : k = maxApprovalCascades) : Waiting (.ending saved true) .denied k n
  | failed {error : String} {k : Int} {n : ℕ} : Waiting .idle (.failed error) k n
  | failing {saved : Option CascadeResponse} {error : String} {k : Int} {n : ℕ} :
      Waiting (.ending saved false) (.failed error) k n

/-- The phase of the query with what holds in it. -/
inductive Stage (s : CascadeState) : Prop
  | running (hphase : s.query.phase = .running) (hidle : s.reconcile = .idle)
      (hcapped : s.capped = false) (hdecided : .inputRequired ∉ s.tasks)
      (hcount : s.count = s.denied.card) (hcap : s.denied.card ≤ maxApprovalCascades)
  | waiting {t : ℕ} {outcome : ApprovalOutcome} (hphase : s.query.phase = .inputRequired)
      (htask : s.query.taskID = some t) (houtcome : s.tasks[t]? = some outcome)
      (hcapped : s.capped = false) (hdecided : ∀ i, s.tasks[i]? = some .inputRequired → i = t)
      (hwaiting : Waiting s.reconcile outcome s.count s.denied.card)
  | ended (hphase : s.query.phase.isTerminal) (hidle : s.reconcile = .idle)
      (hcapped : s.capped = true →
        maxApprovalCascades < s.denied.card ∧ .inputRequired ∉ s.tasks)

structure Inv (s : CascadeState) : Prop where
  stage : Stage s
  decided : ∀ t ∈ s.denied, ∃ outcome, s.tasks[t]? = some outcome ∧ outcome ≠ .inputRequired

/-! ### What a step preserves -/

theorem readApprovalCascadeCount_nonneg (q : CascadeQuery) : 0 ≤ readApprovalCascadeCount q := by
  unfold readApprovalCascadeCount
  split
  · exact Int.le_refl 0
  · split
    · split
      · exact Int.le_refl 0
      · omega
    · exact Int.le_refl 0

/-- The counts below the cap survive their way through the annotation. -/
theorem readApprovalCascadeCount_toString {q : CascadeQuery} {k : Int} (hk : 0 ≤ k)
    (hcap : k < maxApprovalCascades) (hq : q.cascadeCount = some (toString (k + 1))) :
    readApprovalCascadeCount q = k + 1 := by
  have hcases : k = 0 ∨ k = 1 ∨ k = 2 := by
    unfold maxApprovalCascades at hcap
    omega
  unfold readApprovalCascadeCount
  rw [hq]
  rcases hcases with rfl | rfl | rfl <;> decide +kernel

theorem Stage.ne_running (h : Stage s) (hwait : s.reconcile ≠ .idle) :
    ∃ t outcome, s.query.phase = .inputRequired ∧ s.query.taskID = some t ∧
      s.tasks[t]? = some outcome ∧ s.capped = false ∧
      (∀ i, s.tasks[i]? = some .inputRequired → i = t) ∧
      Waiting s.reconcile outcome s.count s.denied.card := by
  cases h with
  | running _ hidle => exact absurd hidle hwait
  | waiting hphase htask houtcome hcapped hdecided hwaiting =>
    exact ⟨_, _, hphase, htask, houtcome, hcapped, hdecided, hwaiting⟩
  | ended _ hidle => exact absurd hidle hwait

theorem waiting_of_fetch {outcome : ApprovalOutcome} {visible : Bool}
    (htask : s.query.taskID = some t) (houtcome : s.tasks[t]? = some outcome)
    (h : Waiting .idle outcome s.count s.denied.card) :
    Waiting (s.handleInputRequiredPhase s.query visible) outcome s.count s.denied.card := by
  unfold handleInputRequiredPhase
  rw [htask]
  dsimp only
  unfold taskOutcome
  cases visible with
  | false => exact h
  | true =>
    rw [if_pos rfl, houtcome]
    generalize hn : s.denied.card = n at h ⊢
    generalize hk : s.count = k at h ⊢
    cases h with
    | undecided hcount hcap => exact .undecided hcount hcap
    | granted =>
      dsimp only
      unfold handleApprovedTask
      split
      · exact .resetting
      next hnone =>
        have hzero : s.count = 0 := by
          unfold count readApprovalCascadeCount
          rw [Option.not_isSome_iff_eq_none.mp hnone]
        rw [← hk, hzero]
        exact .stampingApproval
    | denied hcount hcap =>
      dsimp only
      unfold handleResumableDenial
      change Waiting (if (maxApprovalCascades : Int) ≤ s.count then _ else .counting s.count) _ _ _
      rw [hk]
      split
      next hle => exact .capping hcount (by omega)
      next hlt => exact .counting hcount (by omega)
    | failed => exact .failing

theorem Inv.fetch {age : ℕ} {visible : Bool} (h : Inv s)
    (hok : s.undisturbed (.fetch age visible) = true)
    (hstep : s.step (.fetch age visible) = some s') : Inv s' := by
  cases hpc : s.reconcile with
  | idle =>
    simp only [step, hpc, Option.map_eq_some_iff] at hstep
    obtain ⟨obj, hobj, rfl⟩ := hstep
    split
    next hphase =>
      have hcurrent : obj = s.query := by
        simp only [undisturbed, hobj, Option.all_some, hphase, ne_eq, not_true, decide_false,
          Bool.false_or, decide_eq_true_eq] at hok
        exact hok
      subst hcurrent
      refine ⟨?_, h.decided⟩
      cases h.stage with
      | running hrunning => exact absurd (hrunning.symm.trans hphase) (by decide)
      | waiting _ htask houtcome hcapped hdecided hwaiting =>
        rw [hpc] at hwaiting
        exact .waiting hphase htask houtcome hcapped hdecided
          (waiting_of_fetch htask houtcome hwaiting)
      | ended hended =>
        rw [hphase] at hended
        cases hended
    next => exact h
  | _ => simp only [step, hpc, reduceCtorEq] at hstep

/-- A denial that is neither counted nor handled may be taken up again. -/
theorem Waiting.giveUp {pc : CascadePc} {outcome : ApprovalOutcome} {k : Int} {n : ℕ}
    (h : Waiting pc outcome k n) (hstamping : pc ≠ .stamping .approvalDenial)
    (hresuming : ∀ saved, pc ≠ .resuming saved .approvalDenial) : Waiting .idle outcome k n := by
  cases h with
  | undecided hcount hcap => exact .undecided hcount hcap
  | granted | resetting | stampingApproval | resumingApproval => exact .granted
  | denied hcount hcap => exact .denied hcount hcap
  | counting hcount hcap => exact .denied hcount (Int.le_of_lt hcap)
  | stampingDenial => exact absurd rfl hstamping
  | resumingDenial => exact absurd rfl (hresuming _)
  | capping hcount hcap => exact .denied hcount (Int.le_of_eq hcap)
  | failed | failing => exact .failed

theorem Inv.giveUp (h : Inv s) (hstamping : s.reconcile ≠ .stamping .approvalDenial)
    (hresuming : ∀ saved, s.reconcile ≠ .resuming saved .approvalDenial) :
    Inv { s with reconcile := .idle } := by
  refine ⟨?_, h.decided⟩
  cases h.stage with
  | running hphase _ hcapped hdecided hcount hcap =>
    exact .running hphase rfl hcapped hdecided hcount hcap
  | waiting hphase htask houtcome hcapped hdecided hwaiting =>
    exact .waiting hphase htask houtcome hcapped hdecided (hwaiting.giveUp hstamping hresuming)
  | ended hphase _ hcapped => exact .ended hphase rfl hcapped

/-- A waiting query all of whose tasks but the given one are decided, the given one in a way that is
no longer open, has no open task. -/
theorem forall_decided {outcome : ApprovalOutcome} (houtcome : s.tasks[t]? = some outcome)
    (hdecided : ∀ i, s.tasks[i]? = some .inputRequired → i = t) (hne : outcome ≠ .inputRequired) :
    .inputRequired ∉ s.tasks := by
  intro hmem
  obtain ⟨i, hi⟩ := List.mem_iff_getElem?.mp hmem
  obtain rfl := hdecided i hi
  rw [houtcome, Option.some.injEq] at hi
  exact hne hi

theorem Inv.proceed (h : Inv s) (hstep : s.proceed = some s') : Inv s' := by
  have hwait : s.reconcile ≠ .idle := by
    intro hpc
    simp only [CascadeState.proceed, hpc, reduceCtorEq] at hstep
  obtain ⟨t, outcome, hphase, htask, houtcome, hcapped, hdecided, hwaiting⟩ :=
    h.stage.ne_running hwait
  generalize hpc : s.reconcile = pc at hwaiting
  generalize hk : s.count = k at hwaiting
  generalize hn : s.denied.card = n at hwaiting
  unfold CascadeState.proceed at hstep
  cases hwaiting with
  | undecided | granted | denied | failed => exact absurd hpc hwait
  | resetting =>
    rw [hpc] at hstep
    dsimp only at hstep
    split at hstep
    next =>
      obtain rfl := Option.some.inj hstep
      refine ⟨.waiting hphase htask houtcome hcapped hdecided ?_, h.decided⟩
      dsimp only [store]
      rw [hn]
      exact .stampingApproval
    next hnone =>
      obtain rfl := Option.some.inj hstep
      refine ⟨.waiting hphase htask houtcome hcapped hdecided ?_, h.decided⟩
      have hzero : s.count = 0 := by
        unfold count readApprovalCascadeCount
        rw [Option.not_isSome_iff_eq_none.mp hnone]
      change Waiting _ _ s.count s.denied.card
      rw [hn, hzero]
      exact .stampingApproval
  | counting hcount hcap =>
    rw [hpc] at hstep
    obtain rfl := Option.some.inj hstep
    refine ⟨.waiting hphase htask houtcome hcapped hdecided ?_, h.decided⟩
    have hnonneg : 0 ≤ k := hk ▸ readApprovalCascadeCount_nonneg s.query
    dsimp only [store]
    rw [hn]
    refine .stampingDenial ?_ (by omega)
    exact (readApprovalCascadeCount_toString hnonneg hcap rfl).trans hcount
  | stampingApproval =>
    rw [hpc] at hstep
    obtain rfl := Option.some.inj hstep
    refine ⟨.waiting hphase htask houtcome hcapped hdecided ?_, h.decided⟩
    change Waiting _ _ s.count s.denied.card
    rw [hk, hn]
    exact .resumingApproval
  | stampingDenial hcount hcap =>
    rw [hpc] at hstep
    obtain rfl := Option.some.inj hstep
    refine ⟨.waiting hphase htask houtcome hcapped hdecided ?_, h.decided⟩
    change Waiting _ _ s.count s.denied.card
    rw [hk, hn]
    exact .resumingDenial hcount hcap
  | resumingApproval =>
    rw [hpc] at hstep
    obtain rfl := Option.some.inj hstep
    have hcount : s.count = s.denied.card := by rw [hk, hn]; rfl
    exact ⟨.running rfl rfl hcapped
      (forall_decided houtcome hdecided ApprovalOutcome.noConfusion) hcount
      (hn.trans_le (Nat.zero_le _)), h.decided⟩
  | resumingDenial hcount hcap =>
    rw [hpc] at hstep
    obtain rfl := Option.some.inj hstep
    exact ⟨.running rfl rfl hcapped
      (forall_decided houtcome hdecided ApprovalOutcome.noConfusion)
      (hk.trans (hcount.trans (congrArg Nat.cast hn.symm))) (hn.trans_le hcap), h.decided⟩
  | capping hcount hcap =>
    rw [hpc] at hstep
    obtain rfl := Option.some.inj hstep
    refine ⟨.ended rfl rfl fun _ => ⟨?_, forall_decided houtcome hdecided
      ApprovalOutcome.noConfusion⟩, h.decided⟩
    change maxApprovalCascades < s.denied.card
    omega
  | failing =>
    rw [hpc] at hstep
    obtain rfl := Option.some.inj hstep
    refine ⟨.ended rfl rfl fun hended => ?_, h.decided⟩
    change (s.capped || false) = true at hended
    rw [hcapped] at hended
    cases hended

theorem Inv.call {r : CallResult} (h : Inv s) (hok : s.undisturbed (.call r) = true)
    (hstep : s.call r = some s') : Inv s' := by
  cases r with
  | succeeds => exact h.proceed hstep
  | fails =>
    unfold CascadeState.call at hstep
    unfold undisturbed at hok
    cases hpc : s.reconcile with
    | idle => simp only [hpc, reduceCtorEq] at hstep
    | resetting =>
      simp only [hpc, Option.some.injEq] at hstep hok
      subst hstep
      obtain ⟨t, outcome, hphase, htask, houtcome, hcapped, hdecided, hwaiting⟩ :=
        h.stage.ne_running (hpc ▸ CascadePc.noConfusion)
      refine ⟨.waiting hphase htask houtcome hcapped hdecided ?_, h.decided⟩
      have hzero : s.count = 0 := of_decide_eq_true hok
      change Waiting _ _ s.count s.denied.card
      rw [hpc] at hwaiting
      rw [hzero]
      generalize s.denied.card = n at hwaiting
      cases hwaiting
      exact .stampingApproval
    | stamping reason =>
      simp only [hpc, Option.some.injEq] at hstep hok
      subst hstep
      refine h.giveUp (fun heq => ?_) fun saved heq => CascadePc.noConfusion (hpc.symm.trans heq)
      obtain rfl := CascadePc.stamping.inj (hpc.symm.trans heq)
      cases hok
    | resuming saved reason =>
      simp only [hpc, Option.some.injEq] at hstep hok
      subst hstep
      refine h.giveUp (fun heq => CascadePc.noConfusion (hpc.symm.trans heq)) fun saved heq => ?_
      obtain ⟨-, rfl⟩ := CascadePc.resuming.inj (hpc.symm.trans heq)
      cases hok
    | counting | ending =>
      simp only [hpc, Option.some.injEq] at hstep
      subst hstep
      exact h.giveUp (fun heq => CascadePc.noConfusion (hpc.symm.trans heq))
        fun saved heq => CascadePc.noConfusion (hpc.symm.trans heq)
  | replyLost =>
    unfold CascadeState.call at hstep
    unfold undisturbed at hok
    cases hpc : s.reconcile with
    | resetting =>
      rw [hpc] at hstep
      exact h.proceed hstep
    | idle => simp only [hpc, CascadeState.proceed, Option.map_none, reduceCtorEq] at hstep
    | counting => simp only [hpc, Bool.false_eq_true] at hok
    | stamping reason =>
      simp only [hpc, Option.map_eq_some_iff] at hstep hok
      obtain ⟨u, hu, rfl⟩ := hstep
      refine (h.proceed hu).giveUp ?_ ?_ <;> simp only [CascadeState.proceed, hpc] at hu <;>
        obtain rfl := Option.some.inj hu
      · exact CascadePc.noConfusion
      · intro saved heq
        obtain ⟨-, rfl⟩ := CascadePc.resuming.inj heq
        cases hok
    | resuming | ending =>
      simp only [hpc, Option.map_eq_some_iff] at hstep
      obtain ⟨u, hu, rfl⟩ := hstep
      have hinv := h.proceed hu
      simp only [CascadeState.proceed, hpc, Option.some.injEq] at hu
      subst hu
      exact hinv

theorem Inv.ask (h : Inv s) (hstep : s.step .ask = some s') : Inv s' := by
  simp only [step, Option.ite_none_right_eq_some, Option.some.injEq] at hstep
  obtain ⟨hphase, rfl⟩ := hstep
  cases h.stage with
  | running _ hidle hcapped hdecided hcount hcap =>
    refine ⟨.waiting rfl rfl List.getElem?_concat_length hcapped (fun i hi => ?_) ?_,
      fun t ht => ?_⟩
    · rcases Nat.lt_trichotomy i s.tasks.length with hlt | heq | hgt
      · change (s.tasks ++ [_])[i]? = _ at hi
        rw [List.getElem?_append_left hlt] at hi
        exact absurd (List.mem_of_getElem? hi) hdecided
      · exact heq
      · change (s.tasks ++ [_])[i]? = _ at hi
        rw [List.getElem?_eq_none (by rw [List.length_append]; exact hgt)] at hi
        cases hi
    · dsimp only [store]
      rw [hidle]
      exact .undecided hcount hcap
    · obtain ⟨outcome, houtcome, hne⟩ := h.decided t ht
      refine ⟨outcome, ?_, hne⟩
      change (s.tasks ++ [_])[t]? = _
      rw [List.getElem?_append_left (List.getElem?_eq_some_iff.mp houtcome).1, houtcome]
  | waiting hwaiting => exact absurd (hphase.symm.trans hwaiting) (by decide)
  | ended hended =>
    rw [hphase] at hended
    cases hended

/-- The denials are those of decided tasks, also after another decision. -/
theorem decided_after {outcome : ApprovalOutcome} (h : Inv s)
    (ht : s.tasks[t]? = some .inputRequired) (hne : outcome ≠ .inputRequired) :
    ∀ i ∈ s.deniedAfter t outcome,
      ∃ o, (s.tasks.set t outcome)[i]? = some o ∧ o ≠ .inputRequired := by
  have hlt : t < s.tasks.length := (List.getElem?_eq_some_iff.mp ht).1
  have hold : ∀ i ∈ s.denied,
      ∃ o, (s.tasks.set t outcome)[i]? = some o ∧ o ≠ .inputRequired := by
    intro i hi
    by_cases hit : t = i
    · subst hit
      exact ⟨outcome, List.getElem?_set_self hlt, hne⟩
    · rw [List.getElem?_set_ne hit]
      exact h.decided i hi
  intro i hi
  cases outcome with
  | inputRequired => exact absurd rfl hne
  | completed => exact absurd hi (Finset.notMem_empty i)
  | failed error => exact hold i hi
  | denied =>
    rcases Finset.mem_insert.mp hi with rfl | hi
    · exact ⟨.denied, List.getElem?_set_self hlt, hne⟩
    · exact hold i hi

/-- The decision of the task that the query waits for. -/
theorem waiting_of_decide {outcome : ApprovalOutcome} {k : Int} (hne : outcome ≠ .inputRequired)
    (ht : t ∉ s.denied) (hcount : k = s.denied.card) (hcap : s.denied.card ≤ maxApprovalCascades) :
    Waiting .idle outcome k (s.deniedAfter t outcome).card := by
  cases outcome with
  | inputRequired => exact absurd rfl hne
  | completed => exact .granted
  | failed error => exact .failed
  | denied =>
    refine .denied ?_ (by omega)
    rw [deniedAfter, Finset.card_insert_of_notMem ht]
    omega

theorem Inv.decide {outcome : ApprovalOutcome} (h : Inv s)
    (hstep : s.step (.decide t outcome) = some s') : Inv s' := by
  simp only [step, Option.ite_none_right_eq_some, Option.some.injEq] at hstep
  obtain ⟨⟨ht, hne⟩, rfl⟩ := hstep
  refine ⟨?_, decided_after h ht hne⟩
  have hlt : t < s.tasks.length := (List.getElem?_eq_some_iff.mp ht).1
  have hmem : .inputRequired ∈ s.tasks := List.mem_of_getElem? ht
  cases h.stage with
  | running _ _ _ hdecided => exact absurd hmem hdecided
  | @waiting t' outcome' hphase htask houtcome hcapped hdecided hwaiting =>
    obtain rfl := hdecided t ht
    obtain rfl : ApprovalOutcome.inputRequired = outcome' :=
      Option.some.inj (ht.symm.trans houtcome)
    have hnot : t ∉ s.denied := by
      intro hdenied
      obtain ⟨o, ho, hopen⟩ := h.decided t hdenied
      exact hopen (Option.some.inj (ho.symm.trans ht))
    refine .waiting hphase htask (List.getElem?_set_self hlt) hcapped (fun i hi => ?_) ?_
    · by_contra hit
      change (s.tasks.set t outcome)[i]? = _ at hi
      rw [List.getElem?_set_ne (Ne.symm hit)] at hi
      exact hit (hdecided i hi)
    · generalize hpc : s.reconcile = pc at hwaiting
      cases hwaiting with
      | undecided hcount hcap =>
        exact waiting_of_decide hne hnot hcount hcap
  | ended hphase hidle hcapped =>
    exact .ended hphase hidle fun hended => absurd hmem (hcapped hended).2

theorem Inv.finish {phase : QueryPhase} (h : Inv s) (hstep : s.step (.finish phase) = some s') :
    Inv s' := by
  simp only [step, Option.ite_none_right_eq_some, Option.some.injEq] at hstep
  obtain ⟨⟨hphase, hterminal⟩, rfl⟩ := hstep
  refine ⟨?_, h.decided⟩
  cases h.stage with
  | running _ hidle hcapped =>
    refine .ended hterminal hidle fun hended => ?_
    change s.capped = true at hended
    rw [hcapped] at hended
    cases hended
  | waiting hwaiting => exact absurd (hphase.symm.trans hwaiting) (by decide)
  | ended hended =>
    rw [hphase] at hended
    cases hended

theorem Inv.cancel (h : Inv s) (hstep : s.step .cancel = some s') : Inv s' := by
  simp only [step, Option.ite_none_right_eq_some, Option.some.injEq] at hstep
  obtain ⟨⟨hidle, hopen⟩, rfl⟩ := hstep
  refine ⟨.ended rfl hidle fun hended => ?_, h.decided⟩
  change s.capped = true at hended
  cases h.stage with
  | running _ _ hcapped | waiting _ _ _ hcapped =>
    rw [hcapped] at hended
    cases hended
  | ended hphase =>
    rw [hphase] at hopen
    cases hopen

theorem Inv.step (h : Inv s) (hok : s.undisturbed a = true) (hstep : s.step a = some s') :
    Inv s' := by
  cases a with
  | fetch age visible => exact h.fetch hok hstep
  | call r => exact h.call hok hstep
  | stop =>
    obtain rfl := Option.some.inj hstep
    unfold undisturbed at hok
    refine h.giveUp (fun heq => ?_) fun saved heq => ?_ <;> rw [heq] at hok <;> cases hok
  | ask => exact h.ask hstep
  | decide t outcome => exact h.decide hstep
  | finish phase => exact h.finish hstep
  | cancel => exact h.cancel hstep

theorem inv_of_reachable (h : cascadeMachine.Reachable (fun s a => s.undisturbed a = true) s) :
    Inv s := by
  refine h.invariant ?_ fun s a t hs hok hstep => hs.step hok hstep
  rintro s ⟨initial, rfl, hcount⟩
  exact ⟨.running rfl rfl rfl List.not_mem_nil (hcount.trans (by rfl)) (Nat.zero_le _),
    fun t ht => absurd ht (Finset.notMem_empty t)⟩

/-! ### The whole run -/

/-- A reconcile whose calls all succeed ends the query at the cap and resumes it below. -/
theorem reconciled_capped (h : Inv s) (hidle : s.reconcile = .idle) (hdenied : s.Denied t) :
    s.reconciled.capped = true ↔ maxApprovalCascades < s.denied.card := by
  obtain ⟨hphase, htask, houtcome⟩ := hdenied
  cases h.stage with
  | running hrunning => exact absurd (hrunning.symm.trans hphase) (by decide)
  | ended hended =>
    rw [hphase] at hended
    cases hended
  | @waiting t' outcome _ htask' houtcome' hcapped _ hwaiting =>
    obtain rfl := Option.some.inj (htask.symm.trans htask')
    obtain rfl := Option.some.inj (houtcome.symm.trans houtcome')
    have hpc : s.handleInputRequiredPhase s.query true = handleResumableDenial s.query := by
      unfold handleInputRequiredPhase taskOutcome
      rw [htask]
      dsimp only
      rw [if_pos rfl, houtcome]
    rw [hidle] at hwaiting
    generalize hk : s.count = k at hwaiting
    generalize s.denied.card = n at hwaiting ⊢
    obtain ⟨hcount, hcap⟩ : k + 1 = n ∧ k ≤ maxApprovalCascades := by
      cases hwaiting with
      | denied hcount hcap => exact ⟨hcount, hcap⟩
    unfold reconciled
    rw [hpc, handleResumableDenial, ← count, hk]
    split
    next hle =>
      refine iff_of_true ?_ (by omega)
      change (s.capped || true) = true
      exact Bool.or_true _
    next hlt =>
      refine iff_of_false ?_ (by omega)
      change ¬ s.capped = true
      rw [hcapped]
      exact Bool.false_ne_true

theorem Inv.capExact (h : Inv s) : CapExact s := by
  refine ⟨fun hcapped => ?_, fun hmany hrunning => ?_, fun t hidle hdenied =>
    reconciled_capped h hidle hdenied⟩
  · cases h.stage with
    | running _ _ hnot | waiting _ _ _ hnot =>
      rw [hnot] at hcapped
      cases hcapped
    | ended _ _ hcap => exact (hcap hcapped).1
  · cases h.stage with
    | running _ _ _ _ _ hcap => omega
    | waiting hphase => exact absurd (hrunning.symm.trans hphase) (by decide)
    | ended hphase =>
      rw [hrunning] at hphase
      cases hphase

/-- As long as nothing disturbs a reconcile, the cap is exact. -/
theorem cap_exact (h : cascadeMachine.Reachable (fun s a => s.undisturbed a = true) s) :
    CapExact s := (inv_of_reachable h).capExact

/-- Ask for an approval, deny it and let a whole reconcile handle the denial. -/
def denial (t : ℕ) : List CascadeAction :=
  [.ask, .decide t .denied, .fetch 0 true, .call .succeeds, .call .succeeds, .call .succeeds]

def undisturbedRun : List CascadeAction :=
  denial 0 ++ denial 1 ++ denial 2 ++
    [.ask, .decide 3 .denied, .fetch 0 true, .call .fails, .fetch 0 true, .call .succeeds]

theorem cap_exact_four_denials : ∃ s,
    cascadeMachine.Reachable (fun s a => s.undisturbed a = true) s ∧ s.capped = true ∧
      CapExact s := by
  obtain ⟨s, hs, hcapped⟩ := Machine.exists_reachable (M := cascadeMachine)
    (s := .new none) (p := fun s => s.capped) (b := fun s a => s.undisturbed a)
    ⟨none, rfl, rfl⟩ (fun _ _ h => h) (l := undisturbedRun) (by decide +kernel)
  exact ⟨s, hs, hcapped, cap_exact hs⟩

/-- The status update of the third denial fails; the reset after an approval fails; a reconcile takes
up the version between counting a denial and resuming the query. -/
def disturbedRuns : List (List CascadeAction) :=
  [denial 0 ++ denial 1 ++
    [.ask, .decide 2 .denied, .fetch 0 true, .call .succeeds, .call .succeeds, .call .fails,
      .fetch 0 true, .call .succeeds],
    denial 0 ++ denial 1 ++ denial 2 ++
      [.ask, .decide 3 .completed, .fetch 0 true, .call .fails, .call .succeeds, .call .succeeds,
        .ask, .decide 4 .denied, .fetch 0 true, .call .succeeds],
    denial 0 ++ [.fetch 1 true, .call .succeeds, .call .succeeds, .call .succeeds] ++ denial 1 ++
      [.ask, .decide 2 .denied, .fetch 0 true, .call .succeeds]]

/-- Each of these runs ends with a query that the cap has ended too early. -/
theorem capped_too_early : disturbedRuns.Forall fun l => ∃ s,
    cascadeMachine.execWhile (fun _ _ => true) (.new none) l = some s ∧
      cascadeMachine.Reachable Machine.always s ∧ ¬ CapExact s := by
  rw [List.forall_iff_forall_mem]
  have hruns : ∀ l ∈ disturbedRuns, (cascadeMachine.execWhile (fun _ _ => true) (.new none) l).any
      (fun s => s.capped && s.denied.card ≤ maxApprovalCascades) = true := by decide +kernel
  intro l hl
  obtain ⟨s, hrun, hs⟩ := (Option.any_eq_true _ _).mp (hruns l hl)
  rw [Bool.and_eq_true, decide_eq_true_eq] at hs
  have hinit : cascadeMachine.init (.new none) := ⟨none, rfl, rfl⟩
  refine ⟨s, hrun, (Machine.Reachable.init hinit).trans
    (Machine.run_of_execWhile (fun _ _ _ => trivial) hrun), fun h => ?_⟩
  exact Nat.not_lt.mpr hs.2 (h.capped hs.1)

end CascadeState
end Ark
