import Ark.QueryEffects

/-!
# One execution at a time

The controller runs many queries under one semaphore. An execution owns its query's entry of
`operations` only by the query's name, so a goroutine that has been replaced removes the entry of
its successor when it ends; and neither a stale copy of a finished query nor a goroutine that was
already spawned when the query finished is kept from a dispatch.
-/

namespace Ark

/-! ### The semaphore -/

structure QueryReconciler where
  maxConcurrentQueries : ℕ
  permits : ℕ
  queries : Slots QueryState
  deriving DecidableEq, Repr

namespace QueryState

/-- The permits that a query accounts for: one for each goroutine that has not released its own, and
one for a reconcile on its way to starting a goroutine. -/
def held (s : QueryState) : ℕ := s.executions.length + s.reconcile.holdsPermit.toNat

def takesPermit : QueryAction → Bool
  | .tryAcquire granted => granted
  | _ => false

/-- A goroutine returns its permit when it ends, a reconcile when the write of `running` fails. -/
def returnsPermit (s : QueryState) : QueryAction → Bool
  | .release _ => true
  | .updateStatus .failed => s.reconcile.holdsPermit
  | _ => false

end QueryState

namespace QueryReconciler

/-- Whether `TryAcquire` succeeds; with a cap of zero there is no semaphore. -/
def hasCapacity (c : QueryReconciler) : Bool :=
  c.maxConcurrentQueries = 0 || c.permits < c.maxConcurrentQueries

def step (c : QueryReconciler) (ka : ℕ × QueryAction) : Option QueryReconciler :=
  (c.queries.get? ka.1).bind fun s =>
    if ka.2 = .tryAcquire !c.hasCapacity then none
    else (s.step ka.2).map fun t => { c with
      permits := if c.maxConcurrentQueries = 0 then c.permits
        else c.permits + (QueryState.takesPermit ka.2).toNat - (s.returnsPermit ka.2).toNat
      queries := c.queries.put ka.1 t }

def machine : Machine QueryReconciler (ℕ × QueryAction) where
  init c := c.permits = 0 ∧ c.queries.keys.Nodup ∧ ∀ k s, (k, s) ∈ c.queries → s = .new
  step := step

end QueryReconciler

/-! ### The property and the condition -/

namespace QueryState

/-- A query is executed by one goroutine at a time, which `operations` names, and never after it has
finished. -/
structure ExecutesOnce (s : QueryState) : Prop where
  one_at_a_time : ∀ i e j f, (i, e) ∈ s.executions → (j, f) ∈ s.executions → e.live = true →
    f.live = true → i = j ∧ e = f
  listed : ∀ i e, (i, e) ∈ s.executions → e.live = true → s.operations = some i
  no_late_dispatch : s.lateDispatch = false

end QueryState

def StatusWrite.isTerminal (w : StatusWrite) : Bool := w.timeout || w.phase.isTerminal

namespace QueryState

/-- A goroutine that ends finds its own entry or none; no goroutine is started for a query that has
finished; and no terminal status is stored while a goroutine is spawned and has not begun its
dispatch. -/
def orderly (s : QueryState) (a : QueryAction) : Bool :=
  match a with
  | .deleteEntry g => s.operations = none || s.operations = some g
  | .startExecution => !s.finished
  | a =>
    match s.pendingWrite a with
    | some w => !w.isTerminal || s.executions.all fun p => !p.2.beforeDispatch
    | none => true

/-! ### What the executions keep -/

variable {s t : QueryState} {a : QueryAction}

/-- The executions are numbered apart, below the next number. -/
structure Numbered (s : QueryState) : Prop where
  nodup : s.executions.keys.Nodup
  lt : ∀ i e, (i, e) ∈ s.executions → i < s.nextExecution

theorem mem_cancelOperation {i : ℕ} {e : Execution} (h : (i, e) ∈ s.cancelOperation.executions) :
    ∃ f, (i, f) ∈ s.executions ∧ (s.operations = some i ∧ e = { f with cancelled := true } ∨
      s.operations ≠ some i ∧ e = f) := by
  obtain ⟨⟨j, f⟩, hmem, hp⟩ := List.mem_map.mp h
  simp only at hp
  split at hp
  next hops =>
    obtain ⟨rfl, rfl⟩ := Prod.mk.inj hp
    exact ⟨f, hmem, .inl ⟨hops, rfl⟩⟩
  next hops =>
    obtain ⟨rfl, rfl⟩ := Prod.mk.inj hp
    exact ⟨f, hmem, .inr ⟨hops, rfl⟩⟩

theorem keys_cancelOperation : s.cancelOperation.executions.keys = s.executions.keys := by
  unfold cancelOperation Slots.keys
  rw [List.map_map]
  apply List.map_congr_left
  intro p _
  by_cases hp : s.operations = some p.1
  · simp [hp]
  · simp [hp]

theorem numbered_new : Numbered .new := by
  constructor
  · exact List.nodup_nil
  · intro i e h
    cases h

theorem numbered_step (hn : s.Numbered) (h : s.step a = some t) : t.Numbered := by
  have hput : ∀ g e, t.executions = s.executions.put g e → s.executions.keys = t.executions.keys := by
    intro g e hexec
    rw [hexec, Slots.keys_put]
  have hsame : s.executions.keys = t.executions.keys → t.nextExecution = s.nextExecution →
      t.Numbered := by
    intro hkeys hnext
    refine ⟨hkeys ▸ hn.nodup, ?_⟩
    intro i e hmem
    obtain ⟨⟨j, f⟩, hf, rfl⟩ := List.mem_map.mp (hkeys ▸ Slots.mem_keys hmem : i ∈ s.executions.keys)
    rw [hnext]
    exact hn.lt j f hf
  cases step_effect h with
  | unmoved h => exact hsame (by rw [h.executions]) h.next
  | executes h =>
    cases h with
    | runs g e e' _ _ _ _ hexec hnext => exact hsame (hput g e' hexec) hnext
    | deletes g e _ _ hexec hnext => exact hsame (hput g _ hexec) hnext
    | releases g e _ _ _ hexec hnext =>
      constructor
      · rw [hexec]
        exact hn.nodup.sublist (List.filter_sublist.map _)
      · intro i f hmem
        rw [hexec] at hmem
        rw [hnext]
        exact hn.lt i f (List.mem_of_mem_filter hmem)
  | reconciles hexec hnext => exact hsame (by rw [hexec]) hnext
  | cancels hexec hnext => exact hsame (by rw [hexec, keys_cancelOperation]) hnext
  | starts obj _ _ hexec hnext =>
    constructor
    · rw [hexec, Slots.keys, List.map_append, List.nodup_append]
      refine ⟨hn.nodup, by simp, ?_⟩
      intro i hi j hj
      obtain ⟨⟨k, f⟩, hf, rfl⟩ := List.mem_map.mp hi
      rw [List.map_singleton, List.mem_singleton] at hj
      have := hn.lt k f hf
      simp only at hj ⊢
      omega
    · intro i f hmem
      rw [hexec, List.mem_append, List.mem_singleton] at hmem
      rw [hnext]
      rcases hmem with hmem | heq
      · have := hn.lt i f hmem
        omega
      · cases heq
        omega

/-- The live executions are the one that `operations` names, and a reconcile that is about to start
one has seen no entry. -/
structure Exclusive (s : QueryState) : Prop where
  listed : ∀ i e, (i, e) ∈ s.executions → e.live = true → s.operations = some i
  starts : s.reconcile.starts = true → s.operations = none

theorem exclusive_new : Exclusive .new := by
  constructor
  · intro i e h
    cases h
  · intro h
    cases h

theorem live_iff (e : Execution) : e.live = true ↔ e.executing = true ∧ e.cancelled = false := by
  simp [Execution.live]

theorem exclusive_execution (hx : s.Exclusive) (hok : s.orderly a = true)
    (h : ExecutionEffect s t a) : t.Exclusive := by
  cases h with
  | runs g e e' hget hrun hcancelled _ hexec _ hops hrec =>
    constructor
    · intro i f hmem hlive
      rw [hexec] at hmem
      rw [hops]
      rcases Slots.mem_put hmem with ⟨rfl, rfl⟩ | ⟨-, hold⟩
      · apply hx.listed i e (Slots.mem_of_get? hget)
        rw [live_iff] at hlive ⊢
        exact ⟨hrun, hcancelled ▸ hlive.2⟩
      · exact hx.listed i f hold hlive
    · intro hstarts
      rw [hops]
      exact hx.starts (hrec ▸ hstarts)
  | deletes g e hact hget hexec _ hops hrec =>
    constructor
    · intro i f hmem hlive
      rw [hexec] at hmem
      rcases Slots.mem_put hmem with ⟨-, rfl⟩ | ⟨hne, hold⟩
      · cases hlive
      · have hentry := hx.listed i f hold hlive
        simp only [hact, orderly, hentry, Bool.or_eq_true, decide_eq_true_eq] at hok
        rcases hok with hnone | hsome
        · cases hnone
        · exact absurd (Option.some.inj hsome) hne
    · intro _
      exact hops
  | releases g e _ hget _ hexec _ hops hrec =>
    constructor
    · intro i f hmem hlive
      rw [hexec] at hmem
      rw [hops]
      exact hx.listed i f (List.mem_of_mem_filter hmem) hlive
    · intro hstarts
      rw [hops]
      exact hx.starts (hrec ▸ hstarts)

theorem exclusive_step (hx : s.Exclusive) (hok : s.orderly a = true) (h : s.step a = some t) :
    t.Exclusive := by
  cases step_effect h with
  | unmoved h =>
    constructor
    · intro i e hmem hlive
      rw [h.operations]
      exact hx.listed i e (h.executions ▸ hmem) hlive
    · intro hstarts
      rw [h.operations]
      exact hx.starts (h.reconcile ▸ hstarts)
  | executes h => exact exclusive_execution hx hok h
  | reconciles hexec _ hops hstarts =>
    constructor
    · intro i e hmem hlive
      rw [hops]
      exact hx.listed i e (hexec ▸ hmem) hlive
    · intro hs
      rw [hops]
      rcases hstarts hs with hold | hnone
      · exact hx.starts hold
      · exact hnone
  | cancels hexec _ hops =>
    constructor
    · intro i e hmem hlive
      rw [hexec] at hmem
      obtain ⟨f, hf, ⟨-, rfl⟩ | ⟨hne, rfl⟩⟩ := mem_cancelOperation hmem
      · simp [Execution.live] at hlive
      · exact absurd (hx.listed i e hf hlive) hne
    · intro _
      exact hops
  | starts obj hpc _ hexec _ hops hidle =>
    have hnone : s.operations = none := hx.starts (by rw [hpc]; rfl)
    constructor
    · intro i e hmem hlive
      rw [hexec, List.mem_append, List.mem_singleton] at hmem
      rcases hmem with hold | heq
      · rw [hx.listed i e hold hlive] at hnone
        cases hnone
      · cases heq
        exact hops
    · intro hs
      rw [hidle] at hs
      cases hs

/-! ### No dispatch after the end -/

theorem finished_iff : s.finished = true ↔ ∃ q ∈ s.current :: s.past, q.phase.isTerminal = true := by
  simp [finished]

theorem finished_of_quiet (hpast : t.past = s.current :: s.past)
    (hphase : t.current.phase = s.current.phase) : t.finished = s.finished := by
  unfold finished
  rw [hpast, List.any_cons, List.any_cons, hphase]
  cases s.current.phase.isTerminal <;> simp

theorem isTerminal_of_apply {w : StatusWrite} {q q' : Query} (h : w.apply q = some q') :
    q'.phase.isTerminal = w.isTerminal := by
  unfold StatusWrite.apply at h
  unfold StatusWrite.isTerminal
  cases htimeout : w.timeout with
  | true =>
    simp only [htimeout, if_true] at h
    split at h
    next => cases h
    next =>
      cases h
      rfl
  | false =>
    simp only [htimeout, Bool.false_eq_true, if_false] at h
    cases h
    rfl

/-- A step makes a query finished only by storing a terminal status. -/
theorem finished_step (hc : s.Cached) (h : s.step a = some t) (ht : t.finished = true) :
    s.finished = true ∨ ∃ w, s.pendingWrite a = some w ∧ w.isTerminal = true := by
  cases step_stores hc h with
  | nothing hcurrent hpast =>
    left
    unfold finished at ht ⊢
    rwa [hcurrent, hpast] at ht
  | quietly hpast hphase =>
    left
    rwa [finished_of_quiet hpast hphase] at ht
  | writes w hw hpast happly =>
    obtain ⟨q, hq, hterm⟩ := finished_iff.mp ht
    rw [hpast] at hq
    rcases List.mem_cons.mp hq with heq | hold
    · right
      rw [heq, isTerminal_of_apply happly] at hterm
      exact ⟨w, hw, hterm⟩
    · left
      exact finished_iff.mpr ⟨q, hold, hterm⟩

/-- A goroutine that may still dispatch was spawned by this step, or could dispatch before it. -/
theorem beforeDispatch_step (h : s.step a = some t) {i : ℕ} {e : Execution}
    (hmem : (i, e) ∈ t.executions) (hwait : e.beforeDispatch = true) :
    a = .startExecution ∨ ∃ f, (i, f) ∈ s.executions ∧ f.beforeDispatch = true := by
  cases step_effect h with
  | unmoved h => exact .inr ⟨e, h.executions ▸ hmem, hwait⟩
  | executes h =>
    cases h with
    | runs g f f' hget _ _ hdispatch hexec =>
      rw [hexec] at hmem
      rcases Slots.mem_put hmem with ⟨rfl, rfl⟩ | ⟨-, hold⟩
      · exact .inr ⟨f, Slots.mem_of_get? hget, hdispatch hwait⟩
      · exact .inr ⟨e, hold, hwait⟩
    | deletes g f _ _ hexec =>
      rw [hexec] at hmem
      rcases Slots.mem_put hmem with ⟨-, rfl⟩ | ⟨-, hold⟩
      · cases hwait
      · exact .inr ⟨e, hold, hwait⟩
    | releases g f _ _ _ hexec =>
      rw [hexec] at hmem
      exact .inr ⟨e, List.mem_of_mem_filter hmem, hwait⟩
  | reconciles hexec => exact .inr ⟨e, hexec ▸ hmem, hwait⟩
  | cancels hexec =>
    rw [hexec] at hmem
    obtain ⟨f, hf, ⟨-, rfl⟩ | ⟨-, rfl⟩⟩ := mem_cancelOperation hmem
    · exact .inr ⟨f, hf, hwait⟩
    · exact .inr ⟨_, hf, hwait⟩
  | starts obj _ hact => exact .inl hact

/-- No goroutine of a finished query may still dispatch. -/
def Settled (s : QueryState) : Prop :=
  ∀ i e, (i, e) ∈ s.executions → e.beforeDispatch = true → s.finished = false

theorem orderly_write (hok : s.orderly a = true) {w : StatusWrite} (hw : s.pendingWrite a = some w)
    (hterm : w.isTerminal = true) {i : ℕ} {e : Execution} (hmem : (i, e) ∈ s.executions) :
    e.beforeDispatch = false := by
  have hall : s.executions.all (fun p => !p.2.beforeDispatch) = true := by
    unfold orderly at hok
    split at hok
    next => cases hw
    next => cases hw
    next => simpa [hw, hterm] using hok
  simpa using List.all_eq_true.mp hall (i, e) hmem

theorem settled_step (hc : s.Cached) (hs : s.Settled) (hok : s.orderly a = true)
    (h : s.step a = some t) : t.Settled := by
  intro i e hmem hwait
  by_contra hfin
  rw [Bool.not_eq_false] at hfin
  rcases beforeDispatch_step h hmem hwait with rfl | ⟨f, hf, hfwait⟩
  · rcases finished_step hc h hfin with hold | ⟨w, hw, -⟩
    · simp [orderly, hold] at hok
    · cases hw
  · rcases finished_step hc h hfin with hold | ⟨w, hw, hterm⟩
    · rw [hs i f hf hfwait] at hold
      cases hold
    · rw [orderly_write hok hw hterm hf] at hfwait
      cases hfwait

theorem takeReply_lateDispatch (g : ℕ) (e : Execution) (created : Bool) (reply : Reply) :
    (s.takeReply g e created reply).lateDispatch = s.lateDispatch := by
  cases reply with
  | inputRequired calls => cases created <;> rfl
  | _ => rfl

theorem executionStep_lateDispatch {g : ℕ} {e : Execution} (h : s.executionStep g e a = some t) :
    t.lateDispatch = s.lateDispatch ∨
      e.beforeDispatch = true ∧ t.lateDispatch = (s.lateDispatch || s.finished) := by
  cases a with
  | dispatch g' =>
    simp only [executionStep] at h
    split at h
    next hpc =>
      cases h
      exact .inr ⟨by rw [Execution.beforeDispatch, hpc], rfl⟩
    next => cases h
  | takeReply g' created =>
    simp only [executionStep] at h
    split at h
    next =>
      split at h <;> cases h
      exact .inl (takeReply_lateDispatch _ _ _ _)
    next => cases h
  | _ =>
    left
    simp only [executionStep] at h
    repeat' split at h
    all_goals first
      | cases h; done
      | cases h; rfl
      | obtain ⟨q, -, rfl⟩ := Option.map_eq_some_iff.mp h; rfl

theorem lateDispatch_step (hs : s.Settled) (h : s.step a = some t) :
    t.lateDispatch = s.lateDispatch := by
  rcases step_actor h with h | ⟨g, e, hget, h, -⟩ | ⟨r, pc, -, h⟩ | h
  · exact (reconcileStep_executor h).lateDispatch
  · rcases executionStep_lateDispatch h with hsame | ⟨hwait, hlate⟩
    · exact hsame
    · rw [hlate, hs g e (Slots.mem_of_get? hget) hwait, Bool.or_false]
  · exact (runStep_unmoved h).lateDispatch
  · exact (environmentStep_unmoved h).lateDispatch

/-! ### Permits -/

theorem handle_held (version : ℕ) (obj : Query) (v : ReconcileView) :
    (s.handle version obj v).executions.length = s.executions.length ∧
      (s.handle version obj v).reconcile.holdsPermit = false := by
  have hcancel : s.cancelOperation.executions.length = s.executions.length := List.length_map _
  unfold handle finalize updateObject handleQueryExecution handleInputRequiredPhase resume
  repeat' split
  all_goals first
    | exact ⟨rfl, rfl⟩
    | exact ⟨hcancel, rfl⟩

theorem reconcileStep_held (h : s.reconcileStep a = some t) :
    t.held + (s.returnsPermit a).toNat = s.held + (takesPermit a).toNat := by
  cases a with
  | fetch age =>
    simp only [reconcileStep] at h
    split at h
    next hpc =>
      obtain ⟨obj, -, rfl⟩ := Option.map_eq_some_iff.mp h
      simp [held, hpc, ReconcilePc.holdsPermit, returnsPermit, takesPermit]
    next => cases h
  | handle v =>
    simp only [reconcileStep] at h
    split at h
    next version obj hpc =>
      cases h
      obtain ⟨hlen, hpermit⟩ := handle_held (s := s) version obj v
      simp only [held, hlen, hpermit, hpc, returnsPermit, takesPermit]
      rfl
    next => cases h
  | tryAcquire granted =>
    simp only [reconcileStep] at h
    split at h
    next obj hpc =>
      split at h
      next hgranted =>
        cases h
        simp [held, hpc, ReconcilePc.holdsPermit, returnsPermit, takesPermit, hgranted]
      next hrefused =>
        split at h <;> cases h <;>
          simp [held, hpc, ReconcilePc.holdsPermit, returnsPermit, takesPermit, hrefused]
    next => cases h
  | markRunning =>
    simp only [reconcileStep] at h
    split at h
    next obj hpc =>
      split at h <;> cases h <;>
        simp [held, hpc, ReconcilePc.holdsPermit, returnsPermit, takesPermit]
    next => cases h
  | updateStatus o =>
    simp only [reconcileStep] at h
    split at h
    next w obj start hpc =>
      cases o with
      | stored =>
        simp only at h
        split at h
        next => cases h
        next =>
          obtain ⟨q, -, rfl⟩ := Option.map_eq_some_iff.mp h
          cases start <;>
            simp [held, hpc, store, ReconcilePc.holdsPermit, returnsPermit, takesPermit]
      | dropped =>
        simp only at h
        split at h <;> cases h
        cases start <;> simp [held, hpc, ReconcilePc.holdsPermit, returnsPermit, takesPermit]
      | failed =>
        cases h
        simp [held, hpc, ReconcilePc.holdsPermit, returnsPermit, takesPermit]
    next => cases h
  | startExecution =>
    simp only [reconcileStep] at h
    split at h
    next obj hpc =>
      cases h
      simp [held, hpc, ReconcilePc.holdsPermit, returnsPermit, takesPermit]
    next => cases h
  | _ => cases h

theorem takeReply_length (g : ℕ) (e : Execution) (created : Bool) (reply : Reply) :
    (s.takeReply g e created reply).executions.length = s.executions.length := by
  cases reply with
  | inputRequired calls => cases created <;> exact Slots.length_put _ _ _
  | _ => exact Slots.length_put _ _ _

theorem executionStep_held (hn : s.Numbered) {g : ℕ} {e : Execution}
    (hget : s.executions.get? g = some e)
    (hg : ∀ g', a = .deleteEntry g' ∨ a = .release g' → g' = g)
    (h : s.executionStep g e a = some t) :
    t.held + (s.returnsPermit a).toNat = s.held + (takesPermit a).toNat := by
  have hrec : t.reconcile = s.reconcile := (executionStep_effect hget hg h).reconcile
  have hlen : t.executions.length + (s.returnsPermit a).toNat =
      s.executions.length + (takesPermit a).toNat := by
    cases a with
    | release g' =>
      simp only [executionStep] at h
      split at h <;> cases h
      exact Slots.length_filter_ne hn.nodup hget
    | takeReply g' created =>
      simp only [executionStep] at h
      split at h
      next =>
        split at h <;> cases h
        exact takeReply_length _ _ _ _
      next => cases h
    | _ =>
      simp only [executionStep] at h
      repeat' split at h
      all_goals first
        | cases h; done
        | cases h; exact Slots.length_put _ _ _
        | obtain ⟨q, -, rfl⟩ := Option.map_eq_some_iff.mp h; exact Slots.length_put _ _ _
  unfold held
  rw [hrec]
  omega

theorem runStep_permits {r : ℕ} {pc : RunPc} (h : s.runStep r pc a = some t) :
    s.returnsPermit a = false ∧ takesPermit a = false := by
  cases a <;> first
    | exact ⟨rfl, rfl⟩
    | cases h

theorem environmentStep_permits (h : s.environmentStep a = some t) :
    s.returnsPermit a = false ∧ takesPermit a = false := by
  cases a <;> first
    | exact ⟨rfl, rfl⟩
    | cases h

/-- A query accounts for one permit more for every one it takes, one less for every one it
returns. -/
theorem held_step (hn : s.Numbered) (h : s.step a = some t) :
    t.held + (s.returnsPermit a).toNat = s.held + (takesPermit a).toNat := by
  rcases step_actor h with h | ⟨g, e, hget, h, hg⟩ | ⟨r, pc, -, h⟩ | h
  · exact reconcileStep_held h
  · exact executionStep_held hn hget hg.1 h
  · obtain ⟨hreturns, htakes⟩ := runStep_permits h
    rw [held, held, (runStep_unmoved h).executions, (runStep_unmoved h).reconcile, hreturns, htakes]
  · obtain ⟨hreturns, htakes⟩ := environmentStep_permits h
    rw [held, held, (environmentStep_unmoved h).executions, (environmentStep_unmoved h).reconcile,
      hreturns, htakes]

/-! ### One query's run -/

/-- What the argument carries along the runs of one query. -/
structure Invariant (s : QueryState) : Prop where
  numbered : s.Numbered
  cached : s.Cached
  exclusive : s.Exclusive
  settled : s.Settled
  punctual : s.lateDispatch = false

theorem invariant_new : Invariant .new where
  numbered := numbered_new
  cached := by
    intro version obj h
    cases h
  exclusive := exclusive_new
  settled := by
    intro i e h
    cases h
  punctual := rfl

theorem invariant_step (hi : s.Invariant) (hok : s.orderly a = true) (h : s.step a = some t) :
    t.Invariant where
  numbered := numbered_step hi.numbered h
  cached := cached_step hi.cached h
  exclusive := exclusive_step hi.exclusive hok h
  settled := settled_step hi.cached hi.settled hok h
  punctual := by rw [lateDispatch_step hi.settled h, hi.punctual]

theorem Invariant.executesOnce (hi : s.Invariant) : s.ExecutesOnce where
  one_at_a_time := by
    intro i e j f he hf helive hflive
    have hij : i = j := by
      have := (hi.exclusive.listed i e he helive).symm.trans (hi.exclusive.listed j f hf hflive)
      exact Option.some.inj this
    subst hij
    exact ⟨rfl, Slots.eq_of_mem hi.numbered.nodup he hf⟩
  listed := hi.exclusive.listed
  no_late_dispatch := hi.punctual

end QueryState

/-! ### The controller's run -/

namespace QueryReconciler

variable {c d : QueryReconciler}

/-- Every step is orderly for its query. -/
def orderly (c : QueryReconciler) (ka : ℕ × QueryAction) : Prop :=
  (c.queries.get? ka.1).all (fun s => s.orderly ka.2) = true

/-- Each query is executed by one goroutine at a time and never after its end, and the permits taken
are those of the goroutines that run or are being started. -/
structure ExecutesOnce (c : QueryReconciler) : Prop where
  queries : ∀ k s, (k, s) ∈ c.queries → s.ExecutesOnce
  permits : c.maxConcurrentQueries ≠ 0 →
    c.permits = (c.queries.map fun p => p.2.held).sum ∧ c.permits ≤ c.maxConcurrentQueries

theorem step_cases {k : ℕ} {a : QueryAction} (h : c.step (k, a) = some d) :
    ∃ s t, c.queries.get? k = some s ∧ a ≠ .tryAcquire !c.hasCapacity ∧ s.step a = some t ∧
      d.maxConcurrentQueries = c.maxConcurrentQueries ∧ d.queries = c.queries.put k t ∧
      d.permits = if c.maxConcurrentQueries = 0 then c.permits
        else c.permits + (QueryState.takesPermit a).toNat - (s.returnsPermit a).toNat := by
  obtain ⟨s, hs, h⟩ := Option.bind_eq_some_iff.mp h
  split at h
  next => cases h
  next hcap =>
    obtain ⟨t, ht, rfl⟩ := Option.map_eq_some_iff.mp h
    exact ⟨s, t, hs, hcap, ht, rfl, rfl, rfl⟩

/-- An invariant of each query's steps is one of the controller's runs. -/
theorem queries_invariant {ok : QueryReconciler → ℕ × QueryAction → Prop}
    {p : QueryState → QueryAction → Prop} {I : QueryState → Prop}
    (hok : ∀ c k a s, ok c (k, a) → c.queries.get? k = some s → p s a) (hnew : I .new)
    (hstep : ∀ s a t, I s → p s a → s.step a = some t → I t) (h : machine.Reachable ok c) :
    ∀ k s, (k, s) ∈ c.queries → I s := by
  apply h.invariant
  · intro c hinit k s hmem
    rw [hinit.2.2 k s hmem]
    exact hnew
  · intro c ka d hc hka hcd k' s' hmem
    obtain ⟨k, a⟩ := ka
    obtain ⟨s, t, hget, -, hst, -, hqueries, -⟩ := step_cases hcd
    rw [hqueries] at hmem
    rcases Slots.mem_put hmem with ⟨-, rfl⟩ | ⟨-, hold⟩
    · exact hstep s a s' (hc k s (Slots.mem_of_get? hget)) (hok c k a s hka hget) hst
    · exact hc k' s' hold

/-- The semaphore counts what the queries hold. -/
structure Counted (c : QueryReconciler) : Prop where
  nodup : c.queries.keys.Nodup
  permits : c.maxConcurrentQueries ≠ 0 →
    c.permits = (c.queries.map fun p => p.2.held).sum ∧ c.permits ≤ c.maxConcurrentQueries

theorem counted_init (h : machine.init c) : c.Counted := by
  obtain ⟨hpermits, hnodup, hnew⟩ := h
  refine ⟨hnodup, ?_⟩
  intro _
  rw [hpermits]
  refine ⟨?_, Nat.zero_le _⟩
  have hzero : (c.queries.map fun p => p.2.held) = c.queries.map fun _ => 0 := by
    apply List.map_congr_left
    intro p hp
    rw [hnew p.1 p.2 hp]
    rfl
  rw [hzero]
  simp

theorem permits_le {a : QueryAction} (hmax : c.maxConcurrentQueries ≠ 0)
    (hle : c.permits ≤ c.maxConcurrentQueries) (hcap : a ≠ .tryAcquire !c.hasCapacity) :
    c.permits + (QueryState.takesPermit a).toNat ≤ c.maxConcurrentQueries := by
  cases htakes : QueryState.takesPermit a with
  | false => simpa using hle
  | true =>
    have ha : a = .tryAcquire true := by
      cases a with
      | tryAcquire granted =>
        rw [QueryState.takesPermit] at htakes
        rw [htakes]
      | _ => cases htakes
    have hfree : c.hasCapacity = true := by
      by_contra hfull
      apply hcap
      rw [ha, Bool.not_eq_true _ |>.mp hfull]
      rfl
    simp only [hasCapacity, hmax, decide_false, Bool.false_or, decide_eq_true_eq] at hfree
    rw [Bool.toNat_true]
    omega

theorem counted_step {ka : ℕ × QueryAction} (hq : ∀ k s, (k, s) ∈ c.queries → s.Invariant)
    (hc : c.Counted) (h : c.step ka = some d) : d.Counted := by
  obtain ⟨k, a⟩ := ka
  obtain ⟨s, t, hget, hcap, hst, hmax, hqueries, hpermits⟩ := step_cases h
  constructor
  · rw [hqueries, Slots.keys_put]
    exact hc.nodup
  · intro hne
    rw [hmax] at hne
    obtain ⟨heq, hle⟩ := hc.permits hne
    have hheld := QueryState.held_step (hq k s (Slots.mem_of_get? hget)).numbered hst
    have hsum := Slots.sum_put (a := t) hc.nodup hget QueryState.held
    have hbound := permits_le hne hle hcap
    rw [hpermits, if_neg hne, hqueries, hmax]
    omega

/-- In a run whose steps are all orderly, every query is executed by one goroutine at a time, which
`operations` names while it runs, no dispatch starts after a terminal phase was stored, and the
semaphore counts the goroutines. -/
theorem executes_once (h : machine.Reachable orderly c) : c.ExecutesOnce := by
  have hqueries : ∀ c, machine.Reachable orderly c → ∀ k s, (k, s) ∈ c.queries → s.Invariant := by
    intro c hc
    apply queries_invariant (p := fun s a => s.orderly a = true) _ QueryState.invariant_new _ hc
    · intro c k a s hok hget
      simpa [orderly, hget] using hok
    · intro s a t hs hok hst
      exact QueryState.invariant_step hs hok hst
  have hcounted : c.Counted := by
    apply h.invariant_of hqueries
    · intro c hinit
      exact counted_init hinit
    · intro c ka d hq hc _ hcd
      exact counted_step hq hc hcd
  exact ⟨fun k s hmem => (hqueries c h k s hmem).executesOnce, hcounted.permits⟩

/-! ### Runs of one query -/

/-- One query under a cap of `n`. -/
def single (n : ℕ) : QueryReconciler := ⟨n, 0, [(0, .new)]⟩

theorem single_init (n : ℕ) : machine.init (single n) := by
  refine ⟨rfl, List.nodup_cons.mpr ⟨List.not_mem_nil, List.nodup_nil⟩, ?_⟩
  intro k s h
  cases List.mem_singleton.mp h
  rfl

def forQuery (as : List QueryAction) : List (ℕ × QueryAction) := as.map fun a => (0, a)

/-- Two reconciles put the finalizer and the first condition on a new query. -/
def prepare : List QueryAction := [.fetch 0, .handle {}, .fetch 0, .handle {}]

/-- A reconcile of a query without an entry in `operations` that starts a goroutine. -/
def start (age : ℕ) (write : Bool) : List QueryAction :=
  [.fetch age, .handle {}, .tryAcquire true, .markRunning] ++
    (if write then [.updateStatus .stored] else []) ++ [.startExecution]

/-- Goroutine `g` dispatches, the executor runs the approved calls if there are any and answers,
and the goroutine stores the outcome. -/
def execute (g calls : ℕ) (reply : Reply) : List QueryAction :=
  [.refetch g (some 0), .dispatch g, .load g, .check g true] ++
    List.replicate calls (.executeCall g) ++ [.reply g reply, .takeReply g true, .write g .stored]

def finish (g : ℕ) : List QueryAction := [.deleteEntry g, .release g]

/-- The task is approved and a reconcile resumes the query. -/
def approve : List QueryAction :=
  [.decide 0 .completed, .fetch 0, .handle {}, .updateStatus .stored]

/-- Two goroutines with contexts that have not been cancelled execute one query. -/
def twoLive (c : QueryReconciler) : Bool := c.queries.any fun p =>
  p.2.executions.any fun e => p.2.executions.any fun f =>
    e.1 ≠ f.1 && e.2.live && f.2.live

def late (c : QueryReconciler) : Bool := c.queries.any fun p => p.2.lateDispatch

/-- Between storing `input-required` and removing its entry a goroutine is replaced: the query is
approved and resumed at once. It then removes its successor's entry, and the safety requeue starts a
third goroutine beside the second. In the other run a reconcile of a stale copy starts a goroutine
for a query that is done. -/
theorem successor_entry_deleted :
    (∃ c, machine.Reachable Machine.always c ∧ twoLive c = true) ∧
      ∃ c, machine.Reachable Machine.always c ∧ late c = true := by
  constructor
  · apply Machine.exists_reachable (b := fun _ _ => true) (single_init 2) (fun _ _ _ => trivial)
      (l := forQuery (prepare ++ start 0 true ++ execute 0 0 (.inputRequired 1) ++ approve ++
        start 0 false ++ finish 0 ++ start 0 false))
    decide
  · apply Machine.exists_reachable (b := fun _ _ => true) (single_init 2) (fun _ _ _ => trivial)
      (l := forQuery (prepare ++ start 0 true ++ execute 0 0 (.done none) ++ finish 0 ++
        start 1 false ++ [.refetch 1 (some 0), .dispatch 1]))
    decide

def orderlyTest (c : QueryReconciler) (ka : ℕ × QueryAction) : Bool :=
  (c.queries.get? ka.1).all fun s => s.orderly ka.2

/-- A query that is approved once and then done. -/
theorem executes_once_with_approval : ∃ c, machine.Reachable orderly c ∧
    (c.queries.all fun p => p.2.current.phase = .done) = true ∧ c.ExecutesOnce := by
  have hrun : ∃ c, machine.Reachable orderly c ∧
      (c.queries.all fun p => p.2.current.phase = .done) = true := by
    apply Machine.exists_reachable (b := orderlyTest) (single_init 1) (fun _ _ h => h)
      (l := forQuery (prepare ++ start 0 true ++ execute 0 0 (.inputRequired 1) ++ finish 0 ++
        approve ++ start 0 false ++ execute 1 1 (.done none) ++ finish 1))
    decide
  obtain ⟨c, hc, hdone⟩ := hrun
  exact ⟨c, hc, hdone, executes_once hc⟩

end QueryReconciler
end Ark
