import Mathlib.Algebra.Order.BigOperators.Group.List
import Mathlib.Algebra.Order.Group.Nat
import Ark.QueryOperations

/-!
# Approved calls run once

An executor learns whether it is to resume from the task that the query names when it loads it, and
the query goes on naming the task until the controller has stored the outcome of the dispatch. So a
task is resumed once if no dispatch starts while the query names a task that an earlier dispatch has
resumed or may still resume.
-/

namespace Ark

def TaskRef.approvalId : TaskRef → Option ℕ
  | .approval id => some id
  | .external => none

def Query.approval (q : Query) : Option ℕ := q.taskID.bind (·.approvalId)

def StatusWrite.approval (w : StatusWrite) : Option ℕ :=
  (w.saved.bind (·.taskID)).bind (·.approvalId)

/-- How many times the run may yet resume task `t` if the query names `named`. -/
def RunPc.mayResume (named : Option ℕ) (t : ℕ) : RunPc → ℕ
  | .requested => if named = some t then 1 else 0
  | .loaded taskID => if taskID = some (.approval t) then 1 else 0
  | _ => 0

namespace QueryState

/-! ### The property and the condition -/

/-- The approval task that an executor finds in the query. -/
def named (s : QueryState) : Option ℕ := if s.removed then none else s.current.approval

/-- How many times task `t` has been resumed or may yet be by the dispatches already started, if the
query names `named`. -/
def resumptions (s : QueryState) (named : Option ℕ) (t : ℕ) : ℕ :=
  s.takenUp.count t + (s.runs.map fun p => p.2.mayResume named t).sum

/-- No dispatch starts while the query names a task that an earlier dispatch has resumed or may yet
resume, and no status write lets the query name a task that would then be resumed twice. -/
def namedOnce (s : QueryState) (a : QueryAction) : Bool :=
  match a with
  | .dispatch _ => s.named.all fun t => s.resumptions (some t) t = 0
  | a => (s.pendingWrite a).all fun w => w.approval.all fun t => s.resumptions (some t) t ≤ 1

/-- Every call that was executed is one of an approved task. -/
def OnlyApproved (s : QueryState) : Prop := ∀ t i, (t, i) ∈ s.executed →
  ∃ task, s.tasks[t]? = some task ∧ task.phase = .completed ∧ i < task.calls

variable {s t : QueryState} {a : QueryAction}

/-! ### What a step does to the executor's runs -/

/-- What a step does to the executor's runs, to the tasks taken up and to the calls executed. -/
inductive RunEffect (s t : QueryState) (a : QueryAction) : Prop
  | unmoved (hruns : t.runs = s.runs) (hnext : t.nextRun = s.nextRun) (htaken : t.takenUp = s.takenUp)
      (hexec : t.executed = s.executed)
  | dispatches (g : ℕ) (hact : a = .dispatch g) (hruns : t.runs = s.runs ++ [(s.nextRun, .requested)])
      (hnext : t.nextRun = s.nextRun + 1) (htaken : t.takenUp = s.takenUp)
      (hexec : t.executed = s.executed) (hnamed : t.named = s.named)
  | drops (r : ℕ) (hruns : t.runs = s.runs.filter (·.1 ≠ r)) (hnext : t.nextRun = s.nextRun)
      (htaken : t.takenUp = s.takenUp) (hexec : t.executed = s.executed) (hnamed : t.named = s.named)
  | moves (r : ℕ) (pc pc' : RunPc) (hget : s.runs.get? r = some pc)
      (hmove : ∀ id, pc'.mayResume s.named id ≤ pc.mayResume s.named id)
      (hidle : ∀ id i, pc' ≠ .resuming id i) (hruns : t.runs = s.runs.put r pc')
      (hnext : t.nextRun = s.nextRun) (htaken : t.takenUp = s.takenUp)
      (hexec : t.executed = s.executed) (hnamed : t.named = s.named)
  | takesUp (r id : ℕ) (task : ApprovalTask)
      (hget : s.runs.get? r = some (.loaded (some (.approval id))))
      (htask : s.tasks[id]? = some task) (hphase : task.phase = .completed)
      (hruns : t.runs = s.runs.put r (.resuming id 0)) (hnext : t.nextRun = s.nextRun)
      (htaken : t.takenUp = id :: s.takenUp) (hexec : t.executed = s.executed)
      (hnamed : t.named = s.named)
  | executes (r id i : ℕ) (task : ApprovalTask) (hget : s.runs.get? r = some (.resuming id i))
      (htask : s.tasks[id]? = some task) (hcalls : i < task.calls)
      (hruns : t.runs = s.runs.put r (.resuming id (i + 1))) (hnext : t.nextRun = s.nextRun)
      (htaken : t.takenUp = s.takenUp) (hexec : t.executed = (id, i) :: s.executed)
      (hnamed : t.named = s.named)

theorem takeReply_runs (g : ℕ) (e : Execution) (created : Bool) (reply : Reply) :
    (s.takeReply g e created reply).runs = s.runs ∧
      (s.takeReply g e created reply).nextRun = s.nextRun ∧
      (s.takeReply g e created reply).takenUp = s.takenUp ∧
      (s.takeReply g e created reply).executed = s.executed ∧
      (s.takeReply g e created reply).named = s.named := by
  cases reply with
  | inputRequired calls => cases created <;> exact ⟨rfl, rfl, rfl, rfl, rfl⟩
  | _ => exact ⟨rfl, rfl, rfl, rfl, rfl⟩

theorem executionStep_runs {g : ℕ} {e : Execution} (h : s.executionStep g e a = some t) :
    RunEffect s t a := by
  cases a with
  | dispatch g' =>
    simp only [executionStep] at h
    split at h <;> cases h
    exact .dispatches g' rfl rfl rfl rfl rfl rfl
  | dispatchFails g' =>
    simp only [executionStep] at h
    split at h
    next r _ =>
      split at h <;> cases h
      exact .drops r rfl rfl rfl rfl rfl
    next => cases h
  | takeReply g' created =>
    simp only [executionStep] at h
    split at h
    next r _ =>
      split at h <;> cases h
      obtain ⟨hruns, hnext, htaken, hexec, hnamed⟩ := takeReply_runs (s := s.dropRun r) g e created _
      exact .drops r hruns hnext htaken hexec hnamed
    next => cases h
  | _ =>
    simp only [executionStep] at h
    repeat' split at h
    all_goals first
      | cases h; done
      | cases h; exact .unmoved rfl rfl rfl rfl
      | obtain ⟨q, -, rfl⟩ := Option.map_eq_some_iff.mp h; exact .unmoved rfl rfl rfl rfl

theorem mayResume_loaded (hstored : s.removed = false) (id : ℕ) :
    RunPc.mayResume s.named id (.loaded s.current.taskID) =
      RunPc.mayResume s.named id .requested := by
  unfold RunPc.mayResume named Query.approval
  rw [hstored]
  cases s.current.taskID with
  | none => rfl
  | some ref => cases ref <;> simp [TaskRef.approvalId]

theorem checkResumption_runs {r : ℕ} {taskID : Option TaskRef} (readable : Bool)
    (hget : s.runs.get? r = some (.loaded taskID)) :
    RunEffect s (s.checkResumption r readable taskID) a := by
  have hfresh : RunEffect s (s.setRun r .fresh) a :=
    .moves r _ .fresh hget (fun _ => Nat.zero_le _) (fun _ _ h => by cases h) rfl rfl rfl rfl rfl
  unfold checkResumption
  split
  next id =>
    split
    next hphase =>
      unfold taskPhase at hphase
      split at hphase
      next =>
        obtain ⟨task, htask, hcompleted⟩ := Option.map_eq_some_iff.mp hphase
        exact .takesUp r id task hget htask hcompleted rfl rfl rfl rfl rfl
      next => cases hphase
    next =>
      exact .moves r _ .denied hget (fun _ => Nat.zero_le _) (fun _ _ h => by cases h)
        rfl rfl rfl rfl rfl
    next => exact hfresh
  next => exact hfresh

theorem runStep_runs {r : ℕ} {pc : RunPc} (hget : s.runs.get? r = some pc)
    (h : s.runStep r pc a = some t) : RunEffect s t a := by
  cases a with
  | load r' =>
    simp only [runStep] at h
    split at h <;> cases h
    cases hstored : s.removed with
    | true =>
      exact .moves r _ (.replied .failed) hget (fun _ => Nat.zero_le _) (fun _ _ h => by cases h)
        rfl rfl rfl rfl rfl
    | false =>
      refine .moves r _ (.loaded s.current.taskID) hget ?_ (fun _ _ h => by cases h)
        rfl rfl rfl rfl rfl
      intro id
      exact Nat.le_of_eq (mayResume_loaded hstored id)
  | check r' readable =>
    simp only [runStep] at h
    split at h <;> cases h
    exact checkResumption_runs readable hget
  | executeCall r' =>
    simp only [runStep] at h
    split at h
    next id i =>
      split at h
      next hany =>
        cases h
        obtain ⟨task, htask, hcalls⟩ := (Option.any_eq_true _ _).mp hany
        exact .executes r id i task hget htask (by simpa using hcalls) rfl rfl rfl rfl rfl
      next => cases h
    next => cases h
  | reply r' reply =>
    have hreplied : RunEffect s (s.setRun r (.replied reply)) (.reply r' reply) :=
      .moves r pc _ hget (fun _ => Nat.zero_le _) (fun _ _ h => by cases h) rfl rfl rfl rfl rfl
    simp only [runStep] at h
    split at h
    next =>
      cases h
      exact hreplied
    next =>
      cases h
      exact hreplied
    next =>
      split at h <;> cases h
      exact hreplied
    next => cases h
  | crash r' =>
    cases h
    exact .drops r rfl rfl rfl rfl rfl
  | _ => cases h

theorem environmentStep_runs (h : s.environmentStep a = some t) : RunEffect s t a := by
  cases a with
  | decide id phase =>
    simp only [environmentStep] at h
    split at h
    next =>
      split at h <;> cases h
      exact .unmoved rfl rfl rfl rfl
    next => cases h
  | requestCancel | requestDelete | touch =>
    simp only [environmentStep] at h
    split at h <;> cases h
    exact .unmoved rfl rfl rfl rfl
  | _ => cases h

theorem step_runs (h : s.step a = some t) : RunEffect s t a := by
  rcases step_actor h with h | ⟨g, e, -, h, -⟩ | ⟨r, pc, hget, h⟩ | h
  · have hx := reconcileStep_executor h
    exact .unmoved hx.runs hx.nextRun hx.takenUp hx.executed
  · exact executionStep_runs h
  · exact runStep_runs hget h
  · exact environmentStep_runs h

/-! ### The task that the query names -/

theorem handle_removed (version : ℕ) (obj : Query) (v : ReconcileView) (h : s.removed = true) :
    (s.handle version obj v).removed = true := by
  unfold handle finalize updateObject handleQueryExecution handleInputRequiredPhase resume
  repeat' split
  all_goals first
    | exact h
    | rfl

theorem takeReply_removed (g : ℕ) (e : Execution) (created : Bool) (reply : Reply) :
    (s.takeReply g e created reply).removed = s.removed := by
  cases reply with
  | inputRequired calls => cases created <;> rfl
  | _ => rfl

theorem removed_step (h : s.step a = some t) (hr : s.removed = true) : t.removed = true := by
  rcases step_actor h with h | ⟨g, e, -, h, -⟩ | ⟨r, pc, -, h⟩ | h
  · cases a with
    | handle v =>
      simp only [reconcileStep] at h
      split at h <;> cases h
      exact handle_removed _ _ v hr
    | _ =>
      simp only [reconcileStep] at h
      repeat' split at h
      all_goals first
        | cases h; done
        | cases h; exact hr
        | obtain ⟨q, -, rfl⟩ := Option.map_eq_some_iff.mp h; exact hr
  · cases a with
    | takeReply g' created =>
      simp only [executionStep] at h
      repeat' split at h
      all_goals first
        | cases h; done
        | cases h; rw [takeReply_removed]; exact hr
    | _ =>
      simp only [executionStep] at h
      repeat' split at h
      all_goals first
        | cases h; done
        | cases h; exact hr
        | obtain ⟨q, -, rfl⟩ := Option.map_eq_some_iff.mp h; exact hr
  · cases a with
    | check r' readable =>
      simp only [runStep, checkResumption] at h
      repeat' split at h
      all_goals cases h <;> exact hr
    | _ =>
      simp only [runStep] at h
      repeat' split at h
      all_goals cases h <;> exact hr
  · cases a with
    | decide id phase =>
      simp only [environmentStep] at h
      repeat' split at h
      all_goals cases h <;> exact hr
    | requestCancel | requestDelete | touch => simp [environmentStep, hr] at h
    | _ => cases h

theorem approval_of_apply {w : StatusWrite} {q q' : Query} (h : w.apply q = some q') {id : ℕ}
    (hid : q'.approval = some id) : q.approval = some id ∨ w.approval = some id := by
  unfold StatusWrite.apply at h
  split at h
  next =>
    split at h <;> cases h
    exact .inl hid
  next =>
    cases h
    cases hsaved : w.saved with
    | none =>
      simp only [hsaved, Option.none_or] at hid
      exact .inl hid
    | some response =>
      simp only [hsaved, Option.some_or] at hid
      right
      rw [← hid, StatusWrite.approval, Query.approval, Query.taskID, hsaved]

/-- The query comes to name a task only through a status write that names it. -/
theorem named_step (hc : s.Cached) (h : s.step a = some t) {id : ℕ} (hid : t.named = some id) :
    s.named = some id ∨ ∃ w, s.pendingWrite a = some w ∧ w.approval = some id := by
  have hstored : s.removed = false := by
    by_contra hr
    have ht := removed_step h (by simpa using hr)
    simp [named, ht] at hid
  have htask : t.current.approval = some id := by
    unfold named at hid
    split at hid
    next => cases hid
    next => exact hid
  have hnamed : s.named = s.current.approval := by simp [named, hstored]
  rw [hnamed]
  cases step_stores hc h with
  | nothing hcurrent => exact .inl (hcurrent ▸ htask)
  | quietly _ _ hresponse =>
    left
    rw [← htask, Query.approval, Query.approval, Query.taskID, Query.taskID, hresponse]
  | writes w hw _ happly =>
    rcases approval_of_apply happly htask with hold | hnew
    · exact .inl hold
    · exact .inr ⟨w, hw, hnew⟩

/-! ### No task is resumed twice -/

theorem mayResume_le {named named' : Option ℕ} {id : ℕ} (h : named' = some id → named = some id)
    (pc : RunPc) : pc.mayResume named' id ≤ pc.mayResume named id := by
  cases pc with
  | requested =>
    simp only [RunPc.mayResume]
    by_cases hnamed' : named' = some id
    · rw [if_pos hnamed', if_pos (h hnamed')]
    · rw [if_neg hnamed']
      exact Nat.zero_le _
  | _ => exact Nat.le_refl _

theorem resumptions_le {named named' : Option ℕ} {id : ℕ} (h : named' = some id → named = some id) :
    s.resumptions named' id ≤ s.resumptions named id := by
  unfold resumptions
  apply Nat.add_le_add_left
  apply List.sum_le_sum
  intro p _
  exact mayResume_le h p.2

theorem namedOnce_write (hok : s.namedOnce a = true) {w : StatusWrite} (hw : s.pendingWrite a = some w)
    {id : ℕ} (hid : w.approval = some id) : s.resumptions (some id) id ≤ 1 := by
  unfold namedOnce at hok
  split at hok
  next => cases hw
  next => simpa [hw, hid] using hok

/-- The runs are numbered apart, below the next number. -/
structure RunsNumbered (s : QueryState) : Prop where
  nodup : s.runs.keys.Nodup
  lt : ∀ r pc, (r, pc) ∈ s.runs → r < s.nextRun

theorem RunsNumbered.put (h : s.RunsNumbered) {r : ℕ} {pc : RunPc} (hruns : t.runs = s.runs.put r pc)
    (hnext : t.nextRun = s.nextRun) : t.RunsNumbered where
  nodup := by
    rw [hruns, Slots.keys_put]
    exact h.nodup
  lt := by
    intro r' pc' hmem
    have hkey : r' ∈ s.runs.keys := by
      rw [← Slots.keys_put s.runs r pc, ← hruns]
      exact Slots.mem_keys hmem
    obtain ⟨⟨r'', pc''⟩, hold, rfl⟩ := List.mem_map.mp hkey
    rw [hnext]
    exact h.lt r'' pc'' hold

theorem runsNumbered_step (hn : s.RunsNumbered) (h : RunEffect s t a) : t.RunsNumbered := by
  cases h with
  | unmoved hruns hnext =>
    constructor
    · rw [hruns]
      exact hn.nodup
    · rw [hruns, hnext]
      exact hn.lt
  | dispatches g _ hruns hnext =>
    constructor
    · rw [hruns, Slots.keys, List.map_append, List.nodup_append]
      refine ⟨hn.nodup, by simp, ?_⟩
      intro i hi j hj
      obtain ⟨⟨k, pc⟩, hmem, rfl⟩ := List.mem_map.mp hi
      rw [List.map_singleton, List.mem_singleton] at hj
      have := hn.lt k pc hmem
      simp only at hj ⊢
      omega
    · intro r pc hmem
      rw [hruns, List.mem_append, List.mem_singleton] at hmem
      rw [hnext]
      rcases hmem with hmem | heq
      · have := hn.lt r pc hmem
        omega
      · cases heq
        omega
  | drops r hruns hnext =>
    constructor
    · rw [hruns]
      exact hn.nodup.sublist (List.filter_sublist.map _)
    · intro r' pc hmem
      rw [hruns] at hmem
      rw [hnext]
      exact hn.lt r' pc (List.mem_of_mem_filter hmem)
  | moves r pc pc' _ _ _ hruns hnext => exact hn.put hruns hnext
  | takesUp r id task _ _ _ hruns hnext => exact hn.put hruns hnext
  | executes r id i task _ _ _ hruns hnext => exact hn.put hruns hnext

/-- No task has been or may be resumed twice. -/
def ResumedOnce (s : QueryState) : Prop := ∀ id, s.resumptions s.named id ≤ 1

/-- A run that moves on may resume no task that it might not have resumed before. -/
theorem resumptions_put (hn : s.RunsNumbered) {r : ℕ} {pc pc' : RunPc}
    (hget : s.runs.get? r = some pc) (hruns : t.runs = s.runs.put r pc')
    (htaken : t.takenUp = s.takenUp) (named : Option ℕ) (id : ℕ) :
    t.resumptions named id + pc.mayResume named id =
      s.resumptions named id + pc'.mayResume named id := by
  have hsum := Slots.sum_put (a := pc') hn.nodup hget (RunPc.mayResume named id)
  unfold resumptions
  rw [htaken, hruns]
  omega

theorem resumedOnce_step (hn : s.RunsNumbered) (hc : s.Cached) (ho : s.ResumedOnce)
    (hok : s.namedOnce a = true) (h : s.step a = some t) : t.ResumedOnce := by
  intro id
  have hold := ho id
  cases step_runs h with
  | unmoved hruns _ htaken =>
    have hsame : ∀ named, t.resumptions named id = s.resumptions named id := by
      intro named
      rw [resumptions, resumptions, hruns, htaken]
    rw [hsame]
    by_cases hid : t.named = some id
    · rcases named_step hc h hid with hnamed | ⟨w, hw, hwid⟩
      · rw [hid, ← hnamed]
        exact hold
      · rw [hid]
        exact namedOnce_write hok hw hwid
    · have hle : s.resumptions t.named id ≤ s.resumptions s.named id := by
        apply resumptions_le
        intro h
        exact absurd h hid
      omega
  | dispatches g hact hruns _ htaken _ hnamed =>
    have hsum : t.resumptions t.named id =
        s.resumptions s.named id + RunPc.mayResume s.named id .requested := by
      rw [resumptions, resumptions, hruns, htaken, hnamed, List.map_append, List.sum_append]
      simp only [List.map_singleton, List.sum_singleton]
      omega
    rw [hsum]
    by_cases hid : s.named = some id
    · have hnone : s.resumptions (some id) id = 0 := by
        rw [hact] at hok
        simpa [namedOnce, hid] using hok
      rw [hid, hnone]
      simp [RunPc.mayResume]
    · rw [RunPc.mayResume, if_neg hid]
      omega
  | drops r hruns _ htaken _ hnamed =>
    have hle : t.resumptions t.named id ≤ s.resumptions s.named id := by
      unfold resumptions
      rw [hruns, htaken, hnamed]
      apply Nat.add_le_add_left
      apply List.Sublist.sum_le_sum
      · exact List.filter_sublist.map _
      · intro n _
        exact Nat.zero_le n
    omega
  | moves r pc pc' hget hmove _ hruns _ htaken _ hnamed =>
    have hput := resumptions_put hn hget hruns htaken s.named id
    have := hmove id
    rw [hnamed]
    omega
  | takesUp r id' task hget _ _ hruns _ htaken _ hnamed =>
    have hsum := Slots.sum_put (a := .resuming id' 0) hn.nodup hget (RunPc.mayResume s.named id)
    have hmoved : RunPc.mayResume s.named id (.loaded (some (.approval id'))) =
        if id' = id then 1 else 0 := by
      simp [RunPc.mayResume]
    have hidle : RunPc.mayResume s.named id (.resuming id' 0) = 0 := rfl
    have hcount : (id' :: s.takenUp).count id = s.takenUp.count id + if id' = id then 1 else 0 := by
      rw [List.count_cons]
      simp
    unfold resumptions at hold ⊢
    rw [hruns, htaken, hnamed, hcount]
    omega
  | executes r id' i task hget _ _ hruns _ htaken _ hnamed =>
    have hput := resumptions_put hn hget hruns htaken s.named id
    simp only [RunPc.mayResume] at hput
    rw [hnamed]
    omega

/-! ### Approved calls -/

theorem executionStep_tasks {g : ℕ} {e : Execution} (h : s.executionStep g e a = some t) :
    ∃ l, t.tasks = s.tasks ++ l := by
  have hsame : t.tasks = s.tasks → ∃ l, t.tasks = s.tasks ++ l := by
    intro heq
    exact ⟨[], by rw [heq, List.append_nil]⟩
  cases a with
  | takeReply g' created =>
    simp only [executionStep] at h
    split at h
    next =>
      split at h
      next reply _ =>
        cases h
        cases reply with
        | inputRequired calls =>
          cases created with
          | true => exact ⟨[⟨.inputRequired, calls⟩], rfl⟩
          | false => exact hsame rfl
        | _ => exact hsame rfl
      next => cases h
    next => cases h
  | _ =>
    simp only [executionStep] at h
    repeat' split at h
    all_goals first
      | cases h; done
      | cases h; exact hsame rfl
      | obtain ⟨q, -, rfl⟩ := Option.map_eq_some_iff.mp h; exact hsame rfl

theorem runStep_tasks {r : ℕ} {pc : RunPc} (h : s.runStep r pc a = some t) : t.tasks = s.tasks := by
  cases a with
  | check r' readable =>
    simp only [runStep, checkResumption] at h
    repeat' split at h
    all_goals cases h <;> rfl
  | _ =>
    simp only [runStep] at h
    repeat' split at h
    all_goals cases h <;> rfl

/-- What is decided of a task stays, and a task keeps its calls. -/
theorem tasks_step (h : s.step a = some t) {id : ℕ} {task : ApprovalTask}
    (htask : s.tasks[id]? = some task) : ∃ task', t.tasks[id]? = some task' ∧
      task'.calls = task.calls ∧ (task.phase = .completed → task'.phase = .completed) := by
  have hsame : t.tasks = s.tasks → ∃ task', t.tasks[id]? = some task' ∧
      task'.calls = task.calls ∧ (task.phase = .completed → task'.phase = .completed) := by
    intro heq
    exact ⟨task, heq ▸ htask, rfl, fun h => h⟩
  rcases step_actor h with h | ⟨g, e, -, h, -⟩ | ⟨r, pc, -, h⟩ | h
  · exact hsame (reconcileStep_executor h).tasks
  · obtain ⟨l, hl⟩ := executionStep_tasks h
    refine ⟨task, ?_, rfl, fun h => h⟩
    rw [hl, List.getElem?_append_left (List.getElem?_eq_some_iff.mp htask).1]
    exact htask
  · exact hsame (runStep_tasks h)
  · cases a with
    | decide id' phase =>
      simp only [environmentStep] at h
      split at h
      next task' htask' =>
        split at h
        next hopen =>
          cases h
          by_cases hid : id' = id
          · subst hid
            obtain rfl : task' = task := Option.some.inj (htask'.symm.trans htask)
            refine ⟨{ task' with phase := phase }, ?_, rfl, ?_⟩
            · have hlt : id' < s.tasks.length := (List.getElem?_eq_some_iff.mp htask).1
              simp [hlt]
            · intro hcompleted
              rw [hopen.1] at hcompleted
              cases hcompleted
          · refine ⟨task, ?_, rfl, fun h => h⟩
            simp [hid, htask]
        next => cases h
      next => cases h
    | requestCancel | requestDelete | touch =>
      simp only [environmentStep] at h
      split at h <;> cases h
      exact hsame rfl
    | _ => cases h

/-- What a run resumes is approved, and so is what was executed. -/
structure Approved (s : QueryState) : Prop where
  completed : ∀ id ∈ s.takenUp, ∃ task, s.tasks[id]? = some task ∧ task.phase = .completed
  resuming : ∀ r id i, (r, .resuming id i) ∈ s.runs → id ∈ s.takenUp
  executed : ∀ id i, (id, i) ∈ s.executed →
    id ∈ s.takenUp ∧ ∃ task, s.tasks[id]? = some task ∧ i < task.calls

/-- A run that resumes a task after a replacement has just been replaced, or did so before. -/
theorem resuming_put {r r' id i : ℕ} {pc : RunPc} (hruns : t.runs = s.runs.put r pc)
    (h : (r', .resuming id i) ∈ t.runs) :
    r' = r ∧ pc = .resuming id i ∨ r' ≠ r ∧ (r', .resuming id i) ∈ s.runs := by
  rw [hruns] at h
  rcases Slots.mem_put h with ⟨hr, hpc⟩ | hold
  · exact .inl ⟨hr, hpc.symm⟩
  · exact .inr hold

theorem approved_step (ha : s.Approved) (h : s.step a = some t) : t.Approved := by
  have hcompleted : ∀ id ∈ s.takenUp, ∃ task, t.tasks[id]? = some task ∧ task.phase = .completed := by
    intro id hid
    obtain ⟨task, htask, hphase⟩ := ha.completed id hid
    obtain ⟨task', htask', -, hkept⟩ := tasks_step h htask
    exact ⟨task', htask', hkept hphase⟩
  have hexecuted : ∀ id i, (id, i) ∈ s.executed →
      id ∈ s.takenUp ∧ ∃ task, t.tasks[id]? = some task ∧ i < task.calls := by
    intro id i hmem
    obtain ⟨hid, task, htask, hi⟩ := ha.executed id i hmem
    obtain ⟨task', htask', hcalls, -⟩ := tasks_step h htask
    exact ⟨hid, task', htask', hcalls ▸ hi⟩
  cases step_runs h with
  | unmoved hruns _ htaken hexec =>
    constructor
    · rw [htaken]
      exact hcompleted
    · rw [hruns, htaken]
      exact ha.resuming
    · rw [hexec, htaken]
      exact hexecuted
  | dispatches g _ hruns _ htaken hexec =>
    constructor
    · rw [htaken]
      exact hcompleted
    · intro r id i hmem
      rw [hruns, List.mem_append, List.mem_singleton] at hmem
      rw [htaken]
      rcases hmem with hmem | heq
      · exact ha.resuming r id i hmem
      · cases heq
    · rw [hexec, htaken]
      exact hexecuted
  | drops r hruns _ htaken hexec =>
    constructor
    · rw [htaken]
      exact hcompleted
    · intro r' id i hmem
      rw [hruns] at hmem
      rw [htaken]
      exact ha.resuming r' id i (List.mem_of_mem_filter hmem)
    · rw [hexec, htaken]
      exact hexecuted
  | moves r pc pc' _ _ hidle hruns _ htaken hexec =>
    constructor
    · rw [htaken]
      exact hcompleted
    · intro r' id i hmem
      rw [htaken]
      rcases resuming_put hruns hmem with ⟨-, heq⟩ | ⟨-, hold⟩
      · exact absurd heq (hidle id i)
      · exact ha.resuming r' id i hold
    · rw [hexec, htaken]
      exact hexecuted
  | takesUp r id task _ htask hphase hruns _ htaken hexec =>
    constructor
    · rw [htaken]
      intro id' hid'
      rcases List.mem_cons.mp hid' with rfl | hold
      · obtain ⟨task', htask', -, hkept⟩ := tasks_step h htask
        exact ⟨task', htask', hkept hphase⟩
      · exact hcompleted id' hold
    · intro r' id' i hmem
      rw [htaken]
      rcases resuming_put hruns hmem with ⟨-, heq⟩ | ⟨-, hold⟩
      · cases heq
        exact List.mem_cons_self
      · exact List.mem_cons_of_mem _ (ha.resuming r' id' i hold)
    · intro id' i hmem
      rw [hexec] at hmem
      rw [htaken]
      obtain ⟨hid', htask'⟩ := hexecuted id' i hmem
      exact ⟨List.mem_cons_of_mem _ hid', htask'⟩
  | executes r id i task hget htask hcalls hruns _ htaken hexec =>
    have hid : id ∈ s.takenUp := ha.resuming r id i (Slots.mem_of_get? hget)
    constructor
    · rw [htaken]
      exact hcompleted
    · intro r' id' i' hmem
      rw [htaken]
      rcases resuming_put hruns hmem with ⟨-, heq⟩ | ⟨-, hold⟩
      · cases heq
        exact hid
      · exact ha.resuming r' id' i' hold
    · intro id' i' hmem
      rw [hexec] at hmem
      rw [htaken]
      rcases List.mem_cons.mp hmem with heq | hold
      · cases heq
        obtain ⟨task', htask', hsame, -⟩ := tasks_step h htask
        exact ⟨hid, task', htask', hsame ▸ hcalls⟩
      · exact hexecuted id' i' hold

theorem Approved.onlyApproved (ha : s.Approved) : s.OnlyApproved := by
  intro id i hmem
  obtain ⟨hid, task, htask, hi⟩ := ha.executed id i hmem
  obtain ⟨task', htask', hphase⟩ := ha.completed id hid
  obtain rfl : task' = task := Option.some.inj (htask'.symm.trans htask)
  exact ⟨task', htask, hphase, hi⟩

/-! ### Each call once -/

/-- A run that resumes a task is the only one, and it is past the calls that were executed. -/
structure CallsOnce (s : QueryState) : Prop where
  past : ∀ r id i, (r, .resuming id i) ∈ s.runs → ∀ j, (id, j) ∈ s.executed → j < i
  alone : ∀ r r' id i i', (r, .resuming id i) ∈ s.runs → (r', .resuming id i') ∈ s.runs → r = r'
  nodup : s.executed.Nodup

theorem CallsOnce.of_subset (ho : s.CallsOnce)
    (hruns : ∀ r id i, (r, .resuming id i) ∈ t.runs → (r, .resuming id i) ∈ s.runs)
    (hexec : t.executed = s.executed) : t.CallsOnce where
  past := by
    intro r id i hmem
    rw [hexec]
    exact ho.past r id i (hruns r id i hmem)
  alone := by
    intro r r' id i i' hmem hmem'
    exact ho.alone r r' id i i' (hruns r id i hmem) (hruns r' id i' hmem')
  nodup := hexec ▸ ho.nodup

/-- A task that a run has loaded and may resume was never taken up. -/
theorem not_taken_of_loaded (hn : s.RunsNumbered) (ho : s.ResumedOnce) {r id : ℕ}
    (hget : s.runs.get? r = some (.loaded (some (.approval id)))) : id ∉ s.takenUp := by
  intro hmem
  have hcount : 0 < s.takenUp.count id := List.count_pos_iff.mpr hmem
  have hsum := Slots.sum_put (a := .fresh) hn.nodup hget (RunPc.mayResume s.named id)
  have hloaded : RunPc.mayResume s.named id (.loaded (some (.approval id))) = 1 := by
    simp [RunPc.mayResume]
  have hfresh : RunPc.mayResume s.named id .fresh = 0 := rfl
  have hle := ho id
  unfold resumptions at hle
  omega

theorem callsOnce_step (hn : s.RunsNumbered) (hr : s.ResumedOnce) (ha : s.Approved)
    (ho : s.CallsOnce) (h : RunEffect s t a) : t.CallsOnce := by
  cases h with
  | unmoved hruns _ _ hexec =>
    apply ho.of_subset _ hexec
    intro r id i hmem
    exact hruns ▸ hmem
  | dispatches g _ hruns _ _ hexec =>
    apply ho.of_subset _ hexec
    intro r id i hmem
    rw [hruns, List.mem_append, List.mem_singleton] at hmem
    rcases hmem with hmem | heq
    · exact hmem
    · cases heq
  | drops r hruns _ _ hexec =>
    apply ho.of_subset _ hexec
    intro r' id i hmem
    rw [hruns] at hmem
    exact List.mem_of_mem_filter hmem
  | moves r pc pc' _ _ hidle hruns _ _ hexec =>
    apply ho.of_subset _ hexec
    intro r' id i hmem
    rcases resuming_put hruns hmem with ⟨-, heq⟩ | ⟨-, hold⟩
    · exact absurd heq (hidle id i)
    · exact hold
  | takesUp r id task hget _ _ hruns _ _ hexec =>
    have hnew := not_taken_of_loaded hn hr hget
    constructor
    · intro r' id' i hmem j hj
      rw [hexec] at hj
      rcases resuming_put hruns hmem with ⟨-, heq⟩ | ⟨-, hold⟩
      · cases heq
        exact absurd (ha.executed id j hj).1 hnew
      · exact ho.past r' id' i hold j hj
    · intro r₁ r₂ id' i₁ i₂ h₁ h₂
      rcases resuming_put hruns h₁ with ⟨hr₁, heq₁⟩ | ⟨-, hold₁⟩
      · cases heq₁
        rcases resuming_put hruns h₂ with ⟨hr₂, -⟩ | ⟨-, hold₂⟩
        · exact hr₁.trans hr₂.symm
        · exact absurd (ha.resuming r₂ id i₂ hold₂) hnew
      · rcases resuming_put hruns h₂ with ⟨-, heq₂⟩ | ⟨-, hold₂⟩
        · cases heq₂
          exact absurd (ha.resuming r₁ id i₁ hold₁) hnew
        · exact ho.alone r₁ r₂ id' i₁ i₂ hold₁ hold₂
    · exact hexec ▸ ho.nodup
  | executes r id i task hget _ _ hruns _ _ hexec =>
    have hmine := Slots.mem_of_get? hget
    -- the run that executes is the only one that resumes the task
    have hother : ∀ r' id' i', (r', .resuming id' i') ∈ t.runs → r' ≠ r → id' ≠ id ∧
        (r', .resuming id' i') ∈ s.runs := by
      intro r' id' i' hmem hne
      rcases resuming_put hruns hmem with ⟨heq, -⟩ | ⟨-, hold⟩
      · exact absurd heq hne
      · refine ⟨?_, hold⟩
        rintro rfl
        exact hne (ho.alone r' r id' i' i hold hmine)
    have hself : ∀ id' i', (r, .resuming id' i') ∈ t.runs → id' = id ∧ i' = i + 1 := by
      intro id' i' hmem
      rcases resuming_put hruns hmem with ⟨-, heq⟩ | ⟨hne, -⟩
      · cases heq
        exact ⟨rfl, rfl⟩
      · exact absurd rfl hne
    constructor
    · intro r' id' i' hmem j hj
      rw [hexec] at hj
      by_cases heq : r' = r
      · subst heq
        obtain ⟨rfl, rfl⟩ := hself id' i' hmem
        rcases List.mem_cons.mp hj with hnow | hold
        · cases hnow
          omega
        · have := ho.past r' id' i hmine j hold
          omega
      · obtain ⟨hne, hold⟩ := hother r' id' i' hmem heq
        rcases List.mem_cons.mp hj with hnow | hj
        · exact absurd (Prod.mk.inj hnow).1 hne
        · exact ho.past r' id' i' hold j hj
    · intro r₁ r₂ id' i₁ i₂ h₁ h₂
      by_cases heq₁ : r₁ = r
      · by_cases heq₂ : r₂ = r
        · exact heq₁.trans heq₂.symm
        · subst heq₁
          exact absurd (hself id' i₁ h₁).1 (hother r₂ id' i₂ h₂ heq₂).1
      · by_cases heq₂ : r₂ = r
        · subst heq₂
          exact absurd (hself id' i₂ h₂).1 (hother r₁ id' i₁ h₁ heq₁).1
        · exact ho.alone r₁ r₂ id' i₁ i₂ (hother r₁ id' i₁ h₁ heq₁).2 (hother r₂ id' i₂ h₂ heq₂).2
    · rw [hexec]
      refine List.nodup_cons.mpr ⟨?_, ho.nodup⟩
      intro hmem
      have := ho.past r id i hmine i hmem
      omega

/-! ### One query's run -/

theorem approved_new : Approved .new where
  completed := by
    intro id h
    cases h
  resuming := by
    intro r id i h
    cases h
  executed := by
    intro id i h
    cases h

/-- What carries the argument along the runs of one query. -/
structure Resumptions (s : QueryState) : Prop where
  numbered : s.RunsNumbered
  cached : s.Cached
  resumed : s.ResumedOnce
  approved : s.Approved
  calls : s.CallsOnce

theorem resumptions_new : Resumptions .new where
  numbered := ⟨List.nodup_nil, fun _ _ h => absurd h List.not_mem_nil⟩
  cached := by
    intro version obj h
    cases h
  resumed := fun _ => Nat.zero_le 1
  approved := approved_new
  calls := ⟨fun _ _ _ h => absurd h List.not_mem_nil, fun _ _ _ _ _ h => absurd h List.not_mem_nil,
    List.nodup_nil⟩

theorem resumptions_step (hs : s.Resumptions) (hok : s.namedOnce a = true) (h : s.step a = some t) :
    t.Resumptions where
  numbered := runsNumbered_step hs.numbered (step_runs h)
  cached := cached_step hs.cached h
  resumed := resumedOnce_step hs.numbered hs.cached hs.resumed hok h
  approved := approved_step hs.approved h
  calls := callsOnce_step hs.numbered hs.resumed hs.approved hs.calls (step_runs h)

end QueryState

/-! ### The controller's run -/

namespace QueryReconciler

variable {c : QueryReconciler}

/-- Every step names a task at most once for its query. -/
def namedOnce (c : QueryReconciler) (ka : ℕ × QueryAction) : Bool :=
  (c.queries.get? ka.1).all fun s => s.namedOnce ka.2

/-- Calls of tasks that are not approved are never executed. In a run in which no dispatch starts,
and no status write lands, while the query names a task that was resumed or may yet be, no call is
executed twice. -/
theorem approved_calls_once (k : ℕ) (s : QueryState) (hs : (k, s) ∈ c.queries) :
    (machine.Reachable Machine.always c → s.OnlyApproved) ∧
      (machine.Reachable (fun c ka => c.namedOnce ka = true) c → s.executed.Nodup) := by
  constructor
  · intro h
    have happroved : s.Approved := by
      apply queries_invariant (p := fun _ _ => True) _ QueryState.approved_new _ h k s hs
      · intro c k a s _ _
        trivial
      · intro s a t ha _ hst
        exact QueryState.approved_step ha hst
    exact happroved.onlyApproved
  · intro h
    have hresumptions : s.Resumptions := by
      apply queries_invariant (p := fun s a => s.namedOnce a = true) _ QueryState.resumptions_new _ h k s hs
      · intro c k a s hok hget
        simpa [namedOnce, hget] using hok
      · intro s a t hr hok hst
        exact QueryState.resumptions_step hr hok hst
    exact hresumptions.calls.nodup

def executedTwice (c : QueryReconciler) : Bool := c.queries.any fun p => !decide p.2.executed.Nodup

/-- The outcome of the dispatch that ran the approved call is not stored: the query still names the
task, and the safety requeue dispatches it again. -/
theorem approved_call_executed_twice :
    ∃ c, machine.Reachable Machine.always c ∧ executedTwice c = true := by
  apply Machine.exists_reachable (b := fun _ _ => true) (single_init 1) (fun _ _ _ => trivial)
    (l := forQuery (prepare ++ start 0 true ++ execute 0 0 (.inputRequired 1) ++ finish 0 ++
      approve ++ start 0 false ++ [.refetch 1 (some 0), .dispatch 1, .load 1, .check 1 true,
        .executeCall 1, .reply 1 (.done none), .takeReply 1 true, .write 1 .failed] ++ finish 1 ++
      start 0 false ++ execute 2 1 (.done none)))
  decide

/-- A query that is approved once and then done. -/
theorem approved_calls_once_with_approval : ∃ c,
    machine.Reachable (fun c ka => c.namedOnce ka = true) c ∧
    ∃ s, (0, s) ∈ c.queries ∧ s.current.phase = .done ∧ s.executed.length = 1 ∧ s.executed.Nodup := by
  have hrun : ∃ c, machine.Reachable (fun c ka => c.namedOnce ka = true) c ∧
      (c.queries.any fun p => p.1 = 0 && p.2.current.phase = .done && p.2.executed.length = 1) =
        true := by
    apply Machine.exists_reachable (b := namedOnce) (single_init 1) (fun _ _ h => h)
      (l := forQuery (prepare ++ start 0 true ++ execute 0 0 (.inputRequired 1) ++ finish 0 ++
        approve ++ start 0 false ++ execute 1 1 (.done none) ++ finish 1))
    decide
  obtain ⟨c, hc, hany⟩ := hrun
  obtain ⟨⟨k, s⟩, hs, hp⟩ := List.any_eq_true.mp hany
  simp only [Bool.and_eq_true, decide_eq_true_eq] at hp
  obtain ⟨⟨rfl, hdone⟩, hlength⟩ := hp
  exact ⟨c, hc, s, hs, hdone, hlength, (approved_calls_once 0 s hs).2 hc⟩

end QueryReconciler
end Ark
