import Ark.ApprovalGate
import Ark.Team

/-!
# Runs of an agent with its approval settings and without

A larger number of rounds extends a run. The run with approval settings does what the run without
them does up to the first reply that calls a tool which asks for approval; there it gives up.
-/

namespace Ark

def Message.isTool : Message → Bool
  | .tool _ _ => true
  | _ => false

/-- The id that a tool message answers. -/
def Message.answeredId : Message → Option String
  | .tool _ id => some id
  | _ => none

/-- The two errors that `Agent.Execute` turns into results. -/
def ToolError.isSignal : ToolError → Bool
  | .terminateTeam | .selectionMade _ => true
  | _ => false

def ExecError.isSignal : ExecError → Bool
  | .tool e => e.isSignal
  | _ => false

/-- Executors answer under the id of the call. -/
def Env.KeepsIds {W : Type} (env : Env W) : Prop :=
  ∀ w executor call, (env.run w executor call).1.1.id = call.id

/-- No executor asks for an approval itself, as an agent that is a tool may. -/
def Env.NoRequests {W : Type} (env : Env W) : Prop :=
  ∀ w executor call e, (env.run w executor call).1.2 ≠ some (.approvalRequired e)

/-- Nothing that `p` has recorded is lost in `q`. -/
structure Progress.Before {W : Type} (p q : Progress W) : Prop where
  agentMessages : p.agentMessages <+: q.agentMessages
  newMessages : p.newMessages <+: q.newMessages
  trace : p.trace <+: q.trace

namespace Progress.Before

variable {W : Type} {p q r : Progress W}

theorem refl (p : Progress W) : p.Before p := ⟨List.prefix_rfl, List.prefix_rfl, List.prefix_rfl⟩

theorem trans (h : p.Before q) (h' : q.Before r) : p.Before r :=
  ⟨h.agentMessages.trans h'.agentMessages, h.newMessages.trans h'.newMessages,
    h.trace.trans h'.trace⟩

theorem say (p : Progress W) (m : Message) : p.Before (p.say m) :=
  ⟨List.prefix_append _ _, List.prefix_append _ _, List.prefix_rfl⟩

end Progress.Before

namespace Agent

variable {W : Type} {A : Agent} {env : Env W} {p q : Progress W} {calls : List ToolCall}
variable {onToolError : ExecError → List Message → List Message} {n m : ℕ}

/-! ### What a step keeps -/

theorem executeModelCall_messages :
    (A.executeModelCall env p).2.agentMessages = p.agentMessages ∧
      (A.executeModelCall env p).2.newMessages = p.newMessages := by
  unfold executeModelCall
  rcases hchat : env.chat p.world (p.agentMessages.map (withoutOwnAgentName A.name)) with
    ⟨_ | _ | _, world⟩ <;> simp only [hchat, and_self]

theorem executeToolCall_messages (call : ToolCall) :
    (A.executeToolCall env call p).2.agentMessages = p.agentMessages ∧
      (A.executeToolCall env call p).2.newMessages = p.newMessages := by
  unfold executeToolCall executeTool
  cases A.tools.executors call.name <;> exact ⟨rfl, rfl⟩

theorem before_executeModelCall : p.Before (A.executeModelCall env p).2 := by
  constructor
  · rw [executeModelCall_messages.1]
  · rw [executeModelCall_messages.2]
  · rw [executeModelCall_trace]
    exact List.prefix_append _ _

theorem before_executeToolCall (call : ToolCall) : p.Before (A.executeToolCall env call p).2 := by
  constructor
  · rw [(executeToolCall_messages call).1]
  · rw [(executeToolCall_messages call).2]
  · rw [executeToolCall_trace]
    exact List.prefix_append _ _

theorem before_runToolCalls : p.Before (A.runToolCalls env calls p).2 := by
  induction calls generalizing p with
  | nil => exact .refl p
  | cons call calls ih =>
    have hstep := @before_executeToolCall _ A env p call
    unfold runToolCalls
    split
    next => exact .refl p
    next =>
      split
      next m q heq =>
        rw [heq] at hstep
        exact (hstep.trans (.say q m)).trans ih
      next m e q heq =>
        rw [heq] at hstep
        exact hstep.trans (.say q m)

theorem before_executeToolCalls : p.Before (A.executeToolCalls env calls p).2 := by
  unfold executeToolCalls
  dsimp only
  split
  next => exact .refl p
  next => exact before_runToolCalls

/-- No call but the last one of a reply ends in a signal. -/
def SignalsLast (A : Agent) (env : Env W) (calls : List ToolCall) : Prop :=
  ∀ before call after, calls = before ++ call :: after → after ≠ [] →
    ∀ w r e, A.tools.executors call.name = some r → (env.run w r.executor call).1.2 = some e →
      e.isSignal = false

theorem SignalsLast.tail {call : ToolCall} (h : A.SignalsLast env (call :: calls)) :
    A.SignalsLast env calls := by
  intro before call' after heq
  exact h (call :: before) call' after (by rw [heq]; rfl)

theorem executeToolCall_error {call : ToolCall} {e : ToolError}
    (h : (A.executeToolCall env call p).1.2 = some e) : (∃ text, e = .failed text) ∨
      ∃ r, A.tools.executors call.name = some r ∧
        (env.run p.world r.executor call).1.2 = some e := by
  unfold executeToolCall executeTool at h
  cases hr : A.tools.executors call.name with
  | none =>
    rw [hr] at h
    exact .inl ⟨_, (Option.some.inj h).symm⟩
  | some r =>
    rw [hr] at h
    exact .inr ⟨r, rfl, h⟩

theorem executeToolCall_answeredId (hid : env.KeepsIds) (call : ToolCall) :
    (A.executeToolCall env call p).1.1.answeredId = some call.id := by
  unfold executeToolCall executeTool
  cases hr : A.tools.executors call.name with
  | none => rfl
  | some r => exact congrArg some (hid p.world r.executor call)

/-- `q` has the answers to the first of the calls beside what `p` has. -/
structure Answers (A : Agent) (env : Env W) (calls : List ToolCall) (p q : Progress W)
    (answers : List Message) : Prop where
  tools : ∀ m ∈ answers, m.isTool = true
  ids : env.KeepsIds → answers.map Message.answeredId =
    (calls.take answers.length).map fun call => some call.id
  length_le : answers.length ≤ calls.length
  agentMessages : q.agentMessages = p.agentMessages ++ answers
  newMessages : q.newMessages = p.newMessages ++ answers
  trace : q.trace = p.trace ++ (calls.take answers.length).map fun call =>
    .executed call (A.tools.executors call.name)

/-- The calls are answered one after the other; if none of them fails all are, and so are they if one
ends in a signal and is the last. -/
theorem runToolCalls_answers :
    ∃ answers, A.Answers env calls p (A.runToolCalls env calls p).2 answers ∧
      ((A.runToolCalls env calls p).1 = none → answers.length = calls.length) ∧
      (A.SignalsLast env calls → ∀ e, (A.runToolCalls env calls p).1 = some e →
        e.isSignal = true → answers.length = calls.length) := by
  induction calls generalizing p with
  | nil =>
    refine ⟨[], ?_, fun _ => rfl, fun _ _ _ _ => rfl⟩
    constructor <;> simp [runToolCalls]
  | cons call calls ih =>
    have hmessages := @executeToolCall_messages _ A env p call
    have htrace := @executeToolCall_trace _ A env p call
    have herror := fun e => @executeToolCall_error _ A env p call e
    have hid := fun h => @executeToolCall_answeredId _ A env p h call
    have htool : (A.executeToolCall env call p).1.1.isTool = true := rfl
    unfold runToolCalls
    split
    next =>
      refine ⟨[], ?_, fun h => (by cases h), fun _ e h hsignal => ?_⟩
      · constructor <;> simp
      · cases h
        cases hsignal
    next =>
      split
      next m q heq =>
        rw [heq] at hmessages htrace htool hid
        obtain ⟨answers, hanswers, hall, hsignal⟩ := ih (p := q.say m)
        refine ⟨m :: answers, ⟨?_, ?_, ?_, ?_, ?_, ?_⟩, ?_, ?_⟩
        · intro m' hm'
          cases List.mem_cons.mp hm' with
          | inl hfirst =>
            rw [hfirst]
            exact htool
          | inr hrest => exact hanswers.tools m' hrest
        · intro hkeeps
          simp [hanswers.ids hkeeps, hid hkeeps]
        · simpa using hanswers.length_le
        · rw [hanswers.agentMessages, ← hmessages.1]
          simp [Progress.say]
        · rw [hanswers.newMessages, ← hmessages.2]
          simp [Progress.say]
        · rw [hanswers.trace]
          change q.trace ++ _ = _
          rw [htrace]
          simp
        · intro hnone
          simpa using hall hnone
        · intro hlast e he hsig
          simpa using hsignal hlast.tail e he hsig
      next m e q heq =>
        rw [heq] at hmessages htrace htool hid herror
        refine ⟨[m], ⟨?_, ?_, by simp, ?_, ?_, ?_⟩, fun h => (by cases h), ?_⟩
        · intro m' hm'
          rw [List.mem_singleton.mp hm']
          exact htool
        · intro hkeeps
          simp [hid hkeeps]
        · rw [← hmessages.1]
          rfl
        · rw [← hmessages.2]
          rfl
        · change q.trace = _
          rw [htrace]
          simp
        · intro hlast e' he' hsignal
          obtain rfl := Option.some.inj he'
          have hsig : e.isSignal = true := by
            cases e <;> simp_all [ToolError.toExecError, ExecError.isSignal, ToolError.isSignal]
          by_cases hcalls : calls = []
          · simp [hcalls]
          · cases herror e rfl with
            | inl hfailed =>
              obtain ⟨text, rfl⟩ := hfailed
              cases hsig
            | inr hrun =>
              obtain ⟨r, hr, hrun⟩ := hrun
              have hquiet := hlast [] call calls rfl hcalls p.world r e hr hrun
              rw [hsig] at hquiet
              cases hquiet

/-- An approval request of a call comes from its executor. -/
theorem runToolCalls_request {e : ApprovalRequiredError}
    (h : (A.runToolCalls env calls p).1 = some (.approvalRequired e)) :
    ∃ w executor call, (env.run w executor call).1.2 = some (.approvalRequired e) := by
  induction calls generalizing p with
  | nil => cases h
  | cons call calls ih =>
    have herror := fun e => @executeToolCall_error _ A env p call e
    unfold runToolCalls at h
    split at h
    next => cases h
    next =>
      split at h
      next => exact ih h
      next m err q heq =>
        rw [heq] at herror
        cases err with
        | approvalRequired e' =>
          obtain rfl := ExecError.approvalRequired.inj (Option.some.inj h)
          cases herror _ rfl with
          | inl hfailed =>
            obtain ⟨text, hfailed⟩ := hfailed
            cases hfailed
          | inr hrun =>
            obtain ⟨r, -, hrun⟩ := hrun
            exact ⟨p.world, r.executor, call, hrun⟩
        | failed | terminateTeam | selectionMade => cases h

/-! ### One round -/

/-- What a loop does with a reply, having `n` further rounds. -/
def afterReply (A : Agent) (env : Env W)
    (onToolError : ExecError → List Message → List Message) (n : ℕ) (choice : Choice)
    (p : Progress W) : Outcome × Progress W :=
  if choice.toolCalls = [] then (.returned (some p.newMessages) none, p)
  else match A.executeToolCalls env choice.toolCalls p with
    | (some e, p) => (.returned (some (onToolError e p.newMessages)) (some e), p)
    | (none, p) => A.agenticLoop env onToolError n p

/-- A round ends without a reply, or goes on with one, whatever the approval settings are. -/
theorem agenticLoop_cases (A : Agent) (env : Env W)
    (onToolError : ExecError → List Message → List Message) (p : Progress W) :
    (∃ ms e q, p.Before q ∧ q.newMessages = p.newMessages ∧
      (q = p ∨ q = (A.executeModelCall env p).2) ∧ (e = .cancelled ∨ ∃ text, e = .failed text) ∧
      ∀ approvals n,
        Agent.agenticLoop { A with approvalRequiredTools := approvals } env onToolError (n + 1) p =
          (.returned ms (some e), q)) ∨
    ∃ choice q, A.executeModelCall env p = (.ok choice, q) ∧ ∀ approvals n,
      Agent.agenticLoop { A with approvalRequiredTools := approvals } env onToolError (n + 1) p =
        Agent.afterReply { A with approvalRequiredTools := approvals } env onToolError n choice
          (q.say (A.processAssistantMessage choice)) := by
  cases hcancelled : env.cancelled p.world with
  | true =>
    left
    refine ⟨some p.newMessages, .cancelled, p, .refl p, rfl, .inl rfl, .inl rfl,
      fun approvals n => ?_⟩
    rw [agenticLoop, if_pos hcancelled]
  | false =>
    have hrunning : ¬ env.cancelled p.world = true := by simp [hcancelled]
    cases hcall : A.executeModelCall env p with
    | mk reply q =>
      have hcall' : ∀ approvals, Agent.executeModelCall
          { A with approvalRequiredTools := approvals } env p = (reply, q) := fun _ => hcall
      cases reply with
      | error e =>
        left
        have hbefore := @before_executeModelCall _ A env p
        have hmessages := (@executeModelCall_messages _ A env p).2
        rw [hcall] at hbefore hmessages
        refine ⟨none, .failed e, q, hbefore, hmessages, .inr rfl, .inr ⟨e, rfl⟩,
          fun approvals n => ?_⟩
        rw [agenticLoop, if_neg hrunning, hcall']
      | ok choice =>
        right
        refine ⟨choice, q, rfl, fun approvals n => ?_⟩
        rw [agenticLoop, if_neg hrunning, hcall']
        rfl

/-! ### More rounds -/

/-- A run is the same within a larger bound, or it is still running and goes on there. -/
def Longer (x y : Outcome × Progress W) : Prop := x = y ∨ x.1 = .running ∧ x.2.Before y.2

theorem Longer.refl (x : Outcome × Progress W) : Longer x x := .inl rfl

theorem before_agenticLoop : p.Before (A.agenticLoop env onToolError n p).2 := by
  induction n generalizing p with
  | zero => exact .refl p
  | succ n ih =>
    cases agenticLoop_cases A env onToolError p with
    | inl hend =>
      obtain ⟨ms, e, q, hbefore, -, -, -, hloop⟩ := hend
      rw [hloop A.approvalRequiredTools]
      exact hbefore
    | inr hreply =>
      obtain ⟨choice, q, hcall, hloop⟩ := hreply
      have hbefore := @before_executeModelCall _ A env p
      rw [hcall] at hbefore
      have hsay := hbefore.trans (.say q (A.processAssistantMessage choice))
      rw [hloop A.approvalRequiredTools, afterReply]
      split
      next => exact hsay
      next =>
        have htools := @before_executeToolCalls _ A env (q.say (A.processAssistantMessage choice))
          choice.toolCalls
        split
        next e r hr =>
          rw [hr] at htools
          exact hsay.trans htools
        next r hr =>
          rw [hr] at htools
          exact (hsay.trans htools).trans ih

theorem agenticLoop_longer (h : n ≤ m) :
    Longer (A.agenticLoop env onToolError n p) (A.agenticLoop env onToolError m p) := by
  induction n generalizing m p with
  | zero => exact .inr ⟨rfl, before_agenticLoop⟩
  | succ n ih =>
    obtain ⟨m, rfl⟩ : ∃ m', m = m' + 1 := ⟨m - 1, by omega⟩
    cases agenticLoop_cases A env onToolError p with
    | inl hend =>
      obtain ⟨ms, e, q, -, -, -, -, hloop⟩ := hend
      rw [hloop A.approvalRequiredTools, hloop A.approvalRequiredTools]
      exact .refl _
    | inr hreply =>
      obtain ⟨choice, q, -, hloop⟩ := hreply
      rw [hloop A.approvalRequiredTools, hloop A.approvalRequiredTools, afterReply, afterReply]
      split
      next => exact .refl _
      next =>
        split
        next => exact .refl _
        next => exact ih (by omega)

theorem executeAgent_longer (h : n ≤ m) (w : W) (userInput : Message) (history : List Message) :
    Longer (A.executeAgent env n w userInput history) (A.executeAgent env m w userInput history) := by
  unfold executeAgent executeLocally
  split
  next => exact .refl _
  next =>
    split
    next => exact .refl _
    next =>
      split
      next => exact agenticLoop_longer h
      next => exact .refl _

/-! ### The gate -/

/-- No message is a reply that calls a tool which asks for approval. -/
def Unasked (A : Agent) (messages : List Message) : Prop := ∀ m ∈ messages, A.asking m = []

/-- Round `k + 1` of the loop from `p` gets a reply that calls a tool which asks for approval. With
the settings the loop gives up there, in `q`; without them it goes on from `q`. -/
structure AsksAt (A : Agent) (env : Env W)
    (onToolError : ExecError → List Message → List Message) (k : ℕ) (p : Progress W)
    (choice : Choice) (q : Progress W) : Prop where
  asking : A.asking (A.processAssistantMessage choice) ≠ []
  reply_mem : A.processAssistantMessage choice ∈ q.newMessages
  before : p.Before q
  longer : p.agentMessages.length < q.agentMessages.length
  gated : ∃ e, e.toolCalls = A.asking (A.processAssistantMessage choice) ∧
    e.context.agentName = A.name ∧ e.context.agentNamespace = A.namespace ∧
    ∀ m, A.agenticLoop env onToolError (k + 1 + m) p =
      (.returned (some (onToolError (.approvalRequired e) q.newMessages))
        (some (.approvalRequired e)), q)
  ungated : ∀ m, A.withoutApproval.agenticLoop env onToolError (k + 1 + m) p =
    A.withoutApproval.afterReply env onToolError m choice q

theorem runToolCalls_withoutApproval :
    A.withoutApproval.runToolCalls env calls p = A.runToolCalls env calls p := by
  induction calls generalizing p with
  | nil => rfl
  | cons call calls ih =>
    have hcall : A.withoutApproval.executeToolCall env call p = A.executeToolCall env call p := rfl
    rw [runToolCalls, runToolCalls, hcall]
    split
    next => rfl
    next =>
      split
      next => exact ih
      next => rfl

theorem executeToolCalls_withoutApproval :
    A.withoutApproval.executeToolCalls env calls p = A.runToolCalls env calls p := by
  rw [executeToolCalls_of_ungated fun _ _ => rfl, runToolCalls_withoutApproval]

/-- A reply that calls a tool which asks for approval is given up. -/
theorem executeToolCalls_of_asking {choice : Choice}
    (h : A.asking (A.processAssistantMessage choice) ≠ []) :
    ∃ e, e.toolCalls = A.asking (A.processAssistantMessage choice) ∧
      e.context.agentName = A.name ∧ e.context.agentNamespace = A.namespace ∧
      ∀ p : Progress W, A.executeToolCalls env choice.toolCalls p =
        (some (.approvalRequired e), p) := by
  obtain ⟨call, hcall⟩ := List.exists_mem_of_ne_nil _ h
  obtain ⟨hmem, hgate⟩ := List.mem_filter.mp hcall
  have hsome : (choice.toolCalls.findSome? fun call => A.requiresApproval call.name).isSome :=
    List.findSome?_isSome_iff.mpr ⟨call, hmem, hgate⟩
  obtain ⟨config, hconfig⟩ := Option.isSome_iff_exists.mp hsome
  unfold executeToolCalls
  rw [hconfig]
  exact ⟨_, rfl, rfl, rfl, fun _ => rfl⟩

theorem executeToolCalls_of_unasked {choice : Choice}
    (h : A.asking (A.processAssistantMessage choice) = []) :
    A.executeToolCalls env choice.toolCalls p =
      A.withoutApproval.executeToolCalls env choice.toolCalls p := by
  rw [executeToolCalls_withoutApproval]
  apply executeToolCalls_of_ungated
  intro call hmem
  have hnone := List.filter_eq_nil_iff.mp h call hmem
  simpa using hnone

theorem unasked_append {ms ms' : List Message} (h : A.Unasked ms) (h' : A.Unasked ms') :
    A.Unasked (ms ++ ms') := by
  intro m hm
  cases List.mem_append.mp hm with
  | inl hfirst => exact h m hfirst
  | inr hsecond => exact h' m hsecond

theorem unasked_of_tools {ms : List Message} (h : ∀ m ∈ ms, m.isTool = true) : A.Unasked ms := by
  intro m hm
  have htool := h m hm
  cases m with
  | tool content id => rfl
  | system | user | assistant => cases htool

theorem afterReply_of_unasked {choice : Choice}
    (h : A.asking (A.processAssistantMessage choice) = []) :
    A.afterReply env onToolError n choice p = if choice.toolCalls = [] then
        (.returned (some p.newMessages) none, p)
      else match A.runToolCalls env choice.toolCalls p with
        | (some e, q) => (.returned (some (onToolError e q.newMessages)) (some e), q)
        | (none, q) => A.agenticLoop env onToolError n q := by
  unfold afterReply
  rw [executeToolCalls_of_unasked h, executeToolCalls_withoutApproval]

theorem afterReply_withoutApproval {choice : Choice} :
    A.withoutApproval.afterReply env onToolError n choice p = if choice.toolCalls = [] then
        (.returned (some p.newMessages) none, p)
      else match A.runToolCalls env choice.toolCalls p with
        | (some e, q) => (.returned (some (onToolError e q.newMessages)) (some e), q)
        | (none, q) => A.withoutApproval.agenticLoop env onToolError n q := by
  unfold afterReply
  rw [executeToolCalls_withoutApproval]

/-- A later round that asks, seen from the round before. -/
theorem AsksAt.later {k : ℕ} {choice : Choice} {r : Progress W}
    (h : A.AsksAt env onToolError k q choice r) (hbefore : p.Before q)
    (hgated : ∀ m, A.agenticLoop env onToolError (m + 1) p = A.agenticLoop env onToolError m q)
    (hungated : ∀ m, A.withoutApproval.agenticLoop env onToolError (m + 1) p =
      A.withoutApproval.agenticLoop env onToolError m q) :
    A.AsksAt env onToolError (k + 1) p choice r := by
  have hlonger := h.longer
  have hlength := hbefore.agentMessages.length_le
  obtain ⟨e, hcalls, hname, hspace, hgate⟩ := h.gated
  refine ⟨h.asking, h.reply_mem, hbefore.trans h.before, by omega,
    ⟨e, hcalls, hname, hspace, ?_⟩, ?_⟩
  · intro m
    rw [show k + 1 + 1 + m = k + 1 + m + 1 by omega, hgated, hgate]
  · intro m
    rw [show k + 1 + 1 + m = k + 1 + m + 1 by omega, hungated, h.ungated]

/-- Without approval settings the loop goes on after a reply; with them it gives up at the first one
that calls a tool which asks for approval. -/
theorem agenticLoop_gate (hp : A.Unasked p.newMessages) :
    (A.agenticLoop env onToolError n p = A.withoutApproval.agenticLoop env onToolError n p ∧
      A.Unasked (A.agenticLoop env onToolError n p).2.newMessages) ∨
    ∃ k choice q, k < n ∧ A.AsksAt env onToolError k p choice q := by
  induction n generalizing p with
  | zero => exact .inl ⟨rfl, hp⟩
  | succ n ih =>
    cases agenticLoop_cases A env onToolError p with
    | inl hend =>
      obtain ⟨ms, e, q, -, hmessages, -, -, hloop⟩ := hend
      left
      have hA := hloop A.approvalRequiredTools n
      refine ⟨hA.trans (hloop _ n).symm, ?_⟩
      rw [hA, hmessages]
      exact hp
    | inr hreply =>
      obtain ⟨choice, q, hcall, hloop⟩ := hreply
      have hA := hloop A.approvalRequiredTools
      have hB := hloop fun _ => none
      have hbefore := @before_executeModelCall _ A env p
      have hmessages := @executeModelCall_messages _ A env p
      rw [hcall] at hbefore hmessages
      generalize hr : q.say (A.processAssistantMessage choice) = r at hA hB
      have hsay : p.Before r := hr ▸ hbefore.trans (.say q _)
      have hnew : r.newMessages = p.newMessages ++ [A.processAssistantMessage choice] := by
        rw [← hr, ← hmessages.2]
        rfl
      have hlonger : r.agentMessages = p.agentMessages ++ [A.processAssistantMessage choice] := by
        rw [← hr, ← hmessages.1]
        rfl
      by_cases hasking : A.asking (A.processAssistantMessage choice) = []
      · have hunasked : A.Unasked r.newMessages := by
          rw [hnew]
          apply unasked_append hp
          intro m hm
          rw [List.mem_singleton.mp hm]
          exact hasking
        have hA' := fun m => (hA m).trans (afterReply_of_unasked hasking)
        have hB' := fun m => (hB m).trans afterReply_withoutApproval
        obtain ⟨answers, hanswers, -, -⟩ :=
          @runToolCalls_answers _ A env r choice.toolCalls
        have hafter := @before_runToolCalls _ A env r choice.toolCalls
        have hunasked' : A.Unasked (A.runToolCalls env choice.toolCalls r).2.newMessages :=
          hanswers.newMessages ▸ unasked_append hunasked (unasked_of_tools hanswers.tools)
        by_cases hcalls : choice.toolCalls = []
        · left
          have hsame := (hA' n).trans (if_pos hcalls)
          refine ⟨hsame.trans ((hB' n).trans (if_pos hcalls)).symm, ?_⟩
          rw [hsame]
          exact hunasked
        · simp only [if_neg hcalls] at hA' hB'
          cases hrun : A.runToolCalls env choice.toolCalls r with
          | mk err u =>
            rw [hrun] at hunasked' hafter
            simp only [hrun] at hA' hB'
            cases err with
            | some e =>
              left
              refine ⟨(hA' n).trans (hB' n).symm, ?_⟩
              rw [hA']
              exact hunasked'
            | none =>
              cases ih hunasked' with
              | inl hsame =>
                left
                refine ⟨(hA' n).trans (hsame.1.trans (hB' n).symm), ?_⟩
                rw [hA']
                exact hsame.2
              | inr hasks =>
                right
                obtain ⟨k, choice', q', hk, hasks⟩ := hasks
                exact ⟨k + 1, choice', q', by omega, hasks.later (hsay.trans hafter) hA' hB'⟩
      · right
        obtain ⟨e, hcalls, hname, hspace, hgate⟩ := @executeToolCalls_of_asking _ _ env _ hasking
        have hsome : choice.toolCalls ≠ [] := by
          intro hnil
          apply hasking
          simp [asking, processAssistantMessage, hnil]
        refine ⟨0, choice, r, by omega, hasking, ?_, hsay, ?_, ⟨e, hcalls, hname, hspace, ?_⟩, ?_⟩
        · rw [hnew]
          exact List.mem_append_right _ (List.mem_singleton_self _)
        · rw [hlonger]
          simp
        · intro m
          rw [show 0 + 1 + m = m + 1 by omega, hA]
          simp only [afterReply, if_neg hsome, hgate]
        · intro m
          rw [show 0 + 1 + m = m + 1 by omega]
          exact hB m

theorem before_afterReply {choice : Choice} :
    p.Before (A.afterReply env onToolError n choice p).2 := by
  have htools := @before_executeToolCalls _ A env p choice.toolCalls
  unfold afterReply
  split
  next => exact .refl p
  next =>
    split
    next e r hr =>
      rw [hr] at htools
      exact htools
    next r hr =>
      rw [hr] at htools
      exact htools.trans before_agenticLoop

/-- Where the loop asks, the run without approval settings shows the reply that asks. -/
theorem AsksAt.not_unasked {k : ℕ} {choice : Choice} (h : A.AsksAt env onToolError k p choice q)
    (hk : k < n) : ¬ A.Unasked (A.withoutApproval.agenticLoop env onToolError n p).2.newMessages := by
  obtain ⟨m, rfl⟩ : ∃ m, n = k + 1 + m := ⟨n - (k + 1), by omega⟩
  intro hunasked
  apply h.asking
  apply hunasked
  rw [h.ungated]
  exact before_afterReply.newMessages.subset h.reply_mem

/-! ### The run of an agent -/

/-- How a run ends that gets no reply from a model: with the texts of an engine or with an error. -/
structure NoReply (messages : Option (List Message)) (err : Option ExecError) (q : Progress W) :
    Prop where
  newMessages : q.newMessages = []
  trace : q.trace = []
  texts : ∀ m ∈ messages.getD [], ∃ text, m = .assistant none text []
  err : err = none ∨ ∃ text, err = some (.failed text)

/-- An agent's run ends before the first reply, or is its loop, whatever the approval settings are. -/
theorem executeAgent_cases (A : Agent) (env : Env W) (w : W) (userInput : Message)
    (history : List Message) :
    (∃ ms err q, NoReply ms err q ∧ ∀ approvals n,
      Agent.executeAgent { A with approvalRequiredTools := approvals } env n w userInput history =
        (.returned ms err, q)) ∨
    ∃ prompt, A.hasModel = true ∧ ∀ approvals n,
      Agent.executeAgent { A with approvalRequiredTools := approvals } env n w userInput history =
        Agent.agenticLoop { A with approvalRequiredTools := approvals } env (fun _ ms => ms) n
          ⟨w, [.system prompt] ++ history ++ [userInput], [], []⟩ := by
  cases hdispatch : A.dispatchesToEngine with
  | true =>
    left
    cases hreply : env.engine w userInput history with
    | mk reply w' =>
      cases reply with
      | error e =>
        refine ⟨none, some (.failed e), ⟨w', [], [], []⟩, ⟨rfl, rfl, by simp, by simp⟩,
          fun approvals n => ?_⟩
        simp only [executeAgent, if_true, hreply]
      | ok texts =>
        refine ⟨some (texts.map fun text => .assistant none text []), none, ⟨w', [], [], []⟩,
          ⟨rfl, rfl, by simp, .inl rfl⟩, fun approvals n => ?_⟩
        simp only [executeAgent, if_true, hreply]
  | false =>
    cases hprompt : env.resolvePrompt with
    | error e =>
      left
      refine ⟨none, some (.failed ("agent " ++ A.fullName ++ " prompt resolution failed: " ++ e)),
        ⟨w, [], [], []⟩, ⟨rfl, rfl, by simp, by simp⟩, fun approvals n => ?_⟩
      simp [executeAgent, executeLocally, prepareMessages, hprompt, fullName]
    | ok prompt =>
      cases hmodel : A.hasModel with
      | true =>
        right
        refine ⟨prompt, rfl, fun approvals n => ?_⟩
        simp [executeAgent, executeLocally, prepareMessages, hprompt]
      | false =>
        left
        refine ⟨none, some (.failed ("agent " ++ A.fullName ++ " has no model configured")),
          ⟨w, [.system prompt] ++ history ++ [userInput], [], []⟩, ⟨rfl, rfl, by simp, by simp⟩,
          fun approvals n => ?_⟩
        simp [executeAgent, executeLocally, prepareMessages, hprompt, fullName]

theorem filter_agent (name : String) (events : List Event) (p : TeamEvent → Bool)
    (hp : ∀ e, p (.agent name e) = false) : (events.map (TeamEvent.agent name)).filter p = [] := by
  rw [List.filter_eq_nil_iff]
  intro e he
  obtain ⟨e', -, rfl⟩ := List.mem_map.mp he
  simp [hp]

theorem askedEvents_eq_nil {ms : List Message} (h : A.Unasked ms) : A.askedEvents ms = [] := by
  unfold askedEvents
  rw [List.map_eq_nil_iff, List.filter_eq_nil_iff]
  intro m hm
  simp [h m hm]

theorem isAsked_of_mem_askedEvents {ms : List Message} {e : TeamEvent}
    (h : e ∈ A.askedEvents ms) : e.isAsked = true ∧ e.isTurn = false := by
  obtain ⟨m, -, rfl⟩ := List.mem_map.mp h
  exact ⟨rfl, rfl⟩

theorem exists_asked {ms : List Message} (h : ¬ A.Unasked ms) :
    ∃ e ∈ A.askedEvents ms, e.isAsked = true := by
  unfold Unasked at h
  push Not at h
  obtain ⟨m, hm, hasking⟩ := h
  refine ⟨.asked A.name (A.asking m), ?_, rfl⟩
  apply List.mem_map_of_mem
  exact List.mem_filter.mpr ⟨hm, by simpa using hasking⟩

/-- An agent's run starts no turn. -/
theorem execute_turns (approvals : Bool) (userInput : Message) (history : List Message) (w : W)
    (e : TeamEvent) (h : e ∈ (A.execute env approvals n userInput history w).trace) :
    e.isTurn = false := by
  cases List.mem_append.mp h with
  | inl hevent =>
    obtain ⟨e', -, rfl⟩ := List.mem_map.mp hevent
    rfl
  | inr hasked => exact (isAsked_of_mem_askedEvents hasked).2

/-- With approval settings an agent's run stops where the run without them first asks. -/
theorem execute_stopsAt (userInput : Message) (history : List Message) :
    (A.execute env true n userInput history).StopsAt TeamEvent.isAsked TeamEvent.isTurn
      (A.execute env false n userInput history) := by
  intro w
  have hquiet : ∀ ms, A.Unasked ms → ∀ events : List Event,
      ∀ e ∈ events.map (TeamEvent.agent A.name) ++ A.askedEvents ms, e.isAsked = false := by
    intro ms hms events e he
    rw [askedEvents_eq_nil hms, List.append_nil] at he
    obtain ⟨e', -, rfl⟩ := List.mem_map.mp he
    rfl
  cases executeAgent_cases A env w userInput history with
  | inl hend =>
    obtain ⟨ms, err, q, hq, hrun⟩ := hend
    left
    have hA := hrun A.approvalRequiredTools n
    have hB := hrun (fun _ => none) n
    refine ⟨?_, ?_⟩
    · unfold execute
      simp only [if_true, Bool.false_eq_true, if_false]
      rw [show A.executeAgent env n w userInput history = _ from hA,
        show A.withoutApproval.executeAgent env n w userInput history = _ from hB]
    · apply hquiet
      simp only [Bool.false_eq_true, if_false]
      rw [show A.withoutApproval.executeAgent env n w userInput history = _ from hB, hq.newMessages]
      intro m hm
      cases hm
  | inr hloop =>
    obtain ⟨prompt, -, hrun⟩ := hloop
    have hA := hrun A.approvalRequiredTools n
    have hB := hrun (fun _ => none) n
    have hnil : A.Unasked (Progress.mk w ([.system prompt] ++ history ++ [userInput]) [] []).newMessages := by
      intro m hm
      cases hm
    cases @agenticLoop_gate _ _ env _ (fun _ ms => ms) n hnil with
    | inl hsame =>
      left
      refine ⟨?_, ?_⟩
      · unfold execute
        simp only [if_true, Bool.false_eq_true, if_false]
        rw [show A.executeAgent env n w userInput history = _ from hA,
          show A.withoutApproval.executeAgent env n w userInput history = _ from hB, hsame.1]
        rfl
      · apply hquiet
        simp only [Bool.false_eq_true, if_false]
        rw [show A.withoutApproval.executeAgent env n w userInput history = _ from hB]
        exact hsame.1 ▸ hsame.2
    | inr hasks =>
      right
      obtain ⟨k, choice, q, hk, hasks⟩ := hasks
      have hunasked := hasks.not_unasked hk
      obtain ⟨m, rfl⟩ : ∃ m, n = k + 1 + m := ⟨n - (k + 1), by omega⟩
      refine ⟨?_, ?_, ?_⟩
      · obtain ⟨e, -, -, -, hgate⟩ := hasks.gated
        refine ⟨⟨none, ⟨"", .approvalRequired e⟩⟩, ?_⟩
        unfold execute
        simp only [if_true]
        rw [show A.executeAgent env (k + 1 + m) w userInput history = _ from hA.trans (hgate m)]
        rfl
      · obtain ⟨e, he, hasked⟩ := exists_asked hunasked
        refine ⟨e, ?_, hasked⟩
        unfold execute
        simp only [Bool.false_eq_true, if_false]
        rw [show A.withoutApproval.executeAgent env (k + 1 + m) w userInput history = _ from hB]
        exact List.mem_append_right _ he
      · rw [List.filter_eq_nil_iff.mpr, List.filter_eq_nil_iff.mpr]
        · intro e he
          rw [execute_turns false userInput history w e ((List.takeWhile_sublist _).subset he)]
          simp
        · intro e he
          rw [execute_turns true userInput history w e he]
          simp

theorem execute_extendedBy (h : n ≤ m) (approvals : Bool) (userInput : Message)
    (history : List Message) : (A.execute env approvals n userInput history).ExtendedBy TeamEvent.isMark
      (A.execute env approvals m userInput history) := by
  intro w
  unfold execute
  cases executeAgent_longer (A := if approvals then A else A.withoutApproval) h w userInput history with
  | inl hsame =>
    left
    rw [hsame]
  | inr hrun =>
    right
    obtain ⟨hrunning, hbefore⟩ := hrun
    refine ⟨by simp only [hrunning]; rfl, ?_⟩
    dsimp only
    rw [List.filter_append, List.filter_append, filter_agent _ _ _ fun _ => rfl,
      filter_agent _ _ _ fun _ => rfl, List.nil_append, List.nil_append]
    apply List.IsPrefix.filter
    apply List.IsPrefix.map
    exact hbefore.newMessages.filter _

end Agent
end Ark
