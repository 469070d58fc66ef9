import Ark.Handler
import Ark.TeamRuns

/-!
# Approval and what an agent's model sees

A pause forgets everything about the run but the calls that asked: the resumption starts from memory,
without the system prompt, the earlier rounds, the text of the reply and its other calls. So granting
the approvals gives the run without approval settings exactly when no reply of that run asks. The
comparison is by the number of messages sent to the model, which the forgotten ones always lower.
-/

namespace Ark

def Message.withoutName : Message → Message
  | .assistant _ content toolCalls => .assistant none content toolCalls
  | m => m

def Event.withoutNames : Event → Event
  | .sent messages => .sent (messages.map Message.withoutName)
  | e => e

def TeamEvent.event? : TeamEvent → Option Event
  | .agent _ e => some e
  | _ => none

/-- What a trace shows of the tools and the model, up to agent names. -/
def shown (trace : List TeamEvent) : List Event :=
  (trace.filterMap TeamEvent.event?).map Event.withoutNames

def Event.size? : Event → Option ℕ
  | .sent messages => some messages.length
  | _ => none

/-- How many messages the model was sent each time. -/
def sizes (events : List Event) : List ℕ := events.filterMap Event.size?

theorem shown_append (xs ys : List TeamEvent) : shown (xs ++ ys) = shown xs ++ shown ys := by
  simp [shown]

theorem shown_mono {xs ys : List TeamEvent} (h : xs <+: ys) : shown xs <+: shown ys := by
  obtain ⟨rest, rfl⟩ := h
  rw [shown_append]
  exact List.prefix_append _ _

theorem shown_agent (name : String) (events : List Event) :
    shown (events.map (TeamEvent.agent name)) = events.map Event.withoutNames := by
  induction events with
  | nil => rfl
  | cons e events ih => simpa [shown, TeamEvent.event?] using ih

theorem sizes_append (xs ys : List Event) : sizes (xs ++ ys) = sizes xs ++ sizes ys :=
  List.filterMap_append

theorem sizes_mono {xs ys : List Event} (h : xs <+: ys) : sizes xs <+: sizes ys := by
  obtain ⟨rest, rfl⟩ := h
  rw [sizes_append]
  exact List.prefix_append _ _

theorem sizes_withoutNames (events : List Event) :
    sizes (events.map Event.withoutNames) = sizes events := by
  have hsize : Event.size? ∘ Event.withoutNames = Event.size? := by
    funext e
    cases e <;> simp [Event.size?, Event.withoutNames]
  unfold sizes
  rw [List.filterMap_map, hsize]

theorem sizes_executed (executors : String → Option Registered) (calls : List ToolCall) :
    sizes (calls.map fun call => .executed call (executors call.name)) = [] := by
  unfold sizes
  rw [List.filterMap_eq_nil_iff]
  intro e he
  obtain ⟨call, -, rfl⟩ := List.mem_map.mp he
  rfl

namespace Agent

variable {W : Type} {A : Agent} {env : Env W} {p q : Progress W} {calls : List ToolCall}
variable {onToolError : ExecError → List Message → List Message} {n m : ℕ}

theorem shown_execute (approvals : Bool) (userInput : Message) (history : List Message) (w : W) :
    shown (A.execute env approvals n userInput history w).trace =
      ((if approvals then A else A.withoutApproval).executeAgent env n w userInput history).2.trace.map
        Event.withoutNames := by
  have hasked : ∀ ms, shown (A.askedEvents ms) = [] := by
    intro ms
    unfold shown askedEvents
    rw [List.map_eq_nil_iff, List.filterMap_eq_nil_iff]
    intro e he
    obtain ⟨m, -, rfl⟩ := List.mem_map.mp he
    rfl
  unfold execute
  rw [shown_append, shown_agent, hasked, List.append_nil]

/-! ### Runs without approval settings never pause -/

theorem agenticLoop_not_asking (h : env.NoRequests) (ms : Option (List Message))
    (e : ApprovalRequiredError) : (A.withoutApproval.agenticLoop env onToolError n p).1 ≠
      .returned ms (some (.approvalRequired e)) := by
  induction n generalizing p with
  | zero => simp [agenticLoop]
  | succ n ih =>
    cases agenticLoop_cases A env onToolError p with
    | inl hend =>
      obtain ⟨ms', e', q, -, -, -, hne, hloop⟩ := hend
      have hB : A.withoutApproval.agenticLoop env onToolError (n + 1) p =
        (.returned ms' (some e'), q) := hloop _ n
      rw [hB]
      intro heq
      obtain ⟨-, he⟩ := Outcome.returned.inj heq
      obtain rfl := Option.some.inj he
      cases hne with
      | inl hcancelled => cases hcancelled
      | inr hfailed =>
        obtain ⟨text, hfailed⟩ := hfailed
        cases hfailed
    | inr hreply =>
      obtain ⟨choice, q, -, hloop⟩ := hreply
      have hB : A.withoutApproval.agenticLoop env onToolError (n + 1) p = _ :=
        (hloop _ n).trans afterReply_withoutApproval
      have htools := fun e => @runToolCalls_request _ A env
        (q.say (A.processAssistantMessage choice)) choice.toolCalls e
      rw [hB]
      split
      next => simp
      next =>
        split
        next err r hr =>
          rw [hr] at htools
          intro heq
          obtain ⟨-, herr⟩ := Outcome.returned.inj heq
          obtain ⟨w, executor, call, hrequest⟩ := htools e herr
          exact h w executor call e hrequest
        next => exact ih

theorem execute_not_asking (h : env.NoRequests) (userInput : Message) (history : List Message)
    (w : W) (result : Option ExecutionResult) (context : String) (e : ApprovalRequiredError) :
    (A.execute env false n userInput history w).ending ≠
      .failed ⟨result, ⟨context, .approvalRequired e⟩⟩ := by
  have hending : ∀ o : Outcome, (∀ ms, o ≠ .returned ms (some (.approvalRequired e))) →
      ending o ≠ .failed ⟨result, ⟨context, .approvalRequired e⟩⟩ := by
    intro o ho
    unfold ending
    split <;> simp_all
  apply hending
  intro ms
  simp only [Bool.false_eq_true, if_false]
  cases executeAgent_cases A env w userInput history with
  | inl hend =>
    obtain ⟨ms', err, q, hq, hrun⟩ := hend
    rw [show A.withoutApproval.executeAgent env n w userInput history = _ from hrun _ n]
    obtain rfl | ⟨text, rfl⟩ := hq.err <;> simp
  | inr hloop =>
    obtain ⟨prompt, -, hrun⟩ := hloop
    rw [show A.withoutApproval.executeAgent env n w userInput history = _ from hrun _ n]
    exact agenticLoop_not_asking h ms e

/-! ### What a run under a context that is not cancelled shows -/

variable (hrunning : ∀ w, env.cancelled w = false)

include hrunning

theorem agenticLoop_sends : p.trace ++ [.sent (p.agentMessages.map (withoutOwnAgentName A.name))] <+:
    (A.agenticLoop env onToolError (n + 1) p).2.trace := by
  have hcancelled : ¬ env.cancelled p.world = true := by simp [hrunning p.world]
  have htrace := @executeModelCall_trace _ A env p
  rw [agenticLoop, if_neg hcancelled]
  cases hcall : A.executeModelCall env p with
  | mk reply q =>
    rw [hcall] at htrace
    rw [← htrace]
    cases reply with
    | error e => exact List.prefix_rfl
    | ok choice =>
      exact (@before_afterReply _ A env (q.say (A.processAssistantMessage choice)) onToolError n
        choice).trace

theorem runToolCalls_executes (hcalls : calls ≠ []) :
    p.trace.length < (A.runToolCalls env calls p).2.trace.length := by
  obtain ⟨call, calls, rfl⟩ := List.exists_cons_of_ne_nil hcalls
  have hcancelled : ¬ env.cancelled p.world = true := by simp [hrunning p.world]
  have htrace := @executeToolCall_trace _ A env p call
  rw [runToolCalls, if_neg hcancelled]
  split
  next m q heq =>
    rw [heq] at htrace
    have hrest := (@before_runToolCalls _ A env (q.say m) calls).trace
    have hlength := hrest.length_le
    change q.trace.length ≤ _ at hlength
    rw [htrace, List.length_append, List.length_singleton] at hlength
    omega
  next m e q heq =>
    rw [heq] at htrace
    change _ < q.trace.length
    rw [htrace]
    simp

/-- After a reply the model is next sent everything so far and the answers to all its calls. -/
theorem sizes_afterReply (choice : Choice) :
    ∃ rest, (A.withoutApproval.afterReply env onToolError n choice p).2.trace = p.trace ++ rest ∧
      (sizes rest = [] ∨ ∃ size sizes', sizes rest = size :: sizes' ∧
        p.agentMessages.length + choice.toolCalls.length ≤ size) := by
  rw [afterReply_withoutApproval]
  split
  next => exact ⟨[], (List.append_nil _).symm, .inl rfl⟩
  next =>
    obtain ⟨answers, hanswers, hall, -⟩ :=
      @runToolCalls_answers _ A env p choice.toolCalls
    have hquiet := sizes_executed A.tools.executors (choice.toolCalls.take answers.length)
    split
    next e q hq =>
      rw [hq] at hanswers
      exact ⟨_, hanswers.trace, .inl hquiet⟩
    next q hq =>
      rw [hq] at hanswers hall
      cases n with
      | zero => exact ⟨_, hanswers.trace, .inl hquiet⟩
      | succ n =>
        have hsends := @agenticLoop_sends _ A.withoutApproval _ q onToolError n hrunning
        obtain ⟨rest, hrest⟩ := hsends
        rw [hanswers.trace, List.append_assoc, List.append_assoc] at hrest
        refine ⟨_, hrest.symm, .inr ?_⟩
        rw [sizes_append, hquiet, List.nil_append, List.singleton_append]
        refine ⟨_, _, List.filterMap_cons_some rfl, ?_⟩
        rw [List.length_map, hanswers.agentMessages, List.length_append, hall rfl]

/-- A reply that asks has calls, and without approval settings the first one is executed. -/
theorem afterReply_executes {choice : Choice}
    (h : A.asking (A.processAssistantMessage choice) ≠ []) :
    p.trace.length < (A.withoutApproval.afterReply env onToolError n choice p).2.trace.length := by
  have hcalls : choice.toolCalls ≠ [] := by
    intro hnil
    apply h
    simp [asking, processAssistantMessage, hnil]
  have hexecutes := runToolCalls_executes (A := A) (p := p) hrunning hcalls
  rw [afterReply_withoutApproval, if_neg hcalls]
  split
  next e q hq =>
    rw [hq] at hexecutes
    exact hexecutes
  next q hq =>
    rw [hq] at hexecutes
    exact Nat.lt_of_lt_of_le hexecutes before_agenticLoop.trace.length_le

end Agent

namespace HandlerEnv

variable {W : Type} {H : HandlerEnv W} {s : ExecutionState} {A : Agent} {w : W}
variable {memory : List Message} {n m : ℕ}

/-- The query's target is the agent that is stored under its name in the query's namespace. -/
structure Targets (H : HandlerEnv W) (s : ExecutionState) (A : Agent) : Prop where
  target : ∃ description, s.target = .agent A description
  inNamespace : A.namespace = s.namespace
  stored : H.getAgent s.namespace A.name = .ok A

/-- No reply asks. -/
def NeverAsks (trace : List TeamEvent) : Prop := ∀ e ∈ trace, e.isAsked = false

theorem granted_of_no_task {k : ℕ} {d : Dispatch W} (h : ∀ request, d.response ≠ .task request) :
    H.granted n s k memory d = d.trace := by
  cases k with
  | zero => rfl
  | succ k =>
    unfold granted
    split
    next request heq => exact absurd heq (h request)
    next => rfl

theorem granted_mono (k : ℕ) (d : Dispatch W) : d.trace <+: H.granted n s k memory d := by
  cases k with
  | zero => exact List.prefix_rfl
  | succ k =>
    unfold granted
    split
    next => exact List.prefix_append _ _
    next => exact List.prefix_rfl

theorem target_execute (ht : Targets H s A) (approvals : Bool) (n : ℕ) (history : List Message) :
    s.target.execute H.toTeamEnv approvals (n + 1) (.user s.input) history =
      A.execute (H.agents A.name) approvals n (.user s.input) history := by
  obtain ⟨description, htarget⟩ := ht.target
  rw [htarget]
  rfl

/-- A run in which no reply asks is not paused. -/
theorem approvedRun_of_neverAsks (ht : Targets H s A) (hno : (H.agents A.name).NoRequests)
    (h : NeverAsks (H.plainRun s w memory n)) :
    H.approvedRun s w memory n = H.plainRun s w memory n := by
  have hsame : s.target.execute H.toTeamEnv true n (.user s.input) memory w =
      s.target.execute H.toTeamEnv false n (.user s.input) memory w := by
    cases Member.execute_stopsAt n H.toTeamEnv s.target (.user s.input) memory w with
    | inl hsame => exact hsame.1
    | inr hstop =>
      obtain ⟨-, ⟨e, he, hasks⟩, -⟩ := hstop
      have hquiet := h e he
      rw [hasks] at hquiet
      cases hquiet
  have hdispatch : H.execute true n w s memory = H.execute false n w s memory := by
    unfold execute
    rw [hsame]
  rw [approvedRun, hdispatch]
  apply granted_of_no_task
  intro request hresponse
  change (executeResponse s
    (s.target.execute H.toTeamEnv false n (.user s.input) memory w).ending).1 = _ at hresponse
  cases n with
  | zero => cases hresponse
  | succ n =>
    rw [target_execute ht] at hresponse
    have hne := Agent.execute_not_asking (A := A) (n := n) hno (.user s.input) memory w
    cases hending : (A.execute (H.agents A.name) false n (.user s.input) memory w).ending with
    | running =>
      rw [hending] at hresponse
      cases hresponse
    | ok result =>
      rw [hending] at hresponse
      cases hresponse
    | failed e =>
      rw [hending] at hresponse
      obtain ⟨result, context, cause⟩ := e
      cases cause with
      | approvalRequired a => exact hne result context a hending
      | cancelled | failed | tool => cases hresponse

/-! ### A run that pauses -/

/-- The messages that the agent's loop starts from. -/
def start (s : ExecutionState) (w : W) (memory : List Message) (prompt : String) : Progress W :=
  ⟨w, [.system prompt] ++ memory ++ [.user s.input], [], []⟩

/-- Round `k + 1` of the query's run gets a reply that asks. -/
structure PausesAt (H : HandlerEnv W) (s : ExecutionState) (A : Agent) (w : W)
    (memory : List Message) (prompt : String) (k : ℕ) (choice : Choice) (q : Progress W) :
    Prop where
  hasModel : A.hasModel = true
  loops : ∀ approvals n, Agent.executeAgent { A with approvalRequiredTools := approvals }
    (H.agents A.name) n w (.user s.input) memory =
      Agent.agenticLoop { A with approvalRequiredTools := approvals } (H.agents A.name)
        (fun _ ms => ms) n (start s w memory prompt)
  asks : A.AsksAt (H.agents A.name) (fun _ ms => ms) k (start s w memory prompt) choice q

theorem exists_pausesAt (ht : Targets H s A) (h : ¬ NeverAsks (H.plainRun s w memory n)) :
    ∃ prompt k choice q, PausesAt H s A w memory prompt k choice q := by
  cases n with
  | zero =>
    apply absurd _ h
    intro e he
    cases he
  | succ n =>
    have hplain : H.plainRun s w memory (n + 1) =
        (A.execute (H.agents A.name) false n (.user s.input) memory w).trace := by
      unfold plainRun execute
      rw [target_execute ht]
    have hasked : ¬ A.Unasked (A.withoutApproval.executeAgent (H.agents A.name) n w
        (.user s.input) memory).2.newMessages := by
      intro hunasked
      apply h
      intro e he
      rw [hplain] at he
      cases List.mem_append.mp he with
      | inl hevent =>
        obtain ⟨e', -, rfl⟩ := List.mem_map.mp hevent
        rfl
      | inr hasks =>
        simp only [Bool.false_eq_true, if_false] at hasks
        rw [Agent.askedEvents_eq_nil hunasked] at hasks
        cases hasks
    cases Agent.executeAgent_cases A (H.agents A.name) w (.user s.input) memory with
    | inl hend =>
      obtain ⟨ms, err, q, hq, hrun⟩ := hend
      rw [show A.withoutApproval.executeAgent _ n w _ memory = _ from hrun _ n, hq.newMessages]
        at hasked
      apply absurd _ hasked
      intro m hm
      cases hm
    | inr hloop =>
      obtain ⟨prompt, hmodel, hrun⟩ := hloop
      have hnil : A.Unasked (start s w memory prompt).newMessages := by
        intro m hm
        cases hm
      cases @Agent.agenticLoop_gate _ A (H.agents A.name) _ (fun _ ms => ms) n hnil with
      | inl hsame =>
        rw [show A.withoutApproval.executeAgent _ n w _ memory = _ from hrun _ n] at hasked
        exact absurd (hsame.1 ▸ hsame.2) hasked
      | inr hasks =>
        obtain ⟨k, choice, q, -, hasks⟩ := hasks
        exact ⟨prompt, k, choice, q, hmodel, hrun, hasks⟩

section Paused

variable {prompt : String} {k : ℕ} {choice : Choice} {q : Progress W}

theorem shown_plainRun (ht : Targets H s A) (h : PausesAt H s A w memory prompt k choice q) (m : ℕ) :
    shown (H.plainRun s w memory (m + 1)) = (A.withoutApproval.agenticLoop (H.agents A.name)
      (fun _ ms => ms) m (start s w memory prompt)).2.trace.map Event.withoutNames := by
  unfold plainRun execute
  rw [target_execute ht]
  dsimp only
  rw [Agent.shown_execute]
  simp only [Bool.false_eq_true, if_false]
  rw [show A.withoutApproval.executeAgent _ m w _ memory = _ from h.loops _ m]
  rfl

/-- The first dispatch ends in the pause that `e` asks for, or it is still running before it. -/
structure PausedBy (H : HandlerEnv W) (s : ExecutionState) (A : Agent) (w : W)
    (memory : List Message) (choice : Choice) (q : Progress W) (e : ApprovalRequiredError) :
    Prop where
  toolCalls : e.toolCalls = A.asking (A.processAssistantMessage choice)
  agentName : e.context.agentName = A.name
  agentNamespace : e.context.agentNamespace = A.namespace
  runs : ∀ m, ((H.execute true (m + 1) w s memory).response = .running ∧
      shown (H.execute true (m + 1) w s memory).trace <+: q.trace.map Event.withoutNames) ∨
    ((H.execute true (m + 1) w s memory).response = s.handleApprovalRequired e ∧
      (H.execute true (m + 1) w s memory).saved = s.inputMessages ∧
      shown (H.execute true (m + 1) w s memory).trace = q.trace.map Event.withoutNames)
  paused : ∃ m, (H.execute true (m + 1) w s memory).response = s.handleApprovalRequired e ∧
    (H.execute true (m + 1) w s memory).saved = s.inputMessages ∧
    shown (H.execute true (m + 1) w s memory).trace = q.trace.map Event.withoutNames

theorem exists_pausedBy (ht : Targets H s A) (h : PausesAt H s A w memory prompt k choice q) :
    ∃ e, PausedBy H s A w memory choice q e := by
  obtain ⟨e, hcalls, hname, hspace, hgate⟩ := h.asks.gated
  have htrace : ∀ m, shown (H.execute true (m + 1) w s memory).trace =
      (A.agenticLoop (H.agents A.name) (fun _ ms => ms) m (start s w memory prompt)).2.trace.map
        Event.withoutNames := by
    intro m
    unfold execute
    rw [target_execute ht]
    dsimp only
    rw [Agent.shown_execute, if_pos rfl]
    rw [show A.executeAgent _ m w _ memory = _ from h.loops A.approvalRequiredTools m]
  have hresponse : ∀ m, ((H.execute true (m + 1) w s memory).response,
      (H.execute true (m + 1) w s memory).saved) = executeResponse s (Agent.ending
        (A.agenticLoop (H.agents A.name) (fun _ ms => ms) m (start s w memory prompt)).1) := by
    intro m
    unfold execute
    rw [target_execute ht]
    unfold Agent.execute
    simp only [if_true]
    rw [show A.executeAgent _ m w _ memory = _ from h.loops A.approvalRequiredTools m]
  have hpaused : ∀ m, A.agenticLoop (H.agents A.name) (fun _ ms => ms) m (start s w memory prompt) =
      A.agenticLoop (H.agents A.name) (fun _ ms => ms) (k + 1 + 0) (start s w memory prompt) →
      (H.execute true (m + 1) w s memory).response = s.handleApprovalRequired e ∧
        (H.execute true (m + 1) w s memory).saved = s.inputMessages ∧
        shown (H.execute true (m + 1) w s memory).trace = q.trace.map Event.withoutNames := by
    intro m hm
    have hends := hm.trans (hgate 0)
    have hpair := hresponse m
    rw [hends] at hpair
    obtain ⟨hr, hs⟩ := Prod.mk.inj hpair
    refine ⟨hr, hs, ?_⟩
    rw [htrace, hends]
  refine ⟨e, hcalls, hname, hspace, fun m => ?_, ⟨k + 1 + 0, hpaused _ rfl⟩⟩
  by_cases hm : m ≤ k + 1
  · cases @Agent.agenticLoop_longer _ A (H.agents A.name) (start s w memory prompt)
      (fun _ ms => ms) m (k + 1 + 0) hm with
    | inl hsame => exact .inr (hpaused m hsame)
    | inr hrunning =>
      left
      obtain ⟨hrun, hbefore⟩ := hrunning
      have hpair := hresponse m
      rw [hrun] at hpair
      rw [hgate 0] at hbefore
      refine ⟨(Prod.mk.inj hpair).1, ?_⟩
      rw [htrace]
      exact hbefore.trace.map _
  · right
    obtain ⟨j, rfl⟩ : ∃ j, m = k + 1 + j := ⟨m - (k + 1), by omega⟩
    exact hpaused _ ((hgate j).trans (hgate 0).symm)

/-- If the task cannot be resumed, the approved run shows nothing after the pause. -/
theorem approvedRun_unresumed {e : ApprovalRequiredError} (h : PausedBy H s A w memory choice q e)
    (hstuck : ∀ request, s.handleApprovalRequired e = .task request → request.contextID = "")
    (m : ℕ) : shown (H.approvedRun s w memory m) <+: q.trace.map Event.withoutNames := by
  cases m with
  | zero => exact List.nil_prefix
  | succ m =>
    rw [approvedRun]
    cases h.runs m with
    | inl hrunning =>
      rw [granted_of_no_task (by simp [hrunning.1])]
      exact hrunning.2
    | inr hpaused =>
      obtain ⟨hresponse, -, htrace⟩ := hpaused
      rw [← htrace]
      cases htask : s.handleApprovalRequired e with
      | task request =>
        have hid := hstuck request htask
        rw [htask] at hresponse
        unfold granted
        rw [hresponse]
        dsimp only
        rw [granted_of_no_task (by simp [resume, hid]), shown_append]
        simp [resume, hid, shown]
      | running | message | failed | panicked =>
        rw [htask] at hresponse
        rw [granted_of_no_task (by simp [hresponse])]

theorem executeApprovedCalls_spec (A : Agent) (calls : List ToolCall) (p : Progress W) :
    (H.executeApprovedCalls A calls p).1.length = calls.length ∧
      (H.executeApprovedCalls A calls p).2.trace = p.trace ++
        calls.map fun call => .executed call (A.tools.executors call.name) := by
  induction calls generalizing p with
  | nil => simp [executeApprovedCalls]
  | cons call calls ih =>
    have htrace := @Agent.executeToolCall_trace _ A (H.agents A.name) p call
    unfold executeApprovedCalls
    dsimp only
    rw [(ih _).2, htrace, List.length_cons, (ih _).1]
    simp

/-- The first message list of a resumption: the conversation, the calls that asked and their results. -/
theorem sizes_resume (ht : Targets H s A) (hmodel : A.hasModel = true)
    (hrunning : ∀ w, (H.agents A.name).cancelled w = false) {request : ApprovalRequest}
    (hid : request.contextID ≠ "") (hname : request.context.agentName = A.name)
    (hspace : request.context.agentNamespace = A.namespace) (w' : W) {stored : List Message}
    (hstored : stored ≠ []) : ∃ rest,
      sizes (shown (H.resume (n + 1) w' s (.ok stored) request .approved).trace) =
        (stored.length + 1 + request.toolCalls.length) :: rest := by
  have hagent : s.resolveResumptionAgent request.context = (A.name, s.namespace) := by
    obtain ⟨description, htarget⟩ := ht.target
    unfold ExecutionState.resolveResumptionAgent
    rw [hname, hspace, htarget, ht.inNamespace]
    simp [Member.name]
  obtain ⟨hlength, htrace⟩ := H.executeApprovedCalls_spec A request.toolCalls ⟨w', [], [], []⟩
  unfold resume
  rw [if_neg hid, hagent]
  dsimp only
  rw [ht.stored]
  dsimp only [decidedResults]
  rw [shown_agent, sizes_withoutNames, sizes_append, htrace, List.nil_append, sizes_executed,
    List.nil_append]
  unfold Agent.resumeFromApproval Agent.reconstructMessagesForResumption
  rw [if_pos hmodel]
  dsimp only
  obtain ⟨rest, hrest⟩ := @Agent.agenticLoop_sends _ A (H.agents A.name)
    ⟨(H.executeApprovedCalls A request.toolCalls ⟨w', [], [], []⟩).2.world,
      (if stored = [] then s.inputMessages else stored) ++ (.assistant none "" request.toolCalls ::
        (H.executeApprovedCalls A request.toolCalls ⟨w', [], [], []⟩).1.map Agent.resultMessage),
      .assistant none "" request.toolCalls ::
        (H.executeApprovedCalls A request.toolCalls ⟨w', [], [], []⟩).1.map Agent.resultMessage,
      []⟩ Agent.handleResumptionToolError n hrunning
  unfold Agent.runAgenticLoopFromResumption
  rw [← hrest, List.nil_append]
  refine ⟨sizes rest, ?_⟩
  rw [sizes_append, if_neg hstored]
  simp [sizes, Event.size?, hlength]
  omega

theorem task_of_handleApprovalRequired {e : ApprovalRequiredError} {request : ApprovalRequest}
    (h : s.handleApprovalRequired e = .task request) :
    request.toolCalls = e.toolCalls ∧ request.context = e.context := by
  unfold ExecutionState.handleApprovalRequired at h
  split at h
  next => cases h
  next =>
    rw [← DispatchResponse.task.inj h]
    exact ⟨rfl, rfl⟩

theorem shown_plainRun_mono (ht : Targets H s A)
    (h : PausesAt H s A w memory prompt k choice q) (m : ℕ) :
    shown (H.plainRun s w memory m) <+: (A.withoutApproval.afterReply (H.agents A.name)
      (fun _ ms => ms) m choice q).2.trace.map Event.withoutNames := by
  rw [← h.asks.ungated m]
  cases m with
  | zero => exact List.nil_prefix
  | succ m =>
    rw [shown_plainRun ht h]
    cases @Agent.agenticLoop_longer _ A.withoutApproval (H.agents A.name)
        (start s w memory prompt) (fun _ ms => ms) m (k + 1 + (m + 1)) (by omega) with
    | inl hsame =>
      rw [hsame]
    | inr hrun => exact hrun.2.trace.map _

/-- A run that pauses shows something else than the run without approval settings. -/
theorem not_sameRun (ht : Targets H s A) (hrunning : ∀ w, (H.agents A.name).cancelled w = false)
    (h : PausesAt H s A w memory prompt k choice q) :
    ¬ SameRun (fun n => shown (H.approvedRun s w memory n))
      (fun n => shown (H.plainRun s w memory n)) := by
  rintro ⟨happroved, hplain⟩
  obtain ⟨e, hpaused⟩ := exists_pausedBy ht h
  by_cases hstuck : ∀ request, s.handleApprovalRequired e = .task request → request.contextID = ""
  · -- the calls of the reply are never executed
    obtain ⟨m, hm⟩ := hplain (k + 1 + 1)
    have hlength := (hm.trans (approvedRun_unresumed hpaused hstuck m)).length_le
    have hexecutes := @Agent.afterReply_executes _ A _ q (fun _ ms => ms) 0 hrunning _ h.asks.asking
    have hungated := h.asks.ungated 0
    rw [Nat.add_zero] at hungated
    dsimp only at hlength
    rw [shown_plainRun ht h, hungated, List.length_map, List.length_map] at hlength
    omega
  · -- the model is sent less than in the run without approval settings
    push Not at hstuck
    obtain ⟨request, htask, hid⟩ := hstuck
    obtain ⟨hcalls, hcontext⟩ := task_of_handleApprovalRequired htask
    obtain ⟨m, hresponse, hsaved, htrace⟩ := hpaused.paused
    have hstored : memory ++ s.inputMessages ≠ [] := by simp [ExecutionState.inputMessages]
    obtain ⟨rest, hresume⟩ := sizes_resume (n := m) ht h.hasModel hrunning hid
      (hcontext ▸ hpaused.agentName) (hcontext ▸ hpaused.agentNamespace)
      (H.execute true (m + 1) w s memory).world hstored
    have hsizes : ∃ rest', sizes (shown (H.approvedRun s w memory (m + 1))) = sizes q.trace ++
        (memory.length + 2 + (A.asking (A.processAssistantMessage choice)).length) :: rest' := by
      rw [htask] at hresponse
      unfold approvedRun granted
      rw [hresponse]
      dsimp only
      obtain ⟨more, hmore⟩ := sizes_mono (shown_mono (@granted_mono _ H s
        (memory ++ (H.execute true (m + 1) w s memory).saved) (m + 1) m
        (H.resume (m + 1) (H.execute true (m + 1) w s memory).world s
          (.ok (memory ++ (H.execute true (m + 1) w s memory).saved)) request .approved)))
      rw [shown_append, sizes_append, htrace, sizes_withoutNames, ← hmore, hsaved, hresume, hcalls,
        hpaused.toolCalls]
      refine ⟨rest ++ more, ?_⟩
      simp [ExecutionState.inputMessages]
    obtain ⟨rest', hsizes⟩ := hsizes
    obtain ⟨m', hm'⟩ := happroved (m + 1)
    have hprefix := sizes_mono (hm'.trans (shown_plainRun_mono ht h m'))
    obtain ⟨more, hmore, hnext⟩ := @Agent.sizes_afterReply _ A _ q
      (fun _ ms => ms) m' hrunning choice
    rw [hsizes, sizes_withoutNames, hmore, sizes_append, List.prefix_append_right_inj] at hprefix
    have hlonger := h.asks.longer
    have hasking : (A.asking (A.processAssistantMessage choice)).length ≤ choice.toolCalls.length :=
      List.length_filter_le _ _
    cases hnext with
    | inl hnil =>
      rw [hnil] at hprefix
      simp at hprefix
    | inr hsent =>
      obtain ⟨size, sizes', hsent, hsize⟩ := hsent
      rw [hsent, List.cons_prefix_cons] at hprefix
      have hstart : (start s w memory prompt).agentMessages.length = memory.length + 2 := by
        simp [start]
      omega

end Paused

def deleteConfig : ToolApprovalConfig := ⟨true, some 60000000000, "reject"⟩

def deleteTool : Registered := ⟨.http "delete" "default", { type := "http", name := "delete" }⟩

/-- An agent with one tool, which asks for approval. -/
def cleaner : Agent where
  name := "cleaner"
  «namespace» := "default"
  hasModel := true
  dispatchesToEngine := false
  tools := ⟨fun _ => none, fun name => if name = "delete" then some deleteTool else none⟩
  approvalRequiredTools := fun name => if name = "delete" then some deleteConfig else none

def reporter : Agent where
  name := "reporter"
  «namespace» := "default"
  hasModel := true
  dispatchesToEngine := false
  tools := .new
  approvalRequiredTools := fun _ => none

/-- The cleaner's model calls the tool until it sees an answer; the reporter's model reports. -/
def cleaningEnv (name : String) : Env Unit where
  queryConversationId := ""
  resolvePrompt := .ok ""
  chat := fun w messages =>
    (if name = "cleaner" ∧ messages.all (fun m => !m.isTool) then
      .ok [⟨"", [⟨"call-1", "delete", ""⟩]⟩]
    else .ok [⟨"Done.", []⟩], w)
  engine := fun w _ _ => (.ok [], w)
  run := fun w _ call => (({ id := call.id, content := "deleted" }, none), w)
  cancelled := fun _ => false

def cleaningHandler : HandlerEnv Unit where
  agents := cleaningEnv
  selectors := cleaningEnv
  cancelled := fun _ => false
  parseTemplate := fun _ => .ok ()
  render := fun _ _ _ _ => .ok ""
  parseEngineTerminate := fun _ _ => none
  matchSelectedName := fun reply _ => .error reply
  getAgent := fun _ name =>
    if name = "cleaner" then .ok cleaner
    else if name = "reporter" then .ok reporter
    else .error "not found"
  printContent := ""

end HandlerEnv
end Ark
