import Mathlib.Data.List.Dedup
import Ark.AgentRuns

/-!
# Tool-complete conversations

A list of messages is tool-complete if every call of an assistant message is answered by exactly one
tool message before the next message of another kind, and every tool message answers such a call. The
agent loop keeps its message lists so, but it leaves a reply half-answered when one of its calls ends
the loop; what it returns then is tool-complete only if no call of the reply comes after that one.
-/

namespace Ark

/-- The ids that the tool messages after a message have to answer. -/
def Message.callIds : Message → List String
  | .assistant _ _ toolCalls => (toolCalls.map (·.id)).dedup
  | _ => []

/-- Whether the tool messages answer the pending ids, each once, before the next message of another
kind, and so on to the end. -/
def answersAll : List String → List Message → Bool
  | pending, [] => pending.isEmpty
  | pending, .tool _ id :: ms => pending.contains id && answersAll (pending.erase id) ms
  | pending, m :: ms => pending.isEmpty && answersAll m.callIds ms

def ToolComplete (ms : List Message) : Prop := answersAll [] ms = true

instance (ms : List Message) : Decidable (ToolComplete ms) :=
  inferInstanceAs (Decidable (answersAll [] ms = true))

variable {ms ms' : List Message} {pending : List String}

theorem answersAll_append (h : answersAll pending ms = true) (ys : List Message) :
    answersAll pending (ms ++ ys) = answersAll [] ys := by
  induction ms generalizing pending with
  | nil =>
    obtain rfl : pending = [] := by simpa [answersAll] using h
    rfl
  | cons m ms ih =>
    cases m with
    | tool content id =>
      simp only [answersAll, Bool.and_eq_true] at h
      simp only [List.cons_append, answersAll, h.1, Bool.true_and]
      exact ih h.2
    | system content | user content | assistant name content toolCalls =>
      simp only [answersAll, Bool.and_eq_true] at h
      simp only [List.cons_append, answersAll, h.1, Bool.true_and]
      exact ih h.2

theorem toolComplete_nil : ToolComplete [] := rfl

theorem ToolComplete.append (h : ToolComplete ms) (h' : ToolComplete ms') :
    ToolComplete (ms ++ ms') := by
  unfold ToolComplete
  rw [answersAll_append h]
  exact h'

theorem toolComplete_user (content : String) : ToolComplete [.user content] := rfl

theorem toolComplete_system (content : String) : ToolComplete [.system content] := rfl

theorem toolComplete_text (name : Option String) (content : String) :
    ToolComplete [.assistant name content []] := rfl

theorem answersAll_answers {answers : List Message} {ids : List String}
    (h : answers.map Message.answeredId = ids.map some) : answersAll ids answers = true := by
  induction answers generalizing ids with
  | nil =>
    obtain rfl : ids = [] := by simpa using h.symm
    rfl
  | cons m answers ih =>
    obtain ⟨id, ids, rfl⟩ : ∃ id ids', ids = id :: ids' := by
      cases ids with
      | nil => cases h
      | cons id ids => exact ⟨id, ids, rfl⟩
    obtain ⟨hm, hrest⟩ := List.cons.inj h
    cases m with
    | tool content id' =>
      obtain rfl := Option.some.inj hm
      simp [answersAll, ih hrest]
    | system | user | assistant => cases hm

/-- A reply followed by the answers to its calls, in their order. -/
theorem toolComplete_reply {name : Option String} {content : String} {toolCalls : List ToolCall}
    {answers : List Message} (hids : (toolCalls.map (·.id)).Nodup)
    (h : answers.map Message.answeredId = toolCalls.map fun call => some call.id) :
    ToolComplete (.assistant name content toolCalls :: answers) := by
  have hcalls : Message.callIds (.assistant name content toolCalls) = toolCalls.map (·.id) :=
    hids.dedup
  simp only [ToolComplete, answersAll, hcalls, List.isEmpty_nil, Bool.true_and]
  apply answersAll_answers
  rw [h, List.map_map]
  rfl

/-- A function that changes the names of assistant messages only. -/
def Renames (f : Message → Message) : Prop := ∀ m, f m = m ∨
  ∃ name name' content toolCalls, m = .assistant name content toolCalls ∧
    f m = .assistant name' content toolCalls

theorem answersAll_map {f : Message → Message} (hf : Renames f) (pending : List String)
    (ms : List Message) : answersAll pending (ms.map f) = answersAll pending ms := by
  induction ms generalizing pending with
  | nil => rfl
  | cons m ms ih =>
    rw [List.map_cons]
    cases hf m with
    | inl heq =>
      rw [heq]
      cases m <;> simp [answersAll, ih]
    | inr hname =>
      obtain ⟨name, name', content, toolCalls, rfl, heq⟩ := hname
      rw [heq]
      simp [answersAll, ih, Message.callIds]

theorem ToolComplete.map {f : Message → Message} (hf : Renames f) (h : ToolComplete ms) :
    ToolComplete (ms.map f) := by
  unfold ToolComplete
  rw [answersAll_map hf]
  exact h

theorem renames_withoutOwnAgentName (agentName : String) : Renames (withoutOwnAgentName agentName) := by
  intro m
  cases m with
  | assistant name content toolCalls => exact .inr ⟨name, _, content, toolCalls, rfl, rfl⟩
  | system | user | tool => exact .inl rfl

theorem renames_addAgentName (agentName : String) : Renames (TeamSpec.addAgentName agentName) := by
  intro m
  cases m with
  | assistant name content toolCalls => exact .inr ⟨name, _, content, toolCalls, rfl, rfl⟩
  | system | user | tool => exact .inl rfl

/-! ### The agent loop -/

def Event.SentComplete : Event → Prop
  | .sent messages => ToolComplete messages
  | _ => True

/-- What an agent's surroundings have to be like. The ids are as the model's interface and the executors
have them; that no call but the last one of a reply ends in a signal is for the model to keep. -/
structure Agent.Conforms {W : Type} (A : Agent) (env : Env W) : Prop where
  distinct_ids : ∀ w ms choice rest w', env.chat w ms = (.ok (choice :: rest), w') →
    (choice.toolCalls.map (·.id)).Nodup
  keeps_ids : env.KeepsIds
  request_ids : ∀ w executor call e, (env.run w executor call).1.2 = some (.approvalRequired e) →
    (e.toolCalls.map (·.id)).Nodup
  signals_last : ∀ w ms choice rest w', env.chat w ms = (.ok (choice :: rest), w') →
    A.SignalsLast env choice.toolCalls

/-- Both message lists of a loop are tool-complete, and so is all that was sent. -/
structure Progress.Complete {W : Type} (p : Progress W) : Prop where
  agentMessages : ToolComplete p.agentMessages
  newMessages : ToolComplete p.newMessages
  trace : ∀ e ∈ p.trace, e.SentComplete

namespace Agent

variable {W : Type} {A : Agent} {env : Env W} {p q : Progress W} {calls : List ToolCall}
variable {onToolError : ExecError → List Message → List Message} {n : ℕ}

theorem executeModelCall_complete (hp : p.Complete) : (A.executeModelCall env p).2.Complete := by
  constructor
  · rw [executeModelCall_messages.1]
    exact hp.agentMessages
  · rw [executeModelCall_messages.2]
    exact hp.newMessages
  · intro e he
    rw [executeModelCall_trace, List.mem_append, List.mem_singleton] at he
    cases he with
    | inl hold => exact hp.trace e hold
    | inr hsent =>
      rw [hsent]
      exact hp.agentMessages.map (renames_withoutOwnAgentName A.name)

theorem executeModelCall_choice {choice : Choice} (h : A.executeModelCall env p = (.ok choice, q)) :
    ∃ w ms rest w', env.chat w ms = (.ok (choice :: rest), w') := by
  unfold executeModelCall at h
  rcases hchat : env.chat p.world (p.agentMessages.map (withoutOwnAgentName A.name)) with
    ⟨e | ⟨_ | ⟨choice', rest⟩⟩, w'⟩
  · simp only [hchat] at h
    cases h
  · simp only [hchat] at h
    cases h
  · simp only [hchat] at h
    obtain ⟨hchoice, -⟩ := Prod.mk.inj h
    obtain rfl := Except.ok.inj hchoice
    exact ⟨_, _, rest, w', hchat⟩

/-- What a loop sends and returns. A signal leaves every call answered; a pause leaves the reply that
asked at the end, unless an executor asked. -/
structure LoopComplete (env : Env W) (onToolError : ExecError → List Message → List Message)
    (r : Outcome × Progress W) : Prop where
  trace : ∀ e ∈ r.2.trace, e.SentComplete
  finished : ∀ ms, r.1 = .returned (some ms) none → ToolComplete ms
  signal : ∀ ms e, r.1 = .returned (some ms) (some e) → e.isSignal = true →
    ∃ xs, ToolComplete xs ∧ ms = onToolError e xs
  request : ∀ ms e, r.1 = .returned ms (some (.approvalRequired e)) →
    (e.toolCalls.map (·.id)).Nodup
  paused : env.NoRequests → ∀ ms e, r.1 = .returned (some ms) (some (.approvalRequired e)) →
    ∃ xs m, ToolComplete xs ∧ ms = onToolError (.approvalRequired e) (xs ++ [m])

theorem loopComplete_of_running (h : ∀ e ∈ p.trace, e.SentComplete) :
    LoopComplete env onToolError (.running, p) := by
  constructor
  · exact h
  · intro ms hms
    cases hms
  · intro ms e hms
    cases hms
  · intro ms e hms
    cases hms
  · intro _ ms e hms
    cases hms

theorem loopComplete_of_failed (h : ∀ e ∈ p.trace, e.SentComplete) (ms : Option (List Message))
    {err : ExecError} (herr : err = .cancelled ∨ ∃ text, err = .failed text) :
    LoopComplete env onToolError (.returned ms (some err), p) := by
  constructor
  · exact h
  · intro ms hms
    cases hms
  · intro ms e hms hsignal
    obtain ⟨-, he⟩ := Outcome.returned.inj hms
    obtain rfl := Option.some.inj he
    obtain rfl | ⟨text, rfl⟩ := herr <;> cases hsignal
  · intro ms e hms
    obtain ⟨-, he⟩ := Outcome.returned.inj hms
    obtain rfl := Option.some.inj he
    obtain hcancelled | ⟨text, hfailed⟩ := herr
    · cases hcancelled
    · cases hfailed
  · intro _ ms e hms
    obtain ⟨-, he⟩ := Outcome.returned.inj hms
    obtain rfl := Option.some.inj he
    obtain hcancelled | ⟨text, hfailed⟩ := herr
    · cases hcancelled
    · cases hfailed

/-- A reply that is followed by the answers to all its calls. -/
theorem complete_reply (hA : A.Conforms env) {choice : Choice} (hp : p.Complete)
    (hids : (choice.toolCalls.map (·.id)).Nodup) {answers : List Message} {r : Progress W}
    (hanswers : A.Answers env choice.toolCalls (p.say (A.processAssistantMessage choice)) r answers)
    (hall : answers.length = choice.toolCalls.length) : r.Complete := by
  have hreply : ToolComplete (A.processAssistantMessage choice :: answers) := by
    apply toolComplete_reply hids
    rw [hanswers.ids hA.keeps_ids, hall, List.take_length]
  constructor
  · rw [hanswers.agentMessages]
    change ToolComplete (p.agentMessages ++ [_] ++ answers)
    rw [List.append_assoc]
    exact hp.agentMessages.append hreply
  · rw [hanswers.newMessages]
    change ToolComplete (p.newMessages ++ [_] ++ answers)
    rw [List.append_assoc]
    exact hp.newMessages.append hreply
  · intro e he
    rw [hanswers.trace] at he
    cases List.mem_append.mp he with
    | inl hold => exact hp.trace e hold
    | inr hexecuted =>
      obtain ⟨call, -, rfl⟩ := List.mem_map.mp hexecuted
      trivial

theorem loopComplete_of_finished (hp : p.Complete) :
    LoopComplete env onToolError (.returned (some p.newMessages) none, p) := by
  constructor
  · exact hp.trace
  · intro ms hms
    obtain ⟨hms, -⟩ := Outcome.returned.inj hms
    obtain rfl := Option.some.inj hms
    exact hp.newMessages
  · intro ms e hms
    cases hms
  · intro ms e hms
    cases hms
  · intro _ ms e hms
    cases hms

/-- A reply that asks is given up. -/
theorem loopComplete_of_asking {choice : Choice} (hp : p.Complete)
    (hids : (choice.toolCalls.map (·.id)).Nodup) {e : ApprovalRequiredError}
    (he : e.toolCalls = A.asking (A.processAssistantMessage choice)) :
    LoopComplete env onToolError
      (.returned (some (onToolError (.approvalRequired e)
        (p.say (A.processAssistantMessage choice)).newMessages)) (some (.approvalRequired e)),
        p.say (A.processAssistantMessage choice)) := by
  constructor
  · exact hp.trace
  · intro ms hms
    cases hms
  · intro ms e' hms hsignal
    obtain ⟨-, he'⟩ := Outcome.returned.inj hms
    obtain rfl := Option.some.inj he'
    cases hsignal
  · intro ms e' hms
    obtain ⟨-, he'⟩ := Outcome.returned.inj hms
    obtain rfl := ExecError.approvalRequired.inj (Option.some.inj he')
    rw [he]
    exact hids.sublist (List.filter_sublist.map _)
  · intro _ ms e' hms
    obtain ⟨hmessages, he'⟩ := Outcome.returned.inj hms
    obtain rfl := ExecError.approvalRequired.inj (Option.some.inj he')
    obtain rfl := Option.some.inj hmessages
    exact ⟨p.newMessages, A.processAssistantMessage choice, hp.newMessages, rfl⟩

/-- A call of the reply fails. -/
theorem loopComplete_of_error (hA : A.Conforms env) {choice : Choice} (hp : p.Complete)
    (hids : (choice.toolCalls.map (·.id)).Nodup) (hlast : A.SignalsLast env choice.toolCalls)
    {err : ExecError} {r : Progress W}
    (hrun : A.runToolCalls env choice.toolCalls (p.say (A.processAssistantMessage choice)) =
      (some err, r)) :
    LoopComplete env onToolError
      (.returned (some (onToolError err r.newMessages)) (some err), r) := by
  have hspec := @runToolCalls_answers _ A env (p.say (A.processAssistantMessage choice))
    choice.toolCalls
  have hrequest := fun e => @runToolCalls_request _ A env
    (p.say (A.processAssistantMessage choice)) choice.toolCalls e
  rw [hrun] at hspec hrequest
  obtain ⟨answers, hanswers, -, hsignal⟩ := hspec
  constructor
  · intro e he
    rw [hanswers.trace] at he
    cases List.mem_append.mp he with
    | inl hold => exact hp.trace e hold
    | inr hexecuted =>
      obtain ⟨call, -, rfl⟩ := List.mem_map.mp hexecuted
      trivial
  · intro ms hms
    cases hms
  · intro ms e hms hsig
    obtain ⟨hmessages, he⟩ := Outcome.returned.inj hms
    obtain rfl := Option.some.inj he
    obtain rfl := Option.some.inj hmessages
    have hall := hsignal hlast err rfl hsig
    exact ⟨r.newMessages, (complete_reply hA hp hids hanswers hall).newMessages, rfl⟩
  · intro ms e hms
    obtain ⟨-, he⟩ := Outcome.returned.inj hms
    obtain ⟨w, executor, call, hasks⟩ := hrequest e he
    exact hA.request_ids w executor call e hasks
  · intro hno ms e hms
    obtain ⟨-, he⟩ := Outcome.returned.inj hms
    obtain ⟨w, executor, call, hasks⟩ := hrequest e he
    exact absurd hasks (hno w executor call e)

/-- From tool-complete messages a loop sends tool-complete lists only. -/
theorem agenticLoop_complete (hA : A.Conforms env) (hp : p.Complete) :
    LoopComplete env onToolError (A.agenticLoop env onToolError n p) := by
  induction n generalizing p with
  | zero => exact loopComplete_of_running hp.trace
  | succ n ih =>
    cases agenticLoop_cases A env onToolError p with
    | inl hend =>
      obtain ⟨ms, e, q, -, -, hq, herr, hloop⟩ := hend
      rw [show A.agenticLoop env onToolError (n + 1) p = _ from hloop A.approvalRequiredTools n]
      apply loopComplete_of_failed _ _ herr
      cases hq with
      | inl hsame => exact hsame ▸ hp.trace
      | inr hsent => exact hsent ▸ (executeModelCall_complete hp).trace
    | inr hreply =>
      obtain ⟨choice, q, hcall, hloop⟩ := hreply
      have hq := @executeModelCall_complete _ A env p hp
      rw [hcall] at hq
      obtain ⟨w, ms, rest, w', hchat⟩ := executeModelCall_choice hcall
      have hids := hA.distinct_ids w ms choice rest w' hchat
      have hlast := hA.signals_last w ms choice rest w' hchat
      rw [show A.agenticLoop env onToolError (n + 1) p = _ from hloop A.approvalRequiredTools n]
      change LoopComplete env onToolError (A.afterReply env onToolError n choice
        (q.say (A.processAssistantMessage choice)))
      have hspec := @runToolCalls_answers _ A env (q.say (A.processAssistantMessage choice))
        choice.toolCalls
      by_cases hasking : A.asking (A.processAssistantMessage choice) = []
      · rw [afterReply_of_unasked hasking]
        split
        next hcalls =>
          apply loopComplete_of_finished
          obtain ⟨answers, hanswers, hall, -⟩ := hspec
          rw [hcalls] at hanswers hall
          exact complete_reply hA hq hids (hcalls ▸ hanswers) (hcalls ▸ hall rfl)
        next =>
          split
          next e r hr => exact loopComplete_of_error hA hq hids hlast hr
          next r hr =>
            rw [hr] at hspec
            obtain ⟨answers, hanswers, hall, -⟩ := hspec
            exact ih (complete_reply hA hq hids hanswers (hall rfl))
      · obtain ⟨e, he, -, -, hgate⟩ := @executeToolCalls_of_asking _ _ env _ hasking
        have hcalls : choice.toolCalls ≠ [] := by
          intro hnil
          apply hasking
          simp [asking, processAssistantMessage, hnil]
        unfold afterReply
        rw [if_neg hcalls, hgate]
        exact loopComplete_of_asking hq hids he

end Agent
end Ark
