import Ark.AgentTransparency
import Ark.Machine
import Ark.TeamComplete

/-!
# Conversations

Queries share a conversation in memory. A dispatch reads it at its start and hands what it adds to
`AddMessages` when it is over, so others may add to it in between. The conversation stays tool-complete
as long as every agent that is executed conforms and no executor of a resumed agent asks for approval.
-/

namespace Ark

variable {W : Type}

def ApprovalRequest.DistinctIds (request : ApprovalRequest) : Prop :=
  (request.toolCalls.map (·.id)).Nodup

/-- What a response hands on: messages to save, and perhaps a task. -/
structure ResponseComplete (r : DispatchResponse × List Message) : Prop where
  saved : ToolComplete r.2
  task : ∀ request, r.1 = .task request → request.DistinctIds

structure Dispatch.Complete (d : Dispatch W) : Prop where
  response : ResponseComplete (d.response, d.saved)
  trace : ∀ e ∈ d.trace, e.SentComplete

namespace ExecutionState

variable (s : ExecutionState)

theorem toolComplete_inputMessages : ToolComplete s.inputMessages := toolComplete_user s.input

theorem toolComplete_saveFinalMessages {messages : List Message} (h : ToolComplete messages)
    (isResumption : Bool) : ToolComplete (s.saveFinalMessages isResumption messages) := by
  unfold saveFinalMessages
  split
  next => exact toolComplete_nil
  next =>
    split
    next => exact h
    next => exact s.toolComplete_inputMessages.append h

theorem handleApprovalRequired_complete {e : ApprovalRequiredError}
    (he : (e.toolCalls.map (·.id)).Nodup) {saved : List Message} (hsaved : ToolComplete saved) :
    ResponseComplete (s.handleApprovalRequired e, saved) := by
  refine ⟨hsaved, fun request hrequest => ?_⟩
  unfold ApprovalRequest.DistinctIds
  rw [(HandlerEnv.task_of_handleApprovalRequired hrequest).1]
  exact he

end ExecutionState

theorem responseComplete_of_failed {text : String} {saved : List Message}
    (hsaved : ToolComplete saved) : ResponseComplete (.failed text, saved) := by
  refine ⟨hsaved, fun request hrequest => ?_⟩
  cases hrequest

namespace HandlerEnv

variable {H : HandlerEnv W} {s : ExecutionState} {n : ℕ} {w : W} {A : Agent}

theorem executeResponse_complete {ending : Ending TeamFailure ExecutionResult}
    (hvalue : ∀ r, ending = .ok r → ToolComplete r.messages)
    (herr : ∀ e, ending = .failed e → e.DistinctIds) :
    ResponseComplete (executeResponse s ending) := by
  cases ending with
  | running =>
    refine ⟨toolComplete_nil, fun request hrequest => ?_⟩
    cases hrequest
  | ok result =>
    refine ⟨s.toolComplete_saveFinalMessages (hvalue result rfl) false, fun request hrequest => ?_⟩
    cases hrequest
  | failed e =>
    dsimp only [executeResponse]
    split
    next a ha =>
      exact s.handleApprovalRequired_complete (herr e rfl a ha) s.toolComplete_inputMessages
    next =>
      apply responseComplete_of_failed
      exact s.toolComplete_inputMessages.append (toolComplete_text none _)

theorem execute_complete (h : s.target.Conforms H.toTeamEnv) {history : List Message}
    (hhistory : ToolComplete history) : (H.execute true n w s history).Complete := by
  have hrun := Member.execute_completes h n (.user s.input) history (toolComplete_user _) hhistory
  exact ⟨executeResponse_complete (hrun.value w) (hrun.err w), hrun.events w⟩

/-! ### Resumptions -/

variable (H) in
theorem decidedResults_ids (A : Agent) (w : W) (toolCalls : List ToolCall) (decision : Decision) :
    (H.decidedResults A w toolCalls decision).1.map (·.id) = toolCalls.map (·.id) := by
  cases decision with
  | approved =>
    have hids : ∀ p, (H.executeApprovedCalls A toolCalls p).1.map (·.id) = toolCalls.map (·.id) := by
      induction toolCalls with
      | nil => exact fun _ => rfl
      | cons call calls ih =>
        intro p
        unfold executeApprovedCalls approvedResult
        dsimp only
        rw [List.map_cons, List.map_cons, ih]
        split <;> rfl
    exact hids _
  | rejected timedOut =>
    dsimp only [decidedResults]
    rw [List.map_map]
    rfl

variable (H) in
theorem decidedResults_trace (A : Agent) (w : W) (toolCalls : List ToolCall)
    (decision : Decision) :
    ∀ e ∈ (H.decidedResults A w toolCalls decision).2.trace, e.SentComplete := by
  intro e he
  cases decision with
  | approved =>
    change e ∈ (H.executeApprovedCalls A toolCalls ⟨w, [], [], []⟩).2.trace at he
    rw [(H.executeApprovedCalls_spec A toolCalls ⟨w, [], [], []⟩).2, List.nil_append] at he
    obtain ⟨call, -, rfl⟩ := List.mem_map.mp he
    trivial
  | rejected timedOut => cases he

theorem resumeFromApproval_complete {env : Env W} (hA : A.Conforms env)
    {toolCalls : List ToolCall} (hcalls : (toolCalls.map (·.id)).Nodup)
    {approvedResults : List ToolResult}
    (hresults : approvedResults.map (·.id) = toolCalls.map (·.id))
    {memory : Except String (List Message)}
    (hmemory : ∀ stored, memory = .ok stored → ToolComplete stored)
    {originalInput : List Message} (hinput : ToolComplete originalInput) :
    Agent.LoopComplete env Agent.handleResumptionToolError
      (A.resumeFromApproval env n w toolCalls approvedResults memory originalInput) := by
  have hnil : ∀ e ∈ ([] : List Event), e.SentComplete := by
    intro e he
    cases he
  unfold Agent.resumeFromApproval Agent.reconstructMessagesForResumption
  split
  next =>
    cases memory with
    | error e => exact Agent.loopComplete_of_failed hnil _ (.inr ⟨_, rfl⟩)
    | ok stored =>
      have hreply : ToolComplete (.assistant none "" toolCalls ::
          approvedResults.map Agent.resultMessage) := by
        apply toolComplete_reply hcalls
        have hmapped := congrArg (List.map some) hresults
        rw [List.map_map, List.map_map] at hmapped
        rw [List.map_map]
        exact hmapped
      have hbase : ToolComplete (if stored = [] then originalInput else stored) := by
        split
        next => exact hinput
        next => exact hmemory stored rfl
      exact Agent.agenticLoop_complete hA ⟨hbase.append hreply, hreply, hnil⟩
  next => exact Agent.loopComplete_of_failed hnil _ (.inr ⟨_, rfl⟩)

theorem resumeResponse_complete {env : Env W} (hno : env.NoRequests) {outcome : Outcome}
    {q : Progress W}
    (h : Agent.LoopComplete env Agent.handleResumptionToolError (outcome, q)) :
    ResponseComplete (resumeResponse s outcome) := by
  unfold resumeResponse
  split
  next =>
    refine ⟨toolComplete_nil, fun request hrequest => ?_⟩
    cases hrequest
  next messages =>
    refine ⟨s.toolComplete_saveFinalMessages ?_ true, fun request hrequest => ?_⟩
    · cases messages with
      | none => exact toolComplete_nil
      | some ms => exact h.finished ms rfl
    · cases hrequest
  next messages e =>
    apply s.handleApprovalRequired_complete (h.request messages e rfl)
    cases messages with
    | none => exact toolComplete_nil
    | some ms =>
      -- the reply that asked is the last message, and it is dropped
      obtain ⟨xs, m, hxs, rfl⟩ := h.paused hno ms e rfl
      change ToolComplete (xs ++ [m]).dropLast
      rw [List.dropLast_concat]
      exact hxs
  next => exact responseComplete_of_failed toolComplete_nil

theorem resume_complete {memory : Except String (List Message)}
    (hmemory : ∀ stored, memory = .ok stored → ToolComplete stored) {request : ApprovalRequest}
    (hrequest : request.DistinctIds) (decision : Decision)
    (h : ∀ A, H.getAgent (s.resolveResumptionAgent request.context).2
      (s.resolveResumptionAgent request.context).1 = .ok A →
      A.Conforms (H.agents A.name) ∧ (H.agents A.name).NoRequests) :
    (H.resume n w s memory request decision).Complete := by
  have hfailed : ∀ text, Dispatch.Complete (W := W) ⟨.failed text, [], w, []⟩ := by
    intro text
    refine ⟨responseComplete_of_failed toolComplete_nil, fun e he => ?_⟩
    cases he
  unfold resume
  split
  next => exact hfailed _
  next =>
    dsimp only
    split
    next => exact hfailed _
    next A hagent =>
      obtain ⟨hA, hno⟩ := h A hagent
      have hresumed := resumeFromApproval_complete (n := n)
        (w := (H.decidedResults A w request.toolCalls decision).2.world) hA hrequest
        (H.decidedResults_ids A w request.toolCalls decision) hmemory s.toolComplete_inputMessages
      refine ⟨resumeResponse_complete hno hresumed, fun e he => ?_⟩
      obtain ⟨e', he', rfl⟩ := List.mem_map.mp he
      cases List.mem_append.mp he' with
      | inl hdecided => exact H.decidedResults_trace A w request.toolCalls decision e' hdecided
      | inr hloop => exact hresumed.trace e' hloop

end HandlerEnv

/-! ### Runs of a conversation -/

/-- A conversation in memory, with what dispatches that are over have still to save and the approval
requests that they made. It records what was sent to models. -/
structure Conversation where
  memory : List Message
  unsaved : List (List Message)
  requests : List ApprovalRequest
  sent : List (List Message)
  deriving DecidableEq, Repr

namespace Conversation

/-- A dispatch may fail to read the memory, and `AddMessages` may fail. -/
inductive Action (W : Type)
  | execute (H : HandlerEnv W) (n : ℕ) (w : W) (s : ExecutionState) (readable : Bool)
  | resume (H : HandlerEnv W) (n : ℕ) (w : W) (s : ExecutionState) (readable : Bool)
      (request : ApprovalRequest) (decision : Decision)
  | save (messages : List Message) (stored : Bool)

def sentMessages : TeamEvent → Option (List Message)
  | .agent _ (.sent messages) => some messages
  | _ => none

def requested : DispatchResponse → List ApprovalRequest
  | .task request => [request]
  | _ => []

/-- The dispatch is over. -/
def after (c : Conversation) (d : Dispatch W) : Conversation where
  memory := c.memory
  unsaved := if d.saved = [] then c.unsaved else c.unsaved ++ [d.saved]
  requests := c.requests ++ requested d.response
  sent := c.sent ++ d.trace.filterMap sentMessages

/-- A query that cannot read the conversation starts without it, a resumption fails. -/
def machine (W : Type) : Machine Conversation (Action W) where
  init c := ToolComplete c.memory ∧ c.unsaved = [] ∧ (∀ r ∈ c.requests, r.DistinctIds) ∧ c.sent = []
  step c
    | .execute H n w s readable =>
      some (c.after (H.execute true n w s (if readable then c.memory else [])))
    | .resume H n w s readable request decision =>
      if request ∈ c.requests then
        some (c.after (H.resume n w s (if readable then .ok c.memory else .error "") request
          decision))
      else none
    | .save messages stored =>
      if messages ∈ c.unsaved then
        some { c with
          memory := if stored then c.memory ++ messages else c.memory
          unsaved := c.unsaved.erase messages }
      else none

/-- The agents that a dispatch may execute conform; a resumed one has no executor that asks. -/
def Action.Conforms : Action W → Prop
  | .execute H _ _ s _ => s.target.Conforms H.toTeamEnv
  | .resume H _ _ s _ request _ => ∀ A,
    H.getAgent (s.resolveResumptionAgent request.context).2
      (s.resolveResumptionAgent request.context).1 = .ok A →
    A.Conforms (H.agents A.name) ∧ (H.agents A.name).NoRequests
  | .save _ _ => True

def Complete (c : Conversation) : Prop :=
  ToolComplete c.memory ∧ ∀ messages ∈ c.sent, ToolComplete messages

instance (c : Conversation) : Decidable c.Complete :=
  inferInstanceAs (Decidable (ToolComplete c.memory ∧ ∀ messages ∈ c.sent, ToolComplete messages))

/-- What a step keeps. -/
structure Invariant (c : Conversation) : Prop where
  memory : ToolComplete c.memory
  sent : ∀ messages ∈ c.sent, ToolComplete messages
  unsaved : ∀ messages ∈ c.unsaved, ToolComplete messages
  requests : ∀ request ∈ c.requests, request.DistinctIds

variable {c c' : Conversation} {d : Dispatch W}

theorem Invariant.after (h : c.Invariant) (hd : d.Complete) : (c.after d).Invariant := by
  constructor
  · exact h.memory
  · intro messages hmessages
    cases List.mem_append.mp hmessages with
    | inl hold => exact h.sent messages hold
    | inr hnew =>
      obtain ⟨e, he, hsent⟩ := List.mem_filterMap.mp hnew
      have hcomplete := hd.trace e he
      unfold sentMessages at hsent
      split at hsent
      next =>
        obtain rfl := Option.some.inj hsent
        exact hcomplete
      next => cases hsent
  · intro messages hmessages
    unfold Conversation.after at hmessages
    dsimp only at hmessages
    split at hmessages
    next => exact h.unsaved messages hmessages
    next =>
      cases List.mem_append.mp hmessages with
      | inl hold => exact h.unsaved messages hold
      | inr hnew =>
        rw [List.mem_singleton.mp hnew]
        exact hd.response.saved
  · intro request hrequest
    cases List.mem_append.mp hrequest with
    | inl hold => exact h.requests request hold
    | inr hnew =>
      unfold requested at hnew
      split at hnew
      next r hr =>
        rw [List.mem_singleton.mp hnew]
        exact hd.response.task r hr
      next => cases hnew

theorem Invariant.step {a : Action W} (h : c.Invariant) (ha : a.Conforms)
    (hstep : (machine W).step c a = some c') : c'.Invariant := by
  cases a with
  | execute H n w s readable =>
    obtain rfl := Option.some.inj hstep
    apply h.after
    apply HandlerEnv.execute_complete ha
    split
    next => exact h.memory
    next => exact toolComplete_nil
  | resume H n w s readable request decision =>
    simp only [machine] at hstep
    split at hstep
    next hrequest =>
      obtain rfl := Option.some.inj hstep
      apply h.after
      apply HandlerEnv.resume_complete _ (h.requests request hrequest) decision ha
      intro stored hstored
      split at hstored
      next =>
        obtain rfl := Except.ok.inj hstored
        exact h.memory
      next => cases hstored
    next => cases hstep
  | save messages stored =>
    simp only [machine] at hstep
    split at hstep
    next hmessages =>
      obtain rfl := Option.some.inj hstep
      refine ⟨?_, h.sent, fun ms hms => h.unsaved ms (List.mem_of_mem_erase hms), h.requests⟩
      dsimp only
      split
      next => exact h.memory.append (h.unsaved messages hmessages)
      next => exact h.memory
    next => cases hstep

theorem init_empty : (machine W).init ⟨[], [], [], []⟩ := by
  refine ⟨rfl, rfl, fun r hr => ?_, rfl⟩
  cases hr

theorem invariant_of_reachable (h : (machine W).Reachable (fun _ a => a.Conforms) c) :
    c.Invariant := by
  apply h.invariant
  · rintro c ⟨hmemory, hunsaved, hrequests, hsent⟩
    refine ⟨hmemory, ?_, ?_, hrequests⟩
    · rw [hsent]
      intro messages hmessages
      cases hmessages
    · rw [hunsaved]
      intro messages hmessages
      cases hmessages
  · exact fun c a c' hc ha hstep => hc.step ha hstep

def terminateTool : Registered := ⟨.terminate, { type := "builtin", name := "terminate" }⟩

/-- An agent that may terminate and may delete. -/
def quitter : Agent where
  name := "quitter"
  «namespace» := "default"
  hasModel := true
  dispatchesToEngine := false
  tools := ⟨fun _ => none, fun name => if name = "terminate" then some terminateTool
    else if name = "delete" then some HandlerEnv.deleteTool else none⟩
  approvalRequiredTools := fun _ => none

def quittingCalls : List ToolCall :=
  [⟨"call-1", "terminate", "\x7b\"response\": \"Bye.\"\x7d"⟩, ⟨"call-2", "delete", ""⟩]

/-- The model terminates first and then deletes. -/
def quittingHandler : HandlerEnv Unit :=
  { HandlerEnv.cleaningHandler with
    agents := fun _ =>
      { queryConversationId := ""
        resolvePrompt := .ok ""
        chat := fun w _ => (.ok [⟨"", quittingCalls⟩], w)
        engine := fun w _ _ => (.ok [], w)
        run := fun w executor call =>
          (if executor = .terminate then ({ id := call.id, content := "Bye." }, some .terminateTeam)
            else ({ id := call.id, content := "deleted" }, none), w)
        cancelled := fun _ => false } }

def quitting : ExecutionState := ⟨"default", .agent quitter "", "conversation", "Clean up."⟩

theorem cleaner_conforms : HandlerEnv.cleaner.Conforms (HandlerEnv.cleaningEnv "cleaner") := by
  have hchat : ∀ w ms choice rest w',
      (HandlerEnv.cleaningEnv "cleaner").chat w ms = (.ok (choice :: rest), w') →
      (choice.toolCalls.map (·.id)).Nodup := by
    intro w ms choice rest w' h
    simp only [HandlerEnv.cleaningEnv] at h
    split at h
    next =>
      cases h
      decide
    next =>
      cases h
      decide
  refine ⟨hchat, fun w executor call => rfl, fun w executor call e h => ?_, ?_⟩
  · cases h
  · intro w ms choice rest w' h before call after hcalls hafter w r e hr hrun
    cases hrun

def cleaning : ExecutionState :=
  ⟨"default", .agent HandlerEnv.cleaner "", "conversation", "Clean up."⟩

def cleaningRequest : ApprovalRequest where
  contextID := "conversation"
  toolCalls := [⟨"call-1", "delete", ""⟩]
  timeout := 60000000000
  onTimeout := "reject"
  context := ⟨"", 0, [], "cleaner", "default"⟩

end Conversation
end Ark
