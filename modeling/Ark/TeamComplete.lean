import Ark.ToolComplete

/-!
# Tool-complete runs of teams

A team hands its members what it was given and what earlier turns added. So it sends tool-complete
lists only, and returns such a list, if each of its agents conforms.
-/

namespace Ark

open Traced

variable {W : Type}

/-- Every agent that may be executed conforms, selectors included. -/
inductive Member.Conforms (env : TeamEnv W) : Member → Prop
  | agent {A : Agent} {description : String} (h : A.Conforms (env.agents A.name)) :
    Conforms env (.agent A description)
  | team {spec : TeamSpec} {selectorAgent : Except String SelectorAgent} {members : List Member}
    (hselector : ∀ selector, selectorAgent = .ok selector →
      (spec.selectingAgent selector).Conforms (env.selectors (spec.selectingAgent selector).name))
    (hmembers : ∀ m ∈ members, Conforms env m) : Conforms env (.team spec selectorAgent members)

def TeamEvent.SentComplete : TeamEvent → Prop
  | .agent _ e => e.SentComplete
  | _ => True

/-- The calls of an approval request have distinct ids. -/
def TeamFailure.DistinctIds (e : TeamFailure) : Prop :=
  ∀ a, e.err.cause = .approvalRequired a → (a.toolCalls.map (·.id)).Nodup

/-- A computation that sends tool-complete lists only and ends with `Q`. -/
abbrev TeamM.Completes {α : Type} (m : TeamM W α) (Q : α → Prop) : Prop :=
  m.Ensures TeamEvent.SentComplete Q TeamFailure.DistinctIds

/-! ### Agents -/

namespace Agent

variable {A : Agent} {env : Env W} {n : ℕ}

theorem toolComplete_texts {ms : List Message}
    (h : ∀ m ∈ ms, ∃ text, m = .assistant none text []) : ToolComplete ms := by
  induction ms with
  | nil => rfl
  | cons m ms ih =>
    obtain ⟨text, rfl⟩ := h m List.mem_cons_self
    have hrest := ih fun m hm => h m (List.mem_cons_of_mem _ hm)
    exact (toolComplete_text none text).append hrest

theorem executeAgent_complete (hA : A.Conforms env) (w : W) {userInput : Message}
    (hinput : ToolComplete [userInput]) {history : List Message} (hhistory : ToolComplete history) :
    LoopComplete env (fun _ ms => ms) (A.executeAgent env n w userInput history) := by
  cases executeAgent_cases A env w userInput history with
  | inl hend =>
    obtain ⟨ms, err, q, hq, hrun⟩ := hend
    rw [show A.executeAgent env n w userInput history = _ from hrun A.approvalRequiredTools n]
    have htrace : ∀ e ∈ q.trace, e.SentComplete := by
      intro e he
      rw [hq.trace] at he
      cases he
    cases hq.err with
    | inr hfailed =>
      obtain ⟨text, rfl⟩ := hfailed
      exact loopComplete_of_failed htrace ms (.inr ⟨text, rfl⟩)
    | inl hnone =>
      subst hnone
      refine ⟨htrace, ?_, ?_, ?_, ?_⟩
      · intro ms' hms
        obtain ⟨rfl, -⟩ := Outcome.returned.inj hms
        exact toolComplete_texts hq.texts
      · intro ms' e hms
        cases hms
      · intro ms' e hms
        cases hms
      · intro _ ms' e hms
        cases hms
  | inr hloop =>
    obtain ⟨prompt, -, hrun⟩ := hloop
    rw [show A.executeAgent env n w userInput history = _ from hrun A.approvalRequiredTools n]
    apply agenticLoop_complete hA
    refine ⟨?_, toolComplete_nil, ?_⟩
    · exact ((toolComplete_system prompt).append hhistory).append hinput
    · intro e he
      cases he

theorem ending_ok {o : Outcome} {r : ExecutionResult} (h : ending o = .ok r) :
    ∃ ms, r.messages = ms.getD [] ∧
      (o = .returned ms none ∨ ∃ e, e.isSignal = true ∧ o = .returned ms (some e)) := by
  cases o with
  | running => cases h
  | returned ms err =>
    refine ⟨ms, ?_⟩
    cases err with
    | none =>
      obtain rfl := Ending.ok.inj h
      exact ⟨rfl, .inl rfl⟩
    | some e =>
      cases e with
      | tool e =>
        cases e with
        | terminateTeam | selectionMade =>
          obtain rfl := Ending.ok.inj h
          exact ⟨rfl, .inr ⟨_, rfl, rfl⟩⟩
        | failed | approvalRequired => cases h
      | cancelled | failed | approvalRequired => cases h

theorem ending_failed {o : Outcome} {f : TeamFailure} (h : ending o = .failed f) :
    ∃ ms, o = .returned ms (some f.err.cause) := by
  cases o with
  | running => cases h
  | returned ms err =>
    refine ⟨ms, ?_⟩
    cases err with
    | none => cases h
    | some e =>
      cases e with
      | tool e =>
        cases e with
        | terminateTeam | selectionMade => cases h
        | failed | approvalRequired =>
          obtain rfl := Ending.failed.inj h
          rfl
      | cancelled | failed | approvalRequired =>
        obtain rfl := Ending.failed.inj h
        rfl

theorem execute_completes (hA : A.Conforms env) {userInput : Message}
    (hinput : ToolComplete [userInput]) {history : List Message} (hhistory : ToolComplete history) :
    (A.execute env true n userInput history).Completes fun r => ToolComplete r.messages := by
  have hrun := fun w => executeAgent_complete (n := n) hA w hinput hhistory
  constructor
  · intro w e he
    cases List.mem_append.mp he with
    | inl hevent =>
      obtain ⟨e', he', rfl⟩ := List.mem_map.mp hevent
      exact (hrun w).trace e' he'
    | inr hasked =>
      obtain ⟨m, -, rfl⟩ := List.mem_map.mp hasked
      trivial
  · intro w r hr
    obtain ⟨ms, hmessages, hend⟩ := ending_ok (o := (A.executeAgent env n w userInput history).1) hr
    rw [hmessages]
    cases ms with
    | none => exact toolComplete_nil
    | some ms =>
      cases hend with
      | inl hdone => exact (hrun w).finished ms hdone
      | inr hsignal =>
        obtain ⟨e, he, hdone⟩ := hsignal
        obtain ⟨xs, hxs, rfl⟩ := (hrun w).signal ms e hdone he
        exact hxs
  · intro w f hf a ha
    obtain ⟨ms, hend⟩ := ending_failed (o := (A.executeAgent env n w userInput history).1) hf
    rw [ha] at hend
    exact (hrun w).request ms a hend

end Agent

/-! ### Teams -/

theorem distinctIds_leaving {newMessages : List Message} {e : TeamFailure} (h : e.DistinctIds) :
    (TeamSpec.leaving newMessages e).DistinctIds := h

theorem distinctIds_of_failed {result : Option ExecutionResult} {context text : String} :
    (⟨result, ⟨context, .failed text⟩⟩ : TeamFailure).DistinctIds := by
  intro a ha
  cases ha

/-- The member's run ends tool-complete when its input is. -/
def MemberRun.Completes (execute : MemberRun W) (m : Member) : Prop :=
  ∀ userInput history, ToolComplete [userInput] → ToolComplete history →
    (execute m userInput history).Completes fun r => ToolComplete r.messages

/-- A selection ends with a member, or with tool-complete messages. -/
def SelectionComplete (members : List Member) : Except SelectionError Member → Prop
  | .ok m => m ∈ members
  | .error (.terminate response) => ToolComplete response
  | .error _ => True

structure Accumulated.Complete (t : Accumulated) : Prop where
  messages : ToolComplete t.messages
  newMessages : ToolComplete t.newMessages

namespace TeamSpec

variable (spec : TeamSpec) {env : TeamEnv W} {selectorAgent : Except String SelectorAgent}
variable {execute : MemberRun W} {cancelled : W → Bool} {members : List Member}
variable {userInput : Message} {history newMessages : List Message} {n : ℕ}

theorem toolComplete_teamMemberHistory (hhistory : ToolComplete history)
    (hinput : ToolComplete [userInput]) (hnew : ToolComplete newMessages) (turn : ℕ) :
    ToolComplete (teamMemberHistory history userInput newMessages turn) := by
  unfold teamMemberHistory
  split
  next => exact hhistory
  next => exact (hhistory.append hinput).append hnew

theorem toolComplete_memberTurnInput (hinput : ToolComplete [userInput]) (member : Member)
    (turn : ℕ) : ToolComplete [memberTurnInput userInput member turn] := by
  unfold memberTurnInput
  split
  next => exact hinput
  next => exact toolComplete_user _

theorem failIfCancelled_completes (newMessages : List Message) :
    (failIfCancelled cancelled newMessages).Completes fun _ => True := by
  apply (ensures_observe cancelled).bind
  intro stop _
  split
  next =>
    apply ensures_fail
    intro a ha
    cases ha
  next => exact ensures_pure trivial

theorem executeMemberAndAccumulate_completes {member : Member} (h : execute.Completes member)
    (hinput : ToolComplete [userInput]) {messages : List Message} (hmessages : ToolComplete messages)
    (hnew : ToolComplete newMessages) :
    (spec.executeMemberAndAccumulate execute member userInput messages newMessages).Completes
      Accumulated.Complete := by
  apply (ensures_emit trivial).bind
  intro _ _
  apply ((h userInput messages hinput hmessages).mapError fun e he => distinctIds_leaving he).bind
  intro result hresult
  have hnamed := hresult.map (renames_addAgentName member.name)
  exact ensures_pure ⟨hmessages.append hnamed, hnew.append hnamed⟩

theorem executeSequential_completes (h : ∀ m ∈ members, execute.Completes m)
    (hinput : ToolComplete [userInput]) (hhistory : ToolComplete history) (turn : ℕ)
    (hnew : ToolComplete newMessages) :
    (spec.executeSequential cancelled execute userInput history turn newMessages
      members).Completes ToolComplete := by
  induction members generalizing turn newMessages with
  | nil => exact ensures_pure hnew
  | cons member members ih =>
    apply (failIfCancelled_completes newMessages).bind
    intro _ _
    apply (executeMemberAndAccumulate_completes spec (h member List.mem_cons_self)
      (toolComplete_memberTurnInput hinput member turn)
      (toolComplete_teamMemberHistory hhistory hinput hnew turn) hnew).bind
    intro t ht
    split
    next => exact ensures_pure ht.newMessages
    next => exact ih (fun m hm => h m (List.mem_cons_of_mem _ hm)) (turn + 1) ht.newMessages

theorem executeSequentialWithLoops_completes (h : ∀ m ∈ members, execute.Completes m)
    (hinput : ToolComplete [userInput]) (hhistory : ToolComplete history)
    (bound messageCount memberIndex : ℕ) (hnew : ToolComplete newMessages) :
    (spec.executeSequentialWithLoops cancelled execute members userInput history bound messageCount
      memberIndex newMessages).Completes ToolComplete := by
  induction bound generalizing messageCount memberIndex newMessages with
  | zero => exact ensures_unfinished
  | succ bound ih =>
    apply (failIfCancelled_completes newMessages).bind
    intro _ _
    split
    next => exact ensures_pure (hnew.append (toolComplete_system _))
    next => exact ensures_fail distinctIds_of_failed
    next member _ hmember =>
      have hturn := executeMemberAndAccumulate_completes spec (h member (List.mem_of_getElem? hmember))
        (toolComplete_memberTurnInput hinput member messageCount)
        (toolComplete_teamMemberHistory hhistory hinput hnew messageCount) hnew
      refine (hturn.mapError ?_).bind ?_
      · intro e he
        exact he
      · intro t ht
        split
        next => exact ensures_pure ht.newMessages
        next => exact ih (messageCount + 1) ((memberIndex + 1) % members.length) ht.newMessages

/-! ### The selector strategy -/

theorem resolveSelectedMember_complete (selectedName : String) (members : List Member) :
    SelectionComplete members (resolveSelectedMember selectedName members) := by
  unfold resolveSelectedMember
  split
  next member hmember => exact List.mem_of_find?_eq_some hmember
  next => trivial

theorem resolveSelection_complete (engineBacked : Bool) {result : ExecutionResult}
    (h : ToolComplete result.messages) (members : List Member) :
    SelectionComplete members (spec.resolveSelection env engineBacked result members) := by
  unfold resolveSelection resolveEngineSelection
  split
  next =>
    split
    next =>
      dsimp only
      split
      next response _ =>
        change ToolComplete (if response ≠ "" then [.assistant none response []] else [])
        split
        next => exact toolComplete_text none response
        next => exact toolComplete_nil
      next =>
        split
        next => exact resolveSelectedMember_complete _ members
        next => trivial
    next => trivial
  next => exact resolveSelectedMember_complete _ members
  next =>
    change ToolComplete (if _ then result.messages else [])
    split
    next => exact h
    next => exact toolComplete_nil

theorem mem_of_legalTransitions {t : String × Member} (h : t ∈ spec.legalTransitions members) :
    t.2 ∈ members := by
  obtain ⟨edge, -, hedge⟩ := List.mem_filterMap.mp h
  obtain ⟨member, hmember, rfl⟩ := Option.map_eq_some_iff.mp hedge
  exact List.mem_reverse.mp (List.mem_of_find?_eq_some hmember)

variable (hselector : ∀ selector, selectorAgent = .ok selector →
  (spec.selectingAgent selector).Conforms (env.selectors (spec.selectingAgent selector).name))

include hselector

theorem selectMember_completes (messages : List Message) (template : String)
    (members : List Member) :
    (spec.selectMember env true selectorAgent n messages template members).Completes
      (SelectionComplete members) := by
  unfold selectMember
  split
  next => exact ensures_fail distinctIds_of_failed
  next => exact ensures_fail distinctIds_of_failed
  next prompt selector _ =>
    split
    next => exact ensures_pure toolComplete_nil
    next =>
      have hrun := fun system user => Agent.execute_completes (n := n) (hselector selector rfl)
        (toolComplete_user user) (toolComplete_system system)
      refine ((hrun _ _).mapError ?_).bind ?_
      · intro e he
        exact he
      · intro result hresult
        exact ensures_pure (resolveSelection_complete spec _ hresult members)

theorem determineNextMember_completes (messages : List Message)
    (template previousMember : String) :
    (spec.determineNextMember env true selectorAgent n members messages template
      previousMember).Completes (SelectionComplete members) := by
  have hselect := selectMember_completes (n := n) spec hselector messages template
  have hlegal : ∀ m ∈ ((spec.legalTransitions members).filter fun t =>
      t.1 = previousMember).map (·.2), m ∈ members := by
    intro m hm
    obtain ⟨t, ht, rfl⟩ := List.mem_map.mp hm
    exact mem_of_legalTransitions spec (List.mem_filter.mp ht).1
  unfold determineNextMember
  dsimp only
  split
  next => exact hselect members
  next =>
    split
    next => exact hselect members
    next =>
      split
      next => exact ensures_pure toolComplete_nil
      next member hone =>
        apply ensures_pure
        exact hlegal member (by rw [hone]; exact List.mem_singleton_self member)
      next =>
        apply (hselect _).weaken
        intro selection hselection
        cases selection with
        | ok m => exact hlegal m hselection
        | error e =>
          cases e with
          | invalidAgent | toolNotCalled => trivial
          | terminate response => exact hselection

theorem selectorTurns_completes (h : ∀ m ∈ members, execute.Completes m)
    (hinput : ToolComplete [userInput]) (template : String) (bound turn : ℕ)
    (previousMember : String) {messages : List Message} (hmessages : ToolComplete messages)
    (hnew : ToolComplete newMessages) :
    (spec.selectorTurns env true selectorAgent n execute members template userInput history bound
      turn previousMember messages newMessages).Completes ToolComplete := by
  induction bound generalizing turn previousMember messages newMessages with
  | zero => exact ensures_unfinished
  | succ bound ih =>
    refine ((determineNextMember_completes spec hselector _ template previousMember).mapError
      fun e he => distinctIds_leaving he).bind ?_
    intro next hnext
    split
    next e =>
      apply ensures_pure
      cases e with
      | invalidAgent => exact hnew.append (toolComplete_system _)
      | toolNotCalled => exact hnew.append (toolComplete_system _)
      | terminate response => exact hnew.append hnext
    next member =>
      apply (executeMemberAndAccumulate_completes spec (h member hnext) hinput hmessages hnew).bind
      intro t ht
      split
      next => exact ensures_pure ht.newMessages
      next =>
        split
        next ms hms =>
          apply ensures_pure
          obtain ⟨maxTurns, -, rfl⟩ := Option.map_eq_some_iff.mp hms
          exact ht.newMessages.append (toolComplete_system _)
        next => exact ih (turn + 1) member.name ht.messages ht.newMessages

theorem execute_completes (h : ∀ m ∈ members, execute.Completes m)
    (hinput : ToolComplete [userInput]) (hhistory : ToolComplete history) :
    (spec.execute env true selectorAgent n execute members userInput history).Completes
      fun r => ToolComplete r.messages := by
  unfold TeamSpec.execute execFunc executeSelector
  split
  next => exact ensures_fail distinctIds_of_failed
  next =>
    refine Ensures.bind ?_ fun messages hmessages => ensures_pure hmessages
    split
    next =>
      split
      next =>
        exact executeSequentialWithLoops_completes spec h hinput hhistory n 0 0 toolComplete_nil
      next => exact executeSequential_completes spec h hinput hhistory 0 toolComplete_nil
    next =>
      split
      next => exact ensures_fail (distinctIds_leaving distinctIds_of_failed)
      next =>
        exact selectorTurns_completes spec hselector h hinput _ n 0 "" hhistory toolComplete_nil
    next => exact ensures_fail distinctIds_of_failed

end TeamSpec

/-- The run of a member whose agents conform. -/
theorem Member.execute_completes {env : TeamEnv W} {m : Member} (h : m.Conforms env) (n : ℕ) :
    MemberRun.Completes (Member.execute env true n) m := by
  induction n generalizing m with
  | zero => exact fun _ _ _ _ => ensures_unfinished
  | succ n ih =>
    intro userInput history hinput hhistory
    cases h with
    | agent hA => exact Agent.execute_completes hA hinput hhistory
    | @team spec _ _ hselector hmembers =>
      exact spec.execute_completes hselector (fun m hm => ih (hmembers m hm)) hinput hhistory

end Ark
