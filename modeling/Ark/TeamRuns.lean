import Ark.AgentRuns

/-!
# Two runs of a team side by side

Two runs of one team that differ in their bounds or in whether approval settings count are related as
the runs of its agents are. So a larger bound extends the run of a team, and with approval settings it
stops where the run without them first asks.
-/

namespace Ark

open Traced

variable {W : Type}

/-- A relation in which the runs of one agent are related, whose bounds differ by `d` and which heed
approval settings or not as `b` and `b'` say. -/
structure Comparison (d : ℕ) (b b' : Bool)
    (R : ∀ {α : Type}, TeamM W α → TeamM W α → Prop) : Prop where
  congruence : Congruence TeamEvent.isAsked R
  unfinished : ∀ {α : Type} (m : TeamM W α), (d = 0 → m = unfinished) → R unfinished m
  agent : ∀ (A : Agent) (env : Env W) (n : ℕ) (userInput : Message) (history : List Message),
    R (A.execute env b n userInput history) (A.execute env b' (n + d) userInput history)

/-- A run is compared with the one that has a larger bound. -/
theorem comparison_extendedBy (d : ℕ) (approvals : Bool) :
    Comparison (W := W) d approvals approvals (ExtendedBy TeamEvent.isMark) where
  congruence := extendedBy_congruence _ _
  unfinished m _ := extendedBy_unfinished m
  agent _ _ _ _ _ := Agent.execute_extendedBy (Nat.le_add_right _ _) _ _ _

namespace TeamSpec

variable {d : ℕ} {b b' : Bool} {R : ∀ {α : Type}, TeamM W α → TeamM W α → Prop}
variable (C : Comparison d b b' R) (spec : TeamSpec) {env : TeamEnv W}
variable {selectorAgent : Except String SelectorAgent} {execute execute' : MemberRun W}
variable {cancelled : W → Bool} {members : List Member} {userInput : Message}
variable {history : List Message}

include C

theorem failIfCancelled_congr (newMessages : List Message) :
    R (failIfCancelled cancelled newMessages) (failIfCancelled cancelled newMessages) := by
  apply C.congruence.bind (C.congruence.observe _)
  intro stop
  split
  next => exact C.congruence.fail _
  next => exact C.congruence.pure _

variable (h : ∀ member userInput history,
  R (execute member userInput history) (execute' member userInput history))

include h

theorem executeMemberAndAccumulate_congr (member : Member) (userInput : Message)
    (messages newMessages : List Message) :
    R (spec.executeMemberAndAccumulate execute member userInput messages newMessages)
      (spec.executeMemberAndAccumulate execute' member userInput messages newMessages) := by
  apply C.congruence.bind (C.congruence.emit _ rfl)
  intro _
  apply C.congruence.bind (C.congruence.mapError _ (h member userInput messages))
  intro _
  exact C.congruence.pure _

theorem executeSequential_congr (turn : ℕ) (newMessages : List Message) (members : List Member) :
    R (spec.executeSequential cancelled execute userInput history turn newMessages members)
      (spec.executeSequential cancelled execute' userInput history turn newMessages members) := by
  induction members generalizing turn newMessages with
  | nil => exact C.congruence.pure _
  | cons member members ih =>
    apply C.congruence.bind (failIfCancelled_congr C _)
    intro _
    apply C.congruence.bind (executeMemberAndAccumulate_congr C spec h _ _ _ _)
    intro t
    split
    next => exact C.congruence.pure _
    next => exact ih _ _

theorem executeSequentialWithLoops_congr (bound messageCount memberIndex : ℕ)
    (newMessages : List Message) :
    R (spec.executeSequentialWithLoops cancelled execute members userInput history bound
        messageCount memberIndex newMessages)
      (spec.executeSequentialWithLoops cancelled execute' members userInput history (bound + d)
        messageCount memberIndex newMessages) := by
  induction bound generalizing messageCount memberIndex newMessages with
  | zero =>
    apply C.unfinished
    intro hd
    rw [hd]
    rfl
  | succ bound ih =>
    rw [Nat.add_right_comm]
    apply C.congruence.bind (failIfCancelled_congr C _)
    intro _
    split
    next => exact C.congruence.pure _
    next => exact C.congruence.fail _
    next member _ _ =>
      apply C.congruence.bind
        (C.congruence.mapError _ (executeMemberAndAccumulate_congr C spec h _ _ _ _))
      intro t
      split
      next => exact C.congruence.pure _
      next => exact ih _ _ _

omit h

theorem selectMember_congr (n : ℕ) (messages : List Message) (template : String)
    (members : List Member) :
    R (spec.selectMember env b selectorAgent n messages template members)
      (spec.selectMember env b' selectorAgent (n + d) messages template members) := by
  unfold selectMember
  split
  next => exact C.congruence.fail _
  next => exact C.congruence.fail _
  next =>
    split
    next => exact C.congruence.pure _
    next =>
      apply C.congruence.bind (C.congruence.mapError _ (C.agent _ _ _ _ _))
      intro _
      exact C.congruence.pure _

theorem determineNextMember_congr (n : ℕ) (messages : List Message)
    (template previousMember : String) :
    R (spec.determineNextMember env b selectorAgent n members messages template previousMember)
      (spec.determineNextMember env b' selectorAgent (n + d) members messages template
        previousMember) := by
  have hselect := fun members => @selectMember_congr _ _ _ _ _ C spec env selectorAgent n messages
    template members
  unfold determineNextMember
  dsimp only
  split
  next => exact hselect _
  next =>
    split
    next => exact hselect _
    next =>
      split
      next => exact C.congruence.pure _
      next => exact C.congruence.pure _
      next => exact hselect _

include h

theorem selectorTurns_congr (n bound turn : ℕ) (template previousMember : String)
    (messages newMessages : List Message) :
    R (spec.selectorTurns env b selectorAgent n execute members template userInput history bound
        turn previousMember messages newMessages)
      (spec.selectorTurns env b' selectorAgent (n + d) execute' members template userInput history
        (bound + d) turn previousMember messages newMessages) := by
  induction bound generalizing turn previousMember messages newMessages with
  | zero =>
    apply C.unfinished
    intro hd
    rw [hd]
    rfl
  | succ bound ih =>
    rw [Nat.add_right_comm]
    apply C.congruence.bind (C.congruence.mapError _ (determineNextMember_congr C spec n _ _ _))
    intro next
    split
    next => exact C.congruence.pure _
    next member =>
      apply C.congruence.bind (executeMemberAndAccumulate_congr C spec h _ _ _ _)
      intro t
      split
      next => exact C.congruence.pure _
      next =>
        split
        next => exact C.congruence.pure _
        next => exact ih _ _ _ _

theorem execFunc_congr (n : ℕ) :
    R (spec.execFunc env b selectorAgent n execute members userInput history)
      (spec.execFunc env b' selectorAgent (n + d) execute' members userInput history) := by
  unfold execFunc
  split
  next =>
    split
    next => exact executeSequentialWithLoops_congr C spec h n 0 0 []
    next => exact executeSequential_congr C spec h 0 [] members
  next =>
    unfold executeSelector
    split
    next => exact C.congruence.fail _
    next => exact selectorTurns_congr C spec h n n 0 _ _ _ _
  next => exact C.congruence.fail _

theorem execute_congr (n : ℕ) :
    R (spec.execute env b selectorAgent n execute members userInput history)
      (spec.execute env b' selectorAgent (n + d) execute' members userInput history) := by
  unfold TeamSpec.execute
  split
  next => exact C.congruence.fail _
  next =>
    apply C.congruence.bind (execFunc_congr C spec h n)
    intro _
    exact C.congruence.pure _

end TeamSpec

namespace Member

variable {d : ℕ} {b b' : Bool} {R : ∀ {α : Type}, TeamM W α → TeamM W α → Prop}

/-- The runs of a member are related as those of agents are. -/
theorem execute_congr (C : Comparison d b b' R) (env : TeamEnv W) (n : ℕ) (M : Member)
    (userInput : Message) (history : List Message) :
    R (M.execute env b n userInput history) (M.execute env b' (n + d) userInput history) := by
  induction n generalizing M userInput history with
  | zero =>
    apply C.unfinished
    intro hd
    rw [hd]
    rfl
  | succ n ih =>
    rw [Nat.add_right_comm]
    cases M with
    | agent A description => exact C.agent A _ n userInput history
    | team spec selectorAgent members => exact TeamSpec.execute_congr C spec ih n

theorem execute_extendedBy {n m : ℕ} (h : n ≤ m) (approvals : Bool) (env : TeamEnv W) (M : Member)
    (userInput : Message) (history : List Message) :
    (M.execute env approvals n userInput history).ExtendedBy TeamEvent.isMark
      (M.execute env approvals m userInput history) := by
  obtain ⟨d, rfl⟩ := Nat.exists_eq_add_of_le h
  exact execute_congr (comparison_extendedBy d approvals) env n M userInput history

theorem execute_stopsAt (n : ℕ) (env : TeamEnv W) (M : Member) (userInput : Message)
    (history : List Message) :
    (M.execute env true n userInput history).StopsAt TeamEvent.isAsked TeamEvent.isTurn
      (M.execute env false n userInput history) := by
  have C : Comparison (W := W) 0 true false (StopsAt TeamEvent.isAsked TeamEvent.isTurn) := by
    constructor
    · exact stopsAt_congruence _ _
    · intro α m hm
      rw [hm rfl]
      exact stopsAt_unfinished
    · intro A env n userInput history
      exact Agent.execute_stopsAt _ _
  exact execute_congr C env n M userInput history

end Member
end Ark
