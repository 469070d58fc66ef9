import Ark.TeamGraph
import Ark.TeamRuns

/-!
# The shape of a team's run

Whatever its members and its selector do, a team that admission has let through after its defaults
takes turns in a shape that its strategy sets: the members in order, that order over and over, or a
walk along the edges of the graph. A run ends if the executions of its members do. The loop over the
members looks at `maxTurns` before a turn and the selector's loop after it, so that a selector's team
takes one turn even if it may take none.
-/

namespace Ark

open Traced

/-- `DefaultTeam`, but for the annotations that it leaves. -/
def TeamCRD.defaultTeam (team : TeamCRD) : TeamCRD :=
  if team.strategy = "round-robin" then
    { team with strategy := "sequential", loops := some team.maxTurns.isSome }
  else if team.strategy = "graph" then
    { team with strategy := "sequential", loops := some false, graph := none, maxTurns := none }
  else team

/-! ### The turns of a computation -/

def TeamEvent.turnOf : TeamEvent → Option String
  | .turn _ member _ _ => some member
  | _ => none

section Turns

variable {W α β : Type}

/-- The members whose turns a computation starts. -/
def turnsOf (m : TeamM W α) (w : W) : List String := (m w).trace.filterMap TeamEvent.turnOf

/-- What the members do, without the events of their own runs. -/
def quietly (execute : MemberRun W) : MemberRun W := fun member userInput history w =>
  { execute member userInput history w with trace := [] }

def Ends (m : TeamM W α) (w : W) : Prop := (m w).ending ≠ .running

variable {m : TeamM W α} {f : α → TeamM W β} {w : W}

theorem turnsOf_bind_ok {v : α} (h : (m w).ending = .ok v) :
    turnsOf (m >>= f) w = turnsOf m w ++ turnsOf (f v) (m w).world := by
  unfold turnsOf
  rw [bind_ok h, List.filterMap_append]

/-- The turns of a sequence are those of its first part, with the rest or without. -/
theorem turnsOf_bind {P : List String → Prop} (hm : P (turnsOf m w))
    (hf : ∀ v, (m w).ending = .ok v → P (turnsOf m w ++ turnsOf (f v) (m w).world)) :
    P (turnsOf (m >>= f) w) := by
  cases hend : (m w).ending with
  | running =>
    rw [turnsOf, bind_running hend]
    exact hm
  | failed err =>
    rw [turnsOf, bind_failed hend]
    exact hm
  | ok v =>
    rw [turnsOf_bind_ok hend]
    exact hf v hend

theorem turnsOf_mapError (g : TeamFailure → TeamFailure) :
    turnsOf (mapError g m) w = turnsOf m w := by
  unfold turnsOf
  rw [mapError_trace]

theorem turnsOf_eq_nil (h : ∀ e ∈ (m w).trace, e.isTurn = false) : turnsOf m w = [] := by
  apply List.filterMap_eq_nil_iff.mpr
  intro e he
  cases e with
  | turn team member input history => cases h _ he
  | agent name e => rfl
  | asked agent calls => rfl

theorem Ends.bind (h : Ends m w) (hf : ∀ v, (m w).ending = .ok v → Ends (f v) (m w).world) :
    Ends (m >>= f) w := by
  unfold Ends
  cases hm : (m w).ending with
  | running => exact absurd hm h
  | failed err =>
    rw [bind_failed hm]
    nofun
  | ok v =>
    rw [bind_ok hm]
    exact hf v hm

theorem Ends.mapError (h : Ends m w) (g : TeamFailure → TeamFailure) :
    Ends (Traced.mapError g m) w := fun hrun => h (mapError_running.mp hrun)

theorem ends_pure (v : α) (w : W) : Ends (pure v) w := nofun

theorem ends_fail (e : TeamFailure) (w : W) : Ends (fail e : TeamM W α) w := nofun

end Turns

/-! ### Runs -/

/-- What a run of a team depends on: how its selector and its members behave, the members, and what
the team is given. -/
structure TeamRun (W : Type) where
  env : TeamEnv W
  approvals : Bool
  selectorAgent : Except String SelectorAgent
  execute : MemberRun W
  members : List Member
  userInput : Message
  history : List Message
  start : W

namespace TeamRun

variable {W : Type} (r : TeamRun W) (spec : TeamSpec)

def outcome (n : ℕ) : TracedResult W TeamEvent TeamFailure ExecutionResult :=
  spec.execute r.env r.approvals r.selectorAgent n r.execute r.members r.userInput r.history r.start

/-- The members that the team itself executes. -/
def turns (n : ℕ) : List String :=
  turnsOf (spec.execute r.env r.approvals r.selectorAgent n (quietly r.execute) r.members r.userInput
    r.history) r.start

def MembersEnd : Prop := ∀ member ∈ r.members, ∀ userInput history w,
  Ends (r.execute member userInput history) w

/-- The selector selects, terminates or fails. -/
def SelectorAnswers : Prop := ∀ selector, r.selectorAgent = .ok selector →
  ∀ userInput history w, ∃ n, Ends ((spec.selectingAgent selector).execute
    (r.env.selectors (spec.selectingAgent selector).name) r.approvals n userInput history) w

/-- The run ends, however far it is followed from some bound on. -/
def Terminates : Prop := ∃ n, ∀ m, n ≤ m → (r.outcome spec m).ending ≠ .running

end TeamRun

/-- The shape that a team's strategy gives to the turns of its members `names`. -/
structure TeamSpec.Shape (spec : TeamSpec) (names turns : List String) : Prop where
  sequential : spec.strategy = "sequential" → spec.loops = false → turns <+: names
  loops : spec.strategy = "sequential" → spec.loops = true →
    ∃ rounds, turns <+: (List.replicate rounds names).flatten
  selector : spec.strategy = "selector" → ∀ name ∈ turns, name ∈ names
  graph : spec.strategy = "selector" → ∀ edges, spec.graph = some edges →
    turns.IsChain fun previous next => ⟨previous, next⟩ ∈ edges
  maxTurns : ∀ k, spec.maxTurns = some k → (turns.length : ℤ) ≤ k
  unbounded : spec.maxTurns = none → turns.length ≤ names.length

namespace TeamCRD

/-- What the declared members are loaded as: objects of these names, and no object has an empty one. -/
def Loads (team : TeamCRD) (members : List Member) : Prop :=
  members.map (·.name) = team.members.map (·.name) ∧ ∀ m ∈ team.members, m.name ≠ ""

/-- Every run keeps the shape and ends if the executions of its members do. -/
def RunsInShape (s : TeamStore) (team : TeamCRD) : Prop :=
  ∀ (W : Type) (r : TeamRun W), team.Loads r.members →
    (∀ n, (team.spec s.namespace).Shape (team.members.map (·.name))
      (r.turns (team.spec s.namespace) n)) ∧
    (r.MembersEnd → r.SelectorAnswers (team.spec s.namespace) →
      r.Terminates (team.spec s.namespace))

/-- A turn is allowed wherever one is taken. -/
def AllowsTurns (team : TeamCRD) : Prop := ∀ k, team.maxTurns = some k →
  0 ≤ k ∧ (team.strategy = "selector" → team.members ≠ [] → 0 < k)

end TeamCRD

namespace TeamSpec

variable {W : Type} (spec : TeamSpec) {execute : MemberRun W} {cancelled : W → Bool}
variable {members : List Member} {userInput : Message} {history : List Message}

/-! ### The turns of the loops -/

theorem turnsOf_failIfCancelled (newMessages : List Message) (w : W) :
    turnsOf (failIfCancelled cancelled newMessages) w = [] := by
  apply turnsOf_eq_nil
  intro e he
  have hcancelled : (observe cancelled w : TracedResult W TeamEvent TeamFailure Bool).ending =
      .ok (cancelled w) := rfl
  unfold failIfCancelled at he
  rw [bind_ok hcancelled] at he
  split at he <;> cases he

theorem turnsOf_executeMemberAndAccumulate (member : Member) (input : Message)
    (messages newMessages : List Message) (w : W) :
    turnsOf (spec.executeMemberAndAccumulate (quietly execute) member input messages newMessages) w =
      [member.name] := by
  apply turnsOf_bind (P := (· = [member.name])) rfl
  intro _ _
  apply turnsOf_bind (P := fun turns => _ ++ turns = [member.name])
  · rw [turnsOf_mapError]
    rfl
  · intro _ _
    rw [turnsOf_mapError]
    rfl

theorem turnsOf_executeSequential (turn : ℕ) (newMessages : List Message) (members : List Member)
    (w : W) : turnsOf (spec.executeSequential cancelled (quietly execute) userInput history turn
      newMessages members) w <+: members.map (·.name) := by
  induction members generalizing turn newMessages w with
  | nil => exact List.nil_prefix
  | cons member members ih =>
    apply turnsOf_bind (P := (· <+: _))
    · rw [turnsOf_failIfCancelled]
      exact List.nil_prefix
    intro _ _
    rw [turnsOf_failIfCancelled, List.nil_append]
    apply turnsOf_bind (P := (· <+: _))
    · rw [turnsOf_executeMemberAndAccumulate]
      exact List.prefix_append _ _
    intro t _
    rw [turnsOf_executeMemberAndAccumulate, List.map_cons]
    apply (List.prefix_append_right_inj _).mpr
    split
    next => exact List.nil_prefix
    next => exact ih _ _ _

/-- The rest of the round, and then whole rounds. -/
theorem turnsOf_executeSequentialWithLoops (bound messageCount : ℕ) {memberIndex : ℕ}
    (hindex : memberIndex < members.length) (newMessages : List Message) (w : W) :
    turnsOf (spec.executeSequentialWithLoops cancelled (quietly execute) members userInput history
      bound messageCount memberIndex newMessages) w <+:
        (members.map (·.name)).drop memberIndex ++
          (List.replicate bound (members.map (·.name))).flatten := by
  induction bound generalizing messageCount memberIndex newMessages w with
  | zero => exact List.nil_prefix
  | succ bound ih =>
    rw [executeSequentialWithLoops, List.getElem?_eq_getElem hindex]
    have hcurrent : (members.map (·.name)).drop memberIndex =
        members[memberIndex].name :: (members.map (·.name)).drop (memberIndex + 1) := by
      rw [List.drop_eq_getElem_cons (by simpa using hindex), List.getElem_map]
    have hnext : (members.map (·.name)).drop ((memberIndex + 1) % members.length) ++
        (List.replicate bound (members.map (·.name))).flatten <+:
          (members.map (·.name)).drop (memberIndex + 1) ++
            (List.replicate (bound + 1) (members.map (·.name))).flatten := by
      by_cases hlast : memberIndex + 1 < members.length
      · rw [Nat.mod_eq_of_lt hlast, List.replicate_succ']
        simp
      · have hlength : memberIndex + 1 = members.length := by omega
        rw [hlength, Nat.mod_self, List.drop_zero, List.drop_of_length_le (by simp),
          List.replicate_succ]
        exact List.prefix_rfl
    apply turnsOf_bind (P := (· <+: _))
    · rw [turnsOf_failIfCancelled]
      exact List.nil_prefix
    intro _ _
    rw [turnsOf_failIfCancelled, List.nil_append]
    split
    next => exact List.nil_prefix
    next hmember => cases hmember
    next member _ hmember =>
      obtain rfl := Option.some.inj hmember
      rw [hcurrent]
      apply turnsOf_bind (P := (· <+: _))
      · rw [turnsOf_mapError, turnsOf_executeMemberAndAccumulate]
        exact List.prefix_append _ _
      intro t _
      rw [turnsOf_mapError, turnsOf_executeMemberAndAccumulate, List.cons_append]
      apply (List.prefix_append_right_inj [members[memberIndex].name]).mpr
      split
      next => exact List.nil_prefix
      next =>
        have hlt : (memberIndex + 1) % members.length < members.length :=
          Nat.mod_lt _ (by omega)
        exact (ih _ hlt _ _).trans hnext

theorem rounds_executeSequentialWithLoops (bound : ℕ) (hmembers : members ≠ []) (w : W) :
    turnsOf (spec.executeSequentialWithLoops cancelled (quietly execute) members userInput history
      bound 0 0 []) w <+: (List.replicate (bound + 1) (members.map (·.name))).flatten := by
  rw [List.replicate_succ, List.flatten_cons]
  exact spec.turnsOf_executeSequentialWithLoops bound 0 (List.length_pos_iff.mpr hmembers) [] w

theorem length_executeSequentialWithLoops {k : ℤ} (hmax : spec.maxTurns = some k)
    (bound messageCount memberIndex : ℕ) (newMessages : List Message) (w : W)
    (hcount : (messageCount : ℤ) ≤ k) :
    ((turnsOf (spec.executeSequentialWithLoops cancelled (quietly execute) members userInput history
      bound messageCount memberIndex newMessages) w).length : ℤ) ≤ k - messageCount := by
  induction bound generalizing messageCount memberIndex newMessages w with
  | zero => exact Int.sub_nonneg.mpr hcount
  | succ bound ih =>
    have hrest : (([] : List String).length : ℤ) ≤ k - messageCount := Int.sub_nonneg.mpr hcount
    apply turnsOf_bind (P := fun turns => (turns.length : ℤ) ≤ _)
    · rw [turnsOf_failIfCancelled]
      exact hrest
    intro _ _
    rw [turnsOf_failIfCancelled, List.nil_append]
    split
    next => exact hrest
    next => exact hrest
    next member hopen _ =>
      have hlt : (messageCount : ℤ) + 1 ≤ k := by
        rw [hmax, Option.filter_some_eq_none] at hopen
        simp at hopen
        omega
      apply turnsOf_bind (P := fun turns => (turns.length : ℤ) ≤ _)
      · rw [turnsOf_mapError, turnsOf_executeMemberAndAccumulate, List.length_singleton]
        push_cast
        omega
      intro t _
      rw [turnsOf_mapError, turnsOf_executeMemberAndAccumulate, List.length_append,
        List.length_singleton]
      have hcount' : ((messageCount + 1 : ℕ) : ℤ) ≤ k := by
        push_cast
        exact hlt
      split
      next =>
        change ((1 + 0 : ℕ) : ℤ) ≤ _
        push_cast
        omega
      next =>
        rw [Int.natCast_add, Int.add_comm]
        apply Int.add_le_of_le_sub_right
        refine (ih _ _ _ _ hcount').trans ?_
        push_cast
        omega

/-! ### The turns of the selector's loop -/

variable {env : TeamEnv W} {approvals : Bool} {selectorAgent : Except String SelectorAgent}

theorem mem_of_resolveSelectedMember {selectedName : String} {member : Member}
    (h : resolveSelectedMember selectedName members = .ok member) : member ∈ members := by
  unfold resolveSelectedMember at h
  split at h
  next hfound =>
    obtain rfl := Except.ok.inj h
    exact List.mem_of_find?_eq_some hfound
  next => cases h

theorem mem_of_resolveSelection {engineBacked : Bool} {result : ExecutionResult} {member : Member}
    (h : spec.resolveSelection env engineBacked result members = .ok member) : member ∈ members := by
  unfold resolveSelection at h
  split at h
  next =>
    split at h
    next =>
      unfold resolveEngineSelection at h
      dsimp only at h
      split at h
      next => cases h
      next =>
        split at h
        next => exact mem_of_resolveSelectedMember h
        next => cases h
    next => cases h
  next => exact mem_of_resolveSelectedMember h
  next => cases h

/-- A selection starts no turn and selects a candidate. -/
theorem selectMember_ensures (n : ℕ) (messages : List Message) (template : String) :
    (spec.selectMember env approvals selectorAgent n messages template members).Ensures
      (·.isTurn = false) (fun v => ∀ member, v = .ok member → member ∈ members) fun _ => True := by
  unfold selectMember
  split
  next => exact ensures_fail trivial
  next => exact ensures_fail trivial
  next selector _ _ =>
    split
    next => exact ensures_pure nofun
    next =>
      have hexecute (A : Agent) (env : Env W) (input : Message) (history : List Message) :
          (A.execute env approvals n input history).Ensures (·.isTurn = false) (fun _ => True)
            fun _ => True :=
        ⟨fun w e he => A.execute_turns approvals input history w e he, fun _ _ _ => trivial,
          fun _ _ _ => trivial⟩
      apply (((hexecute _ _ _ _).mapError fun _ _ => trivial)).bind
      intro result _
      exact ensures_pure fun member h => spec.mem_of_resolveSelection h

theorem mem_memberLookup {name : String} {member : Member}
    (h : memberLookup members name = some member) : member ∈ members ∧ member.name = name := by
  refine ⟨List.mem_reverse.mp (List.mem_of_find?_eq_some h), ?_⟩
  simpa using List.find?_some h

theorem mem_legalTransitions {t : String × Member} (h : t ∈ spec.legalTransitions members) :
    t.2 ∈ members ∧ ∃ edges, spec.graph = some edges ∧ ⟨t.1, t.2.name⟩ ∈ edges := by
  obtain ⟨edge, hedge, hlookup⟩ := List.mem_filterMap.mp h
  obtain ⟨member, hmember, rfl⟩ := Option.map_eq_some_iff.mp hlookup
  obtain ⟨hmem, hname⟩ := mem_memberLookup hmember
  refine ⟨hmem, ?_⟩
  cases hgraph : spec.graph with
  | none =>
    rw [hgraph] at hedge
    cases hedge
  | some edges =>
    rw [hgraph] at hedge
    exact ⟨edges, rfl, by rw [hname]; exact hedge⟩

/-- A member that comes next is one of the team's, and one to which an edge leads if edges bind. -/
structure Follows (members : List Member) (previousMember : String) (member : Member) : Prop where
  mem : member ∈ members
  edge : spec.legalTransitions members ≠ [] → previousMember ≠ "" →
    (previousMember, member) ∈ spec.legalTransitions members

theorem determineNextMember_ensures (n : ℕ) (messages : List Message)
    (template previousMember : String) :
    (spec.determineNextMember env approvals selectorAgent n members messages template
      previousMember).Ensures (·.isTurn = false)
        (fun v => ∀ member, v = .ok member → spec.Follows members previousMember member)
        fun _ => True := by
  unfold determineNextMember
  dsimp only
  split
  next hfree =>
    apply (spec.selectMember_ensures n messages template).weaken
    intro v hv member hmember
    exact ⟨hv member hmember, fun h => absurd hfree h⟩
  next =>
    split
    next hfirst =>
      apply (spec.selectMember_ensures n messages template).weaken
      intro v hv member hmember
      exact ⟨hv member hmember, fun _ h => absurd hfirst h⟩
    next =>
      have hlegal (member : Member)
          (h : member ∈ ((spec.legalTransitions members).filter
            fun t => t.1 = previousMember).map (·.2)) :
          spec.Follows members previousMember member := by
        obtain ⟨t, ht, rfl⟩ := List.mem_map.mp h
        obtain ⟨hmem, hprevious⟩ := List.mem_filter.mp ht
        obtain rfl := of_decide_eq_true hprevious
        exact ⟨(spec.mem_legalTransitions hmem).1, fun _ _ => hmem⟩
      split
      next => exact ensures_pure nofun
      next member hsingle =>
        apply ensures_pure
        intro member' hmember
        obtain rfl := Except.ok.inj hmember
        apply hlegal
        rw [hsingle]
        exact List.mem_singleton_self _
      next =>
        apply (spec.selectMember_ensures n messages template).weaken
        intro v hv member hmember
        exact hlegal member (hv member hmember)

theorem determineNextMember_first (n : ℕ) (messages : List Message) (template : String) :
    spec.determineNextMember env approvals selectorAgent n members messages template "" =
      spec.selectMember env approvals selectorAgent n messages template members := by
  unfold determineNextMember
  dsimp only
  split
  next => rfl
  next => exact if_pos rfl

theorem turnsOf_determineNextMember (g : TeamFailure → TeamFailure) (n : ℕ)
    (messages : List Message) (template previousMember : String) (w : W) :
    turnsOf (mapError g (spec.determineNextMember env approvals selectorAgent n members messages
      template previousMember)) w = [] := by
  rw [turnsOf_mapError]
  exact turnsOf_eq_nil ((spec.determineNextMember_ensures n messages template previousMember).events w)

theorem lt_of_checkAndHandleMaxTurns {k : ℤ} (hmax : spec.maxTurns = some k) {turn : ℕ}
    {newMessages : List Message} (h : spec.checkAndHandleMaxTurns turn newMessages = none) :
    (turn : ℤ) + 1 < k := by
  unfold checkAndHandleMaxTurns at h
  rw [hmax, Option.map_eq_none_iff, Option.filter_some_eq_none] at h
  simpa using h

/-- What holds of the turns of the selector's loop: they end before a turn, after a turn, or go on
after a turn that `maxTurns` does not make the last. -/
theorem turnsOf_selectorTurns {P : ℕ → String → List String → Prop}
    (hstop : ∀ turn previousMember, P turn previousMember [])
    (hlast : ∀ turn previousMember member, spec.Follows members previousMember member →
      P turn previousMember [member.name])
    (hnext : ∀ (turn : ℕ) previousMember member turns, spec.Follows members previousMember member →
      (∀ k, spec.maxTurns = some k → (turn : ℤ) + 1 < k) → P (turn + 1) member.name turns →
      P turn previousMember (member.name :: turns))
    (n : ℕ) (template : String) (bound turn : ℕ) (previousMember : String)
    (messages newMessages : List Message) (w : W) :
    P turn previousMember (turnsOf (spec.selectorTurns env approvals selectorAgent n (quietly execute)
      members template userInput history bound turn previousMember messages newMessages) w) := by
  induction bound generalizing turn previousMember messages newMessages w with
  | zero => exact hstop _ _
  | succ bound ih =>
    apply turnsOf_bind (P := P turn previousMember)
    · rw [turnsOf_determineNextMember]
      exact hstop _ _
    intro next hselected
    rw [turnsOf_determineNextMember, List.nil_append]
    have hfollows := (spec.determineNextMember_ensures n _ template previousMember).value w next
      (mapError_ok.mp hselected)
    split
    next => exact hstop _ _
    next member =>
      have hmember := hfollows member rfl
      apply turnsOf_bind (P := P turn previousMember)
      · rw [turnsOf_executeMemberAndAccumulate]
        exact hlast _ _ _ hmember
      intro t _
      rw [turnsOf_executeMemberAndAccumulate, List.singleton_append]
      split
      next => exact hlast _ _ _ hmember
      next =>
        split
        next => exact hlast _ _ _ hmember
        next hopen =>
          apply hnext _ _ _ _ hmember _ (ih _ _ _ _ _)
          exact fun k hk => spec.lt_of_checkAndHandleMaxTurns hk hopen

/-- A walk along the edges that goes on from the previous member, if there is one. -/
def Walks (edges : List TeamGraphEdge) (previousMember : String) (turns : List String) : Prop :=
  (if previousMember = "" then turns else previousMember :: turns).IsChain
    fun previous next => ⟨previous, next⟩ ∈ edges

theorem Walks.cons {edges : List TeamGraphEdge} {previousMember next : String}
    {turns : List String} (hnext : next ≠ "")
    (hedge : previousMember ≠ "" → ⟨previousMember, next⟩ ∈ edges) (h : Walks edges next turns) :
    Walks edges previousMember (next :: turns) := by
  unfold Walks at h ⊢
  rw [if_neg hnext] at h
  split
  next => exact h
  next hprevious => exact List.isChain_cons_cons.mpr ⟨hedge hprevious, h⟩

theorem Walks.nil (edges : List TeamGraphEdge) (previousMember : String) :
    Walks edges previousMember [] := by
  unfold Walks
  split
  next => exact .nil
  next => exact .singleton _

/-- The names of the members are no empty strings, and a graph has an edge to some member. -/
structure Admits (members : List Member) : Prop where
  named : ∀ member ∈ members, member.name ≠ ""
  legal : ∀ edges, spec.graph = some edges → spec.legalTransitions members ≠ []

variable {spec} in
theorem Follows.edge_mem {edges : List TeamGraphEdge} (hadmits : spec.Admits members)
    (hgraph : spec.graph = some edges) {previousMember : String} {member : Member}
    (h : spec.Follows members previousMember member) (hprevious : previousMember ≠ "") :
    ⟨previousMember, member.name⟩ ∈ edges := by
  obtain ⟨edges', hedges', hmem⟩ :=
    (spec.mem_legalTransitions (h.edge (hadmits.legal edges hgraph) hprevious)).2
  rw [hgraph] at hedges'
  obtain rfl := Option.some.inj hedges'
  exact hmem

section SelectorTurns

variable (n : ℕ) (template : String) (bound turn : ℕ) (previousMember : String)
variable (messages newMessages : List Message) (w : W)

theorem selectorTurns_mem : ∀ name ∈ turnsOf (spec.selectorTurns env approvals selectorAgent n
    (quietly execute) members template userInput history bound turn previousMember messages
      newMessages) w, name ∈ members.map (·.name) := by
  apply spec.turnsOf_selectorTurns (P := fun _ _ turns => ∀ name ∈ turns, name ∈ members.map (·.name))
  · nofun
  · intro _ _ member hmember name hname
    obtain rfl := List.mem_singleton.mp hname
    exact List.mem_map_of_mem hmember.mem
  · intro _ _ member turns hmember _ ih
    exact List.forall_mem_cons.mpr ⟨List.mem_map_of_mem hmember.mem, ih⟩

theorem selectorTurns_walk {edges : List TeamGraphEdge} (hadmits : spec.Admits members)
    (hgraph : spec.graph = some edges) : Walks edges previousMember (turnsOf (spec.selectorTurns env
      approvals selectorAgent n (quietly execute) members template userInput history bound turn
        previousMember messages newMessages) w) := by
  have hcons (previous : String) (member : Member) (turns : List String)
      (hmember : spec.Follows members previous member) (h : Walks edges member.name turns) :
      Walks edges previous (member.name :: turns) :=
    .cons (hadmits.named member hmember.mem) (hmember.edge_mem hadmits hgraph) h
  apply spec.turnsOf_selectorTurns (P := fun _ => Walks edges)
  · intro _ previous
    exact .nil edges previous
  · intro _ previous member hmember
    exact hcons previous member [] hmember (.nil edges _)
  · intro _ previous member turns hmember _ ih
    exact hcons previous member turns hmember ih

theorem length_selectorTurns {k : ℤ} (hmax : spec.maxTurns = some k) (hturn : (turn : ℤ) < k) :
    ((turnsOf (spec.selectorTurns env approvals selectorAgent n (quietly execute) members template
      userInput history bound turn previousMember messages newMessages) w).length : ℤ) ≤ k - turn := by
  refine spec.turnsOf_selectorTurns
    (P := fun turn _ turns => (turn : ℤ) < k → (turns.length : ℤ) ≤ k - turn) ?_ ?_ ?_ n template
      bound turn previousMember messages newMessages w hturn
  · intro turn _ hturn
    exact Int.sub_nonneg.mpr hturn.le
  · intro turn _ member _ hturn
    change (1 : ℤ) ≤ k - turn
    omega
  · intro turn _ member turns _ hopen ih _
    have hlength := ih (by exact_mod_cast hopen k hmax)
    rw [List.length_cons]
    push_cast at hlength ⊢
    omega

end SelectorTurns

/-! ### Where the loops end -/

theorem ends_failIfCancelled (newMessages : List Message) (w : W) :
    Ends (failIfCancelled cancelled newMessages) w := by
  apply Ends.bind (m := observe cancelled) nofun
  intro stop _
  split
  next => exact ends_fail _ _
  next => exact ends_pure _ _

theorem ends_executeMemberAndAccumulate {member : Member}
    (h : ∀ userInput history w, Ends (execute member userInput history) w) (input : Message)
    (messages newMessages : List Message) (w : W) :
    Ends (spec.executeMemberAndAccumulate execute member input messages newMessages) w := by
  apply Ends.bind (m := emit _) nofun
  intro _ _
  apply ((h _ _ _).mapError _).bind
  intro result _
  exact ends_pure _ _

section Ends

variable (hmembers : ∀ member ∈ members, ∀ userInput history w,
  Ends (execute member userInput history) w)

include hmembers

theorem ends_executeSequential (turn : ℕ) (newMessages : List Message) (w : W) :
    Ends (spec.executeSequential cancelled execute userInput history turn newMessages members) w := by
  induction members generalizing turn newMessages w with
  | nil => exact ends_pure _ _
  | cons member members ih =>
    obtain ⟨hmember, hmembers⟩ := List.forall_mem_cons.mp hmembers
    apply (ends_failIfCancelled newMessages w).bind
    intro _ _
    apply (spec.ends_executeMemberAndAccumulate hmember _ _ _ _).bind
    intro t _
    split
    next => exact ends_pure _ _
    next => exact ih hmembers _ _ _

theorem ends_executeSequentialWithLoops {k : ℤ} (hmax : spec.maxTurns = some k)
    (bound messageCount memberIndex : ℕ) (newMessages : List Message) (w : W)
    (hbound : (k - messageCount).toNat < bound) :
    Ends (spec.executeSequentialWithLoops cancelled execute members userInput history bound
      messageCount memberIndex newMessages) w := by
  induction bound generalizing messageCount memberIndex newMessages w with
  | zero => exact absurd hbound (Nat.not_lt_zero _)
  | succ bound ih =>
    apply (ends_failIfCancelled newMessages w).bind
    intro _ _
    split
    next => exact ends_pure _ _
    next => exact ends_fail _ _
    next member hopen hmember =>
      have hlt : (messageCount : ℤ) < k := by
        rw [hmax, Option.filter_some_eq_none] at hopen
        simpa using hopen
      have hends := spec.ends_executeMemberAndAccumulate
        (hmembers member (List.mem_of_getElem? hmember))
      apply ((hends _ _ _ _).mapError _).bind
      intro t _
      split
      next => exact ends_pure _ _
      next =>
        apply ih
        push_cast
        omega

/-- The selection of one turn, as `executeSelector` takes its errors. -/
def nextMember (env : TeamEnv W) (approvals : Bool) (selectorAgent : Except String SelectorAgent)
    (n : ℕ) (members : List Member) (template : String) (userInput : Message)
    (history : List Message) (previousMember : String) (messages newMessages : List Message) :
    TeamM W (Except SelectionError Member) :=
  mapError (leaving newMessages) (spec.determineNextMember env approvals selectorAgent n members
    (selectorTranscript history userInput messages) template previousMember)

theorem ends_selectorTurns_succ (n : ℕ) (template : String) (bound turn : ℕ)
    (previousMember : String) (messages newMessages : List Message) (w : W)
    (hselect : Ends (spec.nextMember env approvals selectorAgent n members template userInput history
      previousMember messages newMessages) w)
    (hrest : ∀ member t, (spec.nextMember env approvals selectorAgent n members template userInput
        history previousMember messages newMessages w).ending = .ok (.ok member) →
      (spec.executeMemberAndAccumulate execute member userInput messages newMessages
        (spec.nextMember env approvals selectorAgent n members template userInput history
          previousMember messages newMessages w).world).ending = .ok t →
      spec.checkAndHandleMaxTurns turn t.newMessages = none →
      Ends (spec.selectorTurns env approvals selectorAgent n execute members template userInput history
        bound (turn + 1) member.name t.messages t.newMessages)
          (spec.executeMemberAndAccumulate execute member userInput messages newMessages
            (spec.nextMember env approvals selectorAgent n members template userInput history
              previousMember messages newMessages w).world).world) :
    Ends (spec.selectorTurns env approvals selectorAgent n execute members template userInput history
      (bound + 1) turn previousMember messages newMessages) w := by
  apply hselect.bind
  intro next hnext
  split
  next => exact ends_pure _ _
  next member =>
    have hmem : member ∈ members := ((spec.determineNextMember_ensures n _ template
      previousMember).value w _ (mapError_ok.mp hnext) member rfl).mem
    apply (spec.ends_executeMemberAndAccumulate (hmembers member hmem) _ _ _ _).bind
    intro t ht
    split
    next => exact ends_pure _ _
    next =>
      split
      next => exact ends_pure _ _
      next hopen => exact hrest member t hnext ht hopen

omit hmembers

section Answers

variable (hanswers : ∀ selector, selectorAgent = .ok selector → ∀ userInput history w, ∃ n,
  Ends ((spec.selectingAgent selector).execute (env.selectors (spec.selectingAgent selector).name)
    approvals n userInput history) w)

include hanswers

theorem exists_ends_selectMember (messages : List Message) (template : String)
    (members : List Member) (w : W) : ∃ n,
      Ends (spec.selectMember env approvals selectorAgent n messages template members) w := by
  cases hselector : selectorAgent with
  | error e =>
    refine ⟨0, ?_⟩
    unfold selectMember
    split
    next => exact ends_fail _ _
    next => exact ends_fail _ _
    next h => cases h
  | ok selector =>
    let token := if members.any fun m => m.name.toLower = engineTerminateToken.toLower then
        engineTerminateFallbackToken
      else engineTerminateToken
    cases hrender : env.render template (buildRoles members) (buildParticipants members)
        (buildHistory messages) with
    | error e =>
      refine ⟨0, ?_⟩
      unfold selectMember
      rw [hrender]
      exact ends_fail _ _
    | ok prompt =>
      obtain ⟨n, hn⟩ := hanswers selector hselector
        (.user (spec.selectorUserPrompt selector.engineBacked token))
        [.system (spec.selectorMessage selector.engineBacked token (buildParticipants members) prompt)] w
      refine ⟨n, ?_⟩
      unfold selectMember
      rw [hrender]
      dsimp only
      split
      next => exact ends_pure _ _
      next =>
        apply (hn.mapError _).bind
        intro result _
        exact ends_pure _ _

/-- From some bound on a selection ends and stays what it is. -/
theorem exists_nextMember (members : List Member) (userInput : Message) (history : List Message)
    (template previousMember : String) (messages newMessages : List Message) (w : W) :
    ∃ n, ∀ m, n ≤ m →
      Ends (spec.nextMember env approvals selectorAgent m members template userInput history
        previousMember messages newMessages) w ∧
      spec.nextMember env approvals selectorAgent m members template userInput history previousMember
        messages newMessages w = spec.nextMember env approvals selectorAgent n members template
          userInput history previousMember messages newMessages w := by
  have hends : ∃ n, Ends (spec.nextMember env approvals selectorAgent n members template userInput
      history previousMember messages newMessages) w := by
    have hselect := fun members => spec.exists_ends_selectMember hanswers
      (selectorTranscript history userInput messages) template members w
    unfold nextMember determineNextMember
    dsimp only
    split
    next =>
      obtain ⟨n, hn⟩ := hselect members
      exact ⟨n, hn.mapError _⟩
    next =>
      split
      next =>
        obtain ⟨n, hn⟩ := hselect members
        exact ⟨n, hn.mapError _⟩
      next =>
        split
        next => exact ⟨0, (ends_pure _ _).mapError _⟩
        next => exact ⟨0, (ends_pure _ _).mapError _⟩
        next =>
          obtain ⟨n, hn⟩ := hselect _
          exact ⟨n, hn.mapError _⟩
  obtain ⟨n, hn⟩ := hends
  refine ⟨n, fun m hm => ?_⟩
  obtain ⟨d, rfl⟩ := Nat.exists_eq_add_of_le hm
  have hextended (messages : List Message) :
      (spec.determineNextMember env approvals selectorAgent n members messages template
        previousMember).ExtendedBy TeamEvent.isMark (spec.determineNextMember env approvals
          selectorAgent (n + d) members messages template previousMember) :=
    determineNextMember_congr (comparison_extendedBy d approvals) spec n messages template _
  cases (hextended _).mapError (leaving newMessages) w with
  | inl heq =>
    refine ⟨?_, heq.symm⟩
    unfold Ends nextMember
    rw [← heq]
    exact hn
  | inr hrunning => exact absurd hrunning.1 hn

include hmembers

/-- The turns that `maxTurns` leaves bound the rounds of the loop; each selection has a bound of its
own, and the largest serves for all. -/
theorem exists_ends_selectorTurns {k : ℤ} (hmax : spec.maxTurns = some k) (userInput : Message)
    (history : List Message) (template : String) (left turn : ℕ) (previousMember : String) (messages newMessages : List Message) (w : W)
    (hleft : (k - turn).toNat ≤ left) : ∃ n, ∀ m bound, n ≤ m → left < bound →
      Ends (spec.selectorTurns env approvals selectorAgent m execute members template userInput history
        bound turn previousMember messages newMessages) w := by
  induction left generalizing turn previousMember messages newMessages w with
  | zero =>
    obtain ⟨n, hn⟩ := spec.exists_nextMember hanswers members userInput history template
      previousMember messages newMessages w
    refine ⟨n, fun m bound hm hbound => ?_⟩
    obtain ⟨bound, rfl⟩ := Nat.exists_eq_succ_of_ne_zero hbound.ne'
    apply spec.ends_selectorTurns_succ hmembers m template bound turn previousMember messages
      newMessages w (hn m hm).1
    intro member t _ _ hopen
    have hlt := spec.lt_of_checkAndHandleMaxTurns hmax hopen
    omega
  | succ left ih =>
    obtain ⟨n, hn⟩ := spec.exists_nextMember hanswers members userInput history template
      previousMember messages newMessages w
    let next := spec.nextMember env approvals selectorAgent n members template userInput history
      previousMember messages newMessages w
    by_cases hgoes : ∃ member t, next.ending = .ok (.ok member) ∧
        (spec.executeMemberAndAccumulate execute member userInput messages newMessages
          next.world).ending = .ok t ∧ spec.checkAndHandleMaxTurns turn t.newMessages = none
    · obtain ⟨member, t, hnext, ht, hopen⟩ := hgoes
      have hlt := spec.lt_of_checkAndHandleMaxTurns hmax hopen
      obtain ⟨n', hn'⟩ := ih (turn + 1) member.name t.messages t.newMessages
        (spec.executeMemberAndAccumulate execute member userInput messages newMessages
          next.world).world (by push_cast; omega)
      refine ⟨max n n', fun m bound hm hbound => ?_⟩
      obtain ⟨bound, rfl⟩ := Nat.exists_eq_succ_of_ne_zero (Nat.ne_zero_of_lt hbound)
      obtain ⟨hends, heq⟩ := hn m (le_trans (le_max_left _ _) hm)
      apply spec.ends_selectorTurns_succ hmembers m template bound turn previousMember messages
        newMessages w hends
      rw [heq]
      intro member' t' hnext' ht' _
      obtain rfl : member' = member := by
        have hsame := hnext'.symm.trans hnext
        exact Except.ok.inj (Ending.ok.inj hsame)
      obtain rfl : t' = t := Ending.ok.inj (ht'.symm.trans ht)
      exact hn' m bound (le_trans (le_max_right _ _) hm) (Nat.lt_of_succ_lt_succ hbound)
    · refine ⟨n, fun m bound hm hbound => ?_⟩
      obtain ⟨bound, rfl⟩ := Nat.exists_eq_succ_of_ne_zero (Nat.ne_zero_of_lt hbound)
      obtain ⟨hends, heq⟩ := hn m hm
      apply spec.ends_selectorTurns_succ hmembers m template bound turn previousMember messages
        newMessages w hends
      rw [heq]
      intro member t hnext ht hopen
      exact absurd ⟨member, t, hnext, ht, hopen⟩ hgoes

end Answers
end Ends

end TeamSpec

/-! ### Loaded members -/

open KeyedTable

def LoadedMember.name : LoadedMember → String
  | .agent A => A.name
  | .team spec _ => spec.name

section Load

variable {k : K8sClient} {s : TeamStore}

theorem name_of_makeAgent {crd : AgentCRD} {A : Agent} (h : makeAgent k crd = .ok A) :
    A.name = crd.name := by
  obtain ⟨_, -, h⟩ := bind_eq_ok.mp h
  obtain ⟨_, -, h⟩ := bind_eq_ok.mp h
  obtain rfl := Except.ok.inj h
  rfl

theorem name_of_loadTeamMember {make : TeamCRD → Option (Except String LoadedMember)}
    (hmake : ∀ crd x, make crd = some (.ok x) → x.name = crd.name) {teamName : String}
    {m : TeamMember} {x : LoadedMember} (h : loadTeamMember k s make teamName m = some (.ok x)) :
    x.name = m.name := by
  unfold loadTeamMember TeamStore.getAgent TeamStore.getTeam at h
  split at h
  next =>
    split at h
    next => cases h
    next crd hget =>
      split at hget
      next agent hfound =>
        obtain rfl := Except.ok.inj hget
        cases hagent : makeAgent k agent with
        | error err =>
          rw [hagent] at h
          cases h
        | ok A =>
          rw [hagent] at h
          obtain rfl := Except.ok.inj (Option.some.inj h)
          exact (name_of_makeAgent hagent).trans (key_of_find hfound)
      next => cases hget
  next =>
    split at h
    next =>
      split at h
      next => cases h
      next crd hget =>
        split at hget
        next team hfound =>
          obtain rfl := Except.ok.inj hget
          exact (hmake _ x h).trans (key_of_find hfound)
        next => cases hget
    next => cases h

theorem names_of_loadTeamMembers {load : TeamMember → Option (Except String LoadedMember)}
    (hload : ∀ m x, load m = some (.ok x) → x.name = m.name) {declared : List TeamMember}
    {members : List LoadedMember} (h : loadTeamMembers load declared = some (.ok members)) :
    members.map (·.name) = declared.map (·.name) := by
  induction declared generalizing members with
  | nil =>
    obtain rfl := Except.ok.inj (Option.some.inj h)
    rfl
  | cons m declared ih =>
    rw [loadTeamMembers] at h
    split at h
    next => cases h
    next => cases h
    next x hx =>
      obtain ⟨r, hr, hmap⟩ := Option.map_eq_some_iff.mp h
      cases r with
      | error err => cases hmap
      | ok rest =>
        obtain rfl := Except.ok.inj hmap
        rw [List.map_cons, List.map_cons, hload m x hx, ih hr]

/-- A team is loaded with its own settings and with members of the declared names. -/
theorem names_of_makeTeam {fuel : ℕ} {crd : TeamCRD} {x : LoadedMember}
    (h : makeTeam k s fuel crd = some (.ok x)) : ∃ members, x = .team (crd.spec s.namespace) members ∧
      members.map (·.name) = crd.members.map (·.name) := by
  induction fuel generalizing crd x with
  | zero => cases h
  | succ fuel ih =>
    obtain ⟨r, hr, hx⟩ := makeTeam_succ h
    cases r with
    | error err => cases hx
    | ok members =>
      have hmake (crd : TeamCRD) (x : LoadedMember) (h : makeTeam k s fuel crd = some (.ok x)) :
          x.name = crd.name := by
        obtain ⟨_, rfl, -⟩ := ih h
        rfl
      exact ⟨members, Except.ok.inj hx,
        names_of_loadTeamMembers (fun _ _ => name_of_loadTeamMember hmake) hr⟩

end Load

/-! ### Admitted teams -/

namespace TeamStore

theorem mem_of_validateEdges {names : List String} {i : ℕ} {edges : List TeamGraphEdge}
    (h : validateEdges names i edges = .ok ()) : ∀ edge ∈ edges, edge.to_ ∈ names := by
  induction edges generalizing i with
  | nil => nofun
  | cons edge edges ih =>
    unfold validateEdges at h
    split at h
    next => cases h
    next =>
      split at h
      next => cases h
      next hto => exact List.forall_mem_cons.mpr ⟨not_not.mp hto, ih h⟩

/-- What `validateStrategy` leaves of the strategies once `DefaultTeam` has replaced the old ones. -/
inductive Admitted (team : TeamCRD) : Prop
  | sequential (hstrategy : team.strategy = "sequential") (hloops : team.loops ≠ some true)
      (hmax : team.maxTurns = none)
  | loops (hstrategy : team.strategy = "sequential") (hloops : team.loops = some true) (k : ℤ)
      (hmax : team.maxTurns = some k)
  | selector (hstrategy : team.strategy = "selector") (k : ℤ) (hmax : team.maxTurns = some k)
      (hgraph : ∀ edges, team.graph = some edges → edges ≠ [] ∧
        ∀ edge ∈ edges, edge.to_ ∈ team.members.map (·.name))

theorem admitted_of_validateStrategy {s : TeamStore} {team : TeamCRD}
    (hround : team.strategy ≠ "round-robin") (h : validateStrategy s team = .ok ()) :
    Admitted team := by
  unfold validateStrategy at h
  rw [if_neg hround] at h
  split at h
  next hstrategy =>
    unfold validateSequentialStrategy at h
    dsimp only at h
    cases hmax : team.maxTurns with
    | none =>
      rw [hmax] at h
      refine .sequential hstrategy ?_ hmax
      intro hloops
      simp [hloops] at h
    | some k =>
      rw [hmax] at h
      refine .loops hstrategy ?_ k hmax
      by_contra hloops
      simp [hloops] at h
  next =>
    split at h
    next hstrategy =>
      split at h
      next => cases h
      next =>
        obtain ⟨_, -, h⟩ := bind_eq_ok.mp h
        split at h
        next => cases h
        next hset =>
          obtain ⟨k, hmax⟩ := Option.ne_none_iff_exists'.mp hset
          refine .selector hstrategy k hmax ?_
          intro edges hgraph
          rw [if_pos (by rw [hgraph]; nofun), validateGraphForSelector, hgraph] at h
          dsimp only at h
          split at h
          next => cases h
          next hedges => exact ⟨hedges, mem_of_validateEdges h⟩
    next => cases h

end TeamStore

theorem TeamCRD.defaultTeam_strategy (team : TeamCRD) :
    team.defaultTeam.strategy ≠ "round-robin" := by
  unfold defaultTeam
  have hne : "sequential" ≠ "round-robin" := by decide
  split
  next => exact hne
  next hround =>
    split
    next => exact hne
    next => exact hround

theorem TeamCRD.defaultTeam_members (team : TeamCRD) : team.defaultTeam.members = team.members := by
  unfold defaultTeam
  split
  next => rfl
  next =>
    split
    next => rfl
    next => rfl

theorem TeamStore.admitted_of_validateTeam {s : TeamStore} {team : TeamCRD}
    (h : s.validateTeam team.defaultTeam = .ok ()) : Admitted team.defaultTeam := by
  obtain ⟨_, hstrategy, -⟩ := bind_eq_ok.mp h
  exact admitted_of_validateStrategy team.defaultTeam_strategy hstrategy

namespace TeamSpec

variable {W : Type} (spec : TeamSpec) {env : TeamEnv W} {approvals : Bool}
variable {selectorAgent : Except String SelectorAgent} {execute : MemberRun W}
variable {members : List Member} {userInput : Message} {history : List Message} {n : ℕ}

theorem execFunc_sequential (hstrategy : spec.strategy = "sequential") (hloops : spec.loops = false) :
    spec.execFunc env approvals selectorAgent n execute members userInput history =
      spec.executeSequential env.cancelled execute userInput history 0 [] members := by
  unfold execFunc
  rw [hstrategy]
  simp [hloops]

theorem execFunc_loops (hstrategy : spec.strategy = "sequential") (hloops : spec.loops = true) :
    spec.execFunc env approvals selectorAgent n execute members userInput history =
      spec.executeSequentialWithLoops env.cancelled execute members userInput history n 0 0 [] := by
  unfold execFunc
  rw [hstrategy]
  simp [hloops]

theorem execFunc_selector (hstrategy : spec.strategy = "selector") :
    spec.execFunc env approvals selectorAgent n execute members userInput history =
      spec.executeSelector env approvals selectorAgent n execute members userInput history := by
  unfold execFunc
  rw [hstrategy]
  rfl

theorem turnsOf_execute (w : W) :
    turnsOf (spec.execute env approvals selectorAgent n execute members userInput history) w =
      if members = [] then [] else
        turnsOf (spec.execFunc env approvals selectorAgent n execute members userInput history) w := by
  unfold TeamSpec.execute
  split
  next => rfl
  next =>
    apply turnsOf_bind (P := (· = _)) rfl
    intro messages _
    exact List.append_nil _

theorem ends_execute {w : W} (h : Ends (spec.execFunc env approvals selectorAgent n execute members
    userInput history) w) :
    Ends (spec.execute env approvals selectorAgent n execute members userInput history) w := by
  unfold TeamSpec.execute
  split
  next => exact ends_fail _ _
  next => exact h.bind fun _ _ => ends_pure _ _

end TeamSpec

namespace TeamSpec.Shape

variable {spec : TeamSpec} {names turns : List String}

theorem nil (h : ∀ k, spec.maxTurns = some k → 0 ≤ k) : spec.Shape names [] where
  sequential _ _ := List.nil_prefix
  loops _ _ := ⟨0, List.nil_prefix⟩
  selector _ := nofun
  graph _ _ _ := .nil
  maxTurns := h
  unbounded _ := Nat.zero_le _

theorem of_sequential (hstrategy : spec.strategy = "sequential") (hloops : spec.loops = false)
    (hmax : spec.maxTurns = none) (h : turns <+: names) : spec.Shape names turns where
  sequential _ _ := h
  loops _ hloops' := nomatch hloops.symm.trans hloops'
  selector hselector := absurd (hstrategy.symm.trans hselector) (by decide)
  graph hselector := absurd (hstrategy.symm.trans hselector) (by decide)
  maxTurns _ hk := nomatch hmax.symm.trans hk
  unbounded _ := h.length_le

theorem of_loops (hstrategy : spec.strategy = "sequential") (hloops : spec.loops = true) {k : ℤ}
    (hmax : spec.maxTurns = some k) {rounds : ℕ} (h : turns <+: (List.replicate rounds names).flatten)
    (hlength : (turns.length : ℤ) ≤ k) : spec.Shape names turns where
  sequential _ hloops' := nomatch hloops.symm.trans hloops'
  loops _ _ := ⟨rounds, h⟩
  selector hselector := absurd (hstrategy.symm.trans hselector) (by decide)
  graph hselector := absurd (hstrategy.symm.trans hselector) (by decide)
  maxTurns k' hk := Option.some.inj (hmax.symm.trans hk) ▸ hlength
  unbounded hnone := nomatch hmax.symm.trans hnone

theorem of_selector (hstrategy : spec.strategy = "selector") {k : ℤ} (hmax : spec.maxTurns = some k)
    (hmem : ∀ name ∈ turns, name ∈ names) (hgraph : ∀ edges, spec.graph = some edges →
      turns.IsChain fun previous next => ⟨previous, next⟩ ∈ edges)
    (hlength : (turns.length : ℤ) ≤ k) : spec.Shape names turns where
  sequential hsequential := absurd (hstrategy.symm.trans hsequential) (by decide)
  loops hsequential := absurd (hstrategy.symm.trans hsequential) (by decide)
  selector _ := hmem
  graph _ := hgraph
  maxTurns k' hk := Option.some.inj (hmax.symm.trans hk) ▸ hlength
  unbounded hnone := nomatch hmax.symm.trans hnone

end TeamSpec.Shape

namespace TeamCRD

variable {W : Type} {s : TeamStore} {team : TeamCRD}

open TeamStore

theorem admits_of_loads {members : List Member} (hloads : team.Loads members)
    (hgraph : ∀ edges, team.graph = some edges → edges ≠ [] ∧
      ∀ edge ∈ edges, edge.to_ ∈ team.members.map (·.name)) :
    (team.spec s.namespace).Admits members := by
  constructor
  · intro member hmember
    have hname : member.name ∈ team.members.map (·.name) := hloads.1 ▸ List.mem_map_of_mem hmember
    obtain ⟨m, hm, hname⟩ := List.mem_map.mp hname
    rw [← hname]
    exact hloads.2 m hm
  · intro edges hedges hlegal
    obtain ⟨hne, hto⟩ := hgraph edges hedges
    obtain ⟨edge, rest, rfl⟩ := List.exists_cons_of_ne_nil hne
    have hmem := hto edge List.mem_cons_self
    rw [← hloads.1] at hmem
    obtain ⟨member, hmember, hname⟩ := List.mem_map.mp hmem
    have hnone : (TeamSpec.memberLookup members edge.to_).map (fun m => (edge.from_, m)) = none := by
      apply List.filterMap_eq_nil_iff.mp hlegal
      rw [hedges]
      exact List.mem_cons_self
    rw [Option.map_eq_none_iff, TeamSpec.memberLookup, List.find?_eq_none] at hnone
    exact hnone member (List.mem_reverse.mpr hmember) (by simpa using hname)

theorem shape_turns (hadmitted : Admitted team) (hallows : team.AllowsTurns) (r : TeamRun W)
    (hloads : team.Loads r.members) (n : ℕ) :
    (team.spec s.namespace).Shape (team.members.map (·.name)) (r.turns (team.spec s.namespace) n) := by
  unfold TeamRun.turns
  rw [TeamSpec.turnsOf_execute]
  split
  next => exact .nil fun k hk => (hallows k hk).1
  next hmembers =>
    have hne : team.members ≠ [] := by
      intro hnone
      rw [Loads, hnone, List.map_nil, List.map_eq_nil_iff] at hloads
      exact hmembers hloads.1
    rw [← hloads.1]
    cases hadmitted with
    | sequential hstrategy hloops hmax =>
      have hspec : (team.spec s.namespace).loops = false := decide_eq_false hloops
      rw [TeamSpec.execFunc_sequential _ hstrategy hspec]
      exact .of_sequential hstrategy hspec hmax (TeamSpec.turnsOf_executeSequential _ 0 [] _ _)
    | loops hstrategy hloops k hmax =>
      have hspec : (team.spec s.namespace).loops = true := decide_eq_true hloops
      rw [TeamSpec.execFunc_loops _ hstrategy hspec]
      apply TeamSpec.Shape.of_loops hstrategy hspec hmax
      · exact TeamSpec.rounds_executeSequentialWithLoops _ n hmembers _
      · exact (TeamSpec.length_executeSequentialWithLoops _ hmax n 0 0 [] _ (hallows k hmax).1).trans
          (by simp)
    | selector hstrategy k hmax hgraph =>
      have hpos : ((0 : ℕ) : ℤ) < k := (hallows k hmax).2 hstrategy hne
      rw [TeamSpec.execFunc_selector _ hstrategy, TeamSpec.executeSelector]
      split
      next =>
        exact .of_selector hstrategy hmax nofun (fun _ _ => .nil) (hallows k hmax).1
      next =>
        apply TeamSpec.Shape.of_selector hstrategy hmax
        · exact TeamSpec.selectorTurns_mem _ n _ n 0 "" _ [] _
        · intro edges hedges
          exact TeamSpec.selectorTurns_walk _ n _ n 0 "" _ [] _ (admits_of_loads hloads hgraph) hedges
        · exact (TeamSpec.length_selectorTurns _ n _ n 0 "" _ [] _ hmax hpos).trans (by simp)

/-- Under a bound of its own for each selection the run ends; for the loops `maxTurns` is one. -/
theorem terminates (hadmitted : Admitted team) (r : TeamRun W) (hends : r.MembersEnd)
    (hanswers : r.SelectorAnswers (team.spec s.namespace)) :
    r.Terminates (team.spec s.namespace) := by
  cases hadmitted with
  | sequential hstrategy hloops hmax =>
    have hspec : (team.spec s.namespace).loops = false := decide_eq_false hloops
    refine ⟨0, fun m _ => TeamSpec.ends_execute _ ?_⟩
    rw [TeamSpec.execFunc_sequential _ hstrategy hspec]
    exact TeamSpec.ends_executeSequential _ hends 0 [] _
  | loops hstrategy hloops k hmax =>
    have hspec : (team.spec s.namespace).loops = true := decide_eq_true hloops
    refine ⟨k.toNat + 1, fun m hm => TeamSpec.ends_execute _ ?_⟩
    rw [TeamSpec.execFunc_loops _ hstrategy hspec]
    apply TeamSpec.ends_executeSequentialWithLoops _ hends hmax
    simp only [Int.natCast_zero, Int.sub_zero]
    omega
  | selector hstrategy k hmax hgraph =>
    obtain ⟨n, hn⟩ := (team.spec s.namespace).exists_ends_selectorTurns hends hanswers hmax
      r.userInput r.history (team.spec s.namespace).selectorTemplate k.toNat 0 "" r.history [] r.start (by simp)
    refine ⟨max n (k.toNat + 1), fun m hm => TeamSpec.ends_execute _ ?_⟩
    rw [TeamSpec.execFunc_selector _ hstrategy, TeamSpec.executeSelector]
    split
    next => exact ends_fail _ _
    next => exact hn m m (by omega) (by omega)

end TeamCRD

/-! ### A selector that always selects the first member -/

def silentEnv : Env Unit where
  queryConversationId := ""
  resolvePrompt := .ok ""
  chat w _ := (.ok [], w)
  engine w _ _ := (.ok [], w)
  run w _ _ := ((⟨"", "", "", ""⟩, none), w)
  cancelled _ := false

def engineAgent (name : String) : Agent := ⟨name, "", false, true, .new, fun _ => none⟩

/-- Members that say nothing, and a selector whose reply stands for the first of them. -/
def firstMemberRun (members : List TeamMember) : TeamRun Unit where
  env := {
    agents := fun _ => silentEnv
    selectors := fun _ => silentEnv
    cancelled := fun _ => false
    parseTemplate := fun _ => .ok ()
    render := fun _ _ _ _ => .ok ""
    parseEngineTerminate := fun _ _ => none
    matchSelectedName := fun reply candidates => candidates.head?.elim (.error reply) .ok }
  approvals := true
  selectorAgent := .ok ⟨engineAgent "selector", true⟩
  execute _ _ _ := pure ⟨[], none⟩
  members := members.map fun m => .agent (engineAgent m.name) ""
  userInput := .user ""
  history := []
  start := ()

theorem loads_firstMemberRun {team : TeamCRD} (h : ∀ m ∈ team.members, m.name ≠ "") :
    team.Loads (firstMemberRun team.members).members := by
  refine ⟨?_, h⟩
  rw [firstMemberRun, List.map_map]
  rfl

section FirstMember

variable (spec : TeamSpec) (m : TeamMember) (rest : List TeamMember)

theorem resolveSelection_firstMemberRun :
    spec.resolveSelection (firstMemberRun (m :: rest)).env true ⟨[], none⟩
      (firstMemberRun (m :: rest)).members = .ok (.agent (engineAgent m.name) "") := by
  have hname : TeamSpec.resolveSelectedMember m.name (firstMemberRun (m :: rest)).members =
      .ok (.agent (engineAgent m.name) "") := by
    have hfound : (firstMemberRun (m :: rest)).members.find? (fun member => member.name = m.name) =
        some (.agent (engineAgent m.name) "") := List.find?_cons_of_pos (decide_eq_true rfl)
    unfold TeamSpec.resolveSelectedMember
    rw [hfound]
  unfold TeamSpec.resolveSelection TeamSpec.resolveEngineSelection
  cases spec.terminateEnabled with
  | false => exact hname
  | true => exact hname

theorem nextMember_firstMemberRun (template : String) (userInput : Message)
    (history messages newMessages : List Message) :
    (spec.nextMember (firstMemberRun (m :: rest)).env true (firstMemberRun (m :: rest)).selectorAgent 1
      (firstMemberRun (m :: rest)).members template userInput history "" messages newMessages
        ()).ending = .ok (.ok (.agent (engineAgent m.name) "")) := by
  apply mapError_ok.mpr
  rw [← resolveSelection_firstMemberRun spec m rest, TeamSpec.determineNextMember_first]
  rfl

theorem turns_firstMemberRun (hstrategy : spec.strategy = "selector") :
    (firstMemberRun (m :: rest)).turns spec 1 ≠ [] := by
  have hnext := nextMember_firstMemberRun spec m rest spec.selectorTemplate (.user "") [] [] []
  have hturns : turnsOf (spec.selectorTurns (firstMemberRun (m :: rest)).env true
      (firstMemberRun (m :: rest)).selectorAgent 1 (quietly (firstMemberRun (m :: rest)).execute)
        (firstMemberRun (m :: rest)).members spec.selectorTemplate (.user "") [] 1 0 "" [] []) () ≠
          [] := by
    change turnsOf (TeamSpec.nextMember _ _ _ _ _ _ _ _ _ _ _ _ >>= _) _ ≠ []
    rw [turnsOf_bind_ok hnext]
    apply List.append_ne_nil_of_right_ne_nil
    apply turnsOf_bind (P := (· ≠ []))
    · rw [TeamSpec.turnsOf_executeMemberAndAccumulate]
      exact List.cons_ne_nil _ _
    · intro t _
      rw [TeamSpec.turnsOf_executeMemberAndAccumulate]
      exact List.cons_ne_nil _ _
  unfold TeamRun.turns
  rw [TeamSpec.turnsOf_execute, TeamSpec.execFunc_selector _ hstrategy]
  exact hturns

end FirstMember

/-! ### When runs keep their shape -/

theorem TeamCRD.not_runsInShape {s : TeamStore} {team : TeamCRD}
    (hnamed : ∀ m ∈ team.members, m.name ≠ "") (h : ¬ team.AllowsTurns) : ¬ team.RunsInShape s := by
  intro hshape
  apply h
  intro k hk
  have hlength := ((hshape Unit _ (loads_firstMemberRun hnamed)).1 1).maxTurns k hk
  have hnonneg : 0 ≤ k := le_trans (Int.natCast_nonneg _) hlength
  refine ⟨hnonneg, fun hstrategy hmembers => lt_of_le_of_ne hnonneg ?_⟩
  rintro rfl
  obtain ⟨m, rest, hcons⟩ := List.exists_cons_of_ne_nil hmembers
  apply turns_firstMemberRun (team.spec s.namespace) m rest hstrategy
  rw [hcons] at hlength
  exact List.length_eq_zero_iff.mp (by simpa using hlength)

/-- A team that admission lets through takes its turns in shape if it cannot be loaded, for want of a
member's name, or wherever it may take no turn takes none. -/
theorem team_runs_in_shape_iff (s : TeamStore) (crd : TeamCRD)
    (h : s.validateTeam crd.defaultTeam = .ok ()) : crd.defaultTeam.RunsInShape s ↔
      (∃ m ∈ crd.members, m.name = "") ∨ crd.defaultTeam.AllowsTurns := by
  have hadmitted := TeamStore.admitted_of_validateTeam h
  rw [← crd.defaultTeam_members]
  constructor
  · intro hshape
    by_contra hfails
    push Not at hfails
    exact TeamCRD.not_runsInShape hfails.1 hfails.2 hshape
  · rintro (⟨m, hm, hname⟩ | hallows)
    · intro W r hloads
      exact absurd hname (hloads.2 m hm)
    · intro W r hloads
      exact ⟨TeamCRD.shape_turns hadmitted hallows r hloads, TeamCRD.terminates hadmitted r⟩

/-- A selector's team of one agent. -/
def helpdesk (maxTurns : ℤ) : TeamCRD :=
  { name := "helpdesk", members := [⟨"support", "agent"⟩], strategy := "selector",
    maxTurns := some maxTurns, selector := some { agent := "router" } }

def helpdeskStore : TeamStore := { emptyStore with
  agents := [⟨"support", "default", [], false⟩, ⟨"router", "default", [], false⟩] }

theorem helpdesk_runs_in_shape :
    helpdeskStore.validateTeam (helpdesk 3).defaultTeam = .ok () ∧
      ((helpdesk 3).defaultTeam.RunsInShape helpdeskStore ↔
        (∃ m ∈ (helpdesk 3).members, m.name = "") ∨ (helpdesk 3).defaultTeam.AllowsTurns) :=
  ⟨rfl, team_runs_in_shape_iff helpdeskStore (helpdesk 3) rfl⟩

/-- With `maxTurns: 0` the agent is executed once. -/
theorem turn_beyond_max_turns : ¬ ∀ (s : TeamStore) (crd : TeamCRD),
    s.validateTeam crd.defaultTeam = .ok () → crd.defaultTeam.RunsInShape s := by
  intro h
  apply TeamCRD.not_runsInShape _ _ (h helpdeskStore (helpdesk 0) rfl)
  · intro m hm
    obtain rfl := List.mem_singleton.mp hm
    decide
  · intro hallows
    exact absurd ((hallows 0 rfl).2 rfl (List.cons_ne_nil _ _)) (lt_irrefl 0)

end Ark
