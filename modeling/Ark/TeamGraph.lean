import Ark.KeyedTable
import Ark.Machine
import Ark.Reachability
import Ark.Team

/-!
# The graph of teams

Members of a team are agents or teams of its namespace. Admission looks at one team at a time: its
members exist and none has its own name, so that teams can still be members of each other. `MakeTeam`
loads the members of members without end on such a cycle, `teamReachesAgent` keeps a set of the teams
that it has visited. Recursions have a bound on their depth or rounds; a result is one for some bound.
-/

namespace Ark

open KeyedTable Relation Reachability

structure TeamMember where
  name : String
  type : String
  deriving DecidableEq, Repr

structure TeamCRD where
  name : String
  members : List TeamMember
  strategy : String
  description : String := ""
  loops : Option Bool := none
  maxTurns : Option Int := none
  selector : Option TeamSelectorSpec := none
  graph : Option (List TeamGraphEdge) := none
  deriving DecidableEq, Repr

/-- The teams and agents of a namespace. `getError` is the text of the error of a read that finds
nothing. -/
structure TeamStore where
  «namespace» : String
  teams : List TeamCRD
  agents : List AgentCRD
  getError : (kind name : String) → String

namespace TeamStore

def getTeam (s : TeamStore) (name : String) : Except String TeamCRD :=
  match find TeamCRD.name name s.teams with
  | some team => .ok team
  | none => .error (s.getError "Team" name)

def getAgent (s : TeamStore) (name : String) : Except String AgentCRD :=
  match find AgentCRD.name name s.agents with
  | some agent => .ok agent
  | none => .error (s.getError "Agent" name)

/-! ### Admission -/

/-- `ResourceExists` for the kinds that a team refers to. -/
def resourceExists (s : TeamStore) (kind name : String) : Except String Unit :=
  if name = "" then .ok ()
  else
    let found : Except String Unit :=
      if kind = "Agent" then (s.getAgent name).map fun _ => () else (s.getTeam name).map fun _ => ()
    found.mapError fun err => kind.toLower ++ " '" ++ name ++ "' does not exist in namespace '" ++
      s.namespace ++ "': " ++ err

def validateSequentialStrategy (team : TeamCRD) : Except String Unit :=
  let loopsEnabled := team.loops = some true
  if loopsEnabled ∧ team.maxTurns = none then .error "maxTurns is required when loops is enabled"
  else if ¬ loopsEnabled ∧ team.maxTurns ≠ none then
    .error "maxTurns can only be set when loops is enabled"
  else .ok ()

def validateSelectorAgent (s : TeamStore) (team : TeamCRD) : Except String Unit :=
  match team.selector with
  | none => .error "selector strategy requires selector.agent to be specified"
  | some selector =>
    if selector.agent = "" then
      .error "selector strategy requires selector.agent to be specified"
    else (s.resourceExists "Agent" selector.agent).mapError fun err => "selector agent '" ++
      selector.agent ++ "' not found in namespace " ++ s.namespace ++ ": " ++ err

def validateEdges (memberNames : List String) (i : ℕ) : List TeamGraphEdge → Except String Unit
  | [] => .ok ()
  | edge :: edges =>
    if edge.from_ ∉ memberNames then
      .error ("graph edge " ++ toString i ++ ": 'from' member '" ++ edge.from_ ++
        "' not found in team members")
    else if edge.to_ ∉ memberNames then
      .error ("graph edge " ++ toString i ++ ": 'to' member '" ++ edge.to_ ++
        "' not found in team members")
    else validateEdges memberNames (i + 1) edges

def validateGraphForSelector (team : TeamCRD) : Except String Unit :=
  match team.graph with
  | none => .error "graph constraint requires graph configuration"
  | some edges =>
    if edges = [] then .error "graph constraint requires at least one edge"
    else validateEdges (team.members.map (·.name)) 0 edges

def validateStrategy (s : TeamStore) (team : TeamCRD) : Except String Unit :=
  if team.strategy = "sequential" then validateSequentialStrategy team
  else if team.strategy = "round-robin" then .ok ()
  else if team.strategy = "selector" then
    if team.loops = some true then
      .error "loops can only be used with the 'sequential' strategy"
    else do
      validateSelectorAgent s team
      if team.maxTurns = none then
        .error "selector strategy requires maxTurns to prevent infinite execution"
      else if team.graph ≠ none then validateGraphForSelector team
      else .ok ()
  else .error ("unsupported strategy '" ++ team.strategy ++
    "': must be 'sequential', 'round-robin', or 'selector'")

def validateMembers (s : TeamStore) (teamName : String) (i : ℕ) :
    List TeamMember → Except String Unit
  | [] => .ok ()
  | member :: members =>
    let at_ := "team member " ++ toString i
    if member.name = teamName then
      .error (at_ ++ ": team '" ++ member.name ++ "' cannot reference itself")
    else if member.type = "agent" then do
      (s.resourceExists "Agent" member.name).mapError (at_ ++ " references agent: " ++ ·)
      validateMembers s teamName (i + 1) members
    else if member.type = "team" then do
      (s.resourceExists "Team" member.name).mapError (at_ ++ " references team: " ++ ·)
      validateMembers s teamName (i + 1) members
    else .error (at_ ++ " has invalid type '" ++ member.type ++ "': must be 'agent' or 'team'")

/-- `ValidateTeam`, without its warnings. -/
def validateTeam (s : TeamStore) (team : TeamCRD) : Except String Unit := do
  validateStrategy s team
  validateMembers s team.name 0 team.members

end TeamStore

inductive AdmissionAction
  | putTeam (team : TeamCRD)
  | putAgent (agent : AgentCRD)
  | deleteTeam (name : String)
  | deleteAgent (name : String)

namespace TeamStore

/-- Teams are validated when they are created or updated, and nothing is when it is deleted. -/
def step (s : TeamStore) : AdmissionAction → Option TeamStore
  | .putTeam team =>
    match s.validateTeam team with
    | .ok () => some { s with teams := put TeamCRD.name team s.teams }
    | .error _ => none
  | .putAgent agent => some { s with agents := put AgentCRD.name agent s.agents }
  | .deleteTeam name => some { s with teams := remove TeamCRD.name name s.teams }
  | .deleteAgent name => some { s with agents := remove AgentCRD.name name s.agents }

def machine : Machine TeamStore AdmissionAction where
  init s := s.teams = [] ∧ s.agents = []
  step := step

end TeamStore

/-! ### Loading a team -/

inductive LoadedMember
  | agent (A : Agent)
  | team (spec : TeamSpec) (members : List LoadedMember)

def TeamCRD.spec (crd : TeamCRD) («namespace» : String) : TeamSpec where
  name := crd.name
  «namespace» := «namespace»
  description := crd.description
  strategy := crd.strategy
  loops := crd.loops = some true
  maxTurns := crd.maxTurns
  selector := crd.selector
  graph := crd.graph

section Load

variable (k : K8sClient) (s : TeamStore)

def loadTeamMember (makeTeam : TeamCRD → Option (Except String LoadedMember)) (teamName : String)
    (memberSpec : TeamMember) : Option (Except String LoadedMember) :=
  if memberSpec.type = "agent" then
    match s.getAgent memberSpec.name with
    | .error err => some (.error ("failed to get agent " ++ memberSpec.name ++ " for team " ++
        teamName ++ ": " ++ err))
    | .ok crd => some ((makeAgent k crd).map .agent)
  else if memberSpec.type = "team" then
    match s.getTeam memberSpec.name with
    | .error err => some (.error ("failed to get team " ++ memberSpec.name ++ " for team " ++
        teamName ++ ": " ++ err))
    | .ok crd => makeTeam crd
  else some (.error ("unsupported member type " ++ memberSpec.type ++ " for member " ++
    memberSpec.name ++ " in team " ++ teamName))

/-- `loadTeamMembers`, with what loads one member. -/
def loadTeamMembers (load : TeamMember → Option (Except String LoadedMember)) :
    List TeamMember → Option (Except String (List LoadedMember))
  | [] => some (.ok [])
  | memberSpec :: members =>
    match load memberSpec with
    | none => none
    | some (.error err) => some (.error err)
    | some (.ok member) => (loadTeamMembers load members).map fun r => r.map (member :: ·)

/-- `MakeTeam`, to a given depth. -/
def makeTeam : ℕ → TeamCRD → Option (Except String LoadedMember)
  | 0, _ => none
  | fuel + 1, crd =>
    (loadTeamMembers (loadTeamMember k s (makeTeam fuel) crd.name) crd.members).map fun r =>
      r.map (.team (crd.spec s.namespace))

end Load

/-! ### Which agents a team may call -/

/-- The loop over the members of a team: nothing if the agent is one of them, else the names that
become pending. -/
def pendingMembers (agentName : String) : List TeamMember → Option (List String)
  | [] => some []
  | member :: members =>
    if member.type = "agent" then
      if member.name = agentName then none else pendingMembers agentName members
    else if member.type = "team" then (pendingMembers agentName members).map (member.name :: ·)
    else pendingMembers agentName members

def visitTeam (s : TeamStore) (agentName name : String) : Except String (Visit String) :=
  match s.getTeam name with
  | .error err => .error ("failed to get team " ++ s.namespace ++ "/" ++ name ++
      " while authorising sub-target \"" ++ agentName ++ "\": " ++ err)
  | .ok team =>
    if team.selector.any (·.agent = agentName) then .ok .found
    else match pendingMembers agentName team.members with
      | none => .ok .found
      | some names => .ok (.successors names)

def teamReachesAgent (s : TeamStore) (fuel : ℕ) (teamName agentName : String) :
    Option (Except String Bool) := search (visitTeam s agentName) fuel [] [teamName]

structure QueryTarget where
  type : String
  name : String
  deriving DecidableEq, Repr

def validateTargetOverride (s : TeamStore) (fuel : ℕ) (queryName : String)
    (declared : Option QueryTarget) (override : QueryTarget) : Option (Except String Unit) :=
  let query := "query " ++ s.namespace ++ "/" ++ queryName
  if override.type ≠ "agent" then
    some (.error ("query ref target type \"" ++ override.type ++
      "\" is not supported: only \"agent\" targets may be overridden"))
  else match declared with
    | none => some (.error (query ++ " has no target, so agent \"" ++ override.name ++
        "\" cannot be authorised as a sub-target"))
    | some declared =>
      if declared.type ≠ "team" then
        some (.error (query ++ " targets " ++ declared.type ++ " \"" ++ declared.name ++
          "\", so agent \"" ++ override.name ++
          "\" cannot be executed as a sub-target: only team targets may delegate"))
      else (teamReachesAgent s fuel declared.name override.name).map fun
        | .error err => .error err
        | .ok true => .ok ()
        | .ok false => .error ("agent \"" ++ override.name ++
            "\" is not a member or selector of team \"" ++ declared.name ++ "\" targeted by " ++
            query)

/-! ### When loading ends -/

section Termination

variable {k : K8sClient} {s : TeamStore}

/-- A member that can be built. -/
inductive Builds (k : K8sClient) (s : TeamStore) : TeamMember → Prop
  | agent {m : TeamMember} {crd : AgentCRD} {A : Agent} (htype : m.type = "agent")
      (hget : s.getAgent m.name = .ok crd) (hmake : makeAgent k crd = .ok A) : Builds k s m
  | team {m : TeamMember} {crd : TeamCRD} (htype : m.type = "team")
      (hget : s.getTeam m.name = .ok crd) (hmembers : ∀ m' ∈ crd.members, Builds k s m') :
      Builds k s m

/-- Loading `t` enters `t'`: a team member of it whose predecessors can be built. -/
def Enters (k : K8sClient) (s : TeamStore) (t t' : TeamCRD) : Prop :=
  ∃ pre m post, t.members = pre ++ m :: post ∧ (∀ x ∈ pre, Builds k s x) ∧ m.type = "team" ∧
    s.getTeam m.name = .ok t'

variable {load : TeamMember → Option (Except String LoadedMember)}

theorem loadTeamMembers_ok {l : List TeamMember} {members : List LoadedMember}
    (h : loadTeamMembers load l = some (.ok members)) : ∀ m ∈ l, ∃ x, load m = some (.ok x) := by
  induction l generalizing members with
  | nil => simp
  | cons m l ih =>
    rw [loadTeamMembers] at h
    split at h
    next => cases h
    next => cases h
    next x hx =>
      intro m' hm'
      obtain ⟨r, hr, hmap⟩ := Option.map_eq_some_iff.mp h
      cases r with
      | error err => cases hmap
      | ok members' =>
        obtain rfl | hm' := List.mem_cons.mp hm'
        · exact ⟨x, hx⟩
        · exact ih hr m' hm'

/-- The loading of members reaches the one after those that load. -/
theorem loadTeamMembers_reaches {pre post : List TeamMember} {m : TeamMember}
    {r : Except String (List LoadedMember)}
    (hpre : ∀ x ∈ pre, ∀ r, load x = some r → ∃ y, r = .ok y)
    (h : loadTeamMembers load (pre ++ m :: post) = some r) : load m ≠ none := by
  induction pre generalizing r with
  | nil =>
    intro hm
    rw [List.nil_append, loadTeamMembers, hm] at h
    cases h
  | cons x pre ih =>
    rw [List.cons_append, loadTeamMembers] at h
    split at h
    next => cases h
    next err hx =>
      obtain ⟨y, hy⟩ := hpre x List.mem_cons_self _ hx
      cases hy
    next y hx =>
      obtain ⟨r', hr', -⟩ := Option.map_eq_some_iff.mp h
      exact ih (fun z hz => hpre z (List.mem_cons_of_mem x hz)) hr'

theorem makeTeam_succ {fuel : ℕ} {crd : TeamCRD} {r : Except String LoadedMember}
    (h : makeTeam k s (fuel + 1) crd = some r) :
    ∃ r', loadTeamMembers (loadTeamMember k s (makeTeam k s fuel) crd.name) crd.members = some r' ∧
      r = r'.map (.team (crd.spec s.namespace)) := by
  rw [makeTeam] at h
  obtain ⟨r', hr', hmap⟩ := Option.map_eq_some_iff.mp h
  exact ⟨r', hr', hmap.symm⟩

/-- A member that was loaded can be built. -/
theorem builds_of_load {make : TeamCRD → Option (Except String LoadedMember)} {teamName : String}
    {m : TeamMember} {x : LoadedMember}
    (hmake : ∀ crd y, make crd = some (.ok y) → ∀ m' ∈ crd.members, Builds k s m')
    (h : loadTeamMember k s make teamName m = some (.ok x)) : Builds k s m := by
  unfold loadTeamMember at h
  split at h
  next htype =>
    split at h
    next => cases h
    next crd hget =>
      cases hagent : makeAgent k crd with
      | error err =>
        rw [hagent] at h
        cases h
      | ok A => exact .agent htype hget hagent
  next =>
    split at h
    next htype =>
      split at h
      next => cases h
      next crd hget => exact .team htype hget (hmake crd x h)
    next => cases h

theorem builds_of_makeTeam {fuel : ℕ} {crd : TeamCRD} {x : LoadedMember}
    (h : makeTeam k s fuel crd = some (.ok x)) : ∀ m ∈ crd.members, Builds k s m := by
  induction fuel generalizing crd x with
  | zero => cases h
  | succ fuel ih =>
    obtain ⟨r, hr, hx⟩ := makeTeam_succ h
    cases r with
    | error err => cases hx
    | ok members =>
      intro m hm
      obtain ⟨y, hy⟩ := loadTeamMembers_ok hr m hm
      exact builds_of_load (fun _ _ => ih) hy

theorem loadTeamMembers_all_ok {l : List TeamMember} {r : Except String (List LoadedMember)}
    (hl : ∀ x ∈ l, ∀ r, load x = some r → ∃ y, r = .ok y) (h : loadTeamMembers load l = some r) :
    ∃ members, r = .ok members := by
  induction l generalizing r with
  | nil => exact ⟨[], (Option.some.inj h).symm⟩
  | cons m l ih =>
    rw [loadTeamMembers] at h
    split at h
    next => cases h
    next err hm =>
      obtain ⟨y, hy⟩ := hl m List.mem_cons_self _ hm
      cases hy
    next y _ =>
      obtain ⟨r', hr', rfl⟩ := Option.map_eq_some_iff.mp h
      obtain ⟨members, rfl⟩ := ih (fun x hx => hl x (List.mem_cons_of_mem m hx)) hr'
      exact ⟨y :: members, rfl⟩

/-- A member that can be built loads, to whatever depth it takes. -/
theorem ok_of_builds {m : TeamMember} (hbuilds : Builds k s m) {fuel : ℕ} {teamName : String}
    {r : Except String LoadedMember}
    (h : loadTeamMember k s (makeTeam k s fuel) teamName m = some r) : ∃ y, r = .ok y := by
  induction hbuilds generalizing fuel teamName r with
  | agent htype hget hmake =>
    rw [loadTeamMember, if_pos htype, hget] at h
    simp only [hmake] at h
    exact ⟨_, (Option.some.inj h).symm⟩
  | team htype hget _ ih =>
    rw [loadTeamMember, if_neg (by rw [htype]; decide), if_pos htype, hget] at h
    cases fuel with
    | zero => cases h
    | succ fuel =>
      obtain ⟨r', hr', rfl⟩ := makeTeam_succ h
      obtain ⟨members, rfl⟩ := loadTeamMembers_all_ok (fun x hx r hr => ih x hx hr) hr'
      exact ⟨_, rfl⟩

theorem acc_of_makeTeam {fuel : ℕ} {crd : TeamCRD} {r : Except String LoadedMember}
    (h : makeTeam k s fuel crd = some r) : Acc (flip (Enters k s)) crd := by
  induction fuel generalizing crd r with
  | zero => cases h
  | succ fuel ih =>
    refine Acc.intro _ ?_
    rintro t ⟨pre, m, post, hmembers, hpre, htype, hget⟩
    obtain ⟨r', hr', -⟩ := makeTeam_succ h
    rw [hmembers] at hr'
    have hreach := loadTeamMembers_reaches (fun x hx r hr => ok_of_builds (hpre x hx) hr) hr'
    rw [loadTeamMember, if_neg (by rw [htype]; decide), if_pos htype, hget] at hreach
    obtain ⟨r'', hr''⟩ := Option.ne_none_iff_exists'.mp hreach
    exact ih hr''

theorem loadTeamMembers_mono {load' : TeamMember → Option (Except String LoadedMember)}
    {l : List TeamMember} {r : Except String (List LoadedMember)}
    (hload : ∀ m ∈ l, ∀ r, load m = some r → load' m = some r)
    (h : loadTeamMembers load l = some r) : loadTeamMembers load' l = some r := by
  induction l generalizing r with
  | nil => exact h
  | cons m l ih =>
    rw [loadTeamMembers] at h ⊢
    split at h
    next => cases h
    next err hm =>
      rw [hload m List.mem_cons_self _ hm]
      exact h
    next y hm =>
      rw [hload m List.mem_cons_self _ hm]
      obtain ⟨r', hr', rfl⟩ := Option.map_eq_some_iff.mp h
      dsimp only
      rw [ih (fun x hx => hload x (List.mem_cons_of_mem m hx)) hr', Option.map_some]

theorem loadTeamMember_mono {make make' : TeamCRD → Option (Except String LoadedMember)}
    (hmake : ∀ crd r, make crd = some r → make' crd = some r) {teamName : String}
    {m : TeamMember} {r : Except String LoadedMember}
    (h : loadTeamMember k s make teamName m = some r) :
    loadTeamMember k s make' teamName m = some r := by
  unfold loadTeamMember at h ⊢
  split
  next htype => rwa [if_pos htype] at h
  next htype =>
    rw [if_neg htype] at h
    split
    next htype' =>
      rw [if_pos htype'] at h
      split
      next err herr => rwa [herr] at h
      next crd hget =>
        rw [hget] at h
        exact hmake crd r h
    next htype' => rwa [if_neg htype'] at h

/-- A greater depth gives the same result. -/
theorem makeTeam_mono {fuel fuel' : ℕ} (hle : fuel ≤ fuel') {crd : TeamCRD}
    {r : Except String LoadedMember} (h : makeTeam k s fuel crd = some r) :
    makeTeam k s fuel' crd = some r := by
  induction fuel generalizing fuel' crd r with
  | zero => cases h
  | succ fuel ih =>
    obtain ⟨fuel', rfl⟩ := Nat.exists_eq_succ_of_ne_zero (by omega : fuel' ≠ 0)
    obtain ⟨r', hr', rfl⟩ := makeTeam_succ h
    have hmembers := loadTeamMembers_mono (fun m _ r hr =>
      loadTeamMember_mono (fun crd r => ih (Nat.le_of_succ_le_succ hle)) hr) hr'
    rw [makeTeam, hmembers, Option.map_some]

theorem exists_loadTeamMember {crd : TeamCRD} {pre l : List TeamMember} {m : TeamMember}
    (hmembers : crd.members = pre ++ m :: l) (hpre : ∀ x ∈ pre, Builds k s x)
    (hmake : ∀ t, Enters k s crd t → ∃ fuel r, makeTeam k s fuel t = some r) :
    ∃ fuel r, loadTeamMember k s (makeTeam k s fuel) crd.name m = some r := by
  unfold loadTeamMember
  split
  next =>
    split
    · exact ⟨0, _, rfl⟩
    · exact ⟨0, _, rfl⟩
  next =>
    split
    next htype =>
      split
      next => exact ⟨0, _, rfl⟩
      next t hget => exact hmake t ⟨pre, m, l, hmembers, hpre, htype, hget⟩
    next => exact ⟨0, _, rfl⟩

/-- The loading of members ends if the loading of every team that it enters does. -/
theorem exists_loadTeamMembers {crd : TeamCRD} (pre l : List TeamMember)
    (hmembers : crd.members = pre ++ l) (hpre : ∀ x ∈ pre, Builds k s x)
    (hmake : ∀ t, Enters k s crd t → ∃ fuel r, makeTeam k s fuel t = some r) :
    ∃ fuel r, loadTeamMembers (loadTeamMember k s (makeTeam k s fuel) crd.name) l = some r := by
  induction l generalizing pre with
  | nil => exact ⟨0, _, rfl⟩
  | cons m l ih =>
    obtain ⟨fuel, r, hr⟩ := exists_loadTeamMember hmembers hpre hmake
    cases r with
    | error err => exact ⟨fuel, .error err, by rw [loadTeamMembers, hr]⟩
    | ok y =>
      have hbuilds : Builds k s m := builds_of_load (fun _ _ => builds_of_makeTeam) hr
      obtain ⟨fuel', r', hr'⟩ := ih (pre ++ [m]) (by rw [hmembers]; simp) (by
        intro x hx
        obtain hx | hx := List.mem_append.mp hx
        · exact hpre x hx
        · exact List.mem_singleton.mp hx ▸ hbuilds)
      refine ⟨max fuel fuel', r'.map (y :: ·), ?_⟩
      have hm := loadTeamMember_mono (fun crd r => makeTeam_mono (le_max_left fuel fuel')) hr
      have hl := loadTeamMembers_mono (fun x _ r hx =>
        loadTeamMember_mono (fun crd r => makeTeam_mono (le_max_right fuel fuel')) hx) hr'
      rw [loadTeamMembers, hm]
      dsimp only
      rw [hl, Option.map_some]

theorem makeTeam_of_acc {crd : TeamCRD} (h : Acc (flip (Enters k s)) crd) :
    ∃ fuel r, makeTeam k s fuel crd = some r := by
  induction h with
  | intro crd _ ih =>
    obtain ⟨fuel, r, hr⟩ := exists_loadTeamMembers [] crd.members rfl (by simp) ih
    exact ⟨fuel + 1, _, by rw [makeTeam, hr, Option.map_some]⟩

theorem finite_entered (crd : TeamCRD) : {t | ReflTransGen (Enters k s) crd t}.Finite := by
  apply ((s.teams.finite_toSet).insert crd).subset
  intro t ht
  obtain rfl | ⟨_, _, -, m, -, -, -, -, hget⟩ := ReflTransGen.cases_tail ht
  · exact .inl rfl
  · right
    unfold TeamStore.getTeam at hget
    split at hget
    next t' ht' =>
      obtain rfl : t' = t := by simpa using hget
      exact mem_of_find ht'
    next => cases hget

/-- `MakeTeam` ends if and only if it enters no team again from itself. -/
theorem makeTeam_ends_iff (crd : TeamCRD) : (∃ fuel r, makeTeam k s fuel crd = some r) ↔
    ∀ t, ReflTransGen (Enters k s) crd t → ¬ TransGen (Enters k s) t t := by
  rw [← acc_iff_acyclic (finite_entered crd)]
  exact ⟨fun ⟨_, _, h⟩ => acc_of_makeTeam h, makeTeam_of_acc⟩

end Termination

/-! ### What the search finds -/

section Search

variable {s : TeamStore} {agentName : String}

/-- The team `y` is a member of the team `x`. -/
def TeamMemberOf (s : TeamStore) (x y : String) : Prop :=
  ∃ team, s.getTeam x = .ok team ∧ ∃ m ∈ team.members, m.type = "team" ∧ m.name = y

/-- The agent is a member of the team or its selector. -/
def NamesAgent (s : TeamStore) (agentName x : String) : Prop :=
  ∃ team, s.getTeam x = .ok team ∧
    ((∃ m ∈ team.members, m.type = "agent" ∧ m.name = agentName) ∨
      ∃ selector, team.selector = some selector ∧ selector.agent = agentName)

theorem pendingMembers_eq (l : List TeamMember) : pendingMembers agentName l =
    if ∃ m ∈ l, m.type = "agent" ∧ m.name = agentName then none
    else some ((l.filter (·.type = "team")).map (·.name)) := by
  induction l with
  | nil => rfl
  | cons m l ih =>
    rw [pendingMembers, ih]
    by_cases hagent : m.type = "agent"
    · by_cases hname : m.name = agentName
      · simp [hagent, hname]
      · simp [hagent, hname]
    · by_cases hteam : m.type = "team"
      · by_cases hex : ∃ m ∈ l, m.type = "agent" ∧ m.name = agentName
        · simp [hteam, hex]
        · simp [hteam, hex]
      · simp [hagent, hteam]

theorem visitTeam_error {x e : String} (h : visitTeam s agentName x = .error e) :
    ∃ err, s.getTeam x = .error err := by
  unfold visitTeam at h
  split at h
  next err herr => exact ⟨err, herr⟩
  next =>
    split at h
    · cases h
    · split at h <;> cases h

theorem visitTeam_found {x : String} :
    visitTeam s agentName x = .ok .found ↔ NamesAgent s agentName x := by
  unfold visitTeam NamesAgent
  cases hget : s.getTeam x with
  | error err => simp
  | ok team =>
    simp only [pendingMembers_eq, Except.ok.injEq, exists_eq_left']
    by_cases hselector : ∃ selector, team.selector = some selector ∧ selector.agent = agentName
    · have hany : team.selector.any (·.agent = agentName) = true := by
        simpa [Option.any_eq_true] using hselector
      rw [if_pos hany]
      exact iff_of_true rfl (.inr hselector)
    · have hany : ¬ team.selector.any (·.agent = agentName) = true := by
        simpa [Option.any_eq_true] using hselector
      rw [if_neg hany, or_iff_left hselector]
      by_cases hmember : ∃ m ∈ team.members, m.type = "agent" ∧ m.name = agentName
      · simp [hmember]
      · simp [hmember]

theorem visitTeam_successors {x : String} {l : List String}
    (h : visitTeam s agentName x = .ok (.successors l)) :
    ∃ team, s.getTeam x = .ok team ∧ l = (team.members.filter (·.type = "team")).map (·.name) := by
  unfold visitTeam at h
  split at h
  next => cases h
  next team hget =>
    refine ⟨team, hget, ?_⟩
    split at h
    · cases h
    · rw [pendingMembers_eq] at h
      split at h
      next => cases h
      next names hnames =>
        split at hnames
        next => cases hnames
        next =>
          obtain rfl := Option.some.inj hnames
          simpa using h.symm

theorem teamMemberOf_of_step {x y : String} (h : Step (visitTeam s agentName) x y) :
    TeamMemberOf s x y := by
  obtain ⟨l, hl, hy⟩ := h
  obtain ⟨team, hget, rfl⟩ := visitTeam_successors hl
  obtain ⟨m, hm, rfl⟩ := List.mem_map.mp hy
  obtain ⟨hm, htype⟩ := List.mem_filter.mp hm
  exact ⟨team, hget, m, hm, by simpa using htype, rfl⟩

/-- A team that names the agent is on a path that the search follows. -/
theorem exists_step_path {x y : String} (h : ReflTransGen (TeamMemberOf s) x y)
    (hy : NamesAgent s agentName y) :
    ∃ z, ReflTransGen (Step (visitTeam s agentName)) x z ∧ NamesAgent s agentName z := by
  induction h using ReflTransGen.head_induction_on with
  | refl => exact ⟨y, .refl, hy⟩
  | @head x w hxw _ ih =>
    by_cases hx : NamesAgent s agentName x
    · exact ⟨x, .refl, hx⟩
    · obtain ⟨z, hwz, hz⟩ := ih
      refine ⟨z, .head ?_ hwz, hz⟩
      obtain ⟨team, hget, m, hm, htype, rfl⟩ := hxw
      cases hvisit : visitTeam s agentName x with
      | error e =>
        obtain ⟨err, herr⟩ := visitTeam_error hvisit
        rw [hget] at herr
        cases herr
      | ok v =>
        cases v with
        | found => exact absurd (visitTeam_found.mp hvisit) hx
        | successors l =>
          obtain ⟨team', hget', rfl⟩ := visitTeam_successors hvisit
          obtain rfl : team = team' := by
            rw [hget] at hget'
            exact Except.ok.inj hget'
          refine ⟨_, hvisit, List.mem_map.mpr ⟨m, List.mem_filter.mpr ⟨hm, ?_⟩, rfl⟩⟩
          simpa using htype

theorem known_of_visitTeam (x : String) (l : List String)
    (h : visitTeam s agentName x = .ok (.successors l)) : x ∈ s.teams.map TeamCRD.name := by
  obtain ⟨team, hget, -⟩ := visitTeam_successors h
  unfold TeamStore.getTeam at hget
  split at hget
  next t ht => exact List.mem_map.mpr ⟨t, mem_of_find ht, key_of_find ht⟩
  next => cases hget

/-- The search ends, whatever the graph. -/
theorem teamReachesAgent_ends (s : TeamStore) (teamName agentName : String) :
    ∃ fuel r, teamReachesAgent s fuel teamName agentName = some r :=
  ⟨_, Option.ne_none_iff_exists'.mp (search_ends known_of_visitTeam (Nat.lt_succ_self _))⟩

theorem teamReachesAgent_exact {teamName : String}
    (hexists : ∀ y, ReflTransGen (TeamMemberOf s) teamName y → ∃ team, s.getTeam y = .ok team)
    (agentName : String) :
    ∃ fuel b, teamReachesAgent s fuel teamName agentName = some (.ok b) ∧
      (b = true ↔ ∃ y, ReflTransGen (TeamMemberOf s) teamName y ∧ NamesAgent s agentName y) := by
  have hmono : ∀ {y}, ReflTransGen (Step (visitTeam s agentName)) teamName y →
      ReflTransGen (TeamMemberOf s) teamName y :=
    fun h => ReflTransGen.mono (fun _ _ => teamMemberOf_of_step) _ _ h
  obtain ⟨fuel, b, hb, hfound⟩ := search_exact (a := teamName) (@known_of_visitTeam s agentName) (by
      intro y e hy hvisit
      obtain ⟨err, herr⟩ := visitTeam_error hvisit
      obtain ⟨team, hget⟩ := hexists y (hmono hy)
      rw [hget] at herr
      cases herr)
  refine ⟨fuel, b, hb, hfound.trans ?_⟩
  constructor
  · rintro ⟨y, hy, hvisit⟩
    exact ⟨y, hmono hy, visitTeam_found.mp hvisit⟩
  · rintro ⟨y, hy, hnames⟩
    obtain ⟨z, hz, hnames⟩ := exists_step_path hy hnames
    exact ⟨z, hz, visitTeam_found.mpr hnames⟩

end Search

/-! ### Construction and authorisation -/

/-- Loading a team ends if and only if it enters no team again from itself. The search for an agent
always ends, and is exact where the teams that it can reach exist. -/
theorem team_construction_iff (k : K8sClient) (s : TeamStore) (crd : TeamCRD) :
    ((∃ fuel r, makeTeam k s fuel crd = some r) ∧
      (∀ agentName, ∃ fuel r, teamReachesAgent s fuel crd.name agentName = some r) ∧
      ((∀ y, ReflTransGen (TeamMemberOf s) crd.name y → ∃ team, s.getTeam y = .ok team) →
        ∀ agentName, ∃ fuel b, teamReachesAgent s fuel crd.name agentName = some (.ok b) ∧
          (b = true ↔
            ∃ y, ReflTransGen (TeamMemberOf s) crd.name y ∧ NamesAgent s agentName y))) ↔
    ∀ t, ReflTransGen (Enters k s) crd t → ¬ TransGen (Enters k s) t t := by
  rw [← makeTeam_ends_iff]
  constructor
  · exact fun h => h.1
  · exact fun h => ⟨h, teamReachesAgent_ends s crd.name, teamReachesAgent_exact⟩

def pairTeam (name member : String) : TeamCRD :=
  { name := name, members := [⟨member, "team"⟩], strategy := "sequential" }

def emptyStore : TeamStore := ⟨"default", [], [], fun kind name => kind ++ " " ++ name ++ " not found"⟩

/-- Two teams that are members of each other. -/
def pairStore : TeamStore := { emptyStore with
  teams := [pairTeam "review" "write", pairTeam "write" "review"] }

/-- A team is created without members, a second one with the first as a member, then the first is
updated. -/
theorem reachable_pairStore : TeamStore.machine.Reachable Machine.always pairStore := by
  have hempty : TeamStore.machine.Reachable Machine.always emptyStore := .init ⟨rfl, rfl⟩
  have hfirst := hempty.step (a := .putTeam { pairTeam "review" "" with members := [] })
    trivial rfl
  have hsecond := hfirst.step (a := .putTeam (pairTeam "write" "review")) trivial rfl
  exact hsecond.step (a := .putTeam (pairTeam "review" "write")) trivial rfl

theorem makeTeam_pairTeam {k : K8sClient} {s : TeamStore} {name member : String} {t : TeamCRD}
    {fuel : ℕ} (hget : s.getTeam member = .ok t) (h : makeTeam k s fuel t = none) :
    makeTeam k s (fuel + 1) (pairTeam name member) = none := by
  have hload : loadTeamMember k s (makeTeam k s fuel) name ⟨member, "team"⟩ = none := by
    have htype : ¬ "team" = "agent" := by decide
    rw [loadTeamMember, if_neg htype, if_pos rfl, hget]
    exact h
  rw [makeTeam, pairTeam]
  simp only [loadTeamMembers, hload, Option.map_none]

theorem admitted_team_loads_forever : ¬ ∀ (k : K8sClient) (s : TeamStore),
    TeamStore.machine.Reachable Machine.always s → ∀ crd ∈ s.teams,
      ∃ fuel r, makeTeam k s fuel crd = some r := by
  intro h
  let k : K8sClient := ⟨.ok (), .error, fun _ => .ok (), fun _ => .ok (), fun _ => .ok ()⟩
  obtain ⟨fuel, r, hr⟩ := h k pairStore reachable_pairStore (pairTeam "review" "write")
    List.mem_cons_self
  have hboth : ∀ fuel, makeTeam k pairStore fuel (pairTeam "review" "write") = none ∧
      makeTeam k pairStore fuel (pairTeam "write" "review") = none := by
    intro fuel
    induction fuel with
    | zero => exact ⟨rfl, rfl⟩
    | succ fuel ih => exact ⟨makeTeam_pairTeam rfl ih.2, makeTeam_pairTeam rfl ih.1⟩
  rw [(hboth fuel).1] at hr
  cases hr

end Ark
