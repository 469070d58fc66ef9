import Ark.Machine
import Ark.McpAuthPersistence

/-!
# Login flows for MCP servers

Runs of any number of start, callback and logout requests for one MCPServer, each a sequence of steps on
the Secret and at the authorization server that may end at any of them. A callback reads its flow once
and then patches the Secret by name, so that a mark may hit a flow that another start put there, or one
that another callback has authorized. Where every mark finds the flow that its callback read, flows do
not mix.
-/

namespace Ark.McpAuth

open MCP

/-! ### Requests -/

/-- The random strings of the starts, by the number of the request. -/
structure Randoms where
  state : ℕ → String
  authId : ℕ → String
  verifier : ℕ → String
  state_injective : ∀ i j, state i = state j → i = j
  authId_injective : ∀ i j, authId i = authId j → i = j
  authId_ne : ∀ i, authId i ≠ ""

/-- An MCPServer with its `tokenSecretRef`, the settings of the API server, and the start for which the
authorization server issued a code. -/
structure Site where
  serverName : String
  «namespace» : String
  keys : SecretKeys := {}
  cacheTtlSeconds : ℕ := 600
  random : Randoms
  issuedFor : String → Option ℕ

structure TokenAnswer where
  accessToken : String
  refreshToken : Option String := none
  expiresIn : Option Int := none

/-- What one step of a request meets: the clock, the registration of a client (`none` without an
endpoint, `some none` where it fails), the metadata of the server, and the answer to a code. -/
structure Answer where
  now : ℕ
  registration : Option (Option (String × String)) := none
  metadata : Bool := true
  token : Except String TokenAnswer := .error ""

/-- A request between two of its steps. A callback is `late` where its flow was gone or expired when it
was received. -/
inductive Request
  | starting (force redirectOnComplete : Bool)
  | creatingFlow (flow : FlowStart)
  | patchingFlow (flow : FlowStart)
  | received (state : String) (receivedAt : ℕ) (code error errorDescription : Option String)
      (late : Bool)
  | fetching (stateRandom : String) (flow : FlowState) (code : String)
  | exchanging (stateRandom : String) (flow : FlowState) (code : String)
  | creatingToken (flow : FlowState) (payload : SecretPatchPayload)
  | patchingToken (flow : FlowState) (payload : SecretPatchPayload)
  | markingAuthorized (flow : FlowState) (expiresAt : Option String)
  | markingFailed (flow : FlowState) (message : String)
  | loggingOut (deleteSecret keepClient : Bool)

/-- A code that was exchanged: the state that the callback carried, and the verifier it sent. -/
structure Exchange where
  stateRandom : String
  verifier : String
  code : String

/-- The Secret after a step, the request after it (`none` where it has ended), and what was exchanged. -/
structure Outcome where
  secret : Option Secret
  request : Option Request := none
  exchange : Option Exchange := none

/-- The client of a flow: cached in the Secret, or registered. -/
def chooseClient (force : Bool) (cached : CachedClientCreds)
    (registration : Option (Option (String × String))) : Option (String × String) :=
  let doDcr := force || !cached.bothPresent
  if doDcr && registration.isNone && !cached.bothPresent then none
  else if doDcr && registration.isSome then registration.join
  else some (cached.clientID.getD "", cached.clientSecret.getD "")

namespace Site

variable (site : Site)

/-- The random part of a state parameter of this server's namespace. -/
def stateRandom (state : String) : Option String :=
  let (ns, rest) := state.toList.span (· ≠ '.')
  match rest with
  | [] => none
  | _ :: random =>
    if ns ≠ [] && String.ofList ns = site.namespace then some (String.ofList random) else none

/-- The flow of start `i`. -/
def flowStart (i : ℕ) (now : ℕ) (redirectOnComplete : Bool) (client : String × String) : FlowStart where
  authId := site.random.authId i
  stateParam := site.random.state i
  verifier := site.random.verifier i
  expiresAt := flowDeadline now site.cacheTtlSeconds
  serverName := site.serverName
  «namespace» := site.namespace
  clientID := client.1
  clientSecret := client.2
  redirectOnComplete := redirectOnComplete

end Site

/-- What a callback does with the flow that it read. -/
def afterRead (stateRandom : String) (flow : FlowState) (now : ℕ)
    (code error errorDescription : Option String) : Option Request :=
  if flow.isExpired now then none
  else if CachedClientCreds.isTrue error then
    let message := error.getD ""
    some (.markingFailed flow (if CachedClientCreds.isTrue errorDescription then
      message ++ ": " ++ errorDescription.getD "" else message))
  else if CachedClientCreds.isTrue code then some (.fetching stateRandom flow (code.getD ""))
  else some (.markingFailed flow "missing authorization code")

def Request.proceed (site : Site) (i : ℕ) (a : Answer) (secret : Option Secret) : Request → Outcome
  | .starting force redirectOnComplete =>
    match chooseClient force (readCachedClientCreds site.keys secret) a.registration with
    | none => { secret := secret }
    | some client =>
      { secret := secret
        request := some (.creatingFlow (site.flowStart i a.now redirectOnComplete client)) }
  | .creatingFlow flow =>
    match secret with
    | none => { secret := some (writeFlowState site.keys flow).create }
    | some _ => { secret := secret, request := some (.patchingFlow flow) }
  | .patchingFlow flow => { secret := secret.map (writeFlowState site.keys flow).apply }
  | .received state _ code error errorDescription _ =>
    match site.stateRandom state with
    | none => { secret := secret }
    | some stateRandom =>
      { secret := secret
        request := (readFlowStateByStateParam stateRandom secret).bind fun flow =>
          afterRead stateRandom flow a.now code error errorDescription }
  | .fetching stateRandom flow code =>
    { secret := secret
      request := some (if a.metadata then .exchanging stateRandom flow code
        else .markingFailed flow "MCPServer authorization metadata went missing") }
  | .exchanging stateRandom flow code =>
    match a.token with
    | .error message => { secret := secret, request := some (.markingFailed flow message) }
    | .ok token =>
      let exchange : Exchange := ⟨stateRandom, flow.verifier, code⟩
      match computeExpiresAt token.expiresIn a.now with
      | .error _ => { secret := secret, exchange := some exchange }
      | .ok expiresAt =>
        { secret := secret
          request := some (.creatingToken flow
            { accessToken := token.accessToken
              refreshToken := token.refreshToken
              expiresAt := expiresAt
              clientID := flow.clientID
              clientSecret := flow.clientSecret })
          exchange := some exchange }
  | .creatingToken flow payload =>
    match secret with
    | none =>
      { secret := some (writeTokenSecret site.keys payload).create
        request := some (.markingAuthorized flow payload.expiresAt) }
    | some _ => { secret := secret, request := some (.patchingToken flow payload) }
  | .patchingToken flow payload =>
    match secret with
    | none => { secret := none }
    | some secret =>
      { secret := some ((writeTokenSecret site.keys payload).apply secret)
        request := some (.markingAuthorized flow payload.expiresAt) }
  | .markingAuthorized _ expiresAt => { secret := secret.map (markFlowAuthorized expiresAt).apply }
  | .markingFailed _ message => { secret := secret.map (markFlowFailed message).apply }
  | .loggingOut deleteSecret keepClient =>
    if deleteSecret then { secret := none }
    else { secret := secret.map (clearTokenSecret site.keys keepClient).apply }

/-! ### Runs -/

/-- `requests` holds the requests in flight; requests are numbered as they arrive. `flows` are the flows
that starts wrote, `exchanges` the codes that were exchanged. -/
structure FlowsState where
  secret : Option Secret
  requests : ℕ → Option Request := fun _ => none
  next : ℕ := 0
  flows : List (ℕ × FlowStart) := []
  exchanges : List Exchange := []

inductive Arrival
  | start (force redirectOnComplete : Bool)
  | callback (state : String) (now : ℕ) (code error errorDescription : Option String)
  | logout (deleteSecret keepClient : Bool)

inductive FlowsAction
  | arrive (arrival : Arrival)
  | proceed (i : ℕ) (a : Answer)
  | abort (i : ℕ)

namespace FlowsState

variable (site : Site) (s : FlowsState)

/-- A flow that was written is gone: consumed, replaced or logged out; or it has expired. -/
def isLate (stateRandom : String) (now : ℕ) : Bool :=
  (s.flows.any fun entry => entry.2.stateParam = stateRandom) &&
    (readFlowStateByStateParam stateRandom s.secret).all fun flow => flow.isExpired now

def arrival : Arrival → Request
  | .start force redirectOnComplete => .starting force redirectOnComplete
  | .callback state now code error errorDescription =>
    .received state now code error errorDescription
      ((site.stateRandom state).any fun stateRandom => s.isLate stateRandom now)
  | .logout deleteSecret keepClient => .loggingOut deleteSecret keepClient

/-- The flow that a step of a start wrote. -/
def written (i : ℕ) (request : Request) : List (ℕ × FlowStart) :=
  match request with
  | .creatingFlow flow => if s.secret.isNone then [(i, flow)] else []
  | .patchingFlow flow => if s.secret.isSome then [(i, flow)] else []
  | _ => []

end FlowsState

def Request.receivedBy (now : ℕ) : Request → Bool
  | .received _ receivedAt _ _ _ _ => receivedAt ≤ now
  | _ => true

def flowsMachine (site : Site) : Machine FlowsState FlowsAction where
  init s := (∀ secret ∈ s.secret, secret.view = .empty) ∧
    (∀ i, s.requests i = none) ∧ s.flows = [] ∧ s.exchanges = []
  step s a :=
    match a with
    | .arrive arrival =>
      some { s with
        requests := Function.update s.requests s.next (some (s.arrival site arrival))
        next := s.next + 1 }
    | .proceed i a =>
      match s.requests i with
      | none => none
      | some request =>
        if request.receivedBy a.now then
          let outcome := request.proceed site i a s.secret
          some
            { secret := outcome.secret
              requests := Function.update s.requests i outcome.request
              next := s.next
              flows := s.flows ++ s.written i request
              exchanges := s.exchanges ++ outcome.exchange.toList }
        else none
    | .abort i => some { s with requests := Function.update s.requests i none }

/-- The authorization server takes a code once, and only with the verifier and the client of the start
that it was issued for. -/
def Site.accepts (site : Site) (s : FlowsState) (flow : FlowState) (code : String) : Bool :=
  (s.exchanges.all fun exchange => exchange.code ≠ code) &&
    s.flows.any fun (j, start) => site.issuedFor code = some j && flow.verifier = start.verifier &&
      flow.clientID = start.clientID && flow.clientSecret = start.clientSecret

def Site.honest (site : Site) (s : FlowsState) : FlowsAction → Bool
  | .proceed i a =>
    match s.requests i with
    | some (.exchanging _ flow code) => !a.token.isOk || site.accepts s flow code
    | _ => true
  | _ => true

/-- The Secret holds no flow, or still the pending one that a callback read. -/
def holds (flow : FlowState) (secret : Option Secret) : Bool :=
  (secret.bind extractFlowState).all fun current =>
    current.authId = flow.authId && current.status = "pending"

/-- A mark finds the flow that its callback read, still pending, or none. -/
def undisturbed (s : FlowsState) : FlowsAction → Bool
  | .proceed i _ =>
    match s.requests i with
    | some (.markingAuthorized flow _) => holds flow s.secret
    | some (.markingFailed flow _) => holds flow s.secret
    | _ => true
  | _ => true

/-- The steps of an honest authorization server and of marks that hit their own flow. -/
def Site.Orderly (site : Site) (s : FlowsState) (a : FlowsAction) : Prop :=
  site.honest s a = true ∧ undisturbed s a = true

/-! ### Answers of the status endpoint -/

inductive AuthFlowState
  | pending
  | authorized
  | failed
  | expired
  deriving DecidableEq

structure AuthStatusResponse where
  state : AuthFlowState
  message : Option String := none
  expiresAt : Option String := none

/-- `server_state` is the state in the status of the MCPServer, which was read before the Secret. -/
def getMcpAuthStatus (authId : String) (serverState : Option String) (now : ℕ)
    (secret : Option Secret) : AuthStatusResponse :=
  match readFlowStateByAuthId secret with
  | none => { state := .expired, message := some "Unknown or expired auth_id" }
  | some flow =>
    if flow.authId ≠ authId then { state := .expired, message := some "Unknown or expired auth_id" }
    else if flow.isExpired now && flow.status = "pending" then
      { state := .expired, message := some "Flow expired" }
    else if flow.status = "failed" then { state := .failed, message := some flow.message }
    else if flow.status = "authorized" then
      if serverState = some "Authorized" then
        { state := .authorized
          expiresAt := if flow.tokenExpiresAt = "" then none else some flow.tokenExpiresAt }
      else
        { state := .pending
          message := some "Token written; awaiting MCPServer status reconciliation" }
    else { state := .pending }

/-! ### What a step does to the Secret -/

/-- The Secret after a step of a request, as far as flows go. -/
inductive Change (secret : Option Secret) : Request → Option Secret → Prop
  | same (request : Request) : Change secret request secret
  | created {flow : FlowStart} {new : Secret} (h : new.view = flow.view) (hnone : secret = none) :
    Change secret (.creatingFlow flow) (some new)
  | patched {flow : FlowStart} {old new : Secret} (h : new.view = flow.view) (hsome : secret = some old) :
    Change secret (.patchingFlow flow) (some new)
  | token {request : Request} {new : Secret}
    (h : new.view = (secret.map Secret.view).getD .empty) : Change secret request (some new)
  | authorized {flow : FlowState} {expiresAt : Option String} {old new : Secret}
    (hsome : secret = some old) (h : new.view = old.view.marked "authorized") :
    Change secret (.markingAuthorized flow expiresAt) (some new)
  | failed {flow : FlowState} {message : String} {old new : Secret}
    (hsome : secret = some old) (h : new.view = old.view.marked "failed") :
    Change secret (.markingFailed flow message) (some new)
  | cleared {request : Request} {new : Secret} (h : new.view = .cleared) :
    Change secret request (some new)
  | deleted (request : Request) : Change secret request none

theorem change_of_proceed {site : Site} (hkeys : site.keys.Apart) (i : ℕ) (a : Answer)
    (secret : Option Secret) (request : Request) :
    Change secret request (request.proceed site i a secret).secret := by
  cases request with
  | starting force redirectOnComplete =>
    rw [Request.proceed]
    split <;> exact .same _
  | creatingFlow flow =>
    cases secret with
    | none => exact .created (view_writeFlowState hkeys flow) rfl
    | some old => exact .same _
  | patchingFlow flow =>
    cases secret with
    | none => exact .same _
    | some old => exact .patched (view_writeFlowState hkeys flow) rfl
  | received state receivedAt code error errorDescription late =>
    rw [Request.proceed]
    split <;> exact .same _
  | fetching stateRandom flow code => exact .same _
  | exchanging stateRandom flow code =>
    rw [Request.proceed]
    split
    next => exact .same _
    next =>
      dsimp only
      split <;> exact .same _
  | creatingToken flow payload =>
    cases secret with
    | none => exact .token (view_writeTokenSecret hkeys payload)
    | some old => exact .same _
  | patchingToken flow payload =>
    cases secret with
    | none => exact .same _
    | some old => exact .token (view_writeTokenSecret hkeys payload)
  | markingAuthorized flow expiresAt =>
    cases secret with
    | none => exact .same _
    | some old => exact .authorized rfl (view_markFlowAuthorized expiresAt)
  | markingFailed flow message =>
    cases secret with
    | none => exact .same _
    | some old => exact .failed rfl (view_markFlowFailed message)
  | loggingOut deleteSecret keepClient =>
    rw [Request.proceed]
    split
    next => exact .deleted _
    next =>
      cases secret with
      | none => exact .same _
      | some old => exact .cleared (view_clearTokenSecret keepClient)

/-! ### The invariant -/

section

variable (site : Site) (s : FlowsState)

/-- Start `i` has written its flow. -/
def Written (i : ℕ) : Prop := ∃ flow, (i, flow) ∈ s.flows

def StartOf (i : ℕ) (flow : FlowStart) : Prop :=
  flow.authId = site.random.authId i ∧ flow.stateParam = site.random.state i ∧
    flow.verifier = site.random.verifier i

/-- A callback with the state of start `i` exchanged a code with its verifier. -/
def Exchanged (i : ℕ) : Prop :=
  ∃ exchange ∈ s.exchanges, exchange.stateRandom = site.random.state i ∧
    exchange.verifier = site.random.verifier i

/-- A flow that was read is the one of start `i`. -/
def FlowOf (i : ℕ) (stateRandom : String) (flow : FlowState) : Prop :=
  stateRandom = site.random.state i ∧ flow.authId = site.random.authId i ∧
    flow.verifier = site.random.verifier i

/-- A flow that was written is no longer found, or has expired at a time. -/
def Gone (stateRandom : String) (now : ℕ) : Prop :=
  (∃ i, Written s i ∧ site.random.state i = stateRandom) ∧
    ∀ secret ∈ s.secret, secret.view.stateLabel = some stateRandom →
      isExpiredText (secret.view.expiresAt.getD "") now = true

def Fits (i : ℕ) : Request → Prop
  | .starting _ _ => ¬ Written s i
  | .creatingFlow flow => ¬ Written s i ∧ StartOf site i flow
  | .patchingFlow flow => ¬ Written s i ∧ StartOf site i flow
  | .received state receivedAt _ _ _ late =>
    late = true → ∀ stateRandom ∈ site.stateRandom state, Gone site s stateRandom receivedAt
  | .fetching stateRandom flow _ => ∃ j, FlowOf site j stateRandom flow
  | .exchanging stateRandom flow _ => ∃ j, FlowOf site j stateRandom flow
  | .creatingToken flow _ => ∃ j, flow.authId = site.random.authId j ∧ Exchanged site s j
  | .patchingToken flow _ => ∃ j, flow.authId = site.random.authId j ∧ Exchanged site s j
  | .markingAuthorized flow _ => ∃ j, flow.authId = site.random.authId j ∧ Exchanged site s j
  | .markingFailed _ _ => True
  | .loggingOut _ _ => True

structure FlowsInvariant : Prop where
  fresh : ∀ i, s.next ≤ i → s.requests i = none ∧ ¬ Written s i
  fits : ∀ i request, s.requests i = some request → Fits site s i request
  flows : ∀ entry ∈ s.flows, StartOf site entry.1 entry.2
  labelled : ∀ secret ∈ s.secret, ∀ stateRandom, secret.view.stateLabel = some stateRandom →
    ∃ entry ∈ s.flows, secret.view = entry.2.view
  authorized : ∀ secret ∈ s.secret, ∀ id, secret.view.authId = some id → id ≠ "" →
    secret.view.status = some "authorized" → ∃ j, id = site.random.authId j ∧ Exchanged site s j

end

section

variable {site : Site} {s t : FlowsState} {i : ℕ} {request : Request}

/-- The history of a run only grows. -/
structure Extends (s t : FlowsState) : Prop where
  flows : ∀ entry ∈ s.flows, entry ∈ t.flows
  exchanges : ∀ exchange ∈ s.exchanges, exchange ∈ t.exchanges

theorem Written.mono (h : Extends s t) (hi : Written s i) : Written t i := by
  obtain ⟨flow, hflow⟩ := hi
  exact ⟨flow, h.flows _ hflow⟩

theorem Exchanged.mono (h : Extends s t) (hi : Exchanged site s i) : Exchanged site t i := by
  obtain ⟨exchange, hmem, hexchange⟩ := hi
  exact ⟨exchange, h.exchanges _ hmem, hexchange⟩

/-- What a request relies on survives a step of another one. -/
theorem Fits.mono (h : Extends s t) (hwritten : Written t i → Written s i)
    (hgone : ∀ stateRandom now, Gone site s stateRandom now → Gone site t stateRandom now)
    (hfits : Fits site s i request) : Fits site t i request := by
  cases request with
  | starting force redirectOnComplete => exact fun hw => hfits (hwritten hw)
  | creatingFlow flow => exact ⟨fun hw => hfits.1 (hwritten hw), hfits.2⟩
  | patchingFlow flow => exact ⟨fun hw => hfits.1 (hwritten hw), hfits.2⟩
  | received state receivedAt code error errorDescription late =>
    exact fun hlate stateRandom hstate => hgone _ _ (hfits hlate stateRandom hstate)
  | fetching stateRandom flow code => exact hfits
  | exchanging stateRandom flow code => exact hfits
  | creatingToken flow payload =>
    obtain ⟨j, hid, hexchanged⟩ := hfits
    exact ⟨j, hid, hexchanged.mono h⟩
  | patchingToken flow payload =>
    obtain ⟨j, hid, hexchanged⟩ := hfits
    exact ⟨j, hid, hexchanged.mono h⟩
  | markingAuthorized flow expiresAt =>
    obtain ⟨j, hid, hexchanged⟩ := hfits
    exact ⟨j, hid, hexchanged.mono h⟩
  | markingFailed flow message => trivial
  | loggingOut deleteSecret keepClient => trivial

/-- A flow that is gone does not come back. -/
theorem gone_of_change {stateRandom : String} {now : ℕ} {secret' : Option Secret}
    (hgone : Gone site s stateRandom now) (hextends : Extends s t) (hsecret : t.secret = secret')
    (hfits : Fits site s i request) (hchange : Change s.secret request secret') :
    Gone site t stateRandom now := by
  obtain ⟨⟨j, hj, hstate⟩, hexpired⟩ := hgone
  refine ⟨⟨j, hj.mono hextends, hstate⟩, ?_⟩
  rw [hsecret]
  have hstart {flow : FlowStart} {new : Secret} (hview : new.view = flow.view)
      (hi : ¬ Written s i ∧ StartOf site i flow) (hlabel : new.view.stateLabel = some stateRandom) :
      False := by
    have hparam : flow.stateParam = stateRandom := by
      rw [hview] at hlabel
      exact Option.some.inj hlabel
    have hij := site.random.state_injective i j (by rw [hstate, ← hparam, hi.2.2.1])
    exact hi.1 (hij ▸ hj)
  cases hchange with
  | same request => exact hexpired
  | created hview hnone =>
    rintro secret ⟨⟩ hlabel
    exact (hstart hview hfits hlabel).elim
  | patched hview hsome =>
    rintro secret ⟨⟩ hlabel
    exact (hstart hview hfits hlabel).elim
  | token hview =>
    rintro secret ⟨⟩ hlabel
    rw [hview] at hlabel ⊢
    cases hold : s.secret with
    | none =>
      rw [hold] at hlabel
      cases hlabel
    | some old =>
      rw [hold] at hlabel
      exact hexpired old hold hlabel
  | authorized hsome hview =>
    rintro secret ⟨⟩ hlabel
    rw [hview] at hlabel
    cases hlabel
  | failed hsome hview =>
    rintro secret ⟨⟩ hlabel
    rw [hview] at hlabel
    cases hlabel
  | cleared hview =>
    rintro secret ⟨⟩ hlabel
    rw [hview] at hlabel
    cases hlabel
  | deleted request => exact nofun

theorem gone_of_isLate {stateRandom : String} {now : ℕ} (hs : FlowsInvariant site s)
    (h : s.isLate stateRandom now = true) : Gone site s stateRandom now := by
  obtain ⟨hwritten, hexpired⟩ := (Bool.and_eq_true _ _).mp h
  obtain ⟨⟨i, start⟩, hmem, hparam⟩ := List.any_eq_true.mp hwritten
  have hstart := hs.flows _ hmem
  refine ⟨⟨i, ⟨start, hmem⟩, hstart.2.1.symm.trans (of_decide_eq_true hparam)⟩, ?_⟩
  intro secret hsecret hlabel
  obtain ⟨entry, hentry, hview⟩ := hs.labelled secret hsecret stateRandom hlabel
  have hid : secret.view.authId = some (site.random.authId entry.1) := by
    rw [hview]
    exact congrArg some (hs.flows entry hentry).1
  obtain ⟨flow, hflow⟩ := extractFlowState_of_view hid (site.random.authId_ne _)
  have hlabel' : secret.stateLabel = some stateRandom := hlabel
  have hread : readFlowStateByStateParam stateRandom s.secret = some flow := by
    rw [hsecret, readFlowStateByStateParam, if_pos hlabel', hflow]
  rw [hread] at hexpired
  obtain ⟨-, -, -, -, -, hexpiresAt⟩ := view_of_extractFlowState hflow
  rw [← hexpiresAt]
  exact hexpired

/-- A flow that a callback reads is the one of a start. -/
theorem flowOf_read {stateRandom : String} {flow : FlowState} (hs : FlowsInvariant site s)
    (h : readFlowStateByStateParam stateRandom s.secret = some flow) :
    ∃ j, FlowOf site j stateRandom flow := by
  cases hsecret : s.secret with
  | none =>
    rw [hsecret] at h
    cases h
  | some secret =>
    rw [hsecret, readFlowStateByStateParam] at h
    split at h
    next hlabel =>
      obtain ⟨entry, hentry, hview⟩ := hs.labelled secret hsecret stateRandom hlabel
      obtain ⟨hid, hstate, hverifier⟩ := hs.flows entry hentry
      obtain ⟨-, hauthId, -, hflowVerifier, -, -⟩ := view_of_extractFlowState h
      have hlabel' : secret.view.stateLabel = some stateRandom := hlabel
      rw [hview] at hauthId hflowVerifier hlabel'
      refine ⟨entry.1, ?_, ?_, ?_⟩
      · exact (Option.some.inj hlabel').symm.trans hstate
      · exact (Option.some.inj hauthId).symm.trans hid
      · exact hflowVerifier.trans hverifier
    next => cases h

theorem afterRead_cases {stateRandom : String} {flow : FlowState} {now : ℕ}
    {code error errorDescription : Option String} {next : Request}
    (h : afterRead stateRandom flow now code error errorDescription = some next) :
    flow.isExpired now = false ∧
      ((∃ code, next = .fetching stateRandom flow code) ∨ ∃ message, next = .markingFailed flow message) := by
  unfold afterRead at h
  split at h
  next => cases h
  next hlive =>
    refine ⟨by simpa using hlive, ?_⟩
    split at h
    next => exact .inr ⟨_, (Option.some.inj h).symm⟩
    split at h
    next => exact .inl ⟨_, (Option.some.inj h).symm⟩
    next => exact .inr ⟨_, (Option.some.inj h).symm⟩

/-- The state after a step of request `i`. -/
def FlowsState.after (site : Site) (s : FlowsState) (i : ℕ) (a : Answer) (request : Request) :
    FlowsState where
  secret := (request.proceed site i a s.secret).secret
  requests := Function.update s.requests i (request.proceed site i a s.secret).request
  next := s.next
  flows := s.flows ++ s.written i request
  exchanges := s.exchanges ++ (request.proceed site i a s.secret).exchange.toList

theorem requests_after_self (a : Answer) :
    (s.after site i a request).requests i = (request.proceed site i a s.secret).request :=
  Function.update_self i _ _

theorem requests_after_ne (a : Answer) {j : ℕ} (h : j ≠ i) :
    (s.after site i a request).requests j = s.requests j :=
  Function.update_of_ne h _ _

theorem extends_after (a : Answer) : Extends s (s.after site i a request) :=
  ⟨fun _ h => List.mem_append_left _ h, fun _ h => List.mem_append_left _ h⟩

/-- What request `i` relies on after its step. -/
theorem fits_proceed {a : Answer} {next : Request} (hs : FlowsInvariant site s)
    (hfits : Fits site s i request)
    (h : (request.proceed site i a s.secret).request = some next) :
    Fits site (s.after site i a request) i next := by
  have hextends : Extends s (s.after site i a request) := extends_after a
  cases request with
  | starting force redirectOnComplete =>
    simp only [Request.proceed] at h
    split at h
    next => cases h
    next client hclient =>
      obtain rfl := Option.some.inj h
      refine ⟨?_, rfl, rfl, rfl⟩
      rintro ⟨flow, hflow⟩
      obtain hold | hnew := List.mem_append.mp hflow
      · exact hfits ⟨flow, hold⟩
      · cases hnew
  | creatingFlow flow =>
    simp only [Request.proceed] at h
    split at h
    next => cases h
    next secret hsecret =>
      obtain rfl := Option.some.inj h
      refine ⟨?_, hfits.2⟩
      rintro ⟨flow', hflow'⟩
      obtain hold | hnew := List.mem_append.mp hflow'
      · exact hfits.1 ⟨flow', hold⟩
      · rw [FlowsState.written, hsecret] at hnew
        cases hnew
  | patchingFlow flow => cases h
  | received state receivedAt code error errorDescription late =>
    simp only [Request.proceed] at h
    split at h
    next => cases h
    next stateRandom hstate =>
      obtain ⟨flow, hread, hafter⟩ := Option.bind_eq_some_iff.mp h
      obtain ⟨-, ⟨code, rfl⟩ | ⟨message, rfl⟩⟩ := afterRead_cases hafter
      · exact flowOf_read hs hread
      · trivial
  | fetching stateRandom flow code =>
    obtain rfl := Option.some.inj h
    split
    next => exact hfits
    next => trivial
  | exchanging stateRandom flow code =>
    simp only [Request.proceed] at h
    split at h
    next =>
      obtain rfl := Option.some.inj h
      trivial
    next token htoken =>
      split at h
      next => cases h
      next expiresAt hexpiresAt =>
        obtain rfl := Option.some.inj h
        obtain ⟨j, hstate, hid, hverifier⟩ := hfits
        refine ⟨j, hid, ⟨stateRandom, flow.verifier, code⟩, ?_, hstate, hverifier⟩
        simp [FlowsState.after, Request.proceed, htoken, hexpiresAt]
  | creatingToken flow payload =>
    obtain ⟨j, hid, hexchanged⟩ := hfits
    simp only [Request.proceed] at h
    split at h
    next =>
      obtain rfl := Option.some.inj h
      exact ⟨j, hid, hexchanged.mono hextends⟩
    next =>
      obtain rfl := Option.some.inj h
      exact ⟨j, hid, hexchanged.mono hextends⟩
  | patchingToken flow payload =>
    obtain ⟨j, hid, hexchanged⟩ := hfits
    simp only [Request.proceed] at h
    split at h
    next => cases h
    next =>
      obtain rfl := Option.some.inj h
      exact ⟨j, hid, hexchanged.mono hextends⟩
  | markingAuthorized flow expiresAt => cases h
  | markingFailed flow message => cases h
  | loggingOut deleteSecret keepClient =>
    simp only [Request.proceed] at h
    split at h <;> cases h

/-- The flows that a step of request `i` writes are its own. -/
theorem mem_written {entry : ℕ × FlowStart} (h : entry ∈ s.written i request)
    (hfits : Fits site s i request) : entry.1 = i ∧ StartOf site i entry.2 := by
  cases request with
  | creatingFlow flow =>
    rw [FlowsState.written] at h
    split at h
    next =>
      obtain rfl := List.mem_singleton.mp h
      exact ⟨rfl, hfits.2⟩
    next => cases h
  | patchingFlow flow =>
    rw [FlowsState.written] at h
    split at h
    next =>
      obtain rfl := List.mem_singleton.mp h
      exact ⟨rfl, hfits.2⟩
    next => cases h
  | _ => cases h

theorem of_holds {flow current : FlowState} {secret : Secret} (h : holds flow s.secret = true)
    (hsecret : s.secret = some secret) (hcurrent : extractFlowState secret = some current) :
    current.authId = flow.authId ∧ current.status = "pending" := by
  rw [holds, hsecret, Option.bind_some, hcurrent] at h
  simpa using h

theorem labelled_after {a : Answer} (hkeys : site.keys.Apart) (hs : FlowsInvariant site s) :
    ∀ secret ∈ (s.after site i a request).secret, ∀ stateRandom,
      secret.view.stateLabel = some stateRandom →
      ∃ entry ∈ (s.after site i a request).flows, secret.view = entry.2.view := by
  have hextends : Extends s (s.after site i a request) := extends_after a
  have hold {secret : Secret} (hsecret : s.secret = some secret) {stateRandom : String}
      (hlabel : secret.view.stateLabel = some stateRandom) :
      ∃ entry ∈ (s.after site i a request).flows, secret.view = entry.2.view := by
    obtain ⟨entry, hentry, hview⟩ := hs.labelled secret hsecret stateRandom hlabel
    exact ⟨entry, hextends.flows entry hentry, hview⟩
  have hchange := change_of_proceed hkeys i a s.secret request
  intro secret hsecret stateRandom hlabel
  generalize hnew : (request.proceed site i a s.secret).secret = new at hchange
  have hsecret : new = some secret := hnew.symm.trans hsecret
  cases hchange with
  | same request => exact hold hsecret hlabel
  | created hview hnone =>
    obtain rfl := Option.some.inj hsecret
    refine ⟨(i, _), List.mem_append_right _ ?_, hview⟩
    rw [FlowsState.written, hnone]
    exact List.mem_cons_self
  | patched hview hsome =>
    obtain rfl := Option.some.inj hsecret
    refine ⟨(i, _), List.mem_append_right _ ?_, hview⟩
    rw [FlowsState.written, hsome]
    exact List.mem_cons_self
  | token hview =>
    obtain rfl := Option.some.inj hsecret
    rw [hview] at hlabel ⊢
    cases hsome : s.secret with
    | none =>
      rw [hsome] at hlabel
      cases hlabel
    | some old =>
      rw [hsome] at hlabel
      exact hold hsome hlabel
  | authorized hsome hview =>
    obtain rfl := Option.some.inj hsecret
    rw [hview] at hlabel
    cases hlabel
  | failed hsome hview =>
    obtain rfl := Option.some.inj hsecret
    rw [hview] at hlabel
    cases hlabel
  | cleared hview =>
    obtain rfl := Option.some.inj hsecret
    rw [hview] at hlabel
    cases hlabel
  | deleted request => cases hsecret

/-- A flow that says it is authorized was exchanged, as long as marks find their own flow. -/
theorem authorized_after {a : Answer} (hkeys : site.keys.Apart) (hs : FlowsInvariant site s)
    (hfits : Fits site s i request)
    (hholds : ∀ flow expiresAt, request = .markingAuthorized flow expiresAt →
      holds flow s.secret = true) :
    ∀ secret ∈ (s.after site i a request).secret, ∀ id, secret.view.authId = some id → id ≠ "" →
      secret.view.status = some "authorized" →
        ∃ j, id = site.random.authId j ∧ Exchanged site (s.after site i a request) j := by
  have hextends : Extends s (s.after site i a request) := extends_after a
  have hold {secret : Secret} (hsecret : s.secret = some secret) {id : String}
      (hid : secret.view.authId = some id) (hne : id ≠ "")
      (hstatus : secret.view.status = some "authorized") :
      ∃ j, id = site.random.authId j ∧ Exchanged site (s.after site i a request) j := by
    obtain ⟨j, hj, hexchanged⟩ := hs.authorized secret hsecret id hid hne hstatus
    exact ⟨j, hj, hexchanged.mono hextends⟩
  have hchange := change_of_proceed hkeys i a s.secret request
  intro secret hsecret id hid hne hstatus
  generalize hnew : (request.proceed site i a s.secret).secret = new at hchange
  have hsecret : new = some secret := hnew.symm.trans hsecret
  cases hchange with
  | same request => exact hold hsecret hid hne hstatus
  | created hview hnone =>
    obtain rfl := Option.some.inj hsecret
    rw [hview, FlowStart.view] at hstatus
    simp at hstatus
  | patched hview hsome =>
    obtain rfl := Option.some.inj hsecret
    rw [hview, FlowStart.view] at hstatus
    simp at hstatus
  | token hview =>
    obtain rfl := Option.some.inj hsecret
    rw [hview] at hid hstatus
    cases hsome : s.secret with
    | none =>
      rw [hsome] at hid
      cases hid
    | some old =>
      rw [hsome] at hid hstatus
      exact hold hsome hid hne hstatus
  | @authorized flow expiresAt old new hsome hview =>
    -- The mark finds the flow that the callback read, whose code it exchanged.
    obtain rfl := Option.some.inj hsecret
    have hid' : old.view.authId = some id := by
      rw [hview] at hid
      exact hid
    obtain ⟨current, hcurrent⟩ := extractFlowState_of_view hid' hne
    obtain ⟨-, hcurrentId, -⟩ := view_of_extractFlowState hcurrent
    have hheld := of_holds (hholds flow expiresAt rfl) hsome hcurrent
    obtain ⟨j, hj, hexchanged⟩ := hfits
    refine ⟨j, ?_, hexchanged.mono hextends⟩
    rw [← hj, ← hheld.1]
    exact Option.some.inj (hid'.symm.trans hcurrentId)
  | failed hsome hview =>
    obtain rfl := Option.some.inj hsecret
    rw [hview, FlowView.marked] at hstatus
    simp at hstatus
  | cleared hview =>
    obtain rfl := Option.some.inj hsecret
    rw [hview] at hid
    exact absurd (Option.some.inj hid).symm hne
  | deleted request => cases hsecret

/-! ### Steps -/

theorem proceed_eq {a : Answer} (h : (flowsMachine site).step s (.proceed i a) = some t) :
    ∃ request, s.requests i = some request ∧ request.receivedBy a.now = true ∧
      t = s.after site i a request := by
  simp only [flowsMachine] at h
  split at h
  next => cases h
  next request hrequest =>
    split at h
    next hnow => exact ⟨request, hrequest, hnow, (Option.some.inj h).symm⟩
    next => cases h

theorem invariant_init (h : (flowsMachine site).init s) (hnext : ∀ i, ¬ Written s i) :
    FlowsInvariant site s := by
  obtain ⟨hview, hrequests, hflows, -⟩ := h
  refine ⟨fun i _ => ⟨hrequests i, hnext i⟩, ?_, by simp [hflows], ?_, ?_⟩
  · intro i request h
    rw [hrequests i] at h
    cases h
  · intro secret hsecret stateRandom hlabel
    rw [hview secret hsecret] at hlabel
    cases hlabel
  · intro secret hsecret id hid
    rw [hview secret hsecret] at hid
    cases hid

/-- A step that touches nothing but requests. -/
theorem invariant_requests {requests : ℕ → Option Request} {next : ℕ} (hs : FlowsInvariant site s)
    (hfresh : ∀ i, next ≤ i → requests i = none ∧ ¬ Written s i)
    (hfits : ∀ i request, requests i = some request → Fits site s i request) :
    FlowsInvariant site { s with requests := requests, next := next } := by
  refine ⟨hfresh, ?_, hs.flows, hs.labelled, hs.authorized⟩
  intro i request h
  exact (hfits i request h).mono ⟨fun _ h => h, fun _ h => h⟩ id fun _ _ h => h

theorem fits_arrival (hs : FlowsInvariant site s) (arrival : Arrival) :
    Fits site s s.next (s.arrival site arrival) := by
  cases arrival with
  | start force redirectOnComplete => exact (hs.fresh s.next (Nat.le_refl _)).2
  | callback state now code error errorDescription =>
    intro hlate stateRandom hstate
    have hstate : site.stateRandom state = some stateRandom := hstate
    rw [hstate] at hlate
    exact gone_of_isLate hs hlate
  | logout deleteSecret keepClient => trivial

theorem invariant_arrive (hs : FlowsInvariant site s) {arrival : Arrival}
    (h : (flowsMachine site).step s (.arrive arrival) = some t) : FlowsInvariant site t := by
  obtain rfl := Option.some.inj h
  apply invariant_requests hs
  · intro i hi
    rw [Function.update_of_ne (by omega)]
    exact hs.fresh i (by omega)
  · intro i request h
    by_cases hi : i = s.next
    · subst hi
      rw [Function.update_self] at h
      obtain rfl := Option.some.inj h
      exact fits_arrival hs arrival
    · rw [Function.update_of_ne hi] at h
      exact hs.fits i request h

theorem invariant_abort (hs : FlowsInvariant site s)
    (h : (flowsMachine site).step s (.abort i) = some t) : FlowsInvariant site t := by
  obtain rfl := Option.some.inj h
  have hrequests {j : ℕ} {request : Request}
      (h : Function.update s.requests i none j = some request) : s.requests j = some request := by
    by_cases hj : j = i
    · subst hj
      rw [Function.update_self] at h
      cases h
    · rwa [Function.update_of_ne hj] at h
  apply invariant_requests hs
  · intro j hj
    refine ⟨?_, (hs.fresh j hj).2⟩
    cases hrequest : Function.update s.requests i none j with
    | none => rfl
    | some request =>
      have hsome := hrequests hrequest
      rw [(hs.fresh j hj).1] at hsome
      cases hsome
  · exact fun j request h => hs.fits j request (hrequests h)

theorem invariant_proceed {a : Answer} (hkeys : site.keys.Apart) (hs : FlowsInvariant site s)
    (hundisturbed : undisturbed s (.proceed i a) = true)
    (h : (flowsMachine site).step s (.proceed i a) = some t) : FlowsInvariant site t := by
  obtain ⟨request, hrequest, -, rfl⟩ := proceed_eq h
  have hfits := hs.fits i request hrequest
  have hlt : i < s.next := by
    apply Nat.lt_of_not_le
    intro hle
    rw [(hs.fresh i hle).1] at hrequest
    cases hrequest
  have hextends : Extends s (s.after site i a request) := extends_after a
  have hwritten {j : ℕ} (hj : j ≠ i) (hw : Written (s.after site i a request) j) : Written s j := by
    obtain ⟨flow, hflow⟩ := hw
    obtain hold | hnew := List.mem_append.mp hflow
    · exact ⟨flow, hold⟩
    · exact absurd (mem_written hnew hfits).1 hj
  refine ⟨?_, ?_, ?_, labelled_after hkeys hs, authorized_after hkeys hs hfits ?_⟩
  · intro j hj
    have hne : j ≠ i := by
      have hj : s.next ≤ j := hj
      omega
    rw [requests_after_ne a hne]
    exact ⟨(hs.fresh j hj).1, fun hw => (hs.fresh j hj).2 (hwritten hne hw)⟩
  · intro j next hnext
    by_cases hj : j = i
    · subst hj
      rw [requests_after_self] at hnext
      exact fits_proceed hs hfits hnext
    · rw [requests_after_ne a hj] at hnext
      refine (hs.fits j next hnext).mono hextends (hwritten hj) fun stateRandom now hgone => ?_
      exact gone_of_change hgone hextends rfl hfits (change_of_proceed hkeys i a s.secret request)
  · intro entry hentry
    obtain hold | hnew := List.mem_append.mp hentry
    · exact hs.flows entry hold
    · obtain ⟨hi, hstart⟩ := mem_written hnew hfits
      rw [hi]
      exact hstart
  · rintro flow expiresAt rfl
    rw [undisturbed, hrequest] at hundisturbed
    exact hundisturbed

theorem invariant_of_reachable (hkeys : site.keys.Apart)
    (h : (flowsMachine site).Reachable site.Orderly s) :
    FlowsInvariant site s := by
  refine h.invariant ?_ ?_
  · intro s hinit
    refine invariant_init hinit fun i hw => ?_
    obtain ⟨flow, hflow⟩ := hw
    rw [hinit.2.2.1] at hflow
    cases hflow
  · intro s a t hs hok hstep
    cases a with
    | arrive arrival => exact invariant_arrive hs hstep
    | proceed i a => exact invariant_proceed hkeys hs hok.2 hstep
    | abort i => exact invariant_abort hs hstep

/-! ### Flows do not mix -/

/-- Status answers authorized for a flow whose code was exchanged. -/
def AuthorizedByExchange (site : Site) (s : FlowsState) : Prop :=
  ∀ authId serverState now, (getMcpAuthStatus authId serverState now s.secret).state = .authorized →
    ∃ j, authId = site.random.authId j ∧ Exchanged site s j

/-- What a step from one state to another does. -/
structure SingleUse (s : FlowsState) (a : FlowsAction) (t : FlowsState) : Prop where
  final : ∀ flow ∈ s.secret.bind extractFlowState, flow.status = "authorized" →
    ∀ flow' ∈ t.secret.bind extractFlowState, flow'.authId = flow.authId → flow'.status ≠ "failed"
  idle : ∀ i answer state receivedAt code error errorDescription, a = .proceed i answer →
    s.requests i = some (.received state receivedAt code error errorDescription true) →
      t.secret = s.secret ∧ t.requests i = none

theorem authorizedByExchange_of_invariant (hs : FlowsInvariant site s) :
    AuthorizedByExchange site s := by
  intro authId serverState now h
  cases hread : readFlowStateByAuthId s.secret with
  | none =>
    rw [getMcpAuthStatus, hread] at h
    cases h
  | some flow =>
    obtain ⟨secret, hsecret, hflow⟩ := Option.bind_eq_some_iff.mp hread
    obtain ⟨hne, hid, -, -, hstatus, -⟩ := view_of_extractFlowState hflow
    rw [getMcpAuthStatus, hread] at h
    dsimp only at h
    split at h
    next => cases h
    next hauthId =>
      have hauthId : flow.authId = authId := not_not.mp hauthId
      split at h
      next => cases h
      split at h
      next => cases h
      split at h
      next hauthorized =>
        have hview := status_of_extractFlowState hflow (by
          rw [hauthorized]
          decide)
        rw [hauthorized] at hview
        rw [← hauthId]
        exact hs.authorized secret hsecret flow.authId hid hne hview
      next => cases h

theorem expired_of_gone {stateRandom : String} {now later : ℕ} {flow : FlowState}
    (h : Gone site s stateRandom now) (hle : now ≤ later)
    (hread : readFlowStateByStateParam stateRandom s.secret = some flow) :
    flow.isExpired later = true := by
  cases hsecret : s.secret with
  | none =>
    rw [hsecret] at hread
    cases hread
  | some secret =>
    rw [hsecret, readFlowStateByStateParam] at hread
    split at hread
    next hlabel =>
      obtain ⟨-, -, -, -, -, hexpiresAt⟩ := view_of_extractFlowState hread
      rw [FlowState.isExpired, hexpiresAt]
      exact isExpiredText_mono hle (h.2 secret hsecret hlabel)
    next => cases hread

/-- A late callback reads no flow that is alive. -/
theorem proceed_late {state : String} {receivedAt : ℕ} {code error errorDescription : Option String}
    {a : Answer} (hfits : Fits site s i (.received state receivedAt code error errorDescription true))
    (hle : receivedAt ≤ a.now) :
    Request.proceed site i a s.secret (.received state receivedAt code error errorDescription true) =
      { secret := s.secret } := by
  simp only [Request.proceed]
  split
  next => rfl
  next stateRandom hstate =>
    have hgone := hfits rfl stateRandom hstate
    cases hread : readFlowStateByStateParam stateRandom s.secret with
    | none => rfl
    | some flow =>
      rw [Option.bind_some, afterRead, if_pos (expired_of_gone hgone hle hread)]

theorem not_failed_of_change {new old : Secret} {secret' : Option Secret}
    (hold : s.secret = some old) (hauthorized : old.view.status = some "authorized")
    (hid : ∃ flow, extractFlowState old = some flow ∧ flow.status = "authorized")
    (hholds : ∀ flow message, request = .markingFailed flow message → holds flow s.secret = true)
    (hchange : Change s.secret request secret') (hnew : secret' = some new) :
    new.view.status ≠ some "failed" := by
  intro hfailed
  cases hchange with
  | same request =>
    obtain rfl := Option.some.inj (hold.symm.trans hnew)
    simp [hauthorized] at hfailed
  | created hview hnone =>
    obtain rfl := Option.some.inj hnew
    simp [hview, FlowStart.view] at hfailed
  | patched hview hsome =>
    obtain rfl := Option.some.inj hnew
    simp [hview, FlowStart.view] at hfailed
  | token hview =>
    obtain rfl := Option.some.inj hnew
    simp [hview, hold, hauthorized] at hfailed
  | authorized hsome hview =>
    obtain rfl := Option.some.inj hnew
    simp [hview, FlowView.marked] at hfailed
  | @failed flow message old' new' hsome hview =>
    -- The mark would have to find a pending flow.
    obtain ⟨current, hcurrent, hstatus⟩ := hid
    have hheld := of_holds (hholds flow message rfl) hold hcurrent
    simp [hheld.2] at hstatus
  | cleared hview =>
    obtain rfl := Option.some.inj hnew
    simp [hview, FlowView.cleared] at hfailed
  | deleted request => cases hnew

theorem final_of_proceed {a : Answer} (hkeys : site.keys.Apart)
    (hundisturbed : undisturbed s (.proceed i a) = true) (hrequest : s.requests i = some request) :
    ∀ flow ∈ s.secret.bind extractFlowState, flow.status = "authorized" →
      ∀ flow' ∈ (s.after site i a request).secret.bind extractFlowState, flow'.status ≠ "failed" := by
  intro flow hflow hauthorized flow' hflow' hfailed
  obtain ⟨old, hold, hflow⟩ := Option.bind_eq_some_iff.mp hflow
  obtain ⟨new, hnew, hflow'⟩ := Option.bind_eq_some_iff.mp hflow'
  have hviewOld := status_of_extractFlowState hflow (by
    rw [hauthorized]
    decide)
  have hviewNew := status_of_extractFlowState hflow' (by
    rw [hfailed]
    decide)
  rw [hauthorized] at hviewOld
  rw [hfailed] at hviewNew
  refine not_failed_of_change hold hviewOld ⟨flow, hflow, hauthorized⟩ ?_
    (change_of_proceed hkeys i a s.secret request) hnew hviewNew
  rintro flow message rfl
  rw [undisturbed, hrequest] at hundisturbed
  exact hundisturbed

theorem singleUse_step (hkeys : site.keys.Apart) {a : FlowsAction} (hs : FlowsInvariant site s)
    (hundisturbed : undisturbed s a = true) (h : (flowsMachine site).step s a = some t) :
    SingleUse s a t := by
  have hsame (hsecret : t.secret = s.secret) : ∀ flow ∈ s.secret.bind extractFlowState,
      flow.status = "authorized" → ∀ flow' ∈ t.secret.bind extractFlowState, flow'.status ≠ "failed" := by
    intro flow hflow hauthorized flow' hflow' hfailed
    rw [hsecret] at hflow'
    obtain rfl : flow = flow' := Option.some.inj (hflow.symm.trans hflow')
    rw [hauthorized] at hfailed
    simp at hfailed
  cases a with
  | arrive arrival =>
    obtain rfl := Option.some.inj h
    exact ⟨fun flow hf ha flow' hf' _ => hsame rfl flow hf ha flow' hf', nofun⟩
  | abort i =>
    obtain rfl := Option.some.inj h
    exact ⟨fun flow hf ha flow' hf' _ => hsame rfl flow hf ha flow' hf', nofun⟩
  | proceed i a =>
    obtain ⟨request, hrequest, hnow, rfl⟩ := proceed_eq h
    refine ⟨fun flow hf ha flow' hf' _ =>
      final_of_proceed hkeys hundisturbed hrequest flow hf ha flow' hf', ?_⟩
    rintro j answer state receivedAt code error errorDescription ⟨⟩ hlate
    obtain rfl := Option.some.inj (hrequest.symm.trans hlate)
    have hproceed := proceed_late (hs.fits i _ hrequest) (of_decide_eq_true hnow)
    rw [requests_after_self, hproceed, FlowsState.after, hproceed]
    exact ⟨rfl, rfl⟩

/-- Where every mark finds the flow that its callback read, or none, status answers authorized only for
a flow whose code was exchanged, no step makes an authorized flow fail, and late callbacks do nothing. -/
theorem flows_single_use (hkeys : site.keys.Apart)
    (h : (flowsMachine site).Reachable site.Orderly s) :
    AuthorizedByExchange site s ∧ ∀ a t, site.Orderly s a →
      (flowsMachine site).step s a = some t → SingleUse s a t := by
  have hs := invariant_of_reachable hkeys h
  exact ⟨authorizedByExchange_of_invariant hs, fun a t hok hstep =>
    singleUse_step hkeys hs hok.2 hstep⟩

end

/-! ### Two callbacks for one flow -/

/-- A string of `i + 1` characters. -/
def repeated (c : Char) (i : ℕ) : String := String.ofList (List.replicate (i + 1) c)

theorem repeated_injective (c : Char) (i j : ℕ) (h : repeated c i = repeated c j) : i = j := by
  have hlength := congrArg (fun s => s.toList.length) h
  simp only [repeated, String.toList_ofList, List.length_replicate] at hlength
  omega

def countedRandoms : Randoms where
  state := repeated 's'
  authId := repeated 'a'
  verifier := repeated 'v'
  state_injective := repeated_injective 's'
  authId_injective := repeated_injective 'a'
  authId_ne := by
    intro i h
    have hlength := congrArg (fun s => s.toList.length) h
    simp [repeated] at hlength

/-- A server whose authorization server issued the code `code` for the first start. -/
def notion : Site where
  serverName := "notion"
  «namespace» := "default"
  random := countedRandoms
  issuedFor := fun code => if code = "code" then some 0 else none

def notionAnswer : Answer where
  now := 63902908800000000000
  registration := some (some ("client", "secret"))
  token := .ok { accessToken := "token", expiresIn := some 3600 }

def notionCallback : FlowsAction :=
  .arrive (.callback "default.s" 63902908800000000000 (some "code") none none)

/-- A start writes its flow. -/
def notionStart : List FlowsAction :=
  [.arrive (.start false false), .proceed 0 notionAnswer, .proceed 0 notionAnswer]

/-- Two callbacks read the flow; the first exchanges the code and marks the flow, the second is told
that the code was used. -/
def notionCallbacks : List FlowsAction :=
  [notionCallback, notionCallback, .proceed 1 notionAnswer, .proceed 2 notionAnswer,
    .proceed 1 notionAnswer, .proceed 2 notionAnswer, .proceed 1 notionAnswer,
    .proceed 2 { notionAnswer with token := .error "invalid_grant" }, .proceed 1 notionAnswer,
    .proceed 1 notionAnswer, .proceed 1 notionAnswer]

def notionInitial : FlowsState where
  secret := none

theorem notion_init : (flowsMachine notion).init notionInitial :=
  ⟨nofun, fun _ => rfl, rfl, rfl⟩

theorem notion_apart : notion.keys.Apart := by
  unfold SecretKeys.Apart
  decide

/-- The step makes an authorized flow fail. -/
def failsAuthorized (s t : FlowsState) : Bool :=
  (s.secret.bind extractFlowState).any fun flow => flow.status = "authorized" &&
    (t.secret.bind extractFlowState).any fun flow' =>
      flow'.authId = flow.authId && flow'.status = "failed"

theorem not_singleUse {s t : FlowsState} {a : FlowsAction} (h : failsAuthorized s t = true) :
    ¬ SingleUse s a t := by
  intro hsingle
  obtain ⟨flow, hflow, h⟩ := (Option.any_eq_true _ _).mp h
  obtain ⟨hauthorized, h⟩ := Bool.and_eq_true_iff.mp h
  obtain ⟨flow', hflow', h⟩ := (Option.any_eq_true _ _).mp h
  obtain ⟨hid, hfailed⟩ := Bool.and_eq_true_iff.mp h
  exact hsingle.final flow hflow (of_decide_eq_true hauthorized) flow' hflow'
    (of_decide_eq_true hid) (of_decide_eq_true hfailed)

/-- The second callback makes the authorized flow fail. -/
theorem authorized_flow_fails : ¬ ∀ (site : Site) (s t : FlowsState) (a : FlowsAction),
    site.keys.Apart → (flowsMachine site).Reachable (fun s a => site.honest s a = true) s →
      site.honest s a = true → (flowsMachine site).step s a = some t → SingleUse s a t := by
  intro h
  let mark : FlowsAction := .proceed 2 notionAnswer
  obtain ⟨s, hs, hp⟩ : ∃ s, (flowsMachine notion).Reachable (fun s a => notion.honest s a = true) s ∧
      (notion.honest s mark && ((flowsMachine notion).step s mark).any (failsAuthorized s)) =
        true :=
    Machine.exists_reachable (b := notion.honest) notion_init (fun _ _ h => h)
      (l := notionStart ++ notionCallbacks) (by decide +kernel)
  obtain ⟨hhonest, hp⟩ := Bool.and_eq_true_iff.mp hp
  obtain ⟨t, ht, hfails⟩ := (Option.any_eq_true _ _).mp hp
  exact not_singleUse hfails (h notion s t mark notion_apart hs hhonest ht)

def orderly (site : Site) (s : FlowsState) (a : FlowsAction) : Bool :=
  site.honest s a && undisturbed s a

/-- A flow that its only callback authorizes, and the same callback once more. -/
theorem flows_single_use_notion : ∃ s, (flowsMachine notion).Reachable notion.Orderly s ∧
    (getMcpAuthStatus "a" (some "Authorized") notionAnswer.now s.secret).state = .authorized ∧
      AuthorizedByExchange notion s ∧ ∀ a t, notion.Orderly s a →
        (flowsMachine notion).step s a = some t → SingleUse s a t := by
  obtain ⟨s, hs, hp⟩ : ∃ s, (flowsMachine notion).Reachable notion.Orderly s ∧
      decide ((getMcpAuthStatus "a" (some "Authorized") notionAnswer.now s.secret).state =
        .authorized) = true :=
    Machine.exists_reachable (b := orderly notion) notion_init
      (fun _ _ h => Bool.and_eq_true_iff.mp h)
      (l := notionStart ++ notionCallback :: List.replicate 6 (.proceed 1 notionAnswer) ++
        [notionCallback]) (by decide +kernel)
  exact ⟨s, hs, of_decide_eq_true hp, flows_single_use notion_apart hs⟩

end Ark.McpAuth
