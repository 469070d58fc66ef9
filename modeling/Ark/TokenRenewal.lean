import Ark.TokenMinting

/-!
# Renewal and the authorization status

`status.authorization` is what discovery left for the next mint and what is reported after a listing.
While the spec, the address and the discovery documents stay, every token request carries the same
endpoint, resource and scopes. The report is written only where a condition changes: the expiry of a
token that was renewed while the server stayed ready is not stored.
-/

namespace Ark.MCP

open A2A (Condition setStatusCondition)

/-! ### Runs -/

structure RenewalState where
  server : AuthorizedServer
  secret : Option SecretData := none
  requests : List TokenRequestParams := []

/-- A reconcile, another writer of the Secret, or a change of the spec. -/
inductive RenewalAction
  | reconcile (env : Surroundings)
  | write (secret : Option SecretData)
  | edit (authorization : Option AuthorizationSpec)

def renewalMachine : Machine RenewalState RenewalAction where
  init s := s.server.status.authorization = none ∧ s.server.status.conditions = [] ∧ s.requests = []
  step s a :=
    match a with
    | .reconcile env =>
      let r := reconcile env s.server s.secret
      some
        { server := s.server.updated env r
          secret := r.secret
          requests := s.requests ++ r.request.toList }
    | .write secret => some { s with secret := secret }
    | .edit authorization =>
      some { s with
        server :=
          { s.server with authorization := authorization, generation := s.server.generation + 1 } }

/-- What the discovery of a server at an address finds. -/
structure Documents where
  address : String
  resource : ProtectedResourceMetadata
  server : AuthorizationServerMetadata

/-- The spec, the address and the documents stay as they are. The library that fetches a resource
document takes only one whose resource is the address. -/
def Documents.Unchanged (docs : Documents) (_ : RenewalState) : RenewalAction → Prop
  | .reconcile env => (∀ address, env.resolvedAddress = .ok address → address = docs.address) ∧
      (∀ rm, env.protectedResource = .ok rm → rm = docs.resource ∧ rm.resource = docs.address) ∧
      ∀ as, env.authorizationServer = .ok (some as) → as = docs.server
  | .write _ => True
  | .edit _ => False

/-! ### The status that a reconcile writes -/

theorem ServerStatus.eq_of_ifChanged {reconciled : ServerStatus × Bool} {written : ServerStatus}
    (h : ifChanged reconciled = some written) : reconciled.2 = true ∧ written = reconciled.1 := by
  unfold ifChanged at h
  split at h
  next hchanged => exact ⟨hchanged, (Option.some.inj h).symm⟩
  next => cases h

namespace Documents

/-- An authorization status that the documents account for. -/
structure Accounts (docs : Documents) (auth : AuthorizationStatus) : Prop where
  resource : auth.resource = docs.address
  endpoint : auth.grantTypesSupported = [] ∨ auth.tokenEndpoint = docs.server.tokenEndpoint

def AccountsFor (docs : Documents) (status : ServerStatus) : Prop :=
  ∀ auth ∈ status.authorization, docs.Accounts auth

variable {docs : Documents} {env : Surroundings} {server : AuthorizedServer}
  {status written : ServerStatus}

/-- A handler that sets conditions leaves the authorization status. -/
theorem accountsFor_ifChanged {reconciled : ServerStatus × Bool} (h : docs.AccountsFor reconciled.1)
    (hwritten : ServerStatus.ifChanged reconciled = some written) : docs.AccountsFor written := by
  rw [(ServerStatus.eq_of_ifChanged hwritten).2]
  exact h

theorem accounts_discovered {metaURL : String} {rm : ProtectedResourceMetadata}
    (haddress : status.resolvedAddress = docs.address) (hrm : rm.resource = docs.address)
    (hserver : ∀ as, env.authorizationServer = .ok (some as) → as = docs.server) :
    docs.Accounts (discoveredAuthorization env status metaURL rm) := by
  have hresource : (if rm.resource = "" then status.resolvedAddress else rm.resource) =
      docs.address := by
    split
    next => exact haddress
    next => exact hrm
  unfold discoveredAuthorization
  rw [hresource]
  split
  next => exact ⟨rfl, .inl rfl⟩
  split
  next => exact ⟨rfl, .inl rfl⟩
  next => exact ⟨rfl, .inl rfl⟩
  next as has => exact ⟨rfl, .inr (congrArg AuthorizationServerMetadata.tokenEndpoint (hserver as has))⟩

theorem accountsFor_success {material : Option AuthorizationMaterial} (h : docs.AccountsFor status)
    (haddress : status.resolvedAddress = docs.address) :
    docs.AccountsFor (applyAuthorizationSuccess env status material) := by
  unfold applyAuthorizationSuccess
  split
  next => exact nofun
  next material =>
    split
    next => exact h
    next =>
      intro auth hauth
      obtain rfl := Option.some.inj hauth
      refine ⟨haddress, ?_⟩
      cases hprev : status.authorization with
      | none => exact .inl rfl
      | some prev => exact (h prev hprev).endpoint

theorem accountsFor_discoveryFailed {reason : String} (haddress : status.resolvedAddress = docs.address)
    (hwritten : reconcileConditionsAuthorizationDiscoveryFailed env server status reason =
      some written) : docs.AccountsFor written := by
  refine accountsFor_ifChanged ?_ hwritten
  intro auth h
  obtain rfl := Option.some.inj h
  exact ⟨haddress, .inl rfl⟩

theorem accountsFor_required {wwwAuthenticate : String}
    (haddress : status.resolvedAddress = docs.address)
    (hresource : ∀ rm, env.protectedResource = .ok rm → rm = docs.resource ∧ rm.resource = docs.address)
    (hserver : ∀ as, env.authorizationServer = .ok (some as) → as = docs.server)
    (hwritten : handleAuthorizationRequired env server status wwwAuthenticate = some written) :
    docs.AccountsFor written := by
  unfold handleAuthorizationRequired at hwritten
  split at hwritten
  next => exact accountsFor_discoveryFailed haddress hwritten
  split at hwritten
  next => exact accountsFor_discoveryFailed haddress hwritten
  next metaURL rm hrm =>
    obtain rfl := Option.some.inj hwritten
    intro auth h
    obtain rfl := Option.some.inj h
    exact accounts_discovered haddress (hresource rm hrm).2 hserver

theorem accountsFor_listTools {material : Option AuthorizationMaterial} (h : docs.AccountsFor status)
    (haddress : status.resolvedAddress = docs.address)
    (hresource : ∀ rm, env.protectedResource = .ok rm → rm = docs.resource ∧ rm.resource = docs.address)
    (hserver : ∀ as, env.authorizationServer = .ok (some as) → as = docs.server)
    (hwritten : (listTools env server status material).1 = some written) :
    docs.AccountsFor written := by
  unfold listTools at hwritten
  split at hwritten
  next => exact accountsFor_required haddress hresource hserver hwritten
  next => exact accountsFor_ifChanged h hwritten
  split at hwritten
  next => exact accountsFor_ifChanged h hwritten
  next =>
    have hsuccess : docs.AccountsFor (applyAuthorizationSuccess env status material) :=
      accountsFor_success h haddress
    dsimp only at hwritten
    split at hwritten
    next => exact accountsFor_ifChanged hsuccess hwritten
    next => exact accountsFor_ifChanged hsuccess hwritten

theorem accountsFor_reconcile {secret : Option SecretData} (h : docs.AccountsFor server.status)
    (haddress : ∀ address, env.resolvedAddress = .ok address → address = docs.address)
    (hresource : ∀ rm, env.protectedResource = .ok rm → rm = docs.resource ∧ rm.resource = docs.address)
    (hserver : ∀ as, env.authorizationServer = .ok (some as) → as = docs.server)
    (hwritten : (reconcile env server secret).written = some written) : docs.AccountsFor written := by
  unfold reconcile processServer at hwritten
  split at hwritten
  next => exact accountsFor_ifChanged h hwritten
  split at hwritten
  next => exact accountsFor_ifChanged h hwritten
  next address hok =>
    have heq := haddress address hok
    have h' : docs.AccountsFor { server.status with resolvedAddress := address } := h
    dsimp only at hwritten
    split at hwritten
    next => exact accountsFor_listTools h' heq hresource hserver hwritten
    split at hwritten
    next => cases hwritten
    split at hwritten
    next => exact accountsFor_ifChanged h hwritten
    next => exact accountsFor_listTools h' heq hresource hserver hwritten

theorem accounts_stored (h : docs.AccountsFor status) : docs.AccountsFor status.stored := by
  intro auth hauth
  obtain ⟨prev, hprev, rfl⟩ := Option.map_eq_some_iff.mp hauth
  have haccounts := h prev hprev
  exact ⟨haccounts.resource, haccounts.endpoint⟩

end Documents

/-! ### What is asked for -/

/-- The endpoint, the resource and the scopes of every request under unchanged documents. -/
def Documents.target (docs : Documents) (cc : ClientCredentialsSpec) : String × String × List String :=
  (if cc.tokenEndpoint ≠ "" then cc.tokenEndpoint else docs.server.tokenEndpoint,
    if cc.resource ≠ "" then cc.resource else docs.address, cc.scopes)

def TokenRequestParams.target (params : TokenRequestParams) : String × String × List String :=
  (params.tokenEndpoint, params.resource, params.scopes)

section

variable {env : Surroundings} {server : AuthorizedServer} {cc : ClientCredentialsSpec}
  {params : TokenRequestParams}

theorem eq_ok_of_bind {ε α β : Type} {x : Except ε α} {f : α → Except ε β} {b : β}
    (h : x >>= f = .ok b) : ∃ a, x = .ok a ∧ f a = .ok b := by
  cases x with
  | error err => cases h
  | ok a => exact ⟨a, rfl, h⟩

theorem advertised_of_validate {caps : ASCapabilities} {algorithm : String}
    (h : validateASCapabilities caps algorithm = .ok ()) : caps.grantTypesSupported ≠ [] := by
  intro hnil
  rw [validateASCapabilities, hnil] at h
  cases h

theorem prepareRequest_spec (h : prepareRequest env server cc = .ok (some params)) :
    params.tokenEndpoint = server.status.resolveTokenEndpoint cc ∧
      params.resource = server.status.resolveTokenResource cc ∧ params.scopes = cc.scopes ∧
      ∃ auth, server.status.authorization = some auth ∧ auth.grantTypesSupported ≠ [] := by
  unfold prepareRequest at h
  dsimp only at h
  split at h
  next => cases h
  next pkjwt hpkjwt =>
    split at h
    next => cases h
    split at h
    next => cases h
    next hsome =>
      obtain ⟨auth, hauth⟩ := Option.ne_none_iff_exists'.mp (by simpa using hsome)
      obtain ⟨_, hcaps, h⟩ := eq_ok_of_bind h
      obtain ⟨_, -, h⟩ := eq_ok_of_bind h
      obtain ⟨_, -, h⟩ := eq_ok_of_bind h
      obtain rfl := Option.some.inj (Except.ok.inj h)
      refine ⟨rfl, rfl, rfl, auth, hauth, ?_⟩
      have hadvertised := advertised_of_validate hcaps
      rwa [ServerStatus.capabilitiesFromStatus, hauth] at hadvertised

/-- The status that the documents account for leads to one target. -/
theorem target_of_prepareRequest {docs : Documents}
    (hparams : prepareRequest env server cc = .ok (some params)) (h : docs.AccountsFor server.status)
    (haddress : server.status.resolvedAddress = docs.address) : params.target = docs.target cc := by
  obtain ⟨hendpoint, hresource, hscopes, auth, hauth, hgrants⟩ := prepareRequest_spec hparams
  obtain ⟨hauthResource, hauthEndpoint⟩ := h auth hauth
  have hnamed := hauthEndpoint.resolve_left hgrants
  rw [TokenRequestParams.target, hendpoint, hresource, hscopes, ServerStatus.resolveTokenEndpoint,
    ServerStatus.resolveTokenResource, hauth]
  dsimp only
  rw [hnamed, hauthResource, haddress, ite_self]
  rfl

end

/-- The invariant of the runs under unchanged documents. -/
structure Targeted (docs : Documents) (authorization : Option AuthorizationSpec) (s : RenewalState) :
    Prop where
  spec : s.server.authorization = authorization
  status : docs.AccountsFor s.server.status
  requests : ∀ params ∈ s.requests, ∃ auth ∈ authorization, ∃ cc ∈ auth.clientCredentials,
    params.target = docs.target cc

section

variable {docs : Documents} {authorization : Option AuthorizationSpec} {s t : RenewalState}

theorem targeted_reconcile {env : Surroundings} (hs : Targeted docs authorization s)
    (hok : docs.Unchanged s (.reconcile env))
    (h : renewalMachine.step s (.reconcile env) = some t) : Targeted docs authorization t := by
  obtain ⟨haddress, hresource, hserver⟩ := hok
  obtain rfl := Option.some.inj h
  refine ⟨(updated_spec env s.server _).1.trans hs.spec, ?_, ?_⟩
  · dsimp only
    unfold AuthorizedServer.updated
    split
    next written hwritten =>
      split
      next =>
        apply Documents.accounts_stored
        exact Documents.accountsFor_reconcile hs.status haddress hresource hserver hwritten
      next => exact hs.status
    next => exact hs.status
  · intro params hparams
    obtain hold | hnew := List.mem_append.mp hparams
    · exact hs.requests params hold
    · obtain ⟨hrequest, -⟩ | ⟨auth, cc, params', hasks⟩ := reconcile_cases env s.server s.secret
      · rw [hrequest] at hnew
        cases hnew
      · rw [hasks.request] at hnew
        obtain rfl := List.mem_singleton.mp hnew
        obtain ⟨address, hok, hprepared⟩ := hasks.prepared
        exact ⟨auth, hs.spec.symm.trans hasks.spec, cc, hasks.credentials,
          target_of_prepareRequest hprepared hs.status (haddress address hok)⟩

/-- Under unchanged documents every request has one endpoint, one resource and one list of scopes. -/
theorem targeted_of_reachable (h : renewalMachine.Reachable docs.Unchanged s) :
    ∃ authorization, Targeted docs authorization s := by
  obtain ⟨s₀, ⟨hauth, -, hrequests⟩, hrun⟩ := h
  refine ⟨s₀.server.authorization, hrun.preserves ?_ ⟨rfl, ?_, by simp [hrequests]⟩⟩
  · intro s a t hs hok hstep
    cases a with
    | reconcile env => exact targeted_reconcile hs hok hstep
    | write secret =>
      obtain rfl := Option.some.inj hstep
      exact ⟨hs.spec, hs.status, hs.requests⟩
    | edit authorization => exact hok.elim
  · intro auth h
    rw [hauth] at h
    cases h

theorem target_eq_of_reachable (h : renewalMachine.Reachable docs.Unchanged s) :
    ∀ p ∈ s.requests, ∀ q ∈ s.requests, p.target = q.target := by
  obtain ⟨authorization, -, -, hrequests⟩ := targeted_of_reachable h
  intro p hp q hq
  obtain ⟨auth, hauth, cc, hcc, hp⟩ := hrequests p hp
  obtain ⟨auth', hauth', cc', hcc', hq⟩ := hrequests q hq
  obtain rfl : auth = auth' := Option.some.inj (hauth.symm.trans hauth')
  obtain rfl : cc = cc' := Option.some.inj (hcc.symm.trans hcc')
  exact hp.trans hq.symm

end

/-! ### What is reported -/

section

variable (env : Surroundings) (server : AuthorizedServer)

/-- The token that a reconcile connects with, minted or read from the Secret. -/
def tokenAtHand (auth : AuthorizationSpec) (secret : Option SecretData) : AuthorizationMaterial :=
  match (reconcile env server secret).minted with
  | some tr => { accessToken := tr.accessToken, expiresAt := tr.expiresAt env.mintedAt }
  | none => (resolveAuthorizationMaterial server.namespace auth.tokenSecretRef secret).1

/-- The two conditions of a server whose tools were listed with a token. -/
def readyDiscovering : Condition :=
  server.condition env discoveringType .conditionFalse "DiscoveryComplete" "Tool discovery completed"

def readyAvailable (auth : AuthorizationSpec) (toolCount : ℕ) : Condition :=
  server.condition env availableType .conditionTrue "Authorized"
    ("Authorized via tokenSecretRef " ++ auth.tokenSecretRef.name ++ "; discovered " ++
      toString toolCount ++ " tools")

/-- The stored conditions are not yet the ones of a ready server with these tools. -/
def BecomesReady (auth : AuthorizationSpec) : Prop :=
  ∃ toolCount, env.tools = .ok toolCount ∧
    (conditionChanged (readyDiscovering env server) server.status.conditions = true ∨
      conditionChanged (readyAvailable env server auth toolCount) server.status.conditions = true)

/-- The stored expiry is that of a token, at the second. -/
def Reports (material : AuthorizationMaterial) : Prop :=
  server.status.authorization.bind (·.expiresAt) = material.expiresAt.map toSecond

end

section

variable {env : Surroundings} {server : AuthorizedServer} {auth : AuthorizationSpec}
  {secret : Option SecretData}

theorem find_setStatusCondition (now : Int) {new : Condition} {type : String} (h : new.type ≠ type)
    (conditions : List Condition) :
    ((setStatusCondition now new conditions).find? fun c => c.type = type) =
      conditions.find? fun c => c.type = type := by
  induction conditions with
  | nil => simp [setStatusCondition, h]
  | cons c conditions ih =>
    rw [setStatusCondition]
    split
    next heq => simp [h, heq]
    next => rw [List.find?_cons, List.find?_cons, ih]

theorem reconcileConditions_changed {status : ServerStatus} {new new' : Condition}
    (h : new.type ≠ new'.type) : (status.reconcileConditions new new').2 =
      (conditionChanged new status.conditions || conditionChanged new' status.conditions) := by
  have hfind := find_setStatusCondition new.lastTransitionTime h status.conditions
  simp only [ServerStatus.reconcileConditions, ServerStatus.reconcileCondition]
  congr 1
  rw [conditionChanged, hfind, conditionChanged]

/-- A listing that succeeded was made with the token that `ensureToken` left. -/
theorem reconcile_of_listed (hauth : server.authorization = some auth)
    (hlisted : (reconcile env server secret).listed.isSome = true) :
    ∃ address, ∃ status : ServerStatus, ∃ ensured : Ensured,
      status = { server.status with resolvedAddress := address } ∧
      ensureToken env { server with status := status } auth
        (resolveAuthorizationMaterial server.namespace auth.tokenSecretRef secret).1 secret = ensured ∧
      (reconcile env server secret).minted = ensured.minted ∧
      (reconcile env server secret).written =
        (listTools env server status (some ensured.material)).1 ∧
      (listTools env server status (some ensured.material)).2 = true := by
  obtain ⟨name, serverNamespace, generation, authorization, status⟩ := server
  obtain rfl : authorization = some auth := hauth
  unfold reconcile at hlisted ⊢
  split at hlisted
  next => cases hlisted
  next hconditions =>
    rw [if_neg hconditions]
    unfold processServer at hlisted ⊢
    split at hlisted
    next => cases hlisted
    next address haddress =>
      dsimp only at hlisted ⊢
      split at hlisted
      next => cases hlisted
      next hread =>
        rw [if_neg hread]
        split at hlisted
        next => cases hlisted
        next =>
          refine ⟨address, _, _, rfl, rfl, rfl, rfl, ?_⟩
          dsimp only at hlisted
          split at hlisted
          next hready => exact hready
          next => cases hlisted

theorem listTools_ready {status : ServerStatus} {material : Option AuthorizationMaterial}
    (h : (listTools env server status material).2 = true) :
    ∃ toolCount, env.tools = .ok toolCount ∧
      (listTools env server status material).1 = reconcileConditionsReady env server
        (applyAuthorizationSuccess env status material) toolCount ∧
      ((listTools env server status material).1 = none ∨ env.statusUpdated = true) := by
  unfold listTools at h ⊢
  split at h
  next => cases h
  next => cases h
  next =>
    split at h
    next => cases h
    next toolCount htools =>
      dsimp only at h ⊢
      split at h
      next => cases h
      next =>
        refine ⟨toolCount, htools, rfl, ?_⟩
        simpa using h

/-- The token at hand is the one that `ensureToken` left. -/
theorem tokenAtHand_eq {status : ServerStatus} {ensured : Ensured}
    (h : ensureToken env { server with status := status } auth
      (resolveAuthorizationMaterial server.namespace auth.tokenSecretRef secret).1 secret = ensured)
    (hminted : (reconcile env server secret).minted = ensured.minted) :
    tokenAtHand env server auth secret = ensured.material := by
  rw [tokenAtHand, hminted]
  obtain ⟨-, hnone, -, hmaterial⟩ | ⟨cc, params, -, -, -, -, -, hmaterial⟩ :=
    ensureToken_cases env _ auth _ secret h
  · rw [hnone, hmaterial]
  · exact hmaterial.symm

/-- The report of a token that is not empty, before it is stored. -/
theorem applyAuthorizationSuccess_spec {status : ServerStatus} {material : AuthorizationMaterial}
    (htoken : material.accessToken ≠ "") :
    let success := applyAuthorizationSuccess env status (some material)
    isAuthorized success = true ∧ success.conditions = status.conditions ∧
      success.authorization.bind (·.expiresAt) = material.expiresAt := by
  dsimp only
  rw [applyAuthorizationSuccess]
  dsimp only
  rw [if_neg htoken]
  exact ⟨rfl, rfl, rfl⟩

theorem reconcileConditionsReady_eq {status : ServerStatus} {toolCount : ℕ}
    (hauth : server.authorization = some auth) (hauthorized : isAuthorized status = true) :
    reconcileConditionsReady env server status toolCount = ServerStatus.ifChanged
      ({ status with toolCount := toolCount }.reconcileConditions (readyDiscovering env server)
        (readyAvailable env server auth toolCount)) := by
  have havailability : availability server status toolCount = ("Authorized",
      "Authorized via tokenSecretRef " ++ auth.tokenSecretRef.name ++ "; discovered " ++
        toString toolCount ++ " tools") := by
    rw [availability, hauth]
    dsimp only
    rw [if_pos hauthorized]
  rw [reconcileConditionsReady, havailability]
  rfl

theorem reports_stored {status : ServerStatus} {material : AuthorizationMaterial}
    (h : status.authorization.bind (·.expiresAt) = material.expiresAt) :
    Reports { server with status := status.stored } material := by
  rw [Reports, ← h]
  cases hprev : status.authorization with
  | none => simp [ServerStatus.stored, hprev]
  | some prev => simp [ServerStatus.stored, hprev]

/-- After a listing without errors the stored expiry is the token's exactly where the status was
written or had that expiry before. -/
theorem reports_updated_iff (hauth : server.authorization = some auth)
    (hlisted : (reconcile env server secret).listed.isSome = true)
    (htoken : (tokenAtHand env server auth secret).accessToken ≠ "") :
    Reports (server.updated env (reconcile env server secret)) (tokenAtHand env server auth secret) ↔
      BecomesReady env server auth ∨ Reports server (tokenAtHand env server auth secret) := by
  obtain ⟨address, status, ensured, hstatus, hensured, hminted, hwritten, hready⟩ :=
    reconcile_of_listed hauth hlisted
  obtain ⟨toolCount, htools, hlist, hupdated⟩ := listTools_ready hready
  have hmaterial := tokenAtHand_eq hensured hminted
  rw [hmaterial] at htoken ⊢
  obtain ⟨hauthorized, hconditions, hexpiry⟩ := @applyAuthorizationSuccess_spec env status _ htoken
  rw [hlist] at hwritten hupdated
  rw [reconcileConditionsReady_eq hauth hauthorized] at hwritten hupdated
  have htypes : (readyDiscovering env server).type ≠ (readyAvailable env server auth toolCount).type := by
    have hne : discoveringType ≠ availableType := by decide
    exact hne
  have hbecomes : BecomesReady env server auth ↔
      (conditionChanged (readyDiscovering env server) server.status.conditions ||
        conditionChanged (readyAvailable env server auth toolCount) server.status.conditions) = true := by
    rw [Bool.or_eq_true]
    constructor
    · rintro ⟨toolCount', htools', hchanged⟩
      obtain rfl : toolCount = toolCount' := Except.ok.inj (htools.symm.trans htools')
      exact hchanged
    · exact fun hchanged => ⟨toolCount, htools, hchanged⟩
  have hconditions : (applyAuthorizationSuccess env status (some ensured.material)).conditions =
      server.status.conditions := by rw [hconditions, hstatus]
  have hchanged := @reconcileConditions_changed
    { applyAuthorizationSuccess env status (some ensured.material) with toolCount := toolCount } _ _ htypes
  rw [hbecomes, ← hconditions, ← hchanged]
  unfold AuthorizedServer.updated
  rw [hwritten]
  unfold ServerStatus.ifChanged at hupdated ⊢
  split
  next written hsome =>
    split at hsome
    next htrue =>
      -- A condition changed, so that the status is stored with the expiry of this token.
      rw [if_pos htrue] at hupdated
      obtain rfl := Option.some.inj hsome
      rw [if_pos (hupdated.resolve_left (Option.some_ne_none _))]
      exact iff_of_true (reports_stored hexpiry) (.inl htrue)
    next => cases hsome
  next hnone =>
    split at hnone
    next => cases hnone
    next hfalse => exact ⟨.inr, fun h => h.resolve_left hfalse⟩

end

instance (server : AuthorizedServer) (material : AuthorizationMaterial) :
    Decidable (Reports server material) :=
  inferInstanceAs (Decidable (_ = _))

/-- All requests ask for one thing. -/
def OneTarget (s : RenewalState) : Prop := ∀ p ∈ s.requests, ∀ q ∈ s.requests, p.target = q.target

/-- A listing with a token that succeeds without errors. -/
structure ListsWith (env : Surroundings) (auth : AuthorizationSpec) (s : RenewalState) : Prop where
  spec : s.server.authorization = some auth
  listed : (reconcile env s.server s.secret).listed.isSome = true
  token : (tokenAtHand env s.server auth s.secret).accessToken ≠ ""

/-- Requests under unchanged documents have one target. After a listing the stored expiry is that of
the token if and only if a condition changed or the expiry was stored before. -/
theorem renewal_exact (s : RenewalState) :
    (∀ docs : Documents, renewalMachine.Reachable docs.Unchanged s → OneTarget s) ∧
      ∀ (env : Surroundings) (auth : AuthorizationSpec) (t : RenewalState),
        renewalMachine.Reachable Machine.always s → ListsWith env auth s →
        renewalMachine.step s (.reconcile env) = some t →
          (Reports t.server (tokenAtHand env s.server auth s.secret) ↔
            BecomesReady env s.server auth ∨
              Reports s.server (tokenAtHand env s.server auth s.secret)) := by
  refine ⟨fun docs h => target_eq_of_reachable h, fun env auth t _ hlists h => ?_⟩
  obtain rfl := Option.some.inj h
  exact reports_updated_iff hlists.spec hlists.listed hlists.token

/-! ### A renewal while the server is ready -/

def calendarDocuments : Documents where
  address := "https://mcp.example/calendar"
  resource :=
    { resource := "https://mcp.example/calendar"
      authorizationServers := ["https://auth.example"] }
  server :=
    { authorizationEndpoint := "https://auth.example/authorize"
      tokenEndpoint := "https://auth.example/token"
      grantTypesSupported := ["client_credentials"]
      tokenEndpointAuthMethodsSupported := ["private_key_jwt"]
      tokenEndpointAuthSigningAlgValuesSupported := ["ES256"] }

def calendarCreated : RenewalState where
  server := { calendar with status := {} }

/-- What a reconcile of the server meets, before and after its discovery. -/
def calendarEnv (second : ℕ) (connection : Connection) : Surroundings :=
  { (calendarWake false second 3600).env with
    connection := connection
    resourceMetadataURL := some "https://mcp.example/.well-known/oauth-protected-resource"
    protectedResource := .ok calendarDocuments.resource
    authorizationServer := .ok (some calendarDocuments.server) }

/-- Conditions are set, a 401 is answered by discovery, a token is minted and the tools are listed. -/
def calendarActions : List RenewalAction :=
  [.reconcile (calendarEnv 0 .connected), .reconcile (calendarEnv 1 (.unauthorized "Bearer")),
    .reconcile (calendarEnv 2 .connected)]

theorem calendarEnv_unchanged (s : RenewalState) (second : ℕ) (connection : Connection) :
    calendarDocuments.Unchanged s (.reconcile (calendarEnv second connection)) := by
  refine ⟨?_, ?_, ?_⟩
  · intro address h
    exact (Except.ok.inj h).symm
  · intro rm h
    obtain rfl := Except.ok.inj h
    exact ⟨rfl, rfl⟩
  · intro as h
    exact (Option.some.inj (Except.ok.inj h)).symm

instance (env : Surroundings) (auth : AuthorizationSpec) (s : RenewalState) :
    Decidable (ListsWith env auth s) :=
  decidable_of_iff (s.server.authorization = some auth ∧
      (reconcile env s.server s.secret).listed.isSome = true ∧
      (tokenAtHand env s.server auth s.secret).accessToken ≠ "")
    ⟨fun h => ⟨h.1, h.2.1, h.2.2⟩, fun h => ⟨h.spec, h.listed, h.token⟩⟩

theorem calendar_reachable {p : RenewalState → Bool}
    (h : (renewalMachine.execWhile (fun _ _ => true) calendarCreated calendarActions).any p = true) :
    ∃ s, renewalMachine.Reachable calendarDocuments.Unchanged s ∧ p s = true := by
  refine Machine.exists_reachable_of_allowed ⟨rfl, rfl, rfl⟩ ?_ h
  intro a ha s
  simp only [calendarActions, List.mem_cons, List.not_mem_nil, or_false] at ha
  obtain rfl | rfl | rfl := ha
  all_goals exact calendarEnv_unchanged s _ _

/-- The token is renewed while the server is ready, and the expiry of the old one stays stored. -/
theorem renewed_expiry_not_stored : ¬ ∀ (s t : RenewalState) (env : Surroundings)
    (auth : AuthorizationSpec), renewalMachine.Reachable Machine.always s → ListsWith env auth s →
      renewalMachine.step s (.reconcile env) = some t →
        Reports t.server (tokenAtHand env s.server auth s.secret) := by
  intro hclaim
  let env := calendarEnv 3550 .connected
  obtain ⟨s, hs, hp⟩ := @calendar_reachable (fun s => ListsWith env calendarSpec s &&
    !Reports (s.server.updated env (reconcile env s.server s.secret))
      (tokenAtHand env s.server calendarSpec s.secret)) (by decide +kernel)
  simp only [Bool.and_eq_true, decide_eq_true_eq, Bool.not_eq_true', decide_eq_false_iff_not] at hp
  exact hp.2 (hclaim s _ env calendarSpec (hs.mono fun _ _ _ => trivial) hp.1 rfl)

/-- A listing with the token that was minted reports its expiry. -/
theorem renewal_exact_calendar : ∃ s t, renewalMachine.Reachable calendarDocuments.Unchanged s ∧
    OneTarget s ∧ renewalMachine.step s (.reconcile (calendarEnv 60 .connected)) = some t ∧
    Reports t.server (tokenAtHand (calendarEnv 60 .connected) s.server calendarSpec s.secret) := by
  obtain ⟨s, hs, hp⟩ := @calendar_reachable (fun s => ListsWith (calendarEnv 60 .connected) calendarSpec s &&
    Reports s.server (tokenAtHand (calendarEnv 60 .connected) s.server calendarSpec s.secret))
    (by decide +kernel)
  simp only [Bool.and_eq_true, decide_eq_true_eq] at hp
  obtain ⟨htarget, hreports⟩ := renewal_exact s
  refine ⟨s, _, hs, htarget _ hs, rfl, ?_⟩
  exact (hreports _ _ _ (hs.mono fun _ _ _ => trivial) hp.1 rfl).mpr (.inr hp.2)

end Ark.MCP
