import Ark.A2AStatus
import Ark.TokenSecret

/-!
# Minting tokens for MCP servers

One reconcile of an MCPServer with `spec.authorization`: the token is read from its Secret, minted again
when it is missing or stale, and used to connect; a 401 starts discovery, whose result the next mint
reads from the status. What a reconcile meets outside the cluster is its `Surroundings`. The requeue
it asks for only says when the next one comes and is left out: runs take them at any time.
-/

namespace Ark.MCP

open A2A (Condition ConditionStatus setStatusCondition)

/-! ### The resource -/

structure PrivateKeyJWTSpec where
  secretName : String
  secretKey : String := ""
  algorithm : String := "ES256"
  keyID : String := ""
  deriving DecidableEq

structure ClientCredentialsSpec where
  clientID : String
  scopes : List String := []
  resource : String := ""
  tokenEndpoint : String := ""
  privateKeyJWT : Option PrivateKeyJWTSpec
  deriving DecidableEq

structure AuthorizationSpec where
  tokenSecretRef : TokenSecretReference
  clientCredentials : Option ClientCredentialsSpec := none
  deriving DecidableEq

inductive AuthorizationState
  | required
  | discoveryFailed
  | authorized
  deriving DecidableEq

structure AuthorizationStatus where
  state : AuthorizationState
  resource : String := ""
  resourceMetadataURL : String := ""
  resourceName : String := ""
  authorizationServers : List String := []
  scopesSupported : List String := []
  grantTypesSupported : List String := []
  tokenEndpointAuthMethodsSupported : List String := []
  tokenEndpointAuthSigningAlgValuesSupported : List String := []
  registrationEndpoint : String := ""
  authorizationEndpoint : String := ""
  tokenEndpoint : String := ""
  lastDiscovered : Option Int := none
  expiresAt : Option Int := none

structure ServerStatus where
  resolvedAddress : String := ""
  toolCount : ℕ := 0
  authorization : Option AuthorizationStatus := none
  conditions : List Condition := []

/-- An MCPServer; `generation` counts the changes of its spec. -/
structure AuthorizedServer where
  name : String
  «namespace» : String
  generation : Int
  authorization : Option AuthorizationSpec
  status : ServerStatus := {}

namespace AuthorizedServer

def clientCredentials (server : AuthorizedServer) : Option ClientCredentialsSpec :=
  server.authorization.bind (·.clientCredentials)

def isMachineManaged (server : AuthorizedServer) : Bool := server.clientCredentials.isSome

end AuthorizedServer

/-! ### What a reconcile meets -/

structure TokenResponse where
  accessToken : String
  expiresIn : Int

structure AssertionParams where
  clientID : String
  tokenEndpoint : String
  algorithm : String
  keyID : String
  privateKeyPEM : String

structure TokenRequestParams where
  tokenEndpoint : String
  clientID : String
  assertion : String
  resource : String
  scopes : List String

structure ProtectedResourceMetadata where
  resource : String
  resourceName : String := ""
  authorizationServers : List String := []
  scopesSupported : List String := []

structure AuthorizationServerMetadata where
  authorizationEndpoint : String
  tokenEndpoint : String
  registrationEndpoint : String := ""
  grantTypesSupported : List String := []
  tokenEndpointAuthMethodsSupported : List String := []
  tokenEndpointAuthSigningAlgValuesSupported : List String := []
  scopesSupported : List String := []

/-- What comes of connecting to the server. -/
inductive Connection
  | connected
  | unauthorized (wwwAuthenticate : String)
  | failed (err : String)

/-- The clock and the answers that one reconcile gets. A call that fails carries its error. -/
structure Surroundings where
  /-- The clock when the token is judged, when one is minted, and when the status is set. -/
  now : ℕ
  mintedAt : ℕ := now
  recordedAt : ℕ := now
  resolvedAddress : Except String String
  secretError : Option String := none
  signingSecret : Except String (Option SecretData) := .ok none
  buildAssertion : AssertionParams → Except String String := fun _ => .error ""
  tokenResponse : Except String TokenResponse := .error ""
  writeError : Option String := none
  connection : Connection
  resourceMetadataURL : Option String := none
  protectedResource : Except String ProtectedResourceMetadata := .error ""
  authorizationServer : Except String (Option AuthorizationServerMetadata) := .error ""
  tools : Except String ℕ := .ok 0
  createTools : Except String Bool := .ok false
  statusUpdated : Bool := true

/-! ### Acquiring a token -/

inductive AcquisitionError
  | noMethod
  | capability (field needle : String) (advertised : List String)
  | signingKeyNotFound (secret serverNamespace : String)
  | signingKeyUnreadable (secret err : String)
  | signingKeyEmpty (secret key : String)
  | assertion (err : String)
  | request (err : String)
  | write (err : String)

/-- `%v` of a slice. -/
def printSlice (xs : List String) : String := "[" ++ " ".intercalate xs ++ "]"

/-- The names of Secrets and keys need no escapes. -/
def quoted (s : String) : String := "\"" ++ s ++ "\""

def AcquisitionError.error : AcquisitionError → String
  | noMethod => "authorization.clientCredentials.clientAuthentication has no method set"
  | capability field needle advertised =>
    "authorization server capability not advertised: " ++ field ++ " lacks " ++ quoted needle ++
      " (advertised: " ++ printSlice advertised ++ ")"
  | signingKeyNotFound secret serverNamespace =>
    "signing key Secret " ++ quoted secret ++ " not found in namespace " ++ quoted serverNamespace
  | signingKeyUnreadable secret err => "reading signing key Secret " ++ quoted secret ++ ": " ++ err
  | signingKeyEmpty secret key =>
    "signing key Secret " ++ quoted secret ++ " has no non-empty key " ++ quoted key
  | assertion err => "building client assertion: " ++ err
  | request err => "token request failed: " ++ err
  | write err => "writing token secret: " ++ err

def tokenRenewalSkew : Int := 60 * nanosecondsPerSecond

def maxExpiresIn : Int := 10 * 365 * 24 * 3600

/-- The expiry of a token that was answered at a time. -/
def TokenResponse.expiresAt (tr : TokenResponse) (mintedAt : ℕ) : Option Int :=
  if 0 < tr.expiresIn then some (mintedAt + min tr.expiresIn maxExpiresIn * nanosecondsPerSecond)
  else none

namespace AuthorizationMaterial

variable (material : AuthorizationMaterial) (now : Int)

def hasUsableToken : Bool :=
  if material.accessToken = "" then false
  else match material.expiresAt with
    | none => true
    | some t => now < t

def tokenNeedsRenewal : Bool :=
  if material.accessToken = "" then true
  else match material.expiresAt with
    | none => false
    | some t => t - now < tokenRenewalSkew

end AuthorizationMaterial

structure ASCapabilities where
  grantTypesSupported : List String := []
  tokenEndpointAuthMethodsSupported : List String := []
  tokenEndpointAuthSigningAlgValuesSupported : List String := []

/-- The folds of the letters of ASCII. -/
def foldRune (c : Char) : Char :=
  if 'A' ≤ c && c ≤ 'Z' then Char.ofNat (c.toNat + 32)
  else if c = 'ſ' then 's'
  else if c.toNat = 8490 then 'k'
  else c

def containsFold (haystack : List String) (needle : String) : Bool :=
  haystack.any fun v => v.toList.map foldRune == needle.toList.map foldRune

def validateASCapabilities (caps : ASCapabilities) (algorithm : String) : Except AcquisitionError Unit :=
  if !containsFold caps.grantTypesSupported "client_credentials" then
    .error (.capability "grant_types_supported" "client_credentials" caps.grantTypesSupported)
  else if !containsFold caps.tokenEndpointAuthMethodsSupported "private_key_jwt" then
    .error (.capability "token_endpoint_auth_methods_supported" "private_key_jwt"
      caps.tokenEndpointAuthMethodsSupported)
  else if !containsFold caps.tokenEndpointAuthSigningAlgValuesSupported algorithm then
    .error (.capability "token_endpoint_auth_signing_alg_values_supported" algorithm
      caps.tokenEndpointAuthSigningAlgValuesSupported)
  else .ok ()

namespace ServerStatus

variable (status : ServerStatus)

def resolveTokenEndpoint (cc : ClientCredentialsSpec) : String :=
  if cc.tokenEndpoint ≠ "" then cc.tokenEndpoint
  else match status.authorization with
    | some auth => auth.tokenEndpoint
    | none => ""

def resolveTokenResource (cc : ClientCredentialsSpec) : String :=
  if cc.resource ≠ "" then cc.resource
  else match status.authorization with
    | some auth => if auth.resource ≠ "" then auth.resource else status.resolvedAddress
    | none => status.resolvedAddress

def capabilitiesFromStatus : ASCapabilities :=
  match status.authorization with
  | none => {}
  | some auth =>
    { grantTypesSupported := auth.grantTypesSupported
      tokenEndpointAuthMethodsSupported := auth.tokenEndpointAuthMethodsSupported
      tokenEndpointAuthSigningAlgValuesSupported := auth.tokenEndpointAuthSigningAlgValuesSupported }

end ServerStatus

def readSigningKey (env : Surroundings) (serverNamespace : String) (pkjwt : PrivateKeyJWTSpec) :
    Except AcquisitionError String :=
  let key := if pkjwt.secretKey = "" then "private.pem" else pkjwt.secretKey
  match env.signingSecret with
  | .error err => .error (.signingKeyUnreadable pkjwt.secretName err)
  | .ok none => .error (.signingKeyNotFound pkjwt.secretName serverNamespace)
  | .ok (some data) =>
    match data.get key with
    | none => .error (.signingKeyEmpty pkjwt.secretName key)
    | some pem => if pem = "" then .error (.signingKeyEmpty pkjwt.secretName key) else .ok pem

/-- What `ensureToken` decides before it asks for a token; `none` where discovery has not run yet. -/
def prepareRequest (env : Surroundings) (server : AuthorizedServer) (cc : ClientCredentialsSpec) :
    Except AcquisitionError (Option TokenRequestParams) :=
  let tokenEndpoint := server.status.resolveTokenEndpoint cc
  match cc.privateKeyJWT with
  | none => .error .noMethod
  | some pkjwt =>
    if tokenEndpoint = "" then .ok none
    else if server.status.authorization.isNone then .ok none
    else do
      validateASCapabilities server.status.capabilitiesFromStatus pkjwt.algorithm
      let keyPEM ← readSigningKey env server.namespace pkjwt
      let assertion ← (env.buildAssertion
        { clientID := cc.clientID
          tokenEndpoint := tokenEndpoint
          algorithm := pkjwt.algorithm
          keyID := pkjwt.keyID
          privateKeyPEM := keyPEM }).mapError .assertion
      .ok (some
        { tokenEndpoint := tokenEndpoint
          clientID := cc.clientID
          assertion := assertion
          resource := server.status.resolveTokenResource cc
          scopes := cc.scopes })

/-- The token that a reconcile goes on with, the request it made, and the Secret it leaves. -/
structure Ensured where
  material : AuthorizationMaterial
  error : Option AcquisitionError := none
  request : Option TokenRequestParams := none
  minted : Option TokenResponse := none
  secret : Option SecretData

def ensureToken (env : Surroundings) (server : AuthorizedServer) (auth : AuthorizationSpec)
    (material : AuthorizationMaterial) (secret : Option SecretData) : Ensured :=
  match auth.clientCredentials with
  | none => { material := material, secret := secret }
  | some cc =>
    if !material.tokenNeedsRenewal env.now then { material := material, secret := secret }
    else match prepareRequest env server cc with
      | .error err => { material := material, error := some err, secret := secret }
      | .ok none => { material := material, secret := secret }
      | .ok (some params) =>
        match env.tokenResponse with
        | .error err =>
          { material := material, error := some (.request err), request := some params
            secret := secret }
        | .ok tr =>
          match env.writeError with
          | some err =>
            { material := material, error := some (.write err), request := some params
              secret := secret }
          | none =>
            { material := { accessToken := tr.accessToken, expiresAt := tr.expiresAt env.mintedAt }
              request := some params
              minted := some tr
              secret := some (applyTokenData auth.tokenSecretRef.resolvedAccessTokenKey
                auth.tokenSecretRef.resolvedExpiresAtKey tr.accessToken (tr.expiresAt env.mintedAt)
                (secret.getD [])) }

/-! ### The status -/

def availableType : String := "Available"

def discoveringType : String := "Discovering"

namespace AuthorizedServer

variable (env : Surroundings) (server : AuthorizedServer)

def condition (type : String) (status : ConditionStatus) (reason message : String) : Condition where
  type := type
  status := status
  observedGeneration := server.generation
  lastTransitionTime := env.recordedAt
  reason := reason
  message := message

end AuthorizedServer

/-- What `meta.SetStatusCondition` answers. -/
def conditionChanged (new : Condition) (conditions : List Condition) : Bool :=
  match conditions.find? fun c => c.type = new.type with
  | none => true
  | some c => c.status ≠ new.status || c.reason ≠ new.reason || c.message ≠ new.message ||
      c.observedGeneration ≠ new.observedGeneration

namespace ServerStatus

def reconcileCondition (new : Condition) (status : ServerStatus) : ServerStatus × Bool :=
  ({ status with conditions := setStatusCondition new.lastTransitionTime new status.conditions },
    conditionChanged new status.conditions)

/-- Two conditions set one after the other, and whether one of them changed. -/
def reconcileConditions (new new' : Condition) (status : ServerStatus) : ServerStatus × Bool :=
  let (status, changed1) := status.reconcileCondition new
  let (status, changed2) := status.reconcileCondition new'
  (status, changed1 || changed2)

/-- The status that a handler writes, which it does only where a condition changed. -/
def ifChanged (reconciled : ServerStatus × Bool) : Option ServerStatus :=
  if reconciled.2 then some reconciled.1 else none

end ServerStatus

section

variable (env : Surroundings) (server : AuthorizedServer) (status : ServerStatus)

def reconcileConditionsInitializing : Option ServerStatus :=
  ServerStatus.ifChanged (status.reconcileConditions
    (server.condition env availableType .conditionUnknown "Initializing"
      "MCPServer is being initialized")
    (server.condition env discoveringType .conditionTrue "Starting"
      "Starting tool discovery process"))

def reconcileConditionsAddressResolutionFailed : Option ServerStatus :=
  ServerStatus.ifChanged (status.reconcileConditions
    (server.condition env availableType .conditionFalse "AddressResolutionFailed"
      "Server not ready due to address resolution failure")
    (server.condition env discoveringType .conditionFalse "AddressResolutionFailed"
      "Cannot attempt discovery due to address resolution failure"))

def reconcileConditionsTokenAcquisitionFailed (cause : AcquisitionError) : Option ServerStatus :=
  ServerStatus.ifChanged ({ status with toolCount := 0 }.reconcileConditions
    (server.condition env availableType .conditionFalse "TokenAcquisitionFailed" cause.error)
    (server.condition env discoveringType .conditionFalse "TokenAcquisitionFailed"
      "Cannot attempt tool discovery without a token"))

def reconcileConditionsClientCreationFailed : Option ServerStatus :=
  ServerStatus.ifChanged ({ status with toolCount := 0 }.reconcileConditions
    (server.condition env availableType .conditionFalse "ClientCreationFailed"
      "Server not ready due to client creation failure")
    (server.condition env discoveringType .conditionFalse "ClientCreationFailed"
      "Cannot attempt discovery due to client creation failure"))

def reconcileConditionsToolListingFailed (err : String) : Option ServerStatus :=
  ServerStatus.ifChanged (status.reconcileConditions
    (server.condition env discoveringType .conditionTrue "ServerConnectedAndToolListingFailed" err)
    (server.condition env availableType .conditionFalse "ToolListingFailed"
      "Server not ready due to tool listing failure"))

def reconcileConditionsToolCreationFailed (err : String) : Option ServerStatus :=
  ServerStatus.ifChanged (status.reconcileCondition
    (server.condition env availableType .conditionFalse "ToolCreationFailed"
      ("Failed to create tools: " ++ err)))

def reconcileConditionsAuthorizationDiscoveryFailed (reason : String) : Option ServerStatus :=
  let discoveryFailed : AuthorizationStatus :=
    { state := .discoveryFailed
      resource := status.resolvedAddress
      lastDiscovered := some env.recordedAt }
  ServerStatus.ifChanged ({ status with toolCount := 0, authorization := some discoveryFailed }.reconcileConditions
    (server.condition env availableType .conditionFalse "AuthorizationDiscoveryFailed"
      ("Authorization required but discovery failed: " ++ reason))
    (server.condition env discoveringType .conditionFalse "AuthorizationDiscoveryFailed"
      "Cannot attempt tool discovery until authorization metadata can be discovered"))

/-- The status that the metadata documents make up. -/
def discoveredAuthorization (metaURL : String) (rm : ProtectedResourceMetadata) :
    AuthorizationStatus :=
  let required : AuthorizationStatus :=
    { state := .required
      resource := if rm.resource = "" then status.resolvedAddress else rm.resource
      resourceMetadataURL := metaURL
      resourceName := rm.resourceName
      authorizationServers := rm.authorizationServers
      scopesSupported := rm.scopesSupported
      lastDiscovered := some env.recordedAt }
  if rm.authorizationServers = [] then required
  else match env.authorizationServer with
    | .error _ => required
    | .ok none => required
    | .ok (some as) =>
      { required with
        authorizationEndpoint := as.authorizationEndpoint
        tokenEndpoint := as.tokenEndpoint
        registrationEndpoint := as.registrationEndpoint
        grantTypesSupported := as.grantTypesSupported
        tokenEndpointAuthMethodsSupported := as.tokenEndpointAuthMethodsSupported
        tokenEndpointAuthSigningAlgValuesSupported := as.tokenEndpointAuthSigningAlgValuesSupported
        scopesSupported := if as.scopesSupported = [] then rm.scopesSupported else as.scopesSupported }

def authorizationRequiredMessage (auth : AuthorizationStatus) : String :=
  let displayName := if auth.resourceName = "" then auth.resource else auth.resourceName
  "OAuth authorization required for " ++ displayName ++
    if server.isMachineManaged then ". The controller will acquire a token via clientCredentials."
    else ". Run `ark mcp auth login " ++ server.name ++ "` to authorize."

def handleAuthorizationRequired (wwwAuthenticate : String) : Option ServerStatus :=
  match env.resourceMetadataURL with
  | none =>
    reconcileConditionsAuthorizationDiscoveryFailed env server status
      ("server returned HTTP 401 but WWW-Authenticate header did not advertise RFC 9728 " ++
        "resource_metadata URL (header=" ++ quoted wwwAuthenticate ++ ")")
  | some metaURL =>
    match env.protectedResource with
    | .error err =>
      reconcileConditionsAuthorizationDiscoveryFailed env server status
        ("failed to fetch protected resource metadata at " ++ metaURL ++ ": " ++ err)
    | .ok rm =>
      let auth := discoveredAuthorization env status metaURL rm
      some ({ status with toolCount := 0, authorization := some auth }.reconcileConditions
        (server.condition env availableType .conditionFalse "AuthorizationRequired"
          (authorizationRequiredMessage server auth))
        (server.condition env discoveringType .conditionFalse "AuthorizationRequired"
          "Cannot attempt tool discovery until authorization is complete")).1

def applyAuthorizationSuccess (material : Option AuthorizationMaterial) : ServerStatus :=
  match material with
  | none => { status with authorization := none }
  | some material =>
    if material.accessToken = "" then status
    else
      let auth := status.authorization.getD { state := .authorized }
      let authorized : AuthorizationStatus :=
        { auth with
          state := .authorized
          resource := status.resolvedAddress
          expiresAt := material.expiresAt
          lastDiscovered := some env.recordedAt }
      { status with authorization := some authorized }

def isAuthorized : Bool := status.authorization.any fun auth => auth.state = .authorized

/-- The reason and the message of a server that is available. -/
def availability (toolCount : ℕ) : String × String :=
  match server.authorization with
  | some auth =>
    if isAuthorized status then
      ("Authorized", "Authorized via tokenSecretRef " ++ auth.tokenSecretRef.name ++ "; discovered " ++
        toString toolCount ++ " tools")
    else ("ToolsDiscovered", "Successfully discovered " ++ toString toolCount ++ " tools")
  | none => ("ToolsDiscovered", "Successfully discovered " ++ toString toolCount ++ " tools")

def reconcileConditionsReady (toolCount : ℕ) : Option ServerStatus :=
  let (reason, message) := availability server status toolCount
  ServerStatus.ifChanged ({ status with toolCount := toolCount }.reconcileConditions
    (server.condition env discoveringType .conditionFalse "DiscoveryComplete"
      "Tool discovery completed")
    (server.condition env availableType .conditionTrue reason message))

end

/-! ### One reconcile -/

/-- The status as it is stored, its instants cut off at the second. -/
def ServerStatus.stored (status : ServerStatus) : ServerStatus :=
  { status with
    authorization := status.authorization.map fun auth =>
      { auth with
        lastDiscovered := auth.lastDiscovered.map toSecond
        expiresAt := auth.expiresAt.map toSecond } }

/-- What a reconcile leaves: the status it writes, the Secret, and what it asked for and minted. A
listing that succeeded without errors has the material it was made with. -/
structure Reconciled where
  written : Option ServerStatus := none
  request : Option TokenRequestParams := none
  minted : Option TokenResponse := none
  secret : Option SecretData
  listed : Option (Option AuthorizationMaterial) := none

section

variable (env : Surroundings) (server : AuthorizedServer)

/-- The reconcile from its connection on. -/
def listTools (status : ServerStatus) (material : Option AuthorizationMaterial) :
    Option ServerStatus × Bool :=
  match env.connection with
  | .unauthorized wwwAuthenticate =>
    (handleAuthorizationRequired env server status wwwAuthenticate, false)
  | .failed _ => (reconcileConditionsClientCreationFailed env server status, false)
  | .connected =>
    match env.tools with
    | .error err => (reconcileConditionsToolListingFailed env server status err, false)
    | .ok toolCount =>
      let status := applyAuthorizationSuccess env status material
      match env.createTools with
      | .error err => (reconcileConditionsToolCreationFailed env server status err, false)
      | .ok _ =>
        let written := reconcileConditionsReady env server status toolCount
        (written, written.isNone || env.statusUpdated)

def processServer (secret : Option SecretData) : Reconciled :=
  match env.resolvedAddress with
  | .error _ =>
    { written := reconcileConditionsAddressResolutionFailed env server server.status
      secret := secret }
  | .ok address =>
    let status := { server.status with resolvedAddress := address }
    match server.authorization with
    | none =>
      let (written, ready) := listTools env server status none
      { written := written, secret := secret, listed := if ready then some none else none }
    | some auth =>
      if env.secretError.isSome then { secret := secret }
      else
        let material := (resolveAuthorizationMaterial server.namespace auth.tokenSecretRef secret).1
        let ensured := ensureToken env { server with status := status } auth material secret
        match ensured.error.filter fun _ => !ensured.material.hasUsableToken env.now with
        | some cause =>
          { written := reconcileConditionsTokenAcquisitionFailed env server status cause
            request := ensured.request
            minted := ensured.minted
            secret := ensured.secret }
        | none =>
          let (written, ready) := listTools env server status (some ensured.material)
          { written := written
            request := ensured.request
            minted := ensured.minted
            secret := ensured.secret
            listed := if ready then some (some ensured.material) else none }

def reconcile (secret : Option SecretData) : Reconciled :=
  if server.status.conditions = [] then
    { written := reconcileConditionsInitializing env server server.status, secret := secret }
  else processServer env server secret

/-- The server as it is stored after a reconcile. -/
def AuthorizedServer.updated (reconciled : Reconciled) : AuthorizedServer :=
  match reconciled.written with
  | some status => if env.statusUpdated then { server with status := status.stored } else server
  | none => server

end

/-! ### What a reconcile does to the Secret -/

section

variable (env : Surroundings) (server : AuthorizedServer)

/-- A token that was answered and written is the new one of the Secret, which else stays. -/
def Writes (auth : AuthorizationSpec) (secret : Option SecretData) (minted : Option TokenResponse)
    (secret' : Option SecretData) : Prop :=
  minted = none ∧ secret' = secret ∨
    ∃ tr, env.tokenResponse = .ok tr ∧ minted = some tr ∧
      secret' = some (applyTokenData auth.tokenSecretRef.resolvedAccessTokenKey
        auth.tokenSecretRef.resolvedExpiresAtKey tr.accessToken (tr.expiresAt env.mintedAt)
        (secret.getD []))

/-- A token is asked for only when the one at hand is missing or stale. -/
theorem ensureToken_cases (auth : AuthorizationSpec) (material : AuthorizationMaterial)
    (secret : Option SecretData) {ensured : Ensured}
    (h : ensureToken env server auth material secret = ensured) :
    (ensured.request = none ∧ ensured.minted = none ∧ ensured.secret = secret ∧
      ensured.material = material) ∨
      ∃ cc params, auth.clientCredentials = some cc ∧ material.tokenNeedsRenewal env.now = true ∧
        prepareRequest env server cc = .ok (some params) ∧ ensured.request = some params ∧
        Writes env auth secret ensured.minted ensured.secret ∧
        ensured.material = match ensured.minted with
          | some tr => { accessToken := tr.accessToken, expiresAt := tr.expiresAt env.mintedAt }
          | none => material := by
  subst h
  unfold ensureToken
  split
  next => exact .inl ⟨rfl, rfl, rfl, rfl⟩
  next cc hcc =>
    split
    next => exact .inl ⟨rfl, rfl, rfl, rfl⟩
    next hstale =>
      have hstale : material.tokenNeedsRenewal env.now = true := by simpa using hstale
      split
      next => exact .inl ⟨rfl, rfl, rfl, rfl⟩
      next => exact .inl ⟨rfl, rfl, rfl, rfl⟩
      next params hparams =>
        refine .inr ⟨cc, params, hcc, hstale, hparams, ?_⟩
        split
        next => exact ⟨rfl, .inl ⟨rfl, rfl⟩, rfl⟩
        next tr htr =>
          split
          next => exact ⟨rfl, .inl ⟨rfl, rfl⟩, rfl⟩
          next => exact ⟨rfl, .inr ⟨tr, htr, rfl, rfl⟩, rfl⟩

/-- A reconcile that asks for a token. -/
structure Asks (secret : Option SecretData) (auth : AuthorizationSpec) (cc : ClientCredentialsSpec)
    (params : TokenRequestParams) (r : Reconciled) : Prop where
  spec : server.authorization = some auth
  credentials : auth.clientCredentials = some cc
  stale : (resolveAuthorizationMaterial server.namespace auth.tokenSecretRef
    secret).1.tokenNeedsRenewal env.now = true
  prepared : ∃ address, env.resolvedAddress = .ok address ∧
    prepareRequest env { server with status := { server.status with resolvedAddress := address } } cc =
      .ok (some params)
  request : r.request = some params
  writes : Writes env auth secret r.minted r.secret

/-- A reconcile asks for nothing and leaves the Secret, or it asks for a token. -/
theorem reconcile_cases (secret : Option SecretData) :
    let r := reconcile env server secret
    (r.request = none ∧ r.minted = none ∧ r.secret = secret) ∨
      ∃ auth cc params, Asks env server secret auth cc params r := by
  dsimp only
  unfold reconcile processServer
  split
  next => exact .inl ⟨rfl, rfl, rfl⟩
  split
  next => exact .inl ⟨rfl, rfl, rfl⟩
  next address haddress =>
    dsimp only
    split
    next => exact .inl ⟨rfl, rfl, rfl⟩
    next auth hauth =>
      split
      next => exact .inl ⟨rfl, rfl, rfl⟩
      next =>
        obtain ⟨hrequest, hminted, hsecret, -⟩ | ⟨cc, params, hcc, hstale, hparams, hrequest, hwrites, -⟩ :=
          ensureToken_cases env { server with status := { server.status with resolvedAddress := address } }
            auth (resolveAuthorizationMaterial server.namespace auth.tokenSecretRef secret).1 secret rfl
        · left
          split
          next => exact ⟨hrequest, hminted, hsecret⟩
          next => exact ⟨hrequest, hminted, hsecret⟩
        · refine .inr ⟨auth, cc, params, ?_⟩
          split
          next => exact ⟨hauth, hcc, hstale, ⟨address, haddress, hparams⟩, hrequest, hwrites⟩
          next => exact ⟨hauth, hcc, hstale, ⟨address, haddress, hparams⟩, hrequest, hwrites⟩

/-- A reconcile writes the status alone. -/
theorem updated_spec (r : Reconciled) :
    (server.updated env r).authorization = server.authorization ∧
      (server.updated env r).namespace = server.namespace ∧
      (server.updated env r).generation = server.generation := by
  unfold AuthorizedServer.updated
  split
  next => split <;> exact ⟨rfl, rfl, rfl⟩
  next => exact ⟨rfl, rfl, rfl⟩

end

end Ark.MCP
