import Ark.TokenSecret

/-!
# What the login flow keeps in the token Secret

The API server of Ark keeps the state of a login flow in the Secret of the token that the flow is for:
ten keys of its own beside the keys of the `tokenSecretRef`, and a label with the state parameter by
which the callback finds the Secret. Every write is a patch of some keys.
-/

namespace Ark.McpAuth

open KeyedTable MCP

/-! ### Secrets and patches -/

/-- The value of the label `FLOW_STATE_LABEL` and the data of a Secret. -/
structure Secret where
  stateLabel : Option String := none
  data : SecretData := []

/-- A patch of a Secret; `none` leaves the label and `some none` takes it away. -/
structure SecretPatch where
  stateLabel : Option (Option String) := none
  stringData : SecretData

def patchData (stringData data : SecretData) : SecretData :=
  stringData.foldl (fun data entry => put Prod.fst entry data) data

section

variable {stringData data : SecretData} {key value : String}

theorem get_patchData_of_not_mem (h : key ∉ stringData.map Prod.fst) :
    SecretData.get (patchData stringData data) key = data.get key := by
  induction stringData generalizing data with
  | nil => rfl
  | cons entry stringData ih =>
    obtain ⟨hne, htail⟩ := not_or.mp (List.mem_cons.not.mp h)
    have hput : SecretData.get (put Prod.fst entry data) key = data.get key := by
      rw [SecretData.get_put, if_neg hne]
    exact (ih htail).trans hput

/-- A key that a patch names once has the value that the patch gives it. -/
theorem get_patchData_of_mem (h : (key, value) ∈ stringData)
    (hnodup : (stringData.map Prod.fst).Nodup) :
    SecretData.get (patchData stringData data) key = some value := by
  induction stringData generalizing data with
  | nil => cases h
  | cons entry stringData ih =>
    obtain ⟨hentry, hnodup⟩ := List.nodup_cons.mp hnodup
    obtain rfl | hmem := List.mem_cons.mp h
    · have hput : SecretData.get (put Prod.fst (key, value) data) key = some value := by
        rw [SecretData.get_put, if_pos rfl]
      exact (get_patchData_of_not_mem hentry).trans hput
    · exact ih hmem hnodup

theorem patchData_append (stringData stringData' : SecretData) :
    patchData (stringData ++ stringData') data = patchData stringData' (patchData stringData data) :=
  List.foldl_append

end

namespace SecretPatch

variable (patch : SecretPatch)

def apply (secret : Secret) : Secret where
  stateLabel := patch.stateLabel.getD secret.stateLabel
  data := patchData patch.stringData secret.data

/-- A Secret that is created with the content of a patch. -/
def create : Secret := patch.apply {}

end SecretPatch

/-! ### The keys -/

structure SecretKeys where
  accessToken : String := defaultAccessTokenKey
  refreshToken : String := defaultRefreshTokenKey
  expiresAt : String := defaultExpiresAtKey
  clientID : String := defaultClientIDKey
  clientSecret : String := defaultClientSecretKey

namespace SecretKeys

def fromTypedRef (ref : TokenSecretReference) : SecretKeys where
  accessToken := resolvedKey ref.accessTokenKey defaultAccessTokenKey
  refreshToken := resolvedKey ref.refreshTokenKey defaultRefreshTokenKey
  expiresAt := resolvedKey ref.expiresAtKey defaultExpiresAtKey
  clientID := resolvedKey ref.clientIDKey defaultClientIDKey
  clientSecret := resolvedKey ref.clientSecretKey defaultClientSecretKey

def asList (keys : SecretKeys) : List String :=
  [keys.accessToken, keys.refreshToken, keys.expiresAt, keys.clientID, keys.clientSecret]

end SecretKeys

def flowAuthIdKey : String := "_flow_auth_id"

def flowStateParamKey : String := "_flow_state_param"

def flowVerifierKey : String := "_flow_verifier"

def flowStatusKey : String := "_flow_status"

def flowMessageKey : String := "_flow_message"

def flowExpiresAtKey : String := "_flow_expires_at"

def flowTokenExpiresAtKey : String := "_flow_token_expires_at"

def flowServerNameKey : String := "_flow_server_name"

def flowNamespaceKey : String := "_flow_namespace"

def flowRedirectOnCompleteKey : String := "_flow_redirect_on_complete"

def flowKeys : List String :=
  [flowAuthIdKey, flowStateParamKey, flowVerifierKey, flowStatusKey, flowMessageKey, flowExpiresAtKey,
    flowTokenExpiresAtKey, flowServerNameKey, flowNamespaceKey, flowRedirectOnCompleteKey]

/-- None of the keys is one of the flow's own. -/
def SecretKeys.Apart (keys : SecretKeys) : Prop := ∀ key ∈ keys.asList, key ∉ flowKeys

/-! ### Client credentials -/

structure CachedClientCreds where
  clientID : Option String
  clientSecret : Option String

namespace CachedClientCreds

/-- The truth of an optional string. -/
def isTrue (s : Option String) : Bool := s.any (· ≠ "")

def bothPresent (creds : CachedClientCreds) : Bool := isTrue creds.clientID && isTrue creds.clientSecret

end CachedClientCreds

def readCachedClientCreds (keys : SecretKeys) : Option Secret → CachedClientCreds
  | none => ⟨none, none⟩
  | some secret => ⟨secret.data.get keys.clientID, secret.data.get keys.clientSecret⟩

/-! ### The state of a flow -/

/-- What a start writes. -/
structure FlowStart where
  authId : String
  stateParam : String
  verifier : String
  expiresAt : String
  serverName : String
  «namespace» : String
  clientID : String
  clientSecret : String
  redirectOnComplete : Bool := false

/-- The keys of the flow in `string_data`. -/
def FlowStart.entries (flow : FlowStart) : SecretData :=
  [(flowAuthIdKey, flow.authId), (flowStateParamKey, flow.stateParam),
    (flowVerifierKey, flow.verifier), (flowStatusKey, "pending"), (flowMessageKey, ""),
    (flowExpiresAtKey, flow.expiresAt), (flowTokenExpiresAtKey, ""),
    (flowServerNameKey, flow.serverName), (flowNamespaceKey, flow.namespace),
    (flowRedirectOnCompleteKey, if flow.redirectOnComplete then "true" else "false")]

def writeFlowState (keys : SecretKeys) (flow : FlowStart) : SecretPatch where
  stateLabel := some (some flow.stateParam)
  stringData :=
    flow.entries ++ [(keys.clientID, flow.clientID), (keys.clientSecret, flow.clientSecret)]

structure FlowState where
  authId : String
  stateParam : String
  verifier : String
  status : String
  message : String
  expiresAt : String
  tokenExpiresAt : String
  serverName : String
  «namespace» : String
  clientID : String
  clientSecret : String
  redirectOnComplete : Bool := false

/-- A value or the empty string. -/
def getOrEmpty (data : SecretData) (key : String) : String := (data.get key).getD ""

def extractFlowState (secret : Secret) : Option FlowState :=
  let data := secret.data
  let keys : SecretKeys := {}
  if CachedClientCreds.isTrue (data.get flowAuthIdKey) then
    some
      { authId := getOrEmpty data flowAuthIdKey
        stateParam := getOrEmpty data flowStateParamKey
        verifier := getOrEmpty data flowVerifierKey
        status :=
          if getOrEmpty data flowStatusKey = "" then "pending"
          else getOrEmpty data flowStatusKey
        message := getOrEmpty data flowMessageKey
        expiresAt := getOrEmpty data flowExpiresAtKey
        tokenExpiresAt := getOrEmpty data flowTokenExpiresAtKey
        serverName := getOrEmpty data flowServerNameKey
        «namespace» := getOrEmpty data flowNamespaceKey
        clientID := getOrEmpty data keys.clientID
        clientSecret := getOrEmpty data keys.clientSecret
        redirectOnComplete := getOrEmpty data flowRedirectOnCompleteKey = "true" }
  else none

def readFlowStateByStateParam (stateParam : String) : Option Secret → Option FlowState
  | none => none
  | some secret => if secret.stateLabel = some stateParam then extractFlowState secret else none

def readFlowStateByAuthId (secret : Option Secret) : Option FlowState := secret.bind extractFlowState

def markFlowAuthorized (tokenExpiresAt : Option String) : SecretPatch where
  stateLabel := some none
  stringData :=
    [(flowStatusKey, "authorized"), (flowStateParamKey, ""), (flowMessageKey, ""),
      (flowTokenExpiresAtKey, tokenExpiresAt.getD "")]

def markFlowFailed (message : String) : SecretPatch where
  stateLabel := some none
  stringData := [(flowStatusKey, "failed"), (flowStateParamKey, ""), (flowMessageKey, message)]

/-! ### Times -/

/-- The instant whose text `strftime` writes as `s`. -/
def strptime (s : String) : Option Int :=
  (CivilTime.parseRFC3339 s.toList).filter fun t => formatTime t = s

def isExpiredText (expiresAt : String) (now : ℕ) : Bool :=
  match strptime expiresAt with
  | none => true
  | some deadline => deadline ≤ now

def FlowState.isExpired (flow : FlowState) (now : ℕ) : Bool := isExpiredText flow.expiresAt now

theorem isExpiredText_mono {expiresAt : String} {now later : ℕ} (hle : now ≤ later)
    (h : isExpiredText expiresAt now = true) : isExpiredText expiresAt later = true := by
  unfold isExpiredText at h ⊢
  split at h
  next => rfl
  next =>
    simp only [decide_eq_true_eq] at h ⊢
    omega

def flowDeadline (now ttlSeconds : ℕ) : String := formatTime (now + ttlSeconds * nanosecondsPerSecond)

def tokenExpirySafetyMarginSeconds : Int := 30

/-- The expiry of a token, `none` where none is given, and an error where it has no date. -/
def computeExpiresAt (expiresIn : Option Int) (now : ℕ) : Except String (Option String) :=
  match expiresIn with
  | none => .ok none
  | some seconds =>
    if seconds ≤ 0 then .ok none
    else
      let expires := now + (seconds - tokenExpirySafetyMarginSeconds) * nanosecondsPerSecond
      if expires < CivilTime.yearStart 10000 * nanosecondsPerSecond then .ok (some (formatTime expires))
      else .error "year is out of range"

/-! ### Tokens -/

structure SecretPatchPayload where
  accessToken : String
  refreshToken : Option String
  expiresAt : Option String
  clientID : String
  clientSecret : String

/-- An entry for a value that is not empty. -/
def entryIfTrue (key : String) (value : Option String) : SecretData :=
  if CachedClientCreds.isTrue value then [(key, value.getD "")] else []

def writeTokenSecret (keys : SecretKeys) (payload : SecretPatchPayload) : SecretPatch where
  stringData :=
    [(keys.accessToken, payload.accessToken), (keys.clientID, payload.clientID),
      (keys.clientSecret, payload.clientSecret)] ++
    entryIfTrue keys.refreshToken payload.refreshToken ++
    entryIfTrue keys.expiresAt payload.expiresAt

def clearTokenSecret (keys : SecretKeys) (keepClient : Bool) : SecretPatch where
  stateLabel := some none
  stringData :=
    [(keys.accessToken, ""), (keys.refreshToken, ""), (keys.expiresAt, "")] ++
    (if keepClient then [] else [(keys.clientID, ""), (keys.clientSecret, "")]) ++
    flowKeys.map fun key => (key, "")

/-! ### What a patch leaves of a flow -/

/-- What of a Secret the requests of a flow go by. -/
structure FlowView where
  stateLabel : Option String
  authId : Option String
  stateParam : Option String
  verifier : Option String
  status : Option String
  expiresAt : Option String

/-- A Secret without a flow. -/
def FlowView.empty : FlowView := ⟨none, none, none, none, none, none⟩

/-- The flow of a start. -/
def FlowStart.view (flow : FlowStart) : FlowView :=
  ⟨some flow.stateParam, some flow.authId, some flow.stateParam, some flow.verifier, some "pending",
    some flow.expiresAt⟩

/-- A flow that was ended. -/
def FlowView.marked (status : String) (view : FlowView) : FlowView :=
  { view with stateLabel := none, stateParam := some "", status := some status }

/-- A Secret that was logged out. -/
def FlowView.cleared : FlowView := ⟨none, some "", some "", some "", some "", some ""⟩

def Secret.view (secret : Secret) : FlowView where
  stateLabel := secret.stateLabel
  authId := secret.data.get flowAuthIdKey
  stateParam := secret.data.get flowStateParamKey
  verifier := secret.data.get flowVerifierKey
  status := secret.data.get flowStatusKey
  expiresAt := secret.data.get flowExpiresAtKey

section

variable {keys : SecretKeys} {secret : Secret} {key : String}

theorem nodup_flowKeys : flowKeys.Nodup := by decide

/-- Patches of the token's keys leave the flow's. -/
theorem get_patchData_apart (h : keys.Apart) (hkey : key ∈ flowKeys) {stringData data : SecretData}
    (htoken : ∀ entry ∈ stringData, entry.1 ∈ keys.asList) :
    SecretData.get (patchData stringData data) key = data.get key := by
  apply get_patchData_of_not_mem
  intro hmem
  obtain ⟨entry, hentry, rfl⟩ := List.mem_map.mp hmem
  exact h _ (htoken entry hentry) hkey

theorem view_writeFlowState (h : keys.Apart) (flow : FlowStart) :
    ((writeFlowState keys flow).apply secret).view = flow.view := by
  have hentry (entry : String × String) (hmem : entry ∈ flow.entries) :
      ((writeFlowState keys flow).apply secret).data.get entry.1 = some entry.2 := by
    rw [SecretPatch.apply, writeFlowState, patchData_append,
      get_patchData_apart h (List.mem_map_of_mem (f := Prod.fst) hmem)]
    · exact get_patchData_of_mem hmem nodup_flowKeys
    · simp [SecretKeys.asList]
  rw [Secret.view, hentry (flowAuthIdKey, flow.authId) (by simp [FlowStart.entries]),
    hentry (flowStateParamKey, flow.stateParam) (by simp [FlowStart.entries]),
    hentry (flowVerifierKey, flow.verifier) (by simp [FlowStart.entries]),
    hentry (flowStatusKey, "pending") (by simp [FlowStart.entries]),
    hentry (flowExpiresAtKey, flow.expiresAt) (by simp [FlowStart.entries])]
  rfl

theorem mem_entryIfTrue {entry : String × String} {value : Option String}
    (h : entry ∈ entryIfTrue key value) : entry.1 = key := by
  unfold entryIfTrue at h
  split at h
  next =>
    obtain rfl := List.mem_singleton.mp h
    rfl
  next => cases h

theorem view_writeTokenSecret (h : keys.Apart) (payload : SecretPatchPayload) :
    ((writeTokenSecret keys payload).apply secret).view = secret.view := by
  have hget {key : String} (hkey : key ∈ flowKeys) :
      ((writeTokenSecret keys payload).apply secret).data.get key = secret.data.get key := by
    apply get_patchData_apart h hkey
    intro entry hentry
    simp only [writeTokenSecret, List.mem_append, List.mem_cons, List.not_mem_nil, or_false] at hentry
    obtain (⟨rfl | rfl | rfl⟩ | hentry) | hentry := hentry
    · simp [SecretKeys.asList]
    · simp [SecretKeys.asList]
    · simp [SecretKeys.asList]
    · rw [mem_entryIfTrue hentry]
      simp [SecretKeys.asList]
    · rw [mem_entryIfTrue hentry]
      simp [SecretKeys.asList]
  rw [Secret.view, hget (by decide), hget (by decide), hget (by decide), hget (by decide),
    hget (by decide)]
  rfl

/-- A patch that ends a flow: the label goes, the status is set, and the rest stays but for the state
parameter. -/
theorem view_of_marks {patch : SecretPatch} {status : String} {stringData : SecretData}
    (hlabel : patch.stateLabel = some none)
    (hdata : patch.stringData = (flowStatusKey, status) :: (flowStateParamKey, "") :: stringData)
    (hkeys : ∀ key ∈ [flowAuthIdKey, flowStateParamKey, flowVerifierKey, flowStatusKey,
      flowExpiresAtKey], key ∉ stringData.map Prod.fst) :
    (patch.apply secret).view = secret.view.marked status := by
  have hget {key : String} (hkey : key ∈ [flowAuthIdKey, flowStateParamKey, flowVerifierKey,
      flowStatusKey, flowExpiresAtKey]) : (patch.apply secret).data.get key =
        if key = flowStateParamKey then some ""
        else if key = flowStatusKey then some status else secret.data.get key := by
    let marked := patchData [(flowStatusKey, status), (flowStateParamKey, "")] secret.data
    have hrest : SecretData.get (patchData stringData marked) key = marked.get key :=
      get_patchData_of_not_mem (hkeys key hkey)
    rw [SecretPatch.apply, hdata]
    refine hrest.trans ?_
    simp only [marked, patchData, List.foldl_cons, List.foldl_nil, SecretData.get_put]
  rw [Secret.view, hget (by decide), hget (by decide), hget (by decide), hget (by decide),
    hget (by decide), SecretPatch.apply, hlabel]
  rfl

theorem view_markFlowAuthorized (tokenExpiresAt : Option String) :
    ((markFlowAuthorized tokenExpiresAt).apply secret).view = secret.view.marked "authorized" := by
  have hkeys : ∀ key ∈ [flowAuthIdKey, flowStateParamKey, flowVerifierKey, flowStatusKey,
      flowExpiresAtKey], key ∉ [flowMessageKey, flowTokenExpiresAtKey] := by decide
  exact view_of_marks rfl rfl hkeys

theorem view_markFlowFailed (message : String) :
    ((markFlowFailed message).apply secret).view = secret.view.marked "failed" := by
  have hkeys : ∀ key ∈ [flowAuthIdKey, flowStateParamKey, flowVerifierKey, flowStatusKey,
      flowExpiresAtKey], key ∉ [flowMessageKey] := by decide
  exact view_of_marks rfl rfl hkeys

theorem view_clearTokenSecret (keepClient : Bool) :
    ((clearTokenSecret keys keepClient).apply secret).view = .cleared := by
  have hget {key : String} (hkey : key ∈ flowKeys) :
      ((clearTokenSecret keys keepClient).apply secret).data.get key = some "" := by
    rw [SecretPatch.apply, clearTokenSecret, patchData_append]
    apply get_patchData_of_mem
    · exact List.mem_map_of_mem (f := fun key => (key, "")) hkey
    · rw [List.map_map]
      exact nodup_flowKeys
  rw [Secret.view, hget (by decide), hget (by decide), hget (by decide), hget (by decide),
    hget (by decide)]
  rfl

/-- A flow that is read has an id, and it is what the view shows. -/
theorem view_of_extractFlowState {flow : FlowState} (h : extractFlowState secret = some flow) :
    flow.authId ≠ "" ∧ secret.view.authId = some flow.authId ∧
      flow.stateParam = secret.view.stateParam.getD "" ∧
      flow.verifier = secret.view.verifier.getD "" ∧
      flow.status = (if secret.view.status.getD "" = "" then "pending" else secret.view.status.getD "") ∧
      flow.expiresAt = secret.view.expiresAt.getD "" := by
  unfold extractFlowState at h
  dsimp only at h
  split at h
  next htrue =>
    obtain rfl := Option.some.inj h
    cases hid : secret.data.get flowAuthIdKey with
    | none =>
      rw [hid] at htrue
      cases htrue
    | some id =>
      rw [hid] at htrue
      have hne : id ≠ "" := by simpa [CachedClientCreds.isTrue] using htrue
      refine ⟨?_, ?_, rfl, rfl, rfl, rfl⟩
      · simpa [getOrEmpty, hid] using hne
      · simp [Secret.view, getOrEmpty, hid]
  next => cases h

/-- A flow that is not pending has the status that the view shows. -/
theorem status_of_extractFlowState {flow : FlowState} (h : extractFlowState secret = some flow)
    (hpending : flow.status ≠ "pending") : secret.view.status = some flow.status := by
  obtain ⟨-, -, -, -, hstatus, -⟩ := view_of_extractFlowState h
  cases hview : secret.view.status with
  | none =>
    rw [hview] at hstatus
    exact absurd hstatus hpending
  | some status =>
    rw [hview, Option.getD_some] at hstatus
    split at hstatus
    next => exact absurd hstatus hpending
    next => rw [hstatus]

/-- A flow with an id is read. -/
theorem extractFlowState_of_view {id : String} (h : secret.view.authId = some id) (hne : id ≠ "") :
    ∃ flow, extractFlowState secret = some flow := by
  have hid : secret.data.get flowAuthIdKey = some id := h
  rw [extractFlowState]
  dsimp only
  rw [if_pos (by simpa [CachedClientCreds.isTrue, hid] using hne)]
  exact ⟨_, rfl⟩

end

end Ark.McpAuth
