import Ark.McpAuthFlows

/-!
# The token that a login leaves

Complete logins at one MCPServer, one after the other: a start, and its callback with the answer to its
code. The API server reads the client of a flow from the default keys of the Secret, though it wrote it
to the configured ones, and leaves the expiry of an earlier token where the answer has none. An entry of
a Secret that is no text reads like none on either side.
-/

namespace Ark.McpAuth

open MCP CivilTime

/-! ### Complete logins -/

/-- An MCPServer whose `tokenSecretRef` names five keys. -/
structure Server where
  name : String
  «namespace» : String
  tokenSecretRef : TokenSecretReference
  distinct : (SecretKeys.fromTypedRef tokenSecretRef).asList.Nodup

def Server.keys (server : Server) : SecretKeys := .fromTypedRef server.tokenSecretRef

/-- The random strings of a start, the answers that it and its callback get, and the times of the start,
of the callback and of the answer to its code. -/
structure Login where
  force : Bool := false
  redirectOnComplete : Bool := false
  cacheTtlSeconds : ℕ := 600
  authId : String
  stateRandom : String
  verifier : String
  registration : Option (Option (String × String)) := none
  token : TokenAnswer
  startedAt : ℕ
  receivedAt : ℕ
  answeredAt : ℕ
  trimmed : trimSpace token.accessToken = token.accessToken
  sinceEpoch : yearStart 1970 * nanosecondsPerSecond ≤ answeredAt

/-- What a complete login did: the client that the start registered or found, the Secret that its callback
found, the client that the callback presented, the expiry and the Secret that it wrote. -/
structure LoginOutcome where
  login : Login
  client : String × String
  found : Secret
  presented : String × String
  expiresAt : Option String
  secret : Secret

/-- Create the Secret, or patch it where it exists. -/
def SecretPatch.write (patch : SecretPatch) : Option Secret → Secret
  | none => patch.create
  | some secret => patch.apply secret

def startMcpAuth (server : Server) (login : Login) (secret : Option Secret) :
    Option ((String × String) × Secret) := do
  let cached := readCachedClientCreds server.keys secret
  let client ← chooseClient login.force cached login.registration
  let flow : FlowStart :=
    { authId := login.authId
      stateParam := login.stateRandom
      verifier := login.verifier
      expiresAt := flowDeadline login.startedAt login.cacheTtlSeconds
      serverName := server.name
      «namespace» := server.namespace
      clientID := client.1
      clientSecret := client.2
      redirectOnComplete := login.redirectOnComplete }
  some (client, (writeFlowState server.keys flow).write secret)

/-- The callback with a code that the authorization server takes. -/
def mcpAuthCallback (server : Server) (login : Login) (secret : Secret) :
    Option ((String × String) × Option String × Secret) := do
  let flow ← readFlowStateByStateParam login.stateRandom (some secret)
  if flow.isExpired login.receivedAt then none
  -- A flow that names something else has lost its server.
  else if (flow.serverName, flow.namespace) ≠ (server.name, server.namespace) then none
  else
    let expiresAt ← (computeExpiresAt login.token.expiresIn login.answeredAt).toOption
    let payload : SecretPatchPayload :=
      { accessToken := login.token.accessToken
        refreshToken := login.token.refreshToken
        expiresAt := expiresAt
        clientID := flow.clientID
        clientSecret := flow.clientSecret }
    let secret := (writeTokenSecret server.keys payload).write (some secret)
    some ((flow.clientID, flow.clientSecret), expiresAt, (markFlowAuthorized expiresAt).apply secret)

def completeLogin (server : Server) (login : Login) (secret : Option Secret) : Option LoginOutcome := do
  let (client, found) ← startMcpAuth server login secret
  let (presented, expiresAt, secret) ← mcpAuthCallback server login found
  some ⟨login, client, found, presented, expiresAt, secret⟩

def completeLogins (server : Server) : List Login → Option Secret → Option (List LoginOutcome)
  | [], _ => some []
  | login :: logins, secret => do
    let outcome ← completeLogin server login secret
    let outcomes ← completeLogins server logins (some outcome.secret)
    some (outcome :: outcomes)

/-! ### What a login should leave -/

/-- The expiry that a token answer gives, none where `expires_in` is not positive. -/
def Login.expiry (login : Login) : Option Int :=
  match login.token.expiresIn with
  | none => none
  | some seconds =>
    if seconds ≤ 0 then none
    else some (toSecond
      (login.answeredAt + (seconds - tokenExpirySafetyMarginSeconds) * nanosecondsPerSecond))

/-- The code was exchanged with the client of the start, and the controller reads the new token with its
own expiry. -/
structure Kept (server : Server) (outcome : LoginOutcome) : Prop where
  client : outcome.presented = outcome.client
  material : (resolveAuthorizationMaterial server.namespace server.tokenSecretRef
    (some outcome.secret.data)).1 =
      { accessToken := outcome.login.token.accessToken, expiresAt := outcome.login.expiry }

/-- The Secret that a callback finds holds the client of the configured keys under the default keys; the
keys that a mark writes spare the token and its expiry, or give them the same; and where the answer has no
expiry, no time is left under its key. -/
structure Agrees (server : Server) (outcome : LoginOutcome) : Prop where
  clientID : getOrEmpty outcome.found.data defaultClientIDKey =
    getOrEmpty outcome.found.data server.keys.clientID
  clientSecret : getOrEmpty outcome.found.data defaultClientSecretKey =
    getOrEmpty outcome.found.data server.keys.clientSecret
  token : ∀ value, (server.keys.accessToken, value) ∈ (markFlowAuthorized outcome.expiresAt).stringData →
    value = outcome.login.token.accessToken
  expiry : ∀ value, (server.keys.expiresAt, value) ∈ (markFlowAuthorized outcome.expiresAt).stringData →
    parseExpiry value = outcome.login.expiry
  rest : server.keys.expiresAt ∉ (markFlowAuthorized outcome.expiresAt).stringData.map Prod.fst →
    outcome.login.expiry = none →
      (outcome.found.data.get server.keys.expiresAt).bind parseExpiry = none

/-! ### What a login writes -/

/-- A complete login as its outcome shows it. -/
structure Completed (server : Server) (outcome : LoginOutcome) : Prop where
  clientID : outcome.found.data.get server.keys.clientID = some outcome.client.1
  clientSecret : outcome.found.data.get server.keys.clientSecret = some outcome.client.2
  presented : outcome.presented = (getOrEmpty outcome.found.data defaultClientIDKey,
    getOrEmpty outcome.found.data defaultClientSecretKey)
  expiresAt : computeExpiresAt outcome.login.token.expiresIn outcome.login.answeredAt =
    .ok outcome.expiresAt
  secret : ∃ payload : SecretPatchPayload, payload.accessToken = outcome.login.token.accessToken ∧
    payload.expiresAt = outcome.expiresAt ∧ outcome.secret = (markFlowAuthorized outcome.expiresAt).apply
      ((writeTokenSecret server.keys payload).apply outcome.found)

section

variable {server : Server} {login : Login} {outcome : LoginOutcome}

theorem write_eq (patch : SecretPatch) (secret : Option Secret) :
    patch.write secret = patch.apply (secret.getD {}) := by
  cases secret with
  | none => rfl
  | some secret => rfl

/-- A start writes its client to the configured keys. -/
theorem get_writeFlowState (server : Server) (flow : FlowStart) (secret : Option Secret) :
    ((writeFlowState server.keys flow).write secret).data.get server.keys.clientID =
        some flow.clientID ∧
      ((writeFlowState server.keys flow).write secret).data.get server.keys.clientSecret =
        some flow.clientSecret := by
  have hne : server.keys.clientID ≠ server.keys.clientSecret := by
    intro heq
    have hdistinct : server.keys.asList.Nodup := server.distinct
    simp [SecretKeys.asList, heq] at hdistinct
  rw [write_eq, SecretPatch.apply, writeFlowState, patchData_append]
  constructor
  · apply get_patchData_of_mem List.mem_cons_self
    simpa using hne
  · apply get_patchData_of_mem (List.mem_cons_of_mem _ List.mem_cons_self)
    simpa using hne

theorem client_of_extractFlowState {secret : Secret} {flow : FlowState}
    (h : extractFlowState secret = some flow) :
    (flow.clientID, flow.clientSecret) =
      (getOrEmpty secret.data defaultClientIDKey, getOrEmpty secret.data defaultClientSecretKey) := by
  unfold extractFlowState at h
  dsimp only at h
  split at h
  next =>
    obtain rfl := Option.some.inj h
    rfl
  next => cases h

theorem completed_of_completeLogin {secret : Option Secret}
    (h : completeLogin server login secret = some outcome) : Completed server outcome := by
  obtain ⟨⟨client, found⟩, hstart, h⟩ := Option.bind_eq_some_iff.mp h
  obtain ⟨⟨presented, expiresAt, written⟩, hcallback, h⟩ := Option.bind_eq_some_iff.mp h
  obtain rfl := Option.some.inj h
  obtain ⟨chosen, -, hstart⟩ := Option.bind_eq_some_iff.mp hstart
  obtain ⟨rfl, rfl⟩ := Prod.mk.inj (Option.some.inj hstart)
  obtain ⟨flow, hread, hcallback⟩ := Option.bind_eq_some_iff.mp hcallback
  split at hcallback
  next => cases hcallback
  split at hcallback
  next => cases hcallback
  obtain ⟨computed, hcompute, hcallback⟩ := Option.bind_eq_some_iff.mp hcallback
  simp only [Option.some.injEq, Prod.mk.injEq] at hcallback
  obtain ⟨rfl, rfl, rfl⟩ := hcallback
  obtain ⟨hclientID, hclientSecret⟩ := get_writeFlowState server _ secret
  refine ⟨hclientID, hclientSecret, ?_, ?_, _, rfl, rfl, rfl⟩
  · rw [readFlowStateByStateParam] at hread
    split at hread
    next => exact client_of_extractFlowState hread
    next => cases hread
  · cases hresult : computeExpiresAt login.token.expiresIn login.answeredAt with
    | error message =>
      rw [hresult] at hcompute
      cases hcompute
    | ok result =>
      rw [hresult] at hcompute
      obtain rfl := Option.some.inj hcompute
      rfl

/-! ### What the controller reads -/

/-- An expiry that is computed is a time that the controller reads. -/
theorem expiry_of_computeExpiresAt {expiresAt : Option String}
    (h : computeExpiresAt login.token.expiresIn login.answeredAt = .ok expiresAt) :
    (expiresAt = none ∧ login.expiry = none) ∨
      ∃ t, expiresAt = some (formatTime t) ∧ Writable t ∧ login.expiry = some (toSecond t) := by
  unfold computeExpiresAt at h
  rw [Login.expiry]
  cases hexpiresIn : login.token.expiresIn with
  | none =>
    rw [hexpiresIn] at h
    obtain rfl := Except.ok.inj h
    exact .inl ⟨rfl, rfl⟩
  | some seconds =>
    rw [hexpiresIn] at h
    dsimp only at h ⊢
    split at h
    next hle =>
      obtain rfl := Except.ok.inj h
      exact .inl ⟨rfl, if_pos hle⟩
    next hpositive =>
      split at h
      next hlt =>
        obtain rfl := Except.ok.inj h
        refine .inr ⟨_, rfl, ⟨?_, hlt⟩, if_neg hpositive⟩
        -- The margin is less than the time since the epoch.
        have hepoch := login.sinceEpoch
        have hmargin : 30 * nanosecondsPerSecond ≤ yearStart 1970 * nanosecondsPerSecond := by
          decide +kernel
        rw [tokenExpirySafetyMarginSeconds, nanosecondsPerSecond] at *
        omega
      next => cases h

/-- The keys that a mark writes keep what it wrote, all others what they held. -/
theorem get_markFlowAuthorized {secret : Secret} {expiresAt : Option String} {key : String} :
    (∀ value, (key, value) ∈ (markFlowAuthorized expiresAt).stringData →
        ((markFlowAuthorized expiresAt).apply secret).data.get key = some value) ∧
      (key ∉ (markFlowAuthorized expiresAt).stringData.map Prod.fst →
        ((markFlowAuthorized expiresAt).apply secret).data.get key = secret.data.get key) := by
  have hnodup : ((markFlowAuthorized expiresAt).stringData.map Prod.fst).Nodup := by
    simp [markFlowAuthorized, flowStatusKey, flowStateParamKey, flowMessageKey, flowTokenExpiresAtKey]
  exact ⟨fun value hmem => get_patchData_of_mem hmem hnodup, get_patchData_of_not_mem⟩

theorem trimSpace_of_mark {expiresAt : Option String} {key value : String}
    (hexpiresAt : ∀ text ∈ expiresAt, ∃ t, text = formatTime t)
    (h : (key, value) ∈ (markFlowAuthorized expiresAt).stringData) : trimSpace value = value := by
  simp only [markFlowAuthorized, List.mem_cons, List.not_mem_nil, or_false, Prod.mk.injEq] at h
  obtain ⟨-, rfl⟩ | ⟨-, rfl⟩ | ⟨-, rfl⟩ | ⟨-, rfl⟩ := h
  · decide
  · decide
  · decide
  · cases expiresAt with
    | none => decide
    | some text =>
      obtain ⟨t, rfl⟩ := hexpiresAt text rfl
      exact trimSpace_formatTime t

theorem nodup_writeTokenSecret (server : Server) (payload : SecretPatchPayload) :
    ((writeTokenSecret server.keys payload).stringData.map Prod.fst).Nodup := by
  have hdistinct : server.keys.asList.Nodup := server.distinct
  have hentry {key : String} {value : Option String} :
      ((entryIfTrue key value).map Prod.fst).Sublist [key] := by
    unfold entryIfTrue
    split
    next => exact List.Sublist.refl _
    next => exact List.nil_sublist _
  have hsublist : ((writeTokenSecret server.keys payload).stringData.map Prod.fst).Sublist
      ([server.keys.accessToken, server.keys.clientID, server.keys.clientSecret] ++
        [server.keys.refreshToken] ++ [server.keys.expiresAt]) := by
    rw [writeTokenSecret, List.map_append, List.map_append]
    exact ((List.Sublist.refl _).append hentry).append hentry
  have hperm : [server.keys.clientID, server.keys.clientSecret, server.keys.refreshToken,
      server.keys.expiresAt].Perm [server.keys.refreshToken, server.keys.expiresAt,
        server.keys.clientID, server.keys.clientSecret] :=
    @List.perm_append_comm _ [server.keys.clientID, server.keys.clientSecret] _
  exact hsublist.nodup ((hperm.cons server.keys.accessToken).nodup_iff.mpr hdistinct)

/-- What the token's patch leaves under the keys that the controller reads. -/
theorem get_writeTokenSecret (server : Server) (payload : SecretPatchPayload) (secret : Secret)
    (hexpiresAt : ∀ text ∈ payload.expiresAt, text ≠ "") :
    ((writeTokenSecret server.keys payload).apply secret).data.get server.keys.accessToken =
        some payload.accessToken ∧
      ((writeTokenSecret server.keys payload).apply secret).data.get server.keys.expiresAt =
        (payload.expiresAt.orElse fun _ => secret.data.get server.keys.expiresAt) := by
  have hnodup := nodup_writeTokenSecret server payload
  constructor
  · refine get_patchData_of_mem ?_ hnodup
    simp [writeTokenSecret]
  · cases hpayload : payload.expiresAt with
    | none =>
      apply get_patchData_of_not_mem
      intro hmem
      obtain ⟨entry, hentry, hkey⟩ := List.mem_map.mp hmem
      have hdistinct : server.keys.asList.Nodup := server.distinct
      simp only [SecretKeys.asList, List.nodup_cons, List.mem_cons, List.not_mem_nil, or_false,
        not_or] at hdistinct
      obtain ⟨⟨-, haccess, -⟩, ⟨hrefresh, -⟩, ⟨hid, hsecret⟩, -⟩ := hdistinct
      simp only [writeTokenSecret, hpayload, List.mem_append, List.mem_cons, List.not_mem_nil,
        or_false] at hentry
      obtain ((rfl | rfl | rfl) | hentry) | hentry := hentry
      · exact haccess hkey
      · exact hid hkey.symm
      · exact hsecret hkey.symm
      · exact hrefresh ((mem_entryIfTrue hentry).symm.trans hkey)
      · cases hentry
    | some text =>
      refine get_patchData_of_mem ?_ hnodup
      have htrue : CachedClientCreds.isTrue payload.expiresAt = true := by
        rw [hpayload]
        exact decide_eq_true (hexpiresAt text hpayload)
      have hentry : (server.keys.expiresAt, text) ∈ entryIfTrue server.keys.expiresAt payload.expiresAt := by
        rw [entryIfTrue, if_pos htrue, hpayload]
        exact List.mem_cons_self
      exact List.mem_append_right _ hentry

theorem ne_empty_of_computed {expiresAt : Option String}
    (h : ∀ text ∈ expiresAt, ∃ t, text = formatTime t) : ∀ text ∈ expiresAt, text ≠ "" := by
  intro text htext heq
  obtain ⟨t, rfl⟩ := h text htext
  exact formatRFC3339_ne_nil _ (String.ofList_eq_empty_iff.mp heq)

namespace Completed

/-- An expiry that is written is the text of a time. -/
theorem text (h : Completed server outcome) :
    ∀ text ∈ outcome.expiresAt, ∃ t, text = formatTime t := by
  intro text htext
  obtain ⟨hnone, -⟩ | ⟨t, hsome, -⟩ := expiry_of_computeExpiresAt h.expiresAt
  · rw [hnone] at htext
    cases htext
  · exact ⟨t, Option.some.inj (htext.symm.trans hsome)⟩

theorem client_iff (h : Completed server outcome) : outcome.presented = outcome.client ↔
    getOrEmpty outcome.found.data defaultClientIDKey =
        getOrEmpty outcome.found.data server.keys.clientID ∧
      getOrEmpty outcome.found.data defaultClientSecretKey =
        getOrEmpty outcome.found.data server.keys.clientSecret := by
  have hclientID : getOrEmpty outcome.found.data server.keys.clientID = outcome.client.1 := by
    rw [getOrEmpty, h.clientID, Option.getD_some]
  have hclientSecret :
      getOrEmpty outcome.found.data server.keys.clientSecret = outcome.client.2 := by
    rw [getOrEmpty, h.clientSecret, Option.getD_some]
  rw [h.presented, hclientID, hclientSecret]
  exact Prod.ext_iff

theorem token_iff (h : Completed server outcome) :
    ((outcome.secret.data.get server.keys.accessToken).map trimSpace).getD "" =
        outcome.login.token.accessToken ↔
      ∀ value, (server.keys.accessToken, value) ∈ (markFlowAuthorized outcome.expiresAt).stringData →
        value = outcome.login.token.accessToken := by
  obtain ⟨payload, htoken, hexpiresAt, hsecret⟩ := h.secret
  obtain ⟨hmarked, hspared⟩ := @get_markFlowAuthorized
    ((writeTokenSecret server.keys payload).apply outcome.found) outcome.expiresAt
    server.keys.accessToken
  rw [hsecret]
  by_cases hmem : server.keys.accessToken ∈
      (markFlowAuthorized outcome.expiresAt).stringData.map Prod.fst
  · obtain ⟨⟨key, value⟩, hentry, rfl⟩ := List.mem_map.mp hmem
    rw [hmarked value hentry, Option.map_some, Option.getD_some, trimSpace_of_mark h.text hentry]
    constructor
    · intro heq value' hentry'
      have hsome := (hmarked value' hentry').symm.trans (hmarked value hentry)
      exact (Option.some.inj hsome).trans heq
    · exact fun hall => hall value hentry
  · have hget := (get_writeTokenSecret server payload outcome.found
      (hexpiresAt ▸ ne_empty_of_computed h.text)).1
    rw [hspared hmem, hget, htoken, Option.map_some, Option.getD_some, outcome.login.trimmed]
    exact ⟨fun _ value hentry => absurd (List.mem_map_of_mem (f := Prod.fst) hentry) hmem,
      fun _ => rfl⟩

theorem expiry_iff (h : Completed server outcome) :
    (outcome.secret.data.get server.keys.expiresAt).bind parseExpiry = outcome.login.expiry ↔
      (∀ value, (server.keys.expiresAt, value) ∈ (markFlowAuthorized outcome.expiresAt).stringData →
        parseExpiry value = outcome.login.expiry) ∧
      (server.keys.expiresAt ∉ (markFlowAuthorized outcome.expiresAt).stringData.map Prod.fst →
        outcome.login.expiry = none →
          (outcome.found.data.get server.keys.expiresAt).bind parseExpiry = none) := by
  obtain ⟨payload, htoken, hexpiresAt, hsecret⟩ := h.secret
  obtain ⟨hmarked, hspared⟩ := @get_markFlowAuthorized
    ((writeTokenSecret server.keys payload).apply outcome.found) outcome.expiresAt
    server.keys.expiresAt
  rw [hsecret]
  by_cases hmem : server.keys.expiresAt ∈
      (markFlowAuthorized outcome.expiresAt).stringData.map Prod.fst
  · obtain ⟨⟨key, value⟩, hentry, rfl⟩ := List.mem_map.mp hmem
    rw [hmarked value hentry, Option.bind_some]
    constructor
    · intro heq
      refine ⟨fun value' hentry' => ?_, fun hne => absurd hmem hne⟩
      have hsome := (hmarked value' hentry').symm.trans (hmarked value hentry)
      rw [Option.some.inj hsome, heq]
    · exact fun hall => hall.1 value hentry
  · have hget := (get_writeTokenSecret server payload outcome.found
      (hexpiresAt ▸ ne_empty_of_computed h.text)).2
    have hvacuous (value : String)
        (hentry : (server.keys.expiresAt, value) ∈ (markFlowAuthorized outcome.expiresAt).stringData) :
        parseExpiry value = outcome.login.expiry :=
      absurd (List.mem_map_of_mem (f := Prod.fst) hentry) hmem
    rw [hspared hmem, hget, hexpiresAt]
    obtain ⟨hnone, hexpiry⟩ | ⟨t, hsome, hwritable, hexpiry⟩ := expiry_of_computeExpiresAt h.expiresAt
    · have hkept : (outcome.expiresAt.orElse fun _ => outcome.found.data.get server.keys.expiresAt) =
          outcome.found.data.get server.keys.expiresAt := by
        rw [hnone]
        rfl
      rw [hkept, hexpiry]
      exact ⟨fun heq => ⟨fun value hentry => (hvacuous value hentry).trans hexpiry, fun _ _ => heq⟩,
        fun hall => hall.2 hmem rfl⟩
    · have hwritten : (outcome.expiresAt.orElse fun _ => outcome.found.data.get server.keys.expiresAt) =
          some (formatTime t) := by
        rw [hsome]
        rfl
      rw [hwritten, hexpiry]
      refine ⟨fun _ => ⟨fun value hentry => (hvacuous value hentry).trans hexpiry, nofun⟩, fun _ => ?_⟩
      exact parseExpiry_formatTime hwritable

theorem kept_iff (h : Completed server outcome) : Kept server outcome ↔ Agrees server outcome := by
  have hmaterial : (resolveAuthorizationMaterial server.namespace server.tokenSecretRef
      (some outcome.secret.data)).1 =
        { accessToken := outcome.login.token.accessToken, expiresAt := outcome.login.expiry } ↔
      ((outcome.secret.data.get server.keys.accessToken).map trimSpace).getD "" =
          outcome.login.token.accessToken ∧
        (outcome.secret.data.get server.keys.expiresAt).bind parseExpiry = outcome.login.expiry := by
    rw [resolveAuthorizationMaterial, AuthorizationMaterial.mk.injEq, and_iff_left rfl]
    rfl
  constructor
  · intro hkept
    obtain ⟨htoken, hexpiry⟩ := hmaterial.mp hkept.material
    obtain ⟨hid, hsecret⟩ := h.client_iff.mp hkept.client
    obtain ⟨hmarked, hrest⟩ := h.expiry_iff.mp hexpiry
    exact ⟨hid, hsecret, h.token_iff.mp htoken, hmarked, hrest⟩
  · intro hagrees
    refine ⟨h.client_iff.mpr ⟨hagrees.clientID, hagrees.clientSecret⟩, hmaterial.mpr ⟨?_, ?_⟩⟩
    · exact h.token_iff.mpr hagrees.token
    · exact h.expiry_iff.mpr ⟨hagrees.expiry, hagrees.rest⟩

end Completed

theorem completed_of_completeLogins {logins : List Login} {secret : Option Secret}
    {outcomes : List LoginOutcome} (h : completeLogins server logins secret = some outcomes) :
    ∀ outcome ∈ outcomes, Completed server outcome := by
  induction logins generalizing secret outcomes with
  | nil =>
    obtain rfl := Option.some.inj h
    exact fun outcome hmem => absurd hmem List.not_mem_nil
  | cons login logins ih =>
    obtain ⟨first, hfirst, h⟩ := Option.bind_eq_some_iff.mp h
    obtain ⟨rest, hrest, h⟩ := Option.bind_eq_some_iff.mp h
    obtain rfl := Option.some.inj h
    intro outcome hmem
    obtain rfl | hmem := List.mem_cons.mp hmem
    · exact completed_of_completeLogin hfirst
    · exact ih hrest outcome hmem

/-- In every sequence of complete logins, a login leaves its own token and no other's expiry exactly where
its callback finds a Secret that agrees with the configured keys. -/
theorem logins_kept {logins : List Login} {secret : Option Secret} {outcomes : List LoginOutcome}
    (h : completeLogins server logins secret = some outcomes) :
    ∀ outcome ∈ outcomes, Kept server outcome ↔ Agrees server outcome :=
  fun outcome hmem => (completed_of_completeLogins h outcome hmem).kept_iff

end

/-! ### The expiry of an earlier token -/

def figma : Server where
  name := "figma"
  «namespace» := "default"
  tokenSecretRef := { name := "figma-token" }
  distinct := by decide

/-- A login that goes through in an instant. -/
def figmaLogin (authId : String) (startedAt : ℕ) (expiresIn : Option Int)
    (sinceEpoch : yearStart 1970 * nanosecondsPerSecond ≤ startedAt) : Login where
  authId := authId
  stateRandom := authId
  verifier := authId
  registration := some (some ("client", "secret"))
  token := { accessToken := "token", expiresIn := expiresIn }
  startedAt := startedAt
  receivedAt := startedAt
  answeredAt := startedAt
  trimmed := (by decide : trimSpace "token" = "token")
  sinceEpoch := sinceEpoch

def figmaLogins : List Login :=
  [figmaLogin "a" 63902908800000000000 (some 3600) (by decide +kernel),
    figmaLogin "b" 63902916000000000000 none (by decide +kernel)]

/-- The second token has no expiry, and the controller reads the first one's. -/
theorem earlier_expiry_kept : ¬ ∀ (server : Server) (logins : List Login) (secret : Option Secret)
    (outcomes : List LoginOutcome), completeLogins server logins secret = some outcomes →
      ∀ outcome ∈ outcomes, Kept server outcome := by
  intro h
  have hstale : ((completeLogins figma figmaLogins none).any fun outcomes => outcomes.any fun outcome =>
      outcome.login.expiry.isNone && (resolveAuthorizationMaterial figma.namespace figma.tokenSecretRef
        (some outcome.secret.data)).1.expiresAt.isSome) = true := by decide +kernel
  obtain ⟨outcomes, houtcomes, hstale⟩ := (Option.any_eq_true _ _).mp hstale
  obtain ⟨outcome, hmem, hstale⟩ := List.any_eq_true.mp hstale
  obtain ⟨hnone, hsome⟩ := Bool.and_eq_true_iff.mp hstale
  rw [(h figma figmaLogins none outcomes houtcomes outcome hmem).material] at hsome
  simp [Option.isNone_iff_eq_none.mp hnone] at hsome

/-- Both logins end. -/
theorem logins_kept_figma : ∃ outcomes, completeLogins figma figmaLogins none = some outcomes ∧
    outcomes.length = 2 ∧ ∀ outcome ∈ outcomes, Kept figma outcome ↔ Agrees figma outcome := by
  have hrun : ((completeLogins figma figmaLogins none).any fun outcomes =>
      outcomes.length == 2) = true := by decide +kernel
  obtain ⟨outcomes, houtcomes, hlength⟩ := (Option.any_eq_true _ _).mp hrun
  exact ⟨outcomes, houtcomes, beq_iff_eq.mp hlength, logins_kept houtcomes⟩

end Ark.McpAuth
