import Ark.ClientCredentials
import Ark.Machine

/-!
# Minting does not feed itself

Runs of the reconciles of one machine-managed MCPServer. A token that is written to the Secret wakes
the controller, which reads the Secret again. A token whose stored expiry is nearer than the renewal
skew is stale on that reading and minted again, so that tokens with a short life are minted without
end. Where the expiry is far enough away, or there is none, the reconcile that a mint wakes asks for
nothing.
-/

namespace Ark.MCP

/-- A token that the controller wrote, and when. -/
structure Mint where
  response : TokenResponse
  mintedAt : ℕ

def Mint.expiresAt (m : Mint) : Option Int := m.response.expiresAt m.mintedAt

/-- `pending` says that a write of the controller's own still has to wake it. -/
structure MintingState where
  server : AuthorizedServer
  secret : Option SecretData
  mint : Option Mint := none
  pending : Bool := false
  requests : List TokenRequestParams := []

/-- A reconcile, woken by the controller's own write or by anything else. -/
structure Wake where
  ownWrite : Bool
  env : Surroundings

def SecretData.equal (data data' : SecretData) : Bool :=
  data.length = data'.length && data.all fun (key, value) => data'.get key == some value

/-- `dataChangedPredicate` on the event of a written Secret; creates always pass. -/
def dataChanged : Option SecretData → Option SecretData → Bool
  | some old, some updated => !old.equal updated
  | _, _ => true

namespace MintingState

def after (s : MintingState) (a : Wake) (r : Reconciled) : MintingState where
  server := s.server.updated a.env r
  secret := r.secret
  mint := match r.minted with
    | some tr => some ⟨tr, a.env.mintedAt⟩
    | none => s.mint
  pending := (!a.ownWrite && s.pending) || (r.minted.isSome && dataChanged s.secret r.secret)
  requests := s.requests ++ r.request.toList

/-- A machine-managed server after discovery, whose Secret the controller has not written yet. -/
structure Discovered (s : MintingState) : Prop where
  managed : s.server.isMachineManaged = true
  discovered : s.server.status.authorization.isSome = true
  keys : ∀ auth ∈ s.server.authorization,
    auth.tokenSecretRef.resolvedAccessTokenKey ≠ auth.tokenSecretRef.resolvedExpiresAtKey
  mint : s.mint = none
  pending : s.pending = false

end MintingState

def mintingMachine : Machine MintingState Wake where
  init := MintingState.Discovered
  step s a :=
    if a.ownWrite && !s.pending then none
    else some (s.after a (reconcile a.env s.server s.secret))

/-- Every token that is answered is not empty and has no white space around it. -/
def Wake.Answered (a : Wake) : Prop :=
  ∀ tr, a.env.tokenResponse = .ok tr → tr.accessToken ≠ "" ∧ trimSpace tr.accessToken = tr.accessToken

/-- The expiry of every token lies before the year 10000, and a reconcile that a mint woke finds its
stored expiry at least the renewal skew away, or the token expired. -/
structure Damped (s : MintingState) (a : Wake) : Prop where
  answered : a.Answered
  writable : ∀ tr, a.env.tokenResponse = .ok tr → ∀ t ∈ tr.expiresAt a.env.mintedAt, Writable t
  settled : a.ownWrite = true → ∀ m ∈ s.mint, ∀ t ∈ m.expiresAt,
    t ≤ a.env.now ∨ a.env.now + tokenRenewalSkew ≤ toSecond t

/-- What a reconcile of a run does and leaves. -/
structure MintsOnce (s : MintingState) (a : Wake) (t : MintingState) : Prop where
  quiet : a.ownWrite = true → ∃ m, s.mint = some m ∧
    ((∀ e ∈ m.expiresAt, a.env.now < e) → t.requests = s.requests)
  kept : ∀ auth ∈ s.server.authorization, ∀ key, key ≠ auth.tokenSecretRef.resolvedAccessTokenKey →
    key ≠ auth.tokenSecretRef.resolvedExpiresAtKey →
    (t.secret.getD []).get key = (s.secret.getD []).get key
  read : ∀ auth ∈ t.server.authorization, ∀ m ∈ t.mint,
    (resolveAuthorizationMaterial t.server.namespace auth.tokenSecretRef t.secret).1 =
      { accessToken := m.response.accessToken, expiresAt := m.expiresAt.map toSecond }

/-! ### One reconcile -/

section

variable {env : Surroundings} {auth : AuthorizationSpec} {secret secret' : Option SecretData}
  {minted : Option TokenResponse}

theorem Writes.kept (h : Writes env auth secret minted secret') {key : String}
    (haccess : key ≠ auth.tokenSecretRef.resolvedAccessTokenKey)
    (hexpires : key ≠ auth.tokenSecretRef.resolvedExpiresAtKey) :
    (secret'.getD []).get key = (secret.getD []).get key := by
  obtain ⟨-, rfl⟩ | ⟨tr, -, -, rfl⟩ := h
  · rfl
  · exact get_applyTokenData_of_ne haccess hexpires

/-- A token that is not empty and not close to its expiry is left alone. -/
theorem tokenNeedsRenewal_eq_false {material : AuthorizationMaterial} {now : Int}
    (htoken : material.accessToken ≠ "")
    (hexpiry : ∀ t ∈ material.expiresAt, now + tokenRenewalSkew ≤ t) :
    material.tokenNeedsRenewal now = false := by
  rw [AuthorizationMaterial.tokenNeedsRenewal, if_neg htoken]
  cases h : material.expiresAt with
  | none => rfl
  | some t =>
    have ht := hexpiry t h
    simp only [decide_eq_false_iff_not]
    omega

end

/-! ### Runs -/

/-- What the Secret holds after a mint. -/
structure Holds (s : MintingState) (auth : AuthorizationSpec) (m : Mint) : Prop where
  token : m.response.accessToken ≠ ""
  resolved : (resolveAuthorizationMaterial s.server.namespace auth.tokenSecretRef s.secret).1 =
    { accessToken := m.response.accessToken, expiresAt := m.expiresAt.map toSecond }

/-- The invariant of the runs. -/
structure Consistent (s : MintingState) : Prop where
  keys : ∀ auth ∈ s.server.authorization,
    auth.tokenSecretRef.resolvedAccessTokenKey ≠ auth.tokenSecretRef.resolvedExpiresAtKey
  holds : ∀ auth ∈ s.server.authorization, ∀ m ∈ s.mint, Holds s auth m
  pending : s.pending = true → s.mint.isSome = true
  managed : s.server.isMachineManaged = true

section

variable {s t : MintingState} {a : Wake}

theorem step_eq (h : mintingMachine.step s a = some t) :
    (a.ownWrite = true → s.pending = true) ∧ t = s.after a (reconcile a.env s.server s.secret) := by
  simp only [mintingMachine] at h
  split at h
  next => cases h
  next hpending =>
    refine ⟨fun hown => ?_, (Option.some.inj h).symm⟩
    simpa [hown] using hpending

theorem consistent_init (h : s.Discovered) : Consistent s where
  keys := h.keys
  holds := by simp [h.mint]
  pending := by simp [h.pending]
  managed := h.managed

theorem consistent_step (hs : Consistent s) (ha : Damped s a)
    (h : mintingMachine.step s a = some t) : Consistent t := by
  obtain ⟨-, rfl⟩ := step_eq h
  obtain ⟨hauthorization, hnamespace, -⟩ :=
    updated_spec a.env s.server (reconcile a.env s.server s.secret)
  refine ⟨?_, ?_, ?_, ?_⟩
  · simpa only [MintingState.after, hauthorization] using hs.keys
  · intro auth hauth m hm
    simp only [MintingState.after, hauthorization] at hauth hm
    have hheld (hminted : (reconcile a.env s.server s.secret).minted = none)
        (hsecret : (reconcile a.env s.server s.secret).secret = s.secret) :
        Holds (s.after a (reconcile a.env s.server s.secret)) auth m := by
      rw [hminted] at hm
      obtain ⟨htoken, hresolved⟩ := hs.holds auth hauth m hm
      refine ⟨htoken, ?_⟩
      rw [MintingState.after, hnamespace, hsecret, hresolved]
    obtain ⟨-, hminted, hsecret⟩ | ⟨auth', cc, params, hasks⟩ := reconcile_cases a.env s.server s.secret
    · exact hheld hminted hsecret
    · obtain ⟨hminted, hsecret⟩ | ⟨tr, htr, hminted, hsecret⟩ := hasks.writes
      · exact hheld hminted hsecret
      · rw [hminted] at hm
        obtain rfl := Option.some.inj hm
        obtain rfl : auth = auth' := Option.some.inj (hauth.symm.trans hasks.spec)
        refine ⟨(ha.answered tr htr).1, ?_⟩
        rw [MintingState.after, hnamespace, hsecret]
        exact resolve_applyTokenData (hs.keys auth hauth) (ha.answered tr htr).2 (ha.writable tr htr)
  · intro hpending
    simp only [MintingState.after] at hpending ⊢
    cases hminted : (reconcile a.env s.server s.secret).minted with
    | some tr => rfl
    | none =>
      rw [hminted] at hpending
      simp only [Option.isSome_none, Bool.false_and, Bool.or_false, Bool.and_eq_true] at hpending
      exact hs.pending hpending.2
  · simpa only [MintingState.after, AuthorizedServer.isMachineManaged,
      AuthorizedServer.clientCredentials, hauthorization] using hs.managed

theorem consistent_of_reachable (h : mintingMachine.Reachable Damped s) : Consistent s :=
  h.invariant (fun _ => consistent_init) fun _ _ _ hs ha hstep => consistent_step hs ha hstep

/-- Where the stored expiry of a minted token is far enough from the reconcile that the mint wakes,
that reconcile asks for nothing, every mint keeps the other keys, and its token is read back. -/
theorem minting_damped (hs : mintingMachine.Reachable Damped s) (ha : Damped s a)
    (h : mintingMachine.step s a = some t) : MintsOnce s a t := by
  have hconsistent := consistent_of_reachable hs
  have hconsistent' := consistent_step hconsistent ha h
  obtain ⟨hpending, rfl⟩ := step_eq h
  refine ⟨?_, ?_, fun auth hauth m hm => (hconsistent'.holds auth hauth m hm).resolved⟩
  · intro hown
    obtain ⟨m, hm⟩ := Option.isSome_iff_exists.mp (hconsistent.pending (hpending hown))
    refine ⟨m, hm, fun hlive => ?_⟩
    obtain ⟨hrequest, -⟩ | ⟨auth, cc, params, hasks⟩ := reconcile_cases a.env s.server s.secret
    · simp [MintingState.after, hrequest]
    · -- A request needs a stale token, and the one just minted is not.
      obtain ⟨htoken, hresolved⟩ := hconsistent.holds auth hasks.spec m hm
      have hfresh := @tokenNeedsRenewal_eq_false
        { accessToken := m.response.accessToken, expiresAt := m.expiresAt.map toSecond } a.env.now
        htoken (by
          intro t ht
          obtain ⟨e, he, rfl⟩ := Option.map_eq_some_iff.mp ht
          have hnow := hlive e he
          obtain hexpired | hfar := ha.settled hown m hm e he
          · omega
          · exact hfar)
      rw [← hresolved, hasks.stale] at hfresh
      cases hfresh
  · intro auth hauth key haccess hexpires
    obtain ⟨-, -, hsecret⟩ | ⟨auth', cc, params, hasks⟩ := reconcile_cases a.env s.server s.secret
    · rw [MintingState.after, hsecret]
    · obtain rfl : auth = auth' := Option.some.inj (hauth.symm.trans hasks.spec)
      exact hasks.writes.kept haccess hexpires

end

/-! ### A token with a short life -/

section

variable (env : Surroundings) (server : AuthorizedServer)

theorem ensureToken_request {auth : AuthorizationSpec} {cc : ClientCredentialsSpec}
    {material : AuthorizationMaterial} {params : TokenRequestParams} (secret : Option SecretData)
    (hcc : auth.clientCredentials = some cc) (hstale : material.tokenNeedsRenewal env.now = true)
    (hprepared : prepareRequest env server cc = .ok (some params)) :
    (ensureToken env server auth material secret).request = some params := by
  unfold ensureToken
  rw [hcc]
  dsimp only
  rw [hstale, if_neg (by simp), hprepared]
  dsimp only
  split
  next => rfl
  next => split <;> rfl

/-- A stale token is asked for again. -/
theorem reconcile_request {secret : Option SecretData} {address : String} {auth : AuthorizationSpec}
    {cc : ClientCredentialsSpec} {params : TokenRequestParams}
    (hconditions : server.status.conditions ≠ []) (haddress : env.resolvedAddress = .ok address)
    (hauth : server.authorization = some auth) (hcc : auth.clientCredentials = some cc)
    (hread : env.secretError = none)
    (hstale : (resolveAuthorizationMaterial server.namespace auth.tokenSecretRef
      secret).1.tokenNeedsRenewal env.now = true)
    (hprepared : prepareRequest env
      { server with status := { server.status with resolvedAddress := address } } cc =
        .ok (some params)) :
    (reconcile env server secret).request = some params := by
  have hrequest := ensureToken_request env _ secret hcc hstale hprepared
  unfold reconcile processServer
  rw [if_neg hconditions, haddress]
  dsimp only
  rw [hauth]
  dsimp only
  rw [hread, if_neg (by simp)]
  split
  next => exact hrequest
  next => exact hrequest

end

/-- The documents of an authorization server that mints tokens. -/
def calendarAuthorization : AuthorizationStatus where
  state := .authorized
  resource := "https://mcp.example/calendar"
  tokenEndpoint := "https://auth.example/token"
  grantTypesSupported := ["client_credentials"]
  tokenEndpointAuthMethodsSupported := ["private_key_jwt"]
  tokenEndpointAuthSigningAlgValuesSupported := ["ES256"]

def calendarCredentials : ClientCredentialsSpec where
  clientID := "ark"
  privateKeyJWT := some { secretName := "signing-key" }

def calendarSpec : AuthorizationSpec where
  tokenSecretRef := { name := "calendar-token" }
  clientCredentials := some calendarCredentials

def readyConditions : List A2A.Condition :=
  [⟨discoveringType, .conditionFalse, 1, 0, "DiscoveryComplete", "Tool discovery completed"⟩,
    ⟨availableType, .conditionTrue, 1, 0, "Authorized",
      "Authorized via tokenSecretRef calendar-token; discovered 3 tools"⟩]

def calendar : AuthorizedServer where
  name := "calendar"
  «namespace» := "default"
  generation := 1
  authorization := some calendarSpec
  status :=
    { resolvedAddress := "https://mcp.example/calendar"
      toolCount := 3
      authorization := some calendarAuthorization
      conditions := readyConditions }

/-- A reconcile at some second of 2025, whose token request is answered with a life of `expiresIn`
seconds. -/
def calendarWake (ownWrite : Bool) (second : ℕ) (expiresIn : Int) : Wake where
  ownWrite := ownWrite
  env :=
    { now := (63902908800 + second) * 1000000000
      resolvedAddress := .ok "https://mcp.example/calendar"
      signingSecret := .ok (some [("private.pem", "pem")])
      buildAssertion := fun _ => .ok "assertion"
      tokenResponse := .ok ⟨"token", expiresIn⟩
      connection := .connected
      tools := .ok 3 }

def calendarState : MintingState where
  server := calendar
  secret := none

def calendarParams : TokenRequestParams where
  tokenEndpoint := "https://auth.example/token"
  clientID := "ark"
  assertion := "assertion"
  resource := "https://mcp.example/calendar"
  scopes := []

/-- The state after a first mint. -/
def calendarMinted (expiresIn : Int) : MintingState :=
  calendarState.after (calendarWake false 0 expiresIn)
    (reconcile (calendarWake false 0 expiresIn).env calendar none)

theorem calendarState_discovered : calendarState.Discovered := by
  refine ⟨rfl, rfl, ?_, rfl, rfl⟩
  intro auth hauth
  obtain rfl := Option.some.inj hauth
  decide

theorem calendarMinted_eq (expiresIn : Int) : calendarMinted expiresIn =
    { server := calendar
      secret := some (applyTokenData "access_token" "expires_at" "token"
        (TokenResponse.expiresAt ⟨"token", expiresIn⟩ 63902908800000000000) [])
      mint := some ⟨⟨"token", expiresIn⟩, 63902908800000000000⟩
      pending := true
      requests := [calendarParams] } :=
  rfl

theorem calendarWake_answered (ownWrite : Bool) (second : ℕ) (expiresIn : Int) :
    (calendarWake ownWrite second expiresIn).Answered := by
  intro tr htr
  obtain rfl := Except.ok.inj htr
  have htoken : "token" ≠ "" ∧ trimSpace "token" = "token" := by decide
  exact htoken

theorem calendarMinted_reachable {ok : MintingState → Wake → Prop} {expiresIn : Int}
    (h : ok calendarState (calendarWake false 0 expiresIn)) :
    mintingMachine.Reachable ok (calendarMinted expiresIn) :=
  (Machine.Reachable.init calendarState_discovered).step h rfl

/-- The expiry of a token that is answered in the first days of 2025. -/
theorem calendar_expiry {second : ℕ} {expiresIn : Int} (hpos : 0 < expiresIn)
    (hle : expiresIn ≤ maxExpiresIn) :
    TokenResponse.expiresAt ⟨"token", expiresIn⟩ ((63902908800 + second) * 1000000000) =
      some ((63902908800 + second + expiresIn) * nanosecondsPerSecond) := by
  have hmin : min expiresIn maxExpiresIn = expiresIn := by omega
  rw [TokenResponse.expiresAt]
  dsimp only
  rw [if_pos hpos, hmin, nanosecondsPerSecond]
  exact congrArg some (by omega)

theorem calendar_writable {second : ℕ} {expiresIn : Int} (hsecond : second < 86400)
    (hpos : 0 < expiresIn) (hle : expiresIn ≤ maxExpiresIn) :
    Writable ((63902908800 + second + expiresIn) * nanosecondsPerSecond) := by
  have hyears := CivilTime.le_total_yearLength 10000
  rw [maxExpiresIn] at hle
  rw [Writable, CivilTime.yearStart, nanosecondsPerSecond]
  omega

/-- A token of thirty seconds is stale for the reconcile that its own mint wakes. -/
theorem short_lived_minted_again : ¬ ∀ (s t : MintingState) (a : Wake),
    mintingMachine.Reachable (fun _ a => a.Answered) s → a.Answered →
      mintingMachine.step s a = some t → MintsOnce s a t := by
  intro hclaim
  have hexpiry := @calendar_expiry 0 30 (by decide) (by decide)
  have hwritable := @calendar_writable 0 30 (by decide) (by decide) (by decide)
  have hstep : mintingMachine.step (calendarMinted 30) (calendarWake true 1 30) =
      some ((calendarMinted 30).after (calendarWake true 1 30)
        (reconcile (calendarWake true 1 30).env calendar (calendarMinted 30).secret)) := rfl
  obtain ⟨m, hm, hquiet⟩ := (hclaim _ _ _ (calendarMinted_reachable (calendarWake_answered _ _ _))
    (calendarWake_answered _ _ _) hstep).quiet rfl
  rw [calendarMinted_eq] at hm
  obtain rfl := Option.some.inj hm
  have hrequests := hquiet (by
    intro e he
    rw [Mint.expiresAt, hexpiry] at he
    obtain rfl := Option.some.inj he
    decide)
  have hresolved : (resolveAuthorizationMaterial "default" calendarSpec.tokenSecretRef
      (calendarMinted 30).secret).1 =
        { accessToken := "token", expiresAt := some (toSecond (63902908830 * nanosecondsPerSecond)) } := by
    rw [calendarMinted_eq]
    have hread := @resolve_applyTokenData "token" (TokenResponse.expiresAt ⟨"token", 30⟩ 63902908800000000000)
      [] "default" calendarSpec.tokenSecretRef (by decide) (by decide) (by
        intro t ht
        rw [hexpiry] at ht
        obtain rfl := Option.some.inj ht
        exact hwritable)
    rw [hexpiry] at hread ⊢
    exact hread
  have hrequest : (reconcile (calendarWake true 1 30).env calendar (calendarMinted 30).secret).request =
      some calendarParams := by
    refine reconcile_request _ _ (by decide) rfl rfl rfl rfl ?_ rfl
    rw [show calendar.namespace = "default" from rfl, hresolved]
    decide
  rw [MintingState.after, hrequest] at hrequests
  simp at hrequests

theorem calendarWake_damped {s : MintingState} {ownWrite : Bool} {second : ℕ} (hsecond : second < 86400)
    (hsettled : ownWrite = true → ∀ m ∈ s.mint, ∀ t ∈ m.expiresAt,
      t ≤ (63902908800 + second) * nanosecondsPerSecond ∨
        (63902908800 + second) * nanosecondsPerSecond + tokenRenewalSkew ≤ toSecond t) :
    Damped s (calendarWake ownWrite second 3600) where
  answered := calendarWake_answered _ _ _
  writable := by
    intro tr htr t ht
    obtain rfl := Except.ok.inj htr
    have hexpiry := @calendar_expiry second 3600 (by decide) (by decide)
    obtain rfl := Option.some.inj (hexpiry.symm.trans ht)
    exact calendar_writable hsecond (by decide) (by decide)
  settled := by
    intro hown m hm t ht
    have hnow : (((63902908800 + second) * 1000000000 : ℕ) : Int) =
        (63902908800 + second) * nanosecondsPerSecond := by
      rw [nanosecondsPerSecond]
      omega
    rw [calendarWake, hnow]
    exact hsettled hown m hm t ht

/-- A token of an hour is minted once. -/
theorem minting_damped_hour : ∃ t, mintingMachine.Reachable Damped (calendarMinted 3600) ∧
    mintingMachine.step (calendarMinted 3600) (calendarWake true 1 3600) = some t ∧
    MintsOnce (calendarMinted 3600) (calendarWake true 1 3600) t := by
  have hreachable : mintingMachine.Reachable Damped (calendarMinted 3600) :=
    calendarMinted_reachable (calendarWake_damped (by decide) nofun)
  have hdamped : Damped (calendarMinted 3600) (calendarWake true 1 3600) := by
    refine calendarWake_damped (by decide) fun _ m hm t ht => .inr ?_
    rw [calendarMinted_eq] at hm
    obtain rfl := Option.some.inj hm
    have hexpiry := @calendar_expiry 0 3600 (by decide) (by decide)
    obtain rfl := Option.some.inj (hexpiry.symm.trans ht)
    decide
  exact ⟨_, hreachable, rfl, minting_damped hreachable hdamped rfl⟩

end Ark.MCP
