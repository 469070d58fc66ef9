import Ark.Machine
import Mathlib.Logic.Function.Basic

/-!
# Credentials of marketplace sources

A marketplace source is an entry of a ConfigMap with its URL, and its credential is in a Secret that the
entry names. Creations, updates and deletions read the entry first and then write the two objects one
after the other, each by force. Where an update moves a source with a credential to another URL, or where
requests overlap, the credential of one URL stands beside another.
-/

namespace Ark.MarketplaceSources

/-! ### Sources -/

inductive AuthScheme
  | bearer
  | basic
  deriving DecidableEq

def deriveSecretName (sourceName : String) : String :=
  "marketplace-source-" ++ sourceName ++ "-auth"

/-- An entry of the ConfigMap, which is kept as JSON; `auth` is the scheme and the `secretRef`. -/
structure Entry where
  url : String
  displayName : Option String
  auth : Option (AuthScheme × String)
  deriving DecidableEq

def encodeValue (url : String) (displayName : Option String) (scheme : Option AuthScheme)
    (secretRef : Option String) : Entry where
  url := url
  displayName := displayName.filter (· ≠ "")
  auth :=
    match scheme, secretRef with
    | some scheme, some secretRef => if secretRef = "" then none else some (scheme, secretRef)
    | _, _ => none

def Entry.secretRef (entry : Entry) : Option String := entry.auth.map Prod.snd

structure SourceAuth where
  scheme : AuthScheme
  credential : Option String

/-- A credential that is given and not empty. -/
def SourceAuth.given (auth : SourceAuth) : Option String := auth.credential.filter (· ≠ "")

/-- The body of a creation or an update. -/
structure SourceBody where
  url : String
  displayName : Option String
  auth : Option SourceAuth

/-! ### Requests -/

/-- What a request is about to write: the credential, and then the entry. -/
structure CredentialWrite where
  url : String
  displayName : Option String
  scheme : AuthScheme
  secretRef : String
  credential : String
  kept : Bool := false

/-- A request between two of its steps; `existing` is the entry that an update has read. An entry is
written with the credential that the request wrote before. -/
inductive Request
  | creating (body : SourceBody)
  | updating (body : SourceBody)
  | deleting
  | authorizing (existing : Option Entry) (body : SourceBody) (auth : SourceAuth)
  | readingSecret (secretRef : String) (body : SourceBody) (auth : SourceAuth)
  | validating (write : CredentialWrite)
  | writingSecret (write : CredentialWrite)
  | deletingSecret (secretRef : String) (entry : Option Entry)
  | writingEntry (entry : Entry) (credential : Option String)
  | removingEntry (secretRef : Option String)

/-- How a call ends; `passes` is the answer of the authorization and of the manifest's host, and the
answer to a call that was carried out may be lost. -/
inductive Answer
  | ok (passes : Bool)
  | failed
  | lost
  deriving DecidableEq

/-- What a step leaves; a request that does not go on has returned, been rejected or `failed`. -/
structure Outcome where
  entry : Option Entry
  secrets : String → Option String
  request : Option Request := none
  kept : List (String × String) := []
  failed : Bool := false

def CredentialWrite.entry (write : CredentialWrite) : Entry :=
  encodeValue write.url write.displayName (some write.scheme) (some write.secretRef)

/-- A body without `auth`. -/
def SourceBody.anonymous (body : SourceBody) : Entry := encodeValue body.url body.displayName none none

/-- What an update or a creation does once it is authorized, none where it is rejected. -/
def authorized (name : String) (existing : Option Entry) (body : SourceBody) (auth : SourceAuth) :
    Option Request :=
  let secretRef := (existing.bind Entry.secretRef).getD (deriveSecretName name)
  match auth.given with
  | some credential =>
    some (.validating
      { url := body.url
        displayName := body.displayName
        scheme := auth.scheme
        secretRef := secretRef
        credential := credential })
  | none =>
    -- Keep the existing one: only where nothing that matters for security moved.
    match existing with
    | none => none
    | some entry =>
      match entry.auth with
      | none => none
      | some (scheme, secretRef) =>
        if body.url ≠ entry.url || scheme ≠ auth.scheme then none
        else some (.readingSecret secretRef body auth)

/-- A call that is carried out, and what its request does then. -/
def Request.perform (name : String) (passes : Bool) (entry : Option Entry)
    (secrets : String → Option String) : Request → Outcome
  | .creating body =>
    if entry.isSome || body.auth.any (fun auth => auth.given.isNone) then
      { entry := entry, secrets := secrets }
    else
      { entry := entry
        secrets := secrets
        request := some (match body.auth with
          | some auth => .authorizing none body auth
          | none => .writingEntry body.anonymous none) }
  | .updating body =>
    { entry := entry
      secrets := secrets
      request := entry.map fun existing =>
        match body.auth, existing.secretRef with
        | some auth, _ => .authorizing (some existing) body auth
        | none, some secretRef => .deletingSecret secretRef (some body.anonymous)
        | none, none => .writingEntry body.anonymous none }
  | .deleting =>
    { entry := entry
      secrets := secrets
      request := entry.map fun existing => .removingEntry existing.secretRef }
  | .authorizing existing body auth =>
    { entry := entry
      secrets := secrets
      request := if passes then authorized name existing body auth else none }
  | .readingSecret secretRef body auth =>
    { entry := entry
      secrets := secrets
      request := (secrets secretRef).map fun credential => .validating
        { url := body.url
          displayName := body.displayName
          scheme := auth.scheme
          secretRef := secretRef
          credential := credential
          kept := true } }
  | .validating write =>
    { entry := entry
      secrets := secrets
      request := if passes then some (.writingSecret write) else none }
  | .writingSecret write =>
    { entry := entry
      secrets := Function.update secrets write.secretRef (some write.credential)
      request := some (.writingEntry write.entry (some write.credential))
      kept := if write.kept then [(write.url, write.credential)] else [] }
  | .deletingSecret secretRef next =>
    { entry := entry
      secrets := Function.update secrets secretRef none
      request := next.map fun entry => .writingEntry entry none }
  | .writingEntry new _ => { entry := some new, secrets := secrets }
  | .removingEntry secretRef =>
    { entry := none
      secrets := secrets
      request := secretRef.map fun secretRef => .deletingSecret secretRef none }

def Request.proceed (name : String) (answer : Answer) (entry : Option Entry)
    (secrets : String → Option String) (request : Request) : Outcome :=
  match answer with
  | .ok passes => request.perform name passes entry secrets
  | .failed => { entry := entry, secrets := secrets, failed := true }
  | .lost => { request.perform name false entry secrets with request := none, failed := true }

/-! ### Runs -/

/-- `supplied` are the credentials that clients sent, each with the URL of its request, and `kept` those
that an update kept which left the URL and the scheme. -/
structure SourceState where
  entry : Option Entry := none
  secrets : String → Option String := fun _ => none
  requests : ℕ → Option Request := fun _ => none
  next : ℕ := 0
  supplied : List (String × String) := []
  kept : List (String × String) := []
  failed : Bool := false

inductive Arrival
  | create (body : SourceBody)
  | update (body : SourceBody)
  | delete

def Arrival.request : Arrival → Request
  | .create body => .creating body
  | .update body => .updating body
  | .delete => .deleting

def SourceBody.supplies (body : SourceBody) : List (String × String) :=
  ((body.auth.bind SourceAuth.given).map fun credential => (body.url, credential)).toList

def Arrival.supplies : Arrival → List (String × String)
  | .create body => body.supplies
  | .update body => body.supplies
  | .delete => []

inductive SourceAction
  | arrive (arrival : Arrival)
  | proceed (i : ℕ) (answer : Answer)
  | abort (i : ℕ)

namespace SourceState

variable (s : SourceState)

def after (i : ℕ) (o : Outcome) : SourceState where
  entry := o.entry
  secrets := o.secrets
  requests := Function.update s.requests i o.request
  next := s.next
  supplied := s.supplied
  kept := s.kept ++ o.kept
  failed := o.failed || s.failed

end SourceState

/-- The requests for the source `name`. -/
def sourceMachine (name : String) : Machine SourceState SourceAction where
  init s := s = {}
  step s a :=
    match a with
    | .arrive arrival =>
      some { s with
        requests := Function.update s.requests s.next (some arrival.request)
        next := s.next + 1
        supplied := s.supplied ++ arrival.supplies }
    | .proceed i answer =>
      (s.requests i).map fun request => s.after i (request.proceed name answer s.entry s.secrets)
    | .abort i =>
      (s.requests i).map fun _ => { s with
        requests := Function.update s.requests i none
        failed := true }

/-- A write that leaves the credential with its URL: a credential goes beside no entry of another URL, and
an entry beside no other credential than the request's own; and where no request has failed, an entry
without `auth` is written when the Secret is gone, and an entry is removed when it is or by a deletion that
has read the Secret's name. -/
def settled (name : String) (s : SourceState) (request : Request) : Bool :=
  match request with
  | .writingSecret write =>
    s.entry.all fun entry => entry.auth.isNone || entry.url = write.url
  | .writingEntry entry credential =>
    if entry.auth.isSome then
      (s.secrets (deriveSecretName name)).isNone || s.secrets (deriveSecretName name) = credential
    else s.failed || (s.secrets (deriveSecretName name)).isNone
  | .removingEntry secretRef =>
    s.failed || (s.secrets (deriveSecretName name)).isNone || secretRef.isSome
  | _ => true

def orderly (name : String) (s : SourceState) : SourceAction → Bool
  | .proceed i answer => answer = .failed || (s.requests i).all fun request => settled name s request
  | _ => true

/-! ### What holds in every state -/

/-- The credential that an entry names was supplied in a request for its URL, or kept by an update that
left it there. -/
def CredentialPlaced (s : SourceState) : Prop :=
  ∀ entry, s.entry = some entry → ∀ secretRef, entry.secretRef = some secretRef →
    ∀ credential, s.secrets secretRef = some credential →
      (entry.url, credential) ∈ s.supplied ∨ (entry.url, credential) ∈ s.kept

/-- With no request in flight and none failed, an entry without `auth` has no Secret. -/
def NoneLeft (name : String) (s : SourceState) : Prop :=
  (∀ i, s.requests i = none) → s.failed = false → ∀ entry, s.entry = some entry → entry.auth = none →
    s.secrets (deriveSecretName name) = none

/-! ### The invariant -/

/-- What a request in flight knows: the Secret that it names is the source's own, and what it is about to
write was supplied for its URL. -/
def Fits (name : String) (s : SourceState) : Request → Prop
  | .creating body => ∀ auth, body.auth = some auth → ∀ credential, auth.given = some credential →
      (body.url, credential) ∈ s.supplied
  | .updating body => ∀ auth, body.auth = some auth → ∀ credential, auth.given = some credential →
      (body.url, credential) ∈ s.supplied
  | .deleting => True
  | .authorizing existing body auth =>
    (∀ credential, auth.given = some credential → (body.url, credential) ∈ s.supplied) ∧
      ∀ entry, existing = some entry → ∀ secretRef, entry.secretRef = some secretRef →
        secretRef = deriveSecretName name
  | .readingSecret secretRef _ _ => secretRef = deriveSecretName name
  | .validating write => write.secretRef = deriveSecretName name ∧
      (write.kept = false → (write.url, write.credential) ∈ s.supplied)
  | .writingSecret write => write.secretRef = deriveSecretName name ∧
      (write.kept = false → (write.url, write.credential) ∈ s.supplied)
  | .deletingSecret secretRef next => secretRef = deriveSecretName name ∧
      ∀ entry, next = some entry → entry.auth = none
  | .writingEntry entry credential => ∀ secretRef, entry.secretRef = some secretRef →
      secretRef = deriveSecretName name ∧ ∃ value, credential = some value ∧
        ((entry.url, value) ∈ s.supplied ∨ (entry.url, value) ∈ s.kept)
  | .removingEntry secretRef => ∀ name', secretRef = some name' → name' = deriveSecretName name

/-- A request that will give the Secret an entry or take it away. -/
def Request.settles : Request → Bool
  | .writingEntry entry _ => entry.auth.isSome
  | .deletingSecret _ _ => true
  | _ => false

/-- Where no request has failed, a Secret has its entry, or a request that will settle it. -/
def Attended (name : String) (s : SourceState) : Prop :=
  s.failed = false → (s.secrets (deriveSecretName name)).isSome = true →
    (∃ entry, s.entry = some entry ∧ entry.auth.isSome = true) ∨
      ∃ i request, s.requests i = some request ∧ request.settles = true

structure SourceInvariant (name : String) (s : SourceState) : Prop where
  fresh : ∀ i, s.next ≤ i → s.requests i = none
  refs : ∀ entry, s.entry = some entry → ∀ secretRef, entry.secretRef = some secretRef →
    secretRef = deriveSecretName name
  fits : ∀ i request, s.requests i = some request → Fits name s request
  placed : CredentialPlaced s
  attended : Attended name s

section

variable {name : String} {s t : SourceState} {request : Request} {i : ℕ}

theorem Fits.mono (h : Fits name s request) (hsupplied : s.supplied ⊆ t.supplied)
    (hkept : s.kept ⊆ t.kept) : Fits name t request := by
  cases request with
  | creating body => exact fun auth hauth credential hc => hsupplied (h auth hauth credential hc)
  | updating body => exact fun auth hauth credential hc => hsupplied (h auth hauth credential hc)
  | deleting => trivial
  | authorizing existing body auth => exact ⟨fun credential hc => hsupplied (h.1 credential hc), h.2⟩
  | readingSecret secretRef body auth => exact h
  | validating write => exact ⟨h.1, fun hkept => hsupplied (h.2 hkept)⟩
  | writingSecret write => exact ⟨h.1, fun hkept => hsupplied (h.2 hkept)⟩
  | deletingSecret secretRef next => exact h
  | writingEntry entry credential =>
    intro secretRef hsecretRef
    obtain ⟨hname, value, hvalue, hsup | hkeep⟩ := h secretRef hsecretRef
    · exact ⟨hname, value, hvalue, .inl (hsupplied hsup)⟩
    · exact ⟨hname, value, hvalue, .inr (hkept hkeep)⟩
  | removingEntry secretRef => exact h

theorem deriveSecretName_ne (name : String) : deriveSecretName name ≠ "" := by
  intro h
  unfold deriveSecretName at h
  have hend := (String.append_eq_empty_iff.mp h).2
  simp at hend

theorem auth_of_write {write : CredentialWrite} (h : write.secretRef = deriveSecretName name) :
    write.entry.auth = some (write.scheme, deriveSecretName name) := by
  rw [CredentialWrite.entry, encodeValue, h]
  dsimp only
  rw [if_neg (deriveSecretName_ne name)]

theorem auth_anonymous (body : SourceBody) : body.anonymous.auth = none := rfl

theorem secretRef_of_auth_none {entry : Entry} (h : entry.auth = none) : entry.secretRef = none := by
  rw [Entry.secretRef, h, Option.map_none]

/-! ### One call -/

theorem fits_of_authorized {existing : Option Entry} {body : SourceBody} {auth : SourceAuth}
    {next : Request} (h : Fits name s (.authorizing existing body auth))
    (hnext : authorized name existing body auth = some next) : Fits name s next := by
  obtain ⟨hsupplied, hrefs⟩ := h
  unfold authorized at hnext
  dsimp only at hnext
  split at hnext
  next credential hgiven =>
    obtain rfl := Option.some.inj hnext
    refine ⟨?_, fun _ => hsupplied credential hgiven⟩
    cases hexisting : existing.bind Entry.secretRef with
    | none => rfl
    | some secretRef =>
      obtain ⟨entry, hentry, hsecretRef⟩ := Option.bind_eq_some_iff.mp hexisting
      exact hrefs entry hentry secretRef hsecretRef
  next =>
    split at hnext
    next => cases hnext
    next entry =>
      split at hnext
      next => cases hnext
      next scheme secretRef hauth =>
        split at hnext
        next => cases hnext
        next =>
          obtain rfl := Option.some.inj hnext
          exact hrefs entry rfl secretRef (by rw [Entry.secretRef, hauth, Option.map_some])

theorem fits_of_perform (hs : SourceInvariant name s) (hfits : Fits name s request) (passes : Bool)
    {next : Request} (hnext : (request.perform name passes s.entry s.secrets).request = some next) :
    Fits name (s.after i (request.perform name passes s.entry s.secrets)) next := by
  have hmono {request' : Request} {o : Outcome} (h : Fits name s request') :
      Fits name (s.after i o) request' :=
    h.mono (List.Subset.refl _) (List.subset_append_left _ _)
  have hanonymous (body : SourceBody) : Fits name s (.writingEntry body.anonymous none) := by
    intro secretRef hsecretRef
    rw [secretRef_of_auth_none (auth_anonymous body)] at hsecretRef
    cases hsecretRef
  cases request with
  | creating body =>
    apply hmono
    rw [Request.perform] at hnext
    split at hnext
    next => cases hnext
    next =>
      obtain rfl := Option.some.inj hnext
      split
      next auth hauth => exact ⟨hfits auth hauth, nofun⟩
      next => exact hanonymous body
  | updating body =>
    apply hmono
    obtain ⟨existing, hexisting, rfl⟩ := Option.map_eq_some_iff.mp hnext
    split
    next auth hauth =>
      refine ⟨hfits auth hauth, fun entry hentry => ?_⟩
      obtain rfl := Option.some.inj hentry
      exact hs.refs existing hexisting
    next secretRef _ hsecretRef =>
      refine ⟨hs.refs existing hexisting secretRef hsecretRef, fun entry hentry => ?_⟩
      obtain rfl := Option.some.inj hentry
      exact auth_anonymous body
    next => exact hanonymous body
  | deleting =>
    apply hmono
    obtain ⟨existing, hexisting, rfl⟩ := Option.map_eq_some_iff.mp hnext
    exact hs.refs existing hexisting
  | authorizing existing body auth =>
    apply hmono
    rw [Request.perform] at hnext
    dsimp only at hnext
    split at hnext
    next => exact fits_of_authorized hfits hnext
    next => cases hnext
  | readingSecret secretRef body auth =>
    apply hmono
    obtain ⟨credential, -, rfl⟩ := Option.map_eq_some_iff.mp hnext
    exact ⟨hfits, nofun⟩
  | validating write =>
    apply hmono
    rw [Request.perform] at hnext
    dsimp only at hnext
    split at hnext
    next =>
      obtain rfl := Option.some.inj hnext
      exact hfits
    next => cases hnext
  | writingSecret write =>
    obtain rfl := Option.some.inj hnext
    intro secretRef hsecretRef
    rw [Entry.secretRef, auth_of_write hfits.1, Option.map_some] at hsecretRef
    refine ⟨(Option.some.inj hsecretRef).symm, write.credential, rfl, ?_⟩
    cases hkept : write.kept with
    | false => exact .inl (hfits.2 hkept)
    | true =>
      right
      apply List.mem_append_right
      rw [Request.perform, hkept]
      exact List.mem_cons_self
  | deletingSecret secretRef next' =>
    apply hmono
    obtain ⟨entry, hentry, rfl⟩ := Option.map_eq_some_iff.mp hnext
    intro secretRef' hsecretRef'
    rw [secretRef_of_auth_none (hfits.2 entry hentry)] at hsecretRef'
    cases hsecretRef'
  | writingEntry entry credential => cases hnext
  | removingEntry secretRef =>
    apply hmono
    obtain ⟨secretRef', hsecretRef', rfl⟩ := Option.map_eq_some_iff.mp hnext
    exact ⟨hfits secretRef' hsecretRef', nofun⟩

theorem refs_of_perform (hs : SourceInvariant name s) (hfits : Fits name s request) (passes : Bool)
    {entry : Entry} (hentry : (request.perform name passes s.entry s.secrets).entry = some entry)
    {secretRef : String} (hsecretRef : entry.secretRef = some secretRef) :
    secretRef = deriveSecretName name := by
  have hold (h : s.entry = some entry) : secretRef = deriveSecretName name :=
    hs.refs entry h secretRef hsecretRef
  cases request with
  | creating body =>
    rw [Request.perform] at hentry
    split at hentry
    next => exact hold hentry
    next => exact hold hentry
  | updating body => exact hold hentry
  | deleting => exact hold hentry
  | authorizing existing body auth => exact hold hentry
  | readingSecret secretRef' body auth => exact hold hentry
  | validating write => exact hold hentry
  | writingSecret write => exact hold hentry
  | deletingSecret secretRef' next => exact hold hentry
  | writingEntry new credential =>
    obtain rfl := Option.some.inj hentry
    exact (hfits secretRef hsecretRef).1
  | removingEntry secretRef' => cases hentry

/-- A settled write leaves the credential with its URL. -/
theorem placed_of_perform (hs : SourceInvariant name s) (hfits : Fits name s request) (passes : Bool)
    (hsettled : settled name s request = true) :
    CredentialPlaced (s.after i (request.perform name passes s.entry s.secrets)) := by
  have hold {o : Outcome} (hentry : o.entry = s.entry) (hsecrets : o.secrets = s.secrets) :
      CredentialPlaced (s.after i o) := by
    intro entry hnew secretRef hsecretRef credential hcredential
    have hplaced := hs.placed entry (hentry.symm.trans hnew) secretRef hsecretRef credential
      (by rw [← hsecrets]; exact hcredential)
    exact hplaced.imp id fun hkept => List.mem_append_left _ hkept
  cases request with
  | creating body =>
    rw [Request.perform]
    split
    next => exact hold rfl rfl
    next => exact hold rfl rfl
  | updating body => exact hold rfl rfl
  | deleting => exact hold rfl rfl
  | authorizing existing body auth => exact hold rfl rfl
  | readingSecret secretRef' body auth => exact hold rfl rfl
  | validating write => exact hold rfl rfl
  | writingSecret write =>
    intro entry hentry secretRef hsecretRef credential hcredential
    have hentry : s.entry = some entry := hentry
    have hname := hs.refs entry hentry secretRef hsecretRef
    rw [settled, hentry] at hsettled
    have hurl : entry.url = write.url := by
      obtain hnone | hurl := Bool.or_eq_true_iff.mp hsettled
      · rw [secretRef_of_auth_none (Option.isNone_iff_eq_none.mp hnone)] at hsecretRef
        cases hsecretRef
      · exact of_decide_eq_true hurl
    have hvalue : Function.update s.secrets write.secretRef (some write.credential) secretRef =
        some credential := hcredential
    rw [hname, ← hfits.1, Function.update_self] at hvalue
    obtain rfl := Option.some.inj hvalue
    rw [hurl]
    cases hkept : write.kept with
    | false => exact .inl (hfits.2 hkept)
    | true =>
      right
      apply List.mem_append_right
      rw [Request.perform, hkept]
      exact List.mem_cons_self
  | deletingSecret secretRef' next =>
    intro entry hentry secretRef hsecretRef credential hcredential
    have hname := hs.refs entry hentry secretRef hsecretRef
    have hvalue : Function.update s.secrets secretRef' none secretRef = some credential := hcredential
    rw [hname, ← hfits.1, Function.update_self] at hvalue
    cases hvalue
  | writingEntry new value =>
    intro entry hentry secretRef hsecretRef credential hcredential
    obtain rfl := Option.some.inj hentry
    obtain ⟨hname, value', hvalue, hplaced⟩ := hfits secretRef hsecretRef
    have hcredential : s.secrets secretRef = some credential := hcredential
    have hauth : new.auth.isSome = true := by
      cases hnew : new.auth with
      | none =>
        rw [secretRef_of_auth_none hnew] at hsecretRef
        cases hsecretRef
      | some auth => rfl
    rw [settled, if_pos hauth, ← hname, hcredential, hvalue] at hsettled
    obtain rfl : credential = value' := by simpa using hsettled
    exact hplaced.imp id fun hkept => List.mem_append_left _ hkept
  | removingEntry secretRef' =>
    intro entry hentry
    cases hentry

/-- A settled write leaves no Secret without an entry or a request that settles it. -/
theorem attended_of_perform (hs : SourceInvariant name s) (hfits : Fits name s request) (passes : Bool)
    (hrequest : s.requests i = some request) (hsettled : settled name s request = true) :
    Attended name (s.after i (request.perform name passes s.entry s.secrets)) := by
  have hold {o : Outcome} (hentry : o.entry = s.entry) (hsecrets : o.secrets = s.secrets)
      (hsettles : request.settles = false) : Attended name (s.after i o) := by
    intro hfailed hsecret
    have hfailed : s.failed = false := (Bool.or_eq_false_iff.mp hfailed).2
    have hsecret : (s.secrets (deriveSecretName name)).isSome = true := by
      rw [← hsecrets]
      exact hsecret
    obtain ⟨entry, hold, hauth⟩ | ⟨j, request', hj, hrequest'⟩ := hs.attended hfailed hsecret
    · exact .inl ⟨entry, hentry.trans hold, hauth⟩
    · right
      have hne : j ≠ i := by
        rintro rfl
        obtain rfl := Option.some.inj (hrequest.symm.trans hj)
        rw [hsettles] at hrequest'
        cases hrequest'
      exact ⟨j, request', (Function.update_of_ne hne _ _).trans hj, hrequest'⟩
  cases request with
  | creating body =>
    rw [Request.perform]
    split
    next => exact hold rfl rfl rfl
    next => exact hold rfl rfl rfl
  | updating body => exact hold rfl rfl rfl
  | deleting => exact hold rfl rfl rfl
  | authorizing existing body auth => exact hold rfl rfl rfl
  | readingSecret secretRef' body auth => exact hold rfl rfl rfl
  | validating write => exact hold rfl rfl rfl
  | writingSecret write =>
    intro _ _
    refine .inr ⟨i, .writingEntry write.entry (some write.credential), Function.update_self _ _ _, ?_⟩
    rw [Request.settles, auth_of_write hfits.1, Option.isSome_some]
  | deletingSecret secretRef next =>
    intro _ hsecret
    have hsecret : (Function.update s.secrets secretRef none (deriveSecretName name)).isSome = true :=
      hsecret
    rw [← hfits.1, Function.update_self] at hsecret
    cases hsecret
  | writingEntry new value =>
    intro hfailed hsecret
    have hfailed : s.failed = false := hfailed
    have hsecret : (s.secrets (deriveSecretName name)).isSome = true := hsecret
    cases hauth : new.auth with
    | some auth =>
      refine .inl ⟨new, rfl, ?_⟩
      rw [hauth, Option.isSome_some]
    | none =>
      rw [settled, hauth, hfailed] at hsettled
      have hnone : s.secrets (deriveSecretName name) = none := by simpa using hsettled
      rw [hnone] at hsecret
      cases hsecret
  | removingEntry secretRef =>
    intro hfailed hsecret
    have hfailed : s.failed = false := hfailed
    have hsecret : (s.secrets (deriveSecretName name)).isSome = true := hsecret
    rw [settled, hfailed, ← Option.not_isSome, hsecret] at hsettled
    obtain ⟨secretRef', hsecretRef'⟩ := Option.isSome_iff_exists.mp hsettled
    refine .inr ⟨i, .deletingSecret secretRef' none, (Function.update_self _ _ _).trans ?_, rfl⟩
    rw [Request.perform, hsecretRef', Option.map_some]

/-! ### Every run -/

theorem of_update {requests : ℕ → Option Request} {new : Option Request} {j : ℕ}
    (h : Function.update requests i new j = some request) :
    new = some request ∨ requests j = some request := by
  by_cases hj : j = i
  · subst hj
    rw [Function.update_self] at h
    exact .inl h
  · rw [Function.update_of_ne hj] at h
    exact .inr h

theorem lt_next (hs : SourceInvariant name s) (h : s.requests i = some request) : i < s.next := by
  apply Nat.lt_of_not_le
  intro hle
  rw [hs.fresh i hle] at h
  cases h

theorem fresh_after {o : Outcome} (hs : SourceInvariant name s) (h : s.requests i = some request) :
    ∀ j, s.next ≤ j → (s.after i o).requests j = none := by
  intro j hj
  have hne : j ≠ i := by
    have hlt := lt_next hs h
    omega
  exact (Function.update_of_ne hne _ _).trans (hs.fresh j hj)

theorem invariant_after {o : Outcome} (hs : SourceInvariant name s)
    (hrequest : s.requests i = some request)
    (hrefs : ∀ entry, o.entry = some entry → ∀ secretRef, entry.secretRef = some secretRef →
      secretRef = deriveSecretName name)
    (hfits : ∀ next, o.request = some next → Fits name (s.after i o) next)
    (hplaced : CredentialPlaced (s.after i o)) (hattended : Attended name (s.after i o)) :
    SourceInvariant name (s.after i o) := by
  refine ⟨fresh_after hs hrequest, hrefs, fun j next hnext => ?_, hplaced, hattended⟩
  obtain hnew | hold := of_update hnext
  · exact hfits next hnew
  · exact (hs.fits j next hold).mono (List.Subset.refl _) (List.subset_append_left _ _)

theorem invariant_proceed {answer : Answer} (hs : SourceInvariant name s)
    (horderly : orderly name s (.proceed i answer) = true)
    (h : (sourceMachine name).step s (.proceed i answer) = some t) : SourceInvariant name t := by
  obtain ⟨request, hrequest, rfl⟩ := Option.map_eq_some_iff.mp h
  have hfits := hs.fits i request hrequest
  have hsettled (hne : answer ≠ .failed) : settled name s request = true := by
    rw [orderly, hrequest] at horderly
    obtain hfailed | hsettled := Bool.or_eq_true_iff.mp horderly
    · exact absurd (of_decide_eq_true hfailed) hne
    · exact hsettled
  cases answer with
  | ok passes =>
    have hsettled := hsettled (by simp)
    exact invariant_after hs hrequest
      (fun entry hentry secretRef => refs_of_perform hs hfits passes hentry)
      (fun next => fits_of_perform hs hfits passes) (placed_of_perform hs hfits passes hsettled)
      (attended_of_perform hs hfits passes hrequest hsettled)
  | failed =>
    refine invariant_after hs hrequest hs.refs nofun ?_ nofun
    intro entry hentry secretRef hsecretRef credential hcredential
    exact (hs.placed entry hentry secretRef hsecretRef credential hcredential).imp id
      (List.mem_append_left _)
  | lost =>
    have hsettled := hsettled (by simp)
    exact invariant_after hs hrequest
      (fun entry hentry secretRef => refs_of_perform hs hfits false hentry) nofun
      (placed_of_perform (i := i) hs hfits false hsettled) nofun

theorem fits_arrival (arrival : Arrival) (s : SourceState)
    (hsupplied : ∀ pair ∈ arrival.supplies, pair ∈ s.supplied) : Fits name s arrival.request := by
  have hbody {body : SourceBody} (h : ∀ pair ∈ body.supplies, pair ∈ s.supplied) (auth : SourceAuth)
      (hauth : body.auth = some auth) (credential : String) (hgiven : auth.given = some credential) :
      (body.url, credential) ∈ s.supplied := by
    apply h
    rw [SourceBody.supplies, hauth, Option.bind_some, hgiven]
    exact List.mem_cons_self
  cases arrival with
  | create body => exact hbody hsupplied
  | update body => exact hbody hsupplied
  | delete => trivial

theorem invariant_arrive {arrival : Arrival} (hs : SourceInvariant name s)
    (h : (sourceMachine name).step s (.arrive arrival) = some t) : SourceInvariant name t := by
  obtain rfl := Option.some.inj h
  have hne {j : ℕ} (hj : s.next < j ∨ j < s.next) : j ≠ s.next := by omega
  refine ⟨fun j hj => ?_, hs.refs, fun j request hrequest => ?_, ?_, ?_⟩
  · have hj : s.next + 1 ≤ j := hj
    exact (Function.update_of_ne (hne (.inl hj)) _ _).trans (hs.fresh j (Nat.le_of_succ_le hj))
  · obtain hnew | hold := of_update hrequest
    · obtain rfl := Option.some.inj hnew
      exact fits_arrival arrival _ fun pair hpair => List.mem_append_right _ hpair
    · exact (hs.fits j request hold).mono (List.subset_append_left _ _) (List.Subset.refl _)
  · intro entry hentry secretRef hsecretRef credential hcredential
    exact (hs.placed entry hentry secretRef hsecretRef credential hcredential).imp
      (List.mem_append_left _) id
  · intro hfailed hsecret
    obtain hentry | ⟨j, request, hj, hsettles⟩ := hs.attended hfailed hsecret
    · exact .inl hentry
    · have hupdate := Function.update_of_ne (hne (.inr (lt_next hs hj))) (some arrival.request) s.requests
      exact .inr ⟨j, request, hupdate.trans hj, hsettles⟩

theorem invariant_abort (hs : SourceInvariant name s)
    (h : (sourceMachine name).step s (.abort i) = some t) : SourceInvariant name t := by
  obtain ⟨request, hrequest, rfl⟩ := Option.map_eq_some_iff.mp h
  have hold {j : ℕ} {next : Request}
      (h : Function.update s.requests i none j = some next) : s.requests j = some next := by
    obtain hnew | hold := of_update h
    · cases hnew
    · exact hold
  refine ⟨fun j hj => ?_, hs.refs, fun j next hnext => ?_, hs.placed, nofun⟩
  · cases hnext : Function.update s.requests i none j with
    | none => exact hnext
    | some next =>
      have hnone := hs.fresh j hj
      rw [hold hnext] at hnone
      cases hnone
  · exact (hs.fits j next (hold hnext)).mono (List.Subset.refl _) (List.Subset.refl _)

theorem invariant_of_reachable
    (h : (sourceMachine name).Reachable (fun s a => orderly name s a = true) s) :
    SourceInvariant name s := by
  refine h.invariant ?_ ?_
  · rintro s rfl
    refine ⟨fun _ _ => rfl, fun entry hentry => ?_, fun i request hrequest => ?_,
      fun entry hentry => ?_, fun _ hsecret => ?_⟩
    · cases hentry
    · cases hrequest
    · cases hentry
    · cases hsecret
  · intro s a t hs hok hstep
    cases a with
    | arrive arrival => exact invariant_arrive hs hstep
    | proceed i answer => exact invariant_proceed hs hok hstep
    | abort i => exact invariant_abort hs hstep

theorem noneLeft_of_invariant (hs : SourceInvariant name s) : NoneLeft name s := by
  intro hquiet hfailed entry hentry hauth
  cases hsecret : s.secrets (deriveSecretName name) with
  | none => rfl
  | some credential =>
    obtain ⟨entry', hentry', hauth'⟩ | ⟨i, request, hrequest, -⟩ := hs.attended hfailed (by
      rw [hsecret, Option.isSome_some])
    · obtain rfl := Option.some.inj (hentry.symm.trans hentry')
      rw [hauth] at hauth'
      cases hauth'
    · rw [hquiet i] at hrequest
      cases hrequest

end

/-! ### Two updates at once -/

def proceeds (i n : ℕ) : List SourceAction := List.replicate n (.proceed i (.ok true))

def withCredential (url : String) (credential : Option String) : SourceBody where
  url := url
  displayName := none
  auth := some ⟨.bearer, credential⟩

/-- A creation, and an update that keeps the URL and the credential up to its first write. -/
def keptRun : List SourceAction :=
  .arrive (.create (withCredential "https://a.example" (some "a"))) :: proceeds 0 5 ++
    .arrive (.update (withCredential "https://a.example" none)) :: proceeds 1 4

/-- An update moves the source before the other writes the credential that it has read. -/
def movedRun : List SourceAction :=
  keptRun ++ .arrive (.update (withCredential "https://b.example" (some "b"))) :: proceeds 2 5 ++
    proceeds 1 1

/-- An entry that names a credential which was neither supplied nor kept for its URL. -/
def misplaced (s : SourceState) : Bool :=
  s.entry.any fun entry => entry.secretRef.any fun secretRef => (s.secrets secretRef).any fun credential =>
    (entry.url, credential) ∉ s.supplied ++ s.kept

theorem not_placed {s : SourceState} (h : misplaced s = true) : ¬ CredentialPlaced s := by
  intro hplaced
  obtain ⟨entry, hentry, h⟩ := (Option.any_eq_true _ _).mp h
  obtain ⟨secretRef, hsecretRef, h⟩ := (Option.any_eq_true _ _).mp h
  obtain ⟨credential, hcredential, h⟩ := (Option.any_eq_true _ _).mp h
  exact of_decide_eq_true h (List.mem_append.mpr
    (hplaced entry hentry secretRef hsecretRef credential hcredential))

end Ark.MarketplaceSources
