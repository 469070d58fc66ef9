import Ark.IsoTime
import Ark.Machine
import Ark.TokenSecret

/-!
# Verification and revocation of API keys

An API key is a Secret whose annotation keeps the metadata of the key. Verification reads the Secret, and
then reads it again to write the time of its use; a deletion marks it. Both write the annotation as a
whole, with the version that they read, and a patch of another version than the stored one is rejected. A
deleted key is never verified again. A key whose expiry has no zone is never verified at all.
-/

namespace Ark.ApiKeys

open CivilTime KeyedTable MCP

/-! ### The annotation -/

/-- The object that the `api-key-metadata` annotation of a key holds as JSON. -/
abbrev ApiKeyJson := List (String × String)

def formatDatetime (t : DateTime) : String := String.ofList (isoformat t)

/-- `s.replace('Z', '+00:00')`. -/
def replaceZ (cs : List Char) : List Char :=
  cs.flatMap fun c => if c = 'Z' then ['+', '0', '0', ':', '0', '0'] else [c]

def parseDatetime : Option String → Option DateTime
  | none => none
  | some text => if text = "" then none else fromisoformat (replaceZ text.toList)

structure ApiKeyMetadata where
  name : String
  createdAt : Option DateTime
  expiresAt : Option DateTime
  lastUsedAt : Option DateTime
  deletedAt : Option DateTime
  createdBy : Option String

/-- An entry for a value that is given. -/
def entry (key : String) (value : Option String) : ApiKeyJson :=
  (value.map fun value => (key, value)).toList

def createApiKeyAnnotation (name : String) (createdAt : DateTime)
    (expiresAt lastUsedAt deletedAt : Option DateTime) (createdBy : Option String) : ApiKeyJson :=
  [("name", name), ("createdAt", formatDatetime createdAt)] ++
    (entry "expiresAt" (expiresAt.map formatDatetime) ++
      (entry "lastUsedAt" (lastUsedAt.map formatDatetime) ++
        (entry "deletedAt" (deletedAt.map formatDatetime) ++ entry "createdBy" createdBy)))

def get (json : ApiKeyJson) (key : String) : Option String :=
  (find Prod.fst key json).map Prod.snd

def parseApiKeyAnnotation (json : ApiKeyJson) : ApiKeyMetadata where
  name := (get json "name").getD "Unknown"
  createdAt := parseDatetime (get json "createdAt")
  expiresAt := parseDatetime (get json "expiresAt")
  lastUsedAt := parseDatetime (get json "lastUsedAt")
  deletedAt := parseDatetime (get json "deletedAt")
  createdBy := get json "createdBy"

/-! ### The Secret of a key -/

def apiKeyType : String := "ark.mckinsey.com/api-key"

structure KeySecret where
  resourceVersion : ℕ
  type : String
  apiKeyJson : Option ApiKeyJson
  data : SecretData

namespace KeySecret

variable (secret : KeySecret)

def metadata : ApiKeyMetadata := parseApiKeyAnnotation (secret.apiKeyJson.getD [])

/-- A value of the data, empty where there is none. -/
def text (key : String) : String := (secret.data.get key).getD ""

def isActive : Bool := secret.text "is_active" = "" || secret.text "is_active" = "true"

/-- The annotation after a use. -/
def usedJson (now : DateTime) : ApiKeyJson :=
  createApiKeyAnnotation secret.metadata.name (secret.metadata.createdAt.getD now)
    secret.metadata.expiresAt (some now) secret.metadata.deletedAt secret.metadata.createdBy

/-- The annotation after a deletion. -/
def deletedJson (now : DateTime) : ApiKeyJson :=
  createApiKeyAnnotation secret.metadata.name (secret.metadata.createdAt.getD now)
    secret.metadata.expiresAt secret.metadata.lastUsedAt (some now) secret.metadata.createdBy

end KeySecret

/-- A patch repeats the rest of the Secret that it was made from, which at the same version is the stored
one. -/
structure KeyPatch where
  resourceVersion : ℕ
  apiKeyJson : ApiKeyJson
  stringData : SecretData := []

/-- The Secret after a patch, none where the patch is rejected. -/
def KeyPatch.apply (patch : KeyPatch) (secret : KeySecret) : Option KeySecret :=
  if patch.resourceVersion = secret.resourceVersion then
    some
      { secret with
        resourceVersion := secret.resourceVersion + 1
        apiKeyJson := some patch.apiKeyJson
        data := patch.stringData.foldl (fun data entry => put Prod.fst entry data) secret.data }
  else none

/-! ### Requests -/

/-- The hashes of secret keys. -/
structure Bcrypt where
  hashpw : String → String → String
  checkpw : String → String → Bool

/-- A key is accepted for its own hash, and no other. -/
def Bcrypt.Exact (bcrypt : Bcrypt) : Prop :=
  ∀ secretKey secretKey' salt,
    bcrypt.checkpw secretKey (bcrypt.hashpw secretKey' salt) = true ↔ secretKey = secretKey'

/-- What a creation stores. -/
structure Creation where
  publicKey : String
  secretKey : String
  salt : String
  name : String
  createdAt : DateTime
  expiresAt : Option DateTime
  createdBy : Option String

def Creation.secret (bcrypt : Bcrypt) (c : Creation) : KeySecret where
  resourceVersion := 1
  type := apiKeyType
  apiKeyJson := some <| createApiKeyAnnotation c.name c.createdAt c.expiresAt none none c.createdBy
  data := [("public_key", c.publicKey), ("secret_key_hash", bcrypt.hashpw c.secretKey c.salt),
    ("is_active", "true")]

structure ApiKeyData where
  name : String
  publicKey : String
  secretKeyHash : String
  isActive : Bool
  expiresAt : Option DateTime
  createdBy : Option String

/-- The time of the system, in UTC. -/
abbrev Now := {t : DateTime // t.zone = some Zone.utc}

/-- Errors end in `none`, one of a comparison too. -/
def getApiKeyByPublicKey (now : Now) (publicKey : String) (createdBy : Option String) :
    Option KeySecret → Option ApiKeyData
  | none => none
  | some secret =>
    let metadata := secret.metadata
    let expired : Except String Bool :=
      match metadata.expiresAt with
      | none => .ok false
      | some expiresAt => expiresAt.before now
    if secret.type ≠ apiKeyType then none
    else if secret.text "public_key" ≠ publicKey then none
    else if !secret.isActive || metadata.deletedAt.isSome then none
    else
      match expired with
      | .error _ => none
      | .ok true => none
      | .ok false =>
        if createdBy.isSome && metadata.createdBy ≠ createdBy then none
        else some
          { name := metadata.name
            publicKey := publicKey
            secretKeyHash := secret.text "secret_key_hash"
            isActive := secret.isActive
            expiresAt := metadata.expiresAt
            createdBy := metadata.createdBy }

/-- A request between two of its steps. A verification is `late` where a deletion had returned `True` when
it started. -/
inductive Request
  | creating (creation : Creation)
  | verifying (publicKey secretKey : String) (late : Bool)
  | usingKey (late : Bool)
  | patchingUse (late : Bool) (patch : KeyPatch)
  | deleting (createdBy : Option String)
  | patchingDeletion (patch : KeyPatch)

/-- How a call of the API ends; the answer to one that was carried out may be lost. -/
inductive ApiAnswer
  | ok
  | failed
  | lost
  deriving DecidableEq

/-- What a step leaves and what it shows: a key that was stored, a deletion that was stored, one that
returned `True`, and a verification that succeeded. -/
structure Outcome where
  secret : Option KeySecret
  request : Option Request := none
  created : Option Creation := none
  deleted : Bool := false
  revoked : Bool := false
  verified : Option Bool := none

def Request.proceed (bcrypt : Bcrypt) (answer : ApiAnswer) (now : Now) (secret : Option KeySecret) :
    Request → Outcome
  | .creating creation =>
    if answer = .failed || secret.isSome then { secret := secret }
    else { secret := some (creation.secret bcrypt), created := some creation }
  | .verifying publicKey secretKey late =>
    match (if answer = .ok then getApiKeyByPublicKey now publicKey none secret else none) with
    | none => { secret := secret }
    | some data =>
      if bcrypt.checkpw secretKey data.secretKeyHash then
        { secret := secret, request := some (.usingKey late) }
      else { secret := secret }
  | .usingKey late =>
    match (if answer = .ok then secret else none) with
    | none => { secret := secret, verified := some late }
    | some read =>
      { secret := secret
        request := some (.patchingUse late
          { resourceVersion := read.resourceVersion, apiKeyJson := read.usedJson now }) }
  | .patchingUse late patch =>
    match (if answer = .failed then none else secret.bind patch.apply) with
    | none => { secret := secret, verified := some late }
    | some patched => { secret := some patched, verified := some late }
  | .deleting createdBy =>
    match (if answer = .ok then secret else none) with
    | none => { secret := secret }
    | some read =>
      if createdBy.isSome && read.metadata.createdBy ≠ createdBy then { secret := secret }
      else
        { secret := secret
          request := some (.patchingDeletion
            { resourceVersion := read.resourceVersion
              apiKeyJson := read.deletedJson now
              stringData := [("is_active", "false")] }) }
  | .patchingDeletion patch =>
    match (if answer = .failed then none else secret.bind patch.apply) with
    | none => { secret := secret }
    | some patched => { secret := some patched, deleted := true, revoked := answer = .ok }

/-! ### Runs -/

structure KeyState where
  secret : Option KeySecret := none
  requests : ℕ → Option Request := fun _ => none
  next : ℕ := 0
  created : Option Creation := none
  deleted : Bool := false
  revoked : Bool := false
  verified : List Bool := []

inductive Arrival
  | create (creation : Creation)
  | verify (publicKey secretKey : String)
  | delete (createdBy : Option String)

/-- `abort` is a request whose replica stops. -/
inductive KeyAction
  | arrive (arrival : Arrival)
  | proceed (i : ℕ) (answer : ApiAnswer) (now : Now)
  | abort (i : ℕ)

namespace KeyState

variable (s : KeyState)

def arrival : Arrival → Request
  | .create creation => .creating creation
  | .verify publicKey secretKey => .verifying publicKey secretKey s.revoked
  | .delete createdBy => .deleting createdBy

def after (i : ℕ) (outcome : Outcome) : KeyState where
  secret := outcome.secret
  requests := Function.update s.requests i outcome.request
  next := s.next
  created := outcome.created.or s.created
  deleted := outcome.deleted || s.deleted
  revoked := outcome.revoked || s.revoked
  verified := s.verified ++ outcome.verified.toList

end KeyState

/-- The requests whose public keys name one Secret. -/
def keyMachine (bcrypt : Bcrypt) : Machine KeyState KeyAction where
  init s := s = {}
  step s a :=
    match a with
    | .arrive arrival =>
      some { s with
        requests := Function.update s.requests s.next (some (s.arrival arrival))
        next := s.next + 1 }
    | .proceed i answer now =>
      (s.requests i).map fun request => s.after i (request.proceed bcrypt answer now s.secret)
    | .abort i => some { s with requests := Function.update s.requests i none }

/-- The requests of a verification. -/
def Request.isVerification : Request → Bool
  | .verifying _ _ _ => true
  | .usingKey _ => true
  | .patchingUse _ _ => true
  | _ => false

/-- A request whose calls all succeed while no other runs: whether it is a verification that succeeds. -/
def Request.alone (bcrypt : Bcrypt) : List Now → Option KeySecret → Request → Option Bool
  | [], _, _ => none
  | now :: clock, secret, request =>
    let outcome := request.proceed bcrypt .ok now secret
    match outcome.request with
    | none => some outcome.verified.isSome
    | some request => request.alone bcrypt clock outcome.secret

/-! ### What holds in every state -/

/-- No verification that started after a deletion had returned `True` has succeeded. -/
def RevocationFinal (s : KeyState) : Prop := ∀ late ∈ s.verified, late = false

/-- The pair was created together, is not deleted, and has not expired. -/
def KeyState.Valid (s : KeyState) (publicKey secretKey : String) (now : Now) : Prop :=
  ∃ c ∈ s.created, c.publicKey = publicKey ∧ c.secretKey = secretKey ∧ s.deleted = false ∧
    ∀ t ∈ c.expiresAt, ¬ t.instant < now.1.instant

/-- A verification that runs alone ends, and succeeds exactly for a valid pair. -/
def VerificationExact (bcrypt : Bcrypt) (s : KeyState) : Prop :=
  ∀ publicKey secretKey now now' now'', ∃ success,
    (Request.verifying publicKey secretKey s.revoked).alone bcrypt [now, now', now''] s.secret =
        some success ∧
      (success = true ↔ s.Valid publicKey secretKey now)

/-- The recorded name, time of creation, expiry, creator and marks of deletion. -/
def KeySecret.recorded (secret : KeySecret) : List (Option String) :=
  (["name", "createdAt", "expiresAt", "createdBy", "deletedAt"].map
    (get (secret.apiKeyJson.getD []))) ++ [secret.data.get "is_active"]

/-! ### The annotation is read back -/

theorem parseDatetime_formatDatetime (t : DateTime) :
    parseDatetime (some (formatDatetime t)) = some t := by
  have hne : formatDatetime t ≠ "" := fun h => isoformat_ne_nil t (String.ofList_eq_empty_iff.mp h)
  have hreplace : replaceZ (isoformat t) = isoformat t := by
    have hchars {cs : List Char} (h : ∀ c ∈ cs, c ≠ 'Z') : replaceZ cs = cs := by
      induction cs with
      | nil => rfl
      | cons c cs ih =>
        obtain ⟨hc, hcs⟩ := List.forall_mem_cons.mp h
        have ih := ih hcs
        rw [replaceZ] at ih ⊢
        rw [List.flatMap_cons, if_neg hc, ih, List.singleton_append]
    apply hchars
    rintro c hc rfl
    simpa using mem_isoformat hc
  rw [parseDatetime, if_neg hne, formatDatetime, String.toList_ofList, hreplace,
    fromisoformat_isoformat]

theorem parseDatetime_map (t : Option DateTime) : parseDatetime (t.map formatDatetime) = t := by
  cases t with
  | none => rfl
  | some t => exact parseDatetime_formatDatetime t

section

variable {key key' value : String} {json : ApiKeyJson}

theorem get_cons : get ((key, value) :: json) key' = if key = key' then some value else get json key' := by
  unfold get find
  rw [List.find?_cons]
  split
  next h => rw [if_pos (of_decide_eq_true h), Option.map_some]
  next h => rw [if_neg (of_decide_eq_false h)]

theorem get_entry_append {value : Option String} : get (entry key value ++ json) key' =
    if key = key' then value.or (get json key') else get json key' := by
  cases value with
  | none => simp [entry]
  | some value =>
    rw [entry, Option.map_some, Option.toList_some, List.singleton_append, get_cons, Option.some_or]

theorem get_entry {value : Option String} :
    get (entry key value) key' = if key = key' then value else none := by
  have happend := @get_entry_append key key' [] value
  rw [List.append_nil] at happend
  rw [happend]
  simp [get, find]

end

theorem get_create (name : String) (createdAt : DateTime)
    (expiresAt lastUsedAt deletedAt : Option DateTime) (createdBy : Option String) (key : String) :
    get ( createApiKeyAnnotation name createdAt expiresAt lastUsedAt deletedAt createdBy) key =
      if "name" = key then some name
      else if "createdAt" = key then some (formatDatetime createdAt)
      else if "expiresAt" = key then expiresAt.map formatDatetime
      else if "lastUsedAt" = key then lastUsedAt.map formatDatetime
      else if "deletedAt" = key then deletedAt.map formatDatetime
      else if "createdBy" = key then createdBy else none := by
  rw [ createApiKeyAnnotation, List.cons_append, List.cons_append, List.nil_append, get_cons, get_cons,
    get_entry_append, get_entry_append, get_entry_append, get_entry]
  split_ifs with hname hcreatedAt hexpiresAt hlastUsedAt hdeletedAt hcreatedBy <;> subst_vars <;>
    simp_all

/-- What a creation, a use or a deletion writes is what the next one reads. -/
theorem parse_create (name : String) (createdAt : DateTime)
    (expiresAt lastUsedAt deletedAt : Option DateTime) (createdBy : Option String) :
    parseApiKeyAnnotation ( createApiKeyAnnotation name createdAt expiresAt lastUsedAt deletedAt
      createdBy) = ⟨name, some createdAt, expiresAt, lastUsedAt, deletedAt, createdBy⟩ := by
  simp [ parseApiKeyAnnotation, get_create, parseDatetime_map, parseDatetime_formatDatetime]

/-! ### Stored keys -/

/-- The Secret of a creation, with the marks of a deletion where it is deleted. -/
structure Stored (bcrypt : Bcrypt) (c : Creation) (deleted : Bool) (secret : KeySecret) : Prop where
  type : secret.type = apiKeyType
  publicKey : secret.data.get "public_key" = some c.publicKey
  hash : secret.data.get "secret_key_hash" = some (bcrypt.hashpw c.secretKey c.salt)
  active : secret.data.get "is_active" = some (if deleted then "false" else "true")
  json : ∃ lastUsedAt deletedAt, secret.apiKeyJson = some ( createApiKeyAnnotation c.name c.createdAt
    c.expiresAt lastUsedAt deletedAt c.createdBy) ∧ deletedAt.isSome = deleted

section

variable {bcrypt : Bcrypt} {c : Creation} {deleted : Bool} {secret : KeySecret}

theorem stored_creation (c : Creation) : Stored bcrypt c false (c.secret bcrypt) :=
  ⟨rfl, rfl, rfl, rfl, none, none, rfl, rfl⟩

namespace Stored

theorem metadata (h : Stored bcrypt c deleted secret) : ∃ lastUsedAt deletedAt,
    secret.metadata = ⟨c.name, some c.createdAt, c.expiresAt, lastUsedAt, deletedAt, c.createdBy⟩ ∧
      deletedAt.isSome = deleted := by
  obtain ⟨lastUsedAt, deletedAt, hjson, hdeleted⟩ := h.json
  refine ⟨lastUsedAt, deletedAt, ?_, hdeleted⟩
  rw [KeySecret.metadata, hjson, Option.getD_some, parse_create]

theorem isActive (h : Stored bcrypt c deleted secret) : secret.isActive = !deleted := by
  rw [KeySecret.isActive, KeySecret.text, h.active, Option.getD_some]
  cases deleted with
  | false => rfl
  | true => rfl

/-- A patch with the annotation of a use. -/
theorem used (h : Stored bcrypt c deleted secret) (now : DateTime) (version : ℕ) :
    Stored bcrypt c deleted { secret with
      resourceVersion := version, apiKeyJson := some (secret.usedJson now) } := by
  obtain ⟨lastUsedAt, deletedAt, hmetadata, hdeleted⟩ := h.metadata
  refine ⟨h.type, h.publicKey, h.hash, h.active, some now, deletedAt, ?_, hdeleted⟩
  rw [KeySecret.usedJson, hmetadata, Option.getD_some]

/-- A patch with the annotation and the mark of a deletion. -/
theorem marked (h : Stored bcrypt c deleted secret) (now : DateTime) (version : ℕ) :
    Stored bcrypt c true { secret with
      resourceVersion := version
      apiKeyJson := some (secret.deletedJson now)
      data := put Prod.fst ("is_active", "false") secret.data } := by
  obtain ⟨lastUsedAt, deletedAt, hmetadata, hdeleted⟩ := h.metadata
  refine ⟨h.type, ?_, ?_, ?_, lastUsedAt, some now, ?_, rfl⟩
  · exact SecretData.get_put.trans ((if_neg (by decide)).trans h.publicKey)
  · exact SecretData.get_put.trans ((if_neg (by decide)).trans h.hash)
  · exact SecretData.get_put.trans (if_pos rfl)
  · rw [KeySecret.deletedJson, hmetadata, Option.getD_some]

/-- A use leaves what is recorded. -/
theorem recorded_used (h : Stored bcrypt c deleted secret) (now : DateTime) (version : ℕ) :
    KeySecret.recorded { secret with
      resourceVersion := version, apiKeyJson := some (secret.usedJson now) } = secret.recorded := by
  obtain ⟨lastUsedAt, deletedAt, hjson, hdeleted⟩ := h.json
  have hmetadata : secret.metadata =
      ⟨c.name, some c.createdAt, c.expiresAt, lastUsedAt, deletedAt, c.createdBy⟩ := by
    rw [KeySecret.metadata, hjson, Option.getD_some, parse_create]
  simp [KeySecret.recorded, KeySecret.usedJson, hmetadata, hjson, get_create]

end Stored

/-- The key is asked for, not deleted, and has no expiry but one with a zone that has not passed. -/
structure Accepted (c : Creation) (deleted : Bool) (publicKey : String) (now : Now) : Prop where
  publicKey : c.publicKey = publicKey
  deleted : deleted = false
  expiresAt : ∀ t ∈ c.expiresAt, t.zone.isSome = true ∧ ¬ t.instant < now.1.instant

theorem before_now {t : DateTime} {now : Now} :
    t.before now = .ok false ↔ t.zone.isSome = true ∧ ¬ t.instant < now.1.instant := by
  have hnow : now.1.zone.isSome = true := by rw [now.2, Option.isSome_some]
  rw [DateTime.before, hnow]
  split
  next h => simp [h]
  next h => simp [h]

/-- An expiry does not stop a verification. -/
theorem unexpired_iff {expiresAt : Option DateTime} {now : Now} :
    (match expiresAt with
      | none => .ok false
      | some expiresAt => expiresAt.before now : Except String Bool) = .ok false ↔
      ∀ t ∈ expiresAt, t.zone.isSome = true ∧ ¬ t.instant < now.1.instant := by
  cases expiresAt with
  | none => simp
  | some t => simp [before_now]

theorem getApiKeyByPublicKey_of_stored (h : Stored bcrypt c deleted secret) (publicKey : String)
    (now : Now) :
    (¬ Accepted c deleted publicKey now → getApiKeyByPublicKey now publicKey none (some secret) = none) ∧
      (Accepted c deleted publicKey now → ∃ data,
        getApiKeyByPublicKey now publicKey none (some secret) = some data ∧
          data.secretKeyHash = bcrypt.hashpw c.secretKey c.salt) := by
  obtain ⟨lastUsedAt, deletedAt, hmetadata, hdeleted⟩ := h.metadata
  have hpublicKey : secret.text "public_key" = c.publicKey := by
    rw [KeySecret.text, h.publicKey, Option.getD_some]
  have hhash : secret.text "secret_key_hash" = bcrypt.hashpw c.secretKey c.salt := by
    rw [KeySecret.text, h.hash, Option.getD_some]
  rw [getApiKeyByPublicKey]
  rw [if_neg (not_not.mpr h.type), hpublicKey, h.isActive, hmetadata]
  dsimp only
  rw [hdeleted, Bool.not_not, Bool.or_self]
  split
  next hne => exact ⟨fun _ => rfl, fun haccepted => absurd haccepted.publicKey hne⟩
  next hpublic =>
    split
    next htrue =>
      refine ⟨fun _ => rfl, fun haccepted => ?_⟩
      rw [haccepted.deleted] at htrue
      cases htrue
    next hfalse =>
      have haccepted (hexpiry : ∀ t ∈ c.expiresAt, t.zone.isSome = true ∧ ¬ t.instant < now.1.instant) :
          Accepted c deleted publicKey now :=
        ⟨not_not.mp hpublic, Bool.eq_false_iff.mpr hfalse, hexpiry⟩
      split
      next message herror =>
        refine ⟨fun _ => rfl, fun haccepted => ?_⟩
        rw [unexpired_iff.mpr haccepted.expiresAt] at herror
        cases herror
      next hexpired =>
        refine ⟨fun _ => rfl, fun haccepted => ?_⟩
        rw [unexpired_iff.mpr haccepted.expiresAt] at hexpired
        simp at hexpired
      next hok =>
        exact ⟨fun hnot => absurd (haccepted (unexpired_iff.mp hok)) hnot, fun _ => ⟨_, rfl, hhash⟩⟩

/-- A verification that runs alone ends, and succeeds for the pair of an accepted key. -/
theorem alone_of_stored (hbcrypt : bcrypt.Exact) (h : Stored bcrypt c deleted secret)
    (publicKey secretKey : String) (late : Bool) (now now' now'' : Now) : ∃ success,
      (Request.verifying publicKey secretKey late).alone bcrypt [now, now', now''] (some secret) =
          some success ∧
        (success = true ↔ Accepted c deleted publicKey now ∧ c.secretKey = secretKey) := by
  obtain ⟨hnone, hsome⟩ := getApiKeyByPublicKey_of_stored h publicKey now
  by_cases haccepted : Accepted c deleted publicKey now
  · obtain ⟨data, hdata, hhash⟩ := hsome haccepted
    by_cases hsecretKey : secretKey = c.secretKey
    · have hcheck : bcrypt.checkpw secretKey data.secretKeyHash = true := by
        rw [hhash]
        exact (hbcrypt _ _ _).mpr hsecretKey
      refine ⟨true, ?_, fun _ => ⟨haccepted, hsecretKey.symm⟩, fun _ => rfl⟩
      simp [Request.alone, Request.proceed, hdata, hcheck, KeyPatch.apply]
    · have hcheck : ¬ bcrypt.checkpw secretKey data.secretKeyHash = true := by
        rw [hhash]
        exact fun heq => hsecretKey ((hbcrypt _ _ _).mp heq)
      refine ⟨false, ?_, fun htrue => ?_, fun hvalid => absurd hvalid.2.symm hsecretKey⟩
      · simp [Request.alone, Request.proceed, hdata, hcheck]
      · cases htrue
  · refine ⟨false, ?_, fun htrue => ?_, fun hvalid => absurd hvalid.1 haccepted⟩
    · simp [Request.alone, Request.proceed, hnone haccepted]
    · cases htrue

end

/-! ### The invariant -/

/-- A patch in flight is not newer than the Secret; at its version it was made from it. -/
def Based (json : KeySecret → DateTime → ApiKeyJson) (patch : KeyPatch) (secret : Option KeySecret) :
    Prop :=
  ∃ stored, secret = some stored ∧ patch.resourceVersion ≤ stored.resourceVersion ∧
    (patch.resourceVersion = stored.resourceVersion → ∃ now, patch.apiKeyJson = json stored now)

/-- What a request in flight knows of the Secret. -/
def Fits (s : KeyState) : Request → Prop
  | .creating _ => True
  | .verifying _ _ late => late = true → s.deleted = true
  | .usingKey late => late = false
  | .patchingUse late patch =>
    late = false ∧ patch.stringData = [] ∧ Based KeySecret.usedJson patch s.secret
  | .deleting _ => True
  | .patchingDeletion patch =>
    patch.stringData = [("is_active", "false")] ∧ Based KeySecret.deletedJson patch s.secret

structure KeyInvariant (bcrypt : Bcrypt) (s : KeyState) : Prop where
  absent : s.secret = none → s.created = none ∧ s.deleted = false
  stored : ∀ secret, s.secret = some secret →
    ∃ c, s.created = some c ∧ Stored bcrypt c s.deleted secret
  revoked : s.revoked = true → s.deleted = true
  fits : ∀ i request, s.requests i = some request → Fits s request
  verified : RevocationFinal s

/-- The Secret stays, or it is replaced by a newer one. -/
def Grows (old new : Option KeySecret) : Prop :=
  ∀ secret, old = some secret → ∃ secret', new = some secret' ∧
    (secret' = secret ∨ secret.resourceVersion < secret'.resourceVersion)

theorem Based.mono {json : KeySecret → DateTime → ApiKeyJson} {patch : KeyPatch}
    {old new : Option KeySecret} (h : Based json patch old) (hgrows : Grows old new) :
    Based json patch new := by
  obtain ⟨stored, hold, hle, hjson⟩ := h
  obtain ⟨stored', hnew, rfl | hlt⟩ := hgrows stored hold
  · exact ⟨stored', hnew, hle, hjson⟩
  · exact ⟨stored', hnew, by omega, fun heq => by omega⟩

theorem Fits.mono {s t : KeyState} {request : Request} (h : Fits s request)
    (hgrows : Grows s.secret t.secret) (hdeleted : s.deleted = true → t.deleted = true) :
    Fits t request := by
  cases request with
  | creating creation => trivial
  | verifying publicKey secretKey late => exact fun hlate => hdeleted (h hlate)
  | usingKey late => exact h
  | patchingUse late patch => exact ⟨h.1, h.2.1, h.2.2.mono hgrows⟩
  | deleting createdBy => trivial
  | patchingDeletion patch => exact ⟨h.1, h.2.mono hgrows⟩

/-- What a step does to the Secret. -/
inductive Effect (bcrypt : Bcrypt) (s : KeyState) (o : Outcome) : Prop
  | kept (hsecret : o.secret = s.secret) (hcreated : o.created = none) (hdeleted : o.deleted = false)
    (hrevoked : o.revoked = false)
  | created (c : Creation) (hnone : s.secret = none) (hsecret : o.secret = some (c.secret bcrypt))
    (hcreated : o.created = some c) (hdeleted : o.deleted = false) (hrevoked : o.revoked = false)
  | used (old : KeySecret) (now : DateTime) (hold : s.secret = some old)
    (hsecret : o.secret = some { old with
      resourceVersion := old.resourceVersion + 1, apiKeyJson := some (old.usedJson now) })
    (hcreated : o.created = none) (hdeleted : o.deleted = false) (hrevoked : o.revoked = false)
  | marked (old : KeySecret) (now : DateTime) (hold : s.secret = some old)
    (hsecret : o.secret = some { old with
      resourceVersion := old.resourceVersion + 1
      apiKeyJson := some (old.deletedJson now)
      data := put Prod.fst ("is_active", "false") old.data })
    (hcreated : o.created = none) (hdeleted : o.deleted = true)

section

variable {bcrypt : Bcrypt} {s t : KeyState} {request : Request} {i : ℕ}

/-- A patch that is not rejected was made from the Secret that it finds. -/
theorem apply_of_based {json : KeySecret → DateTime → ApiKeyJson} {patch : KeyPatch}
    {patched : KeySecret} (h : Based json patch s.secret) (answer : ApiAnswer)
    (hpatched : (if answer = .failed then none else s.secret.bind patch.apply) = some patched) :
    ∃ old now, s.secret = some old ∧ patched = { old with
      resourceVersion := old.resourceVersion + 1
      apiKeyJson := some (json old now)
      data := patch.stringData.foldl (fun data entry => put Prod.fst entry data) old.data } := by
  obtain ⟨old, hold, -, hjson⟩ := h
  split at hpatched
  next => cases hpatched
  rw [hold, Option.bind_some, KeyPatch.apply] at hpatched
  split at hpatched
  next hversion =>
    obtain ⟨now, hnow⟩ := hjson hversion
    obtain rfl := Option.some.inj hpatched
    exact ⟨old, now, hold, by rw [hnow]⟩
  next => cases hpatched

theorem effect_of_proceed (bcrypt : Bcrypt) (answer : ApiAnswer) (now : Now) (hfits : Fits s request) :
    Effect bcrypt s (request.proceed bcrypt answer now s.secret) := by
  cases request with
  | creating creation =>
    rw [Request.proceed]
    split
    next => exact .kept rfl rfl rfl rfl
    next hnot =>
      have hnone : s.secret = none := by
        cases hsecret : s.secret with
        | none => rfl
        | some secret => simp [hsecret] at hnot
      exact .created creation hnone rfl rfl rfl rfl
  | verifying publicKey secretKey late =>
    rw [Request.proceed]
    split
    next => exact .kept rfl rfl rfl rfl
    next =>
      split
      next => exact .kept rfl rfl rfl rfl
      next => exact .kept rfl rfl rfl rfl
  | usingKey late =>
    rw [Request.proceed]
    split
    next => exact .kept rfl rfl rfl rfl
    next => exact .kept rfl rfl rfl rfl
  | patchingUse late patch =>
    rw [Request.proceed]
    split
    next => exact .kept rfl rfl rfl rfl
    next patched hpatched =>
      obtain ⟨-, hdata, hbased⟩ := hfits
      obtain ⟨old, now, hold, hnew⟩ := apply_of_based hbased answer hpatched
      refine .used old now hold ?_ rfl rfl rfl
      rw [hnew, hdata]
      rfl
  | deleting createdBy =>
    rw [Request.proceed]
    split
    next => exact .kept rfl rfl rfl rfl
    next =>
      split
      next => exact .kept rfl rfl rfl rfl
      next => exact .kept rfl rfl rfl rfl
  | patchingDeletion patch =>
    rw [Request.proceed]
    split
    next => exact .kept rfl rfl rfl rfl
    next patched hpatched =>
      obtain ⟨hdata, hbased⟩ := hfits
      obtain ⟨old, now, hold, hnew⟩ := apply_of_based hbased answer hpatched
      refine .marked old now hold ?_ rfl rfl
      rw [hnew, hdata]
      rfl

theorem Effect.grows {o : Outcome} (h : Effect bcrypt s o) : Grows s.secret o.secret := by
  intro secret hsecret
  cases h with
  | kept hkept => exact ⟨secret, hkept.trans hsecret, .inl rfl⟩
  | created c hnone =>
    rw [hnone] at hsecret
    cases hsecret
  | used old now hold hnew =>
    obtain rfl := Option.some.inj (hold.symm.trans hsecret)
    exact ⟨_, hnew, .inr (Nat.lt_succ_self _)⟩
  | marked old now hold hnew =>
    obtain rfl := Option.some.inj (hold.symm.trans hsecret)
    exact ⟨_, hnew, .inr (Nat.lt_succ_self _)⟩

/-- A request that goes on fits, and a verification that succeeds is not late. -/
def Sound (s : KeyState) (o : Outcome) : Prop :=
  (∀ next, o.request = some next → Fits s next) ∧ ∀ late, o.verified = some late → late = false

theorem sound_of_ended {o : Outcome} (hrequest : o.request = none)
    (hverified : ∀ late, o.verified = some late → late = false) : Sound s o := by
  refine ⟨fun next hnext => ?_, hverified⟩
  rw [hrequest] at hnext
  cases hnext

theorem sound_of_fits {o : Outcome} {next : Request} (hrequest : o.request = some next)
    (hverified : o.verified = none) (h : Fits s next) : Sound s o := by
  refine ⟨fun next' hnext => ?_, fun late hlate => ?_⟩
  · obtain rfl := Option.some.inj (hrequest.symm.trans hnext)
    exact h
  · rw [hverified] at hlate
    cases hlate

/-- A verification that finds a key had not started after a deletion. -/
theorem not_late_of_found (hs : KeyInvariant bcrypt s) {answer : ApiAnswer} {now : Now}
    {publicKey secretKey : String} {late : Bool} {data : ApiKeyData}
    (hfits : Fits s (.verifying publicKey secretKey late))
    (h : (if answer = .ok then getApiKeyByPublicKey now publicKey none s.secret else none) = some data) :
    late = false := by
  apply Bool.eq_false_iff.mpr
  intro hlate
  split at h
  next =>
    cases hsecret : s.secret with
    | none =>
      rw [hsecret] at h
      cases h
    | some secret =>
      obtain ⟨c, -, hstored⟩ := hs.stored secret hsecret
      have hnone := (getApiKeyByPublicKey_of_stored hstored publicKey now).1 (by
        intro haccepted
        simpa [hfits hlate] using haccepted.deleted)
      rw [hsecret, hnone] at h
      cases h
  next => cases h

theorem sound_of_proceed (hs : KeyInvariant bcrypt s) (answer : ApiAnswer) (now : Now)
    (hfits : Fits s request) : Sound s (request.proceed bcrypt answer now s.secret) := by
  have hread {read : KeySecret} (h : (if answer = .ok then s.secret else none) = some read) :
      s.secret = some read := by
    split at h
    next => exact h
    next => cases h
  cases request with
  | creating creation =>
    rw [Request.proceed]
    split
    next => exact sound_of_ended rfl nofun
    next => exact sound_of_ended rfl nofun
  | verifying publicKey secretKey late =>
    rw [Request.proceed]
    split
    next => exact sound_of_ended rfl nofun
    next data hdata =>
      split
      next => exact sound_of_fits rfl rfl (not_late_of_found hs hfits hdata)
      next => exact sound_of_ended rfl nofun
  | usingKey late =>
    rw [Request.proceed]
    split
    next => exact sound_of_ended rfl fun late' hlate => Option.some.inj hlate ▸ hfits
    next read h =>
      exact sound_of_fits rfl rfl ⟨hfits, rfl, read, hread h, Nat.le_refl _, fun _ => ⟨now, rfl⟩⟩
  | patchingUse late patch =>
    rw [Request.proceed]
    split
    next => exact sound_of_ended rfl fun late' hlate => Option.some.inj hlate ▸ hfits.1
    next => exact sound_of_ended rfl fun late' hlate => Option.some.inj hlate ▸ hfits.1
  | deleting createdBy =>
    rw [Request.proceed]
    split
    next => exact sound_of_ended rfl nofun
    next read h =>
      split
      next => exact sound_of_ended rfl nofun
      next => exact sound_of_fits rfl rfl ⟨rfl, read, hread h, Nat.le_refl _, fun _ => ⟨now, rfl⟩⟩
  | patchingDeletion patch =>
    rw [Request.proceed]
    split
    next => exact sound_of_ended rfl nofun
    next => exact sound_of_ended rfl nofun

/-! ### Every run -/

theorem of_update {requests : ℕ → Option Request} {new : Option Request} {j : ℕ}
    (h : Function.update requests i new j = some request) :
    new = some request ∨ requests j = some request := by
  by_cases hj : j = i
  · subst hj
    rw [Function.update_self] at h
    exact .inl h
  · rw [Function.update_of_ne hj] at h
    exact .inr h

theorem invariant_after {o : Outcome} (hs : KeyInvariant bcrypt s) (heffect : Effect bcrypt s o)
    (hsound : Sound s o) : KeyInvariant bcrypt (s.after i o) := by
  have hdeleted : s.deleted = true → (s.after i o).deleted = true := by
    intro h
    rw [KeyState.after, h, Bool.or_true]
  have hmono {request : Request} (h : Fits s request) : Fits (s.after i o) request :=
    h.mono heffect.grows hdeleted
  have hfits : ∀ j request, (s.after i o).requests j = some request →
      Fits (s.after i o) request := by
    intro j request hrequest
    obtain hnew | hold := of_update hrequest
    · exact hmono (hsound.1 request hnew)
    · exact hmono (hs.fits j request hold)
  have hverified : RevocationFinal (s.after i o) := by
    intro late hlate
    obtain hold | hnew := List.mem_append.mp hlate
    · exact hs.verified late hold
    · exact hsound.2 late (Option.mem_toList.mp hnew)
  cases heffect with
  | kept hsecret hcreated hdeleted hrevoked =>
    refine ⟨?_, ?_, ?_, hfits, hverified⟩
    · simp only [KeyState.after, hsecret, hcreated, hdeleted, Option.none_or, Bool.false_or]
      exact hs.absent
    · simp only [KeyState.after, hsecret, hcreated, hdeleted, Option.none_or, Bool.false_or]
      exact hs.stored
    · simp only [KeyState.after, hrevoked, hdeleted, Bool.false_or]
      exact hs.revoked
  | created c hnone hsecret hcreated hdeleted hrevoked =>
    have hlive := (hs.absent hnone).2
    refine ⟨?_, ?_, ?_, hfits, hverified⟩
    · intro habsent
      rw [KeyState.after, hsecret] at habsent
      cases habsent
    · intro secret hnew
      rw [KeyState.after, hsecret] at hnew
      obtain rfl := Option.some.inj hnew
      simp only [KeyState.after, hcreated, hdeleted, Option.some_or, Bool.false_or, hlive]
      exact ⟨c, rfl, stored_creation c⟩
    · simp only [KeyState.after, hrevoked, hdeleted, Bool.false_or]
      exact hs.revoked
  | used old now hold hsecret hcreated hdeleted hrevoked =>
    refine ⟨?_, ?_, ?_, hfits, hverified⟩
    · intro habsent
      rw [KeyState.after, hsecret] at habsent
      cases habsent
    · intro secret hnew
      rw [KeyState.after, hsecret] at hnew
      obtain rfl := Option.some.inj hnew
      simp only [KeyState.after, hcreated, hdeleted, Option.none_or, Bool.false_or]
      obtain ⟨c, hc, hstored⟩ := hs.stored old hold
      exact ⟨c, hc, hstored.used now _⟩
    · simp only [KeyState.after, hrevoked, hdeleted, Bool.false_or]
      exact hs.revoked
  | marked old now hold hsecret hcreated hmarked =>
    refine ⟨?_, ?_, ?_, hfits, hverified⟩
    · intro habsent
      rw [KeyState.after, hsecret] at habsent
      cases habsent
    · intro secret hnew
      rw [KeyState.after, hsecret] at hnew
      obtain rfl := Option.some.inj hnew
      simp only [KeyState.after, hcreated, hmarked, Option.none_or, Bool.true_or]
      obtain ⟨c, hc, hstored⟩ := hs.stored old hold
      exact ⟨c, hc, hstored.marked now _⟩
    · intro _
      rw [KeyState.after, hmarked, Bool.true_or]

theorem fits_arrival (hs : KeyInvariant bcrypt s) (arrival : Arrival) :
    Fits s (s.arrival arrival) := by
  cases arrival with
  | create creation => trivial
  | verify publicKey secretKey => exact hs.revoked
  | delete createdBy => trivial

theorem invariant_step {a : KeyAction} (hs : KeyInvariant bcrypt s)
    (h : (keyMachine bcrypt).step s a = some t) : KeyInvariant bcrypt t := by
  cases a with
  | arrive arrival =>
    obtain rfl := Option.some.inj h
    refine ⟨hs.absent, hs.stored, hs.revoked, fun j request hrequest => ?_, hs.verified⟩
    apply Fits.mono (s := s) ?_ (fun secret hsecret => ⟨secret, hsecret, .inl rfl⟩) id
    obtain hnew | hold := of_update hrequest
    · obtain rfl := Option.some.inj hnew
      exact fits_arrival hs arrival
    · exact hs.fits j request hold
  | proceed i answer now =>
    obtain ⟨request, hrequest, rfl⟩ := Option.map_eq_some_iff.mp h
    have hfits := hs.fits i request hrequest
    exact invariant_after hs (effect_of_proceed bcrypt answer now hfits)
      (sound_of_proceed hs answer now hfits)
  | abort i =>
    obtain rfl := Option.some.inj h
    refine ⟨hs.absent, hs.stored, hs.revoked, fun j request hrequest => ?_, hs.verified⟩
    apply Fits.mono (s := s) ?_ (fun secret hsecret => ⟨secret, hsecret, .inl rfl⟩) id
    obtain hnew | hold := of_update hrequest
    · cases hnew
    · exact hs.fits j request hold

theorem invariant_of_reachable (h : (keyMachine bcrypt).Reachable Machine.always s) :
    KeyInvariant bcrypt s := by
  refine h.invariant ?_ fun _ _ _ hs _ hstep => invariant_step hs hstep
  rintro s rfl
  refine ⟨fun _ => ⟨rfl, rfl⟩, fun secret hsecret => ?_, fun hrevoked => ?_, fun i request hrequest => ?_,
    fun late hlate => ?_⟩
  · cases hsecret
  · cases hrevoked
  · cases hrequest
  · cases hlate

/-! ### Revocation and verification -/

/-- A step of a verification leaves what is recorded. -/
def RecordKept (bcrypt : Bcrypt) (s : KeyState) : Prop :=
  ∀ i request answer now t, s.requests i = some request → request.isVerification = true →
    (keyMachine bcrypt).step s (.proceed i answer now) = some t →
      t.secret.map KeySecret.recorded = s.secret.map KeySecret.recorded

/-- The recorded expiry has a zone, or the key has none or is deleted. -/
def Zoned (s : KeyState) : Prop :=
  ∀ c, s.created = some c → s.deleted = true ∨ ∀ t ∈ c.expiresAt, t.zone.isSome = true

theorem marks_of_verification (bcrypt : Bcrypt) (s : KeyState) (answer : ApiAnswer) (now : Now)
    (h : request.isVerification = true) :
    (request.proceed bcrypt answer now s.secret).created = none ∧
      (request.proceed bcrypt answer now s.secret).deleted = false := by
  cases request with
  | creating creation => cases h
  | verifying publicKey secretKey late =>
    rw [Request.proceed]
    split
    next => exact ⟨rfl, rfl⟩
    next => split <;> exact ⟨rfl, rfl⟩
  | usingKey late =>
    rw [Request.proceed]
    split <;> exact ⟨rfl, rfl⟩
  | patchingUse late patch =>
    rw [Request.proceed]
    split <;> exact ⟨rfl, rfl⟩
  | deleting createdBy => cases h
  | patchingDeletion patch => cases h

theorem recordKept_of_invariant (hs : KeyInvariant bcrypt s) : RecordKept bcrypt s := by
  intro i request answer now t hrequest hverification h
  obtain ⟨request', hrequest', rfl⟩ := Option.map_eq_some_iff.mp h
  obtain rfl := Option.some.inj (hrequest.symm.trans hrequest')
  obtain ⟨hcreated, hdeleted⟩ := marks_of_verification bcrypt s answer now hverification
  cases effect_of_proceed bcrypt answer now (hs.fits i request hrequest) with
  | kept hsecret => rw [KeyState.after, hsecret]
  | created c _ _ hc =>
    rw [hcreated] at hc
    cases hc
  | used old now' hold hsecret =>
    obtain ⟨c, -, hstored⟩ := hs.stored old hold
    rw [KeyState.after, hsecret, hold, Option.map_some, Option.map_some, hstored.recorded_used]
  | marked old now' _ _ _ hmarked =>
    rw [hdeleted] at hmarked
    cases hmarked

theorem valid_iff {c : Creation} (hc : s.created = some c) {publicKey secretKey : String} {now : Now} :
    s.Valid publicKey secretKey now ↔ c.publicKey = publicKey ∧ c.secretKey = secretKey ∧
      s.deleted = false ∧ ∀ t ∈ c.expiresAt, ¬ t.instant < now.1.instant := by
  constructor
  · rintro ⟨c', hc', h⟩
    obtain rfl := Option.some.inj (hc.symm.trans hc')
    exact h
  · exact fun h => ⟨c, hc, h⟩

/-- A naive time is an instant that the clock may show. -/
def inUtc (t : DateTime) : Now := ⟨⟨t.clock, some .utc, t.bounds⟩, rfl⟩

theorem instant_inUtc {t : DateTime} (h : t.zone = none) : (inUtc t).1.instant = t.instant := by
  rw [DateTime.instant, DateTime.instant, h]
  rfl

theorem verificationExact_iff (hbcrypt : bcrypt.Exact) (hs : KeyInvariant bcrypt s) :
    VerificationExact bcrypt s ↔ Zoned s := by
  constructor
  · intro hexact c hc
    cases hsecret : s.secret with
    | none =>
      rw [(hs.absent hsecret).1] at hc
      cases hc
    | some secret =>
      obtain ⟨c', hc', hstored⟩ := hs.stored secret hsecret
      obtain rfl := Option.some.inj (hc.symm.trans hc')
      cases hdeleted : s.deleted with
      | true => exact .inl rfl
      | false =>
        refine .inr fun t ht => ?_
        cases hzone : t.zone with
        | some zone => rfl
        | none =>
          -- At the expiry itself the pair is still valid, and no verification accepts it.
          obtain ⟨success, halone, hsuccess⟩ :=
            hexact c.publicKey c.secretKey (inUtc t) (inUtc t) (inUtc t)
          obtain ⟨success', halone', hsuccess'⟩ := alone_of_stored hbcrypt hstored c.publicKey
            c.secretKey s.revoked (inUtc t) (inUtc t) (inUtc t)
          rw [hsecret, halone'] at halone
          obtain rfl := Option.some.inj halone
          have hvalid : s.Valid c.publicKey c.secretKey (inUtc t) := by
            refine (valid_iff hc).mpr ⟨rfl, rfl, hdeleted, fun u hu => ?_⟩
            obtain rfl := Option.some.inj (ht.symm.trans hu)
            rw [instant_inUtc hzone]
            exact Int.lt_irrefl _
          have haware := ((hsuccess'.mp (hsuccess.mpr hvalid)).1.expiresAt t ht).1
          rw [hzone] at haware
          cases haware
  · intro hzoned publicKey secretKey now now' now''
    cases hsecret : s.secret with
    | none =>
      refine ⟨false, rfl, nofun, ?_⟩
      rintro ⟨c, hc, -⟩
      rw [(hs.absent hsecret).1] at hc
      cases hc
    | some secret =>
      obtain ⟨c, hc, hstored⟩ := hs.stored secret hsecret
      obtain ⟨success, halone, hsuccess⟩ :=
        alone_of_stored hbcrypt hstored publicKey secretKey s.revoked now now' now''
      refine ⟨success, halone, hsuccess.trans ?_⟩
      rw [valid_iff hc]
      constructor
      · rintro ⟨haccepted, hsecretKey⟩
        exact ⟨haccepted.publicKey, hsecretKey, haccepted.deleted,
          fun t ht => (haccepted.expiresAt t ht).2⟩
      · rintro ⟨hpublicKey, hsecretKey, hdeleted, hexpiry⟩
        refine ⟨⟨hpublicKey, hdeleted, fun t ht => ⟨?_, hexpiry t ht⟩⟩, hsecretKey⟩
        obtain hmarked | hzone := hzoned c hc
        · rw [hdeleted] at hmarked
          cases hmarked
        · exact hzone t ht

end

/-! ### A key whose expiry has no zone -/

/-- Hashes that are the keys themselves. -/
def plain : Bcrypt where
  hashpw secretKey _ := secretKey
  checkpw secretKey hashed := secretKey = hashed

theorem plain_exact : plain.Exact := fun _ _ _ => decide_eq_true_iff

/-- The start of a year. -/
def newYear (year : ℕ) (zone : Option Zone)
    (h : yearStart 1 * microsecondsPerSecond ≤ yearStart year * microsecondsPerSecond ∧
      yearStart year * microsecondsPerSecond < yearStart 10000 * microsecondsPerSecond) : DateTime :=
  ⟨yearStart year * microsecondsPerSecond, zone, h⟩

def today : Now := ⟨newYear 2025 (some .utc) (by decide +kernel), rfl⟩

/-- A key that expires with the year 2099, on a clock without a zone. -/
def naiveKey : Creation where
  publicKey := "pk-ark-a"
  secretKey := "sk-ark-a"
  salt := ""
  name := "key"
  createdAt := today
  expiresAt := some (newYear 2100 none (by decide +kernel))
  createdBy := none

def naiveRun : List KeyAction := [.arrive (.create naiveKey), .proceed 0 .ok today]

end Ark.ApiKeys
