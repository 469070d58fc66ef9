import Ark.ApiKeys
import Ark.Json
import Ark.OrderedRegex

/-!
# The Secret behind a public key

An API key is looked up under a name made from its public key, in lower case and with one hyphen for
every run of hyphens and underscores, so that many public keys share a name. Verification compares the
stored public key and the type of the Secret afterwards. A deletion compares the owner only.
-/

namespace Ark.ApiKeyNames

open CivilTime ApiKeys OrderedRegex

/-! ### The name -/

/-- `lower` of a string and the check of a secret key against its stored hash. -/
structure Library where
  lower : List Char → List Char
  lower_nil : lower [] = []
  checkpw : String → String → Bool

/-- `replace` with the empty string. -/
def withoutPart (part : List Char) : List Char → List Char :=
  replaceAll fun s => if part.isPrefixOf s then some ([], s.drop part.length) else none

/-- `re.sub(r'-+', '-', s)`. -/
def singleHyphens : List Char → List Char :=
  replaceAll fun s => ((Re.plus (· == '-')).first s).map fun m => (['-'], m.2)

def stripHyphens (s : List Char) : List Char :=
  ((s.dropWhile (· == '-')).reverse.dropWhile (· == '-')).reverse

def secretNameFromPublicKey (lib : Library) (publicKey : String) : String :=
  let keyPart := withoutPart "pk-ark-".toList publicKey.toList
  let sanitized := lib.lower (keyPart.map fun c => if c = '_' then '-' else c)
  let sanitized := stripHyphens (singleHyphens sanitized)
  String.ofList ("api-key-".toList ++ sanitized)

/-! ### Secrets -/

/-- A member of a JSON object. -/
inductive Member where
  | null
  | str (text : String)
  | other (value : Json.Value)

/-- The annotation with the metadata, as `json.loads` reads it. -/
inductive Annotation where
  | object (members : List (String × Member))
  | unreadable (text : String)

structure Metadata where
  name : Member
  createdAt : Option DateTime
  expiresAt : Option DateTime
  lastUsedAt : Option DateTime
  deletedAt : Option DateTime
  createdBy : Member

def Member.datetime : Member → Option DateTime
  | str text => parseDatetime (some text)
  | _ => none

def parseApiKeyAnnotation : Annotation → Metadata
  | .unreadable _ => ⟨.str "Unknown", none, none, none, none, .null⟩
  | .object members =>
    let get key := (members.lookup key).getD .null
    { name := (members.lookup "name").getD (.str "Unknown")
      createdAt := (get "createdAt").datetime
      expiresAt := (get "expiresAt").datetime
      lastUsedAt := (get "lastUsedAt").datetime
      deletedAt := (get "deletedAt").datetime
      createdBy := get "createdBy" }

def optionalTime (key : String) (t : Option DateTime) : List (String × Member) :=
  (t.map fun t => (key, Member.str (formatDatetime t))).toList

def createApiKeyAnnotation (name : Member) (createdAt : DateTime)
    (expiresAt lastUsedAt deletedAt : Option DateTime) (createdBy : Member) : Annotation :=
  .object <| [("name", name), ("createdAt", .str (formatDatetime createdAt))] ++
    optionalTime "expiresAt" expiresAt ++ optionalTime "lastUsedAt" lastUsedAt ++
    optionalTime "deletedAt" deletedAt ++
    match createdBy with
    | .null => []
    | createdBy => [("createdBy", createdBy)]

/-- A value of the data is none where its bytes are not UTF-8. -/
structure Secret where
  type : String
  annotation : Option Annotation
  data : List (String × Option String)

namespace Secret

variable (secret : Secret)

def metadata : Metadata := parseApiKeyAnnotation (secret.annotation.getD (.object []))

/-- A decoded value, empty where there is none. -/
def text (key : String) : Option String := (secret.data.lookup key).getD (some "")

/-- The Secret stores this text under `public_key`. -/
def Stores (publicKey : String) : Prop := secret.data.lookup "public_key" = some (some publicKey)

def used (now : DateTime) : Secret :=
  { secret with
    annotation := some <| createApiKeyAnnotation secret.metadata.name
      (secret.metadata.createdAt.getD now) secret.metadata.expiresAt (some now)
      secret.metadata.deletedAt secret.metadata.createdBy }

def deleted (now : DateTime) : Secret :=
  { secret with
    annotation := some <| createApiKeyAnnotation secret.metadata.name
      (secret.metadata.createdAt.getD now) secret.metadata.expiresAt secret.metadata.lastUsedAt
      (some now) secret.metadata.createdBy
    data := KeyedTable.put Prod.fst ("is_active", some "false") secret.data }

def CreatedBy (owner : String) : Prop :=
  match secret.metadata.createdBy with
  | .str createdBy => createdBy = owner
  | _ => False

instance (owner : String) : Decidable (secret.CreatedBy owner) := by
  unfold CreatedBy
  split <;> infer_instance

/-- An API key with this public key, created by this owner if one is given. -/
structure Named (publicKey : String) (owner : Option String) : Prop where
  type : secret.type = apiKeyType
  stores : secret.Stores publicKey
  owner : ∀ o ∈ owner, secret.CreatedBy o

end Secret

/-! ### Namespaces -/

/-- What a name has to be for Kubernetes to accept it. -/
def isDnsName (name : String) : Bool :=
  let alphanumeric (c : Char) := c.isLower || c.isDigit
  name.toList.all (fun c => alphanumeric c || c == '-' || c == '.') &&
    name.toList.head?.any alphanumeric && name.toList.getLast?.any alphanumeric

structure Namespace where
  secret : String → Option Secret
  named : ∀ name, (secret name).isSome → isDnsName name

/-- A patch of a Secret that exists. -/
def Namespace.patch (ns : Namespace) (name : String) (secret : Secret) : Namespace where
  secret := if (ns.secret name).isSome then Function.update ns.secret name (some secret) else ns.secret
  named n h := by
    split_ifs at h with hname
    · by_cases hn : n = name
      · exact hn ▸ ns.named name hname
      · rw [Function.update_of_ne hn] at h
        exact ns.named n h
    · exact ns.named n h

namespace Namespace

variable {ns : Namespace} {name : String} {secret : Secret}

theorem patch_self (h : (ns.secret name).isSome) : (ns.patch name secret).secret name = some secret := by
  unfold patch
  simp [h]

theorem patch_of_ne {n : String} (h : n ≠ name) : (ns.patch name secret).secret n = ns.secret n := by
  unfold patch
  dsimp only
  split_ifs
  · exact Function.update_of_ne h _ _
  · rfl

end Namespace

/-! ### The service -/

/-- How the calls of an operation end: two reads and a patch. -/
structure Answers where
  read : Bool
  again : Bool
  patch : ApiAnswer

structure KeyData where
  name : Member
  publicKey : String
  secretKeyHash : String
  isActive : Bool
  expiresAt : Option DateTime
  secretName : String
  createdBy : Member

/-- A comparison of times may fail. -/
def Metadata.expired (metadata : Metadata) (now : Now) : Option Bool :=
  match metadata.expiresAt with
  | none => some false
  | some expiresAt => (expiresAt.before now).toOption

/-- Every exception ends in `None`. -/
def getApiKeyByPublicKey (lib : Library) (ns : Namespace) (answers : Answers) (now : Now)
    (publicKey : String) (createdBy : Option String) : Option KeyData := do
  let secretName := secretNameFromPublicKey lib publicKey
  let secret ← (if answers.read then ns.secret secretName else none)
  guard (secret.type = apiKeyType)
  let storedPublicKey ← secret.text "public_key"
  let secretKeyHash ← secret.text "secret_key_hash"
  let activeText ← secret.text "is_active"
  let isActive := activeText = "" || activeText = "true"
  let metadata := secret.metadata
  guard (storedPublicKey = publicKey)
  guard (isActive && metadata.deletedAt.isNone)
  let expired ← metadata.expired now
  guard !expired
  guard (∀ owner ∈ createdBy, secret.CreatedBy owner)
  return ⟨metadata.name, publicKey, secretKeyHash, isActive, metadata.expiresAt, secretName,
    metadata.createdBy⟩

/-- The namespace after a patch of this Secret, which a failed call leaves. -/
def patched (ns : Namespace) (answers : Answers) (name : String) (secret : Secret) : Namespace :=
  if answers.patch = .failed then ns else ns.patch name secret

def updateLastUsed (ns : Namespace) (answers : Answers) (now : Now) (secretName : String) :
    Namespace :=
  match (if answers.again then ns.secret secretName else none) with
  | none => ns
  | some secret => patched ns answers secretName (secret.used now)

/-- The result, and the namespace after it. -/
def verifyApiKey (lib : Library) (ns : Namespace) (answers : Answers) (now now' : Now)
    (publicKey secretKey : String) : Option KeyData × Namespace :=
  match getApiKeyByPublicKey lib ns answers now publicKey none with
  | none => (none, ns)
  | some data =>
    if lib.checkpw secretKey data.secretKeyHash then
      (some data, updateLastUsed ns answers now' data.secretName)
    else (none, ns)

def deleteApiKey (lib : Library) (ns : Namespace) (answers : Answers) (now : Now)
    (publicKey : String) (createdBy : Option String) : Bool × Namespace :=
  let secretName := secretNameFromPublicKey lib publicKey
  match (if answers.read then ns.secret secretName else none) with
  | none => (false, ns)
  | some secret =>
    if ∀ owner ∈ createdBy, secret.CreatedBy owner then
      (answers.patch = .ok, patched ns answers secretName (secret.deleted now))
    else (false, ns)

/-! ### Only the named key -/

/-- An operation that succeeds, or that changes a Secret, does so for a key with this name: no other
Secret is changed. -/
def OnlyNamed (publicKey : String) (owner : Option String) (ns : Namespace) (success : Bool)
    (after : Namespace) : Prop :=
  ∃ name, (∀ n ≠ name, after.secret n = ns.secret n) ∧
    ((success = true ∨ after.secret name ≠ ns.secret name) →
      ∃ secret, ns.secret name = some secret ∧ secret.Named publicKey owner)

/-- The Secret that a deletion writes is the named key. One that is written as it was may be another,
where the namespace has the named key too. -/
def DeletesNamed (lib : Library) (ns : Namespace) (answers : Answers) (now : Now)
    (publicKey : String) (owner : Option String) : Prop :=
  ∀ secret, answers.read = true → ns.secret (secretNameFromPublicKey lib publicKey) = some secret →
    (∀ o ∈ owner, secret.CreatedBy o) → answers.patch ≠ .failed →
      secret.Named publicKey owner ∨
        (secret.deleted now = secret ∧
          (answers.patch = .ok →
            ∃ name named, ns.secret name = some named ∧ named.Named publicKey owner))

section

variable {lib : Library} {ns : Namespace} {answers : Answers} {now now' : Now}
  {publicKey secretKey : String} {owner : Option String}

theorem OnlyNamed.unchanged : OnlyNamed publicKey owner ns false ns := by
  refine ⟨"", fun n _ => rfl, ?_⟩
  rintro (h | h)
  · exact absurd h Bool.false_ne_true
  · exact absurd rfl h

theorem patched_of_ne {name n : String} {secret : Secret} (h : n ≠ name) :
    (patched ns answers name secret).secret n = ns.secret n := by
  unfold patched
  split_ifs
  · rfl
  · exact Namespace.patch_of_ne h

theorem patched_self {name : String} {secret read : Secret} (h : ns.secret name = some read)
    (hpatch : answers.patch ≠ .failed) :
    (patched ns answers name secret).secret name = some secret := by
  rw [patched, if_neg hpatch]
  exact Namespace.patch_self (h ▸ rfl)

theorem updateLastUsed_of_ne {name n : String} (h : n ≠ name) :
    (updateLastUsed ns answers now name).secret n = ns.secret n := by
  unfold updateLastUsed
  cases (if answers.again then ns.secret name else none) with
  | none => rfl
  | some secret => exact patched_of_ne h

/-- No key is looked up under the prefix of the names alone. -/
theorem secret_of_empty : ns.secret (secretNameFromPublicKey lib "") = none := by
  by_contra h
  have hname := ns.named _ (Option.ne_none_iff_isSome.mp h)
  have hstart : secretNameFromPublicKey lib "" = "api-key-" := by
    unfold secretNameFromPublicKey
    have hpart : withoutPart "pk-ark-".toList "".toList = [] := by decide +kernel
    rw [hpart]
    dsimp only
    rw [List.map_nil, lib.lower_nil]
    decide +kernel
  rw [hstart] at hname
  exact absurd hname (by decide +kernel)

theorem of_guard {p : Prop} [Decidable p] {u : Unit} (h : (guard p : Option Unit) = some u) : p := by
  by_contra hp
  rw [guard, if_neg hp] at h
  cases h

/-- What a lookup has checked. -/
theorem named_of_get {data : KeyData}
    (h : getApiKeyByPublicKey lib ns answers now publicKey owner = some data) :
    ∃ secret, ns.secret data.secretName = some secret ∧ secret.Named publicKey owner := by
  unfold getApiKeyByPublicKey at h
  dsimp only at h
  obtain ⟨secret, hread, h⟩ := Option.bind_eq_some_iff.mp h
  obtain ⟨_, htype, h⟩ := Option.bind_eq_some_iff.mp h
  obtain ⟨stored, hstored, h⟩ := Option.bind_eq_some_iff.mp h
  obtain ⟨hash, -, h⟩ := Option.bind_eq_some_iff.mp h
  obtain ⟨active, -, h⟩ := Option.bind_eq_some_iff.mp h
  obtain ⟨_, hmatch, h⟩ := Option.bind_eq_some_iff.mp h
  obtain ⟨_, -, h⟩ := Option.bind_eq_some_iff.mp h
  obtain ⟨expired, -, h⟩ := Option.bind_eq_some_iff.mp h
  obtain ⟨_, -, h⟩ := Option.bind_eq_some_iff.mp h
  obtain ⟨_, howner, h⟩ := Option.bind_eq_some_iff.mp h
  obtain rfl := Option.some.inj h
  obtain rfl := of_guard hmatch
  have hname : ns.secret (secretNameFromPublicKey lib stored) = some secret := by
    split_ifs at hread with hok
    exact hread
  refine ⟨secret, hname, of_guard htype, ?_, of_guard howner⟩
  -- an absent key reads as the empty text, under whose name there is no Secret
  unfold Secret.text at hstored
  cases hlookup : secret.data.lookup "public_key" with
  | none =>
    rw [hlookup] at hstored
    obtain rfl := Option.some.inj hstored
    rw [secret_of_empty] at hname
    cases hname
  | some value =>
    rw [hlookup] at hstored
    exact hlookup.trans (congrArg some hstored)

theorem verifyApiKey_onlyNamed :
    OnlyNamed publicKey none ns
      (verifyApiKey lib ns answers now now' publicKey secretKey).1.isSome
      (verifyApiKey lib ns answers now now' publicKey secretKey).2 := by
  unfold verifyApiKey
  cases hget : getApiKeyByPublicKey lib ns answers now publicKey none with
  | none => exact OnlyNamed.unchanged
  | some data =>
    dsimp only
    split_ifs
    · exact ⟨data.secretName, fun n hn => updateLastUsed_of_ne hn, fun _ => named_of_get hget⟩
    · exact OnlyNamed.unchanged

/-- A written Secret is the only one that a patch changes. -/
theorem onlyNamed_patched_iff {name : String} {read secret : Secret} {success : Bool}
    (hread : ns.secret name = some read) (hpatch : answers.patch ≠ .failed) :
    OnlyNamed publicKey owner ns success (patched ns answers name secret) ↔
      read.Named publicKey owner ∨
        (secret = read ∧ (success = true →
          ∃ name named, ns.secret name = some named ∧ named.Named publicKey owner)) := by
  have hself : (patched ns answers name secret).secret name = some secret :=
    patched_self hread hpatch
  constructor
  · rintro ⟨m, hframe, hnamed⟩
    by_cases hsame : secret = read
    · exact Or.inr ⟨hsame, fun hok => ⟨m, hnamed (Or.inl hok)⟩⟩
    · have hchanged : (patched ns answers name secret).secret name ≠ ns.secret name := by
        rw [hself, hread]
        exact fun h => hsame (Option.some.inj h)
      obtain rfl : name = m := by
        by_contra hne
        exact hchanged (hframe name hne)
      obtain ⟨named, hm, hnamed⟩ := hnamed (Or.inr hchanged)
      rw [hread] at hm
      exact Or.inl (Option.some.inj hm ▸ hnamed)
  · rintro (hnamed | ⟨rfl, hnamed⟩)
    · exact ⟨name, fun n hn => patched_of_ne hn, fun _ => ⟨read, hread, hnamed⟩⟩
    · have hsame : ∀ n, (patched ns answers name secret).secret n = ns.secret n := by
        intro n
        by_cases hn : n = name
        · rw [hn, hself, hread]
        · exact patched_of_ne hn
      cases success with
      | false => exact ⟨name, fun n _ => hsame n, by simp [hsame]⟩
      | true =>
        obtain ⟨m, hm⟩ := hnamed rfl
        exact ⟨m, fun n _ => hsame n, fun _ => hm⟩

theorem deleteApiKey_onlyNamed_iff :
    OnlyNamed publicKey owner ns (deleteApiKey lib ns answers now publicKey owner).1
        (deleteApiKey lib ns answers now publicKey owner).2 ↔
      DeletesNamed lib ns answers now publicKey owner := by
  unfold deleteApiKey DeletesNamed
  dsimp only
  cases hread : answers.read with
  | false => simpa using OnlyNamed.unchanged
  | true =>
    cases hsecret : ns.secret (secretNameFromPublicKey lib publicKey) with
    | none => simpa using OnlyNamed.unchanged
    | some secret =>
      rw [if_pos rfl]
      dsimp only
      by_cases howner : ∀ o ∈ owner, secret.CreatedBy o
      · rw [if_pos howner]
        by_cases hpatch : answers.patch = .failed
        · rw [patched, if_pos hpatch]
          simpa [hpatch] using OnlyNamed.unchanged
        · rw [onlyNamed_patched_iff hsecret hpatch, decide_eq_true_iff]
          constructor
          · rintro h _ - ⟨rfl⟩ - -
            exact h
          · intro h
            exact h secret rfl rfl howner hpatch
      · rw [if_neg howner]
        refine iff_of_true OnlyNamed.unchanged ?_
        rintro _ - ⟨rfl⟩ h
        exact absurd h howner

end

/-! ### A key that another name deletes -/

def asciiLibrary : Library where
  lower := List.map Char.toLower
  lower_nil := rfl
  checkpw secretKey hash := secretKey = hash

/-- The Secret of a key with the public key `pk-ark-A_b`. -/
def storedKey : Secret where
  type := apiKeyType
  annotation := none
  data := [("public_key", some "pk-ark-A_b"), ("secret_key_hash", some "hash"),
    ("is_active", some "true")]

def storedKeys : Namespace where
  secret name := if name = "api-key-a-b" then some storedKey else none
  named name h := by
    by_cases hname : name = "api-key-a-b"
    · rw [hname]
      decide +kernel
    · rw [if_neg hname] at h
      cases h

end Ark.ApiKeyNames
