import Ark.CivilTime
import Ark.KeyedTable

/-!
# The Secret of an access token

A `TokenSecretReference` names a Secret and the keys in it that hold OAuth state. The controller reads
the token and its expiry with `resolveAuthorizationMaterial` and writes a minted token with
`applyTokenData`. What it writes is what it reads: the token, and the expiry cut off at the second.
Instants are counted in nanoseconds.
-/

namespace Ark.MCP

open KeyedTable CivilTime

structure TokenSecretReference where
  name : String
  accessTokenKey : String := ""
  refreshTokenKey : String := ""
  expiresAtKey : String := ""
  clientIDKey : String := ""
  clientSecretKey : String := ""
  deriving DecidableEq

def defaultAccessTokenKey : String := "access_token"

def defaultRefreshTokenKey : String := "refresh_token"

def defaultExpiresAtKey : String := "expires_at"

def defaultClientIDKey : String := "client_id"

def defaultClientSecretKey : String := "client_secret"

def resolvedKey (key fallback : String) : String := if key = "" then fallback else key

namespace TokenSecretReference

variable (ref : TokenSecretReference)

def resolvedAccessTokenKey : String := resolvedKey ref.accessTokenKey defaultAccessTokenKey

def resolvedExpiresAtKey : String := resolvedKey ref.expiresAtKey defaultExpiresAtKey

end TokenSecretReference

/-- `Data` of a Secret. -/
abbrev SecretData := List (String × String)

def SecretData.get (data : SecretData) (key : String) : Option String :=
  (find Prod.fst key data).map Prod.snd

/-! ### White space -/

/-- `unicode.IsSpace`. -/
def isSpace (c : Char) : Bool :=
  [9, 10, 11, 12, 13, 32, 133, 160, 5760, 8232, 8233, 8239, 8287, 12288].contains c.toNat ||
    (8192 ≤ c.toNat && c.toNat ≤ 8202)

/-- `strings.TrimSpace`. -/
def trimSpace (s : String) : String :=
  String.ofList ((s.toList.dropWhile isSpace).reverse.dropWhile isSpace).reverse

/-! ### Reading -/

structure AuthorizationMaterial where
  accessToken : String := ""
  expiresAt : Option Int := none
  secretMissing : Bool := false
  deriving DecidableEq

def missingOverriddenKeyWarnings (data : SecretData) (ref : TokenSecretReference) : List String :=
  let overrides : List (String × String × String) :=
    [("accessTokenKey", ref.accessTokenKey, defaultAccessTokenKey),
      ("refreshTokenKey", ref.refreshTokenKey, defaultRefreshTokenKey),
      ("expiresAtKey", ref.expiresAtKey, defaultExpiresAtKey),
      ("clientIDKey", ref.clientIDKey, defaultClientIDKey),
      ("clientSecretKey", ref.clientSecretKey, defaultClientSecretKey)]
  overrides.filterMap fun (fieldName, value, fallback) =>
    if value = "" || value = fallback || (data.get value).isSome then none
    else some s!"Secret \"{ref.name}\" has no key \"{value}\" — spec.authorization.tokenSecretRef.{fieldName} was overridden"

/-- The instant that an expiry names; one that cannot be read is left out. -/
def parseExpiry (raw : String) : Option Int :=
  if raw = "" then none else parseRFC3339 (trimSpace raw).toList

/-- What the Secret holds, `none` where it does not exist. -/
def resolveAuthorizationMaterial (serverNamespace : String) (ref : TokenSecretReference) :
    Option SecretData → AuthorizationMaterial × List String
  | none =>
    ({ secretMissing := true },
      [s!"Secret \"{ref.name}\" not found in namespace \"{serverNamespace}\" — referenced by spec.authorization.tokenSecretRef.name"])
  | some data =>
    ({ accessToken := ((data.get ref.resolvedAccessTokenKey).map trimSpace).getD ""
       expiresAt := (data.get ref.resolvedExpiresAtKey).bind parseExpiry },
      missingOverriddenKeyWarnings data ref)

/-! ### Writing -/

def nanosecondsPerSecond : Int := 1000000000

/-- `expiresAt.UTC().Format(time.RFC3339)`. -/
def formatTime (t : Int) : String := String.ofList (formatRFC3339 (t / nanosecondsPerSecond).toNat)

/-- An instant cut off at the second, as a text keeps it. -/
def toSecond (t : Int) : Int := t / nanosecondsPerSecond * nanosecondsPerSecond

def applyTokenData (accessKey expiresKey accessToken : String) (expiresAt : Option Int)
    (data : SecretData) : SecretData :=
  let data := put Prod.fst (accessKey, accessToken) data
  match expiresAt with
  | some t => put Prod.fst (expiresKey, formatTime t) data
  | none => remove Prod.fst expiresKey data

/-! ### What is written is read -/

namespace SecretData

variable {data : SecretData} {key key' value : String}

theorem get_put : SecretData.get (put Prod.fst (key, value) data) key' =
    if key' = key then some value else data.get key' := by
  rw [SecretData.get, find_put]
  split
  next => rfl
  next => rfl

theorem get_remove : SecretData.get (remove Prod.fst key data) key' =
    if key' = key then none else data.get key' := by
  rw [SecretData.get]
  split
  next h => rw [h, find_remove_self, Option.map_none]
  next h => rw [find_remove_of_ne h, SecretData.get]

end SecretData

section

variable {accessKey expiresKey accessToken : String} {expiresAt : Option Int} {data : SecretData}

/-- A mint writes its two keys and no other. -/
theorem get_applyTokenData {key : String} :
    (applyTokenData accessKey expiresKey accessToken expiresAt data).get key =
      if key = expiresKey then expiresAt.map formatTime
      else if key = accessKey then some accessToken else data.get key := by
  unfold applyTokenData
  cases expiresAt with
  | none => rw [SecretData.get_remove, SecretData.get_put, Option.map_none]
  | some t => rw [SecretData.get_put, SecretData.get_put, Option.map_some]

theorem get_applyTokenData_of_ne {key : String} (haccess : key ≠ accessKey)
    (hexpires : key ≠ expiresKey) :
    (applyTokenData accessKey expiresKey accessToken expiresAt data).get key = data.get key := by
  rw [get_applyTokenData, if_neg hexpires, if_neg haccess]

/-- An instant from the year 0 to the end of the year 9999. -/
def Writable (t : Int) : Prop := 0 ≤ t ∧ t < yearStart 10000 * nanosecondsPerSecond

theorem isSpace_of_isDigit {c : Char} (h : c.isDigit = true) : isSpace c = false := by
  have hrange : 48 ≤ c.toNat ∧ c.toNat ≤ 57 := by
    simp only [Char.isDigit, Bool.and_eq_true, decide_eq_true_eq] at h
    exact ⟨h.1, h.2⟩
  simp only [isSpace, List.contains_eq_mem, List.mem_cons, List.not_mem_nil, or_false,
    Bool.or_eq_false_iff, decide_eq_false_iff_not, Bool.and_eq_false_iff]
  omega

theorem trimSpace_of_forall {cs : List Char} (h : ∀ c ∈ cs, isSpace c = false) :
    trimSpace (String.ofList cs) = String.ofList cs := by
  have hdrop {cs : List Char} (h : ∀ c ∈ cs, isSpace c = false) : cs.dropWhile isSpace = cs := by
    cases cs with
    | nil => rfl
    | cons c cs => exact List.dropWhile_cons_of_neg (by simp [h c List.mem_cons_self])
  rw [trimSpace, String.toList_ofList, hdrop h,
    hdrop fun c hc => h c (List.mem_reverse.mp hc), List.reverse_reverse]

theorem trimSpace_formatTime (t : Int) : trimSpace (formatTime t) = formatTime t := by
  apply trimSpace_of_forall
  intro c hc
  obtain hdigit | hother := mem_formatRFC3339 hc
  · exact isSpace_of_isDigit hdigit
  · simp only [List.mem_cons, List.not_mem_nil, or_false] at hother
    obtain rfl | rfl | rfl | rfl := hother <;> rfl

theorem parseExpiry_formatTime {t : Int} (h : Writable t) :
    parseExpiry (formatTime t) = some (toSecond t) := by
  have hne : formatTime t ≠ "" := by
    intro heq
    have hnil : formatRFC3339 (t / nanosecondsPerSecond).toNat = [] := by
      have hlist := congrArg String.toList heq
      rwa [formatTime, String.toList_ofList] at hlist
    exact formatRFC3339_ne_nil _ hnil
  obtain ⟨hfrom, hto⟩ := h
  have hseconds : (t / nanosecondsPerSecond).toNat < yearStart 10000 := by
    rw [nanosecondsPerSecond] at hto ⊢
    omega
  rw [parseExpiry, if_neg hne, trimSpace_formatTime, formatTime, String.toList_ofList,
    parse_format hseconds, toSecond]
  rw [nanosecondsPerSecond] at *
  exact congrArg some (by omega)

/-- The next reader of a minted token has the token and its expiry, cut off at the second. -/
theorem resolve_applyTokenData {serverNamespace : String} {ref : TokenSecretReference}
    (hkeys : ref.resolvedAccessTokenKey ≠ ref.resolvedExpiresAtKey)
    (htoken : trimSpace accessToken = accessToken) (hexpiry : ∀ t ∈ expiresAt, Writable t) :
    (resolveAuthorizationMaterial serverNamespace ref (some (applyTokenData ref.resolvedAccessTokenKey
      ref.resolvedExpiresAtKey accessToken expiresAt data))).1 =
      { accessToken := accessToken, expiresAt := expiresAt.map toSecond } := by
  rw [resolveAuthorizationMaterial]
  dsimp only
  rw [get_applyTokenData, get_applyTokenData, if_neg hkeys, if_pos rfl, if_pos rfl, Option.map_some,
    Option.getD_some, htoken]
  cases expiresAt with
  | none => rfl
  | some t => rw [Option.map_some, Option.bind_some, parseExpiry_formatTime (hexpiry t rfl), Option.map_some]

end

end Ark.MCP
