import Ark.KeyedTable
import Ark.UriSegments

/-!
# The proxy to a service

The proxy appends the decoded path to the address of the service as it is, hands the query on as a
dictionary, and returns the decoded body of the answer under all of its headers, which it has read as text
and joined by name. Repeated parameters, paths that mean something else when they are read again, encoded
bodies, repeated cookies and headers beyond ASCII do not survive.
-/

namespace Ark.ServiceProxy

open GoBytes KeyedTable UriSegments

abbrev Text := List Char

/-! ### Requests -/

/-- The methods of the route. -/
inductive Method
  | options
  | get
  | post
  deriving DecidableEq

abbrev Params := List (String × String)

abbrev TextFields := List (String × Text)

/-- A request behind the name of the service: the decoded segments of its path, and its parameters. -/
structure Request where
  method : Method
  segments : List Segment
  nonempty : segments ≠ []
  queryParams : Params
  headers : TextFields
  body : Bytes

/-- The path that the router passes. -/
def Request.path (request : Request) : Text := join request.segments

structure Service where
  serverName : String
  «namespace» : String

/-- An address, and the text after its slash. -/
structure Url where
  origin : String
  path : Text

def Service.url (service : Service) (path : Text) : Url where
  origin := s!"http://{service.serverName}.{service.namespace}.svc.cluster.local"
  path := path

/-- A request as the service reads it. -/
structure Sent where
  method : Method
  origin : String
  segments : List Bytes
  params : Params
  headers : TextFields
  body : Bytes

/-! ### Headers -/

/-- The names are in lower case. -/
abbrev Fields := List (String × Bytes)

def values (fields : Fields) (name : String) : List Bytes :=
  (fields.filter fun f => f.1 = name).map Prod.snd

/-- The values of a repeated header as one. -/
def combined (values : List Bytes) : Bytes := [44, 32].intercalate values

/-- What a client makes of a header: the values of a repeated one are a list, cookies apart. -/
def view (fields : Fields) (name : String) : List Bytes :=
  if name = "set-cookie" then values fields name
  else if values fields name = [] then [] else [combined (values fields name)]

def latin1 (b : Bytes) : Text := b.map fun x => Char.ofNat x.toNat

def encodeLatin1 (t : Text) : Option Bytes :=
  t.mapM fun c => if c.toNat < 256 then some (UInt8.ofNat c.toNat) else none

def ValidUtf8 (b : Bytes) : Prop := ∃ t, b = utf8 t

def AllUtf8 (fields : Fields) : Prop := ∀ f ∈ fields, ValidUtf8 f.2

/-- A client that reads the path of a URL by its syntax, takes `params` for the query, and reads headers
as UTF-8 where they all are, else as ISO-8859-1. -/
structure HttpClient where
  accepts : Url → Bool
  dots : DotRemoval
  query : Text → Option Params → Params
  query_params : ∀ path params, '?' ∉ path → query path (some params) = params
  query_none : ∀ path, '?' ∉ path → query path none = []
  headerText : Fields → Bytes → Text
  headerText_utf8 : ∀ fields t, AllUtf8 fields → headerText fields (utf8 t) = t
  headerText_latin1 : ∀ fields b, ¬AllUtf8 fields → headerText fields b = latin1 b

def HttpClient.request (client : HttpClient) (method : Method) (url : Url) (headers : TextFields)
    (content : Option Bytes) (params : Option Params) : Option Sent :=
  if client.accepts url then
    some
      { method := method
        origin := url.origin
        segments := received client.dots url.path
        params := client.query url.path params
        headers := headers
        body := content.getD [] }
  else none

/-! ### The proxy -/

def fileGatewayServices : List String := ["file-gateway-api", "file-gateway"]

/-- `rstrip("/")`. -/
def rstripSlash (path : Text) : Text := (path.reverse.dropWhile (· == '/')).reverse

def isFileGatewayUpload (serverName : String) (method : Method) (path : Text) : Bool :=
  fileGatewayServices.contains serverName && method == .post && rstripSlash path == "files".toList

def isFileGatewayDownload (serverName : String) (method : Method) (path : Text) : Bool :=
  fileGatewayServices.contains serverName && method == .get &&
    "/download".toList.isSuffixOf (rstripSlash path)

/-- The controls of uploads and downloads, none where they reject one. -/
structure FileGateway where
  sanitizeUpload : Bytes → Option Text → Option Bytes
  secureDownload : Bytes → TextFields → Text → Option (Bytes × TextFields)

def hopByHopHeaders : List String :=
  ["connection", "keep-alive", "proxy-authenticate", "proxy-authorization", "te", "trailers",
    "transfer-encoding", "upgrade"]

def reqIgnoreHeaders : List String := ["host", "content-length", "authorization"]

/-- `dict`: each name at its first place with its last value. -/
def toDict {β : Type*} (pairs : List (String × β)) : List (String × β) :=
  pairs.foldl (fun dict pair => put Prod.fst pair dict) []

def forwardedHeaders (request : Request) : TextFields :=
  toDict (request.headers.filter fun h => h.1 ∉ hopByHopHeaders && h.1 ∉ reqIgnoreHeaders)

def decimal (n : ℕ) : Text := Nat.toDigits 10 n

/-- An empty path counts as none. -/
def proxyServerPath (client : HttpClient) (gateway : FileGateway) (service : Service)
    (request : Request) : Option Sent :=
  let headers := forwardedHeaders request
  let params := if request.queryParams = [] then none else some (toDict request.queryParams)
  let send (headers : TextFields) (body : Bytes) : Option Sent :=
    client.request request.method (service.url request.path) headers
      (if body = [] then none else some body) params
  if service.serverName ≠ "" && request.path ≠ [] &&
      isFileGatewayUpload service.serverName request.method request.path then
    (gateway.sanitizeUpload request.body (request.headers.lookup "content-type")).bind fun body =>
      send (put Prod.fst ("content-length", decimal body.length) headers) body
  else send headers request.body

/-! ### Answers -/

/-- The decoding of a body by its combined `content-encoding`. -/
structure Codings where
  decode : Bytes → Bytes → Option Bytes

def Codings.read (codings : Codings) (encodings : List Bytes) (body : Bytes) : Option Bytes :=
  if encodings = [] then some body else codings.decode (combined encodings) body

def readLength (value : Bytes) : ℕ := Nat.ofDigitChars 10 (latin1 value) 0

/-- An answer that has no body whatever its headers say. -/
def isBodiless (status : ℕ) : Bool := status < 200 || status == 204 || status == 304

/-- An answer of the service, whose body is sent encoded. -/
structure Answer (codings : Codings) where
  status : ℕ
  fields : Fields
  sent : Bytes
  entity : Bytes
  bodiless : isBodiless status = true → entity = []
  encoded : isBodiless status = false → codings.read (values fields "content-encoding") sent = some entity
  length : isBodiless status = false → ∀ v ∈ values fields "content-length", readLength v = sent.length
  length_once : (values fields "content-length").length ≤ 1

/-- `items` of the headers, which joins the values of a name. -/
def headerItems (text : Bytes → Text) (fields : Fields) : TextFields :=
  fields.foldl (fun items f =>
    match find Prod.fst f.1 items with
    | some (_, t) => put Prod.fst (f.1, t ++ ", ".toList ++ text f.2) items
    | none => put Prod.fst (f.1, text f.2) items) []

/-- What the proxy returns. -/
structure Returned where
  status : ℕ
  fields : Fields
  body : Bytes

/-- The length of the body is added where it is missing. -/
def withLength (content : Bytes) (status : ℕ) (fields : Fields) : Fields :=
  if values fields "content-length" = [] && !isBodiless status then
    fields ++ [("content-length", (decimal content.length).map fun c => UInt8.ofNat c.toNat)]
  else fields

/-- A response encodes its headers. The media type is one of them. -/
def response (content : Bytes) (status : ℕ) (headers : TextFields) : Option Returned :=
  (headers.mapM fun h => (encodeLatin1 h.2).map fun b => (h.1, b)).map fun fields =>
    { status := status
      fields := withLength content status fields
      body := content }

def proxyResponse {codings : Codings} (client : HttpClient) (gateway : FileGateway)
    (service : Service) (request : Request) (answer : Answer codings) : Option Returned :=
  let headers := (headerItems (client.headerText answer.fields) answer.fields).filter fun h =>
    h.1 ∉ hopByHopHeaders
  if service.serverName ≠ "" && request.path ≠ [] && 200 ≤ answer.status && answer.status < 300 &&
      isFileGatewayDownload service.serverName request.method request.path then
    (gateway.secureDownload answer.entity headers request.path).bind fun secured =>
      response secured.1 answer.status secured.2
  else response answer.entity answer.status headers

/-! ### Transparency -/

/-- The request as it came, whose segments the service reads as bytes. -/
structure Request.ForwardedAs (request : Request) (sent : Sent) : Prop where
  method : sent.method = request.method
  segments : sent.segments = request.segments.map utf8
  params : sent.params = request.queryParams
  body : sent.body = request.body

def endToEnd (name : String) : Prop := name ∉ hopByHopHeaders

/-- The body that a client reads by the headers. -/
def Returned.obtained (codings : Codings) (returned : Returned) : Option Bytes :=
  if isBodiless returned.status then some []
  else if (values returned.fields "content-length").all fun v => readLength v == returned.body.length then
    codings.read (values returned.fields "content-encoding") returned.body
  else none

structure Answer.ReturnedAs {codings : Codings} (answer : Answer codings) (returned : Returned) :
    Prop where
  entity : returned.obtained codings = some answer.entity
  headers : ∀ name, endToEnd name → values answer.fields name ≠ [] →
    view returned.fields name = view answer.fields name

/-- Every request is forwarded as it is, and every answer returned as it is. -/
def Transparent {codings : Codings} (client : HttpClient) (gateway : FileGateway) (service : Service)
    (request : Request) (answer : Answer codings) : Prop :=
  (∃ sent, proxyServerPath client gateway service request = some sent ∧ request.ForwardedAs sent) ∧
    ∃ returned, proxyResponse client gateway service request answer = some returned ∧
      answer.ReturnedAs returned

/-- A request that means the same when its path is read again and its parameters are a dictionary. -/
structure Request.Plain (client : HttpClient) (service : Service) (request : Request) : Prop where
  accepted : client.accepts (service.url request.path) = true
  segments : ∀ s ∈ request.segments, UriSegments.Plain s
  params : (request.queryParams.map Prod.fst).Nodup

def Ascii (b : Bytes) : Prop := ∀ x ∈ b, x < 128

/-- An answer whose entity may be read by its headers, without repeated cookies, and with headers that
pass through a text. -/
structure Answer.Plain {codings : Codings} (answer : Answer codings) : Prop where
  coding : isBodiless answer.status = false → values answer.fields "content-encoding" ≠ [] →
    codings.read (values answer.fields "content-encoding") answer.entity = some answer.entity ∧
      (values answer.fields "content-length" ≠ [] → answer.sent.length = answer.entity.length)
  cookies : (values answer.fields "set-cookie").length ≤ 1
  ascii : AllUtf8 answer.fields → ∀ f ∈ answer.fields, endToEnd f.1 → Ascii f.2

/-! ### Forwarding -/

section Forwarding

variable {client : HttpClient} {gateway : FileGateway} {service : Service} {request : Request}

theorem nodup_toDict {β : Type*} (pairs : List (String × β)) : ((toDict pairs).map Prod.fst).Nodup := by
  unfold toDict
  induction pairs using List.reverseRecOn with
  | nil => exact List.nodup_nil
  | append_singleton pairs pair ih =>
    rw [List.foldl_append]
    exact nodup_put ih

theorem toDict_eq_self_iff {β : Type*} {pairs : List (String × β)} :
    toDict pairs = pairs ↔ (pairs.map Prod.fst).Nodup := by
  refine ⟨fun h => h ▸ nodup_toDict pairs, fun h => ?_⟩
  unfold toDict
  induction pairs using List.reverseRecOn with
  | nil => rfl
  | append_singleton pairs pair ih =>
    rw [List.map_append, List.nodup_append] at h
    have hnone : find Prod.fst pair.1 pairs = none := by
      rw [find_eq_none]
      rintro x hx heq
      exact h.2.2 x.1 (List.mem_map_of_mem hx) pair.1 (List.mem_singleton_self _) heq
    rw [List.foldl_append, ih h.1]
    exact put_of_find_eq_none hnone

theorem forwarded_iff
    (hupload : isFileGatewayUpload service.serverName request.method request.path = false) :
    (∃ sent, proxyServerPath client gateway service request = some sent ∧ request.ForwardedAs sent) ↔
      request.Plain client service := by
  unfold proxyServerPath
  rw [hupload, Bool.and_false, if_neg Bool.false_ne_true]
  dsimp only
  unfold HttpClient.request
  cases haccepts : client.accepts (service.url request.path) with
  | false =>
    refine iff_of_false ?_ fun h => ?_
    · rintro ⟨sent, h, -⟩
      cases h
    · rw [h.accepted] at haccepts
      cases haccepts
  | true =>
    have hread := @received_join_iff client.dots _ request.nonempty
    have hquery (hplain : ∀ s ∈ request.segments, UriSegments.Plain s) : '?' ∉ request.path := by
      unfold Request.path
      rw [mem_join (by decide)]
      rintro ⟨s, hs, hc⟩
      exact (hplain s hs).query hc
    have hparams (hplain : ∀ s ∈ request.segments, UriSegments.Plain s) :
        client.query request.path
          (if request.queryParams = [] then none else some (toDict request.queryParams)) =
            request.queryParams ↔ (request.queryParams.map Prod.fst).Nodup := by
      by_cases hnil : request.queryParams = []
      · rw [if_pos hnil, client.query_none _ (hquery hplain), hnil]
        simp
      · rw [if_neg hnil, client.query_params _ _ (hquery hplain), toDict_eq_self_iff]
    rw [if_pos rfl]
    constructor
    · rintro ⟨sent, hsome, hsent⟩
      obtain rfl := Option.some.inj hsome
      have hplain := hread.mp hsent.segments
      exact ⟨haccepts, hplain, (hparams hplain).mp hsent.params⟩
    · intro h
      refine ⟨_, rfl, rfl, hread.mpr h.segments, (hparams h.segments).mpr h.params, ?_⟩
      by_cases hbody : request.body = []
      · simp [hbody]
      · simp [hbody]

end Forwarding

end Ark.ServiceProxy
