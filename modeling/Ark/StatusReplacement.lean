import Ark.GoMerge
import Ark.Registry

/-!
# Replacing a status

`StatusStorage.Update` writes the status of the updated object into the text of the existing one and
decodes that over the existing object itself. The object that is persisted then has what the new status
leaves out from the old one. Other requests may come between the statements.
-/

namespace Ark

namespace StatusStorage

open Json GoJson GoMerge

/-! ### The kinds and their statuses -/

inductive Kind
  | query
  | agent
  | model
  | team
  | tool
  | memory
  | mcpServer
  | a2aTask
  | a2aServer
  | executionEngine
  deriving DecidableEq, Repr

section

variable (time duration : TextType)

/-- `metav1.Condition`. -/
def condition : GoType := structOf
  [field "type" string, field "status" string, omitempty "observedGeneration" int,
    field "lastTransitionTime" time.type, field "reason" string, field "message" string]

def conditions : String × Bool × GoType := omitempty "conditions" (.slice (condition time))

def a2aTaskPart : GoType := structOf
  [field "kind" string, omitempty "text" string, omitempty "data" string, omitempty "mimeType" string,
    omitempty "uri" string, omitempty "metadata" (.map string)]

def a2aTaskArtifact : GoType := structOf
  [field "artifactId" string, omitempty "name" string, omitempty "description" string,
    field "parts" (.slice a2aTaskPart), omitempty "metadata" (.map string)]

def a2aTaskMessage : GoType := structOf
  [omitempty "messageId" string, field "role" string, field "parts" (.slice a2aTaskPart),
    omitempty "metadata" (.map string)]

def a2aTaskStatus : GoType := structOf
  [omitempty "phase" string, conditions time, omitempty "startTime" (.pointer time.type),
    omitempty "completionTime" (.pointer time.type), omitempty "error" string,
    omitempty "protocolState" string, omitempty "contextId" string,
    omitempty "artifacts" (.slice a2aTaskArtifact), omitempty "history" (.slice a2aTaskMessage),
    omitempty "protocolMetadata" (.map string), omitempty "lastStatusMessage" (.pointer a2aTaskMessage),
    omitempty "lastStatusTimestamp" string]

def queryTarget : GoType := structOf [field "type" string, field "name" string]

def a2aMetadata : GoType := structOf [omitempty "contextId" string, omitempty "taskId" string]

def response : GoType := structOf
  [omitempty "target" queryTarget, omitempty "content" string, omitempty "raw" string,
    omitempty "phase" string, omitempty "a2a" (.pointer a2aMetadata)]

def tokenUsage : GoType := structOf
  [omitempty "promptTokens" int, omitempty "completionTokens" int, omitempty "totalTokens" int,
    omitempty "cachedTokens" int]

def queryStatus : GoType := structOf
  [omitempty "phase" string, conditions time, omitempty "response" (.pointer response),
    omitempty "tokenUsage" tokenUsage, omitempty "conversationId" string,
    omitempty "duration" (.pointer duration.type)]

def mcpServerAuthorizationStatus : GoType := structOf
  [omitempty "state" string, omitempty "resource" string, omitempty "resourceMetadataURL" string,
    omitempty "resourceName" string, omitempty "authorizationServers" (.slice string),
    omitempty "scopesSupported" (.slice string), omitempty "grantTypesSupported" (.slice string),
    omitempty "tokenEndpointAuthMethodsSupported" (.slice string),
    omitempty "tokenEndpointAuthSigningAlgValuesSupported" (.slice string),
    omitempty "registrationEndpoint" string, omitempty "authorizationEndpoint" string,
    omitempty "tokenEndpoint" string, omitempty "lastDiscovered" (.pointer time.type),
    omitempty "expiresAt" (.pointer time.type)]

def mcpServerStatus : GoType := structOf
  [omitempty "resolvedAddress" string, omitempty "toolCount" int,
    omitempty "authorization" (.pointer (mcpServerAuthorizationStatus time)), conditions time]

def Kind.status : Kind → GoType
  | query => queryStatus time duration
  | agent => structOf [conditions time]
  | model => structOf [omitempty "resolvedAddress" string, conditions time]
  | team => structOf [conditions time]
  | tool => structOf [omitempty "state" string, omitempty "message" string]
  | memory => structOf
    [omitempty "lastResolvedAddress" (.pointer string), omitempty "phase" string, omitempty "message" string]
  | mcpServer => mcpServerStatus time
  | a2aTask => a2aTaskStatus time
  | a2aServer => structOf [omitempty "lastResolvedAddress" string, conditions time]
  | executionEngine => structOf
    [omitempty "lastResolvedAddress" string, omitempty "phase" string, omitempty "message" string]

end

/-- The Go type of a kind, with those of its parts that the status does not depend on: `metav1.Time`,
`metav1.Duration`, `metav1.ObjectMeta` and the spec. -/
structure ResourceType where
  kind : Kind
  time : TextType
  duration : TextType
  metadata : GoType
  spec : GoType

namespace ResourceType

variable (R : ResourceType)

def status : GoType := R.kind.status R.time R.duration

/-- The embedded `metav1.TypeMeta` comes first. -/
def object : GoType := structOf
  [omitempty "kind" string, omitempty "apiVersion" string, omitempty "metadata" R.metadata,
    omitempty "spec" R.spec, omitempty "status" R.status]

end ResourceType

section

variable {R : ResourceType}

def statusOf (o : R.object.Carrier) : R.status.Carrier := o.2.2.2.2.1

def withStatus (o : R.object.Carrier) (status : R.status.Carrier) : R.object.Carrier :=
  (o.1, o.2.1, o.2.2.1, o.2.2.2.1, status, ())

/-! ### The update -/

/-- An assignment to a key of a `map[string]json.RawMessage`, whose order is lost. -/
def setMember (name : String) (v : Value) (members : List (Text × Value)) : List (Text × Value) :=
  members.filter (fun m => m.1 != literal name) ++ member name (some v)

/-- `none` is an error of `json.Unmarshal`. -/
def copyStatusOnly (dst src : R.object.Carrier) : Option R.object.Carrier :=
  let srcMap := membersOf (encode R.object src)
  let dstMap := membersOf (encode R.object dst)
  let merged := match lookup (literal "status") srcMap with
    | some status => setMember "status" status dstMap
    | none => dstMap
  decode R.object (.obj merged) dst

/-- What `UpdateStatus` reads from the text of the object. -/
def statusJSON (doc : Value) : Value :=
  match lookup (literal "status") (membersOf doc) with
  | none | some .null => .obj []
  | some status => status

/-- A version that is no number is read as 0. -/
def resourceVersion (doc : Value) : ℤ :=
  (parseInt64 (stringField "resourceVersion" (structField "metadata" (membersOf doc)))).getD 0

/-- `PostgreSQLBackend.UpdateStatus`. -/
def updateStatus (t : ResourceTable Value) (key : ResourceKey) (obj : R.object.Carrier) :
    Except BackendError (ResourceTable Value) :=
  let doc := encode R.object obj
  let rv := resourceVersion doc
  if rv = 0 then .error (.other "resourceVersion is required for status update")
  else
    match (t.live key).filter fun x => decide ((x.resourceVersion : ℤ) = rv) with
    | some x => .ok (t.store (t.statusUpdated x { x.reconstructObject with status := statusJSON doc }))
    | none => .error (if (t.live key).isSome then .conflict else .notFound)

/-- The reads of `StatusStorage.Update`, before and after the write. -/
structure Reads (R : ResourceType) where
  existing : Except BackendError R.object.Carrier
  result : Except BackendError R.object.Carrier

/-- `StatusStorage.Update`; `t` is the table when `UpdateStatus` runs, and `unmarshalError` the text of an error
of `json.Unmarshal`. -/
def update (reads : Reads R) (updatedObject : R.object.Carrier → Except String R.object.Carrier)
    (unmarshalError : String) (config : ResourceConfig) (name : String) (key : ResourceKey)
    (t : ResourceTable Value) : ResourceTable Value × Except ApiError R.object.Carrier :=
  match reads.existing with
  | .error _ => (t, .error (.notFound name))
  | .ok existing =>
    match updatedObject existing with
    | .error e => (t, .error (.internal ("failed to get updated object: " ++ e)))
    | .ok updated =>
      match copyStatusOnly existing updated with
      | none => (t, .error (.internal unmarshalError))
      | some merged =>
        match updateStatus t key merged with
        | .error err => (t, .error (handleUpdateError config "update_status" name err))
        | .ok t' => (t', reads.result.mapError fun _ => .notFound name)

theorem wellFormed_status (R : ResourceType) : R.status.WellFormed := by
  rw [ResourceType.status]
  cases R.kind
  all_goals simp [Kind.status, queryStatus, a2aTaskStatus, mcpServerStatus, mcpServerAuthorizationStatus,
    conditions, condition, a2aTaskPart, a2aTaskArtifact, a2aTaskMessage, queryTarget, a2aMetadata, response,
    tokenUsage, structOf, field, omitempty, GoType.WellFormed, Fields.WellFormed, Fields.names,
    TextType.type, string, int]

/-- The fields of an object other than its status. -/
def otherFields (R : ResourceType) : Fields :=
  .cons "kind" true string (.cons "apiVersion" true string
    (.cons "metadata" true R.metadata (.cons "spec" true R.spec .nil)))

def others (o : R.object.Carrier) : (otherFields R).Carrier := (o.1, o.2.1, o.2.2.1, o.2.2.2.1, ())

theorem status_not_mem_names : "status" ∉ (otherFields R).names := by
  simp [otherFields, Fields.names]

theorem isEmpty_status (status : R.status.Carrier) : isEmpty R.status status = false := by
  obtain ⟨kind, time, duration, metadata, spec⟩ := R
  cases kind
  all_goals rfl

/-- The members of an object, its status last. -/
theorem encode_object (o : R.object.Carrier) : encode R.object o =
    .obj (encodeFields (otherFields R) (others o) ++
      member "status" (some (encode R.status (statusOf o)))) := by
  have hstatus : written true (isEmpty R.status (statusOf o)) (encode R.status (statusOf o)) =
      some (encode R.status (statusOf o)) := by
    rw [isEmpty_status]
    rfl
  rw [← hstatus, ← List.append_nil (member "status" _)]
  simp only [otherFields, encodeFields, List.append_assoc, List.nil_append]
  rfl

theorem lookup_status (o : R.object.Carrier) : lookup (literal "status") (membersOf (encode R.object o)) =
    some (encode R.status (statusOf o)) := by
  rw [encode_object, membersOf, lookup_append, lookup_encodeFields status_not_mem_names, lookup_member,
    if_pos rfl, Option.none_or]

theorem copyStatusOnly_eq (dst src : R.object.Carrier) : copyStatusOnly dst src =
    decode R.object (encode R.object (withStatus dst (statusOf src))) dst := by
  have hfilter : (encodeFields (otherFields R) (others dst)).filter (fun m => m.1 != literal "status") =
      encodeFields (otherFields R) (others dst) := by
    rw [List.filter_eq_self]
    intro m hm
    obtain ⟨n, hn, hkey⟩ := mem_encodeFields _ _ hm
    rw [bne_iff_ne, hkey]
    intro heq
    exact status_not_mem_names (literal_injective heq ▸ hn)
  have hself : (member "status" (some (encode R.status (statusOf dst)))).filter
      (fun m => m.1 != literal "status") = [] := by
    rw [List.filter_eq_nil_iff]
    intro m hm
    rw [member_key hm, bne_self_eq_false]
    exact Bool.false_ne_true
  rw [copyStatusOnly, lookup_status, encode_object dst]
  dsimp only [membersOf]
  rw [setMember, List.filter_append, hfilter, hself, List.append_nil, encode_object]
  rfl

theorem decode_status {dst r o : R.object.Carrier}
    (h : decode R.object (encode R.object o) dst = some r) :
    decode R.status (encode R.status (statusOf o)) (statusOf dst) = some (statusOf r) := by
  rw [encode_object] at h
  have hfields := (decodeFields_cons (decodeFields_cons (decodeFields_cons (decodeFields_cons h).2).2).2).2
  have hstatus := (decodeFields_cons hfields).1
  have hbefore : ∀ m ∈ encodeFields (otherFields R) (others o),
      ∃ n ∈ ["kind", "apiVersion", "metadata", "spec", "status"], m.1 = literal n ∧ n ≠ "status" := by
    intro m hm
    obtain ⟨n, hn, hkey⟩ := mem_encodeFields _ _ hm
    refine ⟨n, List.mem_append_left ["status"] hn, hkey, ?_⟩
    rintro rfl
    exact status_not_mem_names hn
  have hvalues := @values_eq _ _ (List.mem_append_right ["kind", "apiVersion", "metadata", "spec"]
    List.mem_cons_self) .nil nofun List.not_mem_nil () _ hbefore (some (encode R.status (statusOf o)))
  have hmembers : member "status" (some (encode R.status (statusOf o))) ++ encodeFields .nil () =
      member "status" (some (encode R.status (statusOf o))) := List.append_nil _
  rw [hmembers] at hvalues
  have hdecoded := (congrArg (fun js => GoMerge.decodeField (GoMerge.decode R.status) js (statusOf dst))
    hvalues).symm.trans hstatus
  obtain ⟨status, hdecode, hsome⟩ := Option.bind_eq_some_iff.mp hdecoded
  rw [hdecode]
  exact hsome

/-- The status of the object that is written. -/
theorem copyStatusOnly_status {dst src merged : R.object.Carrier} (h : copyStatusOnly dst src = some merged) :
    decode R.status (encode R.status (statusOf src)) (statusOf dst) = some (statusOf merged) := by
  rw [copyStatusOnly_eq] at h
  have hstatus := decode_status h
  exact hstatus

theorem statusJSON_encode (o : R.object.Carrier) :
    statusJSON (encode R.object o) = encode R.status (statusOf o) := by
  rw [statusJSON, lookup_status]
  obtain ⟨kind, time, duration, metadata, spec⟩ := R
  cases kind
  all_goals rfl

/-- Everything but the status is as before, save for the version. -/
structure Kept (x x' : Resource Value) : Prop where
  spec : x'.spec = x.spec
  labels : x'.labels = x.labels
  annotations : x'.annotations = x.annotations
  finalizers : x'.finalizers = x.finalizers
  ownerReferences : x'.ownerReferences = x.ownerReferences
  generation : x'.generation = x.generation

/-- What a successful update has done. -/
theorem update_ok {reads : Reads R} {updatedObject : R.object.Carrier → Except String R.object.Carrier}
    {unmarshalError : String} {config : ResourceConfig} {name : String} {key : ResourceKey}
    {t t' : ResourceTable Value} {result : R.object.Carrier}
    (h : update reads updatedObject unmarshalError config name key t = (t', .ok result)) :
    ∃ existing updated merged x, reads.existing = .ok existing ∧ updatedObject existing = .ok updated ∧
      copyStatusOnly existing updated = some merged ∧ t.live key = some x ∧
      t' = t.store { x with
        resourceVersion := t.seq + 1, status := statusJSON (encode R.object merged) } := by
  rw [update] at h
  split at h
  next => cases h
  next existing hexisting =>
    split at h
    next => cases h
    next updated hupdated =>
      split at h
      next => cases h
      next merged hmerged =>
        split at h
        next => cases h
        next t'' hwrite =>
          obtain ⟨rfl, -⟩ := Prod.mk.inj h
          rw [updateStatus] at hwrite
          split at hwrite
          next => cases hwrite
          next =>
            split at hwrite
            next x hx =>
              obtain rfl := Except.ok.inj hwrite
              exact ⟨existing, updated, merged, x, hexisting, hupdated, hmerged,
                (Option.filter_eq_some_iff.mp hx).1, rfl⟩
            next => cases hwrite

/-- The update persists the status of the updated object, and nothing else, exactly if that status covers the one
that it replaces. -/
theorem status_replaced {reads : Reads R}
    {updatedObject : R.object.Carrier → Except String R.object.Carrier} {unmarshalError : String}
    {config : ResourceConfig} {name : String} {key : ResourceKey} {t t' : ResourceTable Value}
    {existing updated result : R.object.Carrier} (ht : t.WellFormed) (hexisting : reads.existing = .ok existing)
    (hupdated : updatedObject existing = .ok updated)
    (h : update reads updatedObject unmarshalError config name key t = (t', .ok result)) :
    (∃ x x', t.live key = some x ∧ t'.live key = some x' ∧
        x'.status = encode R.status (statusOf updated) ∧ Kept x x') ↔
      Covers R.status (statusOf existing) (statusOf updated) := by
  obtain ⟨existing', updated', merged, x, hexisting', hupdated', hmerged, hx, rfl⟩ := update_ok h
  obtain rfl := Except.ok.inj (hexisting.symm.trans hexisting')
  obtain rfl := Except.ok.inj (hupdated.symm.trans hupdated')
  rw [← encode_decode_iff R.status (wellFormed_status R) (copyStatusOnly_status hmerged),
    ← statusJSON_encode merged]
  obtain ⟨hmem, hkey, hlive⟩ := ResourceTable.live_some hx
  have hwf' : (t.store (t.statusUpdated x { x.reconstructObject with
      status := statusJSON (encode R.object merged) })).WellFormed := ht.store hmem hlive rfl rfl rfl
  have hx' := hwf'.live_eq (ResourceTable.store_mem_self hmem rfl) hlive
  rw [← hkey] at hx ⊢
  constructor
  · rintro ⟨y, y', -, hy', hstatus, -⟩
    obtain rfl := Option.some.inj (hx'.symm.trans hy')
    exact hstatus
  · intro hstatus
    exact ⟨x, _, hx, hx', hstatus, ⟨rfl, rfl, rfl, rfl, rfl, rfl⟩⟩

end

/-! ### Concrete updates -/

/-- A time as its text; the zero time is null. -/
def text : TextType where
  Carrier := String
  zero := ""
  marshal s := if s = "" then .null else ofString s
  unmarshal
    | .null => some ""
    | .str t => some (readString t)
    | _ => none
  marshal_eq := by
    intro a b h
    split at h
    next heq =>
      obtain rfl := Option.some.inj h
      exact heq.symm
    next t heq =>
      obtain rfl := Option.some.inj h
      by_cases ha : a = ""
      · rw [if_pos ha] at heq
        cases heq
      · rw [if_neg ha] at heq
        rw [← Value.str.inj heq, readString_literal, if_neg ha]
    next => cases h

/-- Queries with a few of their other fields. -/
def queries : ResourceType where
  kind := .query
  time := text
  duration := text
  metadata := structOf
    [omitempty "name" string, omitempty "namespace" string, omitempty "resourceVersion" string]
  spec := structOf [omitempty "sessionId" string]

/-- The status of a query that has no conditions and no duration, and no tokens counted. -/
def statusWith (phase : String) (response : Option response.Carrier) : queries.status.Carrier :=
  (phase, none, response, ((0 : ℤ), (0 : ℤ), (0 : ℤ), (0 : ℤ), ()), "", none, ())

def queryWith (status : queries.status.Carrier) : queries.object.Carrier :=
  ("Query", "ark.mckinsey.com/v1alpha1", ("weather", "default", "1", ()), ("s", ()), status, ())

def answer : response.Carrier := (("agent", "weather", ()), "sunny", "", "done", none, ())

def queryKey : ResourceKey := ⟨"Query", "default", "weather"⟩

def queryTable : ResourceTable Value :=
  ⟨1, 1, 0, [⟨0, queryKey, "u", 1, 1, [], [], [], [], .obj [], .obj [], 0, none, none⟩]⟩

theorem wellFormed_queryTable : queryTable.WellFormed := by
  constructor <;> simp [queryTable]

/-- An update of a query that was read as `existing`. -/
def runUpdate (existing updated : queries.object.Carrier) :
    ResourceTable Value × Except ApiError queries.object.Carrier :=
  update ⟨.ok existing, .ok updated⟩ (fun _ => .ok updated) "" ⟨"Query", "query"⟩ "weather" queryKey
    queryTable

theorem exists_result {existing updated : queries.object.Carrier}
    (h : (runUpdate existing updated).2.isOk = true) :
    ∃ result, update ⟨.ok existing, .ok updated⟩ (fun _ => .ok updated) "" ⟨"Query", "query"⟩ "weather"
      queryKey queryTable = ((runUpdate existing updated).1, .ok result) := by
  cases hresult : (runUpdate existing updated).2 with
  | error e =>
    rw [hresult] at h
    cases h
  | ok result => exact ⟨result, Prod.ext rfl hresult⟩

/-- The phase of a query is replaced. -/
theorem status_replaced_running : ∃ x x', queryTable.live queryKey = some x ∧
    (runUpdate (queryWith (statusWith "pending" none))
      (queryWith (statusWith "running" none))).1.live queryKey = some x' ∧
    x'.status = encode queries.status (statusWith "running" none) ∧ Kept x x' := by
  obtain ⟨result, h⟩ := @exists_result (queryWith (statusWith "pending" none))
    (queryWith (statusWith "running" none)) (by decide +kernel)
  refine (status_replaced wellFormed_queryTable (by rfl) (by rfl) h).mpr ?_
  exact ⟨⟨trivial, fun _ => id⟩, rfl, rfl, ⟨⟨rfl, rfl, rfl, rfl, trivial⟩, fun _ => id⟩, rfl, rfl, trivial⟩

/-- A response that the update removes is still there. -/
theorem removed_response_kept : ¬ ∀ (R : ResourceType) (reads : Reads R)
    (updatedObject : R.object.Carrier → Except String R.object.Carrier) (unmarshalError : String)
    (config : ResourceConfig) (name : String) (key : ResourceKey) (t t' : ResourceTable Value)
    (existing updated result : R.object.Carrier), t.WellFormed → reads.existing = .ok existing →
    updatedObject existing = .ok updated →
    update reads updatedObject unmarshalError config name key t = (t', .ok result) →
    ∃ x x', t.live key = some x ∧ t'.live key = some x' ∧
      x'.status = encode R.status (statusOf updated) ∧ Kept x x' := by
  intro hall
  obtain ⟨result, h⟩ := @exists_result (queryWith (statusWith "done" (some answer)))
    (queryWith (statusWith "pending" none)) (by decide +kernel)
  obtain ⟨x, x', -, hx', hstatus, -⟩ :=
    hall queries _ _ _ _ _ _ _ _ _ _ _ wellFormed_queryTable (by rfl) (by rfl) h
  have hkept : (((runUpdate (queryWith (statusWith "done" (some answer)))
      (queryWith (statusWith "pending" none))).1.live queryKey).all fun x =>
        (lookup (literal "response") (membersOf x.status)).isSome) = true := by decide +kernel
  have hremoved : (lookup (literal "response") (membersOf (encode queries.status
      (statusWith "pending" none)))).isSome = false := by decide +kernel
  rw [hx', Option.all_some, hstatus] at hkept
  exact Bool.false_ne_true (hremoved.symm.trans hkept)

end StatusStorage

end Ark
