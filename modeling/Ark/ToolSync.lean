import Ark.GoStruct
import Ark.KeyedTable
import Ark.Machine

/-!
# The Tools of MCP servers

A reconcile of an MCPServer lists the tools of the server and keeps one Tool object for each of them.
A Tool is found by its name, which joins the names of the server and of the tool, and the Tools of a
server that it no longer lists are found by a label. A name is folded when it is joined, so that two
servers, or two tools of one server, may meet in one Tool. Where they do not, the Tools of a server are
its listed tools, the Tools of others stay, and a second reconcile writes nothing.
-/

namespace Ark.MCP

open Json GoJson KeyedTable

/-- A raw JSON document, as it was decoded from a server's answer. -/
abbrev Schema := {v : Value // Valid (strings v)}

structure MCPServerRef where
  name : String
  «namespace» : String

structure MCPToolRef where
  mcpServerRef : MCPServerRef
  toolName : String

/-- The fields of a Tool's spec that Tools of MCP servers have. -/
structure ToolSpec where
  type : String
  description : String := ""
  inputSchema : Option Schema := none
  mcp : Option MCPToolRef := none

structure Tool where
  name : String
  labels : List (String × String) := []
  annotations : List (String × String) := []
  controller : Option String := none
  spec : ToolSpec

structure MCPServer where
  name : String
  uid : String
  annotations : List (String × String) := []

/-- A tool as the server lists it. -/
structure ListedTool where
  name : String
  description : String := ""
  inputSchema : Option Schema := none

/-- The Tools of one namespace. -/
structure ToolNamespace where
  name : String
  tools : List Tool

inductive Write
  | create (tool : Tool)
  | update (tool : Tool)
  | delete (name : String)

def mcpServerLabel : String := "mcp/server"

def arkPrefix : String := "ark.mckinsey.com/"

/-! ### Names -/

/-- `unicode.ToLower` as far as names can show it: the lower case of every other letter that has one
lies outside of ASCII. -/
def toLowerRune (c : Char) : Char :=
  if 'A' ≤ c ∧ c ≤ 'Z' then Char.ofNat (c.toNat + 32)
  else if c.toNat = 304 then 'i'
  else if c.toNat = 8490 then 'k'
  else c

def generateToolName (mcpServerName toolName : String) : String :=
  let sanitizedToolName := toolName.toList.map fun c => toLowerRune (if c = '_' then '-' else c)
  mcpServerName ++ "-" ++ String.ofList sanitizedToolName

/-- The name of the Tool for a listed tool. -/
def objectName (mcpServer : MCPServer) (mcpTool : ListedTool) : String :=
  generateToolName mcpServer.name mcpTool.name

def isLowerAlphanumeric (c : Char) : Bool := ('a' ≤ c && c ≤ 'z') || ('0' ≤ c && c ≤ '9')

/-- RFC 1123: dots separate parts that begin and end with a letter or digit. -/
def isSubdomain (name : String) : Bool :=
  name.length ≤ 253 && (name.toList.splitOn '.').all fun part =>
    part.all (fun c => isLowerAlphanumeric c || c = '-') &&
      part.head?.any isLowerAlphanumeric && part.getLast?.any isLowerAlphanumeric

/-- The API server accepts a new object by its name and the values of its labels, which here are names
of objects. -/
def isCreatable (tool : Tool) : Bool :=
  isSubdomain tool.name && tool.labels.all fun label => label.2.length ≤ 63

/-! ### One Tool -/

namespace ToolSpec

def mcpValue (ref : MCPToolRef) : Value :=
  .obj (member "mcpServerRef" (some (.obj (member "name" (some (ofString ref.mcpServerRef.name)) ++
      member "namespace" (ofNonempty ref.mcpServerRef.namespace)))) ++
    member "toolName" (some (ofString ref.toolName)))

def fields (spec : ToolSpec) : List (Text × Value) :=
  member "type" (some (ofString spec.type)) ++ (member "description" (ofNonempty spec.description) ++
    (member "inputSchema" (spec.inputSchema.map (·.1)) ++ member "mcp" (spec.mcp.map mcpValue)))

def json (spec : ToolSpec) : String := marshal (.obj spec.fields)

end ToolSpec

def buildToolCRD (mcpServer : MCPServer) («namespace» : String) (mcpTool : ListedTool) : Tool where
  name := objectName mcpServer mcpTool
  labels := [(mcpServerLabel, mcpServer.name)]
  annotations := mcpServer.annotations.filter fun annotation => arkPrefix.isPrefixOf annotation.1
  controller := some mcpServer.uid
  spec := {
    type := "mcp"
    description := mcpTool.description
    inputSchema := mcpTool.inputSchema
    mcp := some ⟨⟨mcpServer.name, «namespace»⟩, mcpTool.name⟩ }

namespace ToolNamespace

variable (s : ToolNamespace)

/-- What the calls of a reconcile leave, with the writes among them; `none` is a failed call. -/
abbrev Written := Option (ToolNamespace × List Write)

def createOrUpdateSingleTool (tool : Tool) : Written :=
  match find Tool.name tool.name s.tools with
  | none =>
    if isCreatable tool then
      some ({ s with tools := put Tool.name tool s.tools }, [.create tool])
    else none
  | some existingTool =>
    if tool.spec.json = existingTool.spec.json then some (s, [])
    else
      let updated := { existingTool with spec := tool.spec }
      some ({ s with tools := put Tool.name updated s.tools }, [.update updated])

def createEach (mcpServer : MCPServer) : List ListedTool → ToolNamespace → Written
  | [], s => some (s, [])
  | mcpTool :: mcpTools, s => do
    let (s, writes) ← s.createOrUpdateSingleTool (buildToolCRD mcpServer s.name mcpTool)
    let (s, writes') ← createEach mcpServer mcpTools s
    some (s, writes ++ writes')

def listAllMCPTools (mcpServerName : String) : List Tool :=
  s.tools.filter fun tool => tool.labels.lookup mcpServerLabel = some mcpServerName

def deleteTool (name : String) : Option ToolNamespace :=
  match find Tool.name name s.tools with
  | none => none
  | some _ => some { s with tools := remove Tool.name name s.tools }

def deleteEach : List String → ToolNamespace → Written
  | [], s => some (s, [])
  | name :: names, s => do
    let s ← s.deleteTool name
    let (s, writes) ← deleteEach names s
    some (s, .delete name :: writes)

/-- `createTools`; it returns nil if it returns something here. -/
def createTools (mcpServer : MCPServer) (mcpTools : List ListedTool) : Written := do
  let existingTools := (s.listAllMCPTools mcpServer.name).map (·.name)
  let generated := mcpTools.map (objectName mcpServer)
  let (s, writes) ← createEach mcpServer mcpTools s
  let (s, writes') ← deleteEach (existingTools.filter fun name => name ∉ generated) s
  some (s, writes ++ writes')

end ToolNamespace

/-! ### Runs -/

/-- The tools of an answer have distinct names. -/
structure Listing where
  tools : List ListedTool
  distinct : (tools.map (·.name)).Nodup

inductive SyncAction
  | reconcile (mcpServer : MCPServer) (listing : Listing)

/-- Successful reconciles, from a namespace whose Tools are of no MCP server. -/
def syncMachine : Machine ToolNamespace SyncAction where
  init s := (s.tools.map (·.name)).Nodup ∧ ∀ tool ∈ s.tools, tool.spec.mcp.isNone
  step s := fun
    | .reconcile mcpServer listing => (s.createTools mcpServer listing.tools).map (·.1)

/-! ### Specs and their texts -/

namespace ToolSpec

theorem mcpValue_injective {ref ref' : MCPToolRef} (h : mcpValue ref = mcpValue ref') :
    ref = ref' := by
  obtain ⟨⟨name, ns⟩, toolName⟩ := ref
  obtain ⟨⟨name', ns'⟩, toolName'⟩ := ref'
  have hserver := congrArg (lookup (literal "mcpServerRef")) (Value.obj.inj h)
  have htool := congrArg (lookup (literal "toolName")) (Value.obj.inj h)
  simp [lookup_append, lookup_member] at hserver htool
  have hname := congrArg (lookup (literal "name")) hserver
  have hns := congrArg (lookup (literal "namespace")) hserver
  simp [lookup_append, lookup_member] at hname hns
  rw [ofString_injective htool, ofString_injective hname, ofNonempty_injective hns]

theorem fields_injective {spec spec' : ToolSpec} (h : spec.fields = spec'.fields) : spec = spec' := by
  obtain ⟨type, description, inputSchema, mcp⟩ := spec
  obtain ⟨type', description', inputSchema', mcp'⟩ := spec'
  have htype := congrArg (lookup (literal "type")) h
  have hdescription := congrArg (lookup (literal "description")) h
  have hschema := congrArg (lookup (literal "inputSchema")) h
  have hmcp := congrArg (lookup (literal "mcp")) h
  simp [fields, lookup_append, lookup_member] at htype hdescription hschema hmcp
  have hmap : Function.Injective (Option.map mcpValue) :=
    Option.map_injective fun _ _ => mcpValue_injective
  have hval : Function.Injective (Option.map fun schema : Schema => schema.1) :=
    Option.map_injective Subtype.val_injective
  rw [ofString_injective htype, ofNonempty_injective hdescription, hval hschema, hmap hmcp]

theorem valid_mcpValue (ref : MCPToolRef) : Valid (strings (mcpValue ref)) :=
  have hserver : Valid (strings (.obj (member "name" (some (ofString ref.mcpServerRef.name)) ++
      member "namespace" (ofNonempty ref.mcpServerRef.namespace)))) :=
    valid_append (valid_member _ (valid_ofString _)) (valid_member_ofNonempty _ _)
  valid_append (valid_member _ hserver) (valid_member _ (valid_ofString _))

theorem valid_fields (spec : ToolSpec) : Valid (stringsOfFields spec.fields) := by
  apply valid_append (valid_member _ (valid_ofString _))
  apply valid_append (valid_member_ofNonempty _ _)
  exact valid_append (valid_member_map _ Subtype.property _) (valid_member_map _ valid_mcpValue _)

/-- The comparison of the texts is one of the specs. -/
theorem json_inj {spec spec' : ToolSpec} : spec.json = spec'.json ↔ spec = spec' := by
  constructor
  · intro h
    exact fields_injective (Value.obj.inj (marshal_injective (v := .obj _) (w := .obj _)
      spec.valid_fields spec'.valid_fields h))
  · rintro rfl
    rfl

end ToolSpec

namespace ToolNamespace

variable {s s' : ToolNamespace} {mcpServer : MCPServer} {writes : List Write}

/-! ### What the calls leave -/

/-- The Tool that a call leaves under the name of `tool`. -/
def settled (s : ToolNamespace) (tool : Tool) : Tool :=
  match find Tool.name tool.name s.tools with
  | none => tool
  | some existingTool => { existingTool with spec := tool.spec }

theorem settled_spec (s : ToolNamespace) (tool : Tool) : (s.settled tool).spec = tool.spec := by
  unfold settled
  split
  next => rfl
  next => rfl

theorem settled_name (s : ToolNamespace) (tool : Tool) : (s.settled tool).name = tool.name := by
  unfold settled
  split
  next => rfl
  next existingTool h =>
    have hname : existingTool.name = tool.name := key_of_find h
    exact hname

theorem settled_congr {tool : Tool}
    (h : find Tool.name tool.name s'.tools = find Tool.name tool.name s.tools) :
    s'.settled tool = s.settled tool := by
  unfold settled
  rw [h]

theorem createOrUpdateSingleTool_eq {tool : Tool}
    (h : s.createOrUpdateSingleTool tool = some (s', writes)) :
    s' = { s with tools := put Tool.name (s.settled tool) s.tools } := by
  unfold createOrUpdateSingleTool at h
  unfold settled
  split at h
  next hfind =>
    split at h
    next =>
      obtain ⟨rfl, -⟩ := Prod.mk.inj (Option.some.inj h)
      rfl
    next => cases h
  next existingTool hfind =>
    have hname : existingTool.name = tool.name := key_of_find hfind
    split at h
    next hjson =>
      obtain ⟨rfl, -⟩ := Prod.mk.inj (Option.some.inj h)
      have hsame : { existingTool with spec := tool.spec } = existingTool := by
        rw [ToolSpec.json_inj.mp hjson]
      rw [hsame, put_of_find (by rw [hname]; exact hfind)]
    next =>
      obtain ⟨rfl, -⟩ := Prod.mk.inj (Option.some.inj h)
      rfl

/-- A Tool that has its spec is not written. -/
theorem createOrUpdateSingleTool_of_spec {tool existingTool : Tool}
    (hfind : find Tool.name tool.name s.tools = some existingTool)
    (hspec : existingTool.spec = tool.spec) : s.createOrUpdateSingleTool tool = some (s, []) := by
  unfold createOrUpdateSingleTool
  rw [hfind]
  exact if_pos (ToolSpec.json_inj.mpr hspec.symm)

theorem createOrUpdateSingleTool_of_ne {tool existingTool : Tool}
    (hfind : find Tool.name tool.name s.tools = some existingTool)
    (hspec : existingTool.spec ≠ tool.spec) : s.createOrUpdateSingleTool tool =
      some ({ s with tools := put Tool.name { existingTool with spec := tool.spec } s.tools },
        [.update { existingTool with spec := tool.spec }]) := by
  unfold createOrUpdateSingleTool
  rw [hfind]
  exact if_neg fun hjson => hspec (ToolSpec.json_inj.mp hjson).symm

/-- The Tool that a reconcile leaves for a listed tool. -/
def toolFor (s : ToolNamespace) (mcpServer : MCPServer) (mcpTool : ListedTool) : Tool :=
  s.settled (buildToolCRD mcpServer s.name mcpTool)

theorem toolFor_name (mcpTool : ListedTool) :
    (s.toolFor mcpServer mcpTool).name = objectName mcpServer mcpTool := settled_name s _

/-- Under a generated name there is the Tool for the listed tool, elsewhere what there was. -/
theorem find_createEach {mcpTools : List ListedTool}
    (h : createEach mcpServer mcpTools s = some (s', writes))
    (hnodup : (mcpTools.map (objectName mcpServer)).Nodup) :
    s'.name = s.name ∧ ((s.tools.map (·.name)).Nodup → (s'.tools.map (·.name)).Nodup) ∧
      ∀ name, find Tool.name name s'.tools =
        ((mcpTools.find? fun t => objectName mcpServer t = name).map (s.toolFor mcpServer)).or
          (find Tool.name name s.tools) := by
  induction mcpTools generalizing s writes with
  | nil =>
    obtain ⟨rfl, -⟩ := Prod.mk.inj (Option.some.inj h)
    exact ⟨rfl, id, fun _ => rfl⟩
  | cons mcpTool mcpTools ih =>
    obtain ⟨⟨s₁, writes₁⟩, hfirst, h⟩ := Option.bind_eq_some_iff.mp h
    obtain ⟨⟨s₂, writes₂⟩, hrest, h⟩ := Option.bind_eq_some_iff.mp h
    obtain ⟨rfl, -⟩ := Prod.mk.inj (Option.some.inj h)
    obtain ⟨hfresh, hnodup⟩ := List.nodup_cons.mp hnodup
    have hsettled : (s.settled (buildToolCRD mcpServer s.name mcpTool)).name =
        objectName mcpServer mcpTool := settled_name s _
    obtain rfl := createOrUpdateSingleTool_eq hfirst
    obtain ⟨hname, hkeys, hfind⟩ := ih hrest hnodup
    refine ⟨hname, fun hs => hkeys (nodup_put hs), fun name => ?_⟩
    rw [hfind, find_put, hsettled]
    by_cases hobject : objectName mcpServer mcpTool = name
    · have hnone : mcpTools.find? (fun t => objectName mcpServer t = name) = none := by
        rw [List.find?_eq_none]
        intro t ht htname
        apply hfresh
        rw [hobject, ← of_decide_eq_true htname]
        exact List.mem_map_of_mem ht
      have hhead : (mcpTool :: mcpTools).find? (fun t => objectName mcpServer t = name) =
          some mcpTool := List.find?_cons_of_pos (decide_eq_true hobject)
      rw [hnone, hhead, if_pos hobject.symm]
      rfl
    · rw [List.find?_cons_of_neg (by simpa using hobject), if_neg (Ne.symm hobject)]
      congr 1
      apply Option.map_congr
      intro t ht
      have hne : objectName mcpServer t ≠ objectName mcpServer mcpTool := by
        intro heq
        apply hfresh
        rw [← heq]
        exact List.mem_map_of_mem (List.mem_of_find?_eq_some ht)
      apply settled_congr
      change find Tool.name (objectName mcpServer t) (put Tool.name _ s.tools) = _
      rw [find_put, hsettled, if_neg hne]
      rfl

theorem tools_deleteEach {names : List String} (h : deleteEach names s = some (s', writes)) :
    s'.name = s.name ∧ s'.tools = s.tools.filter fun tool => tool.name ∉ names := by
  induction names generalizing s writes with
  | nil =>
    obtain ⟨rfl, -⟩ := Prod.mk.inj (Option.some.inj h)
    exact ⟨rfl, by simp⟩
  | cons name names ih =>
    obtain ⟨s₁, hfirst, h⟩ := Option.bind_eq_some_iff.mp h
    obtain ⟨⟨s₂, writes₂⟩, hrest, h⟩ := Option.bind_eq_some_iff.mp h
    obtain ⟨rfl, -⟩ := Prod.mk.inj (Option.some.inj h)
    unfold deleteTool at hfirst
    split at hfirst
    next => cases hfirst
    next =>
      obtain rfl := Option.some.inj hfirst
      obtain ⟨hname, htools⟩ := ih hrest
      refine ⟨hname, ?_⟩
      rw [htools, remove, List.filter_filter]
      apply List.filter_congr
      intro tool _
      simp [Bool.and_comm]

/-- The names of the Tools that a reconcile deletes. -/
def zombies (s : ToolNamespace) (mcpServer : MCPServer) (mcpTools : List ListedTool) : List String :=
  ((s.listAllMCPTools mcpServer.name).map (·.name)).filter
    fun name => name ∉ mcpTools.map (objectName mcpServer)

theorem find_createTools {mcpTools : List ListedTool}
    (h : s.createTools mcpServer mcpTools = some (s', writes))
    (hnodup : (mcpTools.map (objectName mcpServer)).Nodup) :
    s'.name = s.name ∧ ((s.tools.map (·.name)).Nodup → (s'.tools.map (·.name)).Nodup) ∧
      ∀ name, find Tool.name name s'.tools = if name ∈ s.zombies mcpServer mcpTools then none else
        ((mcpTools.find? fun t => objectName mcpServer t = name).map (s.toolFor mcpServer)).or
          (find Tool.name name s.tools) := by
  obtain ⟨⟨s₁, writes₁⟩, hcreate, h⟩ := Option.bind_eq_some_iff.mp h
  obtain ⟨⟨s₂, writes₂⟩, hdelete, h⟩ := Option.bind_eq_some_iff.mp h
  obtain ⟨rfl, -⟩ := Prod.mk.inj (Option.some.inj h)
  obtain ⟨hname, hkeys, hfind⟩ := find_createEach hcreate hnodup
  obtain ⟨hname', hfilter⟩ := tools_deleteEach hdelete
  have htools : s₂.tools = s₁.tools.filter fun tool => tool.name ∉ s.zombies mcpServer mcpTools :=
    hfilter
  refine ⟨hname'.trans hname, fun hs => ?_, fun name => ?_⟩
  · rw [htools]
    exact (hkeys hs).sublist (List.filter_sublist.map _)
  · rw [htools, ← hfind, find_filter_key (fun name => name ∉ s.zombies mcpServer mcpTools)]
    by_cases hzombie : name ∈ s.zombies mcpServer mcpTools
    · rw [if_pos hzombie, if_neg (by simpa using hzombie)]
    · rw [if_neg hzombie, if_pos (by simpa using hzombie)]

/-! ### Reconciles that do not meet -/

/-- The Tool's spec names the server. -/
def names (s : ToolNamespace) (mcpServer : MCPServer) (tool : Tool) : Prop :=
  ∃ ref, tool.spec.mcp = some ref ∧ ref.mcpServerRef = ⟨mcpServer.name, s.name⟩

/-- Tools have distinct names, and those of MCP servers have the label of the server that they name. -/
structure Labelled (s : ToolNamespace) : Prop where
  nodup : (s.tools.map (·.name)).Nodup
  label : ∀ tool ∈ s.tools, ∀ ref, tool.spec.mcp = some ref → ref.mcpServerRef.namespace = s.name ∧
    tool.labels.lookup mcpServerLabel = some ref.mcpServerRef.name

/-- The generated names are distinct, and where there is a Tool under one of them it is the server's. -/
structure Apart (s : ToolNamespace) (mcpServer : MCPServer) (mcpTools : List ListedTool) : Prop where
  distinct : (mcpTools.map (objectName mcpServer)).Nodup
  own : ∀ tool ∈ s.tools, tool.name ∈ mcpTools.map (objectName mcpServer) → s.names mcpServer tool

variable {mcpTools : List ListedTool}

theorem toolFor_names (s : ToolNamespace) (mcpServer : MCPServer) (mcpTool : ListedTool) :
    s.names mcpServer (s.toolFor mcpServer mcpTool) :=
  ⟨⟨⟨mcpServer.name, s.name⟩, mcpTool.name⟩, by rw [toolFor, settled_spec]; rfl, rfl⟩

theorem toolFor_label (hlabelled : s.Labelled) (hapart : s.Apart mcpServer mcpTools)
    {mcpTool : ListedTool} (hmem : mcpTool ∈ mcpTools) :
    (s.toolFor mcpServer mcpTool).labels.lookup mcpServerLabel = some mcpServer.name := by
  unfold toolFor settled
  split
  next => simp [buildToolCRD]
  next existingTool hfind =>
    have hname : existingTool.name = objectName mcpServer mcpTool := key_of_find hfind
    have htool := mem_of_find hfind
    obtain ⟨ref, hmcp, hserver⟩ := hapart.own existingTool htool
      (by rw [hname]; exact List.mem_map_of_mem hmem)
    rw [(hlabelled.label existingTool htool ref hmcp).2, hserver]

theorem find_objectName (hdistinct : (mcpTools.map (objectName mcpServer)).Nodup)
    {mcpTool : ListedTool} (hmem : mcpTool ∈ mcpTools) :
    mcpTools.find? (fun t => objectName mcpServer t = objectName mcpServer mcpTool) =
      some mcpTool := by
  have hfind : find (objectName mcpServer) (objectName mcpServer mcpTool) mcpTools = some mcpTool :=
    find_of_mem hdistinct hmem
  exact hfind

/-- A Tool after a reconcile is the Tool for a listed tool, or it was there before and is no zombie. -/
theorem mem_createTools (hlabelled : s.Labelled)
    (hdistinct : (mcpTools.map (objectName mcpServer)).Nodup)
    (h : s.createTools mcpServer mcpTools = some (s', writes)) {tool : Tool} :
    tool ∈ s'.tools ↔ (∃ mcpTool ∈ mcpTools, tool = s.toolFor mcpServer mcpTool) ∨
      tool ∈ s.tools ∧ tool.name ∉ mcpTools.map (objectName mcpServer) ∧
        tool.labels.lookup mcpServerLabel ≠ some mcpServer.name := by
  obtain ⟨-, hkeys, hfind⟩ := find_createTools h hdistinct
  have hmem {s : ToolNamespace} (hn : (s.tools.map (·.name)).Nodup) :
      tool ∈ s.tools ↔ find Tool.name tool.name s.tools = some tool :=
    ⟨find_of_mem hn, mem_of_find⟩
  rw [hmem (hkeys hlabelled.nodup), hfind, hmem hlabelled.nodup]
  by_cases hgenerated : tool.name ∈ mcpTools.map (objectName mcpServer)
  · obtain ⟨mcpTool, hmcpTool, hobject⟩ := List.mem_map.mp hgenerated
    have hzombie : tool.name ∉ s.zombies mcpServer mcpTools := by
      intro hzombie
      have hnot := (List.mem_filter.mp hzombie).2
      exact of_decide_eq_true hnot hgenerated
    rw [if_neg hzombie, ← hobject, find_objectName hdistinct hmcpTool]
    constructor
    · intro htool
      exact .inl ⟨mcpTool, hmcpTool, (Option.some.inj htool).symm⟩
    · rintro (⟨mcpTool', hmcpTool', rfl⟩ | ⟨-, hnot, -⟩)
      · rw [toolFor_name] at hobject
        have hsame := find_objectName hdistinct hmcpTool
        rw [hobject, find_objectName hdistinct hmcpTool'] at hsame
        obtain rfl := Option.some.inj hsame
        rfl
      · exact absurd (hobject ▸ hgenerated) hnot
  · have hnone : mcpTools.find? (fun t => objectName mcpServer t = tool.name) = none := by
      rw [List.find?_eq_none]
      intro t ht htname
      exact hgenerated (of_decide_eq_true htname ▸ List.mem_map_of_mem ht)
    rw [hnone, Option.map_none, Option.none_or]
    constructor
    · intro htool
      split at htool
      next => cases htool
      next hzombie =>
        refine .inr ⟨htool, hgenerated, fun hlabel => hzombie ?_⟩
        have hlisted : tool ∈ s.listAllMCPTools mcpServer.name :=
          List.mem_filter.mpr ⟨mem_of_find htool, decide_eq_true hlabel⟩
        exact List.mem_filter.mpr ⟨List.mem_map_of_mem hlisted, decide_eq_true hgenerated⟩
    · rintro (⟨mcpTool, hmcpTool, rfl⟩ | ⟨htool, -, hlabel⟩)
      · rw [toolFor_name] at hgenerated
        exact absurd (List.mem_map_of_mem hmcpTool) hgenerated
      · rw [if_neg]
        · exact htool
        · intro hzombie
          obtain ⟨tool', htool', hname⟩ := List.mem_map.mp (List.mem_filter.mp hzombie).1
          obtain ⟨htool', hlabel'⟩ := List.mem_filter.mp htool'
          have hsame : find Tool.name tool'.name s.tools = some tool' :=
            find_of_mem hlabelled.nodup htool'
          rw [hname, htool] at hsame
          obtain rfl := Option.some.inj hsame
          exact hlabel (of_decide_eq_true hlabel')

theorem labelled_createTools (hlabelled : s.Labelled) (hapart : s.Apart mcpServer mcpTools)
    (h : s.createTools mcpServer mcpTools = some (s', writes)) : s'.Labelled := by
  obtain ⟨hname, hkeys, -⟩ := find_createTools h hapart.distinct
  refine ⟨hkeys hlabelled.nodup, fun tool htool ref hmcp => ?_⟩
  rw [hname]
  obtain ⟨mcpTool, hmcpTool, rfl⟩ | ⟨htool, -, -⟩ :=
    (mem_createTools hlabelled hapart.distinct h).mp htool
  · obtain ⟨ref', hmcp', hserver⟩ := s.toolFor_names mcpServer mcpTool
    rw [hmcp] at hmcp'
    obtain rfl := Option.some.inj hmcp'
    rw [hserver]
    exact ⟨rfl, toolFor_label hlabelled hapart hmcpTool⟩
  · exact hlabelled.label tool htool ref hmcp

/-- The Tool object says of the tool what the server says. -/
structure Describes (mcpTool : ListedTool) (tool : Tool) : Prop where
  toolName : tool.spec.mcp.map (·.toolName) = some mcpTool.name
  description : tool.spec.description = mcpTool.description
  inputSchema : tool.spec.inputSchema = mcpTool.inputSchema

/-- The Tools that name the server, in some order, are its listed tools. -/
def Synced (s : ToolNamespace) (mcpServer : MCPServer) (mcpTools : List ListedTool) : Prop :=
  ∃ tools, List.Forall₂ Describes mcpTools tools ∧ tools.Nodup ∧
    ∀ tool, tool ∈ tools ↔ tool ∈ s.tools ∧ s.names mcpServer tool

theorem synced_createTools (hlabelled : s.Labelled) (hapart : s.Apart mcpServer mcpTools)
    (h : s.createTools mcpServer mcpTools = some (s', writes)) : s'.Synced mcpServer mcpTools := by
  have hname := (find_createTools h hapart.distinct).1
  refine ⟨mcpTools.map (s.toolFor mcpServer), ?_, ?_, fun tool => ?_⟩
  · rw [List.forall₂_map_right_iff, List.forall₂_same]
    intro mcpTool _
    have hspec : (s.toolFor mcpServer mcpTool).spec = (buildToolCRD mcpServer s.name mcpTool).spec :=
      settled_spec s _
    exact ⟨by rw [hspec]; rfl, by rw [hspec]; rfl, by rw [hspec]; rfl⟩
  · apply List.Nodup.of_map Tool.name
    rw [List.map_map]
    have hnames : Tool.name ∘ s.toolFor mcpServer = objectName mcpServer := funext fun _ => toolFor_name _
    rw [hnames]
    exact hapart.distinct
  · rw [List.mem_map, mem_createTools hlabelled hapart.distinct h]
    constructor
    · rintro ⟨mcpTool, hmcpTool, rfl⟩
      refine ⟨.inl ⟨mcpTool, hmcpTool, rfl⟩, ?_⟩
      obtain ⟨ref, hmcp, hserver⟩ := s.toolFor_names mcpServer mcpTool
      exact ⟨ref, hmcp, by rw [hserver, hname]⟩
    · rintro ⟨⟨mcpTool, hmcpTool, rfl⟩ | ⟨htool, -, hlabel⟩, ref, hmcp, hserver⟩
      · exact ⟨mcpTool, hmcpTool, rfl⟩
      · rw [(hlabelled.label tool htool ref hmcp).2, hserver] at hlabel
        exact absurd rfl hlabel

/-- A Tool of another server is neither changed nor deleted. -/
theorem keeps_createTools (hlabelled : s.Labelled) (hapart : s.Apart mcpServer mcpTools)
    (h : s.createTools mcpServer mcpTools = some (s', writes)) {tool : Tool} (htool : tool ∈ s.tools)
    (hmcp : tool.spec.mcp ≠ none) (hother : ¬ s.names mcpServer tool) : tool ∈ s'.tools := by
  rw [mem_createTools hlabelled hapart.distinct h]
  refine .inr ⟨htool, fun hgenerated => hother (hapart.own tool htool hgenerated), fun hlabel => ?_⟩
  obtain ⟨ref, href⟩ := Option.ne_none_iff_exists'.mp hmcp
  obtain ⟨hns, hlabel'⟩ := hlabelled.label tool htool ref href
  rw [hlabel] at hlabel'
  have hserver : ref.mcpServerRef = ⟨mcpServer.name, s.name⟩ := by
    rw [← hns, Option.some.inj hlabel']
  exact hother ⟨ref, href, hserver⟩

/-! ### A second reconcile -/

theorem createEach_of_spec (h : ∀ mcpTool ∈ mcpTools, ∃ tool,
    find Tool.name (objectName mcpServer mcpTool) s.tools = some tool ∧
      tool.spec = (buildToolCRD mcpServer s.name mcpTool).spec) :
    createEach mcpServer mcpTools s = some (s, []) := by
  induction mcpTools with
  | nil => rfl
  | cons mcpTool mcpTools ih =>
    obtain ⟨⟨tool, hfind, hspec⟩, hrest⟩ := List.forall_mem_cons.mp h
    have hfirst : s.createOrUpdateSingleTool (buildToolCRD mcpServer s.name mcpTool) = some (s, []) :=
      createOrUpdateSingleTool_of_spec hfind hspec
    rw [createEach, hfirst]
    change (createEach mcpServer mcpTools s >>= _) = _
    rw [ih hrest]
    rfl

theorem createTools_again (hlabelled : s.Labelled) (hapart : s.Apart mcpServer mcpTools)
    (h : s.createTools mcpServer mcpTools = some (s', writes)) :
    s'.createTools mcpServer mcpTools = some (s', []) := by
  have hname := (find_createTools h hapart.distinct).1
  have hnodup := (labelled_createTools hlabelled hapart h).nodup
  have hcreate : createEach mcpServer mcpTools s' = some (s', []) := by
    apply createEach_of_spec
    intro mcpTool hmcpTool
    have hmem : s.toolFor mcpServer mcpTool ∈ s'.tools :=
      (mem_createTools hlabelled hapart.distinct h).mpr (.inl ⟨mcpTool, hmcpTool, rfl⟩)
    refine ⟨s.toolFor mcpServer mcpTool, ?_, ?_⟩
    · rw [← toolFor_name (s := s)]
      exact find_of_mem hnodup hmem
    · rw [hname]
      exact settled_spec s _
  have hzombies : s'.zombies mcpServer mcpTools = [] := by
    apply List.filter_eq_nil_iff.mpr
    intro name hlisted
    obtain ⟨tool, htool, rfl⟩ := List.mem_map.mp hlisted
    obtain ⟨htool, hlabel⟩ := List.mem_filter.mp htool
    obtain ⟨mcpTool, hmcpTool, rfl⟩ | ⟨-, -, hnot⟩ :=
      (mem_createTools hlabelled hapart.distinct h).mp htool
    · rw [toolFor_name]
      simpa using ⟨mcpTool, hmcpTool, rfl⟩
    · exact absurd (of_decide_eq_true hlabel) hnot
  have hdelete : deleteEach (s'.zombies mcpServer mcpTools) s' = some (s', []) := by
    rw [hzombies]
    rfl
  unfold createTools
  rw [hcreate]
  change (deleteEach (s'.zombies mcpServer mcpTools) s' >>= _) = _
  rw [hdelete]
  rfl

end ToolNamespace

/-- What a successful reconcile of a server has to leave. -/
structure Exact (s : ToolNamespace) (mcpServer : MCPServer) (mcpTools : List ListedTool)
    (s' : ToolNamespace) : Prop where
  synced : s'.Synced mcpServer mcpTools
  isolated : ∀ tool ∈ s.tools, tool.spec.mcp ≠ none → ¬ s.names mcpServer tool → tool ∈ s'.tools
  again : s'.createTools mcpServer mcpTools = some (s', [])

/-- The condition on a reconcile and the Tools that it finds. -/
def SyncAction.Apart (s : ToolNamespace) : SyncAction → Prop
  | .reconcile mcpServer listing => s.Apart mcpServer listing.tools

theorem labelled_of_reachable {s : ToolNamespace} (h : syncMachine.Reachable SyncAction.Apart s) :
    s.Labelled := by
  apply h.invariant
  · rintro s ⟨hnodup, hnone⟩
    refine ⟨hnodup, fun tool htool ref hmcp => ?_⟩
    have hnone := hnone tool htool
    rw [hmcp] at hnone
    cases hnone
  · rintro s ⟨mcpServer, listing⟩ t hlabelled hapart hs
    obtain ⟨⟨s', writes⟩, hcreate, rfl⟩ := Option.map_eq_some_iff.mp hs
    exact ToolNamespace.labelled_createTools hlabelled hapart hcreate

/-- In a run of reconciles that do not meet, each is exact, isolated and settled. -/
theorem tool_sync_exact {s s' : ToolNamespace} (h : syncMachine.Reachable SyncAction.Apart s)
    {mcpServer : MCPServer} {listing : Listing} {writes : List Write}
    (hapart : SyncAction.Apart s (.reconcile mcpServer listing))
    (hrun : s.createTools mcpServer listing.tools = some (s', writes)) :
    Exact s mcpServer listing.tools s' := by
  have hlabelled := labelled_of_reachable h
  exact ⟨ToolNamespace.synced_createTools hlabelled hapart hrun,
    fun _ htool hmcp => ToolNamespace.keeps_createTools hlabelled hapart hrun htool hmcp,
    ToolNamespace.createTools_again hlabelled hapart hrun⟩

/-! ### A server whose tools meet -/

def files : MCPServer := ⟨"files", "uid", []⟩

def emptyNamespace : ToolNamespace := ⟨"default", []⟩

def getX : Listing := ⟨[{ name := "get_x" }], by decide⟩

def firstTool : Tool := buildToolCRD files "default" { name := "get_x" }

theorem init_emptyNamespace : syncMachine.init emptyNamespace := ⟨List.nodup_nil, nofun⟩

theorem tool_sync_exact_first : syncMachine.Reachable SyncAction.Apart emptyNamespace ∧
    SyncAction.Apart emptyNamespace (.reconcile files getX) ∧
    Exact emptyNamespace files getX.tools ⟨"default", [firstTool]⟩ := by
  have hreach : syncMachine.Reachable SyncAction.Apart emptyNamespace := .init init_emptyNamespace
  have hapart : SyncAction.Apart emptyNamespace (.reconcile files getX) :=
    ⟨List.nodup_singleton _, nofun⟩
  have hrun : emptyNamespace.createTools files getX.tools =
      some (⟨"default", [firstTool]⟩, [.create firstTool]) := rfl
  exact ⟨hreach, hapart, tool_sync_exact hreach hapart hrun⟩

def secondTool : Tool := buildToolCRD files "default" { name := "get-x" }

def getBoth : Listing := ⟨[{ name := "get_x" }, { name := "get-x" }], by decide⟩

/-- The second tool takes the Tool of the first. -/
theorem listed_tools_meet : ¬ ∀ s s' : ToolNamespace, syncMachine.Reachable Machine.always s →
    ∀ (mcpServer : MCPServer) (listing : Listing) (writes : List Write),
      s.createTools mcpServer listing.tools = some (s', writes) →
        Exact s mcpServer listing.tools s' := by
  intro h
  have hspec : firstTool.spec ≠ secondTool.spec := by
    intro hspec
    have hname := congrArg (fun spec => spec.mcp.map (·.toolName)) hspec
    exact absurd (Option.some.inj hname) (by decide)
  have hupdate : ToolNamespace.createOrUpdateSingleTool ⟨"default", [firstTool]⟩ secondTool =
      some (⟨"default", [secondTool]⟩, [.update secondTool]) :=
    ToolNamespace.createOrUpdateSingleTool_of_ne rfl hspec
  have hcreate : emptyNamespace.createOrUpdateSingleTool firstTool =
      some (⟨"default", [firstTool]⟩, [.create firstTool]) := rfl
  have hrest : ToolNamespace.createEach files [{ name := "get-x" }] ⟨"default", [firstTool]⟩ =
      some (⟨"default", [secondTool]⟩, [.update secondTool]) := by
    change (ToolNamespace.createOrUpdateSingleTool ⟨"default", [firstTool]⟩ secondTool >>= _) = _
    rw [hupdate]
    rfl
  have hboth : ToolNamespace.createEach files getBoth.tools emptyNamespace =
      some (⟨"default", [secondTool]⟩, [.create firstTool, .update secondTool]) := by
    change (emptyNamespace.createOrUpdateSingleTool firstTool >>= _) = _
    rw [hcreate, Option.bind_eq_bind, Option.bind_some]
    dsimp only
    rw [hrest]
    rfl
  have hrun : emptyNamespace.createTools files getBoth.tools =
      some (⟨"default", [secondTool]⟩, [.create firstTool, .update secondTool]) := by
    change (ToolNamespace.createEach files getBoth.tools emptyNamespace >>= _) = _
    rw [hboth]
    rfl
  obtain ⟨tools, htools, hnodup, hmem⟩ := (h _ _ (.init init_emptyNamespace) _ _ _ hrun).synced
  obtain ⟨x, y, rfl⟩ := List.length_eq_two.mp htools.length_eq.symm
  have hx := List.mem_singleton.mp ((hmem x).mp List.mem_cons_self).1
  have hy := List.mem_singleton.mp ((hmem y).mp (List.mem_cons_of_mem x List.mem_cons_self)).1
  rw [hx, hy] at hnodup
  exact (List.nodup_cons.mp hnodup).1 List.mem_cons_self

end Ark.MCP
