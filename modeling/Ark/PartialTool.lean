import Ark.AgentLoop
import Ark.GoJson
import Mathlib.Data.List.Induction
import Mathlib.Data.List.Nodup

/-!
# Partial tools

An entry of an agent's tools may fix parameters of a Tool resource. The registration hides them from
the schema that the model sees, and `PartialToolExecutor` merges their values with the model's
arguments before it calls the tool's own executor. Reads of the cluster, templates and the texts of
JSON errors are the fields of a `PartialEnv`.
-/

namespace Ark

open Json GoJson

structure KeySelector where
  name : String
  key : String
  deriving DecidableEq, Repr

structure ValueFromSource where
  configMapKeyRef : Option KeySelector
  secretKeyRef : Option KeySelector
  queryParameterRef : Option String
  deriving DecidableEq, Repr

/-- A parameter of a partial tool with the source of its value. -/
structure PartialParameter extends ToolFunction where
  valueFrom : Option ValueFromSource
  deriving DecidableEq, Repr

/-- `query` are the parameters of the query in the context. A numeral that is out of range has no
`float64`. -/
structure PartialEnv where
  query : Option (List (String × String))
  configMap : KeySelector → Except String String
  secret : KeySelector → Except String String
  resolveTemplate : String → List (String × String) → Except String String
  unmarshalError : String → String
  float64 : Numeral → Option Numeral

namespace PartialEnv

variable (env : PartialEnv)

def resolveQueryParameterRef (name : String) : Except String String :=
  match env.query with
  | none => .error "queryParameterRef requires query context"
  | some parameters =>
    match parameters.lookup name with
    | none => .error ("query parameter '" ++ name ++ "' not found")
    | some value =>
      if value ≠ "" then .ok value else .error ("query parameter '" ++ name ++ "' has no value")

def resolveValueFrom (source : ValueFromSource) : Except String String :=
  match source.configMapKeyRef, source.secretKeyRef, source.queryParameterRef with
  | some ref, _, _ => env.configMap ref
  | none, some ref, _ => env.secret ref
  | none, none, some name => env.resolveQueryParameterRef name
  | none, none, none => .error "no supported valueFrom source specified"

def resolveParameter (data : List (String × String)) (param : PartialParameter) :
    Except String String :=
  match param.valueFrom with
  | some source => env.resolveValueFrom source
  | none => if param.value = "" then .ok "" else env.resolveTemplate param.value data

/-- The parameters with their values, up to the first that has none. -/
def resolveParameters (data : List (String × String)) :
    List PartialParameter → Except String (List (String × String))
  | [] => .ok []
  | param :: params =>
    match env.resolveParameter data param with
    | .error err => .error ("failed to resolve partial parameter '" ++ param.name ++ "': " ++ err)
    | .ok value => (resolveParameters data params).map ((param.name, value) :: ·)

def read (n : Numeral) : Numeral := (env.float64 n).getD n

/-- The model's arguments as a map. -/
def agentParams (arguments : String) : Except String (List (Text × Value)) :=
  let failure := .error ("failed to parse arguments: " ++ env.unmarshalError arguments)
  if arguments = "" then .ok []
  else match unmarshal arguments with
    | some (.obj fields) =>
      if (numeralsOfFields fields).all fun n => (env.float64 n).isSome then
        .ok (decodeFields env.read fields [])
      else failure
    | some .null => .ok []
    | _ => failure

end PartialEnv

/-- `partialParams`: of parameters with one name the last stays. -/
def partialParams (resolved : List (String × String)) : List (Text × Value) :=
  resolved.foldl (fun m p => assign (literal p.1) (.str (literal p.2)) m) []

/-- `mergedParams`: the model's arguments are assigned over the others. -/
def mergedParams (partialParams agentParams : List (Text × Value)) : List (Text × Value) :=
  agentParams.foldr (fun f m => assign f.1 f.2 m) partialParams

/-- `PartialToolExecutor.Execute` up to the call of the base executor: what it returns without that
call, or the call. -/
def partialToolExecute (env : PartialEnv) (toolPartial : Option (List PartialParameter))
    (call : ToolCall) : Except (ToolResult × ToolError) ToolCall :=
  let failure (text : String) : ToolResult × ToolError :=
    ({ id := call.id, name := call.name, error := text }, .failed text)
  match env.agentParams call.arguments with
  | .error text => .error (failure text)
  | .ok agentParams =>
    let baseCall (params : List (Text × Value)) : ToolCall :=
      { call with arguments := marshal (.obj (mergedParams params agentParams)) }
    match toolPartial, env.query with
    | none, _ => .ok (baseCall [])
    | some _, none =>
      .error (failure "failed to resolve query context for partial parameter template")
    | some params, some data =>
      match env.resolveParameters data params with
      | .error text => .error (failure text)
      | .ok resolved => .ok (baseCall (partialParams resolved))

/-! ### What is exposed -/

namespace SchemaValue

/-- The names that a schema's `properties` or `required` has. -/
def names : SchemaValue → List String
  | .object fields => fields.map Prod.fst
  | .strings values => values
  | .array items => items.filterMap fun
    | .str s => some s
    | .other _ => none
  | .other _ => []

end SchemaValue

/-- The schema has no name of a parameter that the entry fixes. -/
def Hides (t : AgentTool) (definition : ToolDefinition) : Prop :=
  ∀ p, t.toolPartial = some p → ∀ param ∈ p.parameters, ∀ key ∈ ["properties", "required"],
    ∀ value, definition.parameters key = some value → param.name ∉ value.names

/-- Every entry has a definition and an executor of its own. -/
def Exposes (tools : List AgentTool) (r : ToolRegistry) : Prop :=
  ∀ t ∈ tools, ∃ name definition registered, r.tools name = some definition ∧
    r.executors name = some registered ∧ registered.entry = t

/-- The arguments that a JSON object names, with their numbers as they are written. -/
def argumentsOf (raw : List (Text × Value)) : List (Text × Value) :=
  decodeFields (fun n => n) raw []

/-- The base executor is called with the resolved values and the model's other arguments. -/
def Receives (resolved : List (String × String)) (args : List (Text × Value)) (call : ToolCall)
    (result : Except (ToolResult × ToolError) ToolCall) : Prop :=
  ∃ baseCall fields, result = .ok baseCall ∧ baseCall.id = call.id ∧ baseCall.name = call.name ∧
    unmarshal baseCall.arguments = some (.obj fields) ∧
    (∀ p ∈ resolved, lookup (literal p.1) fields = some (.str (literal p.2))) ∧
    ∀ key, (∀ p ∈ resolved, literal p.1 ≠ key) →
      Option.Rel Same (lookup key fields) (lookup key args)

/-- No argument disputes a resolved value, nor a parameter of the same name where there is no
argument. -/
def Undisputed (resolved : List (String × String)) (args : List (Text × Value)) : Prop :=
  ∀ p ∈ resolved,
    (∀ value, lookup (literal p.1) args = some value → value = .str (literal p.2)) ∧
      (lookup (literal p.1) args = none → ∀ p' ∈ resolved, p'.1 = p.1 → p'.2 = p.2)

/-- Every number of the call has a `float64`, and the numbers of the arguments that are not
configured are the numbers of their `float64`s. -/
def Representable (env : PartialEnv) (resolved : List (String × String))
    (raw : List (Text × Value)) : Prop :=
  (∀ n ∈ numeralsOfFields raw, (env.float64 n).isSome = true) ∧
    ∀ key, (∀ p ∈ resolved, literal p.1 ≠ key) → ∀ value,
      lookup key (argumentsOf raw) = some value →
        ∀ n ∈ numerals value, number (env.read n).1 = number n.1

/-! ### Merged arguments -/

theorem lookup_mergedParams (params args : List (Text × Value)) (key : Text) :
    lookup key (mergedParams params args) = (lookup key args).or (lookup key params) := by
  induction args with
  | nil => rfl
  | cons f args ih =>
    rw [mergedParams, List.foldr_cons]
    change lookup key (assign f.1 f.2 (mergedParams params args)) = _
    rw [lookup_assign, ih, lookup]
    by_cases hkey : f.1 = key
    · rw [if_pos hkey.symm, if_pos hkey, Option.some_or]
    · rw [if_neg (Ne.symm hkey), if_neg hkey]

theorem partialParams_append (resolved : List (String × String)) (p : String × String) :
    partialParams (resolved ++ [p]) =
      assign (literal p.1) (.str (literal p.2)) (partialParams resolved) := by
  rw [partialParams, List.foldl_append]
  rfl

/-- A value among the parameters is the value of one of them. -/
theorem mem_of_lookup_partialParams {resolved : List (String × String)} {name : String}
    {value : Value} (h : lookup (literal name) (partialParams resolved) = some value) :
    ∃ p ∈ resolved, p.1 = name ∧ value = .str (literal p.2) := by
  induction resolved using List.reverseRecOn with
  | nil => cases h
  | append_singleton resolved p ih =>
    rw [partialParams_append, lookup_assign] at h
    split at h
    next hname =>
      refine ⟨p, by simp, (literal_injective hname).symm, (Option.some.inj h).symm⟩
    next =>
      obtain ⟨p', hp', hname, hvalue⟩ := ih h
      exact ⟨p', List.mem_append_left _ hp', hname, hvalue⟩

theorem lookup_partialParams_isSome {resolved : List (String × String)} {p : String × String}
    (hp : p ∈ resolved) : ∃ value, lookup (literal p.1) (partialParams resolved) = some value := by
  induction resolved using List.reverseRecOn with
  | nil => cases hp
  | append_singleton resolved p' ih =>
    rw [partialParams_append, lookup_assign]
    split
    next => exact ⟨_, rfl⟩
    next hne =>
      obtain hp | hp := List.mem_append.mp hp
      · exact ih hp
      · obtain rfl := List.mem_singleton.mp hp
        exact absurd rfl hne

theorem lookup_partialParams_of_not_mem {resolved : List (String × String)} {key : Text}
    (h : ∀ p ∈ resolved, literal p.1 ≠ key) : lookup key (partialParams resolved) = none := by
  induction resolved using List.reverseRecOn with
  | nil => rfl
  | append_singleton resolved p ih =>
    rw [partialParams_append, lookup_assign, if_neg (Ne.symm (h p (by simp)))]
    exact ih fun p' hp' => h p' (List.mem_append_left _ hp')

theorem valid_partialParams (resolved : List (String × String)) :
    Valid (stringsOfFields (partialParams resolved)) := by
  have hliteral : ∀ s : String, Valid [literal s] := by
    intro s t ht
    obtain rfl := List.mem_singleton.mp ht
    exact valid_literal s
  induction resolved using List.reverseRecOn with
  | nil => simp [partialParams, stringsOfFields, Valid]
  | append_singleton resolved p ih =>
    rw [partialParams_append]
    exact valid_assign (hliteral p.1) (by rw [strings]; exact hliteral p.2) ih

theorem valid_mergedParams {params args : List (Text × Value)}
    (hparams : Valid (stringsOfFields params)) (hargs : Valid (stringsOfFields args)) :
    Valid (stringsOfFields (mergedParams params args)) := by
  induction args with
  | nil => exact hparams
  | cons f args ih =>
    obtain ⟨k, v⟩ := f
    rw [stringsOfFields, stringsOfField] at hargs
    refine valid_assign (hargs.mono ?_) (hargs.mono ?_) (ih (hargs.mono ?_))
    · intro s hs
      obtain rfl := List.mem_singleton.mp hs
      simp
    · exact fun s hs => List.mem_append_left _ (List.mem_cons_of_mem k hs)
    · exact fun s hs => List.mem_append_right _ hs

/-- The value under a configured name is the resolved one if and only if nothing disputes it. -/
theorem undisputed_iff {resolved : List (String × String)} {args : List (Text × Value)} :
    (∀ p ∈ resolved, lookup (literal p.1) (mergedParams (partialParams resolved) args) =
      some (.str (literal p.2))) ↔ Undisputed resolved args := by
  simp only [lookup_mergedParams]
  constructor
  · intro h p hp
    have hlookup := h p hp
    constructor
    · intro value hvalue
      rw [hvalue, Option.some_or] at hlookup
      exact Option.some.inj hlookup
    · intro hnone p' hp' hname
      have hlookup' := h p' hp'
      rw [hname, hlookup] at hlookup'
      simp only [Option.some.injEq, Value.str.injEq] at hlookup'
      exact (literal_injective hlookup').symm
  · intro h p hp
    obtain ⟨hargs, hsame⟩ := h p hp
    cases hlookup : lookup (literal p.1) args with
    | some value => rw [Option.some_or, hargs value hlookup]
    | none =>
      obtain ⟨value, hvalue⟩ := lookup_partialParams_isSome hp
      obtain ⟨p', hp', hname, rfl⟩ := mem_of_lookup_partialParams hvalue
      rw [Option.none_or, hvalue, hsame hlookup p' hp' hname]

/-- A configured value is a string, so it does not matter how numbers are read. -/
theorem undisputed_decodeFields_iff {g : Numeral → Numeral} {resolved : List (String × String)}
    {raw : List (Text × Value)} :
    Undisputed resolved (decodeFields g raw []) ↔ Undisputed resolved (argumentsOf raw) := by
  have hstr : ∀ (value : Value) (s : Text), mapNum g value = .str s ↔ value = .str s := by
    intro value s
    cases value <;> simp [mapNum]
  unfold Undisputed
  simp only [lookup_decodeFields g, Option.map_eq_some_iff, Option.map_eq_none_iff]
  refine forall₂_congr fun p _ => and_congr_left fun _ => ?_
  constructor
  · exact fun h value hvalue => (hstr value _).mp (h _ ⟨value, hvalue, rfl⟩)
  · rintro h value ⟨value', hvalue', rfl⟩
    exact (hstr value' _).mpr (h value' hvalue')

section Execute

variable {env : PartialEnv} {params : List PartialParameter} {call : ToolCall}
  {raw : List (Text × Value)} {data resolved : List (String × String)}

theorem agentParams_eq (hcall : unmarshal call.arguments = some (.obj raw)) :
    env.agentParams call.arguments =
      if (numeralsOfFields raw).all fun n => (env.float64 n).isSome then
        .ok (decodeFields env.read raw [])
      else .error ("failed to parse arguments: " ++ env.unmarshalError call.arguments) := by
  have hne : call.arguments ≠ "" := by
    intro hempty
    rw [hempty] at hcall
    cases hcall
  simp only [PartialEnv.agentParams, if_neg hne, hcall]

theorem partialToolExecute_eq (hcall : unmarshal call.arguments = some (.obj raw))
    (hrange : ∀ n ∈ numeralsOfFields raw, (env.float64 n).isSome = true)
    (hquery : env.query = some data) (hresolved : env.resolveParameters data params = .ok resolved) :
    partialToolExecute env (some params) call = .ok { call with
      arguments := marshal
        (.obj (mergedParams (partialParams resolved) (decodeFields env.read raw []))) } := by
  rw [← List.all_eq_true] at hrange
  simp only [partialToolExecute, agentParams_eq hcall, hrange, if_true, hquery, hresolved]

theorem partialToolExecute_range (hcall : unmarshal call.arguments = some (.obj raw))
    {baseCall : ToolCall} (h : partialToolExecute env (some params) call = .ok baseCall) :
    ∀ n ∈ numeralsOfFields raw, (env.float64 n).isSome = true := by
  rw [← List.all_eq_true]
  by_contra hrange
  simp only [partialToolExecute, agentParams_eq hcall, if_neg hrange] at h
  cases h

theorem valid_baseCall : Valid (strings (.obj
    (mergedParams (partialParams resolved) (decodeFields env.read raw [])))) := by
  have hargs := valid_decode env.read (.obj raw)
  rw [decode, strings] at hargs
  rw [strings]
  exact valid_mergedParams (valid_partialParams resolved) hargs

theorem rel_same_iff {key : Text} :
    Option.Rel Same (lookup key (decodeFields env.read raw [])) (lookup key (argumentsOf raw)) ↔
      ∀ value, lookup key (argumentsOf raw) = some value →
        ∀ n ∈ numerals value, number (env.read n).1 = number n.1 := by
  rw [lookup_decodeFields, ← argumentsOf]
  cases lookup key (argumentsOf raw) with
  | none => simp
  | some value => simp [same_mapNum_iff]

/-- The base executor gets what it should if and only if nothing disputes a resolved value and no
number is rounded. -/
theorem receives_iff (hcall : unmarshal call.arguments = some (.obj raw))
    (hquery : env.query = some data) (hresolved : env.resolveParameters data params = .ok resolved) :
    Receives resolved (argumentsOf raw) call (partialToolExecute env (some params) call) ↔
      Undisputed resolved (argumentsOf raw) ∧ Representable env resolved raw := by
  rw [← undisputed_decodeFields_iff, ← undisputed_iff]
  have hother : ∀ key, (∀ p ∈ resolved, literal p.1 ≠ key) →
      lookup key (mergedParams (partialParams resolved) (decodeFields env.read raw [])) =
        lookup key (decodeFields env.read raw []) := by
    intro key hkey
    rw [lookup_mergedParams, lookup_partialParams_of_not_mem hkey, Option.or_none]
  constructor
  · rintro ⟨baseCall, fields, hbase, -, -, hfields, hvalues, hrest⟩
    have hrange := partialToolExecute_range hcall hbase
    rw [partialToolExecute_eq hcall hrange hquery hresolved] at hbase
    obtain rfl := Except.ok.inj hbase
    dsimp only at hfields
    rw [unmarshal_marshal valid_baseCall] at hfields
    simp only [Option.some.injEq, Value.obj.injEq] at hfields
    subst hfields
    refine ⟨hvalues, hrange, fun key hkey => ?_⟩
    rw [← rel_same_iff, ← hother key hkey]
    exact hrest key hkey
  · rintro ⟨hvalues, hrange, hrest⟩
    refine ⟨_, _, partialToolExecute_eq hcall hrange hquery hresolved, rfl, rfl,
      unmarshal_marshal valid_baseCall, hvalues, fun key hkey => ?_⟩
    rw [hother key hkey, rel_same_iff]
    exact hrest key hkey

end Execute

/-! ### Registered tools -/

section Registration

variable {k : K8sClient} {ns : String} {tools : List AgentTool} {r r' : ToolRegistry}

theorem getRequiredFields_none {params : ToolParameters} (h : getRequiredFields params = .ok none) :
    params "required" = none := by
  unfold getRequiredFields at h
  split at h
  next hnone => exact hnone
  next => cases h
  next items _ => cases hitems : requiredStrings items <;> (rw [hitems] at h; cases h)
  next => cases h
  next => cases h

theorem hides_createPartialToolDefinition {definition d : ToolDefinition} {t : AgentTool}
    (h : createPartialToolDefinition definition t.toolPartial = .ok d) : Hides t d := by
  intro p hp param hparam key hkey value hvalue hmem
  rw [hp] at h
  simp only [createPartialToolDefinition] at h
  split at h
  next props hprops =>
    obtain ⟨required, hrequired, hd⟩ := bind_eq_ok.mp h
    have hinjected : param.name ∈ p.parameters.map (·.name) := List.mem_map_of_mem hparam
    have hproperties : param.name ∉ (SchemaValue.object
        (props.filter fun f => f.1 ∉ p.parameters.map (·.name))).names := by
      intro hname
      obtain ⟨f, hf, hfname⟩ := List.mem_map.mp hname
      have hfilter := (List.mem_filter.mp hf).2
      rw [hfname] at hfilter
      simp [hinjected] at hfilter
    obtain rfl | hkey := List.mem_cons.mp hkey
    · cases required with
      | none =>
        obtain rfl := Except.ok.inj hd
        dsimp only at hvalue
        rw [Function.update_self] at hvalue
        obtain rfl := Option.some.inj hvalue
        exact hproperties hmem
      | some required =>
        obtain rfl := Except.ok.inj hd
        dsimp only at hvalue
        rw [Function.update_of_ne (by decide), Function.update_self] at hvalue
        obtain rfl := Option.some.inj hvalue
        exact hproperties hmem
    · obtain rfl := List.mem_singleton.mp hkey
      cases required with
      | none =>
        obtain rfl := Except.ok.inj hd
        exact absurd ((getRequiredFields_none hrequired).symm.trans hvalue) (by simp)
      | some required =>
        obtain rfl := Except.ok.inj hd
        dsimp only at hvalue
        rw [Function.update_self] at hvalue
        obtain rfl := Option.some.inj hvalue
        have hfilter := (List.mem_filter.mp hmem).2
        simp [hinjected] at hfilter
  next => cases h

/-- Definitions and executors are registered together, and no definition has a fixed name. -/
structure Paired (r : ToolRegistry) : Prop where
  both : ∀ name, (r.tools name).isSome = (r.executors name).isSome
  hides : ∀ name definition registered, r.tools name = some definition →
    r.executors name = some registered → Hides registered.entry definition

theorem paired_new : Paired .new := ⟨fun _ => rfl, fun _ _ _ h => by cases h⟩

theorem Paired.registerTool {t : AgentTool} (hr : Paired r)
    (h : r.registerTool k ns t = .ok r') : Paired r' := by
  unfold ToolRegistry.registerTool at h
  obtain ⟨tool, -, h⟩ := bind_eq_ok.mp h
  obtain ⟨base, -, h⟩ := bind_eq_ok.mp h
  obtain ⟨definition, hdef, h⟩ := bind_eq_ok.mp h
  obtain rfl := Except.ok.inj h
  have hhides := hides_createPartialToolDefinition (mapError_eq_ok.mp hdef)
  constructor
  · intro name
    by_cases hname : name = definition.name
    · subst hname
      simp [ToolRegistry.register]
    · simp only [ToolRegistry.register, Function.update_of_ne hname, hr.both]
  · intro name d registered hd hregistered
    simp only [ToolRegistry.register] at hd hregistered
    by_cases hname : name = definition.name
    · subst hname
      rw [Function.update_self] at hd hregistered
      obtain rfl := Option.some.inj hd
      obtain rfl := Option.some.inj hregistered
      exact hhides
    · rw [Function.update_of_ne hname] at hd hregistered
      exact hr.hides name d registered hd hregistered

theorem Paired.registerTools (hr : Paired r) (h : r.registerTools k ns tools = .ok r') :
    Paired r' := by
  induction tools generalizing r with
  | nil =>
    cases h
    exact hr
  | cons t tools ih =>
    obtain ⟨r₁, ht, h⟩ := bind_eq_ok.mp h
    exact ih (hr.registerTool ht) h

theorem answering_spec {name : String} {t : AgentTool} (h : answering tools name = some t) :
    t ∈ tools ∧ t.getToolCRDName = name := by
  refine ⟨List.mem_reverse.mp (List.mem_of_find?_eq_some h), ?_⟩
  simpa using List.find?_some h

theorem answering_isSome {t : AgentTool} (ht : t ∈ tools) :
    ∃ t', answering tools t.getToolCRDName = some t' := by
  have hsome : (answering tools t.getToolCRDName).isSome = true := by
    rw [answering, List.find?_isSome]
    exact ⟨t, List.mem_reverse.mpr ht, by simp⟩
  exact Option.isSome_iff_exists.mp hsome

/-- No entry replaces another if and only if no two have the name of one Tool resource. -/
theorem exposes_iff (hdistinct : (tools.map (·.name)).Nodup)
    (h : ToolRegistry.new.registerTools k ns tools = .ok r) :
    Exposes tools r ↔ (tools.map AgentTool.getToolCRDName).Nodup := by
  have hexecutors : ∀ name, (r.executors name).map (·.entry) = answering tools name := by
    intro name
    rw [registerTools_executors h name]
    exact Option.or_none
  have hentry : ∀ t, (∃ name definition registered, r.tools name = some definition ∧
      r.executors name = some registered ∧ registered.entry = t) ↔
        ∃ name, answering tools name = some t := by
    intro t
    constructor
    · rintro ⟨name, -, registered, -, hregistered, rfl⟩
      exact ⟨name, by rw [← hexecutors, hregistered, Option.map_some]⟩
    · rintro ⟨name, hname⟩
      rw [← hexecutors] at hname
      obtain ⟨registered, hregistered, rfl⟩ := Option.map_eq_some_iff.mp hname
      have hboth := (paired_new.registerTools h).both name
      rw [hregistered, Option.isSome_some] at hboth
      obtain ⟨definition, hdefinition⟩ := Option.isSome_iff_exists.mp hboth
      exact ⟨name, definition, registered, hdefinition, hregistered, rfl⟩
  constructor
  · intro hexposes
    apply List.Nodup.map_on _ hdistinct.of_map
    intro t ht t' ht' hname
    obtain ⟨n, hn⟩ := (hentry t).mp (hexposes t ht)
    obtain ⟨n', hn'⟩ := (hentry t').mp (hexposes t' ht')
    rw [← (answering_spec hn).2] at hn
    rw [← (answering_spec hn').2, ← hname, hn] at hn'
    exact Option.some.inj hn'
  · intro hnodup t ht
    rw [hentry]
    obtain ⟨t', ht'⟩ := answering_isSome ht
    obtain ⟨hmem, hname⟩ := answering_spec ht'
    obtain rfl : t' = t := List.inj_on_of_nodup_map hnodup hmem ht hname
    exact ⟨_, ht'⟩

end Registration

/-- The tools of a spec are exposed side by side if and only if no two have the name of one Tool
resource; their schemas always hide what they fix. A call of a partial tool gets the fixed values and
its other arguments if and only if nothing disputes the fixed ones and no number is rounded. -/
theorem partial_tools_iff {k : K8sClient} {ns : String} {tools : List AgentTool} {r : ToolRegistry}
    (hdistinct : (tools.map (·.name)).Nodup)
    (hregister : ToolRegistry.new.registerTools k ns tools = .ok r)
    {env : PartialEnv} {params : List PartialParameter} {call : ToolCall}
    {raw : List (Text × Value)} {data resolved : List (String × String)}
    (hcall : unmarshal call.arguments = some (.obj raw)) (hquery : env.query = some data)
    (hresolved : env.resolveParameters data params = .ok resolved) :
    (Exposes tools r ∧
      (∀ name definition registered, r.tools name = some definition →
        r.executors name = some registered → Hides registered.entry definition) ∧
      Receives resolved (argumentsOf raw) call (partialToolExecute env (some params) call)) ↔
    (tools.map AgentTool.getToolCRDName).Nodup ∧
      Undisputed resolved (argumentsOf raw) ∧ Representable env resolved raw := by
  rw [exposes_iff hdistinct hregister, receives_iff hcall hquery hresolved]
  exact and_congr_right fun _ => and_iff_right (paired_new.registerTools hregister).hides

/-! ### Two cities of one Tool resource -/

section Cities

def weather : Tool :=
  { name := "weather", type := "http", http := some "http://weather"
    inputSchema := .object [("properties", .object [("city", "string"), ("units", "string")]),
      ("required", .array [.str "city"])] }

def weatherCluster : K8sClient where
  setup := .ok ()
  getTool name := if name = "weather" then .ok weather else .error "not found"
  getAgent _ := .error "not found"
  getTeam _ := .error "not found"
  mcpClient _ := .error "not found"

def weatherIn (name city : String) : AgentTool :=
  { type := "http", name := name
    toolPartial := some { name := "weather", parameters := [{ name := "city", value := city }] } }

def cityParameter (city : String) : PartialParameter :=
  { name := "city", value := city, valueFrom := none }

def plainEnv : PartialEnv where
  query := some []
  configMap _ := .error "not found"
  secret _ := .error "not found"
  resolveTemplate text _ := .ok text
  unmarshalError _ := "unexpected end of JSON input"
  float64 := some

/-- A call of the tool with one argument. -/
def weatherCall (name value : String) : ToolCall :=
  { id := "call_1", name := "weather",
    arguments := marshal (.obj [(literal name, .str (literal value))]) }

theorem unmarshal_weatherCall (name value : String) :
    unmarshal (weatherCall name value).arguments =
      some (.obj [(literal name, .str (literal value))]) := by
  apply unmarshal_marshal
  intro s hs
  simp only [strings, stringsOfFields, stringsOfField, List.append_nil, List.mem_cons,
    List.not_mem_nil, or_false] at hs
  obtain rfl | rfl := hs
  · exact valid_literal name
  · exact valid_literal value

theorem partial_tools_iff_weather :
    ∃ r, ToolRegistry.new.registerTools weatherCluster "default" [weatherIn "weather-paris" "Paris"]
        = .ok r ∧
      ((Exposes [weatherIn "weather-paris" "Paris"] r ∧
        (∀ name definition registered, r.tools name = some definition →
          r.executors name = some registered → Hides registered.entry definition) ∧
        Receives [("city", "Paris")] (argumentsOf [(literal "units", .str (literal "metric"))])
          (weatherCall "units" "metric")
          (partialToolExecute plainEnv (some [cityParameter "Paris"])
            (weatherCall "units" "metric"))) ↔
      ([weatherIn "weather-paris" "Paris"].map AgentTool.getToolCRDName).Nodup ∧
        Undisputed [("city", "Paris")] (argumentsOf [(literal "units", .str (literal "metric"))]) ∧
        Representable plainEnv [("city", "Paris")]
          [(literal "units", .str (literal "metric"))]) := by
  obtain ⟨r, hr⟩ : ∃ r, ToolRegistry.new.registerTools weatherCluster "default"
      [weatherIn "weather-paris" "Paris"] = .ok r := ⟨_, rfl⟩
  have hdistinct : ([weatherIn "weather-paris" "Paris"].map (·.name)).Nodup :=
    List.nodup_singleton _
  have hresolved : plainEnv.resolveParameters [] [cityParameter "Paris"] =
      .ok [("city", "Paris")] := rfl
  exact ⟨r, hr, partial_tools_iff hdistinct hr (unmarshal_weatherCall "units" "metric") rfl hresolved⟩

/-- The second entry replaces the first, and the model chooses the city. -/
theorem partial_tool_replaced_and_overridden :
    (∃ r, ToolRegistry.new.registerTools weatherCluster "default"
        [weatherIn "weather-paris" "Paris", weatherIn "weather-london" "London"] = .ok r ∧
      ¬ Exposes [weatherIn "weather-paris" "Paris", weatherIn "weather-london" "London"] r) ∧
    ¬ Receives [("city", "Paris")] (argumentsOf [(literal "city", .str (literal "Rome"))])
      (weatherCall "city" "Rome")
      (partialToolExecute plainEnv (some [cityParameter "Paris"]) (weatherCall "city" "Rome")) := by
  constructor
  · obtain ⟨r, hr⟩ : ∃ r, ToolRegistry.new.registerTools weatherCluster "default"
        [weatherIn "weather-paris" "Paris", weatherIn "weather-london" "London"] = .ok r := ⟨_, rfl⟩
    refine ⟨r, hr, fun hexposes => ?_⟩
    have hnodup := (exposes_iff (by simp [weatherIn]) hr).mp hexposes
    simp [weatherIn, AgentTool.getToolCRDName] at hnodup
  · intro hreceives
    have hresolved : plainEnv.resolveParameters [] [cityParameter "Paris"] =
        .ok [("city", "Paris")] := rfl
    have hundisputed :=
      ((receives_iff (unmarshal_weatherCall "city" "Rome") rfl hresolved).mp hreceives).1
    have hargument : lookup (literal "city")
        (argumentsOf [(literal "city", .str (literal "Rome"))]) =
          some (.str (runes (literal "Rome"))) := rfl
    have hvalue := (hundisputed ("city", "Paris") List.mem_cons_self).1 _ hargument
    rw [runes_of_valid (valid_literal "Rome"), Value.str.injEq] at hvalue
    exact absurd (literal_injective hvalue) (by decide)

end Cities

end Ark
