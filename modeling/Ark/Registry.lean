import Ark.Machine
import Ark.Slots
import Ark.ResourceTable

/-!
# Concurrent requests on the REST storage

A request of `GenericStorage` or `StatusStorage` is a job that performs one backend statement at
a time; what the Go code does between two statements is part of the step of the earlier one. Every
statement may fail instead. The lists `reads` and `changes` of a job record which versions its
reads returned and which its statements replaced; no step looks at them.
-/

namespace Ark

structure ResourceConfig where
  kind : String
  singularName : String
  deriving DecidableEq, Repr

inductive ApiError
  | notFound (name : String)
  | conflict (name cause : String)
  | alreadyExists (name : String)
  | serverTimeout (operation : String)
  | rejected (text : String)
  | internal (text : String)
  deriving DecidableEq, Repr

structure Preconditions where
  uid : Option String
  resourceVersion : Option ℕ
  deriving DecidableEq, Repr

/-- What a creation is given and draws: its admission, which may default annotations and spec, a
fresh uid, and the name of each attempt of `generateName`. -/
structure Creation (V : Type*) where
  createValidation : Object V → Except String (Labels × V)
  uuid : String
  generatedName : ℕ → String

inductive Request (V : Type*)
  | create (o : Object V) (c : Creation V)
  | update (name : String) (updatedObject : Option (Object V) → Except String (Object V))
      (updateValidation : Object V → Object V → Except String (Labels × V))
      (forceAllowCreate : Bool) (c : Creation V)
  | updateStatus (name : String) (updatedObject : Option (Object V) → Except String (Object V))
  | delete (name : String) (deleteValidation : Object V → Option String)
      (preconditions : Option Preconditions)

def Request.name {V : Type*} : Request V → String
  | .create o _ => o.name
  | .update name _ _ _ _ => name
  | .updateStatus name _ => name
  | .delete name _ _ => name

/-- A call of `backend.Update` or `backend.UpdateStatus`; `mark` is the one of `markForDeletion`,
which stamps a copy of the object it read. -/
inductive Write (V : Type*)
  | update (o : Object V)
  | updateStatus (o : Object V)
  | mark (o : Object V) (attempt : ℕ)

/-- The statement that a job performs next. -/
inductive Pc (V : Type*)
  | create (c : Creation V) (o : Object V) (attempt : Option ℕ)
  | readCreated (name : String)
  | updateRead
  | statusRead
  | deleteRead
  | write (w : Write V)
  | missed (w : Write V)
  | finalize (o : Object V)
  | readUpdated
  | readStatus
  | refresh (attempt : ℕ)
  | remove (o : Object V)
  | finished (reply : Except ApiError (Object V × Bool))

/-- A statement replaced the version `before` of a row by `after`. -/
structure Change (V : Type*) where
  before : Resource V
  after : Resource V

structure Job (V : Type*) where
  config : ResourceConfig
  ns : String
  request : Request V
  pc : Pc V
  reads : List (Resource V)
  changes : List (Change V)

variable {V : Type*}

/-- `handleUpdateError`. -/
def handleUpdateError (config : ResourceConfig) (operation name : String) :
    BackendError → ApiError
  | .conflict => .conflict name BackendError.conflict.text
  | .notFound => .notFound name
  | err => .internal ("failed to " ++ operation ++ " " ++ config.singularName ++ ": " ++ err.text)

/-! ### Create -/

def maxGenerateNameAttempts : ℕ := 100

def prepareForCreate (ns uuid : String) (now : ℕ) (o : Object V) : Object V :=
  { o with
    ns := if o.ns = "" then ns else o.ns
    uid := if o.uid = "" then uuid else o.uid
    creationTimestamp := o.creationTimestamp.or (some now) }

def admitCreate (c : Creation V) (o : Object V) (attempt : Option ℕ) : Pc V :=
  match c.createValidation o with
  | .error e => .finished (.error (.rejected e))
  | .ok (annotations, spec) => .create c { o with annotations, spec } attempt

/-- One round of `createWithGeneratedName`. -/
def createAttempt (c : Creation V) (o : Object V) (attempt : ℕ) : Pc V :=
  if attempt < maxGenerateNameAttempts then
    admitCreate c { o with name := c.generatedName attempt } (some attempt)
  else .finished (.error (.serverTimeout "create"))

def beginCreate (ns : String) (now : ℕ) (c : Creation V) (o : Object V) : Pc V :=
  let o := prepareForCreate ns c.uuid now o
  if o.name = "" ∧ o.generateName ≠ "" then createAttempt c o 0 else admitCreate c o none

def afterCreate (config : ResourceConfig) (c : Creation V) (o : Object V) (attempt : Option ℕ) :
    Except BackendError Unit → Pc V
  | .ok () => .readCreated o.name
  | .error .alreadyExists =>
    match attempt with
    | none => .finished (.error (.alreadyExists o.name))
    | some k => createAttempt c o (k + 1)
  | .error err =>
    .finished (.error (.internal ("failed to create " ++ config.singularName ++ ": " ++ err.text)))

/-- The final `s.Get` of a request: whatever went wrong is reported as NotFound. -/
def finish (name : String) (flag : Bool) : Except BackendError (Object V) → Pc V
  | .ok o => .finished (.ok (o, flag))
  | .error _ => .finished (.error (.notFound name))

/-! ### Update -/

/-- Server-owned metadata that the updated object omits is taken from the existing one. -/
def carryOver (existing updated : Object V) : Object V :=
  { updated with
    resourceVersion := updated.resourceVersion.or existing.resourceVersion
    uid := if updated.uid = "" then existing.uid else updated.uid
    creationTimestamp := updated.creationTimestamp.or existing.creationTimestamp
    ns := if updated.ns = "" then existing.ns else updated.ns }

def afterUpdateRead (ns : String) (now : ℕ) (name : String)
    (updatedObject : Option (Object V) → Except String (Object V))
    (updateValidation : Object V → Object V → Except String (Labels × V))
    (forceAllowCreate : Bool) (c : Creation V) : Except BackendError (Object V) → Pc V
  | .error _ =>
    if forceAllowCreate then
      match updatedObject none with
      | .error e => .finished (.error (.rejected e))
      | .ok o => beginCreate ns now c o
    else .finished (.error (.notFound name))
  | .ok existing =>
    match updatedObject (some existing) with
    | .error e => .finished (.error (.internal ("failed to get updated object: " ++ e)))
    | .ok updated =>
      let updated := carryOver existing updated
      match updateValidation updated existing with
      | .error e => .finished (.error (.rejected e))
      | .ok (annotations, spec) => .write (.update { updated with annotations, spec })

/-- `StatusStorage.Update` up to its write; `merge` decodes the new status over the existing one. -/
def afterStatusRead (merge : V → V → V) (name : String)
    (updatedObject : Option (Object V) → Except String (Object V)) :
    Except BackendError (Object V) → Pc V
  | .error _ => .finished (.error (.notFound name))
  | .ok existing =>
    match updatedObject (some existing) with
    | .error e => .finished (.error (.internal ("failed to get updated object: " ++ e)))
    | .ok updated =>
      .write (.updateStatus { existing with status := merge existing.status updated.status })

/-! ### Delete -/

def maxDeleteConflictAttempts : ℕ := 5

def markAttempts : Option Preconditions → ℕ
  | some _ => 1
  | none => maxDeleteConflictAttempts

/-- The head of the loop of `markForDeletion`. -/
def beginMark (o : Object V) (attempt : ℕ) : Pc V :=
  if o.deletionTimestamp.isSome then .finished (.ok (o, false)) else .write (.mark o attempt)

/-- The preconditions that the object violates, as the text of the conflict. -/
def Preconditions.mismatch (pc : Preconditions) (o : Object V) : Option String :=
  match pc.uid with
  | some uid =>
    if uid ≠ o.uid then
      some ("the UID in the precondition (" ++ uid ++ ") does not match the UID in record (" ++
        o.uid ++ ")")
    else versionMismatch
  | none => versionMismatch
where
  versionMismatch : Option String :=
    match pc.resourceVersion with
    | some rv =>
      if some rv ≠ o.resourceVersion then
        some ("the ResourceVersion in the precondition (" ++ toString rv ++
          ") does not match the ResourceVersion in record (" ++
          toString (o.resourceVersion.getD 0) ++ ")")
      else none
    | none => none

def afterDeleteRead (name : String) (deleteValidation : Object V → Option String)
    (preconditions : Option Preconditions) : Except BackendError (Object V) → Pc V
  | .error _ => .finished (.error (.notFound name))
  | .ok existing =>
    match deleteValidation existing with
    | some e => .finished (.error (.rejected e))
    | none =>
      match preconditions.bind (·.mismatch existing) with
      | some cause => .finished (.error (.conflict name cause))
      | none => if existing.finalizers ≠ [] then beginMark existing 0 else .remove existing

/-- `refreshForDeletion`, back to the head of the loop. -/
def afterRefresh (config : ResourceConfig) (name : String)
    (deleteValidation : Object V → Option String) (attempt : ℕ) :
    Except BackendError (Object V) → Pc V
  | .error .notFound => .finished (.error (.notFound name))
  | .error err =>
    .finished (.error (.internal
      ("failed to re-read " ++ config.singularName ++ " during delete: " ++ err.text)))
  | .ok o =>
    match deleteValidation o with
    | some e => .finished (.error (.rejected e))
    | none => beginMark o attempt

/-! ### Writes -/

namespace Write

/-- The version of the row that the statement names. -/
def rv : Write V → ℕ
  | .update o | .updateStatus o | .mark o _ => o.resourceVersion.getD 0

/-- The object that `markForDeletion` stamps. -/
def stamp (now : ℕ) (o : Object V) : Object V := { o with deletionTimestamp := some now }

def apply [DecidableEq V] (t : ResourceTable V) (x : Resource V) : Write V → Resource V
  | .update o => t.updated x o
  | .updateStatus o => t.statusUpdated x o
  | .mark o _ => t.updated x (stamp t.clock o)

/-- The statement's own error text. -/
def failure (text : String) : Write V → BackendError
  | .updateStatus _ => .other ("failed to update resource status: " ++ text)
  | _ => .other ("failed to update resource: " ++ text)

def unversioned : Write V → BackendError
  | .updateStatus _ => .other "resourceVersion is required for status update"
  | _ => .other "resourceVersion is required for update"

end Write

def Request.preconditions : Request V → Option Preconditions
  | .delete _ _ preconditions => preconditions
  | _ => none

/-- What follows `backend.Update` or `backend.UpdateStatus`. -/
def afterWrite (config : ResourceConfig) (request : Request V) (now : ℕ) :
    Write V → Except BackendError Unit → Pc V
  | .update o, .ok () =>
    if o.deletionTimestamp.isSome ∧ o.finalizers = [] then .finalize o else .readUpdated
  | .update _, .error err => .finished (.error (handleUpdateError config "update" request.name err))
  | .updateStatus _, .ok () => .readStatus
  | .updateStatus _, .error err =>
    .finished (.error (handleUpdateError config "update_status" request.name err))
  | .mark o _, .ok () => .finished (.ok (Write.stamp now o, false))
  | .mark _ attempt, .error err =>
    if err = .conflict ∧ attempt + 1 < markAttempts request.preconditions then
      .refresh (attempt + 1)
    else .finished (.error (handleUpdateError config "delete" request.name err))

/-! ### Jobs -/

namespace Job

def key (j : Job V) : ResourceKey := ⟨j.config.kind, j.ns, j.request.name⟩

/-- The reply of a removal. -/
def removed (j : Job V) (o : Object V) (flag : Bool) : Except BackendError Unit → Pc V
  | .ok () => .finished (.ok (o, flag))
  | .error err => .finished (.error (handleUpdateError j.config "delete" j.request.name err))

/-- The continuation of a read of the job's own object. -/
def afterRead (merge : V → V → V) (now : ℕ) (j : Job V) :
    Except BackendError (Object V) → Pc V :=
  match j.pc, j.request with
  | .updateRead, .update name updatedObject updateValidation forceAllowCreate c =>
    afterUpdateRead j.ns now name updatedObject updateValidation forceAllowCreate c
  | .statusRead, .updateStatus name updatedObject => afterStatusRead merge name updatedObject
  | .deleteRead, .delete name deleteValidation preconditions =>
    afterDeleteRead name deleteValidation preconditions
  | .refresh attempt, .delete name deleteValidation _ =>
    afterRefresh j.config name deleteValidation attempt
  | _, _ => finish j.request.name false

/-- Perform `SELECT` and continue with the result. -/
def read (merge : V → V → V) (t : ResourceTable V) (j : Job V) : Job V :=
  { j with
    pc := j.afterRead merge t.clock (t.get j.key)
    reads := j.reads ++ (t.live j.key).toList }

/-- `UPDATE … SET deleted_at = NOW()` by name. -/
def softDelete (t : ResourceTable V) (j : Job V) (o : Object V) (flag : Bool) :
    ResourceTable V × Job V :=
  match t.live j.key with
  | none => (t, { j with pc := j.removed o flag (.error .notFound) })
  | some x =>
    (t.store (t.softDeleted x),
      { j with
        pc := j.removed o flag (.ok ())
        changes := j.changes ++ [⟨x, t.softDeleted x⟩] })

/-- `UPDATE … WHERE resource_version = …`; when no row qualifies, a second statement tells why. -/
def compareAndSwap [DecidableEq V] (t : ResourceTable V) (j : Job V) (w : Write V) :
    ResourceTable V × Job V :=
  if w.rv = 0 then
    (t, { j with pc := afterWrite j.config j.request t.clock w (.error w.unversioned) })
  else
    match t.liveAt j.key w.rv with
    | none => (t, { j with pc := .missed w })
    | some x =>
      (t.store (w.apply t x),
        { j with
          pc := afterWrite j.config j.request t.clock w (.ok ())
          changes := j.changes ++ [⟨x, w.apply t x⟩] })

def insert (t : ResourceTable V) (j : Job V) (c : Creation V) (o : Object V)
    (attempt : Option ℕ) : ResourceTable V × Job V :=
  match t.create ⟨j.config.kind, o.ns, o.name⟩ o with
  | none => (t, { j with pc := afterCreate j.config c o attempt (.error .alreadyExists) })
  | some t' => (t', { j with pc := afterCreate j.config c o attempt (.ok ()) })

/-- Perform the next statement. -/
def perform [DecidableEq V] (merge : V → V → V) (t : ResourceTable V) (j : Job V) :
    Option (ResourceTable V × Job V) :=
  match j.pc with
  | .create c o attempt => some (j.insert t c o attempt)
  | .readCreated name =>
    some (t, { j with pc := finish name true (t.get ⟨j.config.kind, j.ns, name⟩) })
  | .updateRead | .statusRead | .deleteRead | .readUpdated | .readStatus | .refresh _ =>
    some (t, j.read merge t)
  | .write w => some (j.compareAndSwap t w)
  | .missed w =>
    let err := if (t.live j.key).isSome then BackendError.conflict else .notFound
    some (t, { j with pc := afterWrite j.config j.request t.clock w (.error err) })
  | .finalize o => some (j.softDelete t o false)
  | .remove o => some (j.softDelete t o true)
  | .finished _ => none

/-- The next statement fails. The error of the statement after a missed write is ignored. -/
def fail (merge : V → V → V) (now : ℕ) (text : String) (j : Job V) : Option (Job V) :=
  match j.pc with
  | .create c o attempt =>
    let err := BackendError.other ("failed to insert resource: " ++ text)
    some { j with pc := afterCreate j.config c o attempt (.error err) }
  | .readCreated name => some { j with pc := finish name true (.error (.other text)) }
  | .updateRead | .statusRead | .deleteRead | .readUpdated | .readStatus | .refresh _ =>
    some { j with pc := j.afterRead merge now (.error (.other ("failed to scan row: " ++ text))) }
  | .write w => some { j with pc := afterWrite j.config j.request now w (.error (w.failure text)) }
  | .missed w => some { j with pc := afterWrite j.config j.request now w (.error .notFound) }
  | .finalize o =>
    some { j with pc := j.removed o false (.error (.other ("failed to delete resource: " ++ text))) }
  | .remove o =>
    some { j with pc := j.removed o true (.error (.other ("failed to delete resource: " ++ text))) }
  | .finished _ => none

/-- A request before its first statement. -/
def start (now : ℕ) (config : ResourceConfig) (ns : String) (request : Request V) : Job V where
  config := config
  ns := ns
  request := request
  pc :=
    match request with
    | .create o c => beginCreate ns now c o
    | .update _ _ _ _ _ => .updateRead
    | .updateStatus _ _ => .statusRead
    | .delete _ _ _ => .deleteRead
  reads := []
  changes := []

end Job

/-! ### The registry -/

structure Registry (V : Type*) where
  table : ResourceTable V
  jobs : Slots (Job V)

namespace Registry

def empty : Registry V := ⟨.empty, []⟩

inductive Action (V : Type*)
  | start (i : ℕ) (config : ResourceConfig) (ns : String) (request : Request V)
  | perform (i : ℕ)
  | fail (i : ℕ) (text : String)
  | tick

def step [DecidableEq V] (merge : V → V → V) (s : Registry V) : Action V → Option (Registry V)
  | .start i config ns request =>
    if s.jobs.free i then
      some { s with jobs := (i, .start s.table.clock config ns request) :: s.jobs }
    else none
  | .perform i => do
    let j ← s.jobs.get? i
    let (t, j') ← j.perform merge s.table
    some ⟨t, s.jobs.put i j'⟩
  | .fail i text => do
    let j ← s.jobs.get? i
    let j' ← j.fail merge s.table.clock text
    some { s with jobs := s.jobs.put i j' }
  | .tick => some { s with table := { s.table with clock := s.table.clock + 1 } }

def machine [DecidableEq V] (merge : V → V → V) : Machine (Registry V) (Action V) where
  init s := s = empty
  step := step merge

end Registry
end Ark
