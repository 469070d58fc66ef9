import Ark.Float64
import Ark.GoMerge
import Ark.JsonValues
import Ark.ResourceTable

/-!
# Objects as rows

`Create` and `Update` split the JSON of an object into columns, `Get` puts a document together from them
that the converter decodes. The members `spec` and `status` are arbitrary JSON; how PostgreSQL stores a
document is a parameter.
-/

namespace Ark.RowEncoding

open Json GoJson

/-! ### Objects -/

/-- `metav1.OwnerReference`. -/
structure OwnerReference where
  apiVersion : String
  kind : String
  name : String
  uid : String
  controller : Option Bool
  blockOwnerDeletion : Option Bool
  deriving DecidableEq, Repr

def OwnerReference.value (r : OwnerReference) : Value :=
  .obj (member "apiVersion" (some (ofString r.apiVersion)) ++
    member "kind" (some (ofString r.kind)) ++ member "name" (some (ofString r.name)) ++
    member "uid" (some (ofString r.uid)) ++ member "controller" (r.controller.map .bool) ++
    member "blockOwnerDeletion" (r.blockOwnerDeletion.map .bool))

/-- An object as `json.Marshal` sees it: its metadata, and what its spec and its status are written as. -/
structure ApiObject where
  name : String
  generateName : String
  ns : String
  uid : String
  resourceVersion : String
  labels : Finmap fun _ : String => String
  annotations : Finmap fun _ : String => String
  finalizers : List String
  ownerReferences : List OwnerReference
  generation : ℕ
  creationTimestamp : Option ℕ
  deletionTimestamp : Option ℕ
  spec : Option Value
  status : Option Value

/-- The members of the JSON of an object. A string that is not written is empty. -/
structure Document where
  name : String
  generateName : String
  ns : String
  uid : String
  resourceVersion : String
  generation : ℕ
  creationTimestamp : Option ℕ
  deletionTimestamp : Option ℕ
  labels : Option Value
  annotations : Option Value
  finalizers : Option Value
  ownerReferences : Option Value
  spec : Option Value
  status : Option Value

def ofStringMap (m : Finmap fun _ : String => String) : Value := .obj (GoMerge.entries ofString m)

/-- `converter.Encode`: empty metadata is left out. -/
def ApiObject.encode (o : ApiObject) : Document where
  name := o.name
  generateName := o.generateName
  ns := o.ns
  uid := o.uid
  resourceVersion := o.resourceVersion
  generation := o.generation
  creationTimestamp := o.creationTimestamp
  deletionTimestamp := o.deletionTimestamp
  labels := if o.labels.keys = ∅ then none else some (ofStringMap o.labels)
  annotations := if o.annotations.keys = ∅ then none else some (ofStringMap o.annotations)
  finalizers := if o.finalizers = [] then none else some (.arr (o.finalizers.map ofString))
  ownerReferences :=
    if o.ownerReferences = [] then none else some (.arr (o.ownerReferences.map (·.value)))
  spec := o.spec
  status := o.status

/-! ### Columns -/

structure Columns where
  labels : Value
  annotations : Value
  finalizers : Value
  ownerReferences : Value
  spec : Value
  status : Value

def orElse (empty : Value) : Option Value → Value
  | none | some .null => empty
  | some v => v

def emptyObject : Value := .obj []

def emptyArray : Value := .arr []

/-- The labels, annotations and finalizers are read into a map or a slice and written again, the others are
kept as they stand. -/
def Document.columns (d : Document) : Columns where
  labels := canonical (orElse emptyObject d.labels)
  annotations := canonical (orElse emptyObject d.annotations)
  finalizers := canonical (orElse emptyArray d.finalizers)
  ownerReferences := orElse emptyArray d.ownerReferences
  spec := orElse emptyObject d.spec
  status := orElse emptyObject d.status

/-- The type `jsonb`: what a stored document is read as, and `IS DISTINCT FROM`. A stored document has the
value of the one that was written, the numbers included. -/
structure Jsonb where
  store : Value → Option Value
  distinct : Value → Value → Bool
  sameValue : ∀ {v w}, store v = some w → SameValue w v

def Jsonb.storeColumns (db : Jsonb) (c : Columns) : Option Columns := do
  let spec ← db.store c.spec
  let status ← db.store c.status
  let labels ← db.store c.labels
  let annotations ← db.store c.annotations
  let finalizers ← db.store c.finalizers
  let ownerReferences ← db.store c.ownerReferences
  return ⟨labels, annotations, finalizers, ownerReferences, spec, status⟩

/-! ### The table -/

/-- A live row of `resources`. -/
structure Row where
  uid : String
  resourceVersion : ℕ
  generation : ℕ
  createdAt : ℕ
  deletionTimestamp : Option ℕ
  columns : Columns

structure Table where
  seq : ℕ
  clock : ℕ
  rows : ResourceKey → Option Row

def Table.put (t : Table) (key : ResourceKey) (x : Row) : Table :=
  { t with seq := t.seq + 1, rows := Function.update t.rows key (some x) }

variable (db : Jsonb) (t : Table) (key : ResourceKey)

/-- The driver's text of an error of the statement is left out. -/
def create (o : ApiObject) : Except BackendError Table :=
  match db.storeColumns o.encode.columns with
  | none => .error (.other "failed to insert resource")
  | some columns =>
    match t.rows key with
    | some _ => .error .alreadyExists
    | none => .ok (t.put key
        { uid := o.uid
          resourceVersion := t.seq + 1
          generation := 1
          createdAt := t.clock
          deletionTimestamp := none
          columns := columns })

def update (o : ApiObject) : Except BackendError Table :=
  let rv := (parseInt64 o.resourceVersion).getD 0
  if rv = 0 then .error (.other "resourceVersion is required for update")
  else match db.storeColumns o.encode.columns with
    | none => .error (.other "failed to update resource")
    | some columns =>
      match t.rows key with
      | none => .error .notFound
      | some x =>
        if (x.resourceVersion : ℤ) = rv then .ok (t.put key { x with
          resourceVersion := t.seq + 1
          generation :=
            if db.distinct x.columns.spec columns.spec ∨
                (o.deletionTimestamp.isSome ∧ x.deletionTimestamp.isNone) then x.generation + 1
            else x.generation
          deletionTimestamp := o.deletionTimestamp.or x.deletionTimestamp
          columns := columns })
        else .error .conflict

/-- A document that is not empty, as it is read from its column. -/
def rereadUnlessEmpty (v : Value) : Option Value :=
  match v with
  | .obj [] => none
  | v => some (reread Float64.float64 v)

/-- The document that `Get` hands to the converter. -/
def reconstructObject (x : Row) : Document where
  name := key.name
  generateName := ""
  ns := key.ns
  uid := x.uid
  resourceVersion := toString x.resourceVersion
  generation := x.generation
  creationTimestamp := some x.createdAt
  deletionTimestamp := x.deletionTimestamp
  labels := some (canonical x.columns.labels)
  annotations := some (canonical x.columns.annotations)
  finalizers :=
    if itemsOf x.columns.finalizers = [] then none else some (canonical x.columns.finalizers)
  ownerReferences :=
    if itemsOf x.columns.ownerReferences = [] then none
    else some (reread Float64.float64 x.columns.ownerReferences)
  spec := rereadUnlessEmpty x.columns.spec
  status := rereadUnlessEmpty x.columns.status

def get : Except BackendError Document :=
  match t.rows key with
  | none => .error .notFound
  | some x => .ok (reconstructObject key x)

/-! ### The same object -/

/-- The members that make up an object are the same. A member that is not written is empty. -/
structure SameObject (d d' : Document) : Prop where
  name : d'.name = d.name
  generateName : d'.generateName = d.generateName
  ns : d'.ns = d.ns
  uid : d'.uid = d.uid
  labels : SameValue (orElse emptyObject d'.labels) (orElse emptyObject d.labels)
  annotations : SameValue (orElse emptyObject d'.annotations) (orElse emptyObject d.annotations)
  finalizers : SameValue (orElse emptyArray d'.finalizers) (orElse emptyArray d.finalizers)
  ownerReferences :
    SameValue (orElse emptyArray d'.ownerReferences) (orElse emptyArray d.ownerReferences)
  spec : SameValue (orElse emptyObject d'.spec) (orElse emptyObject d.spec)
  status : SameValue (orElse emptyObject d'.status) (orElse emptyObject d.status)

/-- All numbers of the document are kept by a `float64`. -/
def NumbersKept (v : Option Value) : Prop :=
  ∀ n ∈ numerals (canonical (orElse emptyObject v)), Kept Float64.float64 (number n.1)

/-- The object is named by its key, has no `generateName` and, if it replaces another one, its uid, and the
numbers of its spec and its status are kept. -/
structure Encodable (t : Table) (key : ResourceKey) (o : ApiObject) : Prop where
  name : o.name = key.name
  ns : o.ns = key.ns
  generateName : o.generateName = ""
  uid : ∀ x, t.rows key = some x → x.uid = o.uid
  spec : NumbersKept o.spec
  status : NumbersKept o.status

/-! ### Documents through a column -/

section Columns

variable {v w empty : Value} {items : List Value}

theorem orElse_ne_null (h : empty ≠ .null) (v : Option Value) : orElse empty v ≠ .null := by
  unfold orElse
  split
  · exact h
  · exact h
  next hne => exact hne

theorem sameValue_null (h : SameValue v .null) : v = .null := by
  cases v with
  | null => rfl
  | _ => cases h.1

/-- A column that was null would not have the value of an object. -/
theorem sameValue_emptyObject_num {n : Numeral} : ¬ SameValue emptyObject (.num n) :=
  fun h => nomatch h.1

theorem reread_eq_null (h : reread Float64.float64 w = .null) : w = .null ∨ ∃ n, w = .num n := by
  cases w with
  | null => exact .inl rfl
  | num n => exact .inr ⟨n, rfl⟩
  | _ => cases h

/-- A spec or status keeps its value if and only if its numbers are kept. -/
theorem sameValue_rereadUnlessEmpty {v : Option Value}
    (h : SameValue w (orElse emptyObject v)) :
    SameValue (orElse emptyObject (rereadUnlessEmpty w)) (orElse emptyObject v) ↔ NumbersKept v := by
  have hne : orElse emptyObject v ≠ .null := orElse_ne_null Value.noConfusion v
  unfold NumbersKept
  rw [← sameValue_reread_iff h]
  generalize orElse emptyObject v = u at h hne ⊢
  unfold rereadUnlessEmpty
  split
  next => exact Iff.rfl
  next =>
    by_cases hnull : reread Float64.float64 w = .null
    · rw [hnull]
      refine iff_of_false (fun hsame => ?_) fun hsame => hne (sameValue_null hsame.symm)
      rcases reread_eq_null hnull with rfl | ⟨n, rfl⟩
      · exact hne (sameValue_null h.symm)
      · exact sameValue_emptyObject_num (hsame.trans h.symm)
    · have horElse : orElse emptyObject (some (reread Float64.float64 w)) =
          reread Float64.float64 w := by
        unfold orElse
        split
        next heq => cases heq
        next heq => exact absurd (Option.some.inj heq) hnull
        next heq => exact (Option.some.inj heq).symm
      rw [horElse]

theorem numerals_canonical (v : Value) : ∀ n ∈ numerals (canonical v), n ∈ numerals v := by
  induction v using Value.induction with
  | null | bool | num | str => exact fun n hn => hn
  | arr items ih =>
    change ∀ n ∈ numeralsOfItems (decodeItems (fun n => n) items), n ∈ numeralsOfItems items
    rw [decodeItems_eq, forall_numeralsOfItems]
    intro v hv n hn
    obtain ⟨u, hu, rfl⟩ := List.mem_map.mp hv
    exact forall_numeralsOfItems.mp (fun n hn => hn) u hu n (ih u hu n hn)
  | obj fields ih =>
    change ∀ n ∈ numeralsOfFields (decodeFields (fun n => n) fields []), n ∈ numeralsOfFields fields
    rw [forall_numeralsOfFields]
    intro f hf n hn
    rcases mem_decodeFields hf with hf | ⟨g, hg, rfl⟩
    · cases hf
    · obtain ⟨k, v⟩ := g
      exact forall_numeralsOfFields.mp (fun n hn => hn) (k, v) hg n (ih (k, v) hg n hn)

/-- A document without numbers keeps its value. -/
theorem sameValue_reread_of_no_number (h : SameValue w v) (hv : numerals v = []) :
    SameValue (reread Float64.float64 w) v := by
  rw [sameValue_reread_iff h]
  intro n hn
  have hmem := numerals_canonical v n hn
  rw [hv] at hmem
  cases hmem

theorem sameValue_orElse {u : Value} (h : SameValue u v) (hv : v ≠ .null) :
    SameValue (orElse empty (some u)) v := by
  unfold orElse
  split
  next heq => cases heq
  next heq =>
    obtain rfl := Option.some.inj heq
    exact absurd (sameValue_null h.symm) hv
  next heq =>
    obtain rfl := Option.some.inj heq
    exact h

theorem exists_items (h : SameValue w (.arr items)) : ∃ items', w = .arr items' := by
  cases w with
  | arr items' => exact ⟨items', rfl⟩
  | _ => cases h.1

theorem exists_orElse_array {α : Type} (write : α → Value) (l : List α) [Decidable (l = [])] :
    orElse emptyArray (if l = [] then none else some (.arr (l.map write))) = .arr (l.map write) := by
  split
  next hl =>
    rw [hl]
    rfl
  next => rfl

end Columns

/-! ### What `Get` returns -/

section

variable {db : Jsonb} {t t' : Table} {key : ResourceKey} {o : ApiObject} {c c' : Columns} {x : Row}

/-- The stored columns have the values of the written ones. -/
structure SameColumns (c c' : Columns) : Prop where
  labels : SameValue c'.labels c.labels
  annotations : SameValue c'.annotations c.annotations
  finalizers : SameValue c'.finalizers c.finalizers
  ownerReferences : SameValue c'.ownerReferences c.ownerReferences
  spec : SameValue c'.spec c.spec
  status : SameValue c'.status c.status

theorem sameColumns_of_stored (h : db.storeColumns c = some c') : SameColumns c c' := by
  simp only [Jsonb.storeColumns, Option.pure_def, Option.bind_eq_bind, Option.bind_eq_some_iff,
    Option.some.injEq] at h
  obtain ⟨spec, hspec, status, hstatus, labels, hlabels, annotations, hannotations, finalizers,
    hfinalizers, refs, hrefs, rfl⟩ := h
  exact ⟨db.sameValue hlabels, db.sameValue hannotations, db.sameValue hfinalizers,
    db.sameValue hrefs, db.sameValue hspec, db.sameValue hstatus⟩

theorem numerals_ownerReferences (refs : List OwnerReference) :
    numerals (.arr (refs.map (·.value))) = [] := by
  induction refs with
  | nil => rfl
  | cons r refs ih =>
    obtain ⟨apiVersion, kind, name, uid, controller, blockOwnerDeletion⟩ := r
    rw [List.map_cons, numerals, numeralsOfItems, ← numerals, ih, List.append_nil]
    cases controller <;> cases blockOwnerDeletion <;> rfl

/-- A list of strings or of references that went through its column. -/
theorem sameValue_array {α : Type} {write : α → Value} {l : List α} [Decidable (l = [])]
    {w : Value} {f : Value → Value}
    (hw : SameValue w (orElse emptyArray (if l = [] then none else some (.arr (l.map write)))))
    (hf : SameValue (f w) (.arr (l.map write))) :
    SameValue (orElse emptyArray (if itemsOf w = [] then none else some (f w)))
      (orElse emptyArray (if l = [] then none else some (.arr (l.map write)))) := by
  rw [exists_orElse_array] at hw ⊢
  split
  next hempty =>
    obtain ⟨items, rfl⟩ := exists_items hw
    obtain rfl : items = [] := hempty
    exact hw
  next =>
    obtain ⟨items, hitems⟩ := exists_items hf
    rw [hitems] at hf ⊢
    exact hf

/-- A map of strings that went through its column. -/
theorem sameValue_map {v : Option Value} {w : Value}
    (hw : SameValue w (canonical (orElse emptyObject v))) :
    SameValue (orElse emptyObject (some (canonical w))) (orElse emptyObject v) := by
  refine sameValue_orElse ?_ (orElse_ne_null Value.noConfusion v)
  exact (sameValue_canonical w).trans (hw.trans (sameValue_canonical _))

/-- Whatever was stored, the metadata comes back. -/
theorem sameObject_iff (h : SameColumns o.encode.columns x.columns) :
    SameObject o.encode (reconstructObject key x) ↔
      (o.name = key.name ∧ o.ns = key.ns ∧ o.generateName = "" ∧ x.uid = o.uid) ∧
        NumbersKept o.spec ∧ NumbersKept o.status := by
  constructor
  · intro hsame
    exact ⟨⟨hsame.name.symm, hsame.ns.symm, hsame.generateName.symm, hsame.uid⟩,
      (sameValue_rereadUnlessEmpty h.spec).mp hsame.spec,
      (sameValue_rereadUnlessEmpty h.status).mp hsame.status⟩
  · rintro ⟨⟨hname, hns, hgenerateName, huid⟩, hspec, hstatus⟩
    have hfinalizers : SameValue x.columns.finalizers (orElse emptyArray o.encode.finalizers) :=
      h.finalizers.trans (sameValue_canonical _)
    refine ⟨hname.symm, hgenerateName.symm, hns.symm, huid, sameValue_map h.labels,
      sameValue_map h.annotations, ?_, ?_, (sameValue_rereadUnlessEmpty h.spec).mpr hspec,
      (sameValue_rereadUnlessEmpty h.status).mpr hstatus⟩
    · refine sameValue_array (f := canonical) hfinalizers ((sameValue_canonical _).trans ?_)
      rw [← exists_orElse_array]
      exact hfinalizers
    · have href := h.ownerReferences
      refine sameValue_array (f := reread Float64.float64) href ?_
      change SameValue _ (orElse emptyArray o.encode.ownerReferences) at href
      rw [ApiObject.encode, exists_orElse_array] at href
      exact sameValue_reread_of_no_number href (numerals_ownerReferences o.ownerReferences)

/-- A write that the database accepts. -/
def Written (db : Jsonb) (t : Table) (key : ResourceKey) (o : ApiObject) (t' : Table) : Prop :=
  create db t key o = .ok t' ∨ update db t key o = .ok t'

/-- The row of an accepted write has the columns of the object, and its uid is that of the row before. -/
theorem row_of_written (h : Written db t key o t') : ∃ x, t'.rows key = some x ∧
    SameColumns o.encode.columns x.columns ∧
      (x.uid = o.uid ↔ ∀ y, t.rows key = some y → y.uid = o.uid) := by
  rcases h with h | h
  · unfold create at h
    cases hstore : db.storeColumns o.encode.columns with
    | none => simp only [hstore, reduceCtorEq] at h
    | some columns =>
      cases hrow : t.rows key with
      | some y => simp only [hstore, hrow, reduceCtorEq] at h
      | none =>
        simp only [hstore, hrow, Except.ok.injEq] at h
        subst h
        refine ⟨_, Function.update_self _ _ _, sameColumns_of_stored hstore, ?_⟩
        exact iff_of_true rfl fun y hy => nomatch hy
  · unfold update at h
    dsimp only at h
    split at h
    next => cases h
    next =>
      cases hstore : db.storeColumns o.encode.columns with
      | none => simp only [hstore, reduceCtorEq] at h
      | some columns =>
        cases hrow : t.rows key with
        | none => simp only [hstore, hrow, reduceCtorEq] at h
        | some y =>
          simp only [hstore, hrow] at h
          split at h
          next =>
            obtain rfl := Except.ok.inj h
            refine ⟨_, Function.update_self _ _ _, sameColumns_of_stored hstore, ?_⟩
            refine ⟨fun huid z hz => ?_, fun hold => hold y rfl⟩
            obtain rfl := Option.some.inj hz
            exact huid
          next => cases h

end

/-! ### Two objects -/

/-- A `jsonb` that stores the value itself. -/
def exactJsonb : Jsonb where
  store v := some (canonical v)
  distinct v w := Json.render escape (canonical v) != Json.render escape (canonical w)
  sameValue h := Option.some.inj h ▸ sameValue_canonical _

def emptyTable : Table := ⟨0, 0, fun _ => none⟩

def queryKey : ResourceKey := ⟨"Query", "default", "run-1"⟩

/-- A query with the given input and `generateName`. -/
def queryObject (input : Numeral) (generateName : String) : ApiObject where
  name := "run-1"
  generateName := generateName
  ns := "default"
  uid := "1"
  resourceVersion := ""
  labels := ∅
  annotations := ∅
  finalizers := ["ark/finalizer"]
  ownerReferences := [⟨"v1", "Agent", "a", "2", some true, none⟩]
  generation := 0
  creationTimestamp := none
  deletionTimestamp := none
  spec := some (.obj (member "input" (some (.num input))))
  status := none

def created (o : ApiObject) : Table := ((create exactJsonb emptyTable queryKey o).toOption).getD emptyTable

theorem written_queryObject (input : Numeral) (generateName : String) :
    Written exactJsonb emptyTable queryKey (queryObject input generateName)
      (created (queryObject input generateName)) := .inl rfl

/-- An integer that is no `float64`. -/
def oddInput : Numeral := ⟨"9007199254740993".toList.map Char.toNat, by decide +kernel⟩

end Ark.RowEncoding
