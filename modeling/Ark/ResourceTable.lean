import Mathlib.Data.List.Basic
import Ark.Selector

/-!
# The rows of `resources` behind the REST layer

Each statement of the backend commits by itself. A write waits for the lock of its row and then
evaluates its `WHERE` clause again, so every statement takes effect at one moment. Timestamps are
whole seconds, the precision of RFC 3339; `V` is the type of the `spec` and `status` documents.
-/

namespace Ark

structure ResourceKey where
  kind : String
  ns : String
  name : String
  deriving DecidableEq, Repr

/-- An API object as the registry and the backend read it. An empty `resourceVersion` is `none`. -/
structure Object (V : Type*) where
  name : String
  generateName : String
  ns : String
  uid : String
  resourceVersion : Option ℕ
  generation : ℕ
  creationTimestamp : Option ℕ
  deletionTimestamp : Option ℕ
  labels : Labels
  annotations : Labels
  finalizers : List String
  ownerReferences : List String
  spec : V
  status : V

/-- A row; `id` is its serial primary key and `deletedAt` makes it a tombstone. -/
structure Resource (V : Type*) where
  id : ℕ
  key : ResourceKey
  uid : String
  resourceVersion : ℕ
  generation : ℕ
  labels : Labels
  annotations : Labels
  finalizers : List String
  ownerReferences : List String
  spec : V
  status : V
  createdAt : ℕ
  deletionTimestamp : Option ℕ
  deletedAt : Option ℕ

/-- `reconstructObject`. -/
def Resource.reconstructObject {V : Type*} (x : Resource V) : Object V where
  name := x.key.name
  generateName := ""
  ns := x.key.ns
  uid := x.uid
  resourceVersion := some x.resourceVersion
  generation := x.generation
  creationTimestamp := some x.createdAt
  deletionTimestamp := x.deletionTimestamp
  labels := x.labels
  annotations := x.annotations
  finalizers := x.finalizers
  ownerReferences := x.ownerReferences
  spec := x.spec
  status := x.status

inductive BackendError
  | notFound
  | conflict
  | alreadyExists
  | other (text : String)
  deriving DecidableEq, Repr

def BackendError.text : BackendError → String
  | .notFound => "not found"
  | .conflict => "conflict: resource version mismatch"
  | .alreadyExists => "already exists"
  | .other text => text

structure ResourceTable (V : Type*) where
  seq : ℕ
  nextId : ℕ
  clock : ℕ
  rows : List (Resource V)

namespace ResourceTable

variable {V : Type*}

def empty : ResourceTable V := ⟨0, 0, 0, []⟩

def isLive (key : ResourceKey) (x : Resource V) : Bool :=
  decide (x.key = key) && x.deletedAt.isNone

/-- The row that `kind = … AND namespace = … AND name = … AND deleted_at IS NULL` selects. -/
def live (t : ResourceTable V) (key : ResourceKey) : Option (Resource V) :=
  t.rows.find? (isLive key)

def get (t : ResourceTable V) (key : ResourceKey) : Except BackendError (Object V) :=
  match t.live key with
  | none => .error .notFound
  | some x => .ok x.reconstructObject

/-- `INSERT INTO resources`: the remaining columns take their defaults. -/
def newRow (t : ResourceTable V) (key : ResourceKey) (o : Object V) : Resource V where
  id := t.nextId
  key := key
  uid := o.uid
  resourceVersion := t.seq + 1
  generation := 1
  labels := o.labels
  annotations := o.annotations
  finalizers := o.finalizers
  ownerReferences := o.ownerReferences
  spec := o.spec
  status := o.status
  createdAt := t.clock
  deletionTimestamp := none
  deletedAt := none

/-- `none` is the unique violation of `idx_resources_unique_active`. -/
def create (t : ResourceTable V) (key : ResourceKey) (o : Object V) : Option (ResourceTable V) :=
  match t.live key with
  | some _ => none
  | none =>
    some { t with seq := t.seq + 1, nextId := t.nextId + 1, rows := t.rows ++ [t.newRow key o] }

/-- Write the new version `x` of a row. -/
def store (t : ResourceTable V) (x : Resource V) : ResourceTable V :=
  { t with seq := t.seq + 1, rows := t.rows.map fun y => if y.id = x.id then x else y }

/-- The live row of a statement that also names the version. -/
def liveAt (t : ResourceTable V) (key : ResourceKey) (rv : ℕ) : Option (Resource V) :=
  (t.live key).filter fun x => decide (x.resourceVersion = rv)

/-- The `SET` clause of `Update`; its right-hand sides read the old row. -/
def updated [DecidableEq V] (t : ResourceTable V) (x : Resource V) (o : Object V) : Resource V :=
  { x with
    resourceVersion := t.seq + 1
    generation :=
      if x.spec ≠ o.spec ∨ (o.deletionTimestamp.isSome ∧ x.deletionTimestamp.isNone)
      then x.generation + 1 else x.generation
    labels := o.labels
    annotations := o.annotations
    finalizers := o.finalizers
    ownerReferences := o.ownerReferences
    spec := o.spec
    status := o.status
    deletionTimestamp := o.deletionTimestamp.or x.deletionTimestamp }

/-- The `SET` clause of `UpdateStatus`. -/
def statusUpdated (t : ResourceTable V) (x : Resource V) (o : Object V) : Resource V :=
  { x with resourceVersion := t.seq + 1, status := o.status }

/-- The `SET` clause of `Delete`. -/
def softDeleted (t : ResourceTable V) (x : Resource V) : Resource V :=
  { x with resourceVersion := t.seq + 1, deletedAt := some t.clock }

/-! ### The invariant of the table -/

structure WellFormed (t : ResourceTable V) : Prop where
  id_lt : ∀ x ∈ t.rows, x.id < t.nextId
  id_inj : ∀ x ∈ t.rows, ∀ y ∈ t.rows, x.id = y.id → x = y
  rv_pos : ∀ x ∈ t.rows, 0 < x.resourceVersion
  rv_le : ∀ x ∈ t.rows, x.resourceVersion ≤ t.seq
  rv_inj : ∀ x ∈ t.rows, ∀ y ∈ t.rows, x.resourceVersion = y.resourceVersion → x = y
  live_inj : ∀ x ∈ t.rows, ∀ y ∈ t.rows, x.key = y.key → x.deletedAt = none →
    y.deletedAt = none → x = y

/-- `x` is a version that some row has had: no row holds another one under its number. -/
structure Version (t : ResourceTable V) (x : Resource V) : Prop where
  rv_le : x.resourceVersion ≤ t.seq
  eq_of_rv : ∀ y ∈ t.rows, y.resourceVersion = x.resourceVersion → y = x

theorem live_some {t : ResourceTable V} {key : ResourceKey} {x : Resource V}
    (h : t.live key = some x) : x ∈ t.rows ∧ x.key = key ∧ x.deletedAt = none := by
  refine ⟨List.mem_of_find?_eq_some h, ?_⟩
  have hp := List.find?_some h
  simpa [isLive] using hp

theorem live_none {t : ResourceTable V} {key : ResourceKey} (h : t.live key = none) :
    ∀ x ∈ t.rows, x.key = key → x.deletedAt ≠ none := by
  intro x hx hk hd
  have hp := List.find?_eq_none.mp h x hx
  simp [isLive, hk, hd] at hp

theorem liveAt_some {t : ResourceTable V} {key : ResourceKey} {rv : ℕ} {x : Resource V}
    (h : t.liveAt key rv = some x) : t.live key = some x ∧ x.resourceVersion = rv := by
  simpa [liveAt, Option.filter_eq_some_iff] using h

theorem WellFormed.live_eq {t : ResourceTable V} (ht : t.WellFormed) {x : Resource V}
    (hx : x ∈ t.rows) (hd : x.deletedAt = none) : t.live x.key = some x := by
  cases h : t.live x.key with
  | none => exact absurd hd (live_none h x hx rfl)
  | some y =>
    obtain ⟨hy, hk, hyd⟩ := live_some h
    rw [ht.live_inj y hy x hx hk hyd hd]

theorem mem_store {t : ResourceTable V} {x y : Resource V} (h : y ∈ (t.store x).rows) :
    y = x ∨ (y ∈ t.rows ∧ y.id ≠ x.id) := by
  obtain ⟨z, hz, hzy⟩ := List.mem_map.mp h
  by_cases hid : z.id = x.id
  · rw [if_pos hid] at hzy
    exact .inl hzy.symm
  · rw [if_neg hid] at hzy
    subst hzy
    exact .inr ⟨hz, hid⟩

theorem store_mem {t : ResourceTable V} {x y : Resource V} (hy : y ∈ t.rows) (h : y.id ≠ x.id) :
    y ∈ (t.store x).rows :=
  List.mem_map.mpr ⟨y, hy, if_neg h⟩

theorem store_mem_self {t : ResourceTable V} {x y : Resource V} (hy : y ∈ t.rows)
    (h : y.id = x.id) : x ∈ (t.store x).rows :=
  List.mem_map.mpr ⟨y, hy, if_pos h⟩

theorem create_some {t t' : ResourceTable V} {key : ResourceKey} {o : Object V}
    (h : t.create key o = some t') :
    t.live key = none ∧ t' = { t with
      seq := t.seq + 1, nextId := t.nextId + 1, rows := t.rows ++ [t.newRow key o] } := by
  simp only [create] at h
  split at h
  next => cases h
  next hl => exact ⟨hl, (Option.some.inj h).symm⟩

theorem wellFormed_empty : (empty : ResourceTable V).WellFormed := by
  constructor <;> simp [empty]

/-- A new version of a live row keeps the table well formed. -/
theorem WellFormed.store {t : ResourceTable V} (ht : t.WellFormed) {x x' : Resource V}
    (hx : x ∈ t.rows) (hlive : x.deletedAt = none) (hid : x'.id = x.id) (hkey : x'.key = x.key)
    (hrv : x'.resourceVersion = t.seq + 1) : (t.store x').WellFormed := by
  have hne : ∀ y ∈ t.rows, y.resourceVersion ≠ x'.resourceVersion := by
    intro y hy
    have := ht.rv_le y hy
    omega
  refine ⟨?_, ?_, ?_, ?_, ?_, ?_⟩
  · intro y hy
    rcases mem_store hy with rfl | ⟨hy, -⟩
    · rw [hid]
      exact ht.id_lt x hx
    · exact ht.id_lt y hy
  · intro y hy z hz hyz
    rcases mem_store hy with rfl | ⟨hy', hyid⟩
    · rcases mem_store hz with rfl | ⟨-, hzid⟩
      · rfl
      · exact absurd hyz.symm hzid
    · rcases mem_store hz with rfl | ⟨hz', -⟩
      · exact absurd hyz hyid
      · exact ht.id_inj y hy' z hz' hyz
  · intro y hy
    rcases mem_store hy with rfl | ⟨hy, -⟩
    · omega
    · exact ht.rv_pos y hy
  · intro y hy
    rcases mem_store hy with rfl | ⟨hy, -⟩
    · exact Nat.le_of_eq hrv
    · exact Nat.le_succ_of_le (ht.rv_le y hy)
  · intro y hy z hz hyz
    rcases mem_store hy with rfl | ⟨hy', -⟩
    · rcases mem_store hz with rfl | ⟨hz', -⟩
      · rfl
      · exact absurd hyz.symm (hne z hz')
    · rcases mem_store hz with rfl | ⟨hz', -⟩
      · exact absurd hyz (hne y hy')
      · exact ht.rv_inj y hy' z hz' hyz
  · intro y hy z hz hyz hyd hzd
    rcases mem_store hy with rfl | ⟨hy', hyid⟩
    · rcases mem_store hz with rfl | ⟨hz', hzid⟩
      · rfl
      · have : x = z := ht.live_inj x hx z hz' (hkey.symm.trans hyz) hlive hzd
        exact absurd (this ▸ hid.symm) hzid
    · rcases mem_store hz with rfl | ⟨hz', -⟩
      · have : y = x := ht.live_inj y hy' x hx (hyz.trans hkey) hyd hlive
        exact absurd (this ▸ hid.symm) hyid
      · exact ht.live_inj y hy' z hz' hyz hyd hzd

theorem WellFormed.create {t t' : ResourceTable V} (ht : t.WellFormed) {key : ResourceKey}
    {o : Object V} (h : t.create key o = some t') : t'.WellFormed := by
  obtain ⟨hfree, rfl⟩ := create_some h
  have hmem : ∀ y ∈ t.rows ++ [t.newRow key o], y ∈ t.rows ∨ y = t.newRow key o := by
    intro y hy
    simpa using hy
  have hrow : ∀ y ∈ t.rows, y.resourceVersion ≠ t.seq + 1 ∧ y.id ≠ t.nextId := by
    intro y hy
    have h₁ := ht.rv_le y hy
    have h₂ := ht.id_lt y hy
    omega
  refine ⟨?_, ?_, ?_, ?_, ?_, ?_⟩
  · intro y hy
    rcases hmem y hy with hy | rfl
    · exact Nat.lt_succ_of_lt (ht.id_lt y hy)
    · exact Nat.lt_succ_self _
  · intro y hy z hz hyz
    rcases hmem y hy with hy | rfl
    · rcases hmem z hz with hz | rfl
      · exact ht.id_inj y hy z hz hyz
      · exact absurd hyz (hrow y hy).2
    · rcases hmem z hz with hz | rfl
      · exact absurd hyz.symm (hrow z hz).2
      · rfl
  · intro y hy
    rcases hmem y hy with hy | rfl
    · exact ht.rv_pos y hy
    · exact Nat.succ_pos _
  · intro y hy
    rcases hmem y hy with hy | rfl
    · exact Nat.le_succ_of_le (ht.rv_le y hy)
    · exact Nat.le_refl _
  · intro y hy z hz hyz
    rcases hmem y hy with hy | rfl
    · rcases hmem z hz with hz | rfl
      · exact ht.rv_inj y hy z hz hyz
      · exact absurd hyz (hrow y hy).1
    · rcases hmem z hz with hz | rfl
      · exact absurd hyz.symm (hrow z hz).1
      · rfl
  · intro y hy z hz hyz hyd hzd
    rcases hmem y hy with hy | rfl
    · rcases hmem z hz with hz | rfl
      · exact ht.live_inj y hy z hz hyz hyd hzd
      · exact absurd hyd (live_none hfree y hy hyz)
    · rcases hmem z hz with hz | rfl
      · exact absurd hzd (live_none hfree z hz hyz.symm)
      · rfl

/-! ### Versions -/

theorem WellFormed.version {t : ResourceTable V} (ht : t.WellFormed) {x : Resource V}
    (hx : x ∈ t.rows) : t.Version x :=
  ⟨ht.rv_le x hx, fun y hy h => ht.rv_inj y hy x hx h⟩

theorem Version.store {t : ResourceTable V} {x x' : Resource V} (h : t.Version x)
    (hrv : x'.resourceVersion = t.seq + 1) : (t.store x').Version x := by
  have hle := h.rv_le
  refine ⟨Nat.le_succ_of_le hle, ?_⟩
  intro y hy hyx
  rcases mem_store hy with rfl | ⟨hy, -⟩
  · omega
  · exact h.eq_of_rv y hy hyx

theorem Version.create {t t' : ResourceTable V} {x : Resource V} {key : ResourceKey}
    {o : Object V} (h : t.Version x) (hc : t.create key o = some t') : t'.Version x := by
  obtain ⟨-, rfl⟩ := create_some hc
  have hle := h.rv_le
  refine ⟨Nat.le_succ_of_le hle, ?_⟩
  intro y hy hyx
  rcases List.mem_append.mp hy with hy | hy
  · exact h.eq_of_rv y hy hyx
  · obtain rfl := List.mem_singleton.mp hy
    simp only [newRow] at hyx
    omega

/-- A statement that names the version of `x` finds `x`. -/
theorem Version.liveAt_eq {t : ResourceTable V} {x y : Resource V} {key : ResourceKey}
    (h : t.Version x) (hy : t.liveAt key x.resourceVersion = some y) : y = x := by
  obtain ⟨hl, hrv⟩ := liveAt_some hy
  exact h.eq_of_rv y (live_some hl).1 hrv

end ResourceTable
end Ark
