import Mathlib.Data.Finmap
import Mathlib.Data.Finset.Sort
import Mathlib.Data.String.Basic
import Ark.GoStruct

/-!
# Decoding over a value

`json.Unmarshal` into a value that is not zero keeps what the text does not mention: a field of a struct,
an element of a slice at its place and a key of a map stay. A description of a type says how its values
are written and decoded, and `Covers` when a written value replaces the one that it is decoded over.
-/

namespace GoMerge

open Json GoJson

/-! ### Types -/

/-- A type that is written and decoded by functions of its own. A value `u` that is decoded over `e` is
written as before where it covers `e`. -/
structure LeafType where
  Carrier : Type
  zero : Carrier
  isEmpty : Carrier → Bool
  marshal : Carrier → Value
  unmarshal : Value → Carrier → Option Carrier
  Covers : Carrier → Carrier → Prop
  marshal_iff : ∀ {u e r}, unmarshal (marshal u) e = some r → (marshal r = marshal u ↔ Covers e u)
  isEmpty_congr : ∀ {a b}, marshal a = marshal b → isEmpty a = isEmpty b

mutual

inductive GoType
  | leaf (c : LeafType)
  | pointer (t : GoType)
  | slice (t : GoType)
  | map (t : GoType)
  | struct (fields : Fields)

inductive Fields
  | nil
  | cons (name : String) (omitempty : Bool) (t : GoType) (fields : Fields)

end

mutual

/-- The values of a type; a slice and a map may be nil. -/
def GoType.Carrier : GoType → Type
  | .leaf c => c.Carrier
  | .pointer t => Option t.Carrier
  | .slice t => Option (List t.Carrier)
  | .map t => Option (Finmap fun _ : String => t.Carrier)
  | .struct fields => fields.Carrier

def Fields.Carrier : Fields → Type
  | .nil => Unit
  | .cons _ _ t fields => t.Carrier × fields.Carrier

end

def Fields.names : Fields → List String
  | .nil => []
  | .cons name _ _ fields => name :: fields.names

mutual

/-- The names of the fields of a struct are distinct. -/
def GoType.WellFormed : GoType → Prop
  | .leaf _ => True
  | .pointer t => t.WellFormed
  | .slice t => t.WellFormed
  | .map t => t.WellFormed
  | .struct fields => fields.names.Nodup ∧ fields.WellFormed

def Fields.WellFormed : Fields → Prop
  | .nil => True
  | .cons _ _ t fields => t.WellFormed ∧ fields.WellFormed

end

mutual

def zero : (t : GoType) → t.Carrier
  | .leaf c => c.zero
  | .pointer _ => none
  | .slice _ => none
  | .map _ => none
  | .struct fields => zeroFields fields

def zeroFields : (fields : Fields) → fields.Carrier
  | .nil => ()
  | .cons _ _ t fields => (zero t, zeroFields fields)

end

/-- The values that `omitempty` leaves out. -/
def isEmpty : (t : GoType) → t.Carrier → Bool
  | .leaf c, v => c.isEmpty v
  | .pointer _, v => Option.isNone v
  | .slice _, v => List.isEmpty (Option.getD v [])
  | .map _, v => (Finmap.keys (Option.getD v ∅)).card == 0
  | .struct _, _ => false

/-! ### Writing -/

/-- The entries of a map, sorted by their keys. -/
def entries {α : Type} (f : α → Value) (m : Finmap fun _ : String => α) : List (Text × Value) :=
  (m.keys.sort (· ≤ ·)).flatMap fun k => member k ((m.lookup k).map f)

/-- What a struct writes of a field. -/
def written (omitempty empty : Bool) (v : Value) : Option Value :=
  if omitempty && empty then none else some v

mutual

def encode : (t : GoType) → t.Carrier → Value
  | .leaf c, v => c.marshal v
  | .pointer t, v => Option.elim v .null (encode t)
  | .slice t, v => Option.elim v .null fun xs => .arr (List.map (encode t) xs)
  | .map t, v => Option.elim v .null fun m => .obj (entries (encode t) m)
  | .struct fields, v => .obj (encodeFields fields v)

def encodeFields : (fields : Fields) → fields.Carrier → List (Text × Value)
  | .nil, _ => []
  | .cons name omitempty t fields, v =>
    member name (written omitempty (isEmpty t v.1) (encode t v.1)) ++ encodeFields fields v.2

end

/-! ### Decoding -/

/-- The elements of an array, each decoded over the one at its place. -/
def decodeItems {α : Type} (f : Value → α → Option α) (zero : α) :
    List Value → List α → Option (List α)
  | [], _ => some []
  | j :: js, xs => do
    let x ← f j (xs.headD zero)
    let rest ← decodeItems f zero js xs.tail
    return x :: rest

/-- The members of an object, each decoded into a new element. -/
def decodeEntries {α : Type} (f : Value → Option α) :
    List (Text × Value) → (Finmap fun _ : String => α) → Option (Finmap fun _ : String => α)
  | [], m => some m
  | (k, j) :: members, m => do
    let x ← f j
    decodeEntries f members (m.insert (readString k) x)

/-- A key names a field exactly, or else the first one that it names without regard to case. -/
def selects (names : List String) (name : String) (key : Text) : Bool :=
  if names.any (literal · == key) then literal name == key
  else names.find? (isField · key) == some name

def decodeField {α : Type} (f : Value → α → Option α) : List Value → α → Option α
  | [], x => some x
  | j :: js, x => (f j x).bind (decodeField f js)

def decodePointer {α : Type} (f : Value → α → Option α) (zero : α) :
    Value → Option α → Option (Option α)
  | .null, _ => some none
  | j, v => (f j (v.getD zero)).map some

def decodeSlice {α : Type} (f : Value → α → Option α) (zero : α) :
    Value → Option (List α) → Option (Option (List α))
  | .null, _ => some none
  | .arr js, v => (decodeItems f zero js (v.getD [])).map some
  | _, _ => none

def decodeMap {α : Type} (f : Value → α → Option α) (zero : α) :
    Value → Option (Finmap fun _ : String => α) → Option (Option (Finmap fun _ : String => α))
  | .null, _ => some none
  | .obj members, v => (decodeEntries (fun j => f j zero) members (v.getD ∅)).map some
  | _, _ => none

def decodeStruct {α : Type} (f : List (Text × Value) → α → Option α) : Value → α → Option α
  | .null, v => some v
  | .obj members, v => f members v
  | _, _ => none

mutual

/-- Decode a value over another one. -/
def decode : (t : GoType) → Value → t.Carrier → Option t.Carrier
  | .leaf c, j, v => c.unmarshal j v
  | .pointer t, j, v => decodePointer (decode t) (zero t) j v
  | .slice t, j, v => decodeSlice (decode t) (zero t) j v
  | .map t, j, v => decodeMap (decode t) (zero t) j v
  | .struct fields, j, v =>
    decodeStruct (fun members v => decodeFields fields.names members fields v) j v

def decodeFields (names : List String) (members : List (Text × Value)) :
    (fields : Fields) → fields.Carrier → Option fields.Carrier
  | .nil, _ => some ()
  | .cons name _ t fields, v => do
    let x ← decodeField (decode t) ((members.filter fun m => selects names name m.1).map (·.2)) v.1
    let rest ← decodeFields names members fields v.2
    return (x, rest)

end

/-! ### What a decoded value covers -/

/-- A pointer to a value that is written as null. -/
def Blank : (t : GoType) → t.Carrier → Prop
  | .pointer t, v => ∃ a, v = some a ∧ encode t a = .null
  | _, _ => False

def CoversItems {α : Type} (covers : α → α → Prop) (zero : α) : List α → List α → Prop
  | _, [] => True
  | es, u :: us => covers (es.headD zero) u ∧ CoversItems covers zero es.tail us

mutual

/-- `u` leaves nothing out that `e` has: no key of a map, and no field that is omitted when it is empty. -/
def Covers : (t : GoType) → t.Carrier → t.Carrier → Prop
  | .leaf c, e, u => c.Covers e u
  | .pointer t, e, u => ∀ a, u = some a → encode t a = .null ∨ Covers t (Option.getD e (zero t)) a
  | .slice t, e, u => ∀ us, u = some us → CoversItems (Covers t) (zero t) (Option.getD e []) us
  | .map t, e, u => ∀ m : Finmap fun _ : String => t.Carrier, u = some m →
    (∀ k ∈ Option.getD e ∅, k ∈ m) ∧ ∀ k a, m.lookup k = some a → Covers t (zero t) a
  | .struct fields, e, u => CoversFields fields e u

def CoversFields : (fields : Fields) → fields.Carrier → fields.Carrier → Prop
  | .nil, _, _ => True
  | .cons _ omitempty t fields, e, u =>
    (if omitempty && isEmpty t u.1 then isEmpty t e.1 = true
      else Covers t e.1 u.1 ∧ (omitempty = true → ¬ Blank t u.1)) ∧
    CoversFields fields e.2 u.2

end

/-! ### Slices and maps -/

section

variable {α : Type} {f : Value → α → Option α} {write : α → Value} {covers : α → α → Prop} {zero : α}

theorem decodeItems_iff (hf : ∀ u e r, f (write u) e = some r → (write r = write u ↔ covers e u))
    {us es rs : List α} (h : decodeItems f zero (us.map write) es = some rs) :
    rs.map write = us.map write ↔ CoversItems covers zero es us := by
  induction us generalizing es rs with
  | nil =>
    obtain rfl := Option.some.inj h
    exact iff_of_true rfl trivial
  | cons u us ih =>
    obtain ⟨x, hx, hrest⟩ := Option.bind_eq_some_iff.mp h
    obtain ⟨xs, hxs, hcons⟩ := Option.bind_eq_some_iff.mp hrest
    obtain rfl := Option.some.inj hcons
    rw [List.map_cons, List.map_cons, List.cons.injEq, hf _ _ _ hx, ih hxs, CoversItems]

theorem lookup_entriesOf {f : α → Value} {m : Finmap fun _ : String => α} (k : String)
    {ks : List String} (hnodup : ks.Nodup) :
    lookup (literal k) (ks.flatMap fun k => member k ((m.lookup k).map f)) =
      if k ∈ ks then (m.lookup k).map f else none := by
  induction ks with
  | nil => rfl
  | cons k' ks ih =>
    rw [List.nodup_cons] at hnodup
    rw [List.flatMap_cons, lookup_append, lookup_member, ih hnodup.2]
    by_cases hk : k' = k
    · subst hk
      rw [if_pos rfl, if_neg hnodup.1, Option.or_none, if_pos List.mem_cons_self]
    · have hiff : k ∈ k' :: ks ↔ k ∈ ks := by
        rw [List.mem_cons]
        exact or_iff_right fun heq => hk heq.symm
      rw [if_neg hk, Option.none_or]
      simp only [hiff]

theorem lookup_entries (f : α → Value) (m : Finmap fun _ : String => α) (k : String) :
    lookup (literal k) (entries f m) = (m.lookup k).map f := by
  rw [entries, lookup_entriesOf k (m.keys.sort_nodup _)]
  split
  next => rfl
  next hk =>
    rw [Finset.mem_sort, Finmap.mem_keys, ← Finmap.lookup_eq_none] at hk
    rw [hk, Option.map_none]

theorem mem_of_lookup (write : α → Value) {m : Finmap fun _ : String => α} {k : String} :
    k ∈ m ↔ ((m.lookup k).map write).isSome = true := by
  rw [Option.isSome_map, Finmap.lookup_isSome]

theorem keys_eq_of_lookup {m m' : Finmap fun _ : String => α}
    (h : ∀ k, (m.lookup k).map write = (m'.lookup k).map write) : m.keys = m'.keys := by
  ext k
  rw [Finmap.mem_keys, Finmap.mem_keys, mem_of_lookup write, h k, ← mem_of_lookup write]

/-- Maps are written alike if all their entries are. -/
theorem entries_eq_iff {m m' : Finmap fun _ : String => α} : entries write m = entries write m' ↔
    ∀ k, (m.lookup k).map write = (m'.lookup k).map write := by
  constructor
  · intro h k
    rw [← lookup_entries, h, lookup_entries]
  · intro h
    rw [entries, entries, keys_eq_of_lookup h]
    simp only [h]

theorem decodeEntries_lookup {f : Value → Option α} {m : Finmap fun _ : String => α} {ks : List String}
    (hnodup : ks.Nodup) (hks : ∀ k ∈ ks, k ∈ m) {e r : Finmap fun _ : String => α}
    (h : decodeEntries f (ks.flatMap fun k => member k ((m.lookup k).map write)) e = some r) (k : String) :
    (k ∈ ks → ∃ a x, m.lookup k = some a ∧ f (write a) = some x ∧ r.lookup k = some x) ∧
      (k ∉ ks → r.lookup k = e.lookup k) := by
  induction ks generalizing e with
  | nil =>
    obtain rfl := Option.some.inj h
    exact ⟨fun hk => absurd hk List.not_mem_nil, fun _ => rfl⟩
  | cons k' ks ih =>
    rw [List.nodup_cons] at hnodup
    obtain ⟨a, ha⟩ := Finmap.mem_iff.mp (hks k' List.mem_cons_self)
    rw [List.flatMap_cons, ha] at h
    obtain ⟨x, hx, hrest⟩ := Option.bind_eq_some_iff.mp h
    rw [readString_literal] at hrest
    have hrest := ih hnodup.2 (fun k hk => hks k (List.mem_cons_of_mem k' hk)) hrest
    constructor
    · intro hk
      obtain rfl | hk := List.mem_cons.mp hk
      · rw [hrest.2 hnodup.1, Finmap.lookup_insert]
        exact ⟨a, x, ha, hx, rfl⟩
      · exact hrest.1 hk
    · intro hk
      rw [List.mem_cons, not_or] at hk
      rw [hrest.2 hk.2, Finmap.lookup_insert_of_ne _ hk.1]

theorem decodeEntries_iff (hf : ∀ u r, f (write u) zero = some r → (write r = write u ↔ covers zero u))
    {m e r : Finmap fun _ : String => α}
    (h : decodeEntries (fun j => f j zero) (entries write m) e = some r) :
    entries write r = entries write m ↔
      (∀ k ∈ e, k ∈ m) ∧ ∀ k a, m.lookup k = some a → covers zero a := by
  have hread := decodeEntries_lookup (m.keys.sort_nodup _)
    (fun k hk => Finmap.mem_keys.mp ((Finset.mem_sort _).mp hk)) h
  simp only [Finset.mem_sort, Finmap.mem_keys] at hread
  rw [entries_eq_iff]
  constructor
  · intro heq
    constructor
    · intro k hk
      by_contra hnone
      rw [mem_of_lookup write, ← (hread k).2 hnone, heq k, ← mem_of_lookup] at hk
      exact hnone hk
    · intro k a ha
      obtain ⟨a', x, ha', hx, hr⟩ := (hread k).1 (Finmap.lookup_isSome.mp (ha ▸ rfl))
      obtain rfl := Option.some.inj (ha.symm.trans ha')
      have hk := heq k
      rw [hr, ha, Option.map_some, Option.map_some] at hk
      exact (hf _ _ hx).mp (Option.some.inj hk)
  · rintro ⟨hkeys, hcovers⟩ k
    by_cases hk : k ∈ m
    · obtain ⟨a, x, ha, hx, hr⟩ := (hread k).1 hk
      rw [hr, ha, Option.map_some, Option.map_some, (hf _ _ hx).mpr (hcovers k a ha)]
    · have he : e.lookup k = none := Finmap.lookup_eq_none.mpr fun hmem => hk (hkeys k hmem)
      rw [(hread k).2 hk, he, Finmap.lookup_eq_none.mpr hk]

theorem decodePointer_of_ne {j : Value} (hj : j ≠ .null) (v : Option α) :
    decodePointer f zero j v = (f j (v.getD zero)).map some := by
  unfold decodePointer
  split
  next => exact absurd rfl hj
  next => rfl

end

/-! ### Structs -/

theorem selects_literal {names : List String} {n : String} (hn : n ∈ names) (name : String) :
    selects names name (literal n) = decide (name = n) := by
  have hany : names.any (literal · == literal n) = true :=
    List.any_eq_true.mpr ⟨n, hn, beq_self_eq_true _⟩
  rw [selects, if_pos hany]
  by_cases hname : name = n
  · rw [hname, beq_self_eq_true, decide_eq_true rfl]
  · rw [decide_eq_false hname, beq_eq_false_iff_ne]
    exact fun h => hname (literal_injective h)

theorem member_key {name : String} {v : Option Value} {m : Text × Value} (h : m ∈ member name v) :
    m.1 = literal name := by
  cases v with
  | none => cases h
  | some v => rw [List.mem_singleton.mp h]

theorem mem_encodeFields {m : Text × Value} : (fields : Fields) → (v : fields.Carrier) →
    m ∈ encodeFields fields v → ∃ n ∈ fields.names, m.1 = literal n
  | .nil, _, h => absurd h List.not_mem_nil
  | .cons name omitempty t fields, v, h => by
    rw [encodeFields] at h
    obtain h | h := List.mem_append.mp h
    · exact ⟨name, List.mem_cons_self, member_key h⟩
    · obtain ⟨n, hn, hm⟩ := mem_encodeFields fields v.2 h
      exact ⟨n, List.mem_cons_of_mem name hn, hm⟩

theorem lookup_encodeFields {name : String} {fields : Fields} (hname : name ∉ fields.names)
    (v : fields.Carrier) : lookup (literal name) (encodeFields fields v) = none := by
  have hkeys : ∀ m ∈ encodeFields fields v, m.1 ≠ literal name := by
    intro m hm heq
    obtain ⟨n, hn, hkey⟩ := mem_encodeFields fields v hm
    exact hname (literal_injective (hkey.symm.trans heq) ▸ hn)
  generalize encodeFields fields v = members at hkeys
  induction members with
  | nil => rfl
  | cons m members ih =>
    rw [lookup, if_neg (hkeys m List.mem_cons_self)]
    exact ih fun m hm => hkeys m (List.mem_cons_of_mem _ hm)

/-- The values that a written struct has for one of its fields. -/
theorem values_eq {names : List String} {name : String} (hname : name ∈ names) {fields : Fields}
    (hsub : ∀ n ∈ fields.names, n ∈ names) (hnotin : name ∉ fields.names) (u : fields.Carrier)
    {before : List (Text × Value)}
    (hbefore : ∀ m ∈ before, ∃ n ∈ names, m.1 = literal n ∧ n ≠ name) (v : Option Value) :
    ((before ++ (member name v ++ encodeFields fields u)).filter fun m =>
      selects names name m.1).map (·.2) = v.toList := by
  have hnone {members : List (Text × Value)}
      (h : ∀ m ∈ members, ∃ n ∈ names, m.1 = literal n ∧ n ≠ name) :
      members.filter (fun m => selects names name m.1) = [] := by
    rw [List.filter_eq_nil_iff]
    intro m hm hselects
    obtain ⟨n, hn, hkey, hne⟩ := h m hm
    rw [hkey, selects_literal hn, decide_eq_true_eq] at hselects
    exact hne hselects.symm
  have hafter : ∀ m ∈ encodeFields fields u, ∃ n ∈ names, m.1 = literal n ∧ n ≠ name := by
    intro m hm
    obtain ⟨n, hn, hkey⟩ := mem_encodeFields fields u hm
    exact ⟨n, hsub n hn, hkey, fun heq => hnotin (heq ▸ hn)⟩
  rw [List.filter_append, List.filter_append, hnone hbefore, hnone hafter, List.append_nil,
    List.nil_append]
  cases v with
  | none => rfl
  | some v =>
    have hself : selects names name (literal name) = true := by
      rw [selects_literal hname, decide_eq_true rfl]
    rw [member, Option.elim_some, List.filter_cons, if_pos hself]
    rfl

theorem decodeFields_cons {names : List String} {members : List (Text × Value)} {name : String}
    {omitempty : Bool} {t : GoType} {fields : Fields} {v r : (Fields.cons name omitempty t fields).Carrier}
    (h : decodeFields names members (.cons name omitempty t fields) v = some r) :
    decodeField (decode t) ((members.filter fun m => selects names name m.1).map (·.2)) v.1 = some r.1 ∧
      decodeFields names members fields v.2 = some r.2 := by
  obtain ⟨x, hx, htail⟩ := Option.bind_eq_some_iff.mp h
  obtain ⟨rest, hrest, hcons⟩ := Option.bind_eq_some_iff.mp htail
  obtain rfl := Option.some.inj hcons
  exact ⟨hx, hrest⟩

theorem member_append_inj {name : String} {v w : Option Value} {fields : Fields}
    (hname : name ∉ fields.names) {x y : fields.Carrier} :
    member name v ++ encodeFields fields x = member name w ++ encodeFields fields y ↔
      v = w ∧ encodeFields fields x = encodeFields fields y := by
  constructor
  · intro h
    have hlookup := congrArg (lookup (literal name)) h
    rw [lookup_append, lookup_append, lookup_encodeFields hname, lookup_encodeFields hname, lookup_member,
      lookup_member, if_pos rfl, if_pos rfl, Option.or_none, Option.or_none] at hlookup
    subst hlookup
    exact ⟨rfl, List.append_cancel_left h⟩
  · rintro ⟨rfl, h⟩
    rw [h]

/-- A written value is decoded as empty only where it is null. -/
theorem isEmpty_iff_blank {t : GoType} {u e r : t.Carrier} (h : decode t (encode t u) e = some r)
    (heq : encode t r = encode t u) (hu : isEmpty t u = false) : isEmpty t r = true ↔ Blank t u := by
  cases t with
  | leaf c =>
    have hempty := c.isEmpty_congr heq
    rw [isEmpty] at hu ⊢
    rw [hempty, hu]
    exact iff_of_false Bool.false_ne_true id
  | pointer t =>
    cases u with
    | none => cases hu
    | some a =>
      by_cases ha : encode t a = .null
      · change decode (.pointer t) (encode t a) e = some r at h
        rw [ha] at h
        obtain rfl := Option.some.inj h
        exact iff_of_true rfl ⟨a, rfl, ha⟩
      · obtain ⟨b, -, rfl⟩ := Option.map_eq_some_iff.mp ((decodePointer_of_ne ha _).symm.trans h)
        refine iff_of_false Bool.false_ne_true ?_
        rintro ⟨a', ha', hnull⟩
        exact ha (Option.some.inj ha' ▸ hnull)
  | slice t =>
    cases u with
    | none => cases hu
    | some us =>
      cases r with
      | none => cases heq
      | some rs =>
        have hmap : rs.map (encode t) = us.map (encode t) := Value.arr.inj heq
        have hlength := congrArg List.isEmpty hmap
        rw [List.isEmpty_map, List.isEmpty_map] at hlength
        have hrs : rs.isEmpty = false := hlength.trans hu
        refine iff_of_false ?_ id
        exact fun hempty => Bool.false_ne_true (hrs.symm.trans hempty)
  | map t =>
    cases u with
    | none => cases hu
    | some m =>
      cases r with
      | none => cases heq
      | some m' =>
        have hentries : entries (encode t) m' = entries (encode t) m := Value.obj.inj heq
        have hkeys : m'.keys = m.keys := keys_eq_of_lookup (entries_eq_iff.mp hentries)
        have hm : (m'.keys.card == 0) = false := hkeys ▸ hu
        refine iff_of_false ?_ id
        exact fun hempty => Bool.false_ne_true (hm.symm.trans hempty)
  | struct fields => exact iff_of_false Bool.false_ne_true id

/-- What a struct writes of a field that was decoded. -/
theorem written_iff {t : GoType} {omitempty : Bool} {u e x : t.Carrier}
    (hiff : decode t (encode t u) e = some x → (encode t x = encode t u ↔ Covers t e u))
    (h : decodeField (decode t) (written omitempty (isEmpty t u) (encode t u)).toList e = some x) :
    written omitempty (isEmpty t x) (encode t x) = written omitempty (isEmpty t u) (encode t u) ↔
      if omitempty && isEmpty t u then isEmpty t e = true
      else Covers t e u ∧ (omitempty = true → ¬ Blank t u) := by
  by_cases hempty : (omitempty && isEmpty t u) = true
  · rw [written, written, if_pos hempty, if_pos hempty]
    rw [written, if_pos hempty] at h
    obtain rfl := Option.some.inj h
    rw [Bool.and_eq_true] at hempty
    rw [hempty.1, Bool.true_and]
    split
    next he => exact iff_of_true rfl he
    next he => exact iff_of_false (fun hnone => nomatch hnone) he
  · rw [written, if_neg hempty, Option.toList_some] at h
    obtain ⟨y, hy, hsome⟩ := Option.bind_eq_some_iff.mp h
    obtain rfl := Option.some.inj hsome
    rw [written, written, if_neg hempty, if_neg hempty, ← hiff hy]
    rw [Bool.and_eq_true, not_and, Bool.not_eq_true] at hempty
    constructor
    · intro heq
      split at heq
      next => cases heq
      next hx =>
        have henc := Option.some.inj heq
        refine ⟨henc, fun homit hblank => hx ?_⟩
        rw [homit, (isEmpty_iff_blank hy henc (hempty homit)).mpr hblank]
        rfl
    · rintro ⟨henc, hblank⟩
      rw [if_neg, henc]
      intro hx
      rw [Bool.and_eq_true] at hx
      exact hblank hx.1 ((isEmpty_iff_blank hy henc (hempty hx.1)).mp hx.2)

mutual

/-- A value that is written and decoded over another one is written as before exactly if it covers that one. -/
theorem encode_decode_iff : (t : GoType) → t.WellFormed → ∀ {u e r : t.Carrier},
    decode t (encode t u) e = some r → (encode t r = encode t u ↔ Covers t e u)
  | .leaf c, _, _, _, _, h => c.marshal_iff h
  | .pointer t, hwf, u, e, r, h => by
    have ih {a b x} := @encode_decode_iff t hwf a b x
    cases u with
    | none =>
      obtain rfl := Option.some.inj h
      exact iff_of_true rfl fun a ha => nomatch ha
    | some a =>
      by_cases ha : encode t a = .null
      · change decode (.pointer t) (encode t a) e = some r at h
        rw [ha] at h
        obtain rfl := Option.some.inj h
        refine iff_of_true ha.symm ?_
        intro b hb
        exact .inl (Option.some.inj hb ▸ ha)
      · obtain ⟨b, hb, rfl⟩ := Option.map_eq_some_iff.mp ((decodePointer_of_ne ha _).symm.trans h)
        refine (ih hb).trans ⟨?_, fun hcovers => (hcovers a rfl).resolve_left ha⟩
        intro hcovers a' ha'
        exact .inr (Option.some.inj ha' ▸ hcovers)
  | .slice t, hwf, u, e, r, h => by
    have ih {a b x} := @encode_decode_iff t hwf a b x
    cases u with
    | none =>
      obtain rfl := Option.some.inj h
      exact iff_of_true rfl fun a ha => nomatch ha
    | some us =>
      obtain ⟨rs, hrs, rfl⟩ := Option.map_eq_some_iff.mp h
      have hitems := decodeItems_iff (fun _ _ _ => ih) hrs
      constructor
      · intro heq us' hus
        exact Option.some.inj hus ▸ hitems.mp (Value.arr.inj heq)
      · intro hcovers
        exact congrArg Value.arr (hitems.mpr (hcovers us rfl))
  | .map t, hwf, u, e, r, h => by
    have ih {a b x} := @encode_decode_iff t hwf a b x
    cases u with
    | none =>
      obtain rfl := Option.some.inj h
      exact iff_of_true rfl fun a ha => nomatch ha
    | some m =>
      obtain ⟨m', hm', rfl⟩ := Option.map_eq_some_iff.mp h
      have hentries := decodeEntries_iff (fun _ _ => ih) hm'
      constructor
      · intro heq m₁ hm₁
        exact Option.some.inj hm₁ ▸ hentries.mp (Value.obj.inj heq)
      · intro hcovers
        exact congrArg Value.obj (hentries.mpr (hcovers m rfl))
  | .struct fields, hwf, u, e, r, h => by
    have hfields := encodeFields_decodeFields_iff fields hwf.2 hwf.1 (fun n hn => hn) []
      (fun m hm => absurd hm List.not_mem_nil) h
    rw [Covers, ← hfields]
    exact ⟨Value.obj.inj, congrArg Value.obj⟩

theorem encodeFields_decodeFields_iff : (fields : Fields) → fields.WellFormed → fields.names.Nodup →
    ∀ {names : List String}, (∀ n ∈ fields.names, n ∈ names) → ∀ before : List (Text × Value),
    (∀ m ∈ before, ∃ n ∈ names, m.1 = literal n ∧ n ∉ fields.names) → ∀ {u e r : fields.Carrier},
    decodeFields names (before ++ encodeFields fields u) fields e = some r →
      (encodeFields fields r = encodeFields fields u ↔ CoversFields fields e u)
  | .nil, _, _, _, _, _, _, _, _, _, _ => iff_of_true rfl trivial
  | .cons name omitempty t fields, hwf, hnodup, names, hsub, before, hbefore, u, e, r, h => by
    have ih {a b x} := @encode_decode_iff t hwf.1 a b x
    have hnames : name ∉ fields.names ∧ fields.names.Nodup := List.nodup_cons.mp hnodup
    have hsub' : ∀ n ∈ fields.names, n ∈ names := fun n hn => hsub n (List.mem_cons_of_mem name hn)
    have hname : name ∈ names := hsub name List.mem_cons_self
    obtain ⟨hx, hrest⟩ := decodeFields_cons h
    have hbefore_ne : ∀ m ∈ before, ∃ n ∈ names, m.1 = literal n ∧ n ≠ name := by
      intro m hm
      obtain ⟨n, hn, hkey, hnotin⟩ := hbefore m hm
      exact ⟨n, hn, hkey, fun heq => hnotin (heq ▸ List.mem_cons_self)⟩
    rw [encodeFields, values_eq hname hsub' hnames.1 u.2 hbefore_ne] at hx
    rw [encodeFields, ← List.append_assoc] at hrest
    have hbefore' : ∀ m ∈ before ++ member name (written omitempty (isEmpty t u.1) (encode t u.1)),
        ∃ n ∈ names, m.1 = literal n ∧ n ∉ fields.names := by
      intro m hm
      obtain hm | hm := List.mem_append.mp hm
      · obtain ⟨n, hn, hkey, hnotin⟩ := hbefore m hm
        exact ⟨n, hn, hkey, fun hn' => hnotin (List.mem_cons_of_mem name hn')⟩
      · exact ⟨name, hname, member_key hm, hnames.1⟩
    have hfields := encodeFields_decodeFields_iff fields hwf.2 hnames.2 hsub' _ hbefore' hrest
    exact (member_append_inj hnames.1).trans (and_congr (written_iff ih hx) hfields)

end

/-! ### Types without parts -/

/-- A struct with functions of its own that replace the whole value. A value that is read back is written as
before. -/
structure TextType where
  Carrier : Type
  zero : Carrier
  marshal : Carrier → Value
  unmarshal : Value → Option Carrier
  marshal_eq : ∀ {a b}, unmarshal (marshal a) = some b → marshal b = marshal a

def TextType.type (c : TextType) : GoType := .leaf
  { Carrier := c.Carrier
    zero := c.zero
    isEmpty := fun _ => false
    marshal := c.marshal
    unmarshal := fun j _ => c.unmarshal j
    Covers := fun _ _ => True
    marshal_iff := fun h => iff_of_true (c.marshal_eq h) trivial
    isEmpty_congr := fun _ => rfl }

def decodeString : Value → String → Option String
  | .null, s => some s
  | .str t, _ => some (readString t)
  | _, _ => none

theorem decodeString_ofString {u e r : String} (h : decodeString (ofString u) e = some r) : r = u := by
  rw [← Option.some.inj h, readString_literal]

def string : GoType := .leaf
  { Carrier := String
    zero := ""
    isEmpty := fun s => s == ""
    marshal := ofString
    unmarshal := decodeString
    Covers := fun _ _ => True
    marshal_iff := fun h => iff_of_true (congrArg ofString (decodeString_ofString h)) trivial
    isEmpty_congr := fun h => congrArg (· == "") (ofString_injective h) }

def intText : ℤ → Text
  | .ofNat n => (Nat.toDigits 10 n).map Char.toNat
  | .negSucc n => 45 :: (Nat.toDigits 10 (n + 1)).map Char.toNat

/-- The numeral of a negative number. -/
theorem isNumeral_minus (n : ℕ) : isNumeral (45 :: (Nat.toDigits 10 (n + 1)).map Char.toNat) = true := by
  obtain ⟨c, cs, hcs, hc⟩ := head_toDigits (Nat.succ_pos n)
  have hdigits : ∀ d ∈ c :: cs, Json.isDigit d = true := by
    intro d hd
    rw [← hcs] at hd
    exact isDigit_of_mem_digits hd
  have hunits : (45 :: c :: cs).all isNumeralUnit = true := by
    rw [List.all_cons, Bool.and_eq_true, List.all_eq_true]
    exact ⟨rfl, fun d hd => isNumeralUnit_of_isDigit (hdigits d hd)⟩
  have hrest : cs.dropWhile Json.isDigit = [] := by
    rw [← List.append_nil cs,
      List.dropWhile_append_of_pos fun d hd => hdigits d (List.mem_cons_of_mem c hd), List.dropWhile_nil]
  have hinteger : afterInteger (45 :: c :: cs) = some [] := by
    unfold afterInteger
    split
    next heq => exact absurd (List.cons.inj (List.cons.inj heq).2).1 hc
    next heq =>
      rw [← (List.cons.inj heq).2, afterDigits, if_pos (hdigits c List.mem_cons_self), hrest]
    next heq => exact absurd (List.cons.inj heq).1 (by decide)
    next hminus _ => exact absurd rfl (hminus _)
  rw [hcs, isNumeral, hunits, hinteger]
  rfl

theorem isNumeral_intText : ∀ i : ℤ, isNumeral (intText i) = true
  | .ofNat n => isNumeral_digits n
  | .negSucc n => isNumeral_minus n

def ofInt (i : ℤ) : Value := .num ⟨intText i, isNumeral_intText i⟩

def readInt (t : Text) : ℤ := if t.head? == some 45 then -(natural t.tail : ℤ) else natural t

theorem readInt_intText (i : ℤ) : readInt (intText i) = i := by
  cases i with
  | ofNat n =>
    have hhead : ((intText (.ofNat n)).head? == some 45) = false := by
      rw [beq_eq_false_iff_ne]
      intro hminus
      exact absurd (isDigit_of_mem_digits (List.mem_of_mem_head? hminus)) (by decide)
    rw [readInt, hhead, if_neg Bool.false_ne_true, intText, natural_digits]
    rfl
  | negSucc n =>
    have hhead : ((intText (.negSucc n)).head? == some 45) = true := rfl
    rw [readInt, if_pos hhead, intText, List.tail_cons, natural_digits]
    rfl

/-- An integer of 64 bits. -/
def decodeInt : Value → ℤ → Option ℤ
  | .null, i => some i
  | .num n, _ => if fitsInt (.num n) then some (readInt n.1) else none
  | _, _ => none

theorem decodeInt_ofInt {u e r : ℤ} (h : decodeInt (ofInt u) e = some r) : r = u := by
  rw [ofInt, decodeInt] at h
  split at h
  next => rw [← Option.some.inj h, readInt_intText]
  next => cases h

theorem ofInt_injective {i j : ℤ} (h : ofInt i = ofInt j) : i = j := by
  have htext : intText i = intText j := congrArg Subtype.val (Value.num.inj h)
  rw [← readInt_intText i, htext, readInt_intText]

def int : GoType := .leaf
  { Carrier := ℤ
    zero := 0
    isEmpty := fun i => i == 0
    marshal := ofInt
    unmarshal := decodeInt
    Covers := fun _ _ => True
    marshal_iff := fun h => iff_of_true (congrArg ofInt (decodeInt_ofInt h)) trivial
    isEmpty_congr := fun h => congrArg (· == 0) (ofInt_injective h) }

/-! ### Struct tags -/

def field (name : String) (t : GoType) : String × Bool × GoType := (name, false, t)

def omitempty (name : String) (t : GoType) : String × Bool × GoType := (name, true, t)

def structOf (fields : List (String × Bool × GoType)) : GoType :=
  .struct (fields.foldr (fun f => .cons f.1 f.2.1 f.2.2) .nil)

end GoMerge
