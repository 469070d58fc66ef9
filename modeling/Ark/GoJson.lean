import Ark.Json
import Mathlib.Tactic.Tauto

/-!
# `encoding/json`

How `json.Marshal` escapes a string, and how `json.Unmarshal` makes a string of what it read. A string
is taken as its code points, an escaped surrogate pair is one of them.
-/

namespace GoJson

open Json

def escapeUnit (c : ℕ) : Text :=
  if c = 34 then [92, 34]
  else if c = 92 then [92, 92]
  else if c = 8 then [92, 98]
  else if c = 12 then [92, 102]
  else if c = 10 then [92, 110]
  else if c = 13 then [92, 114]
  else if c = 9 then [92, 116]
  else if c < 32 ∨ c = 60 ∨ c = 62 ∨ c = 38 ∨ c = 8232 ∨ c = 8233 then escape4 c
  else [c]

def escape (s : Text) : Text := s.flatMap escapeUnit

theorem quotes_escape (s : Text) : Quotes s (escape s) := by
  induction s with
  | nil => exact .nil
  | cons c s ih =>
    rw [escape, List.flatMap_cons]
    change Quotes (c :: s) (escapeUnit c ++ escape s)
    unfold escapeUnit
    split_ifs with h1 h2 h3 h4 h5 h6 h7 h8
    · exact .letter (by rw [h1]; rfl) ih
    · exact .letter (by rw [h2]; rfl) ih
    · exact .letter (by rw [h3]; rfl) ih
    · exact .letter (by rw [h4]; rfl) ih
    · exact .letter (by rw [h5]; rfl) ih
    · exact .letter (by rw [h6]; rfl) ih
    · exact .letter (by rw [h7]; rfl) ih
    · exact .hex (by omega) ih
    · exact .plain (by omega) ih

/-- The code points of a string that was read. A surrogate without its partner is replaced. -/
def runes : Text → Text
  | [] => []
  | [c] => [if c.isValidChar then c else 65533]
  | c :: d :: t =>
    if 55296 ≤ c ∧ c < 56320 ∧ 56320 ≤ d ∧ d < 57344 then
      (65536 + (c - 55296) * 1024 + (d - 56320)) :: runes t
    else (if c.isValidChar then c else 65533) :: runes (d :: t)

def ofText (t : Text) : String := String.ofList (t.map Char.ofNat)

theorem runes_of_valid {t : Text} (h : ∀ c ∈ t, c.isValidChar) : runes t = t := by
  fun_induction runes t with
  | case1 => rfl
  | case2 c => rw [if_pos (h c List.mem_cons_self)]
  | case3 c d t hpair _ =>
    have hc := h c List.mem_cons_self
    rw [Nat.isValidChar] at hc
    omega
  | case4 c d t _ ih =>
    rw [if_pos (h c List.mem_cons_self), ih fun x hx => h x (List.mem_cons_of_mem c hx)]

theorem toNat_ofNat {c : ℕ} (h : c.isValidChar) : (Char.ofNat c).toNat = c := by
  rw [Char.ofNat, dif_pos h]
  rfl

theorem literal_ofText {t : Text} (h : ∀ c ∈ t, c.isValidChar) : literal (ofText t) = t := by
  rw [literal, ofText, String.toList_ofList, List.map_map]
  conv_rhs => rw [← List.map_id t]
  exact List.map_congr_left fun c hc => toNat_ofNat (h c hc)

@[simp] theorem ofText_literal (s : String) : ofText (literal s) = s := by
  rw [ofText, literal, List.map_map]
  have hid : Char.ofNat ∘ Char.toNat = id := funext Char.ofNat_toNat
  rw [hid, List.map_id, String.ofList_toList]

theorem literal_injective {s t : String} (h : literal s = literal t) : s = t := by
  rw [← ofText_literal s, h, ofText_literal]

theorem valid_literal (s : String) : ∀ c ∈ literal s, c.isValidChar := by
  intro c hc
  obtain ⟨d, -, rfl⟩ := List.mem_map.mp hc
  exact d.valid

/-- The string that was read. -/
def readString (t : Text) : String := ofText (runes t)

@[simp] theorem readString_literal (s : String) : readString (literal s) = s := by
  rw [readString, runes_of_valid (valid_literal s), ofText_literal]

def marshal (v : Value) : String := ofText (render escape v)

def unmarshal (s : String) : Option Value := parse (literal s)

theorem valid_escapeUnit {c : ℕ} (h : c.isValidChar) : ∀ d ∈ escapeUnit c, d.isValidChar := by
  have hsmall : ∀ d : ℕ, d < 128 → d.isValidChar := fun d hd => .inl (by omega)
  have hhex : ∀ n : ℕ, n < 16 → hexDigit n < 128 := by
    intro n hn
    unfold hexDigit
    split <;> omega
  intro d hd
  unfold escapeUnit at hd
  split_ifs at hd
  iterate 7
    simp only [List.mem_cons, List.not_mem_nil, or_false] at hd
    exact hsmall d (by omega)
  · rename_i hc
    simp only [escape4, List.mem_cons, List.not_mem_nil, or_false] at hd
    obtain rfl | rfl | rfl | rfl | rfl | rfl := hd
    · exact hsmall 92 (by omega)
    · exact hsmall 117 (by omega)
    all_goals exact hsmall _ (hhex _ (by omega))
  · obtain rfl := List.mem_singleton.mp hd
    exact h

/-- A value whose strings are strings of the language is read back. -/
theorem unmarshal_marshal {v : Value} (h : ∀ s ∈ strings v, ∀ c ∈ s, c.isValidChar) :
    unmarshal (marshal v) = some v := by
  have hwithin : Within escape (fun c => c.isValidChar) (strings v) := by
    refine ⟨fun c _ hc => .inl (by omega), fun s hs c hc => ?_⟩
    obtain ⟨d, hd, hcd⟩ := List.mem_flatMap.mp hc
    exact valid_escapeUnit (h s hs d hd) c hcd
  rw [unmarshal, marshal, literal_ofText hwithin.render, parse_render quotes_escape]

/-- A decoded object: the entries of a `map[string]interface{}` in the order in which they are
written. -/
structure Object where
  fields : List (Text × Value)
  sorted : (fields.map Prod.fst).Pairwise (· < ·)
  valid : ∀ s ∈ stringsOfFields fields, ∀ c ∈ s, c.isValidChar

def Object.value (o : Object) : Value := .obj o.fields

@[simp] theorem unmarshal_marshal_object (o : Object) :
    unmarshal (marshal o.value) = some o.value := by
  apply unmarshal_marshal
  rw [Object.value, strings]
  exact o.valid

/-! ### Maps -/

/-- The order in which the keys of a map are written. -/
def before : Text → Text → Bool
  | _, [] => false
  | [], _ :: _ => true
  | a :: s, b :: t => Nat.blt a b || (a == b && before s t)

def lookup (k : Text) : List (Text × Value) → Option Value
  | [] => none
  | f :: fields => if f.1 = k then some f.2 else lookup k fields

/-- An assignment to a key of a map, whose entries are kept in the order in which they are written. -/
def assign (k : Text) (v : Value) : List (Text × Value) → List (Text × Value)
  | [] => [(k, v)]
  | f :: fields =>
    if f.1 = k then (k, v) :: fields
    else if before k f.1 then (k, v) :: f :: fields
    else f :: assign k v fields

@[simp] theorem lookup_assign (k k' : Text) (v : Value) (fields : List (Text × Value)) :
    lookup k' (assign k v fields) = if k' = k then some v else lookup k' fields := by
  induction fields with
  | nil => simp [assign, lookup, eq_comm]
  | cons f fields ih =>
    rw [assign]
    split
    next hf =>
      by_cases hk : k' = k
      · simp [lookup, hk]
      · have hkf : ¬ f.1 = k' := fun h => hk (h.symm.trans hf)
        have hkk : ¬ k = k' := Ne.symm hk
        simp [lookup, hk, hkf, hkk]
    next hf =>
      split
      next =>
        by_cases hk : k' = k
        · simp [lookup, hk]
        · have hkk : ¬ k = k' := Ne.symm hk
          simp [lookup, hk, hkk]
      next =>
        rw [lookup, ih, lookup]
        by_cases hf' : f.1 = k'
        · have hk : ¬ k' = k := fun h => hf (hf'.trans h)
          simp [hf', hk]
        · simp [hf']

theorem mem_strings_assign {k : Text} {v : Value} {fields : List (Text × Value)} {s : Text}
    (h : s ∈ stringsOfFields (assign k v fields)) :
    s = k ∨ s ∈ strings v ∨ s ∈ stringsOfFields fields := by
  induction fields with
  | nil => simpa [assign, stringsOfFields, stringsOfField] using h
  | cons f fields ih =>
    rw [assign] at h
    split at h
    next =>
      simp only [stringsOfFields, stringsOfField, List.mem_append, List.mem_cons] at h ⊢
      tauto
    next =>
      split at h
      next =>
        simp only [stringsOfFields, stringsOfField, List.mem_append, List.mem_cons] at h ⊢
        tauto
      next =>
        rw [stringsOfFields, List.mem_append] at h ⊢
        obtain h | h := h
        · exact .inr (.inr (.inl h))
        · obtain h | h | h := ih h
          · exact .inl h
          · exact .inr (.inl h)
          · exact .inr (.inr (.inr h))

/-! ### Decoding into an `interface{}` -/

mutual

/-- What `json.Unmarshal` makes of a value. `float64` is what a numeral is written as once it was read
as a `float64`. -/
def decode (float64 : Numeral → Numeral) : Value → Value
  | .null => .null
  | .bool b => .bool b
  | .num n => .num (float64 n)
  | .str s => .str (runes s)
  | .arr items => .arr (decodeItems float64 items)
  | .obj fields => .obj (decodeFields float64 fields [])

def decodeItems (float64 : Numeral → Numeral) : List Value → List Value
  | [] => []
  | v :: items => decode float64 v :: decodeItems float64 items

def decodeField (float64 : Numeral → Numeral) : Text × Value → Text × Value
  | (k, v) => (runes k, decode float64 v)

/-- The fields assigned to a map one after the other. -/
def decodeFields (float64 : Numeral → Numeral) :
    List (Text × Value) → List (Text × Value) → List (Text × Value)
  | [], m => m
  | f :: fields, m =>
    decodeFields float64 fields
      (assign (decodeField float64 f).1 (decodeField float64 f).2 m)

end

theorem isValidChar_replacement : Nat.isValidChar 65533 := by
  unfold Nat.isValidChar
  omega

theorem isValidChar_replaced (c : ℕ) : Nat.isValidChar (if c.isValidChar then c else 65533) := by
  by_cases h : c.isValidChar
  · rwa [if_pos h]
  · rw [if_neg h]
    exact isValidChar_replacement

theorem isValidChar_runes (t : Text) : ∀ c ∈ runes t, c.isValidChar := by
  fun_induction runes t with
  | case1 => simp
  | case2 c =>
    intro d hd
    obtain rfl := List.mem_singleton.mp hd
    exact isValidChar_replaced c
  | case3 c d t hpair ih =>
    intro x hx
    rw [List.mem_cons] at hx
    obtain hx | hx := hx
    · rw [hx, Nat.isValidChar]
      omega
    · exact ih x hx
  | case4 c d t _ ih =>
    intro x hx
    obtain rfl | hx := List.mem_cons.mp hx
    · exact isValidChar_replaced c
    · exact ih x hx

/-- The strings of a decoded value are strings of the language. -/
def Valid (texts : List Text) : Prop := ∀ s ∈ texts, ∀ c ∈ s, c.isValidChar

theorem Valid.mono {texts texts' : List Text} (h : Valid texts) (hsub : texts' ⊆ texts) :
    Valid texts' := fun s hs => h s (hsub hs)

theorem valid_assign {k : Text} {v : Value} {fields : List (Text × Value)} (hk : Valid [k])
    (hv : Valid (strings v)) (h : Valid (stringsOfFields fields)) :
    Valid (stringsOfFields (assign k v fields)) := by
  intro s hs
  obtain rfl | hs | hs := mem_strings_assign hs
  · exact hk s (List.mem_singleton_self s)
  · exact hv s hs
  · exact h s hs

theorem valid_decodeFields {float64 : Numeral → Numeral} {fields m : List (Text × Value)}
    (ih : ∀ f ∈ fields, Valid (strings (decode float64 f.2))) (hm : Valid (stringsOfFields m)) :
    Valid (stringsOfFields (decodeFields float64 fields m)) := by
  induction fields generalizing m with
  | nil => rwa [decodeFields]
  | cons f fields ih' =>
    rw [decodeFields]
    apply ih' fun g hg => ih g (List.mem_cons_of_mem f hg)
    obtain ⟨k, v⟩ := f
    rw [decodeField]
    refine valid_assign ?_ (ih (k, v) List.mem_cons_self) hm
    intro s hs
    obtain rfl := List.mem_singleton.mp hs
    exact isValidChar_runes k

theorem valid_decode (float64 : Numeral → Numeral) (v : Value) :
    Valid (strings (decode float64 v)) := by
  induction v using Value.induction with
  | null => simp [decode, strings, Valid]
  | bool b => simp [decode, strings, Valid]
  | num n => simp [decode, strings, Valid]
  | str s =>
    intro t ht
    rw [decode, strings, List.mem_singleton] at ht
    rw [ht]
    exact isValidChar_runes s
  | arr items ih =>
    rw [decode, strings]
    induction items with
    | nil => simp [decodeItems, stringsOfItems, Valid]
    | cons v items ih' =>
      intro s hs
      rw [decodeItems, stringsOfItems, List.mem_append] at hs
      obtain hs | hs := hs
      · exact ih v List.mem_cons_self s hs
      · exact ih' (fun w hw => ih w (List.mem_cons_of_mem v hw)) s hs
  | obj fields ih =>
    rw [decode, strings]
    exact valid_decodeFields ih (by simp [stringsOfFields, Valid])

/-! ### The numbers of a value -/

mutual

def numerals : Value → List Numeral
  | .num n => [n]
  | .arr items => numeralsOfItems items
  | .obj fields => numeralsOfFields fields
  | _ => []

def numeralsOfItems : List Value → List Numeral
  | [] => []
  | v :: items => numerals v ++ numeralsOfItems items

def numeralsOfField : Text × Value → List Numeral
  | (_, v) => numerals v

def numeralsOfFields : List (Text × Value) → List Numeral
  | [] => []
  | f :: fields => numeralsOfField f ++ numeralsOfFields fields

end

mutual

def mapNum (g : Numeral → Numeral) : Value → Value
  | .null => .null
  | .bool b => .bool b
  | .num n => .num (g n)
  | .str s => .str s
  | .arr items => .arr (mapNumItems g items)
  | .obj fields => .obj (mapNumFields g fields)

def mapNumItems (g : Numeral → Numeral) : List Value → List Value
  | [] => []
  | v :: items => mapNum g v :: mapNumItems g items

def mapNumField (g : Numeral → Numeral) : Text × Value → Text × Value
  | (k, v) => (k, mapNum g v)

def mapNumFields (g : Numeral → Numeral) : List (Text × Value) → List (Text × Value)
  | [] => []
  | f :: fields => mapNumField g f :: mapNumFields g fields

end

/-- The values differ at most in how their numbers are written. -/
def Same (v w : Value) : Prop :=
  mapNum (fun _ => ⟨[48], rfl⟩) v = mapNum (fun _ => ⟨[48], rfl⟩) w ∧
    (numerals v).map (number ·.1) = (numerals w).map (number ·.1)

theorem mapNumItems_eq (g : Numeral → Numeral) (items : List Value) :
    mapNumItems g items = items.map (mapNum g) := by
  induction items with
  | nil => rfl
  | cons v items ih => rw [mapNumItems, ih, List.map_cons]

theorem mapNumFields_eq (g : Numeral → Numeral) (fields : List (Text × Value)) :
    mapNumFields g fields = fields.map (mapNumField g) := by
  induction fields with
  | nil => rfl
  | cons f fields ih => rw [mapNumFields, ih, List.map_cons]

theorem mapNum_mapNum (g g' : Numeral → Numeral) (v : Value) :
    mapNum g (mapNum g' v) = mapNum (fun n => g (g' n)) v := by
  induction v using Value.induction with
  | null => rfl
  | bool b => rfl
  | num n => rfl
  | str s => rfl
  | arr items ih =>
    simp only [mapNum, mapNumItems_eq, List.map_map, Value.arr.injEq]
    exact List.map_congr_left ih
  | obj fields ih =>
    simp only [mapNum, mapNumFields_eq, List.map_map, Value.obj.injEq]
    apply List.map_congr_left
    rintro ⟨k, v⟩ hf
    exact Prod.ext rfl (ih _ hf)

theorem numerals_mapNum (g : Numeral → Numeral) (v : Value) :
    numerals (mapNum g v) = (numerals v).map g := by
  induction v using Value.induction with
  | null => rfl
  | bool b => rfl
  | num n => rfl
  | str s => rfl
  | arr items ih =>
    rw [mapNum, numerals, numerals]
    induction items with
    | nil => rfl
    | cons v items ih' =>
      rw [mapNumItems, numeralsOfItems, numeralsOfItems, ih v List.mem_cons_self,
        ih' fun w hw => ih w (List.mem_cons_of_mem v hw), List.map_append]
  | obj fields ih =>
    rw [mapNum, numerals, numerals]
    induction fields with
    | nil => rfl
    | cons f fields ih' =>
      obtain ⟨k, v⟩ := f
      rw [mapNumFields, mapNumField, numeralsOfFields, numeralsOfFields, numeralsOfField,
        numeralsOfField, ih (k, v) List.mem_cons_self,
        ih' fun w hw => ih w (List.mem_cons_of_mem _ hw), List.map_append]

/-- Numbers are kept if and only if each numeral is written as another of the same number. -/
theorem same_mapNum_iff {g : Numeral → Numeral} {v : Value} :
    Same (mapNum g v) v ↔ ∀ n ∈ numerals v, number (g n).1 = number n.1 := by
  rw [Same, mapNum_mapNum, numerals_mapNum, List.map_map, List.map_inj_left]
  exact and_iff_right rfl

theorem assign_mapNum (g : Numeral → Numeral) (k : Text) (v : Value)
    (fields : List (Text × Value)) :
    assign k (mapNum g v) (mapNumFields g fields) = mapNumFields g (assign k v fields) := by
  induction fields with
  | nil => rfl
  | cons f fields ih =>
    obtain ⟨k', v'⟩ := f
    rw [mapNumFields, mapNumField, assign, assign]
    split
    next => rfl
    next =>
      split
      next => rfl
      next => rw [ih, mapNumFields, mapNumField]

theorem lookup_mapNum (g : Numeral → Numeral) (k : Text) (fields : List (Text × Value)) :
    lookup k (mapNumFields g fields) = (lookup k fields).map (mapNum g) := by
  induction fields with
  | nil => rfl
  | cons f fields ih =>
    obtain ⟨k', v⟩ := f
    rw [mapNumFields, mapNumField, lookup, lookup, ih]
    split <;> rfl

theorem decodeFields_mapNum {g : Numeral → Numeral} {fields m : List (Text × Value)}
    (ih : ∀ f ∈ fields, decode g f.2 = mapNum g (decode (fun n => n) f.2)) :
    decodeFields g fields (mapNumFields g m) =
      mapNumFields g (decodeFields (fun n => n) fields m) := by
  induction fields generalizing m with
  | nil => rfl
  | cons f fields ih' =>
    obtain ⟨k, v⟩ := f
    rw [decodeFields, decodeFields, decodeField, decodeField, ih (k, v) List.mem_cons_self,
      assign_mapNum, ih' fun f hf => ih f (List.mem_cons_of_mem _ hf)]

/-- Reading the numbers changes nothing else. -/
theorem decode_eq_mapNum (g : Numeral → Numeral) (v : Value) :
    decode g v = mapNum g (decode (fun n => n) v) := by
  induction v using Value.induction with
  | null => rfl
  | bool b => rfl
  | num n => rfl
  | str s => rfl
  | arr items ih =>
    rw [decode, decode, mapNum, Value.arr.injEq]
    induction items with
    | nil => rfl
    | cons v items ih' =>
      rw [decodeItems, decodeItems, mapNumItems, ih v List.mem_cons_self,
        ih' fun w hw => ih w (List.mem_cons_of_mem v hw)]
  | obj fields ih =>
    rw [decode, decode, mapNum, Value.obj.injEq]
    exact decodeFields_mapNum (m := []) ih

theorem lookup_decodeFields (g : Numeral → Numeral) (k : Text) (fields : List (Text × Value)) :
    lookup k (decodeFields g fields []) =
      (lookup k (decodeFields (fun n => n) fields [])).map (mapNum g) := by
  have h := decode_eq_mapNum g (.obj fields)
  rw [decode, decode, mapNum, Value.obj.injEq] at h
  rw [h, lookup_mapNum]

end GoJson
