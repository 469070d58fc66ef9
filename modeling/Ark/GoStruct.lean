import Ark.GoJson

/-!
# Decoding into structs

`json.Unmarshal` into a struct takes the fields whose names the keys of an object match, without regard
to case, and fails if a value does not fit the type of its field. A check tells whether a value fits; a
null fits everywhere. Integers are written as their digits.
-/

namespace GoJson

open Json

/-! ### Fields -/

/-- `foldRune`, as far as names of ASCII letters can tell. -/
def foldRune (c : ℕ) : ℕ :=
  if 97 ≤ c ∧ c ≤ 122 then c - 32
  else if c = 383 then 83
  else if c = 8490 then 75
  else c

def isField (name : String) (key : Text) : Bool :=
  (runes key).map foldRune == (literal name).map foldRune

def fitsString : Value → Bool
  | .null | .str _ => true
  | _ => false

/-- An integer of 64 bits, without fraction and exponent. -/
def fitsInt : Value → Bool
  | .null => true
  | .num n =>
    let digits := n.1.dropWhile (· == 45)
    digits.all isDigit &&
      (natural digits ≤ 9223372036854775807 ||
        (n.1.head? == some 45 && natural digits == 9223372036854775808))
  | _ => false

def fitsSlice (item : Value → Bool) : Value → Bool
  | .null => true
  | .arr items => items.all item
  | _ => false

def fitsStruct (fields : List (String × (Value → Bool))) : Value → Bool
  | .null => true
  | .obj members => members.all fun m =>
    match fields.find? fun f => isField f.1 m.1 with
    | some f => f.2 m.2
    | none => true
  | _ => false

/-- A field of type string: the last member that sets it. -/
def stringField (name : String) (members : List (Text × Value)) : String :=
  members.foldl (fun s m =>
    match isField name m.1, m.2 with
    | true, .str t => readString t
    | _, _ => s) ""

/-- The members of a field whose type is a struct. -/
def structField (name : String) (members : List (Text × Value)) : List (Text × Value) :=
  members.flatMap fun m =>
    match isField name m.1, m.2 with
    | true, .obj members => members
    | _, _ => []

def membersOf : Value → List (Text × Value)
  | .obj members => members
  | _ => []

def itemsOf : Value → List Value
  | .arr items => items
  | _ => []

/-! ### Writing -/

def ofString (s : String) : Value := .str (literal s)

theorem isNumeralUnit_of_isDigit {c : ℕ} (h : isDigit c = true) : isNumeralUnit c = true := by
  rw [isNumeralUnit, h, Bool.true_or]

theorem isDigit_toNat {c : Char} (h : c.isDigit = true) : Json.isDigit c.toNat = true := by
  rw [Char.isDigit_iff_toNat] at h
  simp only [Json.isDigit, Bool.and_eq_true, decide_eq_true_eq]
  exact h

theorem isDigit_of_mem_digits {n c : ℕ} (h : c ∈ (Nat.toDigits 10 n).map Char.toNat) :
    Json.isDigit c = true := by
  obtain ⟨d, hd, rfl⟩ := List.mem_map.mp h
  exact isDigit_toNat (Nat.isDigit_of_mem_toDigits (by omega) (by omega) hd)

/-- Digits of a positive number begin with another digit than zero. -/
theorem head_toDigits {n : ℕ} (hn : 0 < n) :
    ∃ c cs, (Nat.toDigits 10 n).map Char.toNat = c :: cs ∧ c ≠ 48 := by
  induction n using Nat.strongRecOn with
  | ind n ih =>
    rw [Nat.toDigits_eq_if (by omega)]
    split
    next hlt =>
      refine ⟨_, [], rfl, fun hzero => ?_⟩
      have hchar : n.digitChar = '0' := Char.toNat_inj.mp hzero
      rw [Nat.digitChar_eq_zero] at hchar
      omega
    next hge =>
      obtain ⟨c, cs, hcs, hc⟩ := ih (n / 10) (by omega) (by omega)
      exact ⟨c, cs ++ [(n % 10).digitChar.toNat], by rw [List.map_append, hcs]; rfl, hc⟩

theorem isNumeral_digits (n : ℕ) : isNumeral ((Nat.toDigits 10 n).map Char.toNat) = true := by
  have hunits : ((Nat.toDigits 10 n).map Char.toNat).all isNumeralUnit = true := by
    rw [List.all_eq_true]
    exact fun c hc => isNumeralUnit_of_isDigit (isDigit_of_mem_digits hc)
  obtain rfl | hn := Nat.eq_zero_or_pos n
  · rfl
  obtain ⟨c, cs, hcs, hc⟩ := head_toDigits hn
  have hdigits : ∀ d ∈ c :: cs, Json.isDigit d = true := by
    intro d hd
    rw [← hcs] at hd
    exact isDigit_of_mem_digits hd
  have hminus : c ≠ 45 := by
    rintro rfl
    exact absurd (hdigits 45 List.mem_cons_self) (by decide)
  have hrest : cs.dropWhile Json.isDigit = [] := by
    rw [← List.append_nil cs,
      List.dropWhile_append_of_pos fun d hd => hdigits d (List.mem_cons_of_mem c hd),
      List.dropWhile_nil]
  have hinteger : afterInteger (c :: cs) = some [] := by
    unfold afterInteger
    split
    next heq => exact absurd (List.cons.inj heq).1 hminus
    next heq => exact absurd (List.cons.inj heq).1 hminus
    next heq => exact absurd (List.cons.inj heq).1 hc
    next => rw [afterDigits, if_pos (hdigits c List.mem_cons_self), hrest]
  rw [hcs] at hunits ⊢
  rw [isNumeral, hunits, hinteger]
  rfl

def ofNat (n : ℕ) : Value := .num ⟨_, isNumeral_digits n⟩

theorem natural_digits (n : ℕ) : natural ((Nat.toDigits 10 n).map Char.toNat) = n := by
  rw [natural, List.foldl_map]
  exact Nat.ofDigitChars_eq_foldl.symm.trans (Nat.ofDigitChars_toDigits (by omega) (by omega))

theorem fitsInt_ofNat {n : ℕ} (h : n ≤ 9223372036854775807) : fitsInt (ofNat n) = true := by
  have hdigits : ((Nat.toDigits 10 n).map Char.toNat).dropWhile (· == 45) =
      (Nat.toDigits 10 n).map Char.toNat := by
    cases hcs : (Nat.toDigits 10 n).map Char.toNat with
    | nil => rfl
    | cons c cs =>
      have hc : isDigit c = true := isDigit_of_mem_digits (hcs ▸ List.mem_cons_self)
      have hminus : (c == 45) = false := by
        rw [beq_eq_false_iff_ne]
        rintro rfl
        cases hc
      rw [List.dropWhile_cons, hminus, if_neg Bool.false_ne_true]
  have hall : ((Nat.toDigits 10 n).map Char.toNat).all isDigit = true := by
    rw [List.all_eq_true]
    exact fun c hc => isDigit_of_mem_digits hc
  rw [ofNat, fitsInt]
  dsimp only
  rw [hdigits, hall, natural_digits, decide_eq_true h]
  rfl

/-! ### Members -/

/-- A written field; `none` is a value that `omitempty` leaves out. -/
def member (name : String) (v : Option Value) : List (Text × Value) :=
  v.elim [] fun v => [(literal name, v)]

def ofNonempty (s : String) : Option Value := if s = "" then none else some (ofString s)

theorem ofString_injective {s t : String} (h : ofString s = ofString t) : s = t :=
  literal_injective (Value.str.inj h)

theorem ofNonempty_injective {s t : String} (h : ofNonempty s = ofNonempty t) : s = t := by
  unfold ofNonempty at h
  split at h
  next hs =>
    split at h
    next ht => rw [hs, ht]
    next => cases h
  next =>
    split at h
    next => cases h
    next => exact ofString_injective (Option.some.inj h)

theorem lookup_append (k : Text) (fields fields' : List (Text × Value)) :
    lookup k (fields ++ fields') = (lookup k fields).or (lookup k fields') := by
  induction fields with
  | nil => rfl
  | cons f fields ih =>
    rw [List.cons_append, lookup, lookup, ih]
    split
    next => rfl
    next => rfl

theorem lookup_member (name name' : String) (v : Option Value) :
    lookup (literal name') (member name v) = if name = name' then v else none := by
  cases v with
  | none => simp [member, lookup]
  | some v =>
    change (if literal name = literal name' then some v else none) = _
    simp only [show literal name = literal name' ↔ name = name' from
      ⟨literal_injective, congrArg literal⟩]

theorem stringsOfFields_append (fields fields' : List (Text × Value)) :
    stringsOfFields (fields ++ fields') = stringsOfFields fields ++ stringsOfFields fields' := by
  induction fields with
  | nil => rfl
  | cons f fields ih => rw [List.cons_append, stringsOfFields, ih, stringsOfFields, List.append_assoc]

theorem valid_ofString (s : String) : Valid (strings (ofString s)) := by
  intro t ht
  obtain rfl := List.mem_singleton.mp ht
  exact valid_literal s

theorem valid_append {fields fields' : List (Text × Value)} (h : Valid (stringsOfFields fields))
    (h' : Valid (stringsOfFields fields')) : Valid (stringsOfFields (fields ++ fields')) := by
  rw [stringsOfFields_append]
  intro s hs
  cases List.mem_append.mp hs with
  | inl hs => exact h s hs
  | inr hs => exact h' s hs

theorem valid_member (name : String) {v : Value} (h : Valid (strings v)) :
    Valid (stringsOfFields (member name (some v))) := by
  intro s hs
  change s ∈ literal name :: strings v ++ [] at hs
  rw [List.append_nil] at hs
  cases List.mem_cons.mp hs with
  | inl hs => exact hs ▸ valid_literal name
  | inr hs => exact h s hs

theorem valid_member_map {α : Type} (name : String) {f : α → Value}
    (h : ∀ a, Valid (strings (f a))) (o : Option α) :
    Valid (stringsOfFields (member name (o.map f))) := by
  cases o with
  | none => nofun
  | some a => exact valid_member name (h a)

theorem valid_member_ofNonempty (name s : String) :
    Valid (stringsOfFields (member name (ofNonempty s))) := by
  unfold ofNonempty
  split
  next => nofun
  next => exact valid_member name (valid_ofString s)

theorem marshal_injective {v w : Value} (hv : Valid (strings v)) (hw : Valid (strings w))
    (h : marshal v = marshal w) : v = w := by
  have hread := unmarshal_marshal hv
  rw [h, unmarshal_marshal hw] at hread
  exact (Option.some.inj hread).symm

end GoJson
