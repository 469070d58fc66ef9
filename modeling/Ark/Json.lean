import Mathlib.Data.List.Basic
import Mathlib.Data.Int.Notation
import Mathlib.Data.Nat.Notation

/-!
# JSON texts

A text and a string are lists of code units. How a writer escapes the strings is a parameter: a
function `q` whose results are read back by `unquote`. A value that is written compactly with such a
function is read back by `parse`.
-/

namespace Json

abbrev Text := List ℕ

/-! ### Numerals -/

def isDigit (c : ℕ) : Bool := 48 ≤ c && c ≤ 57

/-- A digit or one of `+`, `-`, `.`, `E` and `e`. -/
def isNumeralUnit (c : ℕ) : Bool := isDigit c || [43, 45, 46, 69, 101].contains c

def afterDigits : Text → Option Text
  | [] => none
  | c :: t => if isDigit c then some (t.dropWhile isDigit) else none

def afterInteger : Text → Option Text
  | 45 :: 48 :: t => some t
  | 45 :: t => afterDigits t
  | 48 :: t => some t
  | t => afterDigits t

def afterFraction : Text → Option Text
  | 46 :: t => afterDigits t
  | t => some t

def afterSign : Text → Text
  | 43 :: t => t
  | 45 :: t => t
  | t => t

def afterExponent : Text → Option Text
  | 69 :: t => afterDigits (afterSign t)
  | 101 :: t => afterDigits (afterSign t)
  | t => some t

def isNumeral (t : Text) : Bool :=
  t.all isNumeralUnit && ((afterInteger t).bind afterFraction).bind afterExponent == some []

abbrev Numeral := {t : Text // isNumeral t = true}

def natural (t : Text) : ℕ := t.foldl (fun n c => 10 * n + (c - 48)) 0

/-- The exponent after an `e` or `E`. -/
def exponent : Text → ℤ
  | _ :: 45 :: t => -(natural t)
  | _ :: 43 :: t => natural t
  | _ :: t => natural t
  | [] => 0

/-- The number that a numeral stands for. -/
def number (t : Text) : Rat :=
  let digits := t.dropWhile (· == 45)
  let fraction := match digits.dropWhile isDigit with
    | 46 :: t => t.takeWhile isDigit
    | _ => []
  let power := exponent (t.dropWhile fun c => c != 69 && c != 101) - fraction.length
  -- a power of ten is added to the digits, or to those of the denominator
  let numerator : ℤ :=
    natural (digits.takeWhile isDigit ++ fraction ++ List.replicate power.toNat 48)
  let denominator := natural (49 :: List.replicate (-power).toNat 48)
  mkRat (if t.head? == some 45 then -numerator else numerator) denominator

example : number (("-12.50e-1").toList.map Char.toNat) = mkRat (-5) 4 := by decide +kernel

inductive Value
  | null
  | bool (b : Bool)
  | num (n : Numeral)
  | str (s : Text)
  | arr (items : List Value)
  | obj (fields : List (Text × Value))

/-- The induction on a value, whose parts are the members of a list. -/
@[elab_as_elim]
theorem Value.induction {motive : Value → Prop} (null : motive .null) (bool : ∀ b, motive (.bool b))
    (num : ∀ n, motive (.num n)) (str : ∀ s, motive (.str s))
    (arr : ∀ items, (∀ v ∈ items, motive v) → motive (.arr items))
    (obj : ∀ fields, (∀ f ∈ fields, motive f.2) → motive (.obj fields)) (v : Value) : motive v :=
  @Value.rec motive (fun items => ∀ v ∈ items, motive v) (fun fields => ∀ f ∈ fields, motive f.2)
    (fun f => motive f.2)
    null bool num str arr obj (by simp) (by simp_all) (by simp) (by simp_all) (fun _ _ h => h) v

/-! ### Strings -/

def hexDigit (n : ℕ) : ℕ := if n < 10 then 48 + n else 87 + n

def hexValue (c : ℕ) : Option ℕ :=
  if 48 ≤ c ∧ c ≤ 57 then some (c - 48)
  else if 97 ≤ c ∧ c ≤ 102 then some (c - 87)
  else if 65 ≤ c ∧ c ≤ 70 then some (c - 55)
  else none

def hexValue4 (a b c d : ℕ) : Option ℕ := do
  let a ← hexValue a
  let b ← hexValue b
  let c ← hexValue c
  let d ← hexValue d
  return ((a * 16 + b) * 16 + c) * 16 + d

/-- The escape `\uXXXX`. -/
def escape4 (n : ℕ) : Text :=
  [92, 117, hexDigit (n / 4096), hexDigit (n / 256 % 16), hexDigit (n / 16 % 16), hexDigit (n % 16)]

/-- The unit that a one-letter escape stands for. -/
def unescape : ℕ → Option ℕ
  | 34 => some 34
  | 92 => some 92
  | 47 => some 47
  | 98 => some 8
  | 102 => some 12
  | 110 => some 10
  | 114 => some 13
  | 116 => some 9
  | _ => none

/-- A string after its opening quote, and what follows the closing one. -/
def unquote : Text → Option (Text × Text)
  | [] => none
  | 34 :: rest => some ([], rest)
  | 92 :: 117 :: a :: b :: c :: d :: rest =>
    (hexValue4 a b c d).bind fun u => (unquote rest).map fun r => (u :: r.1, r.2)
  | 92 :: e :: rest => (unescape e).bind fun u => (unquote rest).map fun r => (u :: r.1, r.2)
  | u :: rest => if u < 32 then none else (unquote rest).map fun r => (u :: r.1, r.2)

/-- `body` is an escaped form of a string. -/
inductive Quotes : Text → Text → Prop
  | nil : Quotes [] []
  | plain {s body : Text} {u : ℕ} (h : 32 ≤ u ∧ u ≠ 34 ∧ u ≠ 92) (rest : Quotes s body) :
      Quotes (u :: s) (u :: body)
  | letter {s body : Text} {u e : ℕ} (h : unescape e = some u) (rest : Quotes s body) :
      Quotes (u :: s) (92 :: e :: body)
  | hex {s body : Text} {u : ℕ} (h : u < 65536) (rest : Quotes s body) :
      Quotes (u :: s) (escape4 u ++ body)

theorem hexValue_hexDigit {n : ℕ} (h : n < 16) : hexValue (hexDigit n) = some n := by
  unfold hexValue hexDigit
  split
  next => rw [if_pos (by omega), Nat.add_sub_cancel_left]
  next => rw [if_neg (by omega), if_pos (by omega), Nat.add_sub_cancel_left]

theorem hexValue4_hexDigit {u : ℕ} (h : u < 65536) :
    hexValue4 (hexDigit (u / 4096)) (hexDigit (u / 256 % 16)) (hexDigit (u / 16 % 16))
      (hexDigit (u % 16)) = some u := by
  have h0 := @hexValue_hexDigit (u / 4096) (by omega)
  have h1 := @hexValue_hexDigit (u / 256 % 16) (by omega)
  have h2 := hexValue_hexDigit (n := u / 16 % 16) (by omega)
  have h3 := hexValue_hexDigit (n := u % 16) (by omega)
  simp only [hexValue4, h0, h1, h2, h3, Option.bind_eq_bind, Option.bind_some]
  congr 1
  omega

theorem unquote_quotes {s body : Text} (h : Quotes s body) (rest : Text) :
    unquote (body ++ 34 :: rest) = some (s, rest) := by
  induction h with
  | nil => rfl
  | plain h _ ih =>
    rw [List.cons_append, unquote, if_neg (by omega), ih]
    all_goals simp_all
  | @letter s body u e h _ ih =>
    have he : e ≠ 117 := by
      rintro rfl
      cases h
    rw [List.cons_append, List.cons_append, unquote, h, ih]
    all_goals simp_all
  | hex h _ ih =>
    rw [escape4]
    simp only [List.cons_append, List.nil_append]
    rw [unquote, hexValue4_hexDigit h, ih]
    rfl

/-! ### The writer -/

def literal (s : String) : Text := s.toList.map Char.toNat

/-- A string in quotes. -/
def quote (q : Text → Text) (s : Text) : Text := 34 :: (q s ++ [34])

mutual

def render (q : Text → Text) : Value → Text
  | .null => literal "null"
  | .bool b => literal (if b then "true" else "false")
  | .num n => n.1
  | .str s => quote q s
  | .arr items => 91 :: renderItems q items
  | .obj fields => 123 :: renderFields q fields

def renderItems (q : Text → Text) : List Value → Text
  | [] => [93]
  | v :: items => render q v ++ renderRestItems q items

def renderRestItems (q : Text → Text) : List Value → Text
  | [] => [93]
  | v :: items => 44 :: (render q v ++ renderRestItems q items)

def renderField (q : Text → Text) : Text × Value → Text
  | (k, v) => quote q k ++ 58 :: render q v

def renderFields (q : Text → Text) : List (Text × Value) → Text
  | [] => [125]
  | f :: fields => renderField q f ++ renderRestFields q fields

def renderRestFields (q : Text → Text) : List (Text × Value) → Text
  | [] => [125]
  | f :: fields => 44 :: (renderField q f ++ renderRestFields q fields)

end

/-! ### The reader -/

def isSpace (c : ℕ) : Bool := [32, 9, 10, 13].contains c

def skip (t : Text) : Text := t.dropWhile isSpace

/-- The rest of a text after a given word. -/
def expect (word : Text) (t : Text) : Option Text :=
  if word.isPrefixOf t then some (t.drop word.length) else none

def parseNumeral (t : Text) : Option (Value × Text) :=
  if h : isNumeral (t.takeWhile isNumeralUnit) = true then
    some (.num ⟨_, h⟩, t.dropWhile isNumeralUnit)
  else none

mutual

def parseValue : ℕ → Text → Option (Value × Text)
  | 0, _ => none
  | fuel + 1, t =>
    match skip t with
    | 34 :: t => (unquote t).map fun r => (.str r.1, r.2)
    | 91 :: t => (parseItems fuel t).map fun r => (.arr r.1, r.2)
    | 123 :: t => (parseFields fuel t).map fun r => (.obj r.1, r.2)
    | 110 :: t => (expect (literal "ull") t).map fun t => (.null, t)
    | 116 :: t => (expect (literal "rue") t).map fun t => (.bool true, t)
    | 102 :: t => (expect (literal "alse") t).map fun t => (.bool false, t)
    | t => parseNumeral t

/-- The items of an array after its opening bracket. -/
def parseItems : ℕ → Text → Option (List Value × Text)
  | 0, _ => none
  | fuel + 1, t =>
    match skip t with
    | 93 :: t => some ([], t)
    | t => (parseValue fuel t).bind fun r =>
        (parseRestItems fuel r.2).map fun r' => (r.1 :: r'.1, r'.2)

def parseRestItems : ℕ → Text → Option (List Value × Text)
  | 0, _ => none
  | fuel + 1, t =>
    match skip t with
    | 93 :: t => some ([], t)
    | 44 :: t => (parseValue fuel t).bind fun r =>
        (parseRestItems fuel r.2).map fun r' => (r.1 :: r'.1, r'.2)
    | _ => none

def parseField : ℕ → Text → Option ((Text × Value) × Text)
  | 0, _ => none
  | fuel + 1, t =>
    match skip t with
    | 34 :: t => (unquote t).bind fun r =>
        match skip r.2 with
        | 58 :: t => (parseValue fuel t).map fun r' => ((r.1, r'.1), r'.2)
        | _ => none
    | _ => none

/-- The fields of an object after its opening brace. -/
def parseFields : ℕ → Text → Option (List (Text × Value) × Text)
  | 0, _ => none
  | fuel + 1, t =>
    match skip t with
    | 125 :: t => some ([], t)
    | t => (parseField fuel t).bind fun r =>
        (parseRestFields fuel r.2).map fun r' => (r.1 :: r'.1, r'.2)

def parseRestFields : ℕ → Text → Option (List (Text × Value) × Text)
  | 0, _ => none
  | fuel + 1, t =>
    match skip t with
    | 125 :: t => some ([], t)
    | 44 :: t => (parseField fuel t).bind fun r =>
        (parseRestFields fuel r.2).map fun r' => (r.1 :: r'.1, r'.2)
    | _ => none

end

/-- The value of a text, if it is the text of one. -/
def parse (t : Text) : Option Value :=
  match parseValue (t.length + 1) t with
  | some (v, rest) => if skip rest = [] then some v else none
  | none => none

/-! ### What was written is read back -/

theorem isNumeral_head (n : Numeral) : ∃ c t, n.1 = c :: t ∧ isNumeralUnit c = true := by
  obtain ⟨t, ht⟩ := n
  cases t with
  | nil => cases ht
  | cons c t =>
    refine ⟨c, t, rfl, ?_⟩
    simp only [isNumeral, List.all_cons, Bool.and_eq_true] at ht
    exact ht.1.1

/-- No unit of a numeral comes next. -/
def Ends (rest : Text) : Prop := ∀ c ∈ rest.head?, isNumeralUnit c = false

theorem span_numeral (n : Numeral) {rest : Text} (h : Ends rest) :
    (n.1 ++ rest).takeWhile isNumeralUnit = n.1 ∧ (n.1 ++ rest).dropWhile isNumeralUnit = rest := by
  have hall : ∀ c ∈ n.1, isNumeralUnit c = true := by
    have hn := n.2
    simp only [isNumeral, Bool.and_eq_true, List.all_eq_true] at hn
    exact hn.1
  rw [List.takeWhile_append_of_pos hall, List.dropWhile_append_of_pos hall]
  cases rest with
  | nil => simp
  | cons c rest =>
    have hc : isNumeralUnit c = false := h c rfl
    simp [hc]

theorem isSpace_of_isNumeralUnit {c : ℕ} (hc : isNumeralUnit c = true) : isSpace c = false := by
  by_contra hs
  simp only [isSpace, List.contains_eq_mem, decide_eq_true_eq, Bool.not_eq_false,
    List.mem_cons, List.not_mem_nil, or_false] at hs
  obtain rfl | rfl | rfl | rfl := hs <;> cases hc

theorem parseNumeral_append (n : Numeral) {rest : Text} (h : Ends rest) :
    parseNumeral (n.1 ++ rest) = some (.num n, rest) := by
  obtain ⟨htake, hdrop⟩ := span_numeral n h
  simp [parseNumeral, htake, hdrop, n.2]

theorem ends_cons {c : ℕ} {rest : Text} (h : isNumeralUnit c = false) : Ends (c :: rest) := by
  intro d hd
  obtain rfl : c = d := Option.some.inj hd
  exact h

@[simp] theorem skip_cons {c : ℕ} {t : Text} (h : isSpace c = false) : skip (c :: t) = c :: t := by
  simp [skip, h]

section RoundTrip

variable {q : Text → Text}

/-- A written value is read back before anything that does not continue it. -/
def Reads (q : Text → Text) (v : Value) : Prop :=
  ∀ fuel rest, (render q v).length < fuel → Ends rest →
    parseValue fuel (render q v ++ rest) = some (v, rest)

theorem reads_num (n : Numeral) : Reads q (.num n) := by
  intro fuel rest hfuel hrest
  obtain ⟨fuel, rfl⟩ := Nat.exists_eq_succ_of_ne_zero (Nat.ne_of_gt (Nat.zero_lt_of_lt hfuel))
  have hparse := parseNumeral_append n hrest
  obtain ⟨c, t, hn, hc⟩ := isNumeral_head n
  rw [render]
  rw [hn] at hparse ⊢
  rw [List.cons_append] at hparse ⊢
  rw [parseValue, skip_cons (isSpace_of_isNumeralUnit hc)]
  split
  all_goals first
    | exact hparse
    | (rename_i heq
       obtain ⟨rfl, -⟩ := List.cons.inj heq
       cases hc)

theorem reads_literal {v : Value} (c : ℕ) (word : Text) (hv : render q v = c :: word)
    (hparse : ∀ fuel rest, parseValue (fuel + 1) (c :: (word ++ rest)) = some (v, rest)) :
    Reads q v := by
  intro fuel rest hfuel _
  obtain ⟨fuel, rfl⟩ := Nat.exists_eq_succ_of_ne_zero (Nat.ne_of_gt (Nat.zero_lt_of_lt hfuel))
  rw [hv]
  exact hparse fuel rest

theorem expect_append (word rest : Text) : expect word (word ++ rest) = some rest := by
  simp [expect]

theorem reads_null : Reads q .null := by
  apply reads_literal 110 (literal "ull") rfl
  exact fun fuel rest => rfl

theorem reads_bool (b : Bool) : Reads q (.bool b) := by
  cases b with
  | true =>
    apply reads_literal 116 (literal "rue") rfl
    exact fun fuel rest => rfl
  | false =>
    apply reads_literal 102 (literal "alse") rfl
    exact fun fuel rest => rfl

variable (hq : ∀ s, Quotes s (q s))
include hq

theorem unquote_quote (s rest : Text) : unquote (q s ++ 34 :: rest) = some (s, rest) :=
  unquote_quotes (hq s) rest

theorem reads_str (s : Text) : Reads q (.str s) := by
  apply reads_literal 34 (q s ++ [34]) rfl
  intro fuel rest
  have hstart : parseValue (fuel + 1) (34 :: (q s ++ [34] ++ rest)) =
      (unquote (q s ++ [34] ++ rest)).map fun r => (.str r.1, r.2) := rfl
  rw [hstart]
  simp only [List.append_assoc, List.singleton_append, unquote_quote hq, Option.map_some]

omit hq in
theorem parseRestItems_render {items : List Value} (h : ∀ v ∈ items, Reads q v) (fuel : ℕ)
    (rest : Text) (hfuel : (renderRestItems q items).length < fuel) :
    parseRestItems fuel (renderRestItems q items ++ rest) = some (items, rest) := by
  induction items generalizing fuel with
  | nil =>
    obtain ⟨fuel, rfl⟩ := Nat.exists_eq_succ_of_ne_zero (Nat.ne_of_gt (Nat.zero_lt_of_lt hfuel))
    rw [renderRestItems, List.singleton_append, parseRestItems, skip_cons rfl]
    rfl
  | cons v items ih =>
    obtain ⟨fuel, rfl⟩ := Nat.exists_eq_succ_of_ne_zero (Nat.ne_of_gt (Nat.zero_lt_of_lt hfuel))
    rw [renderRestItems, List.length_cons, List.length_append] at hfuel
    have hv := h v List.mem_cons_self fuel (renderRestItems q items ++ rest) (by omega)
      (by cases items <;> (rw [renderRestItems]; exact ends_cons rfl))
    rw [renderRestItems, List.cons_append, parseRestItems, skip_cons rfl, List.append_assoc]
    simp only [hv, Option.bind_some]
    rw [ih (fun w hw => h w (List.mem_cons_of_mem v hw)) fuel (by omega)]
    rfl

omit hq in
/-- A written value begins with no space and no closing bracket. -/
theorem render_head (q : Text → Text) (v : Value) :
    ∃ c t, render q v = c :: t ∧ isSpace c = false ∧ c ≠ 93 := by
  cases v with
  | null => exact ⟨110, _, by rw [render]; rfl, rfl, by decide⟩
  | bool b =>
    cases b with
    | true => exact ⟨116, _, by rw [render]; rfl, rfl, by decide⟩
    | false => exact ⟨102, _, by rw [render]; rfl, rfl, by decide⟩
  | num n =>
    obtain ⟨c, t, hn, hc⟩ := isNumeral_head n
    refine ⟨c, t, by rw [render, hn], isSpace_of_isNumeralUnit hc, ?_⟩
    rintro rfl
    cases hc
  | str s => exact ⟨34, _, by rw [render, quote], rfl, by decide⟩
  | arr items => exact ⟨91, _, by rw [render], rfl, by decide⟩
  | obj fields => exact ⟨123, _, by rw [render], rfl, by decide⟩

omit hq in
theorem parseItems_render {items : List Value} (h : ∀ v ∈ items, Reads q v) (fuel : ℕ)
    (rest : Text) (hfuel : (renderItems q items).length < fuel) :
    parseItems fuel (renderItems q items ++ rest) = some (items, rest) := by
  obtain ⟨fuel, rfl⟩ := Nat.exists_eq_succ_of_ne_zero (Nat.ne_of_gt (Nat.zero_lt_of_lt hfuel))
  cases items with
  | nil =>
    rw [renderItems, List.singleton_append, parseItems, skip_cons rfl]
    rfl
  | cons v items =>
    rw [renderItems, List.length_append] at hfuel
    obtain ⟨c, t, hc, hspace, hne⟩ := render_head q v
    have hpos : 0 < (renderRestItems q items).length := by
      cases items <;> (rw [renderRestItems]; exact Nat.succ_pos _)
    have hv := h v List.mem_cons_self fuel (renderRestItems q items ++ rest) (by omega)
      (by cases items <;> (rw [renderRestItems]; exact ends_cons rfl))
    have hlength : 0 < (render q v).length := by rw [hc]; exact Nat.succ_pos _
    have hitems := parseRestItems_render (fun w hw => h w (List.mem_cons_of_mem v hw)) fuel rest
      (by omega)
    rw [renderItems, List.append_assoc, parseItems]
    rw [hc] at hv ⊢
    rw [List.cons_append] at hv ⊢
    rw [skip_cons hspace]
    split
    next heq => exact absurd (List.cons.inj heq).1 hne
    next => rw [hv, Option.bind_some, hitems, Option.map_some]

theorem parseField_render {f : Text × Value} (h : Reads q f.2) (fuel : ℕ) (rest : Text)
    (hfuel : (renderField q f).length < fuel) (hrest : Ends rest) :
    parseField fuel (renderField q f ++ rest) = some (f, rest) := by
  obtain ⟨fuel, rfl⟩ := Nat.exists_eq_succ_of_ne_zero (Nat.ne_of_gt (Nat.zero_lt_of_lt hfuel))
  obtain ⟨k, v⟩ := f
  rw [renderField, quote] at hfuel ⊢
  simp only [List.length_append, List.length_cons] at hfuel
  simp only [List.cons_append, List.append_assoc, List.nil_append]
  rw [parseField, skip_cons rfl]
  simp only [unquote_quote hq, Option.bind_some]
  rw [skip_cons rfl]
  simp only [h fuel rest (by dsimp only; omega) hrest, Option.map_some]

theorem parseRestFields_render {fields : List (Text × Value)} (h : ∀ f ∈ fields, Reads q f.2)
    (fuel : ℕ) (rest : Text) (hfuel : (renderRestFields q fields).length < fuel) :
    parseRestFields fuel (renderRestFields q fields ++ rest) = some (fields, rest) := by
  induction fields generalizing fuel with
  | nil =>
    obtain ⟨fuel, rfl⟩ := Nat.exists_eq_succ_of_ne_zero (Nat.ne_of_gt (Nat.zero_lt_of_lt hfuel))
    rw [renderRestFields, List.singleton_append, parseRestFields, skip_cons rfl]
    rfl
  | cons f fields ih =>
    obtain ⟨fuel, rfl⟩ := Nat.exists_eq_succ_of_ne_zero (Nat.ne_of_gt (Nat.zero_lt_of_lt hfuel))
    rw [renderRestFields, List.length_cons, List.length_append] at hfuel
    have hf := parseField_render hq (h f List.mem_cons_self) fuel
      (renderRestFields q fields ++ rest) (by omega)
      (by cases fields <;> (rw [renderRestFields]; exact ends_cons rfl))
    rw [renderRestFields, List.cons_append, parseRestFields, skip_cons rfl, List.append_assoc]
    simp only [hf, Option.bind_some]
    rw [ih (fun g hg => h g (List.mem_cons_of_mem f hg)) fuel (by omega)]
    rfl

theorem parseFields_render {fields : List (Text × Value)} (h : ∀ f ∈ fields, Reads q f.2)
    (fuel : ℕ) (rest : Text) (hfuel : (renderFields q fields).length < fuel) :
    parseFields fuel (renderFields q fields ++ rest) = some (fields, rest) := by
  obtain ⟨fuel, rfl⟩ := Nat.exists_eq_succ_of_ne_zero (Nat.ne_of_gt (Nat.zero_lt_of_lt hfuel))
  cases fields with
  | nil =>
    rw [renderFields, List.singleton_append, parseFields, skip_cons rfl]
    rfl
  | cons f fields =>
    rw [renderFields, List.length_append] at hfuel
    have hpos : 0 < (renderRestFields q fields).length := by
      cases fields <;> (rw [renderRestFields]; exact Nat.succ_pos _)
    have hlength : 0 < (renderField q f).length := by
      rw [renderField, quote]
      exact Nat.succ_pos _
    have hf := parseField_render hq (h f List.mem_cons_self) fuel
      (renderRestFields q fields ++ rest) (by omega)
      (by cases fields <;> (rw [renderRestFields]; exact ends_cons rfl))
    have hfields := parseRestFields_render hq (fun g hg => h g (List.mem_cons_of_mem f hg)) fuel
      rest (by omega)
    have hhead : ∃ t, renderField q f = 34 :: t := by
      obtain ⟨k, v⟩ := f
      exact ⟨_, by rw [renderField, quote, List.cons_append]⟩
    obtain ⟨t, ht⟩ := hhead
    rw [renderFields, List.append_assoc, parseFields]
    rw [ht, List.cons_append] at hf ⊢
    rw [skip_cons rfl]
    simp only [hf, Option.bind_some, hfields, Option.map_some]

/-- Every value that is written is read back. -/
theorem reads (v : Value) : Reads q v := by
  induction v using Value.induction with
  | null => exact reads_null
  | bool b => exact reads_bool b
  | num n => exact reads_num n
  | str s => exact reads_str hq s
  | arr items ih =>
    intro fuel rest hfuel _
    obtain ⟨fuel, rfl⟩ := Nat.exists_eq_succ_of_ne_zero (Nat.ne_of_gt (Nat.zero_lt_of_lt hfuel))
    rw [render, List.length_cons] at hfuel
    rw [render, List.cons_append, parseValue, skip_cons rfl]
    simp only [parseItems_render ih fuel rest (Nat.lt_of_succ_lt_succ hfuel), Option.map_some]
  | obj fields ih =>
    intro fuel rest hfuel _
    obtain ⟨fuel, rfl⟩ := Nat.exists_eq_succ_of_ne_zero (Nat.ne_of_gt (Nat.zero_lt_of_lt hfuel))
    rw [render, List.length_cons] at hfuel
    rw [render, List.cons_append, parseValue, skip_cons rfl]
    simp only [parseFields_render hq ih fuel rest (Nat.lt_of_succ_lt_succ hfuel), Option.map_some]

theorem parse_render (v : Value) : parse (render q v) = some v := by
  have h := reads hq v ((render q v).length + 1) [] (Nat.lt_succ_self _) (by simp [Ends])
  rw [List.append_nil] at h
  rw [parse, h]
  rfl

end RoundTrip

/-! ### The units of a written value -/

mutual

/-- The strings in a value, keys included. -/
def strings : Value → List Text
  | .null => []
  | .bool _ => []
  | .num _ => []
  | .str s => [s]
  | .arr items => stringsOfItems items
  | .obj fields => stringsOfFields fields

def stringsOfItems : List Value → List Text
  | [] => []
  | v :: items => strings v ++ stringsOfItems items

def stringsOfField : Text × Value → List Text
  | (k, v) => k :: strings v

def stringsOfFields : List (Text × Value) → List Text
  | [] => []
  | f :: fields => stringsOfField f ++ stringsOfFields fields

end

/-- The escaped strings keep within `P`, as do the printable ASCII units. -/
structure Within (q : Text → Text) (P : ℕ → Prop) (texts : List Text) : Prop where
  ascii : ∀ c, 32 < c → c < 127 → P c
  escaped : ∀ s ∈ texts, ∀ c ∈ q s, P c

variable {q : Text → Text} {P : ℕ → Prop}

theorem Within.mono {texts texts' : List Text} (h : Within q P texts)
    (hsub : ∀ s ∈ texts', s ∈ texts) : Within q P texts' :=
  ⟨h.ascii, fun s hs => h.escaped s (hsub s hs)⟩

theorem Within.quote {s : Text} (h : Within q P [s]) : ∀ c ∈ Json.quote q s, P c := by
  intro c hc
  rw [Json.quote, List.mem_cons, List.mem_append, List.mem_singleton] at hc
  obtain rfl | hc | rfl := hc
  · exact h.ascii 34 (by omega) (by omega)
  · exact h.escaped s (List.mem_singleton_self s) c hc
  · exact h.ascii 34 (by omega) (by omega)

def isPrintable (c : ℕ) : Bool := Nat.ble 33 c && Nat.ble c 126

theorem Within.literal {texts : List Text} (h : Within q P texts) {s : String}
    (hs : (Json.literal s).all isPrintable = true) : ∀ c ∈ Json.literal s, P c := by
  intro c hc
  have hprintable := List.all_eq_true.mp hs c hc
  simp only [isPrintable, Bool.and_eq_true, Nat.ble_eq] at hprintable
  exact h.ascii c (by omega) (by omega)

theorem isNumeralUnit_bounds {c : ℕ} (h : isNumeralUnit c = true) : 32 < c ∧ c < 127 := by
  simp only [isNumeralUnit, isDigit, List.contains_eq_mem, Bool.or_eq_true, Bool.and_eq_true,
    decide_eq_true_eq, List.mem_cons, List.not_mem_nil, or_false] at h
  omega

theorem forall_mem_append {l l' : Text} (h : ∀ c ∈ l, P c) (h' : ∀ c ∈ l', P c) :
    ∀ c ∈ l ++ l', P c := fun c hc => (List.mem_append.mp hc).elim (h c) (h' c)

theorem forall_mem_cons {u : ℕ} {l : Text} (hu : P u) (h : ∀ c ∈ l, P c) : ∀ c ∈ u :: l, P c :=
  List.forall_mem_cons.mpr ⟨hu, h⟩

theorem Within.renderRestItems {items : List Value}
    (ih : ∀ v ∈ items, Within q P (strings v) → ∀ c ∈ render q v, P c)
    (h : Within q P (stringsOfItems items)) : ∀ c ∈ Json.renderRestItems q items, P c := by
  induction items with
  | nil =>
    rw [Json.renderRestItems]
    exact forall_mem_cons (h.ascii 93 (by omega) (by omega)) (by simp)
  | cons v items ih' =>
    rw [Json.renderRestItems]
    rw [stringsOfItems] at h
    refine forall_mem_cons (h.ascii 44 (by omega) (by omega)) (forall_mem_append ?_ ?_)
    · exact ih v List.mem_cons_self (h.mono fun s hs => List.mem_append_left _ hs)
    · exact ih' (fun w hw => ih w (List.mem_cons_of_mem v hw))
        (h.mono fun s hs => List.mem_append_right _ hs)

theorem Within.renderField {f : Text × Value}
    (ih : Within q P (strings f.2) → ∀ c ∈ render q f.2, P c)
    (h : Within q P (stringsOfField f)) : ∀ c ∈ Json.renderField q f, P c := by
  obtain ⟨k, v⟩ := f
  rw [Json.renderField]
  rw [stringsOfField] at h
  refine forall_mem_append (h.mono ?_).quote
    (forall_mem_cons (h.ascii 58 (by omega) (by omega)) (ih (h.mono ?_)))
  · rintro s hs
    obtain rfl := List.mem_singleton.mp hs
    exact List.mem_cons_self
  · exact fun s hs => List.mem_cons_of_mem k hs

theorem Within.renderRestFields {fields : List (Text × Value)}
    (ih : ∀ f ∈ fields, Within q P (strings f.2) → ∀ c ∈ render q f.2, P c)
    (h : Within q P (stringsOfFields fields)) : ∀ c ∈ Json.renderRestFields q fields, P c := by
  induction fields with
  | nil =>
    rw [Json.renderRestFields]
    exact forall_mem_cons (h.ascii 125 (by omega) (by omega)) (by simp)
  | cons f fields ih' =>
    rw [Json.renderRestFields]
    rw [stringsOfFields] at h
    refine forall_mem_cons (h.ascii 44 (by omega) (by omega)) (forall_mem_append ?_ ?_)
    · exact (h.mono fun s hs => List.mem_append_left _ hs).renderField (ih f List.mem_cons_self)
    · exact ih' (fun g hg => ih g (List.mem_cons_of_mem f hg))
        (h.mono fun s hs => List.mem_append_right _ hs)

/-- A written value keeps within `P` if its escaped strings do. -/
theorem Within.render {v : Value} (h : Within q P (strings v)) : ∀ c ∈ Json.render q v, P c := by
  induction v using Value.induction with
  | null =>
    rw [Json.render]
    exact h.literal rfl
  | bool b =>
    rw [Json.render]
    cases b
    · exact h.literal rfl
    · exact h.literal rfl
  | num n =>
    intro c hc
    rw [Json.render] at hc
    have hn := n.2
    simp only [isNumeral, Bool.and_eq_true, List.all_eq_true] at hn
    have hbounds := isNumeralUnit_bounds (hn.1 c hc)
    exact h.ascii c hbounds.1 hbounds.2
  | str s =>
    rw [Json.render]
    exact Within.quote h
  | arr items ih =>
    rw [Json.render]
    refine forall_mem_cons (h.ascii 91 (by omega) (by omega)) ?_
    rw [strings] at h
    cases items with
    | nil => exact forall_mem_cons (h.ascii 93 (by omega) (by omega)) (by simp)
    | cons v items =>
      rw [renderItems]
      rw [stringsOfItems] at h
      apply forall_mem_append
      · exact ih v List.mem_cons_self (h.mono fun s hs => List.mem_append_left _ hs)
      · exact (h.mono fun s hs => List.mem_append_right _ hs).renderRestItems
          fun w hw => ih w (List.mem_cons_of_mem v hw)
  | obj fields ih =>
    rw [Json.render]
    refine forall_mem_cons (h.ascii 123 (by omega) (by omega)) ?_
    rw [strings] at h
    cases fields with
    | nil => exact forall_mem_cons (h.ascii 125 (by omega) (by omega)) (by simp)
    | cons f fields =>
      rw [renderFields]
      rw [stringsOfFields] at h
      apply forall_mem_append
      · exact (h.mono fun s hs => List.mem_append_left _ hs).renderField (ih f List.mem_cons_self)
      · exact (h.mono fun s hs => List.mem_append_right _ hs).renderRestFields
          fun g hg => ih g (List.mem_cons_of_mem f hg)

end Json
