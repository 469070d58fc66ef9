import Ark.GoStruct
import Mathlib

/-!
# Numbers read as `float64` and written as JSON

`strconv.ParseFloat` yields the binary number with 53 digits that is nearest to the number read, the even
one of two. `json.Marshal` writes the shortest decimal number that is read as it, with an exponent when it
is small or large.
-/

namespace Float64

open Json GoJson

/-! ### Rounding -/

/-- `a / b` rounded to an integer, a half to the even one. -/
def halfEven (a b : ℕ) : ℕ :=
  let m := a / b
  if 2 * (a % b) < b then m
  else if b < 2 * (a % b) then m + 1
  else m + m % 2

/-- `a / b` as a fraction after a division by `base ^ e`. -/
def scaled (base a b : ℕ) (e : ℤ) : ℕ × ℕ :=
  if 0 ≤ e then (a, b * base ^ e.toNat) else (a * base ^ (-e).toNat, b)

/-- The exponent at which `a / b` has 53 binary digits before the point. -/
def exponent53 (a b : ℕ) : ℤ :=
  let e : ℤ := (Nat.log2 a : ℤ) - Nat.log2 b - 52
  let (c, d) := scaled 2 a b e
  if c / d < 2 ^ 52 then e - 1 else e

/-- The `m` and `e` of the `float64` number `m * 2 ^ e` nearest to `a / b`. -/
def parseFloat (a b : ℕ) : Option (ℕ × ℤ) :=
  let e := max (-1074) (exponent53 a b)
  let (c, d) := scaled 2 a b e
  let m := halfEven c d
  let (m, e) := if m = 2 ^ 53 then (2 ^ 52, e + 1) else (m, e)
  if 971 < e then none else some (m, e)

/-! ### The shortest digits -/

/-- The place of the point: the least `p` with `a / b < 10 ^ p`. -/
def decimalPoint (a b : ℕ) : ℤ :=
  let p : ℤ := (Nat.toDigits 10 a).length - (Nat.toDigits 10 b).length
  let (c, d) := scaled 10 a b p
  if c < d then p else p + 1

/-- The number with `n` digits that is read as `x` and next to `a / b`, as an integer. -/
def shortestAt (x : ℕ × ℤ) (a b : ℕ) (point : ℤ) (n : ℕ) : Option ℕ :=
  let e := point - n
  let (c, d) := scaled 10 a b e
  let isRead (m : ℕ) : Bool :=
    let (c, d) := scaled 10 m 1 (-e)
    parseFloat c d == some x
  let down := c / d
  if isRead down && isRead (down + 1) then some (halfEven c d)
  else if isRead down then some down
  else if isRead (down + 1) then some (down + 1)
  else none

/-- The digits of the shortest decimal number that is read as `x`, and the place of its point. 17 digits
always suffice. -/
def shortest (x : ℕ × ℤ) : Text × ℤ :=
  let (a, b) := scaled 2 x.1 1 (-x.2)
  let point := decimalPoint a b
  let found := (List.range 17).findSome? fun n => (shortestAt x a b point (n + 1)).map (·, n + 1)
  let (m, n) := found.getD (0, 17)
  let digits := (Nat.toDigits 10 m).map Char.toNat
  ((digits.reverse.dropWhile (· == 48)).reverse, point - n + digits.length)

example : parseFloat 9007199254740993 1 = some (4503599627370496, 1) := by decide +kernel

example : shortest (4503599627370496, 1) = ("9007199254740992".toList.map Char.toNat, 16) := by
  decide +kernel

/-! ### Writing -/

def exponentText : Option ℤ → Text
  | none => []
  | some e => 101 :: (if e < 0 then 45 else 43) :: (Nat.toDigits 10 e.natAbs).map Char.toNat

def decimalText (neg : Bool) (integer fraction : Text) (e : Option ℤ) : Text :=
  (if neg then [45] else []) ++ (integer ++ ((if fraction = [] then [] else 46 :: fraction) ++
    exponentText e))

/-- Digits that may stand before the point. -/
def IsInteger (t : Text) : Prop :=
  t = [48] ∨ ((∀ c ∈ t, isDigit c = true) ∧ ∃ c s, t = c :: s ∧ c ≠ 48)

theorem dropWhile_digits {t rest : Text} (ht : ∀ c ∈ t, isDigit c = true)
    (hrest : ∀ c ∈ rest.head?, isDigit c = false) : (t ++ rest).dropWhile isDigit = rest := by
  rw [List.dropWhile_append_of_pos ht]
  cases rest with
  | nil => rfl
  | cons c rest => rw [List.dropWhile_cons_of_neg (Bool.eq_false_iff.mp (hrest c rfl))]

theorem afterDigits_append {t rest : Text} (hne : t ≠ []) (ht : ∀ c ∈ t, isDigit c = true)
    (hrest : ∀ c ∈ rest.head?, isDigit c = false) : afterDigits (t ++ rest) = some rest := by
  cases t with
  | nil => exact absurd rfl hne
  | cons c t =>
    rw [List.forall_mem_cons] at ht
    rw [List.cons_append, afterDigits, if_pos ht.1, dropWhile_digits ht.2 hrest]

theorem afterInteger_append (neg : Bool) {t rest : Text} (ht : IsInteger t)
    (hrest : ∀ c ∈ rest.head?, isDigit c = false) :
    afterInteger ((if neg then [45] else []) ++ (t ++ rest)) = some rest := by
  rcases ht with rfl | ⟨hdigits, c, s, rfl, hc⟩
  · cases neg <;> rfl
  · have hafter := afterDigits_append (List.cons_ne_nil c s) hdigits hrest
    have hminus : c ≠ 45 := by
      rintro rfl
      exact absurd (hdigits 45 List.mem_cons_self) (by decide)
    cases neg with
    | true =>
      rw [if_pos rfl, List.singleton_append]
      unfold afterInteger
      split
      next heq => exact absurd (List.cons.inj (List.cons.inj heq).2).1 hc
      next heq => rw [← (List.cons.inj heq).2, hafter]
      next heq => exact absurd (List.cons.inj heq).1 (by decide)
      next hno _ => exact absurd rfl (hno _)
    | false =>
      rw [if_neg Bool.false_ne_true, List.nil_append]
      unfold afterInteger
      split
      next heq => exact absurd (List.cons.inj heq).1 hminus
      next heq => exact absurd (List.cons.inj heq).1 hminus
      next heq => exact absurd (List.cons.inj heq).1 hc
      next => exact hafter

theorem exponentText_head (e : Option ℤ) : ∀ c ∈ (exponentText e).head?, c = 101 := by
  cases e with
  | none => exact fun c hc => nomatch hc
  | some e => exact fun c hc => (Option.some.inj hc).symm

theorem afterExponent_exponentText (e : Option ℤ) : afterExponent (exponentText e) = some [] := by
  cases e with
  | none => rfl
  | some e =>
    have hdigits : ∀ c ∈ (Nat.toDigits 10 e.natAbs).map Char.toNat, Json.isDigit c = true :=
      fun c => isDigit_of_mem_digits
    have hne : (Nat.toDigits 10 e.natAbs).map Char.toNat ≠ [] := by
      rw [ne_eq, List.map_eq_nil_iff]
      exact Nat.toDigits_ne_nil
    have hafter : afterDigits ((Nat.toDigits 10 e.natAbs).map Char.toNat ++ []) = some [] :=
      afterDigits_append hne hdigits fun c hc => nomatch hc
    rw [List.append_nil] at hafter
    change afterDigits (afterSign ((if e < 0 then 45 else 43) ::
      (Nat.toDigits 10 e.natAbs).map Char.toNat)) = some []
    by_cases he : e < 0
    · rw [if_pos he]
      exact hafter
    · rw [if_neg he]
      exact hafter

theorem isNumeralUnit_decimalText {neg : Bool} {integer fraction : Text} {e : Option ℤ}
    (hinteger : ∀ c ∈ integer, isDigit c = true) (hfraction : ∀ c ∈ fraction, isDigit c = true) :
    (decimalText neg integer fraction e).all isNumeralUnit = true := by
  rw [decimalText, List.all_append, List.all_append, List.all_append, Bool.and_eq_true,
    Bool.and_eq_true, Bool.and_eq_true, List.all_eq_true, List.all_eq_true, List.all_eq_true,
    List.all_eq_true]
  refine ⟨?_, fun c hc => isNumeralUnit_of_isDigit (hinteger c hc), ?_, ?_⟩
  · cases neg <;> decide
  · intro c hc
    split at hc
    · cases hc
    · rcases List.mem_cons.mp hc with rfl | hc
      · rfl
      · exact isNumeralUnit_of_isDigit (hfraction c hc)
  · intro c hc
    cases e with
    | none => cases hc
    | some e =>
      rcases List.mem_cons.mp hc with rfl | hc
      · rfl
      · rcases List.mem_cons.mp hc with rfl | hc
        · split <;> rfl
        · exact isNumeralUnit_of_isDigit (isDigit_of_mem_digits hc)

theorem isNumeral_decimalText {neg : Bool} {integer fraction : Text} {e : Option ℤ}
    (hinteger : IsInteger integer) (hfraction : ∀ c ∈ fraction, isDigit c = true) :
    isNumeral (decimalText neg integer fraction e) = true := by
  have hdigits : ∀ c ∈ integer, isDigit c = true := by
    rcases hinteger with rfl | ⟨hdigits, -⟩
    · decide
    · exact hdigits
  have hexponent : ∀ c ∈ (exponentText e).head?, isDigit c = false := by
    intro c hc
    rw [exponentText_head e c hc]
    rfl
  have hrest : ∀ c ∈ ((if fraction = [] then [] else 46 :: fraction) ++ exponentText e).head?,
      isDigit c = false := by
    split
    · exact hexponent
    · exact fun c hc => Option.some.inj hc ▸ rfl
  have hafter : afterFraction ((if fraction = [] then [] else 46 :: fraction) ++ exponentText e) =
      some (exponentText e) := by
    split
    · rw [List.nil_append]
      unfold afterFraction
      split
      next t heq => exact absurd (exponentText_head e 46 (by rw [heq]; rfl)) (by decide)
      next => rfl
    next hne => exact afterDigits_append hne hfraction hexponent
  rw [isNumeral, isNumeralUnit_decimalText hdigits hfraction, decimalText,
    afterInteger_append neg hinteger hrest, Option.bind_some, hafter, Option.bind_some,
    afterExponent_exponentText]
  rfl

/-- How `json.Marshal` writes a number with these digits. -/
def formatFloat (neg : Bool) (digits : Text) (point : ℤ) : Text :=
  if digits = [] then decimalText neg [48] [] none
  else if point < -5 ∨ 21 < point then
    decimalText neg (digits.take 1) (digits.drop 1) (some (point - 1))
  else if point ≤ 0 then decimalText neg [48] (List.replicate (-point).toNat 48 ++ digits) none
  else if digits.length ≤ point then
    decimalText neg (digits ++ List.replicate (point - digits.length).toNat 48) [] none
  else decimalText neg (digits.take point.toNat) (digits.drop point.toNat) none

theorem isNumeral_formatFloat {neg : Bool} {digits : Text} {point : ℤ}
    (hdigits : ∀ c ∈ digits, isDigit c = true) (hhead : digits.head? ≠ some 48) :
    isNumeral (formatFloat neg digits point) = true := by
  have htake : ∀ n, 0 < n → digits ≠ [] → IsInteger (digits.take n) := by
    intro n hn hne
    cases digits with
    | nil => exact absurd rfl hne
    | cons c s =>
      obtain ⟨n, rfl⟩ := Nat.exists_eq_succ_of_ne_zero (Nat.ne_of_gt hn)
      exact .inr ⟨fun d hd => hdigits d (List.mem_of_mem_take hd), c, s.take n, rfl,
        fun hc => hhead (congrArg some hc)⟩
  have hdrop : ∀ n, ∀ c ∈ digits.drop n, isDigit c = true :=
    fun n c hc => hdigits c (List.mem_of_mem_drop hc)
  have hzeros : ∀ n, ∀ c ∈ List.replicate n 48, isDigit c = true := by
    intro n c hc
    rw [(List.mem_replicate.mp hc).2]
    rfl
  unfold formatFloat
  split_ifs with hempty hexp hsmall hlarge
  · exact isNumeral_decimalText (.inl rfl) fun c hc => nomatch hc
  · exact isNumeral_decimalText (htake 1 Nat.one_pos hempty) (hdrop 1)
  · exact isNumeral_decimalText (.inl rfl) (List.forall_mem_append.mpr ⟨hzeros _, hdigits⟩)
  · refine isNumeral_decimalText (.inr ⟨List.forall_mem_append.mpr ⟨hdigits, hzeros _⟩, ?_⟩)
      fun c hc => nomatch hc
    cases digits with
    | nil => exact absurd rfl hempty
    | cons c s => exact ⟨c, _, rfl, fun hc => hhead (congrArg some hc)⟩
  · exact isNumeral_decimalText (htake _ (by omega) hempty) (hdrop _)

/-- The digits without zeros at the end, of a positive number or none at all. -/
theorem trimmed_digits (n : ℕ) :
    (∀ c ∈ (((Nat.toDigits 10 n).map Char.toNat).reverse.dropWhile (· == 48)).reverse,
      isDigit c = true) ∧
    (((Nat.toDigits 10 n).map Char.toNat).reverse.dropWhile (· == 48)).reverse.head? ≠ some 48 := by
  have hsuffix := List.dropWhile_suffix (· == 48) (l := ((Nat.toDigits 10 n).map Char.toNat).reverse)
  have hbegins := List.reverse_suffix.mp (by rwa [List.reverse_reverse] :
    (((Nat.toDigits 10 n).map Char.toNat).reverse.dropWhile (· == 48)).reverse.reverse <:+
      ((Nat.toDigits 10 n).map Char.toNat).reverse)
  refine ⟨fun c hc => isDigit_of_mem_digits (hbegins.subset hc), fun hhead => ?_⟩
  rcases Nat.eq_zero_or_pos n with rfl | hn
  · exact absurd hhead (by decide)
  · obtain ⟨c, cs, hcs, hc⟩ := head_toDigits hn
    rw [hcs] at hbegins hhead
    cases htrim : ((c :: cs).reverse.dropWhile (· == 48)).reverse with
    | nil => rw [htrim] at hhead; cases hhead
    | cons d ds =>
      rw [htrim] at hbegins hhead
      obtain rfl := Option.some.inj hhead
      obtain ⟨rest, hrest⟩ := hbegins
      exact hc (List.cons.inj hrest).1.symm

theorem shortest_digits (x : ℕ × ℤ) : (∀ c ∈ (shortest x).1, isDigit c = true) ∧
    (shortest x).1.head? ≠ some 48 := trimmed_digits _

theorem isNumeral_zero : isNumeral [48] = true := rfl

/-- What `json.Marshal` writes of the number that was read from `q`; nothing if `q` is out of range. -/
def float64 (q : Rat) : Option Numeral :=
  (parseFloat q.num.natAbs q.den).map fun x =>
    if x.1 = 0 then ⟨[48], isNumeral_zero⟩
    else ⟨formatFloat (q < 0) (shortest x).1 (shortest x).2,
      isNumeral_formatFloat (shortest_digits x).1 (shortest_digits x).2⟩

example : (float64 9007199254740993).map (·.1) = some ("9007199254740992".toList.map Char.toNat) := by
  decide +kernel

end Float64
