import Mathlib.Data.Int.Notation
import Mathlib.Data.List.Basic
import Mathlib.Data.Nat.Digits.Defs

/-!
# Floats as text

How `strconv` writes a float from the shortest digits that are read back as it. `fmtG` is what the
verb `%v` prints: large and small numbers get an exponent, from one million on, whether they are
integers or not.
-/

namespace GoFloat

/-- The value `0.d₁d₂… · 10 ^ dp` of the digits `d₁`, `d₂`, …. Zero has no digits. -/
structure Decimal where
  neg : Bool
  digits : List ℕ
  dp : ℤ
  digits_lt : ∀ d ∈ digits, d < 10
  head_ne : digits.head? ≠ some 0
  last_ne : digits.getLast? ≠ some 0
  zero_dp : digits = [] → dp = 0

def digitChar (d : ℕ) : Char := Char.ofNat (48 + d)

namespace Decimal

variable (f : Decimal)

def sign : List Char := if f.neg then ['-'] else []

/-- The digit at place `j`, zero beyond the last. -/
def digit (j : ℕ) : Char := digitChar (f.digits.getD j 0)

/-- `%f` with `prec` digits behind the point. -/
def fmtF (prec : ℕ) : List Char :=
  f.sign ++ (if 0 < f.dp then (List.range f.dp.toNat).map f.digit else ['0']) ++
    if 0 < prec then
      '.' :: (List.range prec).map fun i => if 0 ≤ f.dp + i then f.digit (f.dp + i).toNat else '0'
    else []

/-- The exponent of `%e`, with two digits at least. -/
def exponent : List Char :=
  let exp := if f.digits = [] then 0 else f.dp - 1
  let ds := (Nat.digits 10 exp.natAbs).reverse.map digitChar
  (if exp < 0 then '-' else '+') :: (List.replicate (2 - ds.length) '0' ++ ds)

/-- `%e` with `prec` digits behind the point. -/
def fmtE (prec : ℕ) : List Char :=
  f.sign ++ f.digit 0 :: (if 0 < prec then '.' :: (List.range prec).map fun i => f.digit (i + 1)
    else []) ++ 'e' :: f.exponent

/-- `%g` with the shortest digits. -/
def fmtG : List Char :=
  if f.dp - 1 < -4 ∨ 6 ≤ f.dp - 1 then f.fmtE (f.digits.length - 1)
  else f.fmtF (f.digits.length - f.dp).toNat

def IsInteger : Prop := (f.digits.length : ℤ) ≤ f.dp

instance : Decidable f.IsInteger := inferInstanceAs (Decidable (_ ≤ _))

/-- The integer in plain decimal digits. -/
def plain : List Char := f.fmtF 0

/-! ### The characters -/

/-- A sign or a decimal digit. -/
def IsPlain (c : Char) : Prop := c = '-' ∨ ∃ d < 10, c = digitChar d

theorem isPlain_zero : IsPlain '0' := .inr ⟨0, by omega, rfl⟩

variable {f}

theorem isPlain_sign {c : Char} (h : c ∈ f.sign) : IsPlain c := by
  unfold sign at h
  split at h
  · exact .inl (List.mem_singleton.1 h)
  · cases h

theorem isPlain_digit (j : ℕ) : IsPlain (f.digit j) := by
  refine .inr ⟨f.digits.getD j 0, ?_, rfl⟩
  rw [List.getD_eq_getElem?_getD]
  cases h : f.digits[j]? with
  | none => exact Nat.zero_lt_succ 9
  | some d => exact f.digits_lt d (List.mem_of_getElem? h)

theorem isPlain_plain {c : Char} (h : c ∈ f.plain) : IsPlain c := by
  simp only [plain, fmtF, lt_irrefl, if_false, List.append_nil, List.mem_append] at h
  rcases h with h | h
  · exact isPlain_sign h
  · split at h
    · obtain ⟨j, _, rfl⟩ := List.mem_map.1 h
      exact isPlain_digit j
    · rw [List.mem_singleton.1 h]
      exact isPlain_zero

theorem ne_of_isPlain {c : Char} (h : IsPlain c) : c ≠ 'e' ∧ c ≠ ' ' := by
  rcases h with rfl | ⟨d, hd, rfl⟩
  · decide
  · revert d
    decide

theorem mem_fmtE (prec : ℕ) : 'e' ∈ f.fmtE prec := by simp [fmtE]

theorem fmtF_ne_space {prec : ℕ} {c : Char} (h : c ∈ f.fmtF prec) : c ≠ ' ' := by
  have hplain := @isPlain_plain f
  simp only [plain, fmtF, lt_irrefl, if_false, List.append_nil] at hplain
  rcases List.mem_append.1 h with h | h
  · exact (ne_of_isPlain (hplain h)).2
  · split at h
    · rcases List.mem_cons.1 h with rfl | h
      · decide
      · obtain ⟨i, _, rfl⟩ := List.mem_map.1 h
        split
        · exact (ne_of_isPlain (isPlain_digit _)).2
        · decide
    · cases h

theorem fmtE_ne_space {prec : ℕ} {c : Char} (h : c ∈ f.fmtE prec) : c ≠ ' ' := by
  simp only [fmtE, List.append_assoc, List.mem_append, List.mem_cons, List.cons_append] at h
  rcases h with h | rfl | h | rfl | h
  · exact (ne_of_isPlain (isPlain_sign h)).2
  · exact (ne_of_isPlain (isPlain_digit 0)).2
  · split at h
    · rcases List.mem_cons.1 h with rfl | h
      · decide
      · obtain ⟨i, _, rfl⟩ := List.mem_map.1 h
        exact (ne_of_isPlain (isPlain_digit _)).2
    · cases h
  · decide
  · simp only [exponent, List.mem_cons, List.mem_append, List.mem_replicate, List.mem_map,
      List.mem_reverse] at h
    rcases h with rfl | ⟨_, rfl⟩ | ⟨d, hd, rfl⟩
    · split_ifs <;> decide
    · decide
    · exact (ne_of_isPlain (.inr ⟨d, Nat.digits_lt_base (by omega) hd, rfl⟩)).2

theorem fmtG_ne_space {c : Char} (h : c ∈ f.fmtG) : c ≠ ' ' := by
  unfold fmtG at h
  split at h
  · exact fmtE_ne_space h
  · exact fmtF_ne_space h

theorem mem_fmtG (h : 6 < f.dp) : 'e' ∈ f.fmtG := by
  have hexp : f.dp - 1 < -4 ∨ 6 ≤ f.dp - 1 := by omega
  rw [fmtG, if_pos hexp]
  exact mem_fmtE _

/-- An integer is printed in plain digits exactly below one million. -/
theorem fmtG_eq_plain_iff (h : f.IsInteger) : f.fmtG = f.plain ↔ f.dp ≤ 6 := by
  have hle : (f.digits.length : ℤ) ≤ f.dp := h
  constructor
  · intro heq
    by_contra hdp
    have hmem : 'e' ∈ f.plain := heq ▸ mem_fmtG (by omega)
    exact (ne_of_isPlain (isPlain_plain hmem)).1 rfl
  · intro hdp
    have hexp : ¬ (f.dp - 1 < -4 ∨ 6 ≤ f.dp - 1) := by omega
    have hprec : ((f.digits.length : ℤ) - f.dp).toNat = 0 := by omega
    rw [fmtG, if_neg hexp, hprec, plain]

end Decimal

end GoFloat
