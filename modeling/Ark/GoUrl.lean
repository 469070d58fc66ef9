import Ark.GoBytes

/-!
# Escaping in URLs

`url.QueryEscape` and the two ways in which an escaped text is read: in the query of a URL a plus sign
is a space, elsewhere it is a plus sign. An escaped text is read back exactly in the query, and with
plus signs for its spaces elsewhere; it holds no brace.
-/

namespace GoUrl

open GoBytes

def hexDigit (n : ℕ) : Char := Char.ofNat (if n < 10 then 48 + n else 55 + n)

def isUnreserved (n : ℕ) : Bool :=
  (48 ≤ n && n ≤ 57) || (65 ≤ n && n ≤ 90) || (97 ≤ n && n ≤ 122) || n == 45 || n == 46 ||
    n == 95 || n == 126

def escapeByte (b : UInt8) : List Char :=
  if b.toNat = 32 then ['+']
  else if isUnreserved b.toNat then [Char.ofNat b.toNat]
  else ['%', hexDigit (b.toNat / 16), hexDigit (b.toNat % 16)]

/-- `url.QueryEscape` on the bytes of a text. -/
def queryEscape (b : Bytes) : List Char := b.flatMap escapeByte

/-- The parts of a URL that its escapes are read in. -/
inductive Encoding
  | path
  | queryComponent
  | fragment
  deriving DecidableEq, Repr

def unhex (c : Char) : Option ℕ :=
  let n := c.toNat
  if 48 ≤ n ∧ n ≤ 57 then some (n - 48)
  else if 97 ≤ n ∧ n ≤ 102 then some (n - 87)
  else if 65 ≤ n ∧ n ≤ 70 then some (n - 55)
  else none

/-- What a plus sign stands for. -/
def Encoding.plus : Encoding → UInt8
  | .queryComponent => 32
  | _ => 43

/-- `unescape`. -/
def unescape (mode : Encoding) : List Char → Option Bytes
  | [] => some []
  | '%' :: h :: l :: t =>
    (unhex h).bind fun high => (unhex l).bind fun low =>
      (unescape mode t).map (UInt8.ofNat (16 * high + low) :: ·)
  | c :: t =>
    if c = '%' then none
    else if c = '+' then (unescape mode t).map (mode.plus :: ·)
    else (unescape mode t).map (String.utf8EncodeChar c ++ ·)

theorem unescape_cons {mode : Encoding} {c : Char} (h : c ≠ '%') (t : List Char) :
    unescape mode (c :: t) =
      if c = '+' then (unescape mode t).map (mode.plus :: ·)
      else (unescape mode t).map (String.utf8EncodeChar c ++ ·) := by
  rw [unescape, if_neg h]
  rintro h l t' rfl
  exact absurd rfl h

theorem unhex_hexDigit : ∀ n < 16, unhex (hexDigit n) = some n := by decide

theorem unreserved_char : ∀ n < 256, isUnreserved n = true →
    Char.ofNat n ≠ '%' ∧ Char.ofNat n ≠ '+' ∧ String.utf8EncodeChar (Char.ofNat n) = [UInt8.ofNat n] := by
  decide +kernel

/-- A byte as it is read back. -/
def Encoding.reads (mode : Encoding) (b : UInt8) : UInt8 := if b = 32 then mode.plus else b

theorem unescape_escapeByte (mode : Encoding) (b : UInt8) (t : List Char) :
    unescape mode (escapeByte b ++ t) = (unescape mode t).map (mode.reads b :: ·) := by
  have hb : b.toNat < 256 := b.toNat_lt
  have hback : UInt8.ofNat b.toNat = b := UInt8.ofNat_toNat
  by_cases hspace : b.toNat = 32
  · have h32 : b = 32 := by rw [← hback, hspace]; rfl
    rw [escapeByte, if_pos hspace, List.singleton_append, unescape_cons (by decide), if_pos rfl,
      Encoding.reads, if_pos h32]
  · have h32 : b ≠ 32 := by
      rintro rfl
      exact hspace rfl
    rw [Encoding.reads, if_neg h32]
    by_cases hplain : isUnreserved b.toNat = true
    · obtain ⟨hpercent, hplus, hutf8⟩ := unreserved_char b.toNat hb hplain
      rw [escapeByte, if_neg hspace, if_pos hplain, List.singleton_append, unescape_cons hpercent,
        if_neg hplus, hutf8, hback]
      rfl
    · have hhigh : unhex (hexDigit (b.toNat / 16)) = some (b.toNat / 16) :=
        unhex_hexDigit _ (by omega)
      have hlow : unhex (hexDigit (b.toNat % 16)) = some (b.toNat % 16) :=
        unhex_hexDigit _ (by omega)
      have hsum : 16 * (b.toNat / 16) + b.toNat % 16 = b.toNat := by omega
      rw [escapeByte, if_neg hspace, if_neg hplain]
      simp only [List.cons_append, List.nil_append, unescape, hhigh, hlow, Option.bind_some, hsum,
        hback]

/-- An escaped text as it is read back. -/
theorem unescape_queryEscape (mode : Encoding) (b : Bytes) :
    unescape mode (queryEscape b) = some (b.map mode.reads) := by
  induction b with
  | nil => rfl
  | cons a b ih =>
    rw [queryEscape, List.flatMap_cons, unescape_escapeByte]
    change (unescape mode (queryEscape b)).map _ = _
    rw [ih]
    rfl

/-- It is read back exactly in the query, and elsewhere if it holds no space. -/
theorem unescape_queryEscape_eq_iff {mode : Encoding} {b : Bytes} :
    unescape mode (queryEscape b) = some b ↔ mode = .queryComponent ∨ 32 ∉ b := by
  rw [unescape_queryEscape, Option.some_inj]
  have hself : b.map mode.reads = b ↔ ∀ a ∈ b, mode.reads a = a := by
    conv_lhs => rhs; rw [← List.map_id b]
    exact List.map_inj_left
  rw [hself]
  constructor
  · intro h
    cases mode with
    | queryComponent => exact .inl rfl
    | path => exact .inr fun hmem => absurd (h 32 hmem) (by decide)
    | fragment => exact .inr fun hmem => absurd (h 32 hmem) (by decide)
  · rintro (rfl | h) a ha
    · unfold Encoding.reads
      split
      next h32 => exact h32.symm
      next => rfl
    · have h32 : a ≠ 32 := by
        rintro rfl
        exact h ha
      exact if_neg h32

theorem unreserved_ne_brace : isUnreserved 123 = false ∧ isUnreserved 125 = false := by decide

theorem hexDigit_ne_brace : ∀ n < 16, hexDigit n ≠ '{' ∧ hexDigit n ≠ '}' := by decide

theorem queryEscape_ne_brace {b : Bytes} {c : Char} (h : c ∈ queryEscape b) :
    c ≠ '{' ∧ c ≠ '}' := by
  obtain ⟨a, _, hc⟩ := List.mem_flatMap.1 h
  have ha : a.toNat < 256 := a.toNat_lt
  unfold escapeByte at hc
  split_ifs at hc with hspace hplain
  · rw [List.mem_singleton.1 hc]
    decide
  · -- the bytes of the braces are escaped
    have hvalid : a.toNat.isValidChar := .inl (by omega)
    have hchar : c.toNat = a.toNat := by
      rw [List.mem_singleton.1 hc, Char.ofNat, dif_pos hvalid]
      rfl
    constructor
    · rintro rfl
      rw [← hchar] at hplain
      exact absurd (unreserved_ne_brace.1.symm.trans hplain) (by decide)
    · rintro rfl
      rw [← hchar] at hplain
      exact absurd (unreserved_ne_brace.2.symm.trans hplain) (by decide)
  · rcases List.mem_cons.1 hc with rfl | hc
    · decide
    rcases List.mem_cons.1 hc with rfl | hc
    · exact hexDigit_ne_brace _ (by omega)
    · rw [List.mem_singleton.1 hc]
      exact hexDigit_ne_brace _ (by omega)

end GoUrl
