import Mathlib.Data.Nat.Notation
import Mathlib.Data.List.Basic

/-!
# Durations as text

`Duration.String` and `time.ParseDuration` on durations of 64 bits, in nanoseconds. A fraction is
scaled in floating point when it is read; a `Scaling` is any way to do it that is exact where the
result is a whole number of at most 53 bits. Every duration is read back from its text.
-/

namespace GoTime

/-! ### Writing -/

def fmtInt (n : ℕ) : List Char := Nat.toDigits 10 n

def fmtFracLoop : ℕ → ℕ → Bool → List Char → List Char × ℕ × Bool
  | 0, v, print, tail => (tail, v, print)
  | n + 1, v, print, tail =>
    let digit := v % 10
    let print := print || digit != 0
    fmtFracLoop n (v / 10) print (if print then digit.digitChar :: tail else tail)

/-- The fraction of `v` by the `prec`-th power of ten without trailing zeros, and the quotient. -/
def fmtFrac (v prec : ℕ) : List Char × ℕ :=
  let (tail, v, print) := fmtFracLoop prec v false []
  (if print then '.' :: tail else tail, v)

def formatSmall (u prec : ℕ) (unit : List Char) : List Char :=
  let (fraction, n) := fmtFrac u prec
  fmtInt n ++ fraction ++ unit

def formatSeconds (u : ℕ) : List Char :=
  let (fraction, seconds) := fmtFrac u 9
  let minutes := seconds / 60
  let hours := minutes / 60
  (if 0 < hours then fmtInt hours ++ ['h'] else []) ++
    ((if 0 < minutes then fmtInt (minutes % 60) ++ ['m'] else []) ++
      (fmtInt (seconds % 60) ++ fraction ++ ['s']))

/-- The text of an absolute value. -/
def formatAbs (u : ℕ) : List Char :=
  if u < 1000000000 then
    if u = 0 then ['0', 's']
    else if u < 1000 then formatSmall u 0 ['n', 's']
    else if u < 1000000 then formatSmall u 3 ['µ', 's']
    else formatSmall u 6 ['m', 's']
  else formatSeconds u

def durationString (d : Int) : String :=
  String.ofList (if d < 0 then '-' :: formatAbs d.natAbs else formatAbs d.natAbs)

/-! ### Reading -/

/-- `uint64(float64(f) * (float64(unit) / scale))`. -/
structure Scaling where
  scaled : (f unit scale : ℕ) → ℕ
  exact : ∀ f unit scale, scale ∣ unit → unit < 9007199254740992 →
    f * (unit / scale) < 9007199254740992 → scaled f unit scale = f * (unit / scale)

def leadingInt : ℕ → List Char → Option (ℕ × List Char)
  | x, [] => some (x, [])
  | x, c :: cs =>
    if c.isDigit then
      if 9223372036854775808 / 10 < x then none
      else
        let x := 10 * x + (c.toNat - 48)
        if 9223372036854775808 < x then none else leadingInt x cs
    else some (x, c :: cs)

/-- The digits after a point with their scale; those that do not fit any more are skipped. -/
def leadingFraction : ℕ → ℕ → Bool → List Char → ℕ × ℕ × List Char
  | x, scale, _, [] => (x, scale, [])
  | x, scale, overflow, c :: cs =>
    if c.isDigit then
      let y := 10 * x + (c.toNat - 48)
      if overflow ∨ 9223372036854775807 / 10 < x ∨ 9223372036854775808 < y then
        leadingFraction x scale true cs
      else leadingFraction y (10 * scale) false cs
    else (x, scale, c :: cs)

def hour : ℕ := 3600000000000

def minute : ℕ := 60000000000

def second : ℕ := 1000000000

/-- The two letters for micro are the micro sign and the Greek letter. -/
def unitMap : List Char → Option ℕ
  | ['n', 's'] => some 1
  | ['u', 's'] => some 1000
  | ['µ', 's'] => some 1000
  | ['μ', 's'] => some 1000
  | ['m', 's'] => some 1000000
  | ['s'] => some second
  | ['m'] => some minute
  | ['h'] => some hour
  | _ => none

def isUnitChar (c : Char) : Bool := c != '.' && !c.isDigit

def quoteByte (b : UInt8) : List Char :=
  ['\\', 'x', (b.toNat / 16).digitChar, (b.toNat % 16).digitChar]

def quoteChar (c : Char) : List Char :=
  if 128 ≤ c.toNat ∨ c.toNat < 32 then (String.utf8EncodeChar c).flatMap quoteByte
  else if c = '"' ∨ c = '\\' then ['\\', c]
  else [c]

def quote (cs : List Char) : String := String.ofList ('"' :: cs.flatMap quoteChar ++ ['"'])

def invalidDuration {α : Type} (orig : List Char) : Except String α :=
  .error ("time: invalid duration " ++ quote orig)

/-- The digits of one part of a duration: before the point, after it with their scale, and the rest;
nothing if there are none. -/
def leadingNumber (cs : List Char) : Option (ℕ × ℕ × ℕ × List Char) :=
  match leadingInt 0 cs with
  | none => none
  | some (v, rest) =>
    let fraction : (ℕ × ℕ × List Char) × Bool := match rest with
      | '.' :: t => (leadingFraction 0 1 false t, (leadingFraction 0 1 false t).2.2.length != t.length)
      | _ => ((0, 1, rest), false)
    if rest.length = cs.length ∧ fraction.2 = false then none
    else some (v, fraction.1.1, fraction.1.2.1, fraction.1.2.2)

/-- One part of a duration, and what follows it. -/
def parsePart (x : Scaling) (orig cs : List Char) : Except String (ℕ × List Char) :=
  match leadingNumber cs with
  | none => invalidDuration orig
  | some (v, f, scale, rest) =>
    let u := rest.takeWhile isUnitChar
    if u = [] then .error ("time: missing unit in duration " ++ quote orig)
    else match unitMap u with
      | none => .error ("time: unknown unit " ++ quote u ++ " in duration " ++ quote orig)
      | some unit =>
        let sum := v * unit + if 0 < f then x.scaled f unit scale else 0
        if 9223372036854775808 / unit < v ∨ 9223372036854775808 < sum then invalidDuration orig
        else .ok (sum, rest.dropWhile isUnitChar)

/-- The sum of the parts as a `uint64`; every part takes at least one character. -/
def parseParts (x : Scaling) (orig : List Char) : ℕ → List Char → ℕ → Except String ℕ
  | 0, _, d => .ok d
  | _ + 1, [], d => .ok d
  | fuel + 1, cs, d =>
    match parsePart x orig cs with
    | .error e => .error e
    | .ok (v, rest) =>
      let sum := (d + v) % 18446744073709551616
      if 9223372036854775808 < sum then invalidDuration orig else parseParts x orig fuel rest sum

def parseAbs (x : Scaling) (orig cs : List Char) (neg : Bool) : Except String Int :=
  if cs = ['0'] then .ok 0
  else if cs = [] then invalidDuration orig
  else match parseParts x orig (cs.length + 1) cs 0 with
    | .error e => .error e
    | .ok d =>
      if neg then .ok (-(d : Int))
      else if 9223372036854775807 < d then invalidDuration orig
      else .ok d

def parseDuration (x : Scaling) (s : String) : Except String Int :=
  match s.toList with
  | '-' :: cs => parseAbs x s.toList cs true
  | '+' :: cs => parseAbs x s.toList cs false
  | cs => parseAbs x s.toList cs false

/-! ### Digits -/

def power (k : ℕ) : ℕ :=
  match k with
  | 0 => 1
  | k + 1 => 10 * power k

theorem power_pos (k : ℕ) : 0 < power k := by
  induction k with
  | zero => exact Nat.one_pos
  | succ k ih =>
    rw [power]
    omega

theorem power_add (j k : ℕ) : power (j + k) = power j * power k := by
  induction k with
  | zero => simp [power]
  | succ k ih => rw [← Nat.add_assoc, power, ih, power, Nat.mul_left_comm]

/-- The last `k` digits of a number. -/
def lastDigits : ℕ → ℕ → List Char
  | 0, _ => []
  | k + 1, v => lastDigits k (v / 10) ++ [(v % 10).digitChar]

theorem isDigit_digitChar_mod (v : ℕ) : (v % 10).digitChar.isDigit = true := by
  rw [Nat.isDigit_digitChar]
  exact decide_eq_true (Nat.mod_lt v (by omega))

theorem isDigit_of_mem_lastDigits {k v : ℕ} : ∀ c ∈ lastDigits k v, c.isDigit = true := by
  induction k generalizing v with
  | zero => simp [lastDigits]
  | succ k ih =>
    intro c hc
    rw [lastDigits, List.mem_append] at hc
    obtain hc | hc := hc
    · exact ih c hc
    · rw [List.mem_singleton.mp hc]
      exact isDigit_digitChar_mod v

theorem length_lastDigits (k v : ℕ) : (lastDigits k v).length = k := by
  induction k generalizing v with
  | zero => rfl
  | succ k ih => rw [lastDigits, List.length_append, ih, List.length_singleton]

theorem ofDigitChars_lastDigits (k v : ℕ) :
    Nat.ofDigitChars 10 (lastDigits k v) 0 = v % power k := by
  induction k generalizing v with
  | zero => simp [lastDigits, power, Nat.mod_one]
  | succ k ih =>
    rw [lastDigits, Nat.ofDigitChars_append, ih,
      Nat.ofDigitChars_cons_digitChar_of_lt_ten (Nat.mod_lt v (by omega)), Nat.ofDigitChars_nil,
      power, Nat.mod_mul]
    omega

/-! ### Fractions -/

theorem fmtFracLoop_printing (n v : ℕ) (tail : List Char) :
    fmtFracLoop n v true tail = (lastDigits n v ++ tail, v / power n, true) := by
  induction n generalizing v tail with
  | zero => simp [fmtFracLoop, lastDigits, power]
  | succ n ih =>
    simp only [fmtFracLoop, Bool.true_or, if_true, ih]
    rw [lastDigits, power, Nat.div_div_eq_div_mul, List.append_assoc, List.singleton_append]

/-- The loop leaves out the zeros at the end. -/
theorem fmtFracLoop_spec (n v : ℕ) :
    (v % power n = 0 ∧ fmtFracLoop n v false [] = ([], v / power n, false)) ∨
      ∃ j k, j + k = n ∧ 0 < k ∧ v % power j = 0 ∧
        fmtFracLoop n v false [] = (lastDigits k (v / power j), v / power n, true) := by
  induction n generalizing v with
  | zero => exact .inl (by simp [fmtFracLoop, power, Nat.mod_one])
  | succ n ih =>
    by_cases hdigit : v % 10 = 0
    · have hloop : fmtFracLoop (n + 1) v false [] = fmtFracLoop n (v / 10) false [] := by
        simp [fmtFracLoop, hdigit]
      rw [hloop]
      obtain ⟨hmod, hspec⟩ | ⟨j, k, hjk, hk, hmod, hspec⟩ := ih (v / 10)
      · refine .inl ⟨?_, ?_⟩
        · rw [power, Nat.mod_mul, hdigit, hmod]
        · rw [hspec, power, Nat.div_div_eq_div_mul]
      · refine .inr ⟨j + 1, k, by omega, hk, ?_, ?_⟩
        · rw [power, Nat.mod_mul, hdigit, hmod]
        · rw [hspec, power, power, Nat.div_div_eq_div_mul, Nat.div_div_eq_div_mul]
    · refine .inr ⟨0, n + 1, by omega, by omega, by simp [power, Nat.mod_one], ?_⟩
      have hprint : (v % 10 != 0) = true := by simpa using hdigit
      simp only [fmtFracLoop, Bool.false_or, hprint, if_true, fmtFracLoop_printing]
      rw [lastDigits, power, power, Nat.div_one, Nat.div_div_eq_div_mul]

/-- A fraction is written as nothing, or as digits that stand for it. -/
theorem fmtFrac_spec (v prec : ℕ) :
    (fmtFrac v prec).2 = v / power prec ∧
      ((v % power prec = 0 ∧ (fmtFrac v prec).1 = []) ∨
        ∃ j k m, j + k = prec ∧ 0 < k ∧ m % power k * power j = v % power prec ∧
          (fmtFrac v prec).1 = '.' :: lastDigits k m) := by
  obtain ⟨hmod, hspec⟩ | ⟨j, k, rfl, hk, hmod, hspec⟩ := fmtFracLoop_spec prec v
  · simp [fmtFrac, hspec, hmod]
  · simp only [fmtFrac, hspec, if_true, true_and]
    refine .inr ⟨j, k, v / power j, rfl, hk, ?_, rfl⟩
    rw [power_add, Nat.mod_mul, hmod, Nat.zero_add, Nat.mul_comm]

/-! ### One part -/

/-- What follows does not go on with a digit. -/
def NoDigit (cs : List Char) : Prop := ∀ c ∈ cs.head?, c.isDigit = false

theorem le_ofDigitChars (ds : List Char) (x : ℕ) : x ≤ Nat.ofDigitChars 10 ds x := by
  induction ds generalizing x with
  | nil => exact Nat.le_of_eq Nat.ofDigitChars_nil.symm
  | cons c ds ih =>
    rw [Nat.ofDigitChars_cons]
    exact Nat.le_trans (by omega) (ih _)

theorem leadingInt_of_noDigit {cs : List Char} (h : NoDigit cs) (x : ℕ) :
    leadingInt x cs = some (x, cs) := by
  cases cs with
  | nil => rfl
  | cons c cs => simp [leadingInt, h c rfl]

theorem leadingInt_append {ds rest : List Char} (hds : ∀ c ∈ ds, c.isDigit = true)
    (hrest : NoDigit rest) {x : ℕ} (hx : Nat.ofDigitChars 10 ds x ≤ 9223372036854775808) :
    leadingInt x (ds ++ rest) = some (Nat.ofDigitChars 10 ds x, rest) := by
  induction ds generalizing x with
  | nil => exact leadingInt_of_noDigit hrest x
  | cons c ds ih =>
    rw [Nat.ofDigitChars_cons] at hx ⊢
    have hle := le_ofDigitChars ds (10 * x + (c.toNat - '0'.toNat))
    have hzero : '0'.toNat = 48 := rfl
    rw [hzero] at hx hle ⊢
    rw [List.cons_append, leadingInt, if_pos (hds c List.mem_cons_self), if_neg (by omega)]
    dsimp only
    rw [if_neg (by omega)]
    exact ih (fun c hc => hds c (List.mem_cons_of_mem _ hc)) hx

theorem leadingFraction_of_noDigit {cs : List Char} (h : NoDigit cs) (x scale : ℕ) :
    leadingFraction x scale false cs = (x, scale, cs) := by
  cases cs with
  | nil => rfl
  | cons c cs => simp [leadingFraction, h c rfl]

theorem leadingFraction_append {ds rest : List Char} (hds : ∀ c ∈ ds, c.isDigit = true)
    (hrest : NoDigit rest) {x scale : ℕ} (hx : Nat.ofDigitChars 10 ds x ≤ 9223372036854775807) :
    leadingFraction x scale false (ds ++ rest) =
      (Nat.ofDigitChars 10 ds x, power ds.length * scale, rest) := by
  induction ds generalizing x scale with
  | nil =>
    rw [List.length_nil, power, Nat.one_mul]
    exact leadingFraction_of_noDigit hrest x scale
  | cons c ds ih =>
    rw [Nat.ofDigitChars_cons] at hx ⊢
    have hle := le_ofDigitChars ds (10 * x + (c.toNat - '0'.toNat))
    have hzero : '0'.toNat = 48 := rfl
    rw [hzero] at hx hle ⊢
    rw [List.cons_append, leadingFraction, if_pos (hds c List.mem_cons_self)]
    dsimp only
    rw [if_neg (by simp only [Bool.false_eq_true, false_or]; omega),
      ih (fun c hc => hds c (List.mem_cons_of_mem _ hc)) hx, List.length_cons, power]
    congr 2
    rw [Nat.mul_left_comm, ← Nat.mul_assoc]

theorem isDigit_of_mem_fmtInt {n : ℕ} : ∀ c ∈ fmtInt n, c.isDigit = true :=
  fun _ => Nat.isDigit_of_mem_toDigits (by omega) (by omega)

theorem leadingInt_fmtInt {n : ℕ} {rest : List Char} (hrest : NoDigit rest)
    (hn : n ≤ 9223372036854775808) : leadingInt 0 (fmtInt n ++ rest) = some (n, rest) := by
  have hvalue : Nat.ofDigitChars 10 (fmtInt n) 0 = n := Nat.ofDigitChars_ten_toDigits
  rw [leadingInt_append isDigit_of_mem_fmtInt hrest (by rwa [hvalue]), hvalue]

theorem length_fmtInt_append (n : ℕ) (rest : List Char) :
    rest.length ≠ (fmtInt n ++ rest).length := by
  have hpos : 0 < (fmtInt n).length := Nat.length_toDigits_pos
  rw [List.length_append]
  omega

theorem leadingNumber_fmtInt {n : ℕ} {rest : List Char} (hrest : NoDigit rest)
    (hpoint : ∀ t, rest ≠ '.' :: t) (hn : n ≤ 9223372036854775808) :
    leadingNumber (fmtInt n ++ rest) = some (n, 0, 1, rest) := by
  rw [leadingNumber, leadingInt_fmtInt hrest hn]
  dsimp only
  split
  next t => exact absurd rfl (hpoint t)
  next => rw [if_neg fun h => length_fmtInt_append n rest h.1]

theorem leadingNumber_fraction {n k m : ℕ} {rest : List Char} (hrest : NoDigit rest)
    (hn : n ≤ 9223372036854775808) (hm : m % power k ≤ 9223372036854775807) :
    leadingNumber (fmtInt n ++ '.' :: lastDigits k m ++ rest) =
      some (n, m % power k, power k, rest) := by
  have hpoint : NoDigit ('.' :: (lastDigits k m ++ rest)) := by
    intro c hc
    obtain rfl := Option.some.inj hc
    rfl
  have hfraction : leadingFraction 0 1 false (lastDigits k m ++ rest) =
      (m % power k, power k, rest) := by
    rw [leadingFraction_append isDigit_of_mem_lastDigits hrest
      (by rwa [ofDigitChars_lastDigits]), ofDigitChars_lastDigits, length_lastDigits, Nat.mul_one]
  rw [List.append_assoc, List.cons_append, leadingNumber, leadingInt_fmtInt hpoint hn]
  simp only [hfraction]
  rw [if_neg fun h => length_fmtInt_append n _ h.1]

/-- A unit is known and is followed by nothing or by a digit. -/
structure UnitText (u rest : List Char) (unit : ℕ) : Prop where
  known : unitMap u = some unit
  chars : u.all isUnitChar = true
  stops : ∀ c ∈ rest.head?, isUnitChar c = false

namespace UnitText

variable {u rest : List Char} {unit : ℕ}

theorem ne_nil (h : UnitText u rest unit) : u ≠ [] := by
  rintro rfl
  cases h.known

theorem span (h : UnitText u rest unit) :
    (u ++ rest).takeWhile isUnitChar = u ∧ (u ++ rest).dropWhile isUnitChar = rest := by
  have hrest : rest.takeWhile isUnitChar = [] ∧ rest.dropWhile isUnitChar = rest := by
    cases rest with
    | nil => exact ⟨rfl, rfl⟩
    | cons c rest =>
      have hc := h.stops c rfl
      simp [hc]
  have hchars := List.all_eq_true.mp h.chars
  rw [List.takeWhile_append_of_pos hchars, List.dropWhile_append_of_pos hchars, hrest.1, hrest.2]
  simp

theorem noDigit (h : UnitText u rest unit) : NoDigit (u ++ rest) := by
  intro c hc
  obtain ⟨c', u', rfl⟩ := List.exists_cons_of_ne_nil h.ne_nil
  obtain rfl := Option.some.inj hc
  have hchar := List.all_eq_true.mp h.chars c' List.mem_cons_self
  simp only [isUnitChar, Bool.and_eq_true, Bool.not_eq_true'] at hchar
  exact hchar.2

theorem no_point (h : UnitText u rest unit) (t : List Char) : u ++ rest ≠ '.' :: t := by
  intro heq
  obtain ⟨c', u', rfl⟩ := List.exists_cons_of_ne_nil h.ne_nil
  have hchar := List.all_eq_true.mp h.chars c' List.mem_cons_self
  rw [(List.cons.inj heq).1] at hchar
  cases hchar

theorem pos (h : UnitText u rest unit) : 0 < unit := by
  have hknown := h.known
  unfold unitMap at hknown
  split at hknown <;> first | (obtain rfl := Option.some.inj hknown; decide) | cases hknown

/-- The part `n` with a unit and no fraction. -/
theorem parsePart_whole (h : UnitText u rest unit) {x : Scaling} {orig : List Char} {n : ℕ}
    (hn : n * unit ≤ 9223372036854775808) :
    parsePart x orig (fmtInt n ++ (u ++ rest)) = .ok (n * unit, rest) := by
  have hle : n ≤ 9223372036854775808 / unit := (Nat.le_div_iff_mul_le h.pos).mpr hn
  have hn' : n ≤ 9223372036854775808 := Nat.le_trans hle (Nat.div_le_self _ _)
  rw [parsePart, leadingNumber_fmtInt h.noDigit h.no_point hn']
  dsimp only
  rw [h.span.1, h.span.2, if_neg h.ne_nil, h.known]
  simp only [Nat.lt_irrefl, if_false, Nat.add_zero]
  rw [if_neg (by omega)]

/-- The part `n` with a fraction of its unit. -/
theorem parsePart_fraction (h : UnitText u rest unit) {x : Scaling} {orig : List Char} {n k m : ℕ}
    (hunit : unit < 9007199254740992) (hscale : power k ∣ unit)
    (hsum : n * unit + m % power k * (unit / power k) ≤ 9223372036854775808) :
    parsePart x orig (fmtInt n ++ '.' :: lastDigits k m ++ (u ++ rest)) =
      .ok (n * unit + m % power k * (unit / power k), rest) := by
  have hle : n ≤ 9223372036854775808 / unit := (Nat.le_div_iff_mul_le h.pos).mpr (by omega)
  have hn' : n ≤ 9223372036854775808 := Nat.le_trans hle (Nat.div_le_self _ _)
  have hlt : m % power k < power k := Nat.mod_lt m (power_pos k)
  have hpower : power k ≤ unit := Nat.le_of_dvd h.pos hscale
  have hscaled : m % power k * (unit / power k) < 9007199254740992 := by
    calc m % power k * (unit / power k) ≤ power k * (unit / power k) :=
          Nat.mul_le_mul_right _ (Nat.le_of_lt hlt)
      _ = unit := Nat.mul_div_cancel' hscale
      _ < 9007199254740992 := hunit
  have hvalue : (if 0 < m % power k then x.scaled (m % power k) unit (power k) else 0) =
      m % power k * (unit / power k) := by
    split
    next => exact x.exact _ _ _ hscale hunit hscaled
    next hzero => rw [Nat.eq_zero_of_not_pos hzero, Nat.zero_mul]
  rw [parsePart, leadingNumber_fraction h.noDigit hn' (by omega)]
  dsimp only
  rw [h.span.1, h.span.2, if_neg h.ne_nil, h.known]
  simp only [hvalue]
  rw [if_neg (by omega)]

end UnitText

/-! ### All parts -/

theorem parseParts_cons {x : Scaling} {orig cs rest : List Char} {v d fuel : ℕ}
    (hpart : parsePart x orig cs = .ok (v, rest)) (hsum : d + v ≤ 9223372036854775808) :
    parseParts x orig (fuel + 1) cs d = parseParts x orig fuel rest (d + v) := by
  cases cs with
  | nil => cases hpart
  | cons c cs =>
    have hmod : (d + v) % 18446744073709551616 = d + v := Nat.mod_eq_of_lt (by omega)
    simp only [parseParts, hpart, hmod]
    rw [if_neg (by omega)]

theorem parseParts_nil {x : Scaling} {orig : List Char} {d fuel : ℕ} :
    parseParts x orig fuel [] d = .ok d := by
  cases fuel <;> rfl

theorem stops_fmtInt (n : ℕ) (rest : List Char) :
    ∀ c ∈ (fmtInt n ++ rest).head?, isUnitChar c = false := by
  intro c hc
  obtain ⟨c', cs, hcs⟩ := List.exists_cons_of_ne_nil (Nat.toDigits_ne_nil (n := n) (b := 10))
  rw [fmtInt, hcs] at hc
  obtain rfl := Option.some.inj hc
  have hdigit : c'.isDigit = true :=
    isDigit_of_mem_fmtInt (n := n) c' (by rw [fmtInt, hcs]; exact List.mem_cons_self)
  simp [isUnitChar, hdigit]

theorem stops_nil : ∀ c ∈ ([] : List Char).head?, isUnitChar c = false := by
  intro c hc
  cases hc

section Parts

variable {x : Scaling} {orig : List Char}

/-- A part that is written with its fraction, in a unit of that many nanoseconds. -/
theorem parsePart_frac {u rest : List Char} {v n prec : ℕ} (h : UnitText u rest (power prec))
    (hunit : power prec < 9007199254740992)
    (hsum : n * power prec + v % power prec ≤ 9223372036854775808) :
    parsePart x orig (fmtInt n ++ (fmtFrac v prec).1 ++ (u ++ rest)) =
      .ok (n * power prec + v % power prec, rest) := by
  obtain ⟨-, ⟨hmod, hnil⟩ | ⟨j, k, m, rfl, hk, hm, htext⟩⟩ := fmtFrac_spec v prec
  · rw [hmod, Nat.add_zero] at hsum ⊢
    rw [hnil, List.append_nil]
    exact h.parsePart_whole hsum
  · have hdiv : power (j + k) / power k = power j := by
      rw [power_add]
      exact Nat.mul_div_cancel _ (power_pos k)
    rw [htext]
    rw [← hm, ← hdiv] at hsum ⊢
    exact h.parsePart_fraction hunit ⟨power j, by rw [power_add, Nat.mul_comm]⟩ hsum

theorem parseParts_small {unit : List Char} {u prec fuel : ℕ} (hu : u ≤ 9223372036854775808)
    (h : UnitText unit [] (power prec)) (hunit : power prec < 9007199254740992) :
    parseParts x orig (fuel + 1) (formatSmall u prec unit) 0 = .ok u := by
  have hsum : u / power prec * power prec + u % power prec = u := Nat.div_add_mod' u (power prec)
  have hpart : parsePart x orig (fmtInt (u / power prec) ++ (fmtFrac u prec).1 ++ (unit ++ [])) =
      .ok (u / power prec * power prec + u % power prec, []) :=
    parsePart_frac h hunit (by rwa [hsum])
  rw [hsum, List.append_nil] at hpart
  have htext : formatSmall u prec unit =
      fmtInt (u / power prec) ++ (fmtFrac u prec).1 ++ unit := by
    rw [formatSmall, ← (fmtFrac_spec u prec).1]
  rw [htext, parseParts_cons hpart (by omega), parseParts_nil, Nat.zero_add]

theorem unitText_s : UnitText ['s'] [] (power 9) := ⟨rfl, rfl, stops_nil⟩

theorem unitText_m {n : ℕ} {rest : List Char} : UnitText ['m'] (fmtInt n ++ rest) minute :=
  ⟨rfl, rfl, stops_fmtInt n rest⟩

theorem unitText_h {n : ℕ} {rest : List Char} : UnitText ['h'] (fmtInt n ++ rest) hour :=
  ⟨rfl, rfl, stops_fmtInt n rest⟩

/-- The seconds with their fraction are the last part. -/
theorem parseParts_seconds {u d seconds fuel : ℕ}
    (hsum : d + (seconds * second + u % second) ≤ 9223372036854775808) :
    parseParts x orig (fuel + 1) (fmtInt seconds ++ (fmtFrac u 9).1 ++ ['s']) d =
      .ok (d + (seconds * second + u % second)) := by
  have hpart : parsePart x orig (fmtInt seconds ++ (fmtFrac u 9).1 ++ (['s'] ++ [])) =
      .ok (seconds * second + u % second, []) :=
    parsePart_frac unitText_s (by decide)
      (show seconds * second + u % second ≤ _ by omega)
  exact (parseParts_cons hpart hsum).trans parseParts_nil

theorem parseParts_minutes {n d rest fuel : ℕ} {tail : List Char}
    (hsum : d + n * minute ≤ 9223372036854775808) :
    parseParts x orig (fuel + 1) (fmtInt n ++ ['m'] ++ (fmtInt rest ++ tail)) d =
      parseParts x orig fuel (fmtInt rest ++ tail) (d + n * minute) := by
  rw [List.append_assoc]
  exact parseParts_cons (unitText_m.parsePart_whole (by omega)) hsum

theorem parseParts_hours {n d rest fuel : ℕ} {tail : List Char}
    (hsum : d + n * hour ≤ 9223372036854775808) :
    parseParts x orig (fuel + 1) (fmtInt n ++ ['h'] ++ (fmtInt rest ++ tail)) d =
      parseParts x orig fuel (fmtInt rest ++ tail) (d + n * hour) := by
  rw [List.append_assoc]
  exact parseParts_cons (unitText_h.parsePart_whole (by omega)) hsum

theorem formatSeconds_eq (u : ℕ) : formatSeconds u =
    (if 0 < u / second / 60 / 60 then fmtInt (u / second / 60 / 60) ++ ['h'] else []) ++
      ((if 0 < u / second / 60 then fmtInt (u / second / 60 % 60) ++ ['m'] else []) ++
        (fmtInt (u / second % 60) ++ (fmtFrac u 9).1 ++ ['s'])) := by
  have hpower : power 9 = second := rfl
  rw [formatSeconds, ← hpower, ← (fmtFrac_spec u 9).1]

theorem sum_parts (u : ℕ) : u / second / 60 / 60 * hour + u / second / 60 % 60 * minute +
    u / second % 60 * second + u % second = u := by
  simp only [second, minute, hour]
  omega

theorem parseParts_formatSeconds {u fuel : ℕ} (hu : u ≤ 9223372036854775808) :
    parseParts x orig (fuel + 3) (formatSeconds u) 0 = .ok u := by
  have hsum := sum_parts u
  rw [formatSeconds_eq]
  by_cases hminutes : 0 < u / second / 60
  · by_cases hhours : 0 < u / second / 60 / 60
    · rw [if_pos hhours, if_pos hminutes, List.append_assoc (fmtInt (u / second / 60 % 60)),
        parseParts_hours (by omega), ← List.append_assoc (fmtInt (u / second / 60 % 60)),
        List.append_assoc (fmtInt (u / second % 60)), parseParts_minutes (by omega),
        ← List.append_assoc (fmtInt (u / second % 60)), parseParts_seconds (by omega)]
      congr 1
      omega
    · rw [Nat.eq_zero_of_not_pos hhours, Nat.zero_mul] at hsum
      rw [if_neg hhours, if_pos hminutes, List.nil_append,
        List.append_assoc (fmtInt (u / second % 60)), parseParts_minutes (by omega),
        ← List.append_assoc (fmtInt (u / second % 60)), parseParts_seconds (by omega)]
      congr 1
      omega
  · rw [Nat.eq_zero_of_not_pos hminutes, Nat.zero_div, Nat.zero_mod, Nat.zero_mul,
      Nat.zero_mul] at hsum
    rw [if_neg (by omega), if_neg hminutes, List.nil_append, List.nil_append,
      parseParts_seconds (by omega)]
    congr 1
    omega

theorem parseParts_formatAbs {u fuel : ℕ} (hu : u ≤ 9223372036854775808) :
    parseParts x orig (fuel + 3) (formatAbs u) 0 = .ok u := by
  unfold formatAbs
  split
  next =>
    split
    next hzero =>
      subst hzero
      exact @parseParts_small x orig ['s'] 0 9 (fuel + 2) hu unitText_s (by decide)
    next =>
      split
      next => exact parseParts_small hu ⟨rfl, rfl, stops_nil⟩ (by decide)
      next =>
        split
        next =>
          have hunit : UnitText ['µ', 's'] [] (power 3) := ⟨rfl, rfl, stops_nil⟩
          exact parseParts_small hu hunit (by decide)
        next =>
          have hunit : UnitText ['m', 's'] [] (power 6) := ⟨rfl, rfl, stops_nil⟩
          exact parseParts_small hu hunit (by decide)
  next => exact parseParts_formatSeconds hu

end Parts

/-- The text of an absolute value begins with a digit and is longer than its first number. -/
theorem formatAbs_eq (u : ℕ) : ∃ n rest, formatAbs u = fmtInt n ++ rest ∧ rest ≠ [] := by
  have hsmall : ∀ prec unit, unit ≠ [] → ∃ n rest, formatSmall u prec unit = fmtInt n ++ rest ∧
      rest ≠ [] := by
    intro prec unit hunit
    refine ⟨(fmtFrac u prec).2, (fmtFrac u prec).1 ++ unit, ?_, by simp [hunit]⟩
    exact List.append_assoc ..
  unfold formatAbs
  split
  next =>
    split
    next => exact ⟨0, ['s'], rfl, by simp⟩
    next =>
      split
      next => exact hsmall 0 _ (by simp)
      next =>
        split
        next => exact hsmall 3 _ (by simp)
        next => exact hsmall 6 _ (by simp)
  next =>
    rw [formatSeconds_eq]
    split
    next =>
      exact ⟨_, ['h'] ++ _, List.append_assoc .., by simp⟩
    next =>
      split
      next => exact ⟨_, ['m'] ++ _, List.append_assoc .., by simp⟩
      next =>
        refine ⟨u / second % 60, (fmtFrac u 9).1 ++ ['s'], ?_, by simp⟩
        rw [List.nil_append, List.nil_append, List.append_assoc]

theorem parseAbs_formatAbs {x : Scaling} {orig : List Char} {u : ℕ} {neg : Bool}
    (hu : u ≤ if neg then 9223372036854775808 else 9223372036854775807) :
    parseAbs x orig (formatAbs u) neg = .ok (if neg then -(u : Int) else u) := by
  obtain ⟨n, rest, htext, hrest⟩ := formatAbs_eq u
  have hlength : 2 ≤ (formatAbs u).length := by
    have hint : 0 < (fmtInt n).length := Nat.length_toDigits_pos
    have htail : 0 < rest.length := List.length_pos_of_ne_nil hrest
    rw [htext, List.length_append]
    omega
  have hzero : formatAbs u ≠ ['0'] := by
    intro heq
    rw [heq] at hlength
    exact absurd hlength (by decide)
  have hnil : formatAbs u ≠ [] := by
    intro heq
    rw [heq] at hlength
    exact absurd hlength (by decide)
  have hle : u ≤ 9223372036854775808 := by
    cases neg <;> simp at hu <;> omega
  obtain ⟨fuel, hfuel⟩ : ∃ fuel, (formatAbs u).length + 1 = fuel + 3 :=
    ⟨(formatAbs u).length - 2, by omega⟩
  rw [parseAbs, if_neg hzero, if_neg hnil, hfuel, parseParts_formatAbs hle]
  cases neg with
  | true => rfl
  | false =>
    simp only [Bool.false_eq_true, if_false] at hu ⊢
    rw [if_neg (by omega)]

/-- Every duration of 64 bits is read back from its text. -/
theorem parseDuration_durationString (x : Scaling) {d : Int}
    (h : -9223372036854775808 ≤ d ∧ d < 9223372036854775808) :
    parseDuration x (durationString d) = .ok d := by
  by_cases hneg : d < 0
  · rw [parseDuration, durationString, if_pos hneg, String.toList_ofList]
    change parseAbs x _ (formatAbs d.natAbs) true = .ok d
    rw [parseAbs_formatAbs (by simp only [if_true]; omega), if_pos rfl]
    congr 1
    omega
  · obtain ⟨n, rest, htext, -⟩ := formatAbs_eq d.natAbs
    obtain ⟨c, cs, hcs⟩ := List.exists_cons_of_ne_nil (Nat.toDigits_ne_nil (n := n) (b := 10))
    have hdigit : c.isDigit = true :=
      isDigit_of_mem_fmtInt (n := n) c (by rw [fmtInt, hcs]; exact List.mem_cons_self)
    have htext' : formatAbs d.natAbs = c :: (cs ++ rest) := by
      rw [htext, fmtInt, hcs, List.cons_append]
    have hminus : c ≠ '-' := by
      rintro rfl
      cases hdigit
    have hplus : c ≠ '+' := by
      rintro rfl
      cases hdigit
    have hresult : parseAbs x (formatAbs d.natAbs) (formatAbs d.natAbs) false = .ok d := by
      rw [parseAbs_formatAbs (by simp only [Bool.false_eq_true, if_false]; omega),
        if_neg Bool.false_ne_true]
      congr 1
      omega
    rw [parseDuration, durationString, if_neg hneg, String.toList_ofList]
    split
    next heq => exact absurd (List.cons.inj (htext'.symm.trans heq)).1 hminus
    next heq => exact absurd (List.cons.inj (htext'.symm.trans heq)).1 hplus
    next => exact hresult

end GoTime
