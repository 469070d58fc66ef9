import Ark.GoDuration

/-!
# Dates and times as text

The Gregorian calendar from the year 0 on. Instants are counted from the first midnight of that year,
in seconds when they are written and in nanoseconds when they are read. The writer is the layout of
RFC 3339 in UTC; the reader is `time.Parse` for that layout, which takes fractions, offsets and an hour
of one digit too. A written instant is read back up to the end of the year 9999.
-/

namespace CivilTime

open GoTime

/-! ### Spans one after the other -/

/-- The length of the first `i` spans. -/
def total (len : ℕ → ℕ) : ℕ → ℕ
  | 0 => 0
  | i + 1 => total len i + len i

/-- The span in which an offset lies, counted from span `i`, and the offset in it. -/
def locate (len : ℕ → ℕ) : ℕ → ℕ → ℕ → ℕ × ℕ
  | 0, i, n => (i, n)
  | fuel + 1, i, n => if n < len i then (i, n) else locate len fuel (i + 1) (n - len i)

variable (len : ℕ → ℕ)

theorem total_mono {i j : ℕ} (h : i ≤ j) : total len i ≤ total len j := by
  induction j with
  | zero =>
    obtain rfl := Nat.le_zero.mp h
    exact Nat.le_refl _
  | succ j ih =>
    obtain h | rfl := Nat.le_succ_iff.mp h
    · exact Nat.le_trans (ih h) (Nat.le_add_right _ _)
    · exact Nat.le_refl _

theorem locate_spec (fuel i n : ℕ) (h : total len i + n < total len (i + fuel)) :
    total len (locate len fuel i n).1 + (locate len fuel i n).2 = total len i + n ∧
      (locate len fuel i n).2 < len (locate len fuel i n).1 ∧
      (locate len fuel i n).1 < i + fuel := by
  induction fuel generalizing i n with
  | zero =>
    rw [Nat.add_zero] at h
    omega
  | succ fuel ih =>
    rw [locate]
    split
    next hlt => exact ⟨rfl, hlt, by omega⟩
    next hge =>
      have hsucc : total len (i + 1) = total len i + len i := rfl
      have hi : i + 1 + fuel = i + (fuel + 1) := by omega
      have hn := ih (i + 1) (n - len i) (by rw [hi]; omega)
      rw [hi] at hn
      refine ⟨?_, hn.2⟩
      rw [hn.1]
      omega

/-- Where an offset lies from the start. -/
theorem locate_zero (fuel n : ℕ) (h : n < total len fuel) :
    total len (locate len fuel 0 n).1 + (locate len fuel 0 n).2 = n ∧
      (locate len fuel 0 n).2 < len (locate len fuel 0 n).1 ∧ (locate len fuel 0 n).1 < fuel := by
  have hspec := locate_spec len fuel 0 n (by simpa [total] using h)
  simpa [total] using hspec

/-! ### The calendar -/

def isLeap (year : ℕ) : Bool := year % 4 = 0 && (year % 100 ≠ 0 || year % 400 = 0)

def yearLength (year : ℕ) : ℕ := if isLeap year then 366 else 365

/-- The days of a month, counted from 0. -/
def monthLength (year month : ℕ) : ℕ :=
  match month with
  | 1 => if isLeap year then 29 else 28
  | 3 => 30
  | 5 => 30
  | 8 => 30
  | 10 => 30
  | _ => 31

theorem total_monthLength (year : ℕ) : total (monthLength year) 12 = yearLength year := by
  unfold yearLength
  cases h : isLeap year with
  | false => simp [total, monthLength, h]
  | true => simp [total, monthLength, h]

theorem yearLength_ge (year : ℕ) : 365 ≤ yearLength year := by
  unfold yearLength
  split
  next => omega
  next => omega

theorem le_total_yearLength (year : ℕ) : 365 * year ≤ total yearLength year := by
  induction year with
  | zero => exact Nat.zero_le _
  | succ year ih =>
    have hlength := yearLength_ge year
    rw [total]
    omega

/-- A date; months and days are counted from 1. -/
structure Date where
  year : ℕ
  month : ℕ
  day : ℕ
  deriving DecidableEq, Repr

def Date.isValid (d : Date) : Bool :=
  1 ≤ d.month && d.month ≤ 12 && 1 ≤ d.day && d.day ≤ monthLength d.year (d.month - 1)

def Date.days (d : Date) : ℕ :=
  total yearLength d.year + total (monthLength d.year) (d.month - 1) + (d.day - 1)

def Date.ofDays (n : ℕ) : Date :=
  let year := locate yearLength (n / 365 + 1) 0 n
  let month := locate (monthLength year.1) 12 0 year.2
  ⟨year.1, month.1 + 1, month.2 + 1⟩

theorem Date.ofDays_spec (n : ℕ) : (Date.ofDays n).isValid = true ∧ (Date.ofDays n).days = n := by
  have hbound := le_total_yearLength (n / 365 + 1)
  have hyear := locate_zero yearLength (n / 365 + 1) n (by omega)
  let year := locate yearLength (n / 365 + 1) 0 n
  have hmonth := locate_zero (monthLength year.1) 12 year.2
    (by rw [total_monthLength]; exact hyear.2.1)
  let month := locate (monthLength year.1) 12 0 year.2
  have hdate : Date.ofDays n = ⟨year.1, month.1 + 1, month.2 + 1⟩ := rfl
  rw [hdate]
  constructor
  · simp only [Date.isValid, Nat.add_sub_cancel]
    have hday : month.2 + 1 ≤ monthLength year.1 month.1 := hmonth.2.1
    have htwelve : month.1 + 1 ≤ 12 := hmonth.2.2
    simp [hday, htwelve]
  · rw [Date.days]
    dsimp only
    rw [Nat.add_sub_cancel, Nat.add_sub_cancel, Nat.add_assoc, hmonth.1, hyear.1]

theorem Date.ofDays_year (n year : ℕ) (h : n < total yearLength year) : (Date.ofDays n).year < year := by
  apply Nat.lt_of_not_le
  intro hle
  have hdays := (Date.ofDays_spec n).2
  have hmono := total_mono yearLength hle
  rw [Date.days] at hdays
  omega

/-! ### Writing -/

/-- The first second of a year. -/
def yearStart (year : ℕ) : ℕ := 86400 * total yearLength year

def formatYear (year : ℕ) : List Char := if year < 10000 then lastDigits 4 year else fmtInt year

/-- `t.UTC().Format(time.RFC3339)`. -/
def formatRFC3339 (seconds : ℕ) : List Char :=
  let date := Date.ofDays (seconds / 86400)
  formatYear date.year ++ '-' :: (lastDigits 2 date.month ++ '-' :: (lastDigits 2 date.day ++
    'T' :: (lastDigits 2 (seconds % 86400 / 3600) ++ ':' :: (lastDigits 2 (seconds / 60 % 60) ++
      ':' :: (lastDigits 2 (seconds % 60) ++ ['Z'])))))

theorem isDigit_of_mem_formatYear {year : ℕ} : ∀ c ∈ formatYear year, c.isDigit = true := by
  unfold formatYear
  split
  next => exact isDigit_of_mem_lastDigits
  next => exact isDigit_of_mem_fmtInt

theorem mem_formatRFC3339 {seconds : ℕ} {c : Char} (h : c ∈ formatRFC3339 seconds) :
    c.isDigit = true ∨ c ∈ ['-', 'T', ':', 'Z'] := by
  simp only [formatRFC3339, List.mem_append, List.mem_cons, List.not_mem_nil, or_false] at h ⊢
  obtain h | rfl | h | rfl | h | rfl | h | rfl | h | rfl | h | rfl := h
  · exact .inl (isDigit_of_mem_formatYear c h)
  · simp
  · exact .inl (isDigit_of_mem_lastDigits c h)
  · simp
  · exact .inl (isDigit_of_mem_lastDigits c h)
  · simp
  · exact .inl (isDigit_of_mem_lastDigits c h)
  · simp
  · exact .inl (isDigit_of_mem_lastDigits c h)
  · simp
  · exact .inl (isDigit_of_mem_lastDigits c h)
  · simp

theorem formatRFC3339_ne_nil (seconds : ℕ) : formatRFC3339 seconds ≠ [] :=
  List.append_ne_nil_of_right_ne_nil _ (List.cons_ne_nil _ _)

/-! ### Reading -/

def skip (expected : Char) : List Char → Option (List Char)
  | [] => none
  | c :: rest => if c = expected then some rest else none

/-- A number of two digits, or of one where the width is not fixed. -/
def getnum (fixed : Bool) : List Char → Option (ℕ × List Char)
  | [] => none
  | [c] => if c.isDigit && !fixed then some (Nat.ofDigitChars 10 [c] 0, []) else none
  | c :: d :: rest =>
    if !c.isDigit then none
    else if d.isDigit then some (Nat.ofDigitChars 10 [c, d] 0, rest)
    else if fixed then none
    else some (Nat.ofDigitChars 10 [c] 0, d :: rest)

def longYear (cs : List Char) : Option (ℕ × List Char) :=
  let digits := cs.take 4
  if digits.length = 4 && digits.all Char.isDigit then some (Nat.ofDigitChars 10 digits 0, cs.drop 4)
  else none

/-- The nanoseconds of a fraction, of which nine digits count; a missing one is 0. -/
def fractionalSecond : List Char → ℕ × List Char
  | p :: d :: rest =>
    if (p = '.' || p = ',') && d.isDigit then
      let digits := ((d :: rest).takeWhile Char.isDigit).take 9
      (Nat.ofDigitChars 10 digits 0 * power (9 - digits.length), (d :: rest).dropWhile Char.isDigit)
    else (0, p :: d :: rest)
  | cs => (0, cs)

/-- The offset in seconds with which a text ends. -/
def zoneOffset : List Char → Option Int
  | ['Z'] => some 0
  | [sign, h, h', colon, m, m'] =>
    match getnum true [h, h'], getnum true [m, m'] with
    | some (hours, _), some (minutes, _) =>
      if colon = ':' && hours ≤ 24 && minutes ≤ 60 then
        if sign = '+' then some ((hours * 60 + minutes) * 60)
        else if sign = '-' then some (-((hours * 60 + minutes) * 60))
        else none
      else none
    | _, _ => none
  | _ => none

/-- `time.Parse(time.RFC3339, s)`, in nanoseconds. -/
def parseRFC3339 (cs : List Char) : Option Int := do
  let (year, cs) ← longYear cs
  let (month, cs) ← getnum true (← skip '-' cs)
  let (day, cs) ← getnum true (← skip '-' cs)
  let (hour, cs) ← getnum false (← skip 'T' cs)
  let (minute, cs) ← getnum true (← skip ':' cs)
  let (second, cs) ← getnum true (← skip ':' cs)
  let (nanosecond, cs) := fractionalSecond cs
  let offset ← zoneOffset cs
  let date : Date := ⟨year, month, day⟩
  if date.isValid && hour < 24 && minute < 60 && second < 60 then
    some ((date.days * 86400 + hour * 3600 + minute * 60 + second - offset) * 1000000000 + nanosecond)
  else none

/-! ### The round trip -/

theorem skip_cons (c : Char) (rest : List Char) : skip c (c :: rest) = some rest := if_pos rfl

theorem getnum_lastDigits (fixed : Bool) (n : ℕ) (rest : List Char) :
    getnum fixed (lastDigits 2 n ++ rest) = some (n % 100, rest) := by
  have hdigits := @isDigit_of_mem_lastDigits 2 n
  have hvalue := ofDigitChars_lastDigits 2 n
  simp only [lastDigits, List.nil_append, List.cons_append] at hdigits hvalue ⊢
  rw [getnum, if_neg (by simp [hdigits]), if_pos (by simp [hdigits]), hvalue]
  rfl

theorem longYear_lastDigits {year : ℕ} (h : year < 10000) (rest : List Char) :
    longYear (lastDigits 4 year ++ rest) = some (year, rest) := by
  have hlength := length_lastDigits 4 year
  have hdigits := @isDigit_of_mem_lastDigits 4 year
  have hvalue := ofDigitChars_lastDigits 4 year
  have htake : (lastDigits 4 year ++ rest).take 4 = lastDigits 4 year := List.take_left' hlength
  have hdrop : (lastDigits 4 year ++ rest).drop 4 = rest := List.drop_left' hlength
  have hmod : year % power 4 = year := Nat.mod_eq_of_lt h
  rw [longYear, htake, hdrop, hvalue, hmod, if_pos]
  simpa [hlength] using hdigits

theorem monthLength_le (year month : ℕ) : monthLength year month ≤ 31 := by
  unfold monthLength
  split
  next => split <;> omega
  all_goals omega

theorem Date.isValid_lt {d : Date} (h : d.isValid = true) : d.month < 100 ∧ d.day < 100 := by
  have hlength := monthLength_le d.year (d.month - 1)
  simp only [Date.isValid, Bool.and_eq_true, decide_eq_true_eq] at h
  omega

/-- A written instant is read back, up to the end of the year 9999. -/
theorem parse_format {seconds : ℕ} (h : seconds < yearStart 10000) :
    parseRFC3339 (formatRFC3339 seconds) = some ((seconds : Int) * 1000000000) := by
  rw [yearStart] at h
  have hdate := Date.ofDays_spec (seconds / 86400)
  have hyear := Date.ofDays_year (seconds / 86400) 10000 (by omega)
  have hlt := Date.isValid_lt hdate.1
  have hmonth := Nat.mod_eq_of_lt hlt.1
  have hday := Nat.mod_eq_of_lt hlt.2
  have hhour : seconds % 86400 / 3600 % 100 = seconds % 86400 / 3600 := by omega
  have hminute : seconds / 60 % 60 % 100 = seconds / 60 % 60 := by omega
  have hsecond : seconds % 60 % 100 = seconds % 60 := by omega
  have hzone : zoneOffset (fractionalSecond ['Z']).2 = some 0 := rfl
  have hfraction : (fractionalSecond ['Z']).1 = 0 := rfl
  have hwhole : seconds / 86400 * 86400 + seconds % 86400 / 3600 * 3600 +
      seconds / 60 % 60 * 60 + seconds % 60 = seconds := by omega
  simp only [formatRFC3339, parseRFC3339, formatYear, if_pos hyear, longYear_lastDigits hyear,
    skip_cons, getnum_lastDigits, Option.bind_eq_bind, Option.bind_some, hzone, hfraction, hmonth,
    hday, hhour, hminute, hsecond]
  rw [if_pos]
  · rw [hdate.2]
    exact congrArg some (by omega)
  · have hvalid := hdate.1
    simp only [hvalid, Bool.true_and, Bool.and_eq_true, decide_eq_true_eq]
    omega

end CivilTime
