import Ark.CivilTime

/-!
# Datetimes with and without a zone

The `datetime` of Python as `isoformat` writes it and `fromisoformat` reads it back: a clock that counts
microseconds and, unless it is naive, the minutes by which that clock is ahead of UTC.
-/

namespace CivilTime

open GoTime

/-- The minutes by which the clock of a zone is ahead of UTC, less than a day. -/
structure Zone where
  minutes : Int
  bounds : -1440 < minutes ∧ minutes < 1440
  deriving DecidableEq

def Zone.utc : Zone := ⟨0, by decide⟩

def microsecondsPerSecond : ℕ := 1000000

/-- A time on its own clock, from the year 1 to the end of the year 9999. -/
structure DateTime where
  clock : ℕ
  zone : Option Zone
  bounds : yearStart 1 * microsecondsPerSecond ≤ clock ∧
    clock < yearStart 10000 * microsecondsPerSecond
  deriving DecidableEq

namespace DateTime

/-- The instant of a time, which a naive one names in UTC. -/
def instant (t : DateTime) : Int :=
  t.clock - ((t.zone.map Zone.minutes).getD 0) * 60 * microsecondsPerSecond

/-- `t < u`; a naive time and one with a zone do not compare. -/
def before (t u : DateTime) : Except String Bool :=
  if t.zone.isSome = u.zone.isSome then .ok (t.instant < u.instant)
  else .error "can't compare offset-naive and offset-aware datetimes"

end DateTime

/-! ### Writing -/

def formatClock (seconds : ℕ) : List Char :=
  let date := Date.ofDays (seconds / 86400)
  lastDigits 4 date.year ++ '-' :: (lastDigits 2 date.month ++ '-' :: (lastDigits 2 date.day ++
    'T' :: (lastDigits 2 (seconds % 86400 / 3600) ++ ':' :: (lastDigits 2 (seconds / 60 % 60) ++
      ':' :: lastDigits 2 (seconds % 60)))))

def formatFraction (microseconds : ℕ) : List Char :=
  if microseconds = 0 then [] else '.' :: lastDigits 6 microseconds

def formatZone : Option Zone → List Char
  | none => []
  | some zone =>
    (if zone.minutes < 0 then '-' else '+') :: (lastDigits 2 (zone.minutes.natAbs / 60) ++
      ':' :: lastDigits 2 (zone.minutes.natAbs % 60))

def isoformat (t : DateTime) : List Char :=
  formatClock (t.clock / microsecondsPerSecond) ++ (formatFraction (t.clock % microsecondsPerSecond) ++
    formatZone t.zone)

/-! ### Reading -/

def parseClock (cs : List Char) : Option (ℕ × List Char) := do
  let (year, cs) ← longYear cs
  let (month, cs) ← getnum true (← skip '-' cs)
  let (day, cs) ← getnum true (← skip '-' cs)
  let (hour, cs) ← getnum true (← skip 'T' cs)
  let (minute, cs) ← getnum true (← skip ':' cs)
  let (second, cs) ← getnum true (← skip ':' cs)
  let date : Date := ⟨year, month, day⟩
  if date.isValid && hour < 24 && minute < 60 && second < 60 then
    some (date.days * 86400 + hour * 3600 + minute * 60 + second, cs)
  else none

def zoneOf (minutes : Int) : Option Zone :=
  if h : -1440 < minutes ∧ minutes < 1440 then some ⟨minutes, h⟩ else none

/-- The minutes of an offset with which a text ends. -/
def parseOffset (cs : List Char) : Option ℕ := do
  let (hours, cs) ← getnum true cs
  let (minutes, cs) ← getnum true (← skip ':' cs)
  if cs = [] then some (hours * 60 + minutes) else none

def parseZone : List Char → Option (Option Zone)
  | [] => some none
  | sign :: cs =>
    if sign = 'Z' then if cs = [] then some (some .utc) else none
    else if sign = '+' then (parseOffset cs).bind fun minutes => (zoneOf minutes).map some
    else if sign = '-' then (parseOffset cs).bind fun minutes => (zoneOf (-minutes)).map some
    else none

/-- `datetime.fromisoformat` of a text with a date and seconds, in the extended format. -/
def fromisoformat (cs : List Char) : Option DateTime := do
  let (seconds, cs) ← parseClock cs
  let (nanoseconds, cs) := fractionalSecond cs
  let zone ← parseZone cs
  let clock := seconds * microsecondsPerSecond + nanoseconds / 1000
  if h : yearStart 1 * microsecondsPerSecond ≤ clock ∧
      clock < yearStart 10000 * microsecondsPerSecond then some ⟨clock, zone, h⟩
  else none

/-! ### The round trip -/

theorem parseClock_formatClock {seconds : ℕ} (h : seconds < yearStart 10000) (rest : List Char) :
    parseClock (formatClock seconds ++ rest) = some (seconds, rest) := by
  rw [yearStart] at h
  have hdate := Date.ofDays_spec (seconds / 86400)
  have hyear := Date.ofDays_year (seconds / 86400) 10000 (by omega)
  have hlt := Date.isValid_lt hdate.1
  have hmonth := Nat.mod_eq_of_lt hlt.1
  have hday := Nat.mod_eq_of_lt hlt.2
  have hhour : seconds % 86400 / 3600 % 100 = seconds % 86400 / 3600 := by omega
  have hminute : seconds / 60 % 60 % 100 = seconds / 60 % 60 := by omega
  have hsecond : seconds % 60 % 100 = seconds % 60 := by omega
  have hwhole : seconds / 86400 * 86400 + seconds % 86400 / 3600 * 3600 +
      seconds / 60 % 60 * 60 + seconds % 60 = seconds := by omega
  simp only [formatClock, parseClock, List.append_assoc, List.cons_append,
    longYear_lastDigits hyear, skip_cons, getnum_lastDigits, Option.bind_eq_bind, Option.bind_some,
    hmonth, hday, hhour, hminute, hsecond]
  rw [if_pos, hdate.2, hwhole]
  have hvalid := hdate.1
  simp only [hvalid, Bool.true_and, Bool.and_eq_true, decide_eq_true_eq]
  omega

theorem zoneOf_minutes (zone : Zone) : zoneOf zone.minutes = some zone := dif_pos zone.bounds

theorem parseOffset_lastDigits {minutes : ℕ} (h : minutes < 1440) :
    parseOffset (lastDigits 2 (minutes / 60) ++ ':' :: lastDigits 2 (minutes % 60)) = some minutes := by
  have hhours : minutes / 60 % 100 = minutes / 60 := by omega
  have hminutes : minutes % 60 % 100 = minutes % 60 := by omega
  have hend := getnum_lastDigits true (minutes % 60) []
  rw [List.append_nil] at hend
  simp only [parseOffset, getnum_lastDigits, hend, skip_cons, Option.bind_eq_bind, Option.bind_some,
    if_true, hhours, hminutes]
  exact congrArg some (by omega)

theorem parseZone_formatZone (zone : Option Zone) : parseZone (formatZone zone) = some zone := by
  cases zone with
  | none => rfl
  | some zone =>
    obtain ⟨hfrom, hto⟩ := zone.bounds
    have hoffset := @parseOffset_lastDigits zone.minutes.natAbs (by omega)
    by_cases hneg : zone.minutes < 0
    · have habs : -(zone.minutes.natAbs : Int) = zone.minutes := by omega
      rw [formatZone, if_pos hneg, parseZone, if_neg (by decide), if_neg (by decide),
        if_pos rfl, hoffset, Option.bind_some, habs, zoneOf_minutes, Option.map_some]
    · have habs : (zone.minutes.natAbs : Int) = zone.minutes := by omega
      rw [formatZone, if_neg hneg, parseZone, if_neg (by decide), if_pos rfl, hoffset,
        Option.bind_some, habs, zoneOf_minutes, Option.map_some]

theorem fractionalSecond_of_ne {c : Char} (hpoint : c ≠ '.') (hcomma : c ≠ ',') (cs : List Char) :
    fractionalSecond (c :: cs) = (0, c :: cs) := by
  cases cs with
  | nil => rfl
  | cons d cs =>
    rw [fractionalSecond, if_neg]
    simp [hpoint, hcomma]

theorem fractionalSecond_formatZone (zone : Option Zone) :
    fractionalSecond (formatZone zone) = (0, formatZone zone) := by
  cases zone with
  | none => rfl
  | some zone =>
    rw [formatZone]
    split
    next => exact fractionalSecond_of_ne (by decide) (by decide) _
    next => exact fractionalSecond_of_ne (by decide) (by decide) _

theorem span_formatZone (digits : List Char) (hdigits : ∀ c ∈ digits, c.isDigit = true)
    (zone : Option Zone) : (digits ++ formatZone zone).takeWhile Char.isDigit = digits ∧
      (digits ++ formatZone zone).dropWhile Char.isDigit = formatZone zone := by
  have hend : (formatZone zone).takeWhile Char.isDigit = [] ∧
      (formatZone zone).dropWhile Char.isDigit = formatZone zone := by
    cases zone with
    | none => exact ⟨rfl, rfl⟩
    | some zone =>
      rw [formatZone]
      split
      next => exact ⟨rfl, rfl⟩
      next => exact ⟨rfl, rfl⟩
  rw [List.takeWhile_append_of_pos hdigits, List.dropWhile_append_of_pos hdigits, hend.1, hend.2,
    List.append_nil]
  exact ⟨rfl, rfl⟩

theorem fractionalSecond_formatFraction {microseconds : ℕ} (h : microseconds < microsecondsPerSecond)
    (zone : Option Zone) : fractionalSecond (formatFraction microseconds ++ formatZone zone) =
      (microseconds * 1000, formatZone zone) := by
  unfold formatFraction
  split
  next hzero => rw [hzero, List.nil_append, Nat.zero_mul, fractionalSecond_formatZone]
  next =>
    have hdigits := @isDigit_of_mem_lastDigits 6 microseconds
    have hlength := length_lastDigits 6 microseconds
    have hvalue := ofDigitChars_lastDigits 6 microseconds
    obtain ⟨htake, hdrop⟩ := span_formatZone (lastDigits 6 microseconds) hdigits zone
    have hmod : microseconds % power 6 = microseconds := Nat.mod_eq_of_lt h
    have hfull : (lastDigits 6 microseconds).take 9 = lastDigits 6 microseconds :=
      List.take_of_length_le (by omega)
    cases hcons : lastDigits 6 microseconds with
    | nil =>
      rw [hcons] at hlength
      simp at hlength
    | cons d rest =>
      have hd : d.isDigit = true := hdigits d (by simp [hcons])
      rw [hcons] at htake hdrop hfull hvalue hlength
      rw [List.cons_append] at htake hdrop
      rw [List.cons_append, List.cons_append, fractionalSecond, if_pos (by simp [hd])]
      dsimp only
      rw [htake, hdrop, hfull, hvalue, hlength, hmod]
      rfl

/-- Every time that is written is read back. -/
theorem fromisoformat_isoformat (t : DateTime) : fromisoformat (isoformat t) = some t := by
  obtain ⟨clock, zone, hfrom, hto⟩ := t
  have hseconds : clock / microsecondsPerSecond < yearStart 10000 := Nat.div_lt_of_lt_mul (by
    rwa [Nat.mul_comm])
  have hfraction : clock % microsecondsPerSecond < microsecondsPerSecond :=
    Nat.mod_lt _ (by decide)
  have hclock : clock / microsecondsPerSecond * microsecondsPerSecond +
      clock % microsecondsPerSecond * 1000 / 1000 = clock := by
    rw [Nat.mul_div_cancel _ (by decide), Nat.div_add_mod']
  simp only [fromisoformat, isoformat, parseClock_formatClock hseconds, Option.bind_eq_bind,
    Option.bind_some, fractionalSecond_formatFraction hfraction, parseZone_formatZone, hclock]
  exact dif_pos ⟨hfrom, hto⟩

/-- A time is written with digits and five other signs. -/
theorem mem_isoformat {t : DateTime} {c : Char} (h : c ∈ isoformat t) :
    c.isDigit = true ∨ c ∈ ['-', 'T', ':', '.', '+'] := by
  have hdigits {k n : ℕ} (h : c ∈ lastDigits k n) :
      c.isDigit = true ∨ c ∈ ['-', 'T', ':', '.', '+'] := .inl (isDigit_of_mem_lastDigits c h)
  have hsign (h : c ∈ ['-', 'T', ':', '.', '+']) :
      c.isDigit = true ∨ c ∈ ['-', 'T', ':', '.', '+'] := .inr h
  obtain h | h := List.mem_append.mp h
  · simp only [formatClock, List.mem_append, List.mem_cons] at h
    obtain h | rfl | h | rfl | h | rfl | h | rfl | h | rfl | h := h
    · exact hdigits h
    · exact hsign (by decide)
    · exact hdigits h
    · exact hsign (by decide)
    · exact hdigits h
    · exact hsign (by decide)
    · exact hdigits h
    · exact hsign (by decide)
    · exact hdigits h
    · exact hsign (by decide)
    · exact hdigits h
  obtain h | h := List.mem_append.mp h
  · unfold formatFraction at h
    split at h
    next => cases h
    next =>
      obtain rfl | h := List.mem_cons.mp h
      · exact hsign (by decide)
      · exact hdigits h
  · unfold formatZone at h
    split at h
    next => cases h
    next zone =>
      simp only [List.mem_append, List.mem_cons] at h
      obtain rfl | h | rfl | h := h
      · apply hsign
        split <;> decide
      · exact hdigits h
      · exact hsign (by decide)
      · exact hdigits h

theorem isoformat_ne_nil (t : DateTime) : isoformat t ≠ [] :=
  List.append_ne_nil_of_left_ne_nil (List.append_ne_nil_of_right_ne_nil _ (List.cons_ne_nil _ _)) _

end CivilTime
