import Ark.SignedWords
import Ark.TaskPoll

/-!
# Retrying a tool call

The delay before the next attempt at an MCP tool call: the base delay shifted left by the attempt, cut
at the maximal delay, moved by a random draw within a quarter, and raised to what the server asked for
in its `Retry-After` header. Durations are nanoseconds in 64 bits, and neither the shift nor the
product of the seconds is checked for an overflow.
-/

namespace Ark.ToolRetry

open SignedWords
open A2A (atoi wrap64 second)

structure RetryConfig where
  maxAttempts : Int
  budget : Int
  baseDelay : Int
  maxDelay : Int

def defaultRetryConfig : RetryConfig where
  maxAttempts := 3
  budget := 30 * second
  baseDelay := 500000000
  maxDelay := 4 * second

namespace RetryConfig

def withDefaults (cfg : RetryConfig) : RetryConfig where
  maxAttempts := if cfg.maxAttempts ≤ 0 then defaultRetryConfig.maxAttempts else cfg.maxAttempts
  budget := if cfg.budget ≤ 0 then defaultRetryConfig.budget else cfg.budget
  baseDelay := if cfg.baseDelay ≤ 0 then defaultRetryConfig.baseDelay else cfg.baseDelay
  maxDelay := if cfg.maxDelay ≤ 0 then defaultRetryConfig.maxDelay else cfg.maxDelay

structure Positive (cfg : RetryConfig) : Prop where
  maxAttempts : 0 < cfg.maxAttempts
  budget : 0 < cfg.budget
  baseDelay : 0 < cfg.baseDelay
  maxDelay : 0 < cfg.maxDelay

theorem withDefaults_positive (cfg : RetryConfig) : cfg.withDefaults.Positive := by
  constructor <;> unfold withDefaults defaultRetryConfig second <;> dsimp only <;> split_ifs <;> omega

theorem Positive.withDefaults {cfg : RetryConfig} (h : cfg.Positive) : cfg.withDefaults = cfg := by
  obtain ⟨hattempts, hbudget, hbase, hmax⟩ := h
  unfold RetryConfig.withDefaults
  rw [if_neg (by omega), if_neg (by omega), if_neg (by omega), if_neg (by omega)]

end RetryConfig

/-- `x << n` on `int64`. -/
def shiftLeft64 (x : Int) (n : ℕ) : Int := if 64 ≤ n then 0 else wrap64 (x * 2 ^ n)

/-- The conversion of an `int` to `uint`. -/
def uint (n : Int) : ℕ := (n % 18446744073709551616).toNat

/-- `untilDate` is the time left until the date a header names, if it is one. -/
def parseRetryAfter (untilDate : String → Option Int) (header : String) : Int × Bool :=
  if header = "" then (0, false)
  else match atoi header with
    | some seconds => if seconds < 0 then (0, false) else (wrap64 (seconds * second), true)
    | none => match untilDate header with
      | some delay => if 0 < delay then (delay, true) else (0, false)
      | none => (0, false)

/-- `draw n` is the random number below `n`. -/
def toolCallBackoff (draw : Int → Int) (attempt : Int) (cfg : RetryConfig) (retryAfter : Int) : Int :=
  let delay := shiftLeft64 cfg.baseDelay (uint attempt)
  let delay := if delay ≤ 0 ∨ cfg.maxDelay < delay then cfg.maxDelay else delay
  let jitterRange := delay / 2
  let delay :=
    if 0 < jitterRange then wrap64 (delay + (draw jitterRange - jitterRange / 2)) else delay
  let floor := min retryAfter cfg.maxDelay
  if delay < floor then floor else delay

def IsDraw (draw : Int → Int) : Prop := ∀ n, 0 < n → 0 ≤ draw n ∧ draw n < n

/-! ### The shift -/

theorem shiftLeft64_eq (x : Int) (n : ℕ) : shiftLeft64 x n = wrap (2 ^ 63) (x * 2 ^ n) := by
  unfold shiftLeft64
  split_ifs with hn
  · have hdvd : (2 : Int) * 2 ^ 63 ∣ x * 2 ^ n := by
      have hpow : (2 : Int) ^ n = 2 ^ 64 * 2 ^ (n - 64) := by
        rw [← pow_add]
        congr 1
        omega
      rw [hpow]
      exact Dvd.intro (x * 2 ^ (n - 64)) (by ring)
    exact (wrap_eq_zero_of_dvd (by norm_num) hdvd).symm
  · rfl

/-- The delay before the jitter. -/
def cappedDelay (attempt : Int) (cfg : RetryConfig) : Int :=
  capped cfg.maxDelay (wrap (2 ^ 63) (cfg.baseDelay * 2 ^ uint attempt))

/-- The jitter moves a delay by at most a quarter, in 64 bits. -/
def jittered (draw : Int → Int) (delay : Int) : Int :=
  if 0 < delay / 2 then wrap (2 ^ 63) (delay + (draw (delay / 2) - delay / 2 / 2)) else delay

theorem toolCallBackoff_eq (draw : Int → Int) (attempt : Int) (cfg : RetryConfig) (retryAfter : Int) :
    toolCallBackoff draw attempt cfg retryAfter =
      max (jittered draw (cappedDelay attempt cfg)) (min retryAfter cfg.maxDelay) := by
  have hmax : ∀ delay floor : Int, (if delay < floor then floor else delay) = max delay floor := by
    intro delay floor
    split_ifs <;> omega
  unfold cappedDelay
  rw [← shiftLeft64_eq, ← hmax]
  rfl

theorem cappedDelay_pos {cfg : RetryConfig} (hcfg : cfg.Positive) (attempt : Int) :
    0 < cappedDelay attempt cfg :=
  capped_pos hcfg.maxDelay _

theorem cappedDelay_le (attempt : Int) (cfg : RetryConfig) : cappedDelay attempt cfg ≤ cfg.maxDelay :=
  capped_le _ _

/-! ### The jitter -/

/-- The longest delay that stays below `2 ^ 63` whatever is drawn, about 233 years. -/
def jitterLimit : Int := 7378697629483820646

theorem isDraw_lowest : IsDraw fun _ => 0 := fun _ hn => ⟨le_rfl, hn⟩

theorem isDraw_highest : IsDraw fun n => n - 1 := by
  intro n hn
  dsimp only
  omega

theorem jittered_of_fits {draw : Int → Int} (hdraw : IsDraw draw) {delay : Int} (hpos : 0 < delay)
    (hfits : delay ≤ jitterLimit) :
    delay - delay / 4 ≤ jittered draw delay ∧ jittered draw delay ≤ delay + delay / 4 := by
  unfold jittered
  unfold jitterLimit at hfits
  split_ifs with hrange
  · have hd := hdraw _ hrange
    rw [wrap_of_fits (by omega) (by omega)]
    omega
  · omega

theorem jittered_lowest {delay : Int} (hpos : 0 < delay) (hlt : delay < 2 ^ 63) :
    jittered (fun _ => 0) delay = delay - delay / 4 := by
  unfold jittered
  dsimp only
  split_ifs with hrange
  · rw [wrap_of_fits (by omega) (by omega)]
    omega
  · omega

/-- Beyond the limit the highest draw overflows to a negative delay. -/
theorem jittered_highest_neg {delay : Int} (hlimit : jitterLimit < delay) (hlt : delay < 2 ^ 63) :
    jittered (fun n => n - 1) delay < 0 := by
  unfold jitterLimit at hlimit
  unfold jittered
  dsimp only
  rw [if_pos (by omega), wrap_of_overflow (by omega) (by omega)]
  omega

/-! ### The delays -/

def exactDelay (attempt : Int) (cfg : RetryConfig) : Int :=
  min (cfg.baseDelay * 2 ^ attempt.toNat) cfg.maxDelay

theorem uint_of_nonneg {n : Int} (hlow : 0 ≤ n) (hhigh : n < 2 ^ 63) : uint n = n.toNat := by
  unfold uint
  rw [Int.emod_eq_of_lt hlow (by omega)]

theorem parseRetryAfter_empty (untilDate : String → Option Int) :
    parseRetryAfter untilDate "" = (0, false) := rfl

theorem parseRetryAfter_seconds (untilDate : String → Option Int) {header : String} {seconds : Int}
    (hatoi : atoi header = some seconds) (hsec : 0 ≤ seconds) :
    parseRetryAfter untilDate header = (wrap64 (seconds * second), true) := by
  have hne : header ≠ "" := by
    rintro rfl
    have hempty : atoi "" = none := by decide
    rw [hempty] at hatoi
    exact Option.some_ne_none seconds hatoi.symm
  unfold parseRetryAfter
  rw [if_neg hne, hatoi]
  exact if_neg (by omega)

theorem four_mul_abs_sub_le {x e : Int} :
    4 * |x - e| ≤ e ↔ 4 * (x - e) ≤ e ∧ 4 * (e - x) ≤ e := by
  rcases abs_cases (x - e) with ⟨habs, _⟩ | ⟨habs, _⟩ <;> rw [habs] <;> omega

/-- With a `Retry-After` of so many seconds, and without one, whatever is drawn. -/
def HonestDelays (untilDate : String → Option Int) (header : String) (seconds attempt : Int)
    (cfg : RetryConfig) : Prop :=
  ∀ draw, IsDraw draw →
    let delay := toolCallBackoff draw attempt cfg (parseRetryAfter untilDate header).1
    let bare := toolCallBackoff draw attempt cfg (parseRetryAfter untilDate "").1
    min (seconds * second) cfg.maxDelay ≤ delay ∧
      delay ≤ cfg.maxDelay + cfg.maxDelay / 4 ∧
      0 < delay ∧
      4 * |bare - exactDelay attempt cfg| ≤ exactDelay attempt cfg

/-- No overflow goes unnoticed: not the jitter's, not the shift's and not that of the seconds, which is
harmless only where what is left is above the maximal delay or where there is no jitter. -/
structure Unwrapped (seconds attempt : Int) (cfg : RetryConfig) : Prop where
  jitter : exactDelay attempt cfg ≤ jitterLimit
  shift : Caught (2 ^ 63) cfg.maxDelay (cfg.baseDelay * 2 ^ attempt.toNat)
  floor : seconds * second < 2 ^ 63 ∨
    (cfg.maxDelay ≤ seconds * second % 2 ^ 64 ∧ seconds * second % 2 ^ 64 < 2 ^ 63) ∨
    (cfg.maxDelay ≤ 3 ∧ cfg.maxDelay ≤ cfg.baseDelay * 2 ^ attempt.toNat)

section Delays

variable {cfg : RetryConfig} {attempt : Int} (hcfg : cfg.Positive) (hbase : cfg.baseDelay < 2 ^ 63)
  (hmax : cfg.maxDelay < 2 ^ 63) (hlow : 0 ≤ attempt) (hhigh : attempt < 2 ^ 63)

include hcfg

theorem product_pos (n : ℕ) : 0 < cfg.baseDelay * 2 ^ n :=
  mul_pos hcfg.baseDelay (by positivity)

theorem exactDelay_pos : 0 < exactDelay attempt cfg :=
  lt_min (product_pos hcfg _) hcfg.maxDelay

include hmax hlow hhigh

theorem cappedDelay_eq_exactDelay_iff :
    cappedDelay attempt cfg = exactDelay attempt cfg ↔
      Caught (2 ^ 63) cfg.maxDelay (cfg.baseDelay * 2 ^ attempt.toNat) := by
  unfold cappedDelay exactDelay
  rw [uint_of_nonneg hlow hhigh]
  exact capped_wrap_eq_min_iff hcfg.maxDelay hmax (product_pos hcfg _)

include hbase

/-- What a missed overflow of the shift leaves is even and below the maximal delay. -/
theorem cappedDelay_of_missed
    (hmiss : ¬Caught (2 ^ 63) cfg.maxDelay (cfg.baseDelay * 2 ^ attempt.toNat)) :
    cappedDelay attempt cfg < cfg.maxDelay ∧ cappedDelay attempt cfg % 2 = 0 ∧
      exactDelay attempt cfg = cfg.maxDelay := by
  have hlt : cappedDelay attempt cfg < cfg.maxDelay := by
    unfold cappedDelay
    rw [uint_of_nonneg hlow hhigh]
    exact capped_wrap_lt_of_not_caught hcfg.maxDelay hmax hmiss
  have hbig : 2 ^ 63 ≤ cfg.baseDelay * 2 ^ attempt.toNat :=
    not_lt.mp fun hfits => hmiss (caught_of_fits hfits)
  refine ⟨hlt, ?_, min_eq_right (hmax.le.trans hbig)⟩
  have heven : cfg.baseDelay * 2 ^ attempt.toNat % 2 = 0 := by
    cases hn : attempt.toNat with
    | zero =>
      rw [hn, pow_zero, mul_one] at hbig
      omega
    | succ n =>
      rw [pow_succ, ← mul_assoc]
      exact Int.mul_emod_left _ _
  unfold cappedDelay capped at hlt ⊢
  rw [uint_of_nonneg hlow hhigh] at hlt ⊢
  split_ifs at hlt ⊢ with hguard
  · omega
  · unfold wrap
    omega

end Delays

section Honest

variable {cfg : RetryConfig} {attempt : Int}

theorem toolCallBackoff_bare (untilDate : String → Option Int) (hcfg : cfg.Positive)
    (draw : Int → Int) :
    toolCallBackoff draw attempt cfg (parseRetryAfter untilDate "").1 =
      max (jittered draw (cappedDelay attempt cfg)) 0 := by
  rw [toolCallBackoff_eq, parseRetryAfter_empty, min_eq_left hcfg.maxDelay.le]

/-- The floor is that of the exact seconds, or what an overflow leaves is still above the cap. -/
theorem floor_eq_of_unwrapped {seconds : Int} (hcfg : cfg.Positive) (hmax : cfg.maxDelay < 2 ^ 63)
    (hsec : 0 ≤ seconds) :
    min (wrap64 (seconds * second)) cfg.maxDelay = min (seconds * second) cfg.maxDelay ↔
      seconds * second < 2 ^ 63 ∨
        (cfg.maxDelay ≤ seconds * second % 2 ^ 64 ∧ seconds * second % 2 ^ 64 < 2 ^ 63) := by
  have hpos := hcfg.maxDelay
  have hnonneg : 0 ≤ seconds * second := mul_nonneg hsec (by decide)
  generalize seconds * second = total at *
  have hwrap : wrap64 total =
      if total % 2 ^ 64 < 2 ^ 63 then total % 2 ^ 64 else total % 2 ^ 64 - 2 ^ 64 :=
    wrap_eq (by norm_num) total
  rw [hwrap]
  split_ifs <;> omega

variable (hbase : cfg.baseDelay < 2 ^ 63) (hmax : cfg.maxDelay < 2 ^ 63) (hlow : 0 ≤ attempt)
  (hhigh : attempt < 2 ^ 63)

include hbase hmax hlow hhigh

/-- The draws that show a missed overflow: the highest one for the jitter, the lowest one for the
shift. -/
theorem exact_of_quarter (untilDate : String → Option Int) (hcfg : cfg.Positive)
    (hquarter : ∀ draw, IsDraw draw →
      4 * |toolCallBackoff draw attempt cfg (parseRetryAfter untilDate "").1 -
        exactDelay attempt cfg| ≤ exactDelay attempt cfg) :
    exactDelay attempt cfg ≤ jitterLimit ∧
      Caught (2 ^ 63) cfg.maxDelay (cfg.baseDelay * 2 ^ attempt.toNat) := by
  have hexact : 0 < exactDelay attempt cfg := exactDelay_pos hcfg
  have hcapped := cappedDelay_pos hcfg attempt
  have hle := cappedDelay_le attempt cfg
  have hcaught : Caught (2 ^ 63) cfg.maxDelay (cfg.baseDelay * 2 ^ attempt.toNat) := by
    by_contra hmiss
    obtain ⟨hlt, heven, heq⟩ := cappedDelay_of_missed hcfg hbase hmax hlow hhigh hmiss
    have hlowest := hquarter _ isDraw_lowest
    rw [toolCallBackoff_bare untilDate hcfg, jittered_lowest hcapped (by omega),
      four_mul_abs_sub_le, heq, max_eq_left (by omega)] at hlowest
    omega
  refine ⟨?_, hcaught⟩
  by_contra! hlimit
  have heq := (cappedDelay_eq_exactDelay_iff hcfg hmax hlow hhigh).mpr hcaught
  have hneg := jittered_highest_neg (heq ▸ hlimit) (by omega)
  have hhighest := hquarter _ isDraw_highest
  rw [toolCallBackoff_bare untilDate hcfg, four_mul_abs_sub_le, max_eq_right hneg.le] at hhighest
  omega

/-- Every delay is honest, whatever is drawn, if and only if no overflow goes unnoticed. -/
theorem honestDelays_iff (untilDate : String → Option Int) {header : String} {seconds : Int}
    (hcfg : cfg.Positive) (hatoi : atoi header = some seconds) (hsec : 0 ≤ seconds) :
    HonestDelays untilDate header seconds attempt cfg ↔ Unwrapped seconds attempt cfg := by
  have hpos := hcfg.maxDelay
  have hcapped := cappedDelay_pos hcfg attempt
  have hle := cappedDelay_le attempt cfg
  have hfloor := floor_eq_of_unwrapped hcfg hmax hsec
  have hcaught := cappedDelay_eq_exactDelay_iff hcfg hmax hlow hhigh
  have hexact : exactDelay attempt cfg = min (cfg.baseDelay * 2 ^ attempt.toNat) cfg.maxDelay := rfl
  have hdelay : ∀ draw, toolCallBackoff draw attempt cfg (parseRetryAfter untilDate header).1 =
      max (jittered draw (cappedDelay attempt cfg))
        (min (wrap64 (seconds * second)) cfg.maxDelay) := by
    intro draw
    rw [toolCallBackoff_eq, parseRetryAfter_seconds untilDate hatoi hsec]
  constructor
  · intro h
    obtain ⟨hjitter, hshift⟩ := exact_of_quarter hbase hmax hlow hhigh untilDate hcfg
      fun draw hdraw => (h draw hdraw).2.2.2
    have heq := hcaught.mpr hshift
    refine ⟨hjitter, hshift, ?_⟩
    have hlowest := (h _ isDraw_lowest).1
    rw [hdelay, jittered_lowest hcapped (by omega)] at hlowest
    by_cases hsame : min (wrap64 (seconds * second)) cfg.maxDelay =
        min (seconds * second) cfg.maxDelay
    · exact (hfloor.mp hsame).imp_right Or.inl
    · omega
  · rintro ⟨hjitter, hshift, hseconds⟩ draw hdraw
    have heq := hcaught.mpr hshift
    have hbounds := jittered_of_fits hdraw hcapped (by omega)
    dsimp only
    rw [toolCallBackoff_bare untilDate hcfg, hdelay, four_mul_abs_sub_le]
    rcases hseconds with hfits | hresidue | ⟨hsmall, hreached⟩
    · rw [hfloor.mpr (Or.inl hfits)]
      omega
    · rw [hfloor.mpr (Or.inr hresidue)]
      omega
    · omega

end Honest

theorem defaultRetryConfig_positive : defaultRetryConfig.Positive := by
  constructor <;> decide

theorem honestDelays_two_seconds :
    HonestDelays (fun _ => none) "2" 2 1 defaultRetryConfig :=
  (honestDelays_iff (by decide) (by decide) (by decide) (by decide) (fun _ => none)
    defaultRetryConfig_positive (by decide) (by decide)).mpr
    ⟨by decide, Or.inl (by decide), Or.inl (by decide)⟩

/-- A server that asks for 9223372037 seconds is called again after less than half a second: the
product is negative, and the maximal delay of four seconds is not waited either. -/
theorem not_honestDelays_wrapped_seconds :
    ¬HonestDelays (fun _ => none) "9223372037" 9223372037 0 defaultRetryConfig := by
  intro h
  have hfloor := (h (fun _ => 0) isDraw_lowest).1
  have hdelay : toolCallBackoff (fun _ => 0) 0 defaultRetryConfig
      (parseRetryAfter (fun _ => none) "9223372037").1 = 375000000 := by decide
  have hcap : min (9223372037 * second) defaultRetryConfig.maxDelay = 4000000000 := by decide
  rw [hdelay, hcap] at hfloor
  omega

end Ark.ToolRetry
