import Ark.SignedWords
import Ark.TaskPoll

/-!
# The delay after a failed poll

`computePollBackoff` multiplies the poll interval by a power of two in 64 bits and recognises an
overflow by its sign or by its size. The delay it should return is computed here without a bound.
-/

namespace Ark.A2A

open SignedWords

/-! ### The delay without a bound -/

def backoffBase (base : Int) : Int := if base ≤ 0 then defaultPollInterval else base

def backoffExponent (failureCount : Int) : ℕ := (min (max failureCount 0) maxBackoffExponent).toNat

def backoffProduct (failureCount base : Int) : Int :=
  backoffBase base * 2 ^ backoffExponent failureCount

def raised (rateLimited : Bool) (delay : Int) : Int :=
  if rateLimited ∧ delay < rateLimitBackoffFloor then rateLimitBackoffFloor else delay

/-- The poll interval doubled for each failure, up to five minutes. -/
def exactPollBackoff (failureCount base : Int) (rateLimited : Bool) : Int :=
  raised rateLimited (min maxPollBackoff (backoffProduct failureCount base))

theorem backoffBase_pos (base : Int) : 0 < backoffBase base := by
  unfold backoffBase defaultPollInterval second
  split_ifs <;> omega

theorem backoffProduct_pos (failureCount base : Int) : 0 < backoffProduct failureCount base :=
  mul_pos (backoffBase_pos base) (by positivity)

theorem backoffExponent_mono {m n : Int} (h : m ≤ n) : backoffExponent m ≤ backoffExponent n := by
  unfold backoffExponent maxBackoffExponent
  omega

theorem backoffExponent_le (n : Int) : backoffExponent n ≤ 16 := by
  unfold backoffExponent maxBackoffExponent
  omega

theorem backoffProduct_mono_count {m n : Int} (h : m ≤ n) (base : Int) :
    backoffProduct m base ≤ backoffProduct n base :=
  mul_le_mul_of_nonneg_left
    (pow_le_pow_right₀ (by norm_num) (backoffExponent_mono h)) (backoffBase_pos base).le

theorem backoffProduct_mono_base {b base : Int} (hb : 0 < b) (h : b ≤ base) (n : Int) :
    backoffProduct n b ≤ backoffProduct n base := by
  unfold backoffProduct backoffBase
  rw [if_neg (by omega), if_neg (by omega)]
  exact mul_le_mul_of_nonneg_right h (by positivity)

theorem raised_mono {x y : Int} (h : x ≤ y) (rateLimited : Bool) :
    raised rateLimited x ≤ raised rateLimited y := by
  cases rateLimited with
  | false => simpa [raised] using h
  | true =>
    simp only [raised, true_and]
    split_ifs <;> omega

theorem raised_pos {x : Int} (h : 0 < x) (rateLimited : Bool) : 0 < raised rateLimited x := by
  unfold raised rateLimitBackoffFloor second
  split_ifs <;> omega

theorem raised_le {x : Int} (h : x ≤ maxPollBackoff) (rateLimited : Bool) :
    raised rateLimited x ≤ maxPollBackoff := by
  unfold raised maxPollBackoff rateLimitBackoffFloor second at *
  split_ifs <;> omega

theorem raised_lt {x : Int} (h : x < maxPollBackoff) (rateLimited : Bool) :
    raised rateLimited x < maxPollBackoff := by
  unfold raised maxPollBackoff rateLimitBackoffFloor second at *
  split_ifs <;> omega

theorem raised_max (rateLimited : Bool) : raised rateLimited maxPollBackoff = maxPollBackoff := by
  unfold raised maxPollBackoff rateLimitBackoffFloor second
  rw [if_neg (by omega)]

/-! ### The delay of the controller -/

theorem wrap64_eq (p : Int) : wrap64 p = wrap (2 ^ 63) p := rfl

theorem computePollBackoff_eq (failureCount base : Int) (rateLimited : Bool) :
    computePollBackoff failureCount base rateLimited =
      raised rateLimited (capped maxPollBackoff (wrap (2 ^ 63) (backoffProduct failureCount base))) := by
  have hshift : ((1 <<< backoffExponent failureCount : ℕ) : Int) =
      2 ^ backoffExponent failureCount := by
    rw [Nat.one_shiftLeft]
    push_cast
    rfl
  unfold backoffProduct
  rw [← hshift]
  rfl

theorem maxPollBackoff_lt : maxPollBackoff < 2 ^ 63 := by decide

theorem maxPollBackoff_pos : 0 < maxPollBackoff := by decide

theorem computePollBackoff_pos (failureCount base : Int) (rateLimited : Bool) :
    0 < computePollBackoff failureCount base rateLimited := by
  rw [computePollBackoff_eq]
  exact raised_pos (capped_pos maxPollBackoff_pos _) rateLimited

theorem computePollBackoff_le (failureCount base : Int) (rateLimited : Bool) :
    computePollBackoff failureCount base rateLimited ≤ maxPollBackoff := by
  rw [computePollBackoff_eq]
  exact raised_le (capped_le _ _) rateLimited

/-- The product fits in 64 bits, or what is left of it is none of the delays below five minutes. -/
def OverflowCaught (failureCount base : Int) : Prop :=
  Caught (2 ^ 63) maxPollBackoff (backoffProduct failureCount base)

instance (failureCount base : Int) : Decidable (OverflowCaught failureCount base) :=
  inferInstanceAs (Decidable (Caught _ _ _))

theorem computePollBackoff_of_caught {failureCount base : Int} (rateLimited : Bool)
    (h : OverflowCaught failureCount base) :
    computePollBackoff failureCount base rateLimited =
      exactPollBackoff failureCount base rateLimited := by
  rw [computePollBackoff_eq, (capped_wrap_eq_min_iff maxPollBackoff_pos maxPollBackoff_lt
    (backoffProduct_pos failureCount base)).mpr h, min_comm]
  rfl

/-- A missed overflow makes the delay shorter than the cap, with or without the floor. -/
theorem computePollBackoff_of_missed {failureCount base : Int} (rateLimited : Bool)
    (h : ¬OverflowCaught failureCount base) :
    computePollBackoff failureCount base rateLimited <
      exactPollBackoff failureCount base rateLimited := by
  have hbig : 2 ^ 63 ≤ backoffProduct failureCount base :=
    not_lt.mp fun hfits => h (caught_of_fits hfits)
  have hexact : exactPollBackoff failureCount base rateLimited = maxPollBackoff := by
    unfold exactPollBackoff
    rw [min_eq_left (maxPollBackoff_lt.le.trans hbig), raised_max]
  rw [hexact, computePollBackoff_eq]
  exact raised_lt (capped_wrap_lt_of_not_caught maxPollBackoff_pos maxPollBackoff_lt h) rateLimited

theorem computePollBackoff_mono_of_caught {m n b base : Int} (rateLimited : Bool)
    (hle : backoffProduct m b ≤ backoffProduct n base) (h : OverflowCaught n base) :
    computePollBackoff m b rateLimited ≤ computePollBackoff n base rateLimited := by
  rw [computePollBackoff_eq, computePollBackoff_eq]
  exact raised_mono (capped_wrap_le maxPollBackoff_pos maxPollBackoff_lt
    (backoffProduct_pos m b) hle h) rateLimited

/-- The delay is the exact one, within its bounds and above every earlier one, if and only if no
overflow is missed. -/
theorem computePollBackoff_bounded_monotone_iff (failureCount base : Int) (rateLimited : Bool) :
    (computePollBackoff failureCount base rateLimited =
          exactPollBackoff failureCount base rateLimited ∧
        0 < computePollBackoff failureCount base rateLimited ∧
        computePollBackoff failureCount base rateLimited ≤ maxPollBackoff ∧
        (∀ count ≤ failureCount, computePollBackoff count base rateLimited ≤
          computePollBackoff failureCount base rateLimited) ∧
        ∀ b, 0 < b → b ≤ base → computePollBackoff failureCount b rateLimited ≤
          computePollBackoff failureCount base rateLimited) ↔
      OverflowCaught failureCount base := by
  constructor
  · rintro ⟨heq, -⟩
    by_contra hmiss
    exact absurd heq (computePollBackoff_of_missed rateLimited hmiss).ne
  · intro h
    refine ⟨computePollBackoff_of_caught rateLimited h, computePollBackoff_pos _ _ _,
      computePollBackoff_le _ _ _, ?_, ?_⟩
    · intro count hcount
      exact computePollBackoff_mono_of_caught rateLimited (backoffProduct_mono_count hcount base) h
    · intro b hb hle
      exact computePollBackoff_mono_of_caught rateLimited
        (backoffProduct_mono_base hb hle failureCount) h

/-- A poll interval of `2 ^ 48 + 1` nanoseconds, a little over three days: after sixteen failures the
task is polled again after 66 microseconds, before after five minutes. -/
theorem computePollBackoff_three_days :
    computePollBackoff 16 281474976710657 false = 65536 ∧
      exactPollBackoff 16 281474976710657 false = maxPollBackoff ∧
      computePollBackoff 15 281474976710657 false = maxPollBackoff := by
  decide

end Ark.A2A
