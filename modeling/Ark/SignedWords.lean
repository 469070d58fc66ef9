import Mathlib.Tactic

/-!
# Products of signed machine words under a cap

A word holds the integers from `-h` to `h - 1`; a product that does not fit is reduced modulo `2 * h`.
`capped` is the usual guard against growth: a value that is not positive is taken for an overflow, and
a value above the cap is cut. The guard sees every wrapped value except a residue between one and the
cap.
-/

namespace Ark.SignedWords

variable {h cap p q : Int}

def wrap (h p : Int) : Int := (p + h) % (2 * h) - h

theorem wrap_eq (hh : 0 < h) (p : Int) :
    wrap h p = if p % (2 * h) < h then p % (2 * h) else p % (2 * h) - 2 * h := by
  have hnonneg : 0 ≤ p % (2 * h) := Int.emod_nonneg p (by omega)
  have hlt : p % (2 * h) < 2 * h := Int.emod_lt_of_pos p (by omega)
  unfold wrap
  rw [← Int.emod_add_emod]
  split_ifs with hr
  · rw [Int.emod_eq_of_lt (by omega) (by omega)]
    omega
  · have hshift : p % (2 * h) + h = p % (2 * h) - h + 2 * h := by omega
    rw [hshift, Int.add_emod_right, Int.emod_eq_of_lt (by omega) (by omega)]
    omega

theorem wrap_of_fits (hlow : -h ≤ p) (hhigh : p < h) : wrap h p = p := by
  unfold wrap
  rw [Int.emod_eq_of_lt (by omega) (by omega)]
  omega

theorem wrap_lt (hh : 0 < h) (p : Int) : wrap h p < h := by
  have := Int.emod_lt_of_pos (p + h) (show 0 < 2 * h by omega)
  unfold wrap
  omega

theorem wrap_of_overflow (hlow : h ≤ p) (hhigh : p < 2 * h) : wrap h p = p - 2 * h := by
  rw [wrap_eq (by omega), Int.emod_eq_of_lt (by omega) hhigh, if_neg (by omega)]

theorem wrap_eq_zero_of_dvd (hh : 0 < h) (hd : 2 * h ∣ p) : wrap h p = 0 := by
  rw [wrap_eq hh, Int.emod_eq_zero_of_dvd hd, if_pos hh]

/-! ### The guarded cap -/

def capped (cap p : Int) : Int := if p ≤ 0 ∨ cap < p then cap else p

theorem capped_pos (hcap : 0 < cap) (p : Int) : 0 < capped cap p := by
  unfold capped
  split_ifs <;> omega

theorem capped_le (cap p : Int) : capped cap p ≤ cap := by
  unfold capped
  split_ifs <;> omega

theorem capped_of_pos (hp : 0 < p) : capped cap p = min p cap := by
  unfold capped
  split_ifs <;> omega

/-- The residues the guard cannot tell from a product that fits. -/
def Caught (h cap p : Int) : Prop := p < h ∨ p % (2 * h) = 0 ∨ cap ≤ p % (2 * h)

instance : Decidable (Caught h cap p) := inferInstanceAs (Decidable (_ ∨ _))

theorem caught_of_fits (hp : p < h) : Caught h cap p := Or.inl hp

theorem capped_wrap (hh : 0 < h) (hlt : cap < h) (hp : h ≤ p) :
    capped cap (wrap h p) = cap ↔ Caught h cap p := by
  have hnonneg : 0 ≤ p % (2 * h) := Int.emod_nonneg p (by omega)
  have hupper : p % (2 * h) < 2 * h := Int.emod_lt_of_pos p (by omega)
  unfold capped Caught
  rw [wrap_eq hh]
  split_ifs <;> omega

theorem capped_wrap_eq_min_iff (hcap : 0 < cap) (hlt : cap < h) (hp : 0 < p) :
    capped cap (wrap h p) = min p cap ↔ Caught h cap p := by
  by_cases hfits : p < h
  · rw [wrap_of_fits (by omega) hfits, capped_of_pos hp]
    exact iff_of_true rfl (caught_of_fits hfits)
  · rw [min_eq_right (by omega), capped_wrap (by omega) hlt (by omega)]

/-- A missed overflow leaves less than the cap. -/
theorem capped_wrap_lt_of_not_caught (hcap : 0 < cap) (hlt : cap < h)
    (hmiss : ¬Caught h cap p) : capped cap (wrap h p) < cap := by
  have hle := capped_le cap (wrap h p)
  have hne : capped cap (wrap h p) ≠ cap := by
    intro heq
    have hbig : h ≤ p := not_lt.mp fun hfits => hmiss (caught_of_fits hfits)
    exact hmiss ((capped_wrap (by omega) hlt hbig).mp heq)
  omega

/-- The guarded value never exceeds that of a larger product whose overflow is caught. -/
theorem capped_wrap_le (hcap : 0 < cap) (hlt : cap < h) (hp : 0 < p) (hle : p ≤ q)
    (hq : Caught h cap q) : capped cap (wrap h p) ≤ capped cap (wrap h q) := by
  rw [(capped_wrap_eq_min_iff hcap hlt (by omega)).mpr hq]
  by_cases hfits : p < h
  · rw [wrap_of_fits (by omega) hfits, capped_of_pos hp]
    omega
  · have := capped_le cap (wrap h p)
    omega

end Ark.SignedWords
