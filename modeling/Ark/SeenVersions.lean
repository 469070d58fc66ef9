import Mathlib.Logic.Function.Basic

/-!
# Highest version seen per key

A reader that may meet a version more than once keeps, for each key, the highest version it has
recorded, skips what is not above it, and forgets the entries that fell below a floor.
-/

namespace Ark

/-- The highest version recorded for each key. -/
abbrev SeenVersions (κ : Type*) := κ → Option Nat

namespace SeenVersions

variable {κ : Type*} {seen : SeenVersions κ} {k k' : κ} {v v' s floor : Nat}

def empty : SeenVersions κ := fun _ => none

/-- Version `v` of `k` is not above the recorded one. -/
def skips (seen : SeenVersions κ) (k : κ) (v : Nat) : Bool := (seen k).any (v ≤ ·)

def mark [DecidableEq κ] (seen : SeenVersions κ) (k : κ) (v : Nat) : SeenVersions κ :=
  Function.update seen k (some v)

/-- Forget the entries below `floor`. -/
def prune (seen : SeenVersions κ) (floor : Nat) : SeenVersions κ :=
  fun k => (seen k).filter (floor ≤ ·)

@[simp] theorem empty_apply : (empty : SeenVersions κ) k = none := rfl

theorem skips_iff : seen.skips k v = true ↔ ∃ s, seen k = some s ∧ v ≤ s := by
  simp [skips, Option.any_eq_true]

theorem not_skips_iff : seen.skips k v = false ↔ ∀ s, seen k = some s → s < v := by
  rw [← Bool.not_eq_true, skips_iff]
  simp only [not_exists, not_and, Nat.not_le]

@[simp] theorem empty_skips : (empty : SeenVersions κ).skips k v = false := rfl

section Mark
variable [DecidableEq κ]

@[simp] theorem mark_same : seen.mark k v k = some v := Function.update_self ..

theorem mark_ne (h : k' ≠ k) : seen.mark k v k' = seen k' := Function.update_of_ne h ..

theorem mark_eq_some (h : seen.mark k v k' = some s) :
    (k' = k ∧ s = v) ∨ (k' ≠ k ∧ seen k' = some s) := by
  by_cases hk : k' = k
  · subst hk
    exact .inl ⟨rfl, by simpa using h.symm⟩
  · exact .inr ⟨hk, by rwa [mark_ne hk] at h⟩

theorem mark_eq_none (h : seen.mark k v k' = none) : k' ≠ k ∧ seen k' = none := by
  by_cases hk : k' = k
  · subst hk
    simp at h
  · exact ⟨hk, by rwa [mark_ne hk] at h⟩

theorem skips_mark_self : (seen.mark k v).skips k v = true := by simp [skips]

/-- Recording a version that was not skipped loses nothing. -/
theorem skips_mark (hv : seen.skips k v = false) (h : seen.skips k' v' = true) :
    (seen.mark k v).skips k' v' = true := by
  obtain ⟨s, hs, hle⟩ := skips_iff.mp h
  by_cases hk : k' = k
  · subst hk
    have hlt : s < v := not_skips_iff.mp hv s hs
    exact skips_iff.mpr ⟨v, mark_same, by omega⟩
  · exact skips_iff.mpr ⟨s, by rwa [mark_ne hk], hle⟩

theorem skips_of_mark (h : (seen.mark k v).skips k' v' = true) :
    (k' = k ∧ v' ≤ v) ∨ seen.skips k' v' = true := by
  obtain ⟨s, hs, hle⟩ := skips_iff.mp h
  rcases mark_eq_some hs with ⟨rfl, rfl⟩ | ⟨-, hs'⟩
  · exact .inl ⟨rfl, hle⟩
  · exact .inr (skips_iff.mpr ⟨s, hs', hle⟩)

end Mark

theorem prune_eq_some : seen.prune floor k = some s ↔ seen k = some s ∧ floor ≤ s := by
  simp [prune, Option.filter_eq_some_iff]

theorem prune_eq_none (h : seen.prune floor k = none) :
    seen k = none ∨ ∃ s, seen k = some s ∧ s < floor := by
  cases hs : seen k with
  | none => exact .inl rfl
  | some s =>
    refine .inr ⟨s, rfl, ?_⟩
    by_contra hlt
    have : seen.prune floor k = some s := prune_eq_some.mpr ⟨hs, by omega⟩
    simp [this] at h

theorem skips_of_prune (h : (seen.prune floor).skips k v = true) : seen.skips k v = true := by
  obtain ⟨s, hs, hle⟩ := skips_iff.mp h
  exact skips_iff.mpr ⟨s, (prune_eq_some.mp hs).1, hle⟩

/-- Pruning only makes a version eligible again when it lies below the floor. -/
theorem skips_prune_or_lt (floor : Nat) (h : seen.skips k v = true) :
    (seen.prune floor).skips k v = true ∨ v < floor := by
  obtain ⟨s, hs, hle⟩ := skips_iff.mp h
  by_cases hf : floor ≤ s
  · exact .inl (skips_iff.mpr ⟨s, prune_eq_some.mpr ⟨hs, hf⟩, hle⟩)
  · exact .inr (by omega)

end SeenVersions
end Ark
