import Mathlib.Algebra.Order.Ring.Nat
import Mathlib.Data.List.Basic

/-!
# Numbered slots

A collection of components addressed by number, in which one component at a time is replaced.
-/

namespace Ark

abbrev Slots (α : Type*) := List (Nat × α)

namespace Slots

variable {α : Type*} {s : Slots α} {i j : Nat} {a b : α}

def get? (s : Slots α) (i : Nat) : Option α := s.lookup i

/-- Replace the component in slot `i`. -/
def put (s : Slots α) (i : Nat) (a : α) : Slots α :=
  s.map fun p => if p.1 = i then (i, a) else p

/-- Slot `i` is unused. -/
def free (s : Slots α) (i : Nat) : Bool := s.all (·.1 != i)

theorem mem_of_get? (h : s.get? i = some a) : (i, a) ∈ s := by
  induction s with
  | nil => simp [get?] at h
  | cons p s ih =>
    obtain ⟨j, b⟩ := p
    by_cases hij : i = j
    · subst hij
      obtain rfl : b = a := by simpa [get?] using h
      exact List.mem_cons_self
    · have hne : (i == j) = false := by simpa using hij
      rw [get?, List.lookup_cons, hne] at h
      exact List.mem_cons_of_mem _ (ih h)

theorem mem_put_ne (hp : (j, b) ∈ s) (h : j ≠ i) : (j, b) ∈ s.put i a :=
  List.mem_map.mpr ⟨(j, b), hp, if_neg h⟩

theorem mem_put_self (hp : (i, b) ∈ s) : (i, a) ∈ s.put i a :=
  List.mem_map.mpr ⟨(i, b), hp, if_pos rfl⟩

/-- After a replacement every component is the new one or an old one of another slot. -/
theorem mem_put (h : (j, b) ∈ s.put i a) : (j = i ∧ b = a) ∨ (j ≠ i ∧ (j, b) ∈ s) := by
  obtain ⟨⟨k, c⟩, hmem, hp⟩ := List.mem_map.mp h
  simp only at hp
  split at hp
  next =>
    obtain ⟨rfl, rfl⟩ := Prod.mk.inj hp
    exact .inl ⟨rfl, rfl⟩
  next hne =>
    obtain ⟨rfl, rfl⟩ := Prod.mk.inj hp
    exact .inr ⟨hne, hmem⟩

theorem get?_put_self (h : s.get? i = some b) : (s.put i a).get? i = some a := by
  induction s with
  | nil => simp [get?] at h
  | cons p s ih =>
    obtain ⟨j, c⟩ := p
    by_cases hij : j = i
    · subst hij
      simp [put, get?]
    · have hne : (i == j) = false := by simpa using Ne.symm hij
      rw [get?, List.lookup_cons, hne] at h
      simpa [put, get?, hij, List.lookup_cons, hne] using ih h

theorem get?_put_ne (h : j ≠ i) : (s.put i a).get? j = s.get? j := by
  induction s with
  | nil => rfl
  | cons p s ih =>
    obtain ⟨k, c⟩ := p
    by_cases hki : k = i
    · subst hki
      have hne : (j == k) = false := by simpa using h
      simpa [put, get?, List.lookup_cons, hne] using ih
    · by_cases hjk : j = k
      · subst hjk
        simp [put, get?, h]
      · have hne : (j == k) = false := by simpa using hjk
        simpa [put, get?, hki, List.lookup_cons, hne] using ih

theorem get?_map_some {f : α → α} (h : get? (s.map fun p => (p.1, f p.2)) i = some b) :
    ∃ a, s.get? i = some a ∧ b = f a := by
  induction s with
  | nil => cases h
  | cons p s ih =>
    obtain ⟨j, c⟩ := p
    by_cases hij : i = j
    · subst hij
      simp only [get?, List.map_cons, List.lookup_cons_self, Option.some.injEq] at h ⊢
      exact ⟨c, rfl, h.symm⟩
    · have hne : (i == j) = false := by simpa using hij
      simp only [get?, List.map_cons, List.lookup_cons, hne] at h ⊢
      exact ih h

/-! ### Numbers -/

def keys (s : Slots α) : List Nat := s.map (·.1)

theorem mem_keys (h : (i, a) ∈ s) : i ∈ s.keys := List.mem_map.mpr ⟨(i, a), h, rfl⟩

theorem keys_put (s : Slots α) (i : Nat) (a : α) : (s.put i a).keys = s.keys := by
  unfold keys put
  rw [List.map_map]
  apply List.map_congr_left
  intro p _
  by_cases hp : p.1 = i
  · simp [hp]
  · simp [hp]

theorem ne_of_nodup_cons {p : Nat × α} (hs : (keys ((j, b) :: s)).Nodup) (hp : p ∈ s) :
    p.1 ≠ j := by
  intro heq
  exact (List.nodup_cons.mp hs).1 (heq ▸ mem_keys hp)

theorem nodup_cons_free (h : s.free i = true) (hs : s.keys.Nodup) : (keys ((i, a) :: s)).Nodup := by
  refine List.nodup_cons.mpr ⟨?_, hs⟩
  intro hmem
  obtain ⟨p, hp, rfl⟩ := List.mem_map.mp hmem
  simpa using List.all_eq_true.mp h p hp

theorem nodup_of_cons {p : Nat × α} (hs : (keys (p :: s)).Nodup) : s.keys.Nodup :=
  (List.nodup_cons.mp hs).2

theorem get?_of_mem (hs : s.keys.Nodup) (h : (i, a) ∈ s) : s.get? i = some a := by
  induction s with
  | nil => cases h
  | cons p s ih =>
    obtain ⟨j, c⟩ := p
    rcases List.mem_cons.mp h with heq | hmem
    · obtain ⟨rfl, rfl⟩ := Prod.mk.inj heq
      simp [get?]
    · have hne : (i == j) = false := by simpa using ne_of_nodup_cons hs hmem
      rw [get?, List.lookup_cons, hne]
      exact ih (nodup_of_cons hs) hmem

theorem eq_of_mem (hs : s.keys.Nodup) (ha : (i, a) ∈ s) (hb : (i, b) ∈ s) : a = b :=
  Option.some.inj ((get?_of_mem hs ha).symm.trans (get?_of_mem hs hb))

theorem length_put (s : Slots α) (i : Nat) (a : α) : (s.put i a).length = s.length :=
  List.length_map _

theorem put_eq_self (h : ∀ p ∈ s, p.1 ≠ i) : s.put i a = s := by
  unfold put
  conv_rhs => rw [← List.map_id s]
  apply List.map_congr_left
  intro p hp
  simp [h p hp]

theorem put_cons_self (s : Slots α) : put ((i, b) :: s) i a = (i, a) :: put s i a := by
  simp [put]

theorem put_cons_ne (s : Slots α) (h : j ≠ i) : put ((j, b) :: s) i a = (j, b) :: put s i a := by
  simp [put, h]

theorem length_filter_ne (hs : s.keys.Nodup) (h : s.get? i = some a) :
    (s.filter (·.1 ≠ i)).length + 1 = s.length := by
  induction s with
  | nil => cases h
  | cons p s ih =>
    obtain ⟨j, c⟩ := p
    by_cases hj : j = i
    · subst hj
      have hall : s.filter (·.1 ≠ j) = s := by
        apply List.filter_eq_self.mpr
        intro q hq
        simpa using ne_of_nodup_cons hs hq
      rw [List.filter_cons_of_neg (by simp), hall, List.length_cons]
    · have hne : (i == j) = false := by simpa using Ne.symm hj
      rw [get?, List.lookup_cons, hne] at h
      rw [List.filter_cons_of_pos (by simpa using hj), List.length_cons, List.length_cons,
        ih (nodup_of_cons hs) h]

/-- A sum over the components changes by what the replaced one changes. -/
theorem sum_put (hs : s.keys.Nodup) (h : s.get? i = some b) (f : α → Nat) :
    ((s.put i a).map fun p => f p.2).sum + f b = (s.map fun p => f p.2).sum + f a := by
  induction s with
  | nil => cases h
  | cons p s ih =>
    obtain ⟨j, c⟩ := p
    by_cases hj : j = i
    · subst hj
      obtain rfl : c = b := by simpa [get?] using h
      rw [put_cons_self, put_eq_self fun q hq => ne_of_nodup_cons hs hq]
      simp only [List.map_cons, List.sum_cons]
      omega
    · have hne : (i == j) = false := by simpa using Ne.symm hj
      rw [get?, List.lookup_cons, hne] at h
      have := ih (nodup_of_cons hs) h
      rw [put_cons_ne s hj]
      simp only [List.map_cons, List.sum_cons]
      omega

/-- When the new component lists what the replaced one did and then `l`, so do all components together. -/
theorem flatMap_put_perm {β : Type*} {l : List β} (hs : s.keys.Nodup) (h : s.get? i = some b) {f : α → List β}
    (hf : f a = f b ++ l) :
    ((s.put i a).flatMap fun p => f p.2).Perm ((s.flatMap fun p => f p.2) ++ l) := by
  induction s with
  | nil => cases h
  | cons p s ih =>
    obtain ⟨j, c⟩ := p
    by_cases hj : j = i
    · subst hj
      obtain rfl : c = b := by simpa [get?] using h
      rw [put_cons_self, put_eq_self fun q hq => ne_of_nodup_cons hs hq, List.flatMap_cons,
        List.flatMap_cons, hf, List.append_assoc, List.append_assoc]
      exact List.perm_append_comm.append_left (f c)
    · have hne : (i == j) = false := by simpa using Ne.symm hj
      rw [get?, List.lookup_cons, hne] at h
      rw [put_cons_ne s hj, List.flatMap_cons, List.flatMap_cons, List.append_assoc]
      exact (ih (nodup_of_cons hs) h).append_left (f c)

end Slots
end Ark
