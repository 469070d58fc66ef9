import Mathlib.Data.List.Nodup

/-!
# Tables with a primary key

A table is a list of rows. `put` replaces the row with the key of the new one, and appends a row
whose key is new.
-/

namespace Ark.KeyedTable

variable {ρ κ : Type*} [DecidableEq κ] (key : ρ → κ)

def put (r : ρ) : List ρ → List ρ
  | [] => [r]
  | x :: xs => if key x = key r then r :: xs else x :: put r xs

def find (k : κ) (rows : List ρ) : Option ρ := rows.find? fun r => key r = k

def remove (k : κ) (rows : List ρ) : List ρ := rows.filter fun r => key r ≠ k

variable {key} {r x : ρ} {k : κ} {rows : List ρ}

theorem key_of_find (h : find key k rows = some r) : key r = k := by
  simpa using List.find?_some h

theorem mem_of_find (h : find key k rows = some r) : r ∈ rows := List.mem_of_find?_eq_some h

theorem find_eq_none : find key k rows = none ↔ ∀ r ∈ rows, key r ≠ k := by
  simp [find]

@[simp] theorem find_put_self : find key (key r) (put key r rows) = some r := by
  induction rows with
  | nil => simp [find, put]
  | cons x xs ih =>
    by_cases hx : key x = key r
    · simp [find, put, hx]
    · simpa [find, put, hx] using ih

theorem find_put_of_ne (h : k ≠ key r) : find key k (put key r rows) = find key k rows := by
  induction rows with
  | nil => simp [find, put, Ne.symm h]
  | cons x xs ih =>
    by_cases hx : key x = key r
    · simp [find, put, hx, Ne.symm h]
    · by_cases hk : key x = k
      · subst hk
        simp [find, put, h]
      · simpa [find, put, hx, hk] using ih

theorem find_put : find key k (put key r rows) = if k = key r then some r else find key k rows := by
  split
  next h => rw [h, find_put_self]
  next h => exact find_put_of_ne h

@[simp] theorem find_remove_self : find key k (remove key k rows) = none := by
  simp [find, remove, List.find?_eq_none]

theorem find_filter_key (p : κ → Bool) :
    find key k (rows.filter fun r => p (key r)) = if p k then find key k rows else none := by
  induction rows with
  | nil => simp [find]
  | cons x xs ih =>
    by_cases hx : key x = k
    · cases hp : p k with
      | true => simp [find, hx, hp]
      | false =>
        rw [List.filter_cons_of_neg (by simp [hx, hp]), ih, hp]
        rfl
    · have hcons : find key k (x :: xs) = find key k xs := List.find?_cons_of_neg (by simpa using hx)
      rw [hcons, ← ih, List.filter_cons]
      split
      next => exact List.find?_cons_of_neg (by simpa using hx)
      next => rfl

theorem find_remove_of_ne {k' : κ} (h : k' ≠ k) :
    find key k' (remove key k rows) = find key k' rows := by
  induction rows with
  | nil => rfl
  | cons x xs ih =>
    by_cases hx : key x = k
    · have hne : key x ≠ k' := fun he => h (he.symm.trans hx)
      simpa [find, remove, hx, hne, Ne.symm h] using ih
    · by_cases hk : key x = k'
      · simp [find, remove, hk, h]
      · simpa [find, remove, hx, hk] using ih

theorem mem_put (h : x ∈ put key r rows) : x = r ∨ x ∈ rows := by
  induction rows with
  | nil => exact .inl (List.mem_singleton.mp h)
  | cons y ys ih =>
    rw [put] at h
    split at h
    next =>
      obtain rfl | h := List.mem_cons.mp h
      · exact .inl rfl
      · exact .inr (List.mem_cons_of_mem y h)
    next =>
      obtain rfl | h := List.mem_cons.mp h
      · exact .inr List.mem_cons_self
      · exact (ih h).imp_right (List.mem_cons_of_mem y)

theorem mem_put_self : r ∈ put key r rows := mem_of_find find_put_self

/-- The rows that a property of the key selects, after a `put`. -/
theorem filter_put {p : ρ → Bool} (hp : ∀ x y, key x = key y → p x = p y) :
    (put key r rows).filter p = if p r then put key r (rows.filter p) else rows.filter p := by
  induction rows with
  | nil => by_cases h : p r <;> simp [put, h]
  | cons x xs ih =>
    by_cases hx : key x = key r
    · have hpx := hp x r hx
      by_cases h : p r <;> simp [put, hx, hpx, h]
    · by_cases h : p r <;> by_cases hpx : p x <;> simp [put, hx, h, hpx, ih]

/-- Replacing a row by one with the same image leaves the images alone. -/
theorem map_put_of_find {β : Type*} {f : ρ → β} {r₀ : ρ} (h : find key (key r) rows = some r₀)
    (hf : f r = f r₀) : (put key r rows).map f = rows.map f := by
  induction rows with
  | nil => cases h
  | cons x xs ih =>
    by_cases hx : key x = key r
    · obtain rfl : x = r₀ := by simpa [find, hx] using h
      rw [put, if_pos hx, List.map_cons, List.map_cons, hf]
    · have : find key (key r) xs = some r₀ := by simpa [find, hx] using h
      simp [put, hx, ih this]

theorem map_key_put : ∀ rows : List ρ, (put key r rows).map key =
    if key r ∈ rows.map key then rows.map key else rows.map key ++ [key r]
  | [] => rfl
  | x :: xs => by
    by_cases hx : key x = key r
    · simp [put, hx]
    · have ih := map_key_put xs
      simp only [put, hx, if_false, List.map_cons, List.mem_cons, Ne.symm hx, false_or, ih]
      split <;> rfl

theorem nodup_put (h : (rows.map key).Nodup) : ((put key r rows).map key).Nodup := by
  rw [map_key_put]
  split
  next => exact h
  next hr =>
    apply h.append (List.pairwise_singleton _ _)
    simpa using hr

/-- With unique keys a row is found under its key. -/
theorem find_of_mem (hn : (rows.map key).Nodup) (h : r ∈ rows) : find key (key r) rows = some r := by
  induction rows with
  | nil => cases h
  | cons x xs ih =>
    rw [List.map_cons, List.nodup_cons] at hn
    obtain rfl | h := List.mem_cons.mp h
    · simp [find]
    · have hx : key x ≠ key r := fun he => hn.1 (he ▸ List.mem_map_of_mem h)
      simpa [find, hx] using ih hn.2 h

theorem nodup_remove (h : (rows.map key).Nodup) : ((remove key k rows).map key).Nodup :=
  h.sublist (List.filter_sublist.map key)

theorem mem_remove : r ∈ remove key k rows ↔ r ∈ rows ∧ key r ≠ k := by
  simp [remove]

theorem put_of_find_eq_none (h : find key (key r) rows = none) : put key r rows = rows ++ [r] := by
  induction rows with
  | nil => rfl
  | cons x xs ih =>
    have hx := find_eq_none.mp h
    rw [put, if_neg (hx x List.mem_cons_self), ih, List.cons_append]
    exact find_eq_none.mpr fun y hy => hx y (List.mem_cons_of_mem x hy)

theorem put_of_find (h : find key (key r) rows = some r) : put key r rows = rows := by
  simpa using map_put_of_find (f := id) h rfl

theorem put_ne_nil : put key r rows ≠ [] := List.ne_nil_of_mem mem_put_self

/-! ### Tables of images

The rows are images of others. The images may have a key of their own, as long as it tells the same
rows apart.
-/

section Map

variable {σ κ' : Type*} [DecidableEq κ'] {key' : σ → κ'} {f : σ → ρ} {y : σ} {l : List σ} {k' : κ'}

theorem find_map (h : ∀ x ∈ l, key (f x) = k ↔ key' x = k') :
    find key k (l.map f) = (find key' k' l).map f := by
  induction l with
  | nil => rfl
  | cons x xs ih =>
    have hx := h x List.mem_cons_self
    have ih := ih fun y hy => h y (List.mem_cons_of_mem x hy)
    simp only [find, List.map_cons, List.find?_cons] at ih ⊢
    by_cases hk : key' x = k'
    · simp only [hk, hx.mpr hk, decide_true, Option.map_some]
    · simp only [hk, mt hx.mp hk, decide_false, ih]

theorem put_map (h : ∀ x ∈ l, key (f x) = key (f y) ↔ key' x = key' y) :
    put key (f y) (l.map f) = (put key' y l).map f := by
  induction l with
  | nil => rfl
  | cons x xs ih =>
    have ih := ih fun y hy => h y (List.mem_cons_of_mem x hy)
    rw [List.map_cons, put, put, apply_ite (List.map f), List.map_cons, List.map_cons, ih]
    simp only [h x List.mem_cons_self]

theorem remove_map (h : ∀ x ∈ l, key (f x) = k ↔ key' x = k') :
    remove key k (l.map f) = (remove key' k' l).map f := by
  rw [remove, remove, List.filter_map]
  congr 1
  apply List.filter_congr
  intro x hx
  simp [h x hx]

end Map

end Ark.KeyedTable
