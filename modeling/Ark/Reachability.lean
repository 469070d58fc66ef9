import Mathlib.Data.Fintype.Card
import Mathlib.Data.List.Basic
import Mathlib.Data.Set.Finite.Basic
import Mathlib.Logic.Relation

/-!
# Reachability in finite graphs

A descent along a relation ends from a point if only finitely many points can be reached from it and
none of them comes back to itself. A worklist search visits every reachable point once, whatever the
shape of the graph, and stops at the first one that it looks for.
-/

namespace Reachability

open Relation

/-! ### Cycles -/

section Cycles

variable {α : Type*} {r : α → α → Prop} {a b : α}

/-- A point that comes back to itself starts an endless descent. -/
theorem not_transGen_of_acc (h : Acc (flip r) a) : ¬ TransGen r a a := by
  have htrans : Acc (TransGen (flip r)) a := h.transGen
  induction htrans with
  | intro a _ ih =>
    intro hcycle
    exact ih a (transGen_swap.mp hcycle) (h.inv_of_transGen (transGen_swap.mp hcycle)) hcycle

theorem acc_of_reflTransGen (h : Acc (flip r) a) (hab : ReflTransGen r a b) : Acc (flip r) b := by
  induction hab with
  | refl => exact h
  | tail _ hbc ih => exact ih.inv hbc

theorem acc_of_acyclic (hfinite : {b | ReflTransGen r a b}.Finite)
    (hacyclic : ∀ b, ReflTransGen r a b → ¬ TransGen r b b) : Acc (flip r) a := by
  have hfin : Finite {b | ReflTransGen r a b} := hfinite
  -- the descent among the reachable points
  let step (x y : {b | ReflTransGen r a b}) : Prop := TransGen r y.1 x.1
  have htrans : IsTrans _ step := ⟨fun _ _ _ hxy hyz => hyz.trans hxy⟩
  have hirrefl : Std.Irrefl step := ⟨fun x hx => hacyclic x.1 x.2 hx⟩
  have hwf : WellFounded step := Finite.wellFounded_of_trans_of_irrefl step
  have hall : ∀ x : {b | ReflTransGen r a b}, Acc (flip r) x.1 := by
    intro x
    induction x using hwf.induction with
    | _ x ih =>
      refine Acc.intro _ fun y hy => ?_
      have hreach : ReflTransGen r a y := ReflTransGen.tail x.2 hy
      exact ih ⟨y, hreach⟩ (TransGen.single hy)
  exact hall ⟨a, .refl⟩

/-- Where finitely many points are reached, every descent ends if and only if there is no cycle. -/
theorem acc_iff_acyclic (hfinite : {b | ReflTransGen r a b}.Finite) :
    Acc (flip r) a ↔ ∀ b, ReflTransGen r a b → ¬ TransGen r b b :=
  ⟨fun h _ hab => not_transGen_of_acc (acc_of_reflTransGen h hab), acc_of_acyclic hfinite⟩

end Cycles

/-! ### The worklist -/

section Worklist

variable {α ε : Type*} [DecidableEq α]

/-- What a visit of a point tells: that it is looked for, or its successors. -/
inductive Visit (α : Type*)
  | found
  | successors (l : List α)

/-- The search over the pending points, for a number of rounds. -/
def search (visit : α → Except ε (Visit α)) : ℕ → List α → List α → Option (Except ε Bool)
  | 0, _, _ => none
  | _ + 1, _, [] => some (.ok false)
  | fuel + 1, visited, x :: pending =>
    if x ∈ visited then search visit fuel visited pending
    else match visit x with
      | .error e => some (.error e)
      | .ok .found => some (.ok true)
      | .ok (.successors l) => search visit fuel (x :: visited) (pending ++ l)

variable {visit : α → Except ε (Visit α)}

def Step (visit : α → Except ε (Visit α)) (x y : α) : Prop :=
  ∃ l, visit x = .ok (.successors l) ∧ y ∈ l

def successorCount (visit : α → Except ε (Visit α)) (x : α) : ℕ :=
  match visit x with
  | .ok (.successors l) => l.length
  | _ => 0

/-- The successors of the points of `known` that are still to be visited. -/
def weight (visit : α → Except ε (Visit α)) : List α → List α → ℕ
  | [], _ => 0
  | k :: known, visited =>
    (if k ∈ visited then 0 else successorCount visit k) + weight visit known visited

theorem weight_mono {known visited : List α} (x : α) :
    weight visit known (x :: visited) ≤ weight visit known visited := by
  induction known with
  | nil => exact le_rfl
  | cons k known ih =>
    rw [weight, weight]
    apply Nat.add_le_add _ ih
    split
    next => exact Nat.zero_le _
    next hk => rw [if_neg fun hk' => hk (List.mem_cons_of_mem x hk')]

theorem weight_cons {known visited : List α} {x : α} (hx : x ∈ known) (hv : x ∉ visited) :
    successorCount visit x + weight visit known (x :: visited) ≤ weight visit known visited := by
  induction known with
  | nil => cases hx
  | cons k known ih =>
    rw [weight, weight]
    by_cases hk : k = x
    · rw [hk, if_pos List.mem_cons_self, if_neg hv, Nat.zero_add]
      exact Nat.add_le_add_left (weight_mono x) _
    · have hx : x ∈ known := (List.mem_cons.mp hx).resolve_left (Ne.symm hk)
      have hkv : k ∈ x :: visited ↔ k ∈ visited := by simp [hk]
      simp only [hkv]
      have := ih hx
      omega

/-- The search ends after as many rounds as there are pending points and successors to come. -/
theorem search_ends {known : List α}
    (hknown : ∀ x l, visit x = .ok (.successors l) → x ∈ known) {fuel : ℕ}
    {visited pending : List α} (hfuel : pending.length + weight visit known visited < fuel) :
    search visit fuel visited pending ≠ none := by
  induction fuel generalizing visited pending with
  | zero => omega
  | succ fuel ih =>
    cases pending with
    | nil => simp [search]
    | cons x pending =>
      rw [List.length_cons] at hfuel
      rw [search]
      split
      next => exact ih (by omega)
      next hv =>
        split
        next => simp
        next => simp
        next l hl =>
          have hweight : successorCount visit x + weight visit known (x :: visited) ≤
              weight visit known visited := weight_cons (hknown x l hl) hv
          rw [successorCount, hl] at hweight
          dsimp only at hweight
          exact ih (by rw [List.length_append]; omega)

/-- What a visit decides for the whole search. -/
def answer : Except ε (Visit α) → Option (Except ε Bool)
  | .error e => some (.error e)
  | .ok .found => some (.ok true)
  | .ok (.successors _) => none

/-- An answer other than that nothing was found comes from a point that can be reached. -/
theorem exists_of_search {fuel : ℕ} {visited pending : List α} {result : Except ε Bool}
    (h : search visit fuel visited pending = some result) (hresult : result ≠ .ok false) :
    ∃ x ∈ pending, ∃ y, ReflTransGen (Step visit) x y ∧ answer (visit y) = some result := by
  induction fuel generalizing visited pending with
  | zero => cases h
  | succ fuel ih =>
    cases pending with
    | nil => exact absurd (Option.some.inj h).symm hresult
    | cons x pending =>
      rw [search] at h
      split at h
      next =>
        obtain ⟨z, hz, hy⟩ := ih h
        exact ⟨z, List.mem_cons_of_mem x hz, hy⟩
      next =>
        split at h
        next hx => exact ⟨x, List.mem_cons_self, x, .refl, by rw [hx]; exact h⟩
        next hx => exact ⟨x, List.mem_cons_self, x, .refl, by rw [hx]; exact h⟩
        next l hl =>
          obtain ⟨z, hz, y, hzy, hy⟩ := ih h
          obtain hz | hz := List.mem_append.mp hz
          · exact ⟨z, List.mem_cons_of_mem x hz, y, hzy, hy⟩
          · exact ⟨x, List.mem_cons_self, y, .head ⟨l, hl, hz⟩ hzy, hy⟩

/-- The successors of visited points are visited or pending. -/
def Closed (visit : α → Except ε (Visit α)) (visited pending : List α) : Prop :=
  ∀ v ∈ visited, ∃ l, visit v = .ok (.successors l) ∧ ∀ y ∈ l, y ∈ visited ∨ y ∈ pending

/-- A search that finds nothing has visited everything. -/
theorem successors_of_search_false {fuel : ℕ} {visited pending : List α}
    (h : search visit fuel visited pending = some (.ok false))
    (hclosed : Closed visit visited pending) {x y : α} (hx : x ∈ visited ∨ x ∈ pending)
    (hxy : ReflTransGen (Step visit) x y) : ∃ l, visit y = .ok (.successors l) := by
  induction fuel generalizing visited pending with
  | zero => cases h
  | succ fuel ih =>
    cases pending with
    | nil =>
      have hall : ∀ z, ReflTransGen (Step visit) x z → z ∈ visited := by
        intro z hz
        induction hz with
        | refl => simpa using hx
        | tail _ hstep ih' =>
          obtain ⟨l, hl, hmem⟩ := hstep
          obtain ⟨l', hl', hsub⟩ := hclosed _ ih'
          obtain rfl : l' = l := by simpa [hl'] using hl
          simpa using hsub _ hmem
      obtain ⟨l, hl, -⟩ := hclosed y (hall y hxy)
      exact ⟨l, hl⟩
    | cons z pending =>
      rw [search] at h
      split at h
      next hz =>
        refine ih h ?_ ?_
        · intro v hv
          obtain ⟨l, hl, hsub⟩ := hclosed v hv
          refine ⟨l, hl, fun y hy => ?_⟩
          obtain hy | hy := hsub y hy
          · exact .inl hy
          · obtain rfl | hy := List.mem_cons.mp hy
            · exact .inl hz
            · exact .inr hy
        · obtain hx | hx := hx
          · exact .inl hx
          · obtain rfl | hx := List.mem_cons.mp hx
            · exact .inl hz
            · exact .inr hx
      next =>
        split at h
        next => cases h
        next => simp at h
        next l hl =>
          refine ih h ?_ ?_
          · intro v hv
            obtain rfl | hv := List.mem_cons.mp hv
            · exact ⟨l, hl, fun y hy => .inr (List.mem_append_right _ hy)⟩
            · obtain ⟨l', hl', hsub⟩ := hclosed v hv
              refine ⟨l', hl', fun y hy => ?_⟩
              obtain hy | hy := hsub y hy
              · exact .inl (List.mem_cons_of_mem z hy)
              · obtain rfl | hy := List.mem_cons.mp hy
                · exact .inl List.mem_cons_self
                · exact .inr (List.mem_append_left l hy)
          · obtain hx | hx := hx
            · exact .inl (List.mem_cons_of_mem z hx)
            · obtain rfl | hx := List.mem_cons.mp hx
              · exact .inl List.mem_cons_self
              · exact .inr (List.mem_append_left l hx)

/-- Where the visits fail nowhere, the search finds out whether a point that is looked for can be
reached. -/
theorem search_exact {known : List α}
    (hknown : ∀ x l, visit x = .ok (.successors l) → x ∈ known) {a : α}
    (hok : ∀ y e, ReflTransGen (Step visit) a y → visit y ≠ .error e) :
    ∃ fuel b, search visit fuel [] [a] = some (.ok b) ∧
      (b = true ↔ ∃ y, ReflTransGen (Step visit) a y ∧ visit y = .ok .found) := by
  have hends := search_ends hknown (Nat.lt_succ_self ([a].length + weight visit known []))
  obtain ⟨result, h⟩ := Option.ne_none_iff_exists'.mp hends
  cases result with
  | error e =>
    obtain ⟨x, hx, z, hxz, hz⟩ := exists_of_search h (by simp)
    obtain rfl := List.mem_singleton.mp hx
    cases hvisit : visit z with
    | error e' => exact absurd hvisit (hok z e' hxz)
    | ok v => cases v <;> (rw [hvisit] at hz; cases hz)
  | ok b =>
    refine ⟨_, b, h, ?_⟩
    cases b with
    | true =>
      obtain ⟨x, hx, y, hxy, hy⟩ := exists_of_search h (by simp)
      obtain rfl := List.mem_singleton.mp hx
      refine iff_of_true rfl ⟨y, hxy, ?_⟩
      cases hvisit : visit y with
      | error e => exact absurd hvisit (hok y e hxy)
      | ok v =>
        cases v with
        | found => rfl
        | successors l =>
          rw [hvisit] at hy
          cases hy
    | false =>
      refine iff_of_false Bool.false_ne_true ?_
      rintro ⟨y, hay, hy⟩
      obtain ⟨l, hl⟩ := successors_of_search_false h (by simp [Closed])
        (.inr (List.mem_singleton_self a)) hay
      rw [hy] at hl
      cases hl

end Worklist

end Reachability
