import Mathlib.Data.List.Forall2
import Mathlib.Logic.Function.Basic
import Mathlib.Tactic.SplitIfs

/-!
# Trees as linked cells

A tree of values is kept in cells that name the cells of its children. A walk takes cells from a
stack, rewrites each, unlinks its children that are not kept and pushes the others. It leaves the
cells of the tree without the parts that are not kept and with every other value rewritten, whatever
the order in which the stack is filled, since a rewritten cell is never read for anything but what
the rewriting keeps.
-/

namespace RoseHeap

/-! ### Trees -/

inductive Rose (α : Type*)
  | node (value : α) (children : List (Rose α))

variable {α ρ : Type*}

namespace Rose

def value : Rose α → α
  | .node v _ => v

def children : Rose α → List (Rose α)
  | .node _ ts => ts

theorem induct {p : Rose α → Prop} (h : ∀ v ts, (∀ t ∈ ts, p t) → p (.node v ts)) : ∀ t, p t
  | .node v ts => h v ts fun t _ => induct h t

mutual

def size : Rose α → ℕ
  | .node _ ts => sizes ts + 1

def sizes : List (Rose α) → ℕ
  | [] => 0
  | t :: ts => t.size + sizes ts

end

mutual

def height : Rose α → ℕ
  | .node _ ts => heights ts

def heights : List (Rose α) → ℕ
  | [] => 0
  | t :: ts => max (t.height + 1) (heights ts)

end

mutual

def values : Rose α → List α
  | .node v ts => v :: valuesAll ts

def valuesAll : List (Rose α) → List α
  | [] => []
  | t :: ts => t.values ++ valuesAll ts

end

section Prune

variable (keep : α → Bool) (f : α → α)

mutual

/-- The tree without the children that are not kept, each value rewritten. -/
def prune : Rose α → Rose α
  | .node v ts => .node (f v) (pruneAll ts)

def pruneAll : List (Rose α) → List (Rose α)
  | [] => []
  | t :: ts => if keep t.value then prune t :: pruneAll ts else pruneAll ts

end

end Prune

theorem height_lt_of_mem {t : Rose α} {ts : List (Rose α)} (h : t ∈ ts) : t.height < heights ts := by
  induction ts with
  | nil => cases h
  | cons u us ih =>
    rw [heights]
    rcases List.mem_cons.mp h with rfl | h
    · omega
    · have := ih h
      omega

theorem heights_le {ts : List (Rose α)} {n : ℕ} (h : ∀ t ∈ ts, t.height < n) : heights ts ≤ n := by
  induction ts with
  | nil => exact Nat.zero_le n
  | cons t ts ih =>
    obtain ⟨ht, hts⟩ := List.forall_mem_cons.mp h
    have := ih hts
    rw [heights]
    omega

theorem sizes_append (ts us : List (Rose α)) : sizes (ts ++ us) = sizes ts + sizes us := by
  induction ts with
  | nil => rw [List.nil_append, sizes, Nat.zero_add]
  | cons t ts ih => rw [List.cons_append, sizes, sizes, ih, Nat.add_assoc]

theorem sizes_reverse (ts : List (Rose α)) : sizes ts.reverse = sizes ts := by
  induction ts with
  | nil => rfl
  | cons t ts ih =>
    rw [List.reverse_cons, sizes_append, ih, sizes, sizes, sizes]
    omega

theorem sizes_filter_le (p : Rose α → Bool) (ts : List (Rose α)) : sizes (ts.filter p) ≤ sizes ts := by
  induction ts with
  | nil => exact Nat.le_refl _
  | cons t ts ih =>
    rw [List.filter_cons, sizes]
    split_ifs
    · rw [sizes]
      omega
    · omega

theorem mem_valuesAll {v : α} {ts : List (Rose α)} : v ∈ valuesAll ts ↔ ∃ t ∈ ts, v ∈ t.values := by
  induction ts with
  | nil => simp [valuesAll]
  | cons t ts ih => simp [valuesAll, ih]

section Prune

variable {keep : α → Bool} {f : α → α}

theorem pruneAll_eq (ts : List (Rose α)) :
    pruneAll keep f ts = (ts.filter fun t => keep t.value).map (prune keep f) := by
  induction ts with
  | nil => rfl
  | cons t ts ih =>
    rw [pruneAll, List.filter_cons, ih]
    split_ifs
    · rw [List.map_cons]
    · rfl

theorem value_prune (t : Rose α) : (t.prune keep f).value = f t.value := by
  cases t with
  | node v ts => rfl

/-- A value that is left was rewritten and kept, unless it is that of the root. -/
theorem exists_of_mem_values_prune {t : Rose α} {v : α} (h : v ∈ (t.prune keep f).values) :
    ∃ u ∈ t.values, v = f u ∧ (keep u = true ∨ u = t.value) := by
  induction t using induct with
  | h u ts ih =>
    rw [prune, values] at h
    rcases List.mem_cons.mp h with rfl | h
    · exact ⟨u, List.mem_cons_self, rfl, Or.inr rfl⟩
    · rw [pruneAll_eq, mem_valuesAll] at h
      obtain ⟨t', ht', hv⟩ := h
      obtain ⟨t, ht, rfl⟩ := List.mem_map.mp ht'
      obtain ⟨ht, hkeep⟩ := List.mem_filter.mp ht
      obtain ⟨w, hw, rfl, hkept⟩ := ih t ht hv
      refine ⟨w, List.mem_cons_of_mem u (mem_valuesAll.mpr ⟨t, ht, hw⟩), rfl, Or.inl ?_⟩
      rcases hkept with hkept | rfl
      · exact hkept
      · exact hkeep

theorem height_prune_le (t : Rose α) : (t.prune keep f).height ≤ t.height := by
  induction t using induct with
  | h v ts ih =>
    rw [prune, height, height, pruneAll_eq]
    apply heights_le
    intro t' ht'
    obtain ⟨t, ht, rfl⟩ := List.mem_map.mp ht'
    have ht := (List.mem_filter.mp ht).1
    exact Nat.lt_of_le_of_lt (ih t ht) (height_lt_of_mem ht)

/-- Pruning twice is pruning once where rewriting is, and keeps what is kept. -/
theorem prune_prune (hkeep : ∀ v, keep (f v) = keep v) (hf : ∀ v, f (f v) = f v) (t : Rose α) :
    (t.prune keep f).prune keep f = t.prune keep f := by
  induction t using induct with
  | h v ts ih =>
    rw [prune, prune, hf, pruneAll_eq, pruneAll_eq]
    congr 1
    rw [List.filter_eq_self.mpr, List.map_map]
    · exact List.map_congr_left fun t ht => ih t (List.mem_filter.mp ht).1
    · intro t' ht'
      obtain ⟨t, ht, rfl⟩ := List.mem_map.mp ht'
      rw [value_prune, hkeep]
      exact (List.mem_filter.mp ht).2

end Prune

end Rose

open Rose

/-! ### Cells -/

structure Cell (ρ α : Type*) where
  value : α
  children : List ρ

abbrev Heap (ρ α : Type*) := ρ → Cell ρ α

section Represents

variable (h : Heap ρ α)

mutual

/-- The cell is the root of the tree. -/
def Represents : Rose α → ρ → Prop
  | .node v ts, r => (h r).value = v ∧ RepresentsAll ts (h r).children

def RepresentsAll : List (Rose α) → List ρ → Prop
  | [], rs => rs = []
  | t :: ts, rs => ∃ r rs', rs = r :: rs' ∧ Represents t r ∧ RepresentsAll ts rs'

end

end Represents

theorem representsAll_iff {h : Heap ρ α} {ts : List (Rose α)} {rs : List ρ} :
    RepresentsAll h ts rs ↔ List.Forall₂ (Represents h) ts rs := by
  induction ts generalizing rs with
  | nil => rw [RepresentsAll, List.forall₂_nil_left_iff]
  | cons t ts ih =>
    rw [RepresentsAll, List.forall₂_cons_left_iff]
    constructor
    · rintro ⟨r, rs', rfl, ht, hts⟩
      exact ⟨r, rs', ht, ih.mp hts, rfl⟩
    · rintro ⟨r, rs', ht, hts, rfl⟩
      exact ⟨r, rs', rfl, ht, ih.mpr hts⟩

/-- The tree at a cell, down to a depth. -/
def Heap.read (h : Heap ρ α) : ℕ → ρ → Rose α
  | 0, r => .node (h r).value []
  | n + 1, r => .node (h r).value ((h r).children.map (h.read n))

theorem read_of_represents {h : Heap ρ α} {t : Rose α} {r : ρ} {n : ℕ} (ht : Represents h t r)
    (hn : t.height ≤ n) : h.read n r = t := by
  induction t using induct generalizing r n with
  | h v ts ih =>
    rw [Represents, representsAll_iff] at ht
    obtain ⟨hv, hts⟩ := ht
    rw [height] at hn
    cases n with
    | zero =>
      cases ts with
      | nil => rw [Heap.read, hv]
      | cons t ts =>
        rw [heights] at hn
        omega
    | succ n =>
      rw [Heap.read, hv]
      congr 1
      generalize (h r).children = rs at hts
      induction hts with
      | nil => rfl
      | cons ht _ ihs =>
        rw [heights] at hn
        rw [List.map_cons, ih _ List.mem_cons_self ht (by omega),
          ihs (fun t hmem => ih t (List.mem_cons_of_mem _ hmem)) (by omega)]

/-! ### Places -/

/-- The part of a tree at a place, which is the way to it from the root. -/
def Rose.part : Rose α → List ℕ → Option (Rose α)
  | t, [] => some t
  | t, i :: p => (t.children[i]?).bind fun u => u.part p

/-- A tree whose cells are the places in it. -/
def load (t : Rose α) : Heap (List ℕ) α := fun p =>
  match t.part p with
  | some u => ⟨u.value, (List.range u.children.length).map fun i => p ++ [i]⟩
  | none => ⟨t.value, []⟩

theorem part_append (t : Rose α) (p q : List ℕ) :
    t.part (p ++ q) = (t.part p).bind fun u => u.part q := by
  induction p generalizing t with
  | nil => rfl
  | cons i p ih =>
    rw [List.cons_append, Rose.part, Rose.part]
    cases t.children[i]? with
    | none => rfl
    | some u => exact ih u

theorem represents_part {t u : Rose α} {p : List ℕ} (hp : t.part p = some u) :
    Represents (load t) u p := by
  induction u using induct generalizing p with
  | h v ts ih =>
    have hcell : load t p = ⟨v, (List.range ts.length).map fun i => p ++ [i]⟩ := by
      unfold load
      rw [hp]
      rfl
    rw [Represents, hcell, representsAll_iff, List.forall₂_iff_get]
    refine ⟨rfl, by simp, fun i hi hi' => ?_⟩
    rw [List.get_eq_getElem, List.get_eq_getElem, List.getElem_map, List.getElem_range]
    apply ih _ (List.getElem_mem _)
    rw [part_append, hp]
    change ((ts[i]?).bind fun u => u.part []) = some ts[i]
    rw [List.getElem?_eq_getElem hi]
    rfl

theorem represents_load (t : Rose α) : Represents (load t) t [] := represents_part rfl

/-! ### Walks -/

section Walk

variable (keep : α → Bool) (f : α → α)

/-- A cell after its visit. -/
def visit (h : Heap ρ α) (r : ρ) : Cell ρ α where
  value := f (h r).value
  children := (h r).children.filter fun c => keep (h c).value

/-- The cells that are reached by the children that are kept. -/
inductive Reaches (h : Heap ρ α) : ρ → ρ → Prop
  | refl (r : ρ) : Reaches h r r
  | step {r c s : ρ} : c ∈ (visit keep f h r).children → Reaches h c s → Reaches h r s

/-- A walk of at most so many visits, which gives up below a depth. -/
def walk [DecidableEq ρ] (limit : ℕ) : ℕ → Heap ρ α → List (ρ × ℕ) → Option (Option (Heap ρ α))
  | _, h, [] => some (some h)
  | 0, _, _ :: _ => none
  | fuel + 1, h, (r, d) :: stack =>
    if limit < d then some none
    else
      walk limit fuel (Function.update h r (visit keep f h r))
        (((visit keep f h r).children.map fun c => (c, d + 1)).reverse ++ stack)

variable {keep f}

/-- The cells of the trees that are kept. -/
theorem forall₂_kept {h : Heap ρ α} {ts : List (Rose α)} {rs : List ρ}
    (hts : List.Forall₂ (Represents h) ts rs) :
    List.Forall₂ (Represents h) (ts.filter fun t => keep t.value)
      (rs.filter fun c => keep (h c).value) := by
  induction hts with
  | nil => exact .nil
  | @cons t c ts rs ht _ ih =>
    have hvalue : t.value = (h c).value := by
      cases t with
      | node v us => exact ht.1.symm
    rw [List.filter_cons, List.filter_cons, hvalue]
    split_ifs
    · exact .cons ht ih
    · exact ih

theorem forall₂_of_mem {β γ : Type*} {R S : β → γ → Prop} {l : List β} {m : List γ}
    (h : List.Forall₂ R l m) (hS : ∀ a ∈ l, ∀ b ∈ m, R a b → S a b) : List.Forall₂ S l m := by
  induction h with
  | nil => exact .nil
  | cons hab _ ih =>
    refine .cons (hS _ List.mem_cons_self _ List.mem_cons_self hab) ?_
    exact ih fun a ha b hb => hS a (List.mem_cons_of_mem _ ha) b (List.mem_cons_of_mem _ hb)

theorem represents_of_visited {h h' : Heap ρ α} {t : Rose α} {r : ρ} (ht : Represents h t r)
    (hvisited : ∀ s, Reaches keep f h r s → h' s = visit keep f h s) :
    Represents h' (t.prune keep f) r := by
  induction t using induct generalizing r with
  | h v ts ih =>
    rw [Represents, representsAll_iff] at ht
    obtain ⟨hv, hts⟩ := ht
    rw [prune, Represents, hvisited r (.refl r), representsAll_iff, pruneAll_eq]
    refine ⟨congrArg f hv, ?_⟩
    rw [List.forall₂_map_left_iff]
    apply forall₂_of_mem (forall₂_kept hts)
    intro t hmem c hc hrep
    exact ih t (List.mem_filter.mp hmem).1 hrep fun s hs => hvisited s (.step hc hs)

variable [DecidableEq ρ]

section

variable (hkeep : ∀ v, keep (f v) = keep v) (hf : ∀ v, f (f v) = f v)
include hkeep hf

/-- A visit changes nothing for later ones. -/
theorem visit_update (h : Heap ρ α) (r s : ρ) :
    visit keep f (Function.update h r (visit keep f h r)) s = visit keep f h s := by
  have hkept (c : ρ) : keep (Function.update h r (visit keep f h r) c).value = keep (h c).value := by
    by_cases hc : c = r
    · rw [hc, Function.update_self]
      exact hkeep _
    · rw [Function.update_of_ne hc]
  unfold visit at hkept ⊢
  simp only [hkept]
  by_cases hs : s = r
  · rw [hs, Function.update_self]
    dsimp only
    rw [hf, List.filter_filter]
    simp only [Bool.and_self]
  · rw [Function.update_of_ne hs]

/-- A walk with enough fuel visits what is reached from its stack; a visited cell stays so. -/
theorem exists_walk {h₀ h : Heap ρ α} {limit fuel : ℕ} {stack : List (ρ × ℕ)} {ts : List (Rose α)}
    (hvisit : ∀ s, visit keep f h s = visit keep f h₀ s)
    (hstack : List.Forall₂ (fun t p => Represents h₀ t p.1 ∧ p.2 + t.height ≤ limit) ts stack)
    (hfuel : sizes ts ≤ fuel) :
    ∃ h', walk keep f limit fuel h stack = some (some h') ∧
      (∀ s, h s = visit keep f h₀ s → h' s = visit keep f h₀ s) ∧
        ∀ p ∈ stack, ∀ s, Reaches keep f h₀ p.1 s → h' s = visit keep f h₀ s := by
  induction fuel generalizing h stack ts with
  | zero =>
    cases hstack with
    | nil => exact ⟨h, rfl, fun s hs => hs, fun p hp => absurd hp List.not_mem_nil⟩
    | @cons t p ts stack ht _ =>
      cases t with
      | node v us =>
        rw [sizes, size] at hfuel
        omega
  | succ fuel ih =>
    cases hstack with
    | nil => exact ⟨h, rfl, fun s hs => hs, fun p hp => absurd hp List.not_mem_nil⟩
    | @cons t p ts stack ht hrest =>
      obtain ⟨r, d⟩ := p
      obtain ⟨v, us⟩ := t
      obtain ⟨hrep, hdepth⟩ := ht
      rw [Represents, representsAll_iff] at hrep
      rw [height] at hdepth
      rw [sizes, size] at hfuel
      dsimp only at hrep hdepth
      have hchildren : List.Forall₂ (fun t p => Represents h₀ t p.1 ∧ p.2 + t.height ≤ limit)
          (us.filter fun t => keep t.value) ((visit keep f h₀ r).children.map fun c => (c, d + 1)) := by
        rw [List.forall₂_map_right_iff]
        apply forall₂_of_mem (forall₂_kept hrep.2)
        intro t hmem c _ ht
        have := height_lt_of_mem (List.mem_filter.mp hmem).1
        exact ⟨ht, by dsimp only; omega⟩
      have hsizes := sizes_filter_le (fun t : Rose α => keep t.value) us
      obtain ⟨h', hwalk, hkept, hreach⟩ := ih (h := Function.update h r (visit keep f h r))
        (fun s => (visit_update hkeep hf h r s).trans (hvisit s))
        (List.rel_append (List.rel_reverse hchildren) hrest)
        (by rw [sizes_append, sizes_reverse]; omega)
      have hr : h' r = visit keep f h₀ r := hkept r (by rw [Function.update_self, hvisit])
      refine ⟨h', ?_, fun s hs => ?_, fun p hp s hs => ?_⟩
      · rw [walk, if_neg (by omega), hvisit]
        exact hvisit r ▸ hwalk
      · by_cases hsr : s = r
        · rw [hsr, hr]
        · exact hkept s (by rw [Function.update_of_ne hsr, hs])
      · rcases List.mem_cons.mp hp with rfl | hp
        · cases hs with
          | refl => exact hr
          | @step _ c _ hc hs =>
            have hmem : (c, d + 1) ∈
                ((visit keep f h₀ r).children.map fun c => (c, d + 1)).reverse ++ stack :=
              List.mem_append_left _ (List.mem_reverse.mpr (List.mem_map_of_mem hc))
            exact hreach _ hmem s hs
        · exact hreach p (List.mem_append_right _ hp) s hs

omit hkeep hf in
/-- With a lower limit a walk ends no later, and else as it did. -/
theorem walk_of_limit_le {limit limit' fuel : ℕ} (hle : limit ≤ limit') {h h' : Heap ρ α}
    {stack : List (ρ × ℕ)} (hwalk : walk keep f limit' fuel h stack = some (some h')) :
    walk keep f limit fuel h stack = some none ∨ walk keep f limit fuel h stack = some (some h') := by
  induction fuel generalizing h stack with
  | zero =>
    cases stack with
    | nil => exact .inr hwalk
    | cons p stack => cases hwalk
  | succ fuel ih =>
    cases stack with
    | nil => exact .inr hwalk
    | cons p stack =>
      obtain ⟨r, d⟩ := p
      rw [walk] at hwalk ⊢
      by_cases hdepth : limit < d
      · exact .inl (if_pos hdepth)
      · rw [if_neg hdepth]
        rw [if_neg (by omega)] at hwalk
        exact ih hwalk

/-- A walk through a whole tree prunes it. -/
theorem walk_load {t : Rose α} {limit : ℕ} (hlimit : t.height ≤ limit) :
    ∃ h', walk keep f limit t.size (load t) [([], 0)] = some (some h') ∧
      h'.read t.height [] = t.prune keep f := by
  have hload := represents_load t
  have hsizes : sizes [t] = t.size := by
    rw [sizes, sizes, Nat.add_zero]
  have hvisit (s : List ℕ) : visit keep f (load t) s = visit keep f (load t) s := rfl
  obtain ⟨h', hwalk, -, hreach⟩ := @exists_walk _ _ keep f _ hkeep hf (load t) (load t) limit t.size
    [([], 0)] [t] hvisit (.cons ⟨hload, by dsimp only; omega⟩ .nil) (Nat.le_of_eq hsizes)
  refine ⟨h', hwalk, read_of_represents ?_ (height_prune_le t)⟩
  exact represents_of_visited hload fun s hs => hreach _ List.mem_cons_self s hs

end

end Walk

end RoseHeap
