import Ark.OrderedRegex

/-!
# Masked texts

A text in which some parts have been replaced by one placeholder. A part of the masked text without the
first symbol of the placeholder is a part of the original as well, so that masking rarely creates a
match that was not there before.
-/

namespace Ark.OrderedRegex

variable {α : Type*}

/-! ### Suffixes -/

theorem suffix_append_cases {u a b : List α} (h : u <:+ a ++ b) :
    u <:+ b ∨ ∃ v, v ≠ [] ∧ v <:+ a ∧ u = v ++ b := by
  obtain ⟨x, hx⟩ := h
  rcases List.append_eq_append_iff.mp hx with ⟨y, rfl, rfl⟩ | ⟨y, rfl, rfl⟩
  · by_cases hy : y = []
    · subst hy
      exact Or.inl List.suffix_rfl
    · exact Or.inr ⟨y, hy, List.suffix_append _ _, rfl⟩
  · exact Or.inl (List.suffix_append _ _)

theorem suffix_cons_cases {u s : List α} {c : α} (h : u <:+ c :: s) : u = c :: s ∨ u <:+ s :=
  List.suffix_cons_iff.mp h

/-! ### Masking -/

/-- The placeholder is `r :: R`. -/
inductive Masked (r : α) (R : List α) (P : List α → Prop) : List α → List α → Prop
  | nil : Masked r R P [] []
  | keep (c : α) {o s} : Masked r R P o s → Masked r R P (c :: o) (c :: s)
  | mask {v o s} : P v → Masked r R P o s → Masked r R P (r :: R ++ o) (v ++ s)

namespace Masked

variable {r : α} {R : List α} {P : List α → Prop} {o s : List α}

theorem keep_append (h : Masked r R P o s) (w : List α) : Masked r R P (w ++ o) (w ++ s) := by
  induction w with
  | nil => exact h
  | cons c w ih => exact keep c ih

theorem take_front {w b : List α} (h : Masked r R P (w ++ b) s) (hw : ∀ c ∈ w, c ≠ r) :
    ∃ b', s = w ++ b' ∧ Masked r R P b b' := by
  induction w generalizing s with
  | nil => exact ⟨s, rfl, h⟩
  | cons c w ih =>
    obtain ⟨hc, hw⟩ := List.forall_mem_cons.mp hw
    generalize ho : c :: w ++ b = o at h
    cases h with
    | nil => exact absurd ho (List.cons_ne_nil _ _)
    | keep d h =>
      obtain ⟨rfl, rfl⟩ := List.cons.inj ho
      obtain ⟨b', rfl, hb⟩ := ih h hw
      exact ⟨b', rfl, hb⟩
    | mask hv h => exact absurd (List.cons.inj ho).1 hc

/-- The part has to begin outside a placeholder. -/
theorem take_part {a w b : List α} {c : α} (h : Masked r R P (a ++ (c :: w ++ b)) s)
    (hc : c ∉ r :: R) (hw : ∀ d ∈ w, d ≠ r) :
    ∃ a' b', s = a' ++ (c :: w ++ b') ∧ Masked r R P b b' := by
  have hword : ∀ d ∈ c :: w, d ≠ r :=
    List.forall_mem_cons.mpr ⟨fun hr => hc (hr ▸ List.mem_cons_self), hw⟩
  generalize ho : a ++ (c :: w ++ b) = o at h
  induction h generalizing a with
  | nil => simp at ho
  | keep d h ih =>
    cases a with
    | nil =>
      have hkeep := keep d h
      rw [← ho] at hkeep
      obtain ⟨b', hs, hb⟩ := take_front (w := c :: w) hkeep hword
      exact ⟨[], b', hs, hb⟩
    | cons e a =>
      obtain ⟨rfl, hrest⟩ := List.cons.inj ho
      obtain ⟨a', b', rfl, hb⟩ := ih hrest
      exact ⟨e :: a', b', rfl, hb⟩
  | @mask v o s hv h ih =>
    rcases List.append_eq_append_iff.mp ho with ⟨x, hR, hx⟩ | ⟨x, rfl, hx⟩
    · cases x with
      | nil =>
        obtain ⟨a', b', rfl, hb⟩ := ih (a := []) hx
        exact ⟨v ++ a', b', (List.append_assoc _ _ _).symm, hb⟩
      | cons e x =>
        obtain ⟨rfl, -⟩ := List.cons.inj hx
        exact absurd (hR ▸ List.mem_append_right _ List.mem_cons_self) hc
    · obtain ⟨a', b', rfl, hb⟩ := ih hx.symm
      exact ⟨v ++ a', b', (List.append_assoc _ _ _).symm, hb⟩

theorem mem_of_mem {d : α} (h : Masked r R P o s) (hd : d ∈ o) (hR : d ∉ r :: R) : d ∈ s := by
  induction h with
  | nil => exact hd
  | keep c h ih =>
    rcases List.mem_cons.mp hd with rfl | hd
    · exact List.mem_cons_self
    · exact List.mem_cons_of_mem _ (ih hd)
  | mask hv h ih =>
    rcases List.mem_append.mp hd with hd | hd
    · exact absurd hd hR
    · exact List.mem_append_right _ (ih hd)

end Masked

/-! ### Positions of a scan -/

variable {m : Rule α}

/-- A scan leaves alone what no match begins in. -/
theorem replaceAll_append_of_none {w y : List α} (h : ∀ u, u ≠ [] → u <:+ w → m (u ++ y) = none) :
    replaceAll m (w ++ y) = w ++ replaceAll m y := by
  induction w with
  | nil => rfl
  | cons c w ih =>
    have hhead := h (c :: w) (List.cons_ne_nil _ _) List.suffix_rfl
    rw [List.cons_append] at hhead ⊢
    rw [replaceAll_cons_of_none hhead, ih fun u hu hs => h u hu (hs.trans (List.suffix_cons _ _))]
    rfl


theorem Visited.replaceAll_suffix (hm : m.Consumes) {s t : List α} (h : Visited m s t) :
    replaceAll m t <:+ replaceAll m s := by
  induction h with
  | here s => exact List.suffix_rfl
  | kept hnone _ ih =>
    rw [replaceAll_cons_of_none hnone]
    exact ih.trans (List.suffix_cons _ _)
  | replaced hsome _ ih =>
    rw [replaceAll_of_some hm hsome]
    exact ih.trans (List.suffix_append _ _)

/-- The scan looks at a position before one it looks at, unless a match ends there. -/
theorem Visited.before (hm : m.Consumes) {s t : List α} {q : α} (h : Visited m s t)
    (hsuffix : q :: t <:+ s)
    (hends : ∀ x out rest u, m x = some (out, rest) → x ≠ u ++ q :: rest) : Visited m s (q :: t) := by
  induction h with
  | here s =>
    have := hsuffix.length_le
    simp at this
  | @kept c s t hnone hv ih =>
    rcases suffix_cons_cases hsuffix with heq | hsuffix
    · rw [heq]
      exact Visited.here _
    · exact Visited.kept hnone (ih hsuffix)
  | @replaced s out rest t hsome hv ih =>
    obtain ⟨w, hw, rfl⟩ := hm hsome
    rcases suffix_append_cases hsuffix with hsuffix | ⟨v, hv', ⟨x, rfl⟩, heq⟩
    · exact Visited.replaced hsome (ih hsuffix)
    · have hle := (hv.suffix hm).length_le
      obtain ⟨d, v, rfl⟩ := List.exists_cons_of_ne_nil hv'
      obtain ⟨rfl, rfl⟩ := List.cons.inj heq
      change (v ++ rest).length ≤ rest.length at hle
      rw [List.length_append] at hle
      obtain rfl := List.length_eq_zero_iff.mp (show v.length = 0 by omega)
      exact absurd (by simp) (hends _ _ _ x hsome)

end Ark.OrderedRegex
