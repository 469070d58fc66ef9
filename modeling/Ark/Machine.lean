import Mathlib.Logic.Relation
import Mathlib.Data.List.Basic

/-!
# Machines driven by named actions

A machine has initial states and a partial step function: `step s a = some t` says that action
`a` is enabled in `s` and leads to `t`. Runs are taken under a condition `ok` on the state before
a step and the action taken, so that one notion serves both unconditional runs and runs whose
environment keeps a promise. Concrete runs are computed by `execWhile`.
-/

namespace Ark

structure Machine (σ α : Type*) where
  init : σ → Prop
  step : σ → α → Option σ

namespace Machine

variable {σ α : Type*} (M : Machine σ α)

/-- `M.Run ok s t`: some sequence of enabled actions, each allowed by `ok`, leads from `s` to `t`. -/
inductive Run (ok : σ → α → Prop) (s : σ) : σ → Prop
  | refl : Run ok s s
  | tail {t u : σ} {a : α} : Run ok s t → ok t a → M.step t a = some u → Run ok s u

/-- States reached from an initial state by steps that `ok` allows. -/
def Reachable (ok : σ → α → Prop) (t : σ) : Prop := ∃ s, M.init s ∧ M.Run ok s t

/-- The condition that allows every step. -/
def always : σ → α → Prop := fun _ _ => True

variable {M} {ok ok' : σ → α → Prop} {s t u : σ} {a : α}

theorem Run.trans (h : M.Run ok s t) (h' : M.Run ok t u) : M.Run ok s u := by
  induction h' with
  | refl => exact h
  | tail _ ha hs ih => exact ih.tail ha hs

theorem Run.mono (hok : ∀ s a, ok s a → ok' s a) (h : M.Run ok s t) : M.Run ok' s t := by
  induction h with
  | refl => exact .refl
  | tail _ ha hs ih => exact ih.tail (hok _ _ ha) hs

/-- An invariant of the steps is an invariant of the runs. -/
theorem Run.preserves {I : σ → Prop}
    (hstep : ∀ s a t, I s → ok s a → M.step s a = some t → I t) (h : M.Run ok s t) (hs : I s) :
    I t := by
  induction h with
  | refl => exact hs
  | tail _ ha hst ih => exact hstep _ _ _ ih ha hst

theorem Reachable.init (h : M.init s) : M.Reachable ok s := ⟨s, h, .refl⟩

theorem Reachable.trans (h : M.Reachable ok s) (h' : M.Run ok s t) : M.Reachable ok t := by
  obtain ⟨s₀, h₀, hr⟩ := h
  exact ⟨s₀, h₀, hr.trans h'⟩

theorem Reachable.step (h : M.Reachable ok s) (ha : ok s a) (hs : M.step s a = some t) :
    M.Reachable ok t := h.trans (Run.refl.tail ha hs)

theorem Reachable.mono (hok : ∀ s a, ok s a → ok' s a) (h : M.Reachable ok s) :
    M.Reachable ok' s := by
  obtain ⟨s₀, h₀, hr⟩ := h
  exact ⟨s₀, h₀, hr.mono hok⟩

/-- The invariant rule: what holds initially and survives every allowed step holds of every
reachable state. -/
theorem Reachable.invariant {I : σ → Prop} (hinit : ∀ s, M.init s → I s)
    (hstep : ∀ s a t, I s → ok s a → M.step s a = some t → I t) (h : M.Reachable ok s) : I s := by
  obtain ⟨s₀, h₀, hr⟩ := h
  exact hr.preserves hstep (hinit s₀ h₀)

/-- The invariant rule under an invariant already established. -/
theorem Reachable.invariant_of {I J : σ → Prop} (hJ : ∀ s, M.Reachable ok s → J s)
    (hinit : ∀ s, M.init s → I s)
    (hstep : ∀ s a t, J s → I s → ok s a → M.step s a = some t → I t) (h : M.Reachable ok s) :
    I s := by
  obtain ⟨s₀, h₀, hr⟩ := h
  induction hr with
  | refl => exact hinit s₀ h₀
  | tail hr ha hs ih => exact hstep _ _ _ (hJ _ ⟨s₀, h₀, hr⟩) ih ha hs

/-! ### Computed runs -/

variable (M) in
/-- Perform a list of actions, checking `ok` before each one. -/
def execWhile (ok : σ → α → Bool) (s : σ) : List α → Option σ
  | [] => some s
  | a :: as => if ok s a then (M.step s a).bind fun t => execWhile ok t as else none

theorem run_of_execWhile {b : σ → α → Bool} (hb : ∀ s a, b s a = true → ok s a) {l : List α}
    (h : M.execWhile b s l = some t) : M.Run ok s t := by
  induction l generalizing s with
  | nil =>
    obtain rfl : s = t := by simpa [execWhile] using h
    exact .refl
  | cons a as ih =>
    simp only [execWhile] at h
    split at h
    next hok =>
      obtain ⟨u, hu, hr⟩ := Option.bind_eq_some_iff.mp h
      exact (Run.refl.tail (hb _ _ hok) hu).trans (ih hr)
    next => cases h

/-- A computed run from an initial state reaches a state that passes the test. -/
theorem exists_reachable {b : σ → α → Bool} {p : σ → Bool} (hinit : M.init s)
    (hb : ∀ s a, b s a = true → ok s a) {l : List α} (h : (M.execWhile b s l).any p = true) :
    ∃ t, M.Reachable ok t ∧ p t = true := by
  obtain ⟨t, ht, hp⟩ := (Option.any_eq_true _ _).mp h
  exact ⟨t, (Reachable.init hinit).trans (run_of_execWhile hb ht), hp⟩

/-- A computed run whose actions are all allowed in every state. -/
theorem exists_reachable_of_allowed {p : σ → Bool} (hinit : M.init s) {l : List α}
    (hl : ∀ a ∈ l, ∀ s, ok s a) (h : (M.execWhile (fun _ _ => true) s l).any p = true) :
    ∃ t, M.Reachable ok t ∧ p t = true := by
  obtain ⟨t, ht, hp⟩ := (Option.any_eq_true _ _).mp h
  refine ⟨t, ?_, hp⟩
  apply (Reachable.init hinit).trans
  clear hinit h hp
  induction l generalizing s with
  | nil =>
    obtain rfl : s = t := by simpa [execWhile] using ht
    exact .refl
  | cons a as ih =>
    simp only [execWhile, if_true] at ht
    obtain ⟨u, hu, hrest⟩ := Option.bind_eq_some_iff.mp ht
    have ha := hl a List.mem_cons_self s
    exact (Run.refl.tail ha hu).trans (ih (fun a' ha' => hl a' (List.mem_cons_of_mem a ha')) hrest)

end Machine
end Ark
