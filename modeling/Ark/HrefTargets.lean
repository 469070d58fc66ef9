import Mathlib.Data.List.DropRight
import Mathlib.Data.List.Infix
import Mathlib.Data.List.TakeWhile

/-!
# Where a link leads

A browser reads a link of a document that came over http or https without the controls and spaces
around it and without tabs and newlines. It leads elsewhere where a scheme stands first, or two
slashes, for which backslashes count as well. Whoever drops more characters from the link before
looking still sees what stands first, unless he drops it.
-/

namespace HrefTargets

abbrev Text := List Char

def isControlOrSpace (c : Char) : Bool := c.toNat ≤ 32

def isTabOrNewline (c : Char) : Bool := c == '\t' || c == '\n' || c == '\r'

/-- What a browser reads of a link. -/
def input (v : Text) : Text :=
  ((v.dropWhile isControlOrSpace).rdropWhile isControlOrSpace).filter fun c => !isTabOrNewline c

def isSchemeChar (c : Char) : Bool := c.isAlphanum || c == '+' || c == '-' || c == '.'

def isSlash (c : Char) : Bool := c == '/' || c == '\\'

inductive Target
  | scheme
  | host (first second : Char)
  | sameOrigin
  deriving DecidableEq

/-- A scheme is read up to the first colon, and a host behind two slashes. -/
def target (v : Text) : Target :=
  match input v with
  | a :: t =>
    if a.isAlpha && (t.dropWhile isSchemeChar).head? == some ':' then .scheme
    else
      match t with
      | b :: _ => if isSlash a && isSlash b then .host a b else .sameOrigin
      | [] => .sameOrigin
  | [] => .sameOrigin

example : target "java\nscript:x".toList = .scheme := by decide
example : target " /\\host".toList = .host '/' '\\' := by decide
example : target "a/b?c:d".toList = .sameOrigin := by decide

/-- Two slashes of which one is a backslash. -/
def Target.Backslashed : Target → Prop
  | .host a b => ¬(a = '/' ∧ b = '/')
  | _ => False

/-- What stands first where a link leads elsewhere. -/
theorem exists_start {v : Text} (h : target v ≠ .sameOrigin) :
    (∃ a t u, input v = a :: t ++ ':' :: u ∧ a.isAlpha = true ∧ ∀ c ∈ t, isSchemeChar c = true) ∨
      ∃ a b u, input v = a :: b :: u ∧ target v = .host a b ∧ isSlash a = true ∧ isSlash b = true := by
  unfold target at h ⊢
  cases hinput : input v with
  | nil => exact absurd (by rw [hinput]) h
  | cons a t =>
    rw [hinput] at h
    dsimp only at h ⊢
    by_cases hscheme : (a.isAlpha && (t.dropWhile isSchemeChar).head? == some ':') = true
    · left
      rw [Bool.and_eq_true, beq_iff_eq] at hscheme
      obtain ⟨u, hu⟩ := List.head?_eq_some_iff.mp hscheme.2
      refine ⟨a, t.takeWhile isSchemeChar, u, ?_, hscheme.1, fun c hc => List.mem_takeWhile_imp hc⟩
      rw [List.cons_append, ← hu, List.takeWhile_append_dropWhile]
    · right
      rw [if_neg hscheme] at h ⊢
      cases t with
      | nil => exact absurd rfl h
      | cons b u =>
        dsimp only at h ⊢
        by_cases hslash : (isSlash a && isSlash b) = true
        · rw [if_pos hslash]
          rw [Bool.and_eq_true] at hslash
          exact ⟨a, b, u, rfl, rfl, hslash.1, hslash.2⟩
        · exact absurd (if_neg hslash) h

/-! ### Other readers -/

/-- A link around which white space is stripped once some characters are dropped. -/
def normalized (ignored space : Char → Bool) (v : Text) : Text :=
  ((v.filter fun c => !ignored c).dropWhile space).rdropWhile space

theorem suffix_dropWhile {p : Char → Bool} {q : Text} (hq : ∀ c ∈ q, p c = false) (w : Text) :
    q <:+ (w ++ q).dropWhile p := by
  induction w with
  | nil =>
    rw [List.nil_append]
    cases q with
    | nil => exact List.nil_suffix
    | cons c q =>
      rw [List.dropWhile_cons_of_neg (by simp [hq c List.mem_cons_self])]
  | cons c w ih =>
    rw [List.cons_append, List.dropWhile_cons]
    split_ifs
    · exact ih
    · exact (List.suffix_append w q).trans (List.suffix_cons c _)

theorem prefix_rdropWhile {p : Char → Bool} {q : Text} (hq : ∀ c ∈ q, p c = false) (w : Text) :
    q <+: (q ++ w).rdropWhile p := by
  have h := suffix_dropWhile (q := q.reverse) (fun c hc => hq c (List.mem_reverse.mp hc)) w.reverse
  unfold List.rdropWhile
  rw [List.reverse_append, ← List.reverse_suffix, List.reverse_reverse]
  exact h

/-- A text around which something was dropped. -/
theorem exists_dropped (p : Char → Bool) (v : Text) : ∃ a b : Text,
    v = a ++ (v.dropWhile p).rdropWhile p ++ b ∧ (∀ c ∈ a, p c = true) ∧ ∀ c ∈ b, p c = true := by
  refine ⟨v.takeWhile p, (v.dropWhile p).rtakeWhile p, ?_, fun c hc => List.mem_takeWhile_imp hc,
    fun c hc => List.mem_rtakeWhile_imp hc⟩
  rw [List.append_assoc, List.rdropWhile_append_rtakeWhile, List.takeWhile_append_dropWhile]

/-- What stands first for a browser and is not dropped stands first. -/
theorem prefix_normalized {ignored space : Char → Bool} {q v : Text}
    (htab : ∀ c, isTabOrNewline c = true → ignored c = true)
    (hcontrol : ∀ c, isControlOrSpace c = true → ignored c = true ∨ space c = true)
    (hq : ∀ c ∈ q, ignored c = false ∧ space c = false) (hinput : q <+: input v) :
    q <+: normalized ignored space v := by
  obtain ⟨a, b, hv, ha, hb⟩ := exists_dropped isControlOrSpace v
  obtain ⟨r, hr⟩ := hinput
  unfold input at hr
  set m := (v.dropWhile isControlOrSpace).rdropWhile isControlOrSpace
  have hm : m.filter (fun c => !ignored c) = q ++ r.filter fun c => !ignored c := by
    have hqi : q.filter (fun c => !ignored c) = q :=
      List.filter_eq_self.mpr fun c hc => by simp [(hq c hc).1]
    conv_rhs => rw [← hqi]
    rw [← List.filter_append, hr, List.filter_filter]
    apply List.filter_congr
    intro c _
    cases htc : isTabOrNewline c with
    | false => simp
    | true => simp [htab c htc]
  have hspace : ∀ c ∈ a.filter (fun c => !ignored c), space c = true := by
    intro c hc
    obtain ⟨hc, hi⟩ := List.mem_filter.mp hc
    rcases hcontrol c (ha c hc) with h | h
    · rw [h] at hi
      cases hi
    · exact h
  unfold normalized
  rw [hv, List.filter_append, List.filter_append, hm, List.append_assoc, List.append_assoc,
    List.dropWhile_append_of_pos hspace]
  cases q with
  | nil => exact List.nil_prefix
  | cons c q =>
    rw [List.cons_append, List.dropWhile_cons_of_neg (by simp [(hq c List.mem_cons_self).2]),
      ← List.cons_append]
    exact prefix_rdropWhile (fun c hc => (hq c hc).2) _

end HrefTargets
