import Mathlib.Tactic

/-!
# Regular expressions with leftmost-first matching

An expression without nested repetitions yields its matches at the front of a text in the order in which
a backtracking engine tries them, each as the matched part and the rest. The first of them is the match
of the engine. Whether there is one is a question about the words of the expression alone.
-/

namespace Ark.OrderedRegex

variable {α : Type*}

inductive Re (α : Type*) where
  | empty
  | cls (p : α → Bool)
  | seq (a b : Re α)
  | alt (a b : Re α)
  | star (p : α → Bool)
  | lazy (p : α → Bool)

/-- The prefixes in the class, the longest first. -/
def greedy (p : α → Bool) : List α → List (List α × List α)
  | [] => [([], [])]
  | c :: t =>
    if p c then (greedy p t).map (fun m => (c :: m.1, m.2)) ++ [([], c :: t)] else [([], c :: t)]

/-- The prefixes in the class, the shortest first. -/
def reluctant (p : α → Bool) : List α → List (List α × List α)
  | [] => [([], [])]
  | c :: t =>
    ([], c :: t) :: if p c then (reluctant p t).map (fun m => (c :: m.1, m.2)) else []

namespace Re

def exec : Re α → List α → List (List α × List α)
  | empty, s => [([], s)]
  | cls _, [] => []
  | cls p, c :: t => if p c then [([c], t)] else []
  | seq a b, s => (exec a s).flatMap fun m => (exec b m.2).map fun n => (m.1 ++ n.1, n.2)
  | alt a b, s => exec a s ++ exec b s
  | star p, s => greedy p s
  | lazy p, s => reluctant p s

section

variable {p : α → Bool} {a b : Re α} {c : α} {s : List α}

theorem exec_cls_of_pos (hc : p c) : (cls p).exec (c :: s) = [([c], s)] := if_pos hc

theorem exec_cls_of_neg (hc : ¬p c) : (cls p).exec (c :: s) = [] := if_neg hc

theorem exec_seq : (seq a b).exec s =
    (a.exec s).flatMap fun m => (b.exec m.2).map fun n => (m.1 ++ n.1, n.2) := rfl

theorem exec_alt : (alt a b).exec s = a.exec s ++ b.exec s := rfl

end

/-- The words of an expression. -/
def Lang : Re α → List α → Prop
  | empty, w => w = []
  | cls p, w => ∃ c, w = [c] ∧ p c
  | seq a b, w => ∃ u v, w = u ++ v ∧ a.Lang u ∧ b.Lang v
  | alt a b, w => a.Lang w ∨ b.Lang w
  | star p, w => ∀ c ∈ w, p c
  | lazy p, w => ∀ c ∈ w, p c

section

variable {p : α → Bool} {a b : Re α} {w : List α}

theorem lang_empty : (empty : Re α).Lang w ↔ w = [] := Iff.rfl

theorem lang_cls : (cls p).Lang w ↔ ∃ c, w = [c] ∧ p c := Iff.rfl

theorem lang_seq : (seq a b).Lang w ↔ ∃ u v, w = u ++ v ∧ a.Lang u ∧ b.Lang v := Iff.rfl

theorem lang_alt : (alt a b).Lang w ↔ a.Lang w ∨ b.Lang w := Iff.rfl

theorem lang_star : (star p).Lang w ↔ ∀ c ∈ w, p c := Iff.rfl

end

/-! ### Derived forms -/

def opt (a : Re α) : Re α := alt a empty

def plus (p : α → Bool) : Re α := seq (cls p) (star p)

def exactly : ℕ → (α → Bool) → Re α
  | 0, _ => empty
  | n + 1, p => seq (cls p) (exactly n p)

def atLeast (n : ℕ) (p : α → Bool) : Re α := seq (exactly n p) (star p)

def seqs (a : Re α) : List (Re α) → Re α
  | [] => a
  | b :: bs => seq a (seqs b bs)

def alts (a : Re α) : List (Re α) → Re α
  | [] => a
  | b :: bs => alt a (alts b bs)

/-- One symbol of each class in turn. -/
def word : List (α → Bool) → Re α
  | [] => empty
  | p :: ps => seq (cls p) (word ps)

end Re

/-! ### Matches and words -/

theorem mem_greedy {p : α → Bool} {s w t : List α} :
    (w, t) ∈ greedy p s ↔ s = w ++ t ∧ ∀ c ∈ w, p c := by
  induction s generalizing w with
  | nil =>
    simp only [greedy, List.mem_singleton, Prod.mk.injEq]
    constructor
    · rintro ⟨rfl, rfl⟩
      simp
    · rintro ⟨happ, -⟩
      exact List.append_eq_nil_iff.mp happ.symm
  | cons c s ih =>
    unfold greedy
    cases w with
    | nil =>
      have hnil : (c :: s = [] ++ t ∧ ∀ d ∈ ([] : List α), p d) ↔ t = c :: s := by
        rw [List.nil_append, eq_comm]
        simp
      rw [hnil]
      split_ifs <;> simp
    | cons d w =>
      split_ifs with hc
      · simp only [List.mem_append, List.mem_map, Prod.mk.injEq, List.cons.injEq, Prod.exists,
          List.mem_singleton, reduceCtorEq, false_and, or_false]
        constructor
        · rintro ⟨w', t', hmem, ⟨rfl, rfl⟩, rfl⟩
          obtain ⟨rfl, hall⟩ := ih.mp hmem
          exact ⟨rfl, List.forall_mem_cons.mpr ⟨hc, hall⟩⟩
        · rintro ⟨happ, hall⟩
          obtain ⟨rfl, rfl⟩ := List.cons.inj happ
          exact ⟨w, t, ih.mpr ⟨rfl, (List.forall_mem_cons.mp hall).2⟩, ⟨rfl, rfl⟩, rfl⟩
      · simp only [List.mem_singleton, Prod.mk.injEq, reduceCtorEq, false_and, false_iff, not_and]
        intro happ hall
        obtain ⟨rfl, rfl⟩ := List.cons.inj happ
        exact hc (hall _ List.mem_cons_self)

theorem mem_reluctant {p : α → Bool} {s w t : List α} :
    (w, t) ∈ reluctant p s ↔ s = w ++ t ∧ ∀ c ∈ w, p c := by
  rw [← mem_greedy]
  induction s generalizing w t with
  | nil => rfl
  | cons c s ih =>
    unfold reluctant greedy
    split_ifs with hc
    · simp only [List.mem_cons, List.mem_map, List.mem_append, Prod.exists, ih, List.not_mem_nil,
        or_false]
      exact or_comm
    · rfl

namespace Re

/-- The matches at the front of a text are its prefixes among the words. -/
theorem mem_exec {r : Re α} {s w t : List α} : (w, t) ∈ r.exec s ↔ s = w ++ t ∧ r.Lang w := by
  induction r generalizing s w t with
  | empty =>
    constructor
    · intro h
      obtain ⟨rfl, rfl⟩ := Prod.mk.inj (List.mem_singleton.mp h)
      exact ⟨rfl, rfl⟩
    · rintro ⟨rfl, rfl⟩
      exact List.mem_singleton_self _
  | cls p =>
    cases s with
    | nil =>
      constructor
      · intro h
        exact absurd h List.not_mem_nil
      · rintro ⟨happ, c, rfl, -⟩
        exact absurd happ.symm (List.cons_ne_nil _ _)
    | cons c s =>
      by_cases hc : p c
      · rw [exec_cls_of_pos hc, List.mem_singleton, Prod.mk.injEq]
        constructor
        · rintro ⟨rfl, rfl⟩
          exact ⟨rfl, c, rfl, hc⟩
        · rintro ⟨happ, d, rfl, hd⟩
          obtain ⟨rfl, rfl⟩ := List.cons.inj happ
          exact ⟨rfl, rfl⟩
      · rw [exec_cls_of_neg hc]
        constructor
        · intro h
          exact absurd h List.not_mem_nil
        · rintro ⟨happ, d, rfl, hd⟩
          obtain ⟨rfl, rfl⟩ := List.cons.inj happ
          exact absurd hd hc
  | seq a b iha ihb =>
    simp only [exec_seq, List.mem_flatMap, List.mem_map, Prod.mk.injEq, Prod.exists]
    constructor
    · rintro ⟨u, s', hmu, v, t', hmv, rfl, rfl⟩
      obtain ⟨rfl, hu⟩ := iha.mp hmu
      obtain ⟨rfl, hv⟩ := ihb.mp hmv
      exact ⟨(List.append_assoc _ _ _).symm, u, v, rfl, hu, hv⟩
    · rintro ⟨rfl, u, v, rfl, hu, hv⟩
      exact ⟨u, v ++ t, iha.mpr ⟨List.append_assoc _ _ _, hu⟩, v, t, ihb.mpr ⟨rfl, hv⟩, rfl, rfl⟩
  | alt a b iha ihb =>
    rw [exec_alt, List.mem_append, iha, ihb]
    exact and_or_left.symm
  | star p => exact mem_greedy
  | lazy p => exact mem_reluctant

/-- The match of the engine at the front of a text. -/
def first (r : Re α) (s : List α) : Option (List α × List α) := (r.exec s).head?

theorem first_spec {r : Re α} {s w t : List α} (h : r.first s = some (w, t)) :
    s = w ++ t ∧ r.Lang w :=
  mem_exec.mp (List.mem_of_mem_head? h)

theorem first_eq_none_iff {r : Re α} {s : List α} :
    r.first s = none ↔ ∀ w t, s = w ++ t → ¬r.Lang w := by
  unfold first
  rw [List.head?_eq_none_iff, List.eq_nil_iff_forall_not_mem]
  constructor
  · intro h w t happ hw
    exact h (w, t) (mem_exec.mpr ⟨happ, hw⟩)
  · rintro h ⟨w, t⟩ hmem
    obtain ⟨happ, hw⟩ := mem_exec.mp hmem
    exact h w t happ hw

theorem first_ne_none_iff {r : Re α} {s : List α} :
    r.first s ≠ none ↔ ∃ w t, s = w ++ t ∧ r.Lang w := by
  rw [Ne, first_eq_none_iff]
  push Not
  rfl

/-! ### The first match of a compound -/

theorem first_empty (s : List α) : (empty : Re α).first s = some ([], s) := rfl

theorem first_cls_of_pos {p : α → Bool} {c : α} (hc : p c) (t : List α) :
    (cls p).first (c :: t) = some ([c], t) :=
  congrArg List.head? (exec_cls_of_pos hc)

theorem first_cls_of_neg {p : α → Bool} {c : α} (hc : ¬p c) (t : List α) :
    (cls p).first (c :: t) = none :=
  congrArg List.head? (exec_cls_of_neg hc)

theorem first_seq {a b : Re α} {s s' t u v : List α} (ha : a.first s = some (u, s'))
    (hb : b.first s' = some (v, t)) : (seq a b).first s = some (u ++ v, t) := by
  unfold first at *
  obtain ⟨l, hl⟩ := List.head?_eq_some_iff.mp ha
  obtain ⟨l', hl'⟩ := List.head?_eq_some_iff.mp hb
  simp [exec_seq, hl, hl']

theorem first_seq_none {a b : Re α} {s : List α} (ha : a.first s = none) :
    (seq a b).first s = none := by
  unfold first at *
  simp [exec_seq, List.head?_eq_none_iff.mp ha]

theorem first_alt_left {a b : Re α} {s : List α} {m : List α × List α} (ha : a.first s = some m) :
    (alt a b).first s = some m := by
  unfold first at *
  rw [exec_alt, List.head?_append, ha, Option.some_or]

theorem first_alt_right {a b : Re α} {s : List α} (ha : a.first s = none) :
    (alt a b).first s = b.first s := by
  unfold first at *
  rw [exec_alt, List.head?_append, ha, Option.none_or]

theorem first_star (p : α → Bool) (s : List α) :
    (star p).first s = some (s.takeWhile p, s.dropWhile p) := by
  change (greedy p s).head? = _
  induction s with
  | nil => rfl
  | cons c t ih =>
    unfold greedy
    by_cases hc : p c
    · rw [if_pos hc, List.head?_append, List.head?_map, ih, List.takeWhile_cons_of_pos hc,
        List.dropWhile_cons_of_pos hc]
      rfl
    · rw [if_neg hc, List.takeWhile_cons_of_neg hc, List.dropWhile_cons_of_neg hc]
      rfl

theorem first_plus {p : α → Bool} {c : α} (hc : p c) (t : List α) :
    (plus p).first (c :: t) = some (c :: t.takeWhile p, t.dropWhile p) :=
  first_seq (first_cls_of_pos hc t) (first_star p t)

theorem first_opt {a : Re α} {s : List α} {m : List α × List α} (ha : a.first s = some m) :
    (opt a).first s = some m :=
  first_alt_left ha

theorem first_opt_none {a : Re α} {s : List α} (ha : a.first s = none) :
    (opt a).first s = some ([], s) := by
  unfold opt
  rw [first_alt_right ha, first_empty]

/-- Where only one prefix is a word, the engine finds it whatever it tries first. -/
theorem first_of_unique {r : Re α} {n y : List α} (hn : r.Lang n)
    (hunique : ∀ w t, n ++ y = w ++ t → r.Lang w → w = n) : r.first (n ++ y) = some (n, y) := by
  cases h : r.first (n ++ y) with
  | none => exact absurd hn (first_eq_none_iff.mp h n y rfl)
  | some m =>
    obtain ⟨w, t⟩ := m
    obtain ⟨happ, hw⟩ := first_spec h
    obtain rfl := hunique w t happ hw
    rw [List.append_cancel_left happ]

/-! ### The words of the derived forms -/

theorem lang_opt {a : Re α} {w : List α} : (opt a).Lang w ↔ w = [] ∨ a.Lang w := or_comm

theorem lang_plus {p : α → Bool} {w : List α} : (plus p).Lang w ↔ w ≠ [] ∧ ∀ c ∈ w, p c := by
  simp only [plus, lang_seq, lang_cls, lang_star]
  constructor
  · rintro ⟨_, v, rfl, ⟨c, rfl, hc⟩, hv⟩
    exact ⟨List.cons_ne_nil _ _, List.forall_mem_cons.mpr ⟨hc, hv⟩⟩
  · rintro ⟨hne, hall⟩
    obtain ⟨c, v, rfl⟩ := List.exists_cons_of_ne_nil hne
    obtain ⟨hc, hv⟩ := List.forall_mem_cons.mp hall
    exact ⟨[c], v, rfl, ⟨c, rfl, hc⟩, hv⟩

theorem lang_exactly {n : ℕ} {p : α → Bool} {w : List α} :
    (exactly n p).Lang w ↔ w.length = n ∧ ∀ c ∈ w, p c := by
  induction n generalizing w with
  | zero =>
    simp only [exactly, lang_empty, List.length_eq_zero_iff]
    constructor
    · rintro rfl
      simp
    · exact And.left
  | succ n ih =>
    simp only [exactly, lang_seq, lang_cls, ih]
    constructor
    · rintro ⟨_, v, rfl, ⟨c, rfl, hc⟩, hlen, hv⟩
      exact ⟨by simp [hlen], List.forall_mem_cons.mpr ⟨hc, hv⟩⟩
    · rintro ⟨hlen, hall⟩
      obtain ⟨c, v, rfl⟩ := List.exists_cons_of_length_eq_add_one hlen
      obtain ⟨hc, hv⟩ := List.forall_mem_cons.mp hall
      exact ⟨[c], v, rfl, ⟨c, rfl, hc⟩, by simpa using hlen, hv⟩

theorem lang_atLeast {n : ℕ} {p : α → Bool} {w : List α} :
    (atLeast n p).Lang w ↔ n ≤ w.length ∧ ∀ c ∈ w, p c := by
  simp only [atLeast, lang_seq, lang_star, lang_exactly]
  constructor
  · rintro ⟨u, v, rfl, ⟨hlen, hu⟩, hv⟩
    exact ⟨by simp [hlen], List.forall_mem_append.mpr ⟨hu, hv⟩⟩
  · rintro ⟨hlen, hall⟩
    refine ⟨w.take n, w.drop n, (List.take_append_drop n w).symm, ⟨by simpa using hlen, ?_⟩, ?_⟩
    · exact fun c hc => hall c (List.mem_of_mem_take hc)
    · exact fun c hc => hall c (List.mem_of_mem_drop hc)

theorem lang_word {ps : List (α → Bool)} {w : List α} :
    (word ps).Lang w ↔ List.Forall₂ (fun p c => p c = true) ps w := by
  induction ps generalizing w with
  | nil => simp [word, lang_empty]
  | cons p ps ih =>
    simp only [word, lang_seq, lang_cls, ih]
    constructor
    · rintro ⟨_, v, rfl, ⟨c, rfl, hc⟩, hv⟩
      exact List.Forall₂.cons hc hv
    · rintro (_ | ⟨hc, hv⟩)
      exact ⟨[_], _, rfl, ⟨_, rfl, hc⟩, hv⟩

theorem lang_alts {a : Re α} {bs : List (Re α)} {w : List α} :
    (alts a bs).Lang w ↔ a.Lang w ∨ ∃ b ∈ bs, b.Lang w := by
  induction bs generalizing a with
  | nil => simp [alts]
  | cons b bs ih =>
    simp only [alts, lang_alt, ih, List.mem_cons, exists_eq_or_imp]

/-! ### The symbols of a word -/

def classes : Re α → List (α → Bool)
  | empty => []
  | cls p => [p]
  | seq a b => a.classes ++ b.classes
  | alt a b => a.classes ++ b.classes
  | star p => [p]
  | lazy p => [p]

theorem exists_class {r : Re α} {w : List α} (h : r.Lang w) : ∀ c ∈ w, ∃ p ∈ r.classes, p c := by
  induction r generalizing w with
  | empty =>
    intro c hc
    rw [show w = [] from h] at hc
    exact absurd hc List.not_mem_nil
  | cls p =>
    obtain ⟨d, rfl, hd⟩ := h
    intro c hc
    rw [List.mem_singleton.mp hc]
    exact ⟨p, List.mem_singleton_self p, hd⟩
  | seq a b iha ihb =>
    obtain ⟨u, v, rfl, hu, hv⟩ := h
    intro c hc
    rcases List.mem_append.mp hc with hc | hc
    · obtain ⟨p, hp, hpc⟩ := iha hu c hc
      exact ⟨p, List.mem_append_left _ hp, hpc⟩
    · obtain ⟨p, hp, hpc⟩ := ihb hv c hc
      exact ⟨p, List.mem_append_right _ hp, hpc⟩
  | alt a b iha ihb =>
    intro c hc
    rcases h with h | h
    · obtain ⟨p, hp, hpc⟩ := iha h c hc
      exact ⟨p, List.mem_append_left _ hp, hpc⟩
    · obtain ⟨p, hp, hpc⟩ := ihb h c hc
      exact ⟨p, List.mem_append_right _ hp, hpc⟩
  | star p => exact fun c hc => ⟨p, List.mem_singleton_self p, h c hc⟩
  | lazy p => exact fun c hc => ⟨p, List.mem_singleton_self p, h c hc⟩

/-- A symbol outside every class is in no word. -/
theorem not_mem_of_classes {r : Re α} {x : α} (hx : ∀ p ∈ r.classes, p x = false) {w : List α}
    (h : r.Lang w) : x ∉ w := by
  intro hmem
  obtain ⟨p, hp, hpx⟩ := exists_class h x hmem
  rw [hx p hp] at hpx
  exact Bool.false_ne_true hpx

/-! ### Expressions that agree -/

/-- Expressions of the same form whose classes agree on some symbols. -/
inductive Agree (S : α → Prop) : Re α → Re α → Prop
  | empty : Agree S .empty .empty
  | cls {p p'} : (∀ c, S c → p c = p' c) → Agree S (.cls p) (.cls p')
  | seq {a a' b b'} : Agree S a a' → Agree S b b' → Agree S (.seq a b) (.seq a' b')
  | alt {a a' b b'} : Agree S a a' → Agree S b b' → Agree S (.alt a b) (.alt a' b')
  | star {p p'} : (∀ c, S c → p c = p' c) → Agree S (.star p) (.star p')
  | lazy {p p'} : (∀ c, S c → p c = p' c) → Agree S (.lazy p) (.lazy p')

theorem greedy_congr {p p' : α → Bool} {s : List α} (h : ∀ c ∈ s, p c = p' c) :
    greedy p s = greedy p' s := by
  induction s with
  | nil => rfl
  | cons c s ih =>
    obtain ⟨hc, hs⟩ := List.forall_mem_cons.mp h
    unfold greedy
    rw [hc, ih hs]

theorem reluctant_congr {p p' : α → Bool} {s : List α} (h : ∀ c ∈ s, p c = p' c) :
    reluctant p s = reluctant p' s := by
  induction s with
  | nil => rfl
  | cons c s ih =>
    obtain ⟨hc, hs⟩ := List.forall_mem_cons.mp h
    unfold reluctant
    rw [hc, ih hs]

theorem Agree.exec {S : α → Prop} {r r' : Re α} (h : Agree S r r') {s : List α}
    (hs : ∀ c ∈ s, S c) : r.exec s = r'.exec s := by
  induction h generalizing s with
  | empty => rfl
  | cls hp =>
    cases s with
    | nil => rfl
    | cons c s =>
      have hc := hp c (hs c List.mem_cons_self)
      change (if _ then _ else _) = if _ then _ else _
      rw [hc]
  | seq _ _ iha ihb =>
    rw [exec_seq, exec_seq, iha hs]
    refine List.flatMap_congr fun m hm => ?_
    obtain ⟨happ, -⟩ := mem_exec.mp (show (m.1, m.2) ∈ _ from hm)
    rw [ihb fun c hc => hs c (happ ▸ List.mem_append_right _ hc)]
  | alt _ _ iha ihb =>
    rw [exec_alt, exec_alt, iha hs, ihb hs]
  | star hp => exact greedy_congr fun c hc => hp c (hs c hc)
  | lazy hp => exact reluctant_congr fun c hc => hp c (hs c hc)

theorem Agree.first {S : α → Prop} {r r' : Re α} (h : Agree S r r') {s : List α}
    (hs : ∀ c ∈ s, S c) : r.first s = r'.first s :=
  congrArg List.head? (h.exec hs)

theorem Agree.lang {S : α → Prop} {r r' : Re α} (h : Agree S r r') {w : List α}
    (hw : ∀ c ∈ w, S c) : r.Lang w ↔ r'.Lang w := by
  have hexec := h.exec hw
  have hiff : ∀ r : Re α, (w, []) ∈ r.exec w ↔ r.Lang w := fun r =>
    mem_exec.trans (and_iff_right (List.append_nil w).symm)
  rw [← hiff, ← hiff, hexec]

theorem agree_refl (S : α → Prop) (r : Re α) : Agree S r r := by
  induction r with
  | empty => exact Agree.empty
  | cls p => exact Agree.cls fun _ _ => rfl
  | seq a b iha ihb => exact Agree.seq iha ihb
  | alt a b iha ihb => exact Agree.alt iha ihb
  | star p => exact Agree.star fun _ _ => rfl
  | lazy p => exact Agree.lazy fun _ _ => rfl

theorem agree_word {β : Type*} {S : α → Prop} {f g : β → α → Bool} {ls : List β}
    (h : ∀ l ∈ ls, ∀ c, S c → f l c = g l c) : Agree S (word (ls.map f)) (word (ls.map g)) := by
  induction ls with
  | nil => exact Agree.empty
  | cons l ls ih =>
    obtain ⟨hl, hls⟩ := List.forall_mem_cons.mp h
    exact Agree.seq (Agree.cls hl) (ih hls)

end Re

/-! ### Groups -/

/-- What three groups of one expression capture, and the rest. -/
structure Groups (α : Type*) where
  key : List α
  sep : List α
  val : List α
  rest : List α

namespace Groups

def matched (g : Groups α) : List α := g.key ++ g.sep ++ g.val

end Groups

def groups (a b c : Re α) (s : List α) : Option (Groups α) :=
  ((a.exec s).flatMap fun x => (b.exec x.2).flatMap fun y =>
    (c.exec y.2).map fun z => ⟨x.1, y.1, z.1, z.2⟩).head?

section Groups

variable {a b c : Re α} {s : List α} {g : Groups α}

theorem groups_spec (h : groups a b c s = some g) :
    s = g.matched ++ g.rest ∧ a.Lang g.key ∧ b.Lang g.sep ∧ c.Lang g.val := by
  have hmem := List.mem_of_mem_head? h
  simp only [List.mem_flatMap, List.mem_map, Prod.exists] at hmem
  obtain ⟨x, s₁, hmx, y, s₂, hmy, z, s₃, hmz, rfl⟩ := hmem
  obtain ⟨rfl, hx⟩ := Re.mem_exec.mp hmx
  obtain ⟨rfl, hy⟩ := Re.mem_exec.mp hmy
  obtain ⟨rfl, hz⟩ := Re.mem_exec.mp hmz
  exact ⟨by simp [Groups.matched], hx, hy, hz⟩

theorem groups_ne_none_iff :
    groups a b c s ≠ none ↔
      ∃ x y z t, s = x ++ y ++ z ++ t ∧ a.Lang x ∧ b.Lang y ∧ c.Lang z := by
  constructor
  · intro h
    obtain ⟨g, hg⟩ := Option.ne_none_iff_exists'.mp h
    obtain ⟨hs, hx, hy, hz⟩ := groups_spec hg
    exact ⟨g.key, g.sep, g.val, g.rest, hs, hx, hy, hz⟩
  · rintro ⟨x, y, z, t, rfl, hx, hy, hz⟩ hnone
    unfold groups at hnone
    rw [List.head?_eq_none_iff, List.eq_nil_iff_forall_not_mem] at hnone
    apply hnone ⟨x, y, z, t⟩
    simp only [List.mem_flatMap, List.mem_map, Prod.exists]
    exact ⟨x, y ++ z ++ t, Re.mem_exec.mpr ⟨by simp, hx⟩, y, z ++ t,
      Re.mem_exec.mpr ⟨by simp, hy⟩, z, t, Re.mem_exec.mpr ⟨rfl, hz⟩, rfl⟩

theorem groups_of_first {s₁ s₂ t x y z : List α} (ha : a.first s = some (x, s₁))
    (hb : b.first s₁ = some (y, s₂)) (hc : c.first s₂ = some (z, t)) :
    groups a b c s = some ⟨x, y, z, t⟩ := by
  unfold Re.first at *
  obtain ⟨l₁, h₁⟩ := List.head?_eq_some_iff.mp ha
  obtain ⟨l₂, h₂⟩ := List.head?_eq_some_iff.mp hb
  obtain ⟨l₃, h₃⟩ := List.head?_eq_some_iff.mp hc
  simp [groups, h₁, h₂, h₃]

end Groups

/-! ### Replacing every match -/

/-- A rule gives, where it matches at the front of a text, the replacement and the rest. -/
abbrev Rule (α : Type*) := List α → Option (List α × List α)

/-- A rule never matches the empty text. -/
def Rule.Consumes (m : Rule α) : Prop :=
  ∀ {s out rest}, m s = some (out, rest) → ∃ w, w ≠ [] ∧ s = w ++ rest

/-- The first argument counts the symbols that the last match still covers. -/
def scan (m : Rule α) : ℕ → List α → List α
  | _, [] => []
  | k + 1, _ :: t => scan m k t
  | 0, c :: t =>
    match m (c :: t) with
    | some (out, rest) => out ++ scan m (t.length - rest.length) t
    | none => c :: scan m 0 t

def replaceAll (m : Rule α) (s : List α) : List α := scan m 0 s

/-- The positions at which the scan looks for a match, as the texts that follow them. -/
inductive Visited (m : Rule α) : List α → List α → Prop
  | here (s) : Visited m s s
  | kept {c s t} : m (c :: s) = none → Visited m s t → Visited m (c :: s) t
  | replaced {s out rest t} : m s = some (out, rest) → Visited m rest t → Visited m s t

section Replace

variable {m : Rule α}

@[simp] theorem replaceAll_nil (m : Rule α) : replaceAll m [] = [] := rfl

theorem scan_append (m : Rule α) (w t : List α) : scan m w.length (w ++ t) = replaceAll m t := by
  induction w with
  | nil => rfl
  | cons c w ih => exact ih

theorem replaceAll_cons_of_none {c : α} {s : List α} (h : m (c :: s) = none) :
    replaceAll m (c :: s) = c :: replaceAll m s := by
  unfold replaceAll
  rw [scan, h]

theorem replaceAll_of_some (hm : m.Consumes) {s out rest : List α} (h : m s = some (out, rest)) :
    replaceAll m s = out ++ replaceAll m rest := by
  obtain ⟨w, hw, rfl⟩ := hm h
  obtain ⟨c, w, rfl⟩ := List.exists_cons_of_ne_nil hw
  have hlen : (w ++ rest).length - rest.length = w.length := by simp
  rw [replaceAll, List.cons_append, scan]
  rw [List.cons_append] at h
  rw [h]
  dsimp only
  rw [hlen, scan_append]

/-- Induction along a scan. -/
theorem replace_induction (hm : m.Consumes) {motive : List α → Prop} (nil : m [] = none → motive [])
    (kept : ∀ c s, m (c :: s) = none → motive s → motive (c :: s))
    (replaced : ∀ s out rest, m s = some (out, rest) → motive rest → motive s) (s : List α) :
    motive s := by
  induction hn : s.length using Nat.strong_induction_on generalizing s with
  | _ n ih =>
    cases hs : m s with
    | none =>
      cases s with
      | nil => exact nil hs
      | cons c s =>
        simp only [List.length_cons] at hn
        exact kept c s hs (ih s.length (by omega) s rfl)
    | some o =>
      obtain ⟨out, rest⟩ := o
      obtain ⟨w, hw, happ⟩ := hm hs
      have hlen : w.length + rest.length = n := by
        rw [← hn, happ, List.length_append]
      have hpos : 0 < w.length := List.length_pos_iff.mpr hw
      exact replaced s out rest hs (ih rest.length (by omega) rest rfl)

theorem Rule.Consumes.nil (hm : m.Consumes) : m [] = none := by
  cases h : m [] with
  | none => rfl
  | some o =>
    obtain ⟨w, hw, happ⟩ := @hm [] o.1 o.2 h
    exact absurd (List.append_eq_nil_iff.mp happ.symm).1 hw

theorem Visited.suffix (hm : m.Consumes) {s t : List α} (h : Visited m s t) : t <:+ s := by
  induction h with
  | here s => exact List.suffix_rfl
  | kept hnone _ ih => exact ih.trans (List.suffix_cons _ _)
  | replaced hsome _ ih =>
    obtain ⟨w, -, rfl⟩ := hm hsome
    exact ih.trans (List.suffix_append _ _)

theorem Visited.trans {s t u : List α} (h : Visited m s t) (h' : Visited m t u) : Visited m s u := by
  induction h with
  | here s => exact h'
  | kept hnone _ ih => exact Visited.kept hnone (ih h')
  | replaced hsome _ ih => exact Visited.replaced hsome (ih h')

/-- Nothing changes where every replacement is what it replaces. -/
theorem replaceAll_eq_self (hm : m.Consumes) {s : List α}
    (h : ∀ t out rest, Visited m s t → m t = some (out, rest) → t = out ++ rest) :
    replaceAll m s = s := by
  induction s using replace_induction hm with
  | nil _ => rfl
  | kept c s hnone ih =>
    rw [replaceAll_cons_of_none hnone,
      ih fun t out rest hv => h t out rest (Visited.kept hnone hv)]
  | replaced s out rest hsome ih =>
    rw [replaceAll_of_some hm hsome,
      ih fun t o r hv => h t o r (Visited.replaced hsome hv)]
    exact (h s out rest (Visited.here s) hsome).symm

theorem replaceAll_congr {m' : Rule α} (hm : m.Consumes) (hm' : m'.Consumes) {s : List α}
    (h : ∀ t, Visited m s t → m t = m' t) : replaceAll m s = replaceAll m' s := by
  induction s using replace_induction hm with
  | nil _ => rfl
  | kept c s hnone ih =>
    have hnone' := h _ (Visited.here _)
    rw [hnone] at hnone'
    rw [replaceAll_cons_of_none hnone, replaceAll_cons_of_none hnone'.symm,
      ih fun t hv => h t (Visited.kept hnone hv)]
  | replaced s out rest hsome ih =>
    have hsome' := h s (Visited.here s)
    rw [hsome] at hsome'
    rw [replaceAll_of_some hm hsome, replaceAll_of_some hm' hsome'.symm,
      ih fun t hv => h t (Visited.replaced hsome hv)]

end Replace

end Ark.OrderedRegex
