import Ark.Json
import Mathlib

/-!
# JSON texts with replaced units

A decoder that meets a broken code point writes replacement characters in its place. `Replaced t t'`
says that `t'` is `t` with some of the units outside ASCII replaced by one or more of them. A JSON
text survives this in its strings only: if `t'` is a JSON text then so is `t`, and the units that
`t'` has more than `t` are units of its strings.
-/

namespace Json

/-- The replacement character. -/
def replacement : ℕ := 65533

inductive Replaced : Text → Text → Prop
  | nil : Replaced [] []
  | keep {t t' : Text} (c : ℕ) (h : Replaced t t') : Replaced (c :: t) (c :: t')
  | replace {t t' : Text} {c : ℕ} (hc : 128 ≤ c) (h : Replaced t t') :
      Replaced (c :: t) (replacement :: t')
  | again {t t' : Text} {c : ℕ} (hc : 128 ≤ c) (h : Replaced (c :: t) (replacement :: t')) :
      Replaced (c :: t) (replacement :: replacement :: t')

namespace Replaced

variable {t t' : Text}

theorem refl (t : Text) : Replaced t t := by
  induction t with
  | nil => exact .nil
  | cons c t ih => exact .keep c ih

theorem length_le (h : Replaced t t') : t.length ≤ t'.length := by
  induction h with
  | nil => exact Nat.le_refl _
  | keep c h ih => exact Nat.succ_le_succ ih
  | replace hc h ih => exact Nat.succ_le_succ ih
  | again hc h ih => exact Nat.le_succ_of_le ih

theorem nil_right (h : Replaced t []) : t = [] := by
  cases h
  rfl

/-- A unit that is no replacement character was kept. -/
theorem cons_right {c : ℕ} (h : Replaced t (c :: t')) (hc : c ≠ replacement) :
    ∃ s, t = c :: s ∧ Replaced s t' := by
  cases h with
  | keep c h => exact ⟨_, rfl, h⟩
  | replace _ h => exact absurd rfl hc
  | again _ h => exact absurd rfl hc

/-- A unit of ASCII is kept. -/
theorem cons_left {c : ℕ} (h : Replaced (c :: t) t') (hc : c < 128) : ∃ s, t' = c :: s := by
  cases h with
  | keep c h => exact ⟨_, rfl⟩
  | replace hc' _ => exact absurd hc (Nat.not_lt.mpr hc')
  | again hc' _ => exact absurd hc (Nat.not_lt.mpr hc')

theorem append_right {a : Text} (ha : replacement ∉ a) (h : Replaced t (a ++ t')) :
    ∃ s, t = a ++ s ∧ Replaced s t' := by
  induction a generalizing t with
  | nil => exact ⟨t, rfl, h⟩
  | cons c a ih =>
    rw [List.mem_cons, not_or] at ha
    obtain ⟨s, rfl, hs⟩ := h.cons_right fun hc => ha.1 hc.symm
    obtain ⟨u, rfl, hu⟩ := ih ha.2 hs
    exact ⟨u, rfl, hu⟩

theorem eq_of_not_mem (ha : replacement ∉ t') (h : Replaced t t') : t = t' := by
  obtain ⟨s, rfl, hs⟩ := @append_right t [] t' ha (by rwa [List.append_nil])
  rw [hs.nil_right, List.append_nil]

/-- What follows the last replacement character was kept. -/
theorem append_left {y b : Text} (hb : replacement ∉ b) (h : Replaced t (y ++ b)) :
    ∃ s, t = s ++ b ∧ Replaced s y := by
  induction y generalizing t with
  | nil => exact ⟨[], h.eq_of_not_mem hb, .nil⟩
  | cons c y ih =>
    rw [List.cons_append] at h
    generalize hz : y ++ b = z at h
    cases h with
    | keep c h =>
      obtain ⟨s, rfl, hs⟩ := ih (hz ▸ h)
      exact ⟨c :: s, rfl, .keep c hs⟩
    | @replace u _ x hc h =>
      obtain ⟨s, rfl, hs⟩ := ih (hz ▸ h)
      exact ⟨x :: s, rfl, .replace hc hs⟩
    | @again u z x hc h =>
      obtain ⟨s, hs, hreplaced⟩ := ih (hz ▸ h)
      cases y with
      | nil =>
        rw [List.nil_append] at hz
        exact absurd (hz ▸ List.mem_cons_self) hb
      | cons d y =>
        obtain ⟨rfl, -⟩ := List.cons.inj hz
        cases s with
        | nil => cases hreplaced
        | cons v s =>
          obtain ⟨rfl, rfl⟩ := List.cons.inj hs
          exact ⟨x :: s, rfl, .again hc hreplaced⟩

/-- The first units that satisfy a test for ASCII are the same. -/
theorem span {p : ℕ → Bool} (hp : ∀ c, p c = true → c < 128) (h : Replaced t t') :
    t.takeWhile p = t'.takeWhile p ∧ Replaced (t.dropWhile p) (t'.dropWhile p) := by
  have hnot : ∀ c, 128 ≤ c → p c = false := by
    intro c hc
    rw [← Bool.not_eq_true]
    intro htrue
    exact absurd (hp c htrue) (Nat.not_lt.mpr hc)
  have hreplacement : p replacement = false := hnot _ (by decide)
  induction h with
  | nil => exact ⟨rfl, .nil⟩
  | @keep t t' c h ih =>
    cases hc : p c with
    | true =>
      simp only [List.takeWhile_cons, List.dropWhile_cons, hc, if_true]
      exact ⟨by rw [ih.1], ih.2⟩
    | false =>
      simp only [List.takeWhile_cons, List.dropWhile_cons, hc, Bool.false_eq_true, if_false]
      exact ⟨trivial, .keep c h⟩
  | @replace t t' c hc h ih =>
    simp only [List.takeWhile_cons, List.dropWhile_cons, hnot c hc, hreplacement,
      Bool.false_eq_true, if_false]
    exact ⟨trivial, .replace hc h⟩
  | @again t t' c hc h ih =>
    simp only [List.takeWhile_cons, List.dropWhile_cons, hnot c hc, hreplacement,
      Bool.false_eq_true, if_false]
    exact ⟨trivial, .again hc h⟩

end Replaced

theorem isSpace_lt (c : ℕ) (hc : isSpace c = true) : c < 128 := by
  simp only [isSpace, List.contains_eq_mem, decide_eq_true_eq, List.mem_cons, List.not_mem_nil,
    or_false] at hc
  omega

theorem Replaced.skip {t t' : Text} (h : Replaced t t') : Replaced (skip t) (skip t') :=
  (h.span isSpace_lt).2

/-! ### Reading with replaced units -/

/-- The rest follows a printable unit. -/
def Reaches (t rest : Text) : Prop := ∃ p c, t = p ++ c :: rest ∧ isPrintable c = true

theorem Reaches.append {t rest : Text} (h : Reaches t rest) (p : Text) : Reaches (p ++ t) rest := by
  obtain ⟨q, c, rfl, hc⟩ := h
  exact ⟨p ++ q, c, (List.append_assoc p q _).symm, hc⟩

theorem Reaches.cons {t rest : Text} (h : Reaches t rest) (c : ℕ) : Reaches (c :: t) rest :=
  h.append [c]

theorem Reaches.trans {t rest rest' : Text} (h : Reaches t rest) (h' : Reaches rest rest') :
    Reaches t rest' := by
  obtain ⟨p, c, rfl, -⟩ := h
  exact (h'.cons c).append p

theorem Reaches.head {c : ℕ} {rest : Text} (hc : isPrintable c = true) : Reaches (c :: rest) rest :=
  ⟨[], c, rfl, hc⟩

theorem Reaches.length_lt {t rest : Text} (h : Reaches t rest) : rest.length < t.length := by
  obtain ⟨p, c, rfl, -⟩ := h
  rw [List.length_append, List.length_cons]
  omega

/-- The units of some strings. -/
def units (texts : List Text) : ℕ := (texts.map List.length).sum

@[simp] theorem units_nil : units [] = 0 := rfl

@[simp] theorem units_cons (s : Text) (texts : List Text) :
    units (s :: texts) = s.length + units texts := by simp [units]

@[simp] theorem units_append (texts texts' : List Text) :
    units (texts ++ texts') = units texts + units texts' := by simp [units]

/-- A reader has read the strings `texts` from `t` and leaves `rest`, and `texts'` from `t'` and
leaves `rest'`: what `t'` has more is in the strings or in the rest. -/
structure Aligned (t rest : Text) (texts : List Text) (t' rest' : Text) (texts' : List Text) :
    Prop where
  replaced : Replaced rest rest'
  reaches : Reaches t rest
  length : t'.length + rest.length + units texts = t.length + rest'.length + units texts'

/-- The same units before both texts. -/
theorem Aligned.append {t rest t' rest' : Text} {texts texts' : List Text}
    (h : Aligned t rest texts t' rest' texts') (p : Text) :
    Aligned (p ++ t) rest texts (p ++ t') rest' texts' := by
  refine ⟨h.replaced, h.reaches.append p, ?_⟩
  have hlength := h.length
  rw [List.length_append, List.length_append]
  omega

/-- One reader after another. -/
theorem Aligned.trans {t u rest t' u' rest' : Text} {a b a' b' : List Text}
    (h : Aligned t u a t' u' a') (h' : Aligned u rest b u' rest' b') :
    Aligned t rest (a ++ b) t' rest' (a' ++ b') := by
  refine ⟨h'.replaced, h.reaches.trans h'.reaches, ?_⟩
  have hlength := h.length
  have hlength' := h'.length
  rw [units_append, units_append]
  omega

/-- A unit that ends a reading without strings. -/
theorem Aligned.head {c : ℕ} {t t' : Text} (h : Replaced t t') (hc : isPrintable c = true) :
    Aligned (c :: t) t [] (c :: t') t' [] := by
  refine ⟨h, .head hc, ?_⟩
  rw [List.length_cons, List.length_cons]
  omega

/-- Spaces may come first. -/
theorem Aligned.of_skip {t rest t' rest' : Text} {texts texts' : List Text}
    (h : Aligned (Json.skip t) rest texts (Json.skip t') rest' texts') (ht : Replaced t t') :
    Aligned t rest texts t' rest' texts' := by
  have hspaces : t.takeWhile isSpace = t'.takeWhile isSpace := (ht.span isSpace_lt).1
  have hall := h.append (t.takeWhile isSpace)
  rwa [skip, skip, List.takeWhile_append_dropWhile, hspaces, List.takeWhile_append_dropWhile] at hall

/-! ### Strings -/

/-- The result of `unquote` as a relation. -/
inductive Unquotes : Text → Text → Text → Prop
  | close (rest : Text) : Unquotes (34 :: rest) [] rest
  | hex {a b c d u : ℕ} {t s rest : Text} (hu : hexValue4 a b c d = some u)
      (h : Unquotes t s rest) : Unquotes (92 :: 117 :: a :: b :: c :: d :: t) (u :: s) rest
  | letter {e u : ℕ} {t s rest : Text} (hu : unescape e = some u) (h : Unquotes t s rest) :
      Unquotes (92 :: e :: t) (u :: s) rest
  | plain {u : ℕ} {t s rest : Text} (hu : 32 ≤ u ∧ u ≠ 34 ∧ u ≠ 92) (h : Unquotes t s rest) :
      Unquotes (u :: t) (u :: s) rest

theorem unquotes_of_unquote {t s rest : Text} (h : unquote t = some (s, rest)) :
    Unquotes t s rest := by
  fun_induction unquote t generalizing s rest with
  | case1 => cases h
  | case2 rest' =>
    obtain ⟨rfl, rfl⟩ := Prod.mk.inj (Option.some.inj h)
    exact .close _
  | case3 a b c d t ih =>
    obtain ⟨u, hu, h⟩ := Option.bind_eq_some_iff.mp h
    obtain ⟨⟨s', rest'⟩, hr, hs⟩ := Option.map_eq_some_iff.mp h
    obtain ⟨rfl, rfl⟩ := Prod.mk.inj hs
    exact .hex hu (ih hr)
  | case4 e t hne ih =>
    obtain ⟨u, hu, h⟩ := Option.bind_eq_some_iff.mp h
    obtain ⟨⟨s', rest'⟩, hr, hs⟩ := Option.map_eq_some_iff.mp h
    obtain ⟨rfl, rfl⟩ := Prod.mk.inj hs
    exact .letter hu (ih hr)
  | case5 u t hquote hhex hletter hu =>
    cases h
  | case6 u t hquote hhex hletter hu ih =>
    obtain ⟨⟨s', rest'⟩, hr, hs⟩ := Option.map_eq_some_iff.mp h
    obtain ⟨rfl, rfl⟩ := Prod.mk.inj hs
    have hslash : u ≠ 92 := by
      rintro rfl
      cases t with
      | nil => cases hr
      | cons e t => exact hletter e t rfl rfl
    exact .plain ⟨by omega, hquote, hslash⟩ (ih hr)

theorem unquote_of_unquotes {t s rest : Text} (h : Unquotes t s rest) :
    unquote t = some (s, rest) := by
  induction h with
  | close rest => rfl
  | hex hu h ih => rw [unquote, hu, ih, Option.bind_some, Option.map_some]
  | @letter e u t s rest hu h ih =>
    have he : e ≠ 117 := by
      rintro rfl
      cases hu
    rw [unquote, hu, ih, Option.bind_some, Option.map_some]
    all_goals simp_all
  | plain hu h ih =>
    rw [unquote, if_neg (by omega), ih, Option.map_some]
    all_goals simp_all

/-- One more unit of a string in both texts. -/
theorem Aligned.extend {t rest t' rest' s s' p : Text} {u u' : ℕ}
    (h : Aligned t rest [s] t' rest' [s']) :
    Aligned (p ++ t) rest [u :: s] (p ++ t') rest' [u' :: s'] := by
  refine ⟨h.replaced, h.reaches.append p, ?_⟩
  have hlength := h.length
  simp only [List.length_append, units_cons, units_nil, List.length_cons] at hlength ⊢
  omega

theorem ne_replacement_of_hexValue {c u : ℕ} (h : hexValue c = some u) : c ≠ replacement := by
  rintro rfl
  cases h

theorem ne_replacement_of_hexValue4 {a b c d u : ℕ} (h : hexValue4 a b c d = some u) :
    a ≠ replacement ∧ b ≠ replacement ∧ c ≠ replacement ∧ d ≠ replacement := by
  simp only [hexValue4, Option.bind_eq_bind, Option.bind_eq_some_iff] at h
  obtain ⟨_, ha, _, hb, _, hc, _, hd, -⟩ := h
  exact ⟨ne_replacement_of_hexValue ha, ne_replacement_of_hexValue hb,
    ne_replacement_of_hexValue hc, ne_replacement_of_hexValue hd⟩

/-- A string with replaced units was read from a string. The induction is on the reading of the
text with replacements; a replacement character that is not the last one of its unit consumes
nothing of the other text. -/
theorem unquotes_replaced {t t' s' rest' : Text} (ht : Replaced t t')
    (h : Unquotes t' s' rest') :
    ∃ s rest, Unquotes t s rest ∧ Aligned t rest [s] t' rest' [s'] := by
  induction h generalizing t with
  | close rest' =>
    obtain ⟨rest, rfl, hrest⟩ := ht.cons_right (by decide)
    refine ⟨[], rest, .close rest, hrest, .head rfl, ?_⟩
    rw [List.length_cons, List.length_cons]
    omega
  | @hex a b c d u t' s' rest' hu h ih =>
    obtain ⟨ha, hb, hc, hd⟩ := ne_replacement_of_hexValue4 hu
    have hnot : replacement ∉ [92, 117, a, b, c, d] := by
      simp only [List.mem_cons, List.not_mem_nil, or_false, not_or]
      exact ⟨by decide, by decide, ha.symm, hb.symm, hc.symm, hd.symm⟩
    obtain ⟨t, rfl, htail⟩ := Replaced.append_right (a := [92, 117, a, b, c, d]) hnot ht
    obtain ⟨s, rest, hs, haligned⟩ := ih htail
    exact ⟨u :: s, rest, .hex hu hs, haligned.extend (p := [92, 117, a, b, c, d])⟩
  | @letter e u t' s' rest' hu h ih =>
    have he : e ≠ replacement := by
      rintro rfl
      cases hu
    have hnot : replacement ∉ [92, e] := by
      simp only [List.mem_cons, List.not_mem_nil, or_false, not_or]
      exact ⟨by decide, he.symm⟩
    obtain ⟨t, rfl, htail⟩ := Replaced.append_right (a := [92, e]) hnot ht
    obtain ⟨s, rest, hs, haligned⟩ := ih htail
    exact ⟨u :: s, rest, .letter hu hs, haligned.extend (p := [92, e])⟩
  | @plain u t' s' rest' hu h ih =>
    cases ht with
    | @keep t _ c ht =>
      obtain ⟨s, rest, hs, haligned⟩ := ih ht
      exact ⟨u :: s, rest, .plain hu hs, haligned.extend (p := [u])⟩
    | @replace t _ c hc ht =>
      obtain ⟨s, rest, hs, haligned⟩ := ih ht
      refine ⟨c :: s, rest, .plain ⟨by omega, by omega, by omega⟩ hs, haligned.replaced,
        haligned.reaches.cons c, ?_⟩
      have hlength := haligned.length
      simp only [units_cons, units_nil, List.length_cons] at hlength ⊢
      omega
    | @again t _ c hc ht =>
      obtain ⟨s, rest, hs, haligned⟩ := ih ht
      refine ⟨s, rest, hs, haligned.replaced, haligned.reaches, ?_⟩
      have hlength := haligned.length
      simp only [units_cons, units_nil, List.length_cons] at hlength ⊢
      omega

theorem unquote_replaced {t t' s' rest' : Text} (ht : Replaced t t')
    (h : unquote t' = some (s', rest')) :
    ∃ s rest, unquote t = some (s, rest) ∧ Aligned t rest [s] t' rest' [s'] := by
  obtain ⟨s, rest, hs, haligned⟩ := unquotes_replaced ht (unquotes_of_unquote h)
  exact ⟨s, rest, unquote_of_unquotes hs, haligned⟩

/-! ### Words and numbers -/

theorem expect_eq_some {word t rest : Text} (h : expect word t = some rest) : t = word ++ rest := by
  unfold expect at h
  split at h
  next hword =>
    obtain ⟨u, rfl⟩ := List.isPrefixOf_iff_prefix.mp hword
    rw [List.drop_left] at h
    rw [Option.some.inj h]
  next => cases h

theorem reaches_of_all {w rest : Text} (hne : w ≠ []) (hw : w.all isPrintable = true) :
    Reaches (w ++ rest) rest := by
  obtain ⟨p, c, rfl⟩ := List.eq_nil_or_concat' w |>.resolve_left hne
  exact ⟨p, c, by rw [List.append_assoc, List.singleton_append],
    List.all_eq_true.mp hw c (by simp)⟩

/-- Printable units that both texts begin with. -/
theorem aligned_of_all {w rest rest' : Text} (hne : w ≠ []) (hw : w.all isPrintable = true)
    (h : Replaced rest rest') : Aligned (w ++ rest) rest [] (w ++ rest') rest' [] := by
  refine ⟨h, reaches_of_all hne hw, ?_⟩
  simp only [List.length_append, units_nil]
  omega

theorem expect_replaced {word t t' rest' : Text} (hne : word ≠ [])
    (hword : word.all isPrintable = true) (ht : Replaced t t') (h : expect word t' = some rest') :
    ∃ rest, expect word t = some rest ∧ Aligned t rest [] t' rest' [] := by
  obtain rfl := expect_eq_some h
  have hnot : replacement ∉ word := fun hmem => by cases List.all_eq_true.mp hword _ hmem
  obtain ⟨rest, rfl, hrest⟩ := ht.append_right hnot
  exact ⟨rest, expect_append word rest, aligned_of_all hne hword hrest⟩

theorem parseNumeral_replaced {t t' rest' : Text} {v' : Value} (ht : Replaced t t')
    (h : parseNumeral t' = some (v', rest')) :
    ∃ v rest, parseNumeral t = some (v, rest) ∧
      Aligned t rest (strings v) t' rest' (strings v') := by
  unfold parseNumeral at h
  split at h
  next hnumeral =>
    obtain ⟨rfl, rfl⟩ := Prod.mk.inj (Option.some.inj h)
    have hascii : ∀ c, isNumeralUnit c = true → c < 128 := by
      intro c hc
      have hbounds := isNumeralUnit_bounds hc
      omega
    obtain ⟨htake, hdrop⟩ := ht.span hascii
    refine ⟨.num ⟨_, hnumeral⟩, t.dropWhile isNumeralUnit, ?_, ?_⟩
    · simp only [parseNumeral, htake, hnumeral, dif_pos]
    · obtain ⟨c, w, hw, -⟩ := isNumeral_head ⟨_, hnumeral⟩
      have hprintable : (t'.takeWhile isNumeralUnit).all isPrintable = true := by
        rw [List.all_eq_true]
        intro c hc
        have hall := hnumeral
        simp only [isNumeral, Bool.and_eq_true, List.all_eq_true] at hall
        have hbounds := isNumeralUnit_bounds (hall.1 c hc)
        simp only [isPrintable, Bool.and_eq_true, Nat.ble_eq]
        omega
      replace hw : t'.takeWhile isNumeralUnit = c :: w := hw
      have hne : t'.takeWhile isNumeralUnit ≠ [] := hw ▸ List.cons_ne_nil c w
      have haligned := aligned_of_all hne hprintable hdrop
      rw [List.takeWhile_append_dropWhile, ← htake, List.takeWhile_append_dropWhile] at haligned
      exact haligned
  next => cases h

/-! ### Values -/

/-- A reader reads from the text what it reads from the text with replacements, up to the units of
the strings, with any fuel that the units read account for. -/
def Follows {α : Type} (parse : ℕ → Text → Option (α × Text)) (texts : α → List Text) (fuel : ℕ) :
    Prop :=
  ∀ ⦃t t' rest' : Text⦄ ⦃a' : α⦄, Replaced t t' → parse fuel t' = some (a', rest') →
    ∃ a rest, Aligned t rest (texts a) t' rest' (texts a') ∧
      ∀ m, t.length ≤ m + rest.length → parse m t = some (a, rest)

/-- Fuel that the units read account for is positive. -/
theorem Aligned.fuel {t rest t' rest' : Text} {a a' : List Text} {m : ℕ}
    (h : Aligned t rest a t' rest' a') (hm : t.length ≤ m + rest.length) : ∃ n, m = n + 1 :=
  Nat.exists_eq_succ_of_ne_zero (by have := h.reaches.length_lt; omega)

theorem skip_length_le (t : Text) : (skip t).length ≤ t.length := (List.dropWhile_suffix isSpace).length_le

theorem follows_unquote (n : ℕ) : Follows (fun _ => unquote) (fun s => [s]) n := by
  intro t t' rest' s' ht h
  obtain ⟨s, rest, hs, haligned⟩ := unquote_replaced ht h
  exact ⟨s, rest, haligned, fun _ _ => hs⟩

theorem follows_expect {word : Text} {v : Value} (n : ℕ) (hne : word ≠ [])
    (hword : word.all isPrintable = true) (hv : strings v = []) :
    Follows (fun _ t => (expect word t).map fun t => (v, t)) strings n := by
  intro t t' rest' v' ht h
  obtain ⟨_, hrest', heq⟩ := Option.map_eq_some_iff.mp h
  obtain ⟨rfl, rfl⟩ := Prod.mk.inj heq
  obtain ⟨rest, hrest, haligned⟩ := expect_replaced hne hword ht hrest'
  rw [← hv] at haligned
  refine ⟨v, rest, haligned, fun _ _ => ?_⟩
  dsimp only
  rw [hrest, Option.map_some]

/-- A reader that continues with another one after a printable unit. -/
theorem Follows.announced {α β : Type} {parse : ℕ → Text → Option (β × Text)}
    {inner : ℕ → Text → Option (α × Text)} {texts : β → List Text} {innerTexts : α → List Text}
    {n c : ℕ} (hinner : Follows inner innerTexts n) (wrap : α → β) (hc : isPrintable c = true)
    (hread : ∀ m {t u : Text}, skip t = c :: u →
      parse (m + 1) t = (inner m u).map fun r => (wrap r.1, r.2))
    (htexts : ∀ a, texts (wrap a) = innerTexts a) {t t' u' rest' : Text} {b' : β}
    (ht : Replaced t t') (hu' : skip t' = c :: u') (h : parse (n + 1) t' = some (b', rest')) :
    ∃ b rest, Aligned t rest (texts b) t' rest' (texts b') ∧
      ∀ m, t.length ≤ m + rest.length → parse m t = some (b, rest) := by
  have hskip := ht.skip
  have hle := skip_length_le t
  rw [hu'] at hskip
  have hkept : c ≠ replacement := by
    rintro rfl
    cases hc
  obtain ⟨u, hu, hreplaced⟩ := hskip.cons_right hkept
  rw [hread n hu'] at h
  obtain ⟨⟨a', r'⟩, ha', heq⟩ := Option.map_eq_some_iff.mp h
  obtain ⟨rfl, rfl⟩ := Prod.mk.inj heq
  obtain ⟨a, rest, haligned, hparse⟩ := hinner hreplaced ha'
  have haligned' : Aligned t rest (texts (wrap a)) t' r' (texts (wrap a')) := by
    refine .of_skip ?_ ht
    rw [hu, hu', htexts, htexts]
    exact haligned.append [c]
  refine ⟨wrap a, rest, haligned', fun m hm => ?_⟩
  obtain ⟨m, rfl⟩ := haligned'.fuel hm
  rw [hu, List.length_cons] at hle
  rw [hread m hu, hparse m (by omega)]
  rfl

theorem announced_word (word : Text) (v : Value) {n c : ℕ} (hc : isPrintable c = true)
    (hne : word ≠ []) (hword : word.all isPrintable = true) (hv : strings v = [])
    (hread : ∀ m {t u : Text}, skip t = c :: u →
      parseValue (m + 1) t = (expect word u).map fun t => (v, t))
    {t t' u' rest' : Text} {v' : Value} (ht : Replaced t t') (hu' : skip t' = c :: u')
    (h : parseValue (n + 1) t' = some (v', rest')) :
    ∃ w rest, Aligned t rest (strings w) t' rest' (strings v') ∧
      ∀ m, t.length ≤ m + rest.length → parseValue m t = some (w, rest) := by
  refine (follows_expect n hne hword hv).announced id hc ?_ (fun _ => rfl) ht hu' h
  intro m t u hu
  rw [hread m hu, Option.map_map]
  rfl

theorem parseValue_numeral {m : ℕ} {t : Text} {r : Value × Text}
    (h : parseNumeral (skip t) = some r) : parseValue (m + 1) t = some r := by
  have hhead : ∃ c u, skip t = c :: u ∧ isNumeralUnit c = true := by
    unfold parseNumeral at h
    split at h
    next hnumeral =>
      obtain ⟨c, w, hw, hc⟩ := isNumeral_head ⟨_, hnumeral⟩
      have hsplit := @List.takeWhile_append_dropWhile _ isNumeralUnit (skip t)
      replace hw : (skip t).takeWhile isNumeralUnit = c :: w := hw
      rw [hw] at hsplit
      exact ⟨c, _, hsplit.symm, hc⟩
    next => cases h
  obtain ⟨c, u, hu, hc⟩ := hhead
  rw [parseValue, hu]
  rw [hu] at h
  split
  all_goals first
    | exact h
    | (rename_i heq
       obtain ⟨rfl, -⟩ := List.cons.inj heq
       cases hc)

theorem follows_parseValue {n : ℕ} (hitems : Follows parseItems stringsOfItems n)
    (hfields : Follows parseFields stringsOfFields n) : Follows parseValue strings (n + 1) := by
  intro t t' rest' v' ht h
  have hcopy := h
  rw [parseValue] at hcopy
  split at hcopy
  next u' heq =>
    refine (follows_unquote n).announced Value.str (c := 34) rfl ?_ ?_ ht heq h
    · intro m t u hu
      rw [parseValue, hu]
      rfl
    · intro s
      rw [strings]
  next u' heq =>
    refine hitems.announced Value.arr (c := 91) rfl ?_ ?_ ht heq h
    · intro m t u hu
      rw [parseValue, hu]
      rfl
    · intro s
      rw [strings]
  next u' heq =>
    refine hfields.announced Value.obj (c := 123) rfl ?_ ?_ ht heq h
    · intro m t u hu
      rw [parseValue, hu]
      rfl
    · intro s
      rw [strings]
  next u' heq =>
    refine announced_word (literal "ull") .null rfl (by decide) (by decide) ?_ ?_ ht heq h
    · rw [strings]
    · intro m t u hu
      rw [parseValue, hu]
      rfl
  next u' heq =>
    refine announced_word (literal "rue") (.bool true) rfl (by decide) (by decide) ?_ ?_ ht heq h
    · rw [strings]
    · intro m t u hu
      rw [parseValue, hu]
      rfl
  next u' heq =>
    refine announced_word (literal "alse") (.bool false) rfl (by decide) (by decide) ?_ ?_ ht heq h
    · rw [strings]
    · intro m t u hu
      rw [parseValue, hu]
      rfl
  next =>
    obtain ⟨v, rest, hnumeral, haligned⟩ := parseNumeral_replaced ht.skip hcopy
    have haligned' := haligned.of_skip ht
    refine ⟨v, rest, haligned', fun m hm => ?_⟩
    obtain ⟨m, rfl⟩ := haligned'.fuel hm
    exact parseValue_numeral hnumeral

/-! ### Items and fields -/

/-- One reader after another; each of them consumes a unit that the other one need not account
for. -/
theorem Follows.sequence {α β γ : Type} {p : ℕ → Text → Option (α × Text)}
    {q : ℕ → Text → Option (β × Text)} {pTexts : α → List Text} {qTexts : β → List Text}
    {n : ℕ} (hp : Follows p pTexts n) (hq : Follows q qTexts n) (texts : γ → List Text)
    (wrap : α → β → γ) (htexts : ∀ a b, texts (wrap a b) = pTexts a ++ qTexts b)
    {t t' rest' : Text} {c' : γ} (ht : Replaced t t')
    (h : ((p n t').bind fun r => (q n r.2).map fun r' => (wrap r.1 r'.1, r'.2)) =
      some (c', rest')) :
    ∃ c rest, Aligned t rest (texts c) t' rest' (texts c') ∧ ∀ m, t.length ≤ m + 1 + rest.length →
      ((p m t).bind fun r => (q m r.2).map fun r' => (wrap r.1 r'.1, r'.2)) = some (c, rest) := by
  obtain ⟨⟨a', u'⟩, ha', h⟩ := Option.bind_eq_some_iff.mp h
  obtain ⟨⟨b', r'⟩, hb', heq⟩ := Option.map_eq_some_iff.mp h
  obtain ⟨rfl, rfl⟩ := Prod.mk.inj heq
  obtain ⟨a, u, hfirst, ha⟩ := hp ht ha'
  obtain ⟨b, rest, hsecond, hb⟩ := hq hfirst.replaced hb'
  refine ⟨wrap a b, rest, ?_, fun m hm => ?_⟩
  · rw [htexts, htexts]
    exact hfirst.trans hsecond
  · have hu := hfirst.reaches.length_lt
    have hrest := hsecond.reaches.length_lt
    rw [ha m (by omega), Option.bind_some, hb m (by omega), Option.map_some]

/-- A reader that stops at a printable unit. -/
theorem closed {β : Type} {parse : ℕ → Text → Option (β × Text)} {texts : β → List Text} {n c : ℕ}
    (b : β) (hc : isPrintable c = true)
    (hread : ∀ m {t u : Text}, skip t = c :: u → parse (m + 1) t = some (b, u))
    (htexts : texts b = []) {t t' u' rest' : Text} {b' : β} (ht : Replaced t t')
    (hu' : skip t' = c :: u') (h : parse (n + 1) t' = some (b', rest')) :
    ∃ b rest, Aligned t rest (texts b) t' rest' (texts b') ∧
      ∀ m, t.length ≤ m + rest.length → parse m t = some (b, rest) := by
  have hskip := ht.skip
  rw [hu'] at hskip
  have hkept : c ≠ replacement := by
    rintro rfl
    cases hc
  obtain ⟨u, hu, hreplaced⟩ := hskip.cons_right hkept
  rw [hread n hu'] at h
  obtain ⟨rfl, rfl⟩ := Prod.mk.inj (Option.some.inj h)
  have haligned : Aligned t u (texts b) t' u' (texts b) := by
    refine .of_skip ?_ ht
    rw [hu, hu', htexts]
    exact .head hreplaced hc
  refine ⟨b, u, haligned, fun m hm => ?_⟩
  obtain ⟨m, rfl⟩ := haligned.fuel hm
  exact hread m hu

/-- A reader that has not found the unit at which it stops. -/
theorem Follows.unclosed {α β γ : Type} {parse : ℕ → Text → Option (γ × Text)}
    {p : ℕ → Text → Option (α × Text)} {q : ℕ → Text → Option (β × Text)}
    {pTexts : α → List Text} {qTexts : β → List Text} {texts : γ → List Text} {n c : ℕ}
    (hp : Follows p pTexts n) (hq : Follows q qTexts n) (wrap : α → β → γ) (hc : c < 128)
    (hread : ∀ m {t : Text}, (∀ u, skip t ≠ c :: u) → parse (m + 1) t =
      (p m (skip t)).bind fun r => (q m r.2).map fun r' => (wrap r.1 r'.1, r'.2))
    (htexts : ∀ a b, texts (wrap a b) = pTexts a ++ qTexts b) {t t' rest' : Text} {c' : γ}
    (ht : Replaced t t') (hne : ∀ u, skip t' ≠ c :: u) (h : parse (n + 1) t' = some (c', rest')) :
    ∃ c rest, Aligned t rest (texts c) t' rest' (texts c') ∧
      ∀ m, t.length ≤ m + rest.length → parse m t = some (c, rest) := by
  have hle := skip_length_le t
  rw [hread n hne] at h
  obtain ⟨a, rest, haligned, hparse⟩ := hp.sequence hq texts wrap htexts ht.skip h
  have haligned' := haligned.of_skip ht
  refine ⟨a, rest, haligned', fun m hm => ?_⟩
  obtain ⟨m, rfl⟩ := haligned'.fuel hm
  have hne' : ∀ u, skip t ≠ c :: u := by
    intro u hu
    obtain ⟨s, hs⟩ := (hu ▸ ht.skip).cons_left hc
    exact hne s hs
  rw [hread m hne', hparse m (by omega)]

theorem follows_parseRestItems {n : ℕ} (hvalue : Follows parseValue strings n)
    (hrest : Follows parseRestItems stringsOfItems n) :
    Follows parseRestItems stringsOfItems (n + 1) := by
  intro t t' rest' items' ht h
  have hcopy := h
  rw [parseRestItems] at hcopy
  split at hcopy
  next u' heq =>
    refine closed [] (c := 93) rfl ?_ ?_ ht heq h
    · intro m t u hu
      rw [parseRestItems, hu]
      rfl
    · rw [stringsOfItems]
  next u' heq =>
    have hboth : Follows (fun m t => (parseValue m t).bind fun r =>
        (parseRestItems m r.2).map fun r' => (r.1 :: r'.1, r'.2)) stringsOfItems n := by
      intro t t' rest' items' ht h
      obtain ⟨items, rest, haligned, hparse⟩ := hvalue.sequence hrest stringsOfItems List.cons
        (fun v items => by simp only [stringsOfItems]) ht h
      exact ⟨items, rest, haligned, fun m hm => hparse m (by omega)⟩
    refine hboth.announced id (c := 44) rfl ?_ (fun _ => rfl) ht heq h
    intro m t u hu
    rw [parseRestItems, hu]
    simp
  next => cases hcopy

theorem follows_parseItems {n : ℕ} (hvalue : Follows parseValue strings n)
    (hrest : Follows parseRestItems stringsOfItems n) :
    Follows parseItems stringsOfItems (n + 1) := by
  intro t t' rest' items' ht h
  have hcopy := h
  rw [parseItems] at hcopy
  split at hcopy
  next u' heq =>
    refine closed [] (c := 93) rfl ?_ ?_ ht heq h
    · intro m t u hu
      rw [parseItems, hu]
      rfl
    · rw [stringsOfItems]
  next hne =>
    refine hvalue.unclosed hrest List.cons (c := 93) (by decide) ?_ ?_ ht hne h
    · intro m t hne
      rw [parseItems]
      split
      next u hu => exact absurd hu (hne u)
      next => rfl
    · intro v items
      simp only [stringsOfItems]

/-- The value of a field, after its colon. -/
def parseColon (fuel : ℕ) (t : Text) : Option (Value × Text) :=
  match skip t with
  | 58 :: t => parseValue fuel t
  | _ => none

theorem follows_parseColon {n : ℕ} (hvalue : Follows parseValue strings n) :
    Follows parseColon strings n := by
  intro t t' rest' v' ht h
  have hskip := ht.skip
  have hle := skip_length_le t
  unfold parseColon at h
  split at h
  next u' heq =>
    rw [heq] at hskip
    obtain ⟨u, hu, hreplaced⟩ := hskip.cons_right (by decide)
    obtain ⟨v, rest, haligned, hparse⟩ := hvalue hreplaced h
    refine ⟨v, rest, .of_skip ?_ ht, fun m hm => ?_⟩
    · rw [hu, heq]
      exact haligned.append [58]
    · rw [hu, List.length_cons] at hle
      rw [parseColon, hu]
      exact hparse m (by omega)
  next => cases h

theorem parseField_eq (fuel : ℕ) {t u : Text} (hu : skip t = 34 :: u) :
    parseField (fuel + 1) t =
      (unquote u).bind fun r => (parseColon fuel r.2).map fun r' => ((r.1, r'.1), r'.2) := by
  rw [parseField, hu]
  refine congrArg (unquote u).bind (funext fun r => ?_)
  unfold parseColon
  generalize skip r.2 = v
  rcases v with _ | ⟨c, v⟩
  · rfl
  · by_cases hc : c = 58
    · subst hc
      rfl
    · simp [hc]

theorem follows_parseField {n : ℕ} (hvalue : Follows parseValue strings n) :
    Follows parseField stringsOfField (n + 1) := by
  intro t t' rest' f' ht h
  have hboth : Follows (fun m t => (unquote t).bind fun r =>
      (parseColon m r.2).map fun r' => ((r.1, r'.1), r'.2)) stringsOfField n := by
    intro t t' rest' f' ht h
    obtain ⟨f, rest, haligned, hparse⟩ := (follows_unquote n).sequence (follows_parseColon hvalue)
      stringsOfField Prod.mk (fun k v => by simp only [stringsOfField, List.singleton_append]) ht h
    exact ⟨f, rest, haligned, fun m hm => hparse m (by omega)⟩
  have hcopy := h
  rw [parseField] at hcopy
  split at hcopy
  next u' heq =>
    refine hboth.announced id (c := 34) rfl ?_ (fun _ => rfl) ht heq h
    intro m t u hu
    rw [parseField_eq m hu]
    simp
  next => cases hcopy

theorem follows_parseRestFields {n : ℕ} (hfield : Follows parseField stringsOfField n)
    (hrest : Follows parseRestFields stringsOfFields n) :
    Follows parseRestFields stringsOfFields (n + 1) := by
  intro t t' rest' fields' ht h
  have hcopy := h
  rw [parseRestFields] at hcopy
  split at hcopy
  next u' heq =>
    refine closed [] (c := 125) rfl ?_ ?_ ht heq h
    · intro m t u hu
      rw [parseRestFields, hu]
      rfl
    · rw [stringsOfFields]
  next u' heq =>
    have hboth : Follows (fun m t => (parseField m t).bind fun r =>
        (parseRestFields m r.2).map fun r' => (r.1 :: r'.1, r'.2)) stringsOfFields n := by
      intro t t' rest' fields' ht h
      obtain ⟨fields, rest, haligned, hparse⟩ := hfield.sequence hrest stringsOfFields
        List.cons (fun f fields => by simp only [stringsOfFields]) ht h
      exact ⟨fields, rest, haligned, fun m hm => hparse m (by omega)⟩
    refine hboth.announced id (c := 44) rfl ?_ (fun _ => rfl) ht heq h
    intro m t u hu
    rw [parseRestFields, hu]
    simp
  next => cases hcopy

theorem follows_parseFields {n : ℕ} (hfield : Follows parseField stringsOfField n)
    (hrest : Follows parseRestFields stringsOfFields n) :
    Follows parseFields stringsOfFields (n + 1) := by
  intro t t' rest' fields' ht h
  have hcopy := h
  rw [parseFields] at hcopy
  split at hcopy
  next u' heq =>
    refine closed [] (c := 125) rfl ?_ ?_ ht heq h
    · intro m t u hu
      rw [parseFields, hu]
      rfl
    · rw [stringsOfFields]
  next hne =>
    refine hfield.unclosed hrest List.cons (c := 125) (by decide) ?_ ?_ ht hne h
    · intro m t hne
      rw [parseFields]
      split
      next u hu => exact absurd hu (hne u)
      next => rfl
    · intro f fields
      simp only [stringsOfFields]

/-- Every reader follows, whatever the fuel. The induction is on the fuel, over all six readers at
once. -/
theorem follows (n : ℕ) : Follows parseValue strings n ∧ Follows parseItems stringsOfItems n ∧
    Follows parseRestItems stringsOfItems n ∧ Follows parseField stringsOfField n ∧
    Follows parseFields stringsOfFields n ∧ Follows parseRestFields stringsOfFields n := by
  induction n with
  | zero =>
    refine ⟨?_, ?_, ?_, ?_, ?_, ?_⟩
    all_goals
      intro t t' rest' a' _ h
      cases h
  | succ n ih =>
    obtain ⟨hvalue, hitems, hrestItems, hfield, hfields, hrestFields⟩ := ih
    exact ⟨follows_parseValue hitems hfields, follows_parseItems hvalue hrestItems,
      follows_parseRestItems hvalue hrestItems, follows_parseField hvalue,
      follows_parseFields hfield hrestFields, follows_parseRestFields hfield hrestFields⟩

/-! ### Texts -/

theorem isSpace_of_skip {t : Text} (h : skip t = []) : ∀ c ∈ t, isSpace c = true := by
  induction t with
  | nil =>
    intro c hc
    cases hc
  | cons c t ih =>
    rw [skip, List.dropWhile_cons] at h
    split at h
    next hc =>
      intro d hd
      obtain rfl | hd := List.mem_cons.mp hd
      · exact hc
      · exact ih h d hd
    next => cases h

theorem reaches_of_parseValue {t rest : Text} {v : Value} {n : ℕ} (hn : t.length ≤ n)
    (h : parseValue n t = some (v, rest)) : Reaches t rest := by
  obtain ⟨w, rest', haligned, hparse⟩ := (follows n).1 (.refl t) h
  have hsame := (hparse n (by omega)).symm.trans h
  obtain ⟨-, rfl⟩ := Prod.mk.inj (Option.some.inj hsame)
  exact haligned.reaches

/-- What is a JSON text with replacements was one before, and what the text with replacements has
more is in the strings. Both end with a printable unit and the same spaces. -/
theorem parse_replaced {t t' : Text} {v' : Value} (ht : Replaced t t') (h : parse t' = some v') :
    ∃ v, parse t = some v ∧ t'.length + units (strings v) = t.length + units (strings v') ∧
      ∃ rest, Reaches t rest ∧ Reaches t' rest ∧ ∀ c ∈ rest, isSpace c = true := by
  unfold parse at h
  split at h
  next w' rest' hvalue =>
    split at h
    next hspaces =>
      obtain rfl := Option.some.inj h
      obtain ⟨v, rest, haligned, hparse⟩ := (follows (t'.length + 1)).1 ht hvalue
      have hnot : replacement ∉ rest' := by
        intro hmem
        cases isSpace_of_skip hspaces replacement hmem
      obtain rfl := haligned.replaced.eq_of_not_mem hnot
      refine ⟨v, ?_, ?_, rest, haligned.reaches, ?_, isSpace_of_skip hspaces⟩
      · rw [parse, hparse (t.length + 1) (by omega)]
        exact if_pos hspaces
      · have hlength := haligned.length
        omega
      · exact reaches_of_parseValue (Nat.le_succ _) hvalue
    next => cases h
  next => cases h

/-- No JSON text begins with a replacement character. -/
theorem parse_replacement (t : Text) : parse (replacement :: t) = none := by
  rfl

theorem head?_of_parse {t t' : Text} {v : Value} (ht : Replaced t t') (h : parse t' = some v) :
    t.head? = t'.head? := by
  cases ht with
  | nil => rfl
  | keep c _ => rfl
  | replace _ _ => cases (parse_replacement _).symm.trans h
  | again _ _ => cases (parse_replacement _).symm.trans h

end Json
