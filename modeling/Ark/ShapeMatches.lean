import Mathlib.Data.List.TakeWhile
import Ark.KeyAnchored

/-!
# Where a shape can begin

The first two symbols of a shape, or the first five of its hexadecimal digits, occur nowhere inside a
key, a separator or the placeholder. So no shape begins there, and the second replacement leaves a key
and its replaced value together or takes both away.
-/

namespace Ark.Redact

open OrderedRegex OrderedRegex.Re

def shapeHeads : List (List Char) :=
  ["ey".toList, "sk".toList, "gh".toList, "gi".toList, "ak".toList, "as".toList, "ai".toList,
    "xo".toList, "rk".toList, "-".toList]

def hexLower (c : Char) : Bool := c.isDigit || ('a' ≤ c && c ≤ 'f')

def startsShape (z : List Char) : Bool :=
  shapeHeads.any (fun h => h.isPrefixOf z) || decide (5 ≤ (z.takeWhile hexLower).length)

def startsName (z : List Char) : Bool := (keyNames.map String.toList).any fun k => k.isPrefixOf z

/-! ### Views with a symbol that neither continues -/

theorem isPrefixOf_stop {h : List Char} {d : Char} (hd : d ∉ h) (x z : List Char) :
    h.isPrefixOf (x ++ d :: z) = h.isPrefixOf x := by
  induction h generalizing x with
  | nil => cases x <;> rfl
  | cons c h ih =>
    rw [List.mem_cons, not_or] at hd
    cases x with
    | nil =>
      have hne : (c == d) = false := beq_false_of_ne (Ne.symm hd.1)
      simp [List.isPrefixOf, hne]
    | cons e x => simp [List.isPrefixOf, ih hd.2 x]

theorem takeWhile_stop {p : Char → Bool} {d : Char} (hd : p d = false) (x z : List Char) :
    (x ++ d :: z).takeWhile p = x.takeWhile p := by
  induction x with
  | nil => simp [hd]
  | cons c x ih =>
    cases hc : p c <;> simp [hc, ih]

theorem any_isPrefixOf_stop {hs : List (List Char)} {d : Char} (hd : ∀ h ∈ hs, d ∉ h)
    (x z : List Char) :
    hs.any (fun h => h.isPrefixOf (x ++ d :: z)) = hs.any fun h => h.isPrefixOf x := by
  induction hs with
  | nil => rfl
  | cons h hs ih =>
    obtain ⟨hh, hhs⟩ := List.forall_mem_cons.mp hd
    rw [List.any_cons, List.any_cons, isPrefixOf_stop hh, ih hhs]

theorem startsShape_stop {d : Char} (hheads : ∀ h ∈ shapeHeads, d ∉ h) (hhex : hexLower d = false)
    (x z : List Char) : startsShape (x ++ d :: z) = startsShape x := by
  unfold startsShape
  rw [any_isPrefixOf_stop hheads, takeWhile_stop hhex]

theorem startsName_stop {d : Char} (hnames : ∀ k ∈ keyNames.map String.toList, d ∉ k)
    (x z : List Char) : startsName (x ++ d :: z) = startsName x :=
  any_isPrefixOf_stop hnames x z

theorem startsShape_append {x : List Char} (h : startsShape x) (y : List Char) :
    startsShape (x ++ y) := by
  unfold startsShape at *
  rw [Bool.or_eq_true, List.any_eq_true, decide_eq_true_eq] at *
  refine h.imp ?_ ?_
  · rintro ⟨head, hmem, hprefix⟩
    exact ⟨head, hmem, List.isPrefixOf_iff_prefix.mpr
      ((List.isPrefixOf_iff_prefix.mp hprefix).trans (List.prefix_append x y))⟩
  · intro hlen
    by_cases hall : x.takeWhile hexLower = x
    · rw [List.takeWhile_append_of_pos (List.takeWhile_eq_self_iff.mp hall), List.length_append]
      rw [hall] at hlen
      omega
    · rw [List.takeWhile_append, if_neg]
      · exact hlen
      · intro heq
        exact hall ((List.takeWhile_prefix _).eq_of_length heq)

/-! ### The first symbols of a shape -/

theorem lang_text {k : String} {n : List Sym} : (text k).Lang n ↔ n.map Sym.rune = k.toList := by
  unfold text
  rw [lang_word, List.forall₂_map_left_iff]
  generalize k.toList = ls
  induction ls generalizing n with
  | nil => simp
  | cons l ls ih =>
    cases n with
    | nil => simp
    | cons x n =>
      rw [List.forall₂_cons, ih, List.map_cons, List.cons.injEq]
      exact and_congr_left' beq_iff_eq

def visible (c : Char) : Bool := c.isAlphanum || "[]-_.".toList.contains c

theorem not_quote_of_visible {c : Char} (h : visible c) : isQuote c = false ∧ isSeparator c = false := by
  constructor
  · by_contra hq
    simp only [isQuote, Bool.not_eq_false, Bool.or_eq_true, beq_iff_eq] at hq
    rcases hq with rfl | rfl <;> exact absurd h (by decide)
  · by_contra hs
    simp only [isSeparator, Bool.not_eq_false, Bool.or_eq_true, beq_iff_eq] at hs
    rcases hs with rfl | rfl <;> exact absurd h (by decide)

namespace Engine

variable {e : Engine} (he : e.Lawful)

include he

theorem view_of_visible {x : Sym} (h : visible x.rune) : e.view x = canon x.rune := by
  obtain ⟨hq, hs⟩ := not_quote_of_visible h
  refine view_of_not_space he (Or.inr ?_) hq hs
  simpa [visible] using h

theorem view_of_visibles {u : List Sym} (hu : ∀ x ∈ u, visible x.rune) :
    u.map e.view = (u.map Sym.rune).map canon := by
  rw [List.map_map]
  exact List.map_congr_left fun x hx => view_of_visible he (hu x hx)

end Engine

/-- The first symbols of a word are visible and begin a shape. -/
def Fronted (w : List Sym) : Prop :=
  ∃ u v, w = u ++ v ∧ u ≠ [] ∧ (∀ x ∈ u, visible x.rune) ∧ startsShape ((u.map Sym.rune).map canon)

theorem Fronted.append {w : List Sym} (h : Fronted w) (v : List Sym) : Fronted (w ++ v) := by
  obtain ⟨u, v', rfl, hu⟩ := h
  exact ⟨u, v' ++ v, List.append_assoc _ _ _, hu⟩

theorem fronted_of_text {k : String} {a b : List Char} (hk : k.toList = a ++ b) (hne : a ≠ [])
    (hvisible : a.all visible) (hstarts : startsShape (a.map canon)) {n : List Sym}
    (h : (text k).Lang n) : Fronted n := by
  rw [lang_text, hk] at h
  obtain ⟨u, v, rfl, rfl, -⟩ := List.map_eq_append_iff.mp h
  exact ⟨u, v, rfl, fun hu => hne (hu ▸ rfl), fun x hx => List.all_eq_true.mp hvisible _ (List.mem_map_of_mem hx),
    hstarts⟩

theorem fronted_of_text_all {k : String} (hk : k.toList ≠ [] ∧ k.toList.all visible ∧
    startsShape (k.toList.map canon)) {n : List Sym} (h : (text k).Lang n) : Fronted n :=
  fronted_of_text (List.append_nil _).symm hk.1 hk.2.1 hk.2.2 h

def hexDigits : List Char := "0123456789abcdefABCDEF".toList

theorem mem_hexDigits {c : Char} (h : isHex c) : c ∈ hexDigits := by
  have hcodes : ∀ n : ℕ, (48 ≤ n ∧ n ≤ 57) ∨ (97 ≤ n ∧ n ≤ 102) ∨ (65 ≤ n ∧ n ≤ 70) →
      n ∈ hexDigits.map Char.toNat := by
    intro n hn
    have hlist : hexDigits.map Char.toNat = [48, 49, 50, 51, 52, 53, 54, 55, 56, 57, 97, 98, 99, 100,
        101, 102, 65, 66, 67, 68, 69, 70] := by decide
    rw [hlist]
    simp only [List.mem_cons, List.not_mem_nil, or_false]
    omega
  have hrange : (48 ≤ c.toNat ∧ c.toNat ≤ 57) ∨ (97 ≤ c.toNat ∧ c.toNat ≤ 102) ∨
      (65 ≤ c.toNat ∧ c.toNat ≤ 70) := by
    simp only [isHex, Char.isDigit, Bool.or_eq_true, Bool.and_eq_true, decide_eq_true_eq,
      Char.le_def, UInt32.le_iff_toNat_le, ge_iff_le] at h
    exact or_assoc.mp h
  obtain ⟨d, hd, hdc⟩ := List.mem_map.mp (hcodes _ hrange)
  rwa [← Char.toNat_inj.mp hdc]

theorem fronted_of_hex {n : List Sym} (h : (exactly 8 (on isHex)).Lang n) : Fronted n := by
  obtain ⟨hlen, hall⟩ := lang_exactly.mp h
  have hdigit : ∀ c ∈ hexDigits, visible c ∧ hexLower (canon c) := forall_of_all (by decide)
  refine ⟨n, [], (List.append_nil n).symm, List.ne_nil_of_length_pos (by omega),
    fun x hx => (hdigit _ (mem_hexDigits (hall x hx))).1, ?_⟩
  have htake : ((n.map Sym.rune).map canon).takeWhile hexLower = (n.map Sym.rune).map canon := by
    rw [List.takeWhile_eq_self_iff]
    intro c hc
    simp only [List.mem_map] at hc
    obtain ⟨_, ⟨x, hx, rfl⟩, rfl⟩ := hc
    exact (hdigit _ (mem_hexDigits (hall x hx))).2
  unfold startsShape
  rw [htake, List.length_map, List.length_map, hlen]
  simp

theorem fronted_of_pem {w : List Sym} (h : pem.Lang w) : Fronted w := by
  obtain ⟨_, v, rfl, ⟨n, r, rfl, hn, -⟩, -⟩ := h
  have hdashes : "-----BEGIN ".toList = "-----BEGIN".toList ++ [' '] := by decide
  rw [List.append_assoc]
  exact (fronted_of_text hdashes (by decide) (by decide) (by decide) hn).append _

theorem fronted_of_shape {w : List Sym} (h : shapePattern.Lang w) : Fronted w := by
  have htext : ∀ k : String, k.toList ≠ [] ∧ k.toList.all visible ∧
      startsShape (k.toList.map canon) → ∀ r, (seq (text k) r).Lang w → Fronted w := by
    rintro k hk r ⟨n, v, rfl, hn, -⟩
    exact (fronted_of_text_all hk hn).append v
  have hchoice : ∀ k k' : String, (k.toList ≠ [] ∧ k.toList.all visible ∧
      startsShape (k.toList.map canon)) → (k'.toList ≠ [] ∧ k'.toList.all visible ∧
      startsShape (k'.toList.map canon)) → ∀ r, (seq (alt (text k) (text k')) r).Lang w →
      Fronted w := by
    rintro k k' hk hk' r ⟨n, v, rfl, hn | hn, -⟩
    · exact (fronted_of_text_all hk hn).append v
    · exact (fronted_of_text_all hk' hn).append v
  rcases lang_alts.mp h with h | ⟨b, hb, h⟩
  · exact htext "eyJ" (by decide) _ h
  · simp only [List.mem_cons, List.not_mem_nil, or_false] at hb
    rcases hb with rfl | rfl | rfl | rfl | rfl | rfl | rfl | rfl | rfl
    · exact htext "sk-" (by decide) _ h
    · exact htext "gh" (by decide) _ h
    · exact htext "github_pat_" (by decide) _ h
    · exact hchoice "AKIA" "ASIA" (by decide) (by decide) _ h
    · exact htext "AIza" (by decide) _ h
    · exact htext "xox" (by decide) _ h
    · exact hchoice "sk" "rk" (by decide) (by decide) _ h
    · obtain ⟨n, v, rfl, hn, -⟩ := h
      exact (fronted_of_hex hn).append v
    · exact fronted_of_pem h

end Ark.Redact
