import Ark.RedactViews

/-!
# Matches of the key-anchored pattern

Where a value can begin, and what the engine captures at a key whose value has been replaced: the
placeholder together with everything up to the next space, comma, semicolon, ampersand, brace or quote.
-/

namespace Ark.Redact

open OrderedRegex OrderedRegex.Re

/-- The placeholder after its first symbol. -/
def placeholderTail : List Sym := ofString "REDACTED]"

theorem redactedPlaceholder_eq : redactedPlaceholder = Sym.char '[' :: placeholderTail := rfl

namespace Engine

variable {e : Engine} (he : e.Lawful)

/-! ### The first match at a key -/

theorem not_quote_of_space (he : e.Lawful) {x : Sym} (h : on e.space x) : ¬on isQuote x := by
  obtain ⟨-, -, hmem⟩ := he.space x.rune h
  intro hq
  simp only [on, isQuote, Bool.or_eq_true, beq_iff_eq] at hq
  rcases hq with hq | hq <;> exact hmem (hq ▸ by decide)

theorem not_space_of_separator (he : e.Lawful) {x : Sym} (h : on isSeparator x) : ¬on e.space x := by
  intro hspace
  obtain ⟨-, -, hmem⟩ := he.space x.rune hspace
  simp only [on, isSeparator, Bool.or_eq_true, beq_iff_eq] at h
  rcases h with h | h <;> exact hmem (h ▸ by decide)

theorem not_quote_of_separator {x : Sym} (h : on isSeparator x) : ¬on isQuote x := by
  simp only [on, isSeparator, isQuote, Bool.or_eq_true, beq_iff_eq] at h ⊢
  rcases h with h | h <;> rw [h] <;> decide

theorem not_quote_of_view {x : Sym} (h : e.view x ≠ '=') : ¬on isQuote x := fun hq =>
  h (view_of_quote hq)

theorem first_optQuote {q y : List Sym} (hq : (opt (cls (on isQuote))).Lang q)
    (hy : ∀ x y', y = x :: y' → ¬on isQuote x) :
    (opt (cls (on isQuote))).first (q ++ y) = some (q, y) := by
  rcases view_optQuote hq with rfl | ⟨x, rfl, hx⟩
  · refine first_opt_none ?_
    cases y with
    | nil => rfl
    | cons x y => exact first_cls_of_neg (hy x y rfl) y
  · exact first_opt (first_cls_of_pos hx y)

include he

/-- The names are distinct from each other at some letter, whichever is tried first. -/
theorem first_names {n : List Sym} (hn : e.names.Lang n) (y : List Sym) :
    e.names.first (n ++ y) = some (n, y) := by
  have hdistinct : ∀ k ∈ keyNames, ∀ k' ∈ keyNames, k.toList <+: k'.toList →
      k.toList.length = k'.toList.length := by decide
  refine first_of_unique hn fun w t happ hw => ?_
  obtain ⟨k, hk, hnk⟩ := view_names he hn
  obtain ⟨k', hk', hwk⟩ := view_names he hw
  have hlen : w.length = n.length := by
    have hwlen := congrArg List.length hwk
    have hnlen := congrArg List.length hnk
    rw [List.length_map] at hwlen hnlen
    rw [hwlen, hnlen]
    rcases List.prefix_or_prefix_of_prefix (List.prefix_append n y)
      (happ ▸ List.prefix_append w t) with h | h
    · have hmap := h.map e.view
      rw [hnk, hwk] at hmap
      exact (hdistinct k hk k' hk' hmap).symm
    · have hmap := h.map e.view
      rw [hnk, hwk] at hmap
      exact hdistinct k' hk' k hk hmap
  exact (List.append_inj happ hlen.symm).1.symm

theorem names_head {n : List Sym} (hn : e.names.Lang n) :
    ∃ x n', n = x :: n' ∧ e.view x ∈ letters := by
  have hhead : ∀ k ∈ keyNames, ∃ l ls, k.toList = l :: ls ∧ l ∈ letters := by
    intro k hk
    have hne : ∀ k ∈ keyNames, k.toList ≠ [] := by decide
    obtain ⟨l, ls, hl⟩ := List.exists_cons_of_ne_nil (hne k hk)
    exact ⟨l, ls, hl, letters_of_keyNames k hk l (hl ▸ List.mem_cons_self)⟩
  obtain ⟨k, hk, hview⟩ := view_names he hn
  obtain ⟨l, ls, hl, hmem⟩ := hhead k hk
  cases n with
  | nil =>
    rw [hl] at hview
    exact absurd hview.symm (List.cons_ne_nil _ _)
  | cons x n =>
    rw [hl, List.map_cons] at hview
    exact ⟨x, n, rfl, (List.cons.inj hview).1 ▸ hmem⟩

theorem sep_head {p : List Sym} (hp : e.sep.Lang p) : ∃ x p', p = x :: p' ∧ ¬on isQuote x := by
  obtain ⟨u, x, v, rfl, hu, hx, -⟩ := lang_sep hp
  cases u with
  | nil => exact ⟨x, v, rfl, not_quote_of_separator hx⟩
  | cons y u => exact ⟨y, u ++ x :: v, rfl, not_quote_of_space he (hu y List.mem_cons_self)⟩

theorem first_key {k p : List Sym} (hk : e.key.Lang k) (hp : e.sep.Lang p) (z : List Sym) :
    e.key.first (k ++ (p ++ z)) = some (k, p ++ z) := by
  obtain ⟨q₁, n, q₂, rfl, hn, hq₁, hq₂⟩ := lang_key hk
  obtain ⟨x, n', hx, hview⟩ := names_head he hn
  obtain ⟨y, p', hy, hquote⟩ := sep_head he hp
  have hletter : ∀ l ∈ letters, l ≠ '=' := forall_of_all (by decide)
  have hfirst : (opt (cls (on isQuote))).first (q₁ ++ (n ++ (q₂ ++ (p ++ z)))) =
      some (q₁, n ++ (q₂ ++ (p ++ z))) := by
    refine first_optQuote hq₁ fun x' y' happ => ?_
    rw [hx] at happ
    rw [← (List.cons.inj happ).1]
    exact not_quote_of_view (hletter _ hview)
  have hlast : (opt (cls (on isQuote))).first (q₂ ++ (p ++ z)) = some (q₂, p ++ z) := by
    refine first_optQuote hq₂ fun x' y' happ => ?_
    rw [hy] at happ
    rw [← (List.cons.inj happ).1]
    exact hquote
  rw [List.append_assoc, List.append_assoc]
  exact first_seq hfirst (first_seq (first_names he hn _) hlast)

theorem first_sep {p z : List Sym} (hp : e.sep.Lang p) (hz : ∀ x z', z = x :: z' → ¬on e.space x) :
    e.sep.first (p ++ z) = some (p, z) := by
  obtain ⟨u, x, v, rfl, hu, hx, hv⟩ := lang_sep hp
  have hbefore : (star (on e.space)).first (u ++ (x :: (v ++ z))) = some (u, x :: (v ++ z)) := by
    rw [first_star, List.takeWhile_append_of_pos hu, List.dropWhile_append_of_pos hu,
      List.takeWhile_cons_of_neg (not_space_of_separator he hx),
      List.dropWhile_cons_of_neg (not_space_of_separator he hx), List.append_nil]
  have hafter : (star (on e.space)).first (v ++ z) = some (v, z) := by
    rw [first_star, List.takeWhile_append_of_pos hv, List.dropWhile_append_of_pos hv]
    cases z with
    | nil => simp
    | cons y z =>
      rw [List.takeWhile_cons_of_neg (hz y z rfl), List.dropWhile_cons_of_neg (hz y z rfl),
        List.append_nil]
  rw [List.append_assoc, List.cons_append]
  exact first_seq hbefore (first_seq (first_cls_of_pos hx _) hafter)

/-! ### The first match at a placeholder -/

theorem not_space_bracket : ¬on e.space (Sym.char '[') := fun h =>
  (he.space _ h).2.2 (by decide)

theorem plain_of_visible {x : Sym} (h : x.rune.isAlphanum ∨ x.rune ∈ "[]-_.".toList) :
    on e.plain x := by
  have hspace : e.space x.rune = false := by
    by_contra hspace
    obtain ⟨-, halnum, hmem⟩ := he.space x.rune (by simpa using hspace)
    have hsub : ∀ c ∈ "[]-_.".toList, c ∈ "'\"=:[]-_.,;&\x7d".toList :=
      forall_of_all (by decide)
    rcases h with h | h
    · rw [halnum] at h
      exact Bool.false_ne_true h
    · exact hmem (hsub _ h)
  have hother : ∀ c ∈ ",;&\x7d'\"".toList, x.rune ≠ c := by
    have hno : ∀ c ∈ ",;&\x7d'\"".toList, c.isAlphanum = false ∧ c ∉ "[]-_.".toList :=
      forall_of_all (by decide)
    rintro c hc rfl
    rcases h with h | h
    · rw [(hno _ hc).1] at h
      exact Bool.false_ne_true h
    · exact (hno _ hc).2 h
  unfold on plain isQuote
  simp [hspace, hother ',' (by decide), hother ';' (by decide), hother '&' (by decide),
    hother '\x7d' (by decide), hother '\'' (by decide), hother '"' (by decide)]

theorem plain_placeholder : ∀ x ∈ redactedPlaceholder, on e.plain x := by
  have hvisible : ∀ x ∈ redactedPlaceholder, x.rune.isAlphanum ∨ x.rune ∈ "[]-_.".toList := by
    decide
  exact fun x hx => plain_of_visible he (hvisible x hx)

theorem first_val_placeholder (x : List Sym) :
    e.val.first (redactedPlaceholder ++ x) =
      some (redactedPlaceholder ++ x.takeWhile (on e.plain), x.dropWhile (on e.plain)) := by
  have hword : ∀ (k : String) (l : Char) (ls : List Char), k.toList = l :: ls → l ∈ letters →
      ∀ y, (e.foldText k).first (Sym.char '[' :: y) = none := by
    intro k l ls hk hl y
    unfold foldText
    rw [hk]
    refine first_seq_none (first_cls_of_neg ?_ y)
    intro hfold
    have hcanon : canon '[' = l := he.folds l hl '[' hfold
    have hno : ∀ l ∈ letters, canon '[' ≠ l := forall_of_all (by decide)
    exact hno l hl hcanon
  have hplain := plain_placeholder he
  rw [redactedPlaceholder_eq] at hplain ⊢
  obtain ⟨hbracket, htail⟩ := List.forall_mem_cons.mp hplain
  have hquoted : ∀ q, isQuote q → ∀ y, (quoted q).first (Sym.char '[' :: y) = none := by
    rintro q hq y
    refine first_seq_none (first_cls_of_neg ?_ y)
    intro hbracket
    rw [← beq_iff_eq.mp hbracket] at hq
    exact absurd hq (by decide)
  have hscheme : ∀ y, e.scheme.first (Sym.char '[' :: y) = none := by
    intro y
    refine first_seq_none ?_
    rw [first_alt_right (hword "bearer" 'b' _ rfl (by decide) y)]
    exact hword "basic" 'b' _ rfl (by decide) y
  rw [List.cons_append]
  unfold val
  rw [alts, first_alt_right (hquoted '\'' (by decide) _), alts,
    first_alt_right (hquoted '"' (by decide) _), alts, first_alt_right (hscheme _), alts,
    first_plus hbracket, List.takeWhile_append_of_pos htail, List.dropWhile_append_of_pos htail]
  rfl

/-- A replaced value is captured again, with what runs on from it. -/
theorem keyAnchored_placeholder {k p : List Sym} (hk : e.key.Lang k) (hp : e.sep.Lang p)
    (x : List Sym) :
    e.keyAnchoredPattern (k ++ (p ++ (redactedPlaceholder ++ x))) =
      some ⟨k, p, redactedPlaceholder ++ x.takeWhile (on e.plain), x.dropWhile (on e.plain)⟩ := by
  refine groups_of_first (first_key he hk hp _) (first_sep he hp ?_) (first_val_placeholder he x)
  intro y z h
  rw [redactedPlaceholder_eq] at h
  rw [← (List.cons.inj h).1]
  exact not_space_bracket he

end Engine

/-! ### Where a value begins -/

/-- A symbol of an unquoted value, or a quote that is closed somewhere. -/
def Engine.HasVal (e : Engine) (s : List Sym) : Prop :=
  ∃ x t, s = x :: t ∧ (on e.plain x ∨ (on isQuote x ∧ x ∈ t))

/-- What begins with this text is the beginning of a value. -/
def Engine.Covers (e : Engine) (v : List Sym) : Prop := ∀ t, e.HasVal (v ++ t)

theorem eq_char_of_on {q : Char} (hq : isQuote q) {x : Sym} (h : on (· == q) x) : x = Sym.char q := by
  cases x with
  | char c =>
    have hc : c = q := beq_iff_eq.mp h
    rw [hc]
  | raw b =>
    have hc : '\uFFFD' = q := beq_iff_eq.mp h
    rw [← hc] at hq
    exact absurd hq (by decide)

namespace Engine

variable {e : Engine} (he : e.Lawful)

theorem hasVal_of_quoted {q : Char} (hq : isQuote q) {v : List Sym} (hv : (quoted q).Lang v) :
    e.Covers v := by
  obtain ⟨_, _, rfl, ⟨x, rfl, hx⟩, body, _, rfl, -, y, rfl, hy⟩ := hv
  intro t
  rw [eq_char_of_on hq hx, eq_char_of_on hq hy]
  exact ⟨_, _, rfl, Or.inr ⟨hq, by simp⟩⟩

theorem quoted_of_mem {q : Char} (hq : isQuote q) {t : List Sym} (h : Sym.char q ∈ t) :
    ∃ v r, Sym.char q :: t = v ++ r ∧ (quoted q).Lang v := by
  obtain ⟨body, r, rfl, hbody⟩ := List.eq_append_cons_of_mem h
  refine ⟨Sym.char q :: (body ++ [Sym.char q]), r, by simp, ?_⟩
  have hself : on (· == q) (Sym.char q) := beq_self_eq_true q
  refine ⟨[Sym.char q], _, rfl, ⟨_, rfl, hself⟩, body, _, rfl, ?_, _, rfl, hself⟩
  intro x hx
  by_contra hne
  have heq : on (· == q) x := by
    unfold on at hne ⊢
    simpa using hne
  exact hbody (eq_char_of_on hq heq ▸ hx)

theorem covers_of_plain {x : Sym} (hx : on e.plain x) (v : List Sym) : e.Covers (x :: v) :=
  fun _ => ⟨x, _, rfl, Or.inl hx⟩

theorem hasVal_of_masked {o s : List Sym}
    (h : Masked (Sym.char '[') placeholderTail e.Covers o s) (ho : e.HasVal o) : e.HasVal s := by
  obtain ⟨x, t, rfl, hx⟩ := ho
  generalize hxt : x :: t = o at h
  cases h with
  | nil => exact absurd hxt (List.cons_ne_nil _ _)
  | @keep c o s h =>
    obtain ⟨rfl, rfl⟩ := List.cons.inj hxt
    refine ⟨x, s, rfl, hx.imp_right fun ⟨hq, hmem⟩ => ⟨hq, h.mem_of_mem hmem ?_⟩⟩
    rintro hR
    have hno : ∀ y ∈ Sym.char '[' :: placeholderTail, ¬on isQuote y := by decide
    exact hno x hR hq
  | mask hv h => exact hv _

include he

theorem covers_of_scheme {v : List Sym} (hv : e.scheme.Lang v) : e.Covers v := by
  obtain ⟨w, u, rfl, hw, -⟩ := hv
  have hb : ∀ k : String, (∃ ls, k.toList = 'b' :: ls) → (e.foldText k).Lang w → e.Covers (w ++ u) := by
    rintro k ⟨ls, hk⟩ h
    unfold foldText at h
    rw [hk] at h
    obtain ⟨_, w', rfl, ⟨x, rfl, hx⟩, -⟩ := h
    have hcanon : canon x.rune = 'b' := he.folds 'b' (by decide) x.rune hx
    refine covers_of_plain (plain_of_visible he (Or.inl ?_)) _
    revert hcanon
    unfold canon
    split_ifs with hupper
    · intro _
      have halpha : x.rune.isAlpha = (x.rune.isUpper || x.rune.isLower) := rfl
      simp [Char.isAlphanum, halpha, hupper]
    · exact fun h => absurd h (by decide)
    · exact fun h => absurd h (by decide)
    · exact fun h => absurd h (by decide)
    · intro h
      rw [h]
      decide
  rcases hw with hw | hw
  · exact hb "bearer" ⟨_, rfl⟩ hw
  · exact hb "basic" ⟨_, rfl⟩ hw

theorem covers_of_val {v : List Sym} (hv : e.val.Lang v) : e.Covers v := by
  rcases lang_alts.mp hv with hv | ⟨b, hb, hv⟩
  · exact hasVal_of_quoted (by decide) hv
  · simp only [List.mem_cons, List.not_mem_nil, or_false] at hb
    rcases hb with rfl | rfl | rfl
    · exact hasVal_of_quoted (by decide) hv
    · exact covers_of_scheme he hv
    · obtain ⟨hne, hall⟩ := lang_plus.mp hv
      obtain ⟨x, v, rfl⟩ := List.exists_cons_of_ne_nil hne
      exact covers_of_plain (hall x List.mem_cons_self) v

theorem hasVal_iff {s : List Sym} : e.HasVal s ↔ ∃ v t, s = v ++ t ∧ e.val.Lang v := by
  constructor
  · rintro ⟨x, t, rfl, hx | ⟨hq, hmem⟩⟩
    · exact ⟨[x], t, rfl, lang_alts.mpr (Or.inr
        ⟨plus (on e.plain), by simp, lang_plus.mpr ⟨by simp, by simpa using hx⟩⟩)⟩
    · have hquote : ∃ q, isQuote q ∧ x = Sym.char q := by
        simp only [on, isQuote, Bool.or_eq_true] at hq
        rcases hq with hq | hq
        · exact ⟨'\'', by decide, eq_char_of_on (by decide) hq⟩
        · exact ⟨'"', by decide, eq_char_of_on (by decide) hq⟩
      obtain ⟨q, hq', rfl⟩ := hquote
      obtain ⟨v, r, happ, hv⟩ := quoted_of_mem hq' hmem
      refine ⟨v, r, happ, lang_alts.mpr ?_⟩
      simp only [isQuote, Bool.or_eq_true, beq_iff_eq] at hq'
      rcases hq' with rfl | rfl
      · exact Or.inl hv
      · exact Or.inr ⟨_, by simp, hv⟩
  · rintro ⟨v, t, rfl, hv⟩
    exact covers_of_val he hv t

theorem keyAnchored_ne_none_iff {s : List Sym} :
    e.keyAnchoredPattern s ≠ none ↔
      ∃ k p t, s = k ++ (p ++ t) ∧ e.key.Lang k ∧ e.sep.Lang p ∧ e.HasVal t := by
  unfold keyAnchoredPattern
  rw [groups_ne_none_iff]
  constructor
  · rintro ⟨k, p, v, t, rfl, hk, hp, hv⟩
    exact ⟨k, p, v ++ t, by simp, hk, hp, covers_of_val he hv t⟩
  · rintro ⟨k, p, t, rfl, hk, hp, ht⟩
    obtain ⟨v, r, rfl, hv⟩ := (hasVal_iff he).mp ht
    exact ⟨k, p, v, r, by simp, hk, hp, hv⟩

/-! ### Masked values -/

theorem view_bracket : e.view (Sym.char '[') = '[' :=
  view_of_not_space he (Or.inr (Or.inr (by decide))) (by decide) (by decide)

theorem view_key {k : List Sym} (hk : e.key.Lang k) : ∀ x ∈ k, e.view x = '=' ∨ e.view x ∈ letters := by
  obtain ⟨q₁, n, q₂, rfl, hn, hq₁, hq₂⟩ := lang_key hk
  obtain ⟨name, hname, hview⟩ := view_names he hn
  have hquote : ∀ q, (opt (cls (on isQuote))).Lang q → ∀ x ∈ q, e.view x = '=' := by
    intro q hq x hx
    rcases view_optQuote hq with rfl | ⟨y, rfl, hy⟩
    · exact absurd hx List.not_mem_nil
    · obtain rfl := List.mem_singleton.mp hx
      exact view_of_quote hy
  intro x hx
  rcases List.mem_append.mp hx with hx | hx
  · exact Or.inl (hquote q₁ hq₁ x hx)
  · rcases List.mem_append.mp hx with hx | hx
    · exact Or.inr (letters_of_keyNames name hname _ (hview ▸ List.mem_map_of_mem hx))
    · exact Or.inl (hquote q₂ hq₂ x hx)

theorem ne_bracket_of_key {k : List Sym} (hk : e.key.Lang k) : ∀ x ∈ k, x ≠ Sym.char '[' := by
  rintro x hx rfl
  have hno : ¬('[' = '=' ∨ '[' ∈ letters) := by decide
  have h := view_key he hk _ hx
  rw [view_bracket he] at h
  exact hno h

theorem ne_bracket_of_sep {p : List Sym} (hp : e.sep.Lang p) : ∀ x ∈ p, x ≠ Sym.char '[' := by
  rintro x hx rfl
  have h := (view_sep hp).2 _ hx
  rw [view_bracket he] at h
  exact absurd h (by decide)

/-- Masking creates no key. -/
theorem keyAnchored_of_masked {o s : List Sym}
    (h : Masked (Sym.char '[') placeholderTail e.Covers o s) (ho : e.keyAnchoredPattern o ≠ none) :
    e.keyAnchoredPattern s ≠ none := by
  obtain ⟨k, p, t, rfl, hk, hp, ht⟩ := (keyAnchored_ne_none_iff he).mp ho
  obtain ⟨s', rfl, hs⟩ := h.take_front (ne_bracket_of_key he hk)
  obtain ⟨t', rfl, ht'⟩ := hs.take_front (ne_bracket_of_sep he hp)
  exact (keyAnchored_ne_none_iff he).mpr ⟨k, p, t', rfl, hk, hp, hasVal_of_masked ht' ht⟩

end Engine

end Ark.Redact
