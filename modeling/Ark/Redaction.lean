import Ark.ReplacedFields

/-!
# Redacting twice

The second replacement leaves no shape behind. What the first one leaves is found again by the second
run: a quoted value ends at its closing quote, and a symbol that follows without a space joins the
placeholder. So redaction is complete and idempotent exactly where no such symbol follows a value whose
key survives.
-/

namespace Ark.Redact

open OrderedRegex OrderedRegex.Re

theorem shapeRule_eq_none {s : List Sym} : shapeRule s = none ↔ shapePattern.first s = none := by
  unfold shapeRule
  rw [Option.map_eq_none_iff]

theorem shapeRule_eq_some {s out rest : List Sym} (h : shapeRule s = some (out, rest)) :
    out = redactedPlaceholder ∧ ∃ w, s = w ++ rest ∧ shapePattern.Lang w := by
  obtain ⟨⟨w, t⟩, hw, heq⟩ := Option.map_eq_some_iff.mp h
  obtain ⟨rfl, rfl⟩ := Prod.mk.inj heq
  exact ⟨rfl, w, first_spec hw⟩

theorem shapeRule_consumes : shapeRule.Consumes := by
  intro s out rest h
  obtain ⟨-, w, rfl, hw⟩ := shapeRule_eq_some h
  obtain ⟨u, v, rfl, hne, -⟩ := fronted_of_shape hw
  exact ⟨u ++ v, by simp [hne], rfl⟩

/-- Symbols that occur in no shape but the last one. -/
def outside : List Sym := [Sym.char '[', Sym.char '\'', Sym.char '"']

/-- A private key, or a shape without brackets and quotes. -/
theorem shape_cases {w : List Sym} (h : shapePattern.Lang w) :
    pem.Lang w ∨ ∃ r : Re Sym, r.Lang w ∧ (∀ v, r.Lang v → shapePattern.Lang v) ∧
      ∀ x ∈ outside, ∀ p ∈ r.classes, p x = false := by
  rcases lang_alts.mp h with hjwt | ⟨r, hr, hrw⟩
  · exact Or.inr ⟨jwt, hjwt, fun v hv => lang_alts.mpr (Or.inl hv), by decide⟩
  have hsub : ∀ v, r.Lang v → shapePattern.Lang v := fun v hv => lang_alts.mpr (Or.inr ⟨r, hr, hv⟩)
  have houtside : r = pem ∨ ∀ x ∈ outside, ∀ p ∈ r.classes, p x = false := by
    simp only [List.mem_cons, List.not_mem_nil, or_false] at hr
    rcases hr with rfl | rfl | rfl | rfl | rfl | rfl | rfl | rfl | rfl
    all_goals first | exact Or.inl rfl | exact Or.inr (by decide)
  rcases houtside with rfl | houtside
  · exact Or.inl hrw
  · exact Or.inr ⟨r, hrw, hsub, houtside⟩

theorem shape_of_pem {w : List Sym} (h : pem.Lang w) : shapePattern.Lang w :=
  lang_alts.mpr (Or.inr ⟨pem, by simp, h⟩)

/-- The header and the footer of a private key have no bracket, and what is between them may be
masked. -/
theorem first_shape_of_masked_pem {P : List Sym → Prop} {w t s : List Sym} (hw : pem.Lang w)
    (h : Masked (Sym.char '[') placeholderTail P (w ++ t) s) : shapePattern.first s ≠ none := by
  obtain ⟨header, _, rfl, hheader, body, footer, rfl, hbody, hfooter⟩ := hw
  have hno : ∀ r : Re Sym, (∀ p ∈ r.classes, p (Sym.char '[') = false) → ∀ w, r.Lang w →
      ∀ c ∈ w, c ≠ Sym.char '[' :=
    fun r hr w hw c hc hcr => not_mem_of_classes hr hw (hcr ▸ hc)
  have hfooterMem := hno pemFooter (by decide) footer hfooter
  have hdash : ∃ c f, footer = c :: f ∧ c.rune = '-' := by
    obtain ⟨_, _, rfl, hn, -⟩ := hfooter
    obtain ⟨_, _, rfl, ⟨c, rfl, hc⟩, -⟩ := hn
    exact ⟨c, _, rfl, beq_iff_eq.mp hc⟩
  obtain ⟨c, f, rfl, hc⟩ := hdash
  have hplace : c ∉ Sym.char '[' :: placeholderTail := by
    have hrunes : ∀ x ∈ Sym.char '[' :: placeholderTail, x.rune ≠ '-' := by decide
    exact fun hmem => hrunes c hmem hc
  rw [List.append_assoc, List.append_assoc] at h
  obtain ⟨s', rfl, hs⟩ := h.take_front (hno pemHeader (by decide) header hheader)
  obtain ⟨body', t', rfl, -⟩ :=
    hs.take_part hplace (List.forall_mem_cons.mp hfooterMem).2
  exact first_ne_none_iff.mpr ⟨header ++ (body' ++ (c :: f)), t', by simp,
    shape_of_pem ⟨header, _, rfl, hheader, body', _, rfl, fun _ _ => rfl, hfooter⟩⟩

/-- Masking creates no shape. -/
theorem first_shape_of_masked {P : List Sym → Prop} {o s : List Sym}
    (h : Masked (Sym.char '[') placeholderTail P o s) (ho : shapePattern.first o ≠ none) :
    shapePattern.first s ≠ none := by
  obtain ⟨w, t, rfl, hw⟩ := first_ne_none_iff.mp ho
  rcases shape_cases hw with hpem | ⟨r, hrw, hsub, houtside⟩
  · exact first_shape_of_masked_pem hpem h
  · have hbracket := not_mem_of_classes (houtside (Sym.char '[') (by decide)) hrw
    obtain ⟨t', rfl, -⟩ := h.take_front fun c hc hcr => hbracket (hcr ▸ hc)
    exact first_ne_none_iff.mpr ⟨w, t', rfl, hsub w hrw⟩

theorem quote_cases {q : Sym} (hq : on isQuote q) : q = Sym.char '\'' ∨ q = Sym.char '"' := by
  simp only [on, isQuote, Bool.or_eq_true] at hq
  exact hq.imp (eq_char_of_on (by decide)) (eq_char_of_on (by decide))

theorem text_end {k : String} {a : List Char} {c : Char} (hk : k.toList = a ++ [c]) {n : List Sym}
    (h : (text k).Lang n) : ∃ u x, n = u ++ [x] ∧ x.rune = c := by
  rw [lang_text, hk] at h
  obtain ⟨u, l, rfl, -, hl⟩ := List.map_eq_append_iff.mp h
  obtain ⟨x, rfl, hx⟩ := List.map_eq_singleton_iff.mp hl
  exact ⟨u, x, rfl, hx⟩

theorem seq_end {r r' : Re Sym} {c : Char} (h : ∀ w, r'.Lang w → ∃ u x, w = u ++ [x] ∧ x.rune = c)
    {w : List Sym} (hw : (seq r r').Lang w) : ∃ u x, w = u ++ [x] ∧ x.rune = c := by
  obtain ⟨v, v', rfl, -, hv'⟩ := hw
  obtain ⟨u, x, rfl, hx⟩ := h v' hv'
  exact ⟨v ++ u, x, (List.append_assoc _ _ _).symm, hx⟩

theorem pem_end {w : List Sym} (h : pem.Lang w) : ∃ u x, w = u ++ [x] ∧ x.rune = '-' := by
  have hdash : "PRIVATE KEY-----".toList = "PRIVATE KEY----".toList ++ ['-'] := by decide
  have hclosing : ∀ w, (text "PRIVATE KEY-----").Lang w → ∃ u x, w = u ++ [x] ∧ x.rune = '-' :=
    fun _ hw => text_end hdash hw
  have hfooter : ∀ w, pemFooter.Lang w → ∃ u x, w = u ++ [x] ∧ x.rune = '-' :=
    fun _ hw => seq_end (fun _ hw' => seq_end hclosing hw') hw
  exact seq_end (fun _ hw => seq_end hfooter hw) h

/-- A shape does not end with a quote. -/
theorem not_quote_end {w u : List Sym} {q : Sym} (hw : shapePattern.Lang w) (hq : on isQuote q) :
    w ≠ u ++ [q] := by
  intro heq
  rcases shape_cases hw with hpem | ⟨r, hrw, -, houtside⟩
  · obtain ⟨v, x, rfl, hx⟩ := pem_end hpem
    have hlast := (List.append_inj' heq rfl).2
    rw [← List.singleton_inj.mp hlast] at hq
    unfold on at hq
    rw [hx] at hq
    exact absurd hq (by decide)
  · have hmem : q ∈ w := heq ▸ List.mem_append_right u List.mem_cons_self
    refine not_mem_of_classes (houtside q ?_) hrw hmem
    rcases quote_cases hq with rfl | rfl <;> decide

/-! ### The two replacements -/

theorem Engine.keyRule_eq_some {e : Engine} {s out rest : List Sym}
    (h : e.keyRule s = some (out, rest)) :
    ∃ g, e.keyAnchoredPattern s = some g ∧ out = g.key ++ (g.sep ++ redactedPlaceholder) ∧
      rest = g.rest := by
  obtain ⟨g, hg, heq⟩ := Option.map_eq_some_iff.mp h
  obtain ⟨rfl, rfl⟩ := Prod.mk.inj heq
  exact ⟨g, hg, by simp, rfl⟩

theorem Engine.keyRule_of_some {e : Engine} {s : List Sym} {g : Groups Sym}
    (h : e.keyAnchoredPattern s = some g) :
    e.keyRule s = some (g.key ++ (g.sep ++ redactedPlaceholder), g.rest) := by
  unfold Engine.keyRule
  rw [h, Option.map_some, List.append_assoc]

theorem Engine.keyRule_eq_none {e : Engine} {s : List Sym} :
    e.keyRule s = none ↔ e.keyAnchoredPattern s = none := Option.map_eq_none_iff

/-- What a match of the first pattern consists of. -/
theorem Engine.keyAnchored_spec {e : Engine} {s : List Sym} {g : Groups Sym}
    (h : e.keyAnchoredPattern s = some g) :
    s = g.key ++ (g.sep ++ (g.val ++ g.rest)) ∧ e.key.Lang g.key ∧ e.sep.Lang g.sep ∧
      e.val.Lang g.val := by
  obtain ⟨hs, hk, hp, hv⟩ := groups_spec h
  exact ⟨by rw [hs, Groups.matched]; simp, hk, hp, hv⟩

theorem Engine.keyRule_consumes (e : Engine) : e.keyRule.Consumes := by
  intro s out rest h
  obtain ⟨g, hg, -, rfl⟩ := Engine.keyRule_eq_some h
  obtain ⟨rfl, hk, hp, hv⟩ := Engine.keyAnchored_spec hg
  exact ⟨g.key ++ (g.sep ++ g.val), by simp [(view_sep hp).1], by simp⟩

namespace Engine

variable {e : Engine} (he : e.Lawful)

def maskValues (e : Engine) (s : List Sym) : List Sym := replaceAll e.keyRule s

def maskShapes (s : List Sym) : List Sym := replaceAll shapeRule s

theorem maskValues_of_none {c : Sym} {s : List Sym} (h : e.keyAnchoredPattern (c :: s) = none) :
    e.maskValues (c :: s) = c :: e.maskValues s :=
  replaceAll_cons_of_none (keyRule_eq_none.mpr h)

theorem maskValues_of_some {s : List Sym} {g : Groups Sym} (h : e.keyAnchoredPattern s = some g) :
    e.maskValues s = g.key ++ (g.sep ++ (redactedPlaceholder ++ e.maskValues g.rest)) := by
  unfold maskValues
  rw [replaceAll_of_some e.keyRule_consumes (keyRule_of_some h)]
  simp

theorem masked_maskShapes (hw : ∀ w, shapePattern.Lang w → e.Covers w) (s : List Sym) :
    Masked (Sym.char '[') placeholderTail e.Covers (maskShapes s) s := by
  induction s using replace_induction shapeRule_consumes with
  | nil _ => exact Masked.nil
  | kept c s hnone ih =>
    unfold maskShapes
    rw [replaceAll_cons_of_none hnone]
    exact Masked.keep c ih
  | replaced s out rest hsome ih =>
    unfold maskShapes
    rw [replaceAll_of_some shapeRule_consumes hsome]
    obtain ⟨rfl, w, rfl, hlang⟩ := shapeRule_eq_some hsome
    exact Masked.mask (hw w hlang) ih

include he

theorem masked_maskValues (s : List Sym) :
    Masked (Sym.char '[') placeholderTail e.Covers (e.maskValues s) s := by
  induction s using replace_induction e.keyRule_consumes with
  | nil _ => exact Masked.nil
  | kept c s hnone ih =>
    rw [maskValues_of_none (keyRule_eq_none.mp hnone)]
    exact Masked.keep c ih
  | replaced s out rest hsome ih =>
    obtain ⟨g, hg, -, rfl⟩ := keyRule_eq_some hsome
    obtain ⟨hs, hk, hp, hv⟩ := keyAnchored_spec hg
    have hmask := ((Masked.mask (covers_of_val he hv) ih).keep_append g.sep).keep_append g.key
    rw [← hs] at hmask
    rw [maskValues_of_some hg]
    exact hmask

/-! ### No shape is left -/

theorem no_shape_left (s t : List Sym) (ht : t <:+ maskShapes s) : shapePattern.first t = none := by
  induction s using replace_induction shapeRule_consumes generalizing t with
  | nil hnone =>
    rw [List.suffix_nil.mp ht]
    exact shapeRule_eq_none.mp hnone
  | kept c s hnone ih =>
    have hmasked := masked_maskShapes (fun w => covers_of_shape he) (c :: s)
    unfold maskShapes at ht hmasked
    rw [replaceAll_cons_of_none hnone] at ht hmasked
    rcases suffix_cons_cases ht with rfl | ht
    · by_contra hmatch
      exact first_shape_of_masked hmasked hmatch (shapeRule_eq_none.mp hnone)
    · exact ih t ht
  | replaced s out rest hsome ih =>
    unfold maskShapes at ht
    rw [replaceAll_of_some shapeRule_consumes hsome, (shapeRule_eq_some hsome).1] at ht
    rcases suffix_append_cases ht with ht | ⟨u, hu, hplace, rfl⟩
    · exact ih t ht
    · exact shape_placeholder he hu hplace _

/-! ### The keys that are left -/

/-- A key in the masked text is that of a replaced field, with or without its opening quote. -/
theorem field_of_key (s t : List Sym) (ht : t <:+ e.maskValues s)
    (hmatch : e.keyAnchoredPattern t ≠ none) :
    ∃ r g, Visited e.keyRule s r ∧ e.keyAnchoredPattern r = some g ∧
      (t = g.key ++ (g.sep ++ (redactedPlaceholder ++ e.maskValues g.rest)) ∨
        ∃ q k, g.key = q :: k ∧ on isQuote q ∧ e.key.Lang k ∧ q :: t <:+ e.maskValues s ∧
          t = k ++ (g.sep ++ (redactedPlaceholder ++ e.maskValues g.rest))) := by
  induction s using replace_induction e.keyRule_consumes generalizing t with
  | nil hnone =>
    rw [List.suffix_nil.mp ht] at hmatch
    exact absurd (keyRule_eq_none.mp hnone) hmatch
  | kept c s hnone ih =>
    have hmasked := masked_maskValues he (c :: s)
    rw [maskValues_of_none (keyRule_eq_none.mp hnone)] at ht hmasked
    rcases suffix_cons_cases ht with rfl | ht
    · exact absurd (keyRule_eq_none.mp hnone) (keyAnchored_of_masked he hmasked hmatch)
    · obtain ⟨r, g, hv, hg, hcases⟩ := ih t ht hmatch
      refine ⟨r, g, Visited.kept hnone hv, hg, hcases.imp_right ?_⟩
      rintro ⟨q, k, hkey, hq, hk, hsuffix, rfl⟩
      rw [maskValues_of_none (keyRule_eq_none.mp hnone)]
      exact ⟨q, k, hkey, hq, hk, hsuffix.trans (List.suffix_cons _ _), rfl⟩
  | replaced s out rest hsome ih =>
    obtain ⟨g, hg, -, rfl⟩ := keyRule_eq_some hsome
    obtain ⟨-, hk, hp, -⟩ := keyAnchored_spec hg
    have hmask := maskValues_of_some hg
    have happ : g.key ++ (g.sep ++ (redactedPlaceholder ++ e.maskValues g.rest)) =
        g.key ++ (g.sep ++ redactedPlaceholder) ++ e.maskValues g.rest := by simp
    rw [hmask, happ] at ht
    rcases suffix_append_cases ht with ht | ⟨u, hu, hsuffix, rfl⟩
    · obtain ⟨r, g', hv, hg', hcases⟩ := ih t ht hmatch
      refine ⟨r, g', Visited.replaced hsome hv, hg', hcases.imp_right ?_⟩
      rintro ⟨q, k, hkey, hq, hk', hsuffix, rfl⟩
      rw [hmask, happ]
      exact ⟨q, k, hkey, hq, hk', hsuffix.trans (List.suffix_append _ _), rfl⟩
    · refine ⟨s, g, Visited.here s, hg, ?_⟩
      rcases inner_of_keyAnchored he (inner_of_suffix he hk hp hu hsuffix) hu hmatch with
        rfl | ⟨q, k, hkey, hq, hk', rfl⟩
      · exact Or.inl happ.symm
      · refine Or.inr ⟨q, k, hkey, hq, hk', ?_, by simp⟩
        rw [hmask, hkey]
        simp

/-- A key in the final text was looked at by the second scan. -/
theorem visited_of_key (s t : List Sym) (ht : t <:+ maskShapes s)
    (hmatch : e.keyAnchoredPattern t ≠ none) :
    ∃ r, Visited shapeRule s r ∧ t = maskShapes r ∧ e.keyAnchoredPattern r ≠ none := by
  induction s using replace_induction shapeRule_consumes generalizing t with
  | nil hnone =>
    rw [List.suffix_nil.mp ht] at hmatch ⊢
    exact ⟨[], Visited.here [], rfl, hmatch⟩
  | kept c s hnone ih =>
    have hmasked := masked_maskShapes (fun w => covers_of_shape he) (c :: s)
    have hself : maskShapes (c :: s) = c :: maskShapes s := replaceAll_cons_of_none hnone
    rw [hself] at ht hmasked
    rcases suffix_cons_cases ht with rfl | ht
    · exact ⟨c :: s, Visited.here _, hself.symm, keyAnchored_of_masked he hmasked hmatch⟩
    · obtain ⟨r, hv, heq, hr⟩ := ih t ht hmatch
      exact ⟨r, Visited.kept hnone hv, heq, hr⟩
  | replaced s out rest hsome ih =>
    unfold maskShapes at ht
    rw [replaceAll_of_some shapeRule_consumes hsome, (shapeRule_eq_some hsome).1] at ht
    rcases suffix_append_cases ht with ht | ⟨u, hu, hplace, rfl⟩
    · obtain ⟨r, hv, heq, hr⟩ := ih t ht hmatch
      exact ⟨r, Visited.replaced hsome hv, heq, hr⟩
    · exact absurd (key_placeholder he hu hplace _) hmatch

/-- The second replacement goes past a field that it looks at. -/
theorem maskShapes_field {k p : List Sym} (hk : e.key.Lang k) (hp : e.sep.Lang p) (x : List Sym) :
    maskShapes (k ++ (p ++ (redactedPlaceholder ++ x))) =
      k ++ (p ++ (redactedPlaceholder ++ maskShapes x)) := by
  have happ : ∀ y, k ++ (p ++ (redactedPlaceholder ++ y)) =
      k ++ (p ++ redactedPlaceholder) ++ y := by simp
  unfold maskShapes
  rw [happ, happ, replaceAll_append_of_none]
  intro u hu hsuffix
  exact shapeRule_eq_none.mpr (inner_shape he hk hp hu hsuffix)

omit he in
/-- The value of an unquoted field ends where the text does or at a symbol of no unquoted value. -/
def bounded (e : Engine) : List Sym → Bool
  | [] => true
  | x :: _ => !on e.plain x

omit he in
theorem takeWhile_eq_nil_iff {s : List Sym} : s.takeWhile (on e.plain) = [] ↔ e.bounded s := by
  cases s with
  | nil => exact iff_of_true rfl rfl
  | cons x s => cases hx : on e.plain x <;> simp [bounded, hx]

omit he in
theorem bounded_maskValues (s : List Sym) : e.bounded (e.maskValues s) = e.bounded s := by
  cases hs : e.keyAnchoredPattern s with
  | none =>
    cases s with
    | nil => rfl
    | cons c s => rw [maskValues_of_none hs]; rfl
  | some g =>
    obtain ⟨happ, hk, hp, -⟩ := keyAnchored_spec hs
    rw [maskValues_of_some hs, happ]
    obtain ⟨x, p, hx⟩ := List.exists_cons_of_ne_nil (view_sep hp).1
    cases hkey : g.key with
    | nil => rw [hx]; rfl
    | cons y k => rfl

theorem bounded_maskShapes (s : List Sym) : e.bounded (maskShapes s) = e.bounded s := by
  cases hs : shapeRule s with
  | none =>
    cases s with
    | nil => rfl
    | cons c s =>
      unfold maskShapes
      rw [replaceAll_cons_of_none hs]
      rfl
  | some o =>
    obtain ⟨out, rest⟩ := o
    have hmask : maskShapes s = out ++ maskShapes rest := replaceAll_of_some shapeRule_consumes hs
    obtain ⟨rfl, w, rfl, hw⟩ := shapeRule_eq_some hs
    obtain ⟨u, v, rfl, hne, hvisible, -⟩ := fronted_of_shape hw
    obtain ⟨x, u, rfl⟩ := List.exists_cons_of_ne_nil hne
    have hx : on e.plain x :=
      plain_of_visible he (by simpa [visible] using hvisible x List.mem_cons_self)
    have hbracket := plain_placeholder he (Sym.char '[') (by decide)
    rw [hmask, redactedPlaceholder_eq]
    simp [bounded, hx, hbracket]

/-! ### Redaction -/

omit he in
theorem replaceAll_of_not_matchString {m : Rule Sym} (hm : m.Consumes) {s : List Sym}
    (h : matchString m s = false) : replaceAll m s = s := by
  refine replaceAll_eq_self hm fun t out rest hv hsome => ?_
  unfold matchString at h
  rw [List.any_eq_false] at h
  have hnone := h t ((List.mem_tails _ _).mpr (hv.suffix hm))
  rw [hsome] at hnone
  exact absurd rfl hnone

omit he in
/-- The guards change nothing. -/
theorem redact_eq (s : List Sym) : e.redact s = maskShapes (e.maskValues s) := by
  have hguard : ∀ m : Rule Sym, m.Consumes → ∀ s,
      (if matchString m s then replaceAll m s else s) = replaceAll m s := by
    intro m hm s
    split_ifs with hmatch
    · rfl
    · exact (replaceAll_of_not_matchString hm (by simpa using hmatch)).symm
  unfold redact
  rw [hguard _ e.keyRule_consumes, hguard _ shapeRule_consumes]
  rfl

omit he in
theorem redactString_eq (s : List Sym) : e.redactString s = maskShapes (e.maskValues s) := rfl

omit he in
/-- Each value is followed by the end, or by a space, a comma, a semicolon, an ampersand, a closing brace
or a quote, unless a shape of the text between the values swallows its key. -/
def NoExposedTail (e : Engine) (s : List Sym) : Prop :=
  ∀ t g, Visited e.keyRule s t → e.keyAnchoredPattern t = some g →
    e.bounded g.rest ∨ ¬Visited shapeRule (e.maskValues s)
      (g.key ++ (g.sep ++ (redactedPlaceholder ++ e.maskValues g.rest)))

/-- What the second run captures at a field that is left. -/
theorem keyAnchored_left {k p x : List Sym} (hk : e.key.Lang k) (hp : e.sep.Lang p) :
    e.keyAnchoredPattern (maskShapes (k ++ (p ++ (redactedPlaceholder ++ e.maskValues x)))) =
      some ⟨k, p, redactedPlaceholder ++ (maskShapes (e.maskValues x)).takeWhile (on e.plain),
        (maskShapes (e.maskValues x)).dropWhile (on e.plain)⟩ := by
  rw [maskShapes_field he hk hp, keyAnchored_placeholder he hk hp]

theorem value_left_iff (x : List Sym) :
    redactedPlaceholder ++ (maskShapes (e.maskValues x)).takeWhile (on e.plain) =
      redactedPlaceholder ↔ e.bounded x := by
  rw [List.append_right_eq_self, takeWhile_eq_nil_iff, bounded_maskShapes he, bounded_maskValues]

/-- Every key that is left has the placeholder for its value, given that no tail is exposed. -/
theorem value_of_noExposedTail {s t : List Sym} {g : Groups Sym} (h : e.NoExposedTail s)
    (ht : t <:+ maskShapes (e.maskValues s)) (hg : e.keyAnchoredPattern t = some g) :
    g.val = redactedPlaceholder := by
  have hmatch : e.keyAnchoredPattern t ≠ none := by simp [hg]
  obtain ⟨r, hv, rfl, hr⟩ := visited_of_key he _ t ht hmatch
  obtain ⟨r', g', hv', hg', hcases⟩ := field_of_key he s r (hv.suffix shapeRule_consumes) hr
  obtain ⟨-, hk, hp, -⟩ := keyAnchored_spec hg'
  rcases hcases with rfl | ⟨q, k, hkey, hq, hk', hsuffix, rfl⟩
  · rw [keyAnchored_left he hk hp] at hg
    rw [← Option.some.inj hg]
    exact (value_left_iff he g'.rest).mpr
      ((h r' g' hv' hg').resolve_right (not_not_intro hv))
  · rw [keyAnchored_left he hk' hp] at hg
    rw [← Option.some.inj hg]
    have hwhole : Visited shapeRule (e.maskValues s)
        (g'.key ++ (g'.sep ++ (redactedPlaceholder ++ e.maskValues g'.rest))) := by
      rw [hkey]
      refine hv.before shapeRule_consumes hsuffix fun x out rest u hx heq => ?_
      obtain ⟨-, w, rfl, hw⟩ := shapeRule_eq_some hx
      refine not_quote_end (u := u) hw hq ?_
      exact List.append_cancel_right (heq.trans (by simp))
    exact (value_left_iff he g'.rest).mpr
      ((h r' g' hv' hg').resolve_right (not_not_intro hwhole))

/-- A field whose tail is exposed is found again by the second run, with its tail. -/
theorem exposed_tail_found {s t : List Sym} {g : Groups Sym}
    (hg : e.keyAnchoredPattern t = some g) (htail : e.bounded g.rest = false)
    (hv : Visited shapeRule (e.maskValues s)
      (g.key ++ (g.sep ++ (redactedPlaceholder ++ e.maskValues g.rest)))) :
    ∃ t' g', t' <:+ maskShapes (e.maskValues s) ∧ e.keyAnchoredPattern t' = some g' ∧
      g'.val ≠ redactedPlaceholder := by
  obtain ⟨-, hk, hp, -⟩ := keyAnchored_spec hg
  refine ⟨_, _, hv.replaceAll_suffix shapeRule_consumes, keyAnchored_left he hk hp (x := g.rest),
    fun hval => ?_⟩
  have hbounded := (value_left_iff he g.rest).mp hval
  rw [htail] at hbounded
  exact Bool.false_ne_true hbounded

omit he in
theorem maskValues_eq_self {s : List Sym}
    (h : ∀ t g, Visited e.keyRule s t → e.keyAnchoredPattern t = some g →
      g.val = redactedPlaceholder) : e.maskValues s = s := by
  refine replaceAll_eq_self e.keyRule_consumes fun t out rest hv hsome => ?_
  obtain ⟨g, hg, rfl, rfl⟩ := keyRule_eq_some hsome
  rw [(keyAnchored_spec hg).1, h t g hv hg]
  simp

/-- If the scan finds only placeholders for values, then so does a search that begins anywhere. -/
theorem value_of_visited {s t : List Sym} {g : Groups Sym}
    (h : ∀ t g, Visited e.keyRule s t → e.keyAnchoredPattern t = some g →
      g.val = redactedPlaceholder) (ht : t <:+ s) (hg : e.keyAnchoredPattern t = some g) :
    g.val = redactedPlaceholder := by
  have hself := maskValues_eq_self h
  obtain ⟨r, g', hv, hg', hcases⟩ := field_of_key he s t (hself.symm ▸ ht) (by simp [hg])
  obtain ⟨hr, hk, hp, -⟩ := keyAnchored_spec hg'
  have hval := h r g' hv hg'
  have hbounded : (e.maskValues g'.rest).takeWhile (on e.plain) = [] := by
    rw [hval] at hr
    rw [hr, keyAnchored_placeholder he hk hp] at hg'
    have hrun := congrArg Groups.val (Option.some.inj hg')
    rw [hval, List.append_right_eq_self] at hrun
    rw [takeWhile_eq_nil_iff, bounded_maskValues, ← takeWhile_eq_nil_iff]
    exact hrun
  rcases hcases with rfl | ⟨q, k, -, -, hk', -, rfl⟩
  · rw [keyAnchored_placeholder he hk hp, hbounded] at hg
    rw [← Option.some.inj hg]
    exact List.append_nil _
  · rw [keyAnchored_placeholder he hk' hp, hbounded] at hg
    rw [← Option.some.inj hg]
    exact List.append_nil _

theorem redact_complete_iff (s : List Sym) :
    (e.redact (e.redact s) = e.redact s ∧
        (∀ t, t <:+ e.redact s → shapePattern.first t = none) ∧
        ∀ t g, Visited e.keyRule (e.redact s) t → e.keyAnchoredPattern t = some g →
          g.val = redactedPlaceholder) ↔
      e.NoExposedTail s := by
  have hshape := no_shape_left he (e.maskValues s)
  rw [redact_eq s]
  constructor
  · rintro ⟨-, -, hvalues⟩ t g hv hg
    by_contra hexposed
    rw [not_or, not_not] at hexposed
    obtain ⟨t', g', ht', hg', hne⟩ :=
      exposed_tail_found he hg (by simpa using hexposed.1) hexposed.2
    exact hne (value_of_visited he hvalues ht' hg')
  · intro h
    have hvalues : ∀ t g, Visited e.keyRule (maskShapes (e.maskValues s)) t →
        e.keyAnchoredPattern t = some g → g.val = redactedPlaceholder := fun t g hv hg =>
      value_of_noExposedTail he h (hv.suffix e.keyRule_consumes) hg
    refine ⟨?_, hshape, hvalues⟩
    rw [redact_eq, maskValues_eq_self hvalues]
    refine replaceAll_eq_self shapeRule_consumes fun t out rest hv hsome => ?_
    have hnone := shapeRule_eq_none.mpr (hshape t (hv.suffix shapeRule_consumes))
    rw [hsome] at hnone
    exact absurd hnone (Option.some_ne_none _)

end Engine

/-- The trace redactor is complete and idempotent if and only if no tail is exposed. -/
theorem redact_complete_idempotent_iff (s : List Sym) :
    (go.redact (go.redact s) = go.redact s ∧
        (∀ t, t <:+ go.redact s → shapePattern.first t = none) ∧
        ∀ t g, Visited go.keyRule (go.redact s) t → go.keyAnchoredPattern t = some g →
          g.val = redactedPlaceholder) ↔
      go.NoExposedTail s :=
  Engine.redact_complete_iff go_lawful s

/-- A symbol after the closing quote stays, and disappears in the second run. -/
theorem redact_twice_quoted :
    go.redact (ofString "access_token='a'b") = ofString "access_token=[REDACTED]b" ∧
      go.redact (go.redact (ofString "access_token='a'b")) = ofString "access_token=[REDACTED]" ∧
      go.redact (go.redact (ofString "access_token='a'b")) ≠ go.redact (ofString "access_token='a'b") := by
  decide +kernel

end Ark.Redact
