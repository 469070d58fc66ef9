import Ark.Redaction

/-!
# The two redactors

The trace redactor and the logging filter differ in what a space is and in which symbols an `i` stands
for. They make the same text of every string at whose positions the two patterns capture the same. A
text without the Unicode spaces and the two letters that only one of the engines knows is such a string.
-/

namespace Ark.Redact

open OrderedRegex OrderedRegex.Re

/-- At each position that the first scan looks at, the two patterns replace the same value or none. -/
def AgreeWhereRead (s : List Sym) : Prop :=
  ∀ t, Visited go.keyRule s t → go.keyRule t = python.keyRule t

/-! ### Texts without the letters and spaces of one engine -/

def onlyPython : List ℕ :=
  [0x0B, 0x1C, 0x1D, 0x1E, 0x1F, 0x85, 0xA0, 0x1680, 0x2000, 0x2001, 0x2002, 0x2003, 0x2004, 0x2005,
    0x2006, 0x2007, 0x2008, 0x2009, 0x200A, 0x2028, 0x2029, 0x202F, 0x205F, 0x3000, 0x130, 0x131]

def Common (x : Sym) : Prop := x.rune.toNat ∉ onlyPython

instance : DecidablePred Common := fun _ => inferInstanceAs (Decidable (_ ∉ _))

theorem space_of_common {x : Sym} (h : Common x) : on go.space x = on python.space x := by
  unfold Common onlyPython at h
  simp only [List.mem_cons, List.not_mem_nil, or_false, not_or] at h
  have hgo : ∀ c : Char, go.space c ↔ c.toNat = 0x09 ∨ c.toNat = 0x0A ∨ c.toNat = 0x0C ∨
      c.toNat = 0x0D ∨ c.toNat = 0x20 := by
    intro c
    have hnat : ∀ d : Char, c = d ↔ c.toNat = d.toNat := fun d => Char.toNat_inj.symm
    simp only [go, Bool.or_eq_true, beq_iff_eq, hnat, or_assoc]
    rfl
  rw [Bool.eq_iff_iff]
  unfold on
  rw [hgo]
  simp only [python, Bool.or_eq_true, Bool.and_eq_true, decide_eq_true_eq, beq_iff_eq]
  omega

theorem folds_of_common {x : Sym} (h : Common x) (l : Char) :
    on (go.folds l) x = on (python.folds l) x := by
  have hdotted : x.rune ≠ '\u0130' := fun hx => absurd (hx ▸ h : '\u0130'.toNat ∉ onlyPython) (by decide)
  have hdotless : x.rune ≠ '\u0131' := fun hx => absurd (hx ▸ h : '\u0131'.toNat ∉ onlyPython) (by decide)
  simp [on, go, python, hdotted, hdotless]

theorem agree_foldText (k : String) : Agree Common (go.foldText k) (python.foldText k) :=
  agree_word fun l _ _ hc => folds_of_common hc l

theorem agree_sep : Agree Common go.sep python.sep :=
  Agree.seq (Agree.star fun _ => space_of_common)
    (Agree.seq (agree_refl _ _) (Agree.star fun _ => space_of_common))

theorem agree_plus {p p' : Sym → Bool} (h : ∀ c, Common c → p c = p' c) :
    Agree Common (plus p) (plus p') :=
  Agree.seq (Agree.cls h) (Agree.star h)

theorem agree_val : Agree Common go.val python.val := by
  have hscheme : ∀ x, Common x → on go.schemeChar x = on python.schemeChar x := by
    intro x hx
    have hspace := space_of_common hx
    unfold on at *
    simp only [Engine.schemeChar, hspace]
  have hplain : ∀ x, Common x → on go.plain x = on python.plain x := by
    intro x hx
    have hspace := space_of_common hx
    unfold on at *
    simp only [Engine.plain, hspace]
  exact Agree.alt (agree_refl _ _) (Agree.alt (agree_refl _ _) (Agree.alt
    (Agree.seq (Agree.alt (agree_foldText _) (agree_foldText _))
      (Agree.seq (agree_plus fun _ => space_of_common) (agree_plus hscheme)))
    (agree_plus hplain)))

/-- The keys are tried in another order, and the words are the same. -/
theorem lang_names_common {n : List Sym} (hn : ∀ x ∈ n, Common x) :
    go.names.Lang n ↔ python.names.Lang n := by
  have hkeys : go.keys.Perm python.keys := by decide
  rw [Engine.lang_names, Engine.lang_names]
  exact exists_congr fun k => and_congr hkeys.mem_iff ((agree_foldText k).lang hn)

theorem lang_key_common {k : List Sym} (hk : ∀ x ∈ k, Common x) :
    go.key.Lang k ↔ python.key.Lang k := by
  constructor
  · rintro ⟨q₁, _, rfl, hq₁, n, q₂, rfl, hn, hq₂⟩
    exact ⟨q₁, _, rfl, hq₁, n, q₂, rfl, (lang_names_common fun x hx => hk x (by simp [hx])).mp hn, hq₂⟩
  · rintro ⟨q₁, _, rfl, hq₁, n, q₂, rfl, hn, hq₂⟩
    exact ⟨q₁, _, rfl, hq₁, n, q₂, rfl, (lang_names_common fun x hx => hk x (by simp [hx])).mpr hn, hq₂⟩

namespace Engine

/-- A separator ends where a value begins, so that the parts of a match are determined. -/
theorem keyAnchored_of_parts {e : Engine} (he : e.Lawful) {k p z v r : List Sym} (hk : e.key.Lang k)
    (hp : e.sep.Lang p) (hz : e.HasVal z) (hv : e.val.first z = some (v, r)) :
    e.keyAnchoredPattern (k ++ (p ++ z)) = some ⟨k, p, v, r⟩ := by
  refine groups_of_first (first_key he hk hp z) (first_sep he hp ?_) hv
  rintro x z' rfl hspace
  obtain ⟨y, t, happ, hy⟩ := hz
  obtain ⟨rfl, rfl⟩ := List.cons.inj happ
  rcases hy with hplain | ⟨hquote, -⟩
  · unfold on plain at hplain
    unfold on at hspace
    rw [hspace] at hplain
    simp at hplain
  · exact not_quote_of_space he hspace hquote

end Engine

theorem keyAnchored_common {s : List Sym} (hs : ∀ x ∈ s, Common x) :
    go.keyAnchoredPattern s = python.keyAnchoredPattern s := by
  by_cases hmatch : go.keyAnchoredPattern s = none
  · rw [hmatch]
    by_contra hne
    obtain ⟨k, p, t, rfl, hk, hp, ht⟩ :=
      (Engine.keyAnchored_ne_none_iff python_lawful).mp (Ne.symm hne)
    obtain ⟨v, r, rfl, hv⟩ := (Engine.hasVal_iff python_lawful).mp ht
    refine (Engine.keyAnchored_ne_none_iff go_lawful).mpr ⟨k, p, v ++ r, rfl, ?_, ?_,
      (Engine.hasVal_iff go_lawful).mpr ⟨v, r, rfl, ?_⟩⟩ hmatch
    · exact (lang_key_common fun x hx => hs x (by simp [hx])).mpr hk
    · exact (agree_sep.lang fun x hx => hs x (by simp [hx])).mpr hp
    · exact (agree_val.lang fun x hx => hs x (by simp [hx])).mpr hv
  · obtain ⟨k, p, t, rfl, hk, hp, ht⟩ := (Engine.keyAnchored_ne_none_iff go_lawful).mp hmatch
    obtain ⟨v, r, rfl, hv⟩ := (Engine.hasVal_iff go_lawful).mp ht
    have hfirst := agree_val.first (s := v ++ r) fun x hx => hs x (by simp_all)
    have hv' : python.val.Lang v := (agree_val.lang fun x hx => hs x (by simp [hx])).mp hv
    obtain ⟨⟨v', r'⟩, hgo⟩ := Option.ne_none_iff_exists'.mp
      (first_ne_none_iff.mpr ⟨v, r, rfl, hv⟩)
    rw [Engine.keyAnchored_of_parts go_lawful hk hp ht hgo,
      Engine.keyAnchored_of_parts python_lawful
        ((lang_key_common fun x hx => hs x (by simp [hx])).mp hk)
        ((agree_sep.lang fun x hx => hs x (by simp [hx])).mp hp)
        ((Engine.hasVal_iff python_lawful).mpr ⟨v, r, rfl, hv'⟩) (hfirst ▸ hgo)]

theorem agreeWhereRead_of_common {s : List Sym} (hs : ∀ x ∈ s, Common x) : AgreeWhereRead s := by
  intro t hv
  have ht := hv.suffix go.keyRule_consumes
  unfold Engine.keyRule
  rw [keyAnchored_common fun x hx => hs x (ht.mem hx)]

end Ark.Redact
