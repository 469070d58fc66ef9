import Ark.ShapeMatches

/-!
# Inside a replaced field

A key, a separator and the placeholder, as the first replacement leaves them. No shape begins inside, and
no other key than this one, with or without its opening quote.
-/

namespace Ark.Redact

open OrderedRegex OrderedRegex.Re

namespace Engine

variable {e : Engine} (he : e.Lawful)

include he

theorem covers_of_shape {w : List Sym} (h : shapePattern.Lang w) : e.Covers w := by
  obtain ⟨u, v, rfl, hne, hvisible, -⟩ := fronted_of_shape h
  obtain ⟨x, u, rfl⟩ := List.exists_cons_of_ne_nil hne
  refine covers_of_plain (plain_of_visible he ?_) _
  simpa [visible] using hvisible x List.mem_cons_self

theorem startsShape_of_shape {w : List Sym} (h : shapePattern.Lang w) :
    startsShape (w.map e.view) := by
  obtain ⟨u, v, rfl, -, hvisible, hstarts⟩ := fronted_of_shape h
  rw [List.map_append, view_of_visibles he hvisible]
  exact startsShape_append hstarts _

theorem first_shape_eq_none {s : List Sym} (h : startsShape (s.map e.view) = false) :
    shapePattern.first s = none := by
  rw [first_eq_none_iff]
  rintro w t rfl hw
  have hstarts := startsShape_append (startsShape_of_shape he hw) (t.map e.view)
  rw [← List.map_append, h] at hstarts
  exact Bool.false_ne_true hstarts

/-- A key begins with a name, or with a quote and a name. -/
theorem startsName_of_key {s : List Sym} (h : e.keyAnchoredPattern s ≠ none) :
    startsName (s.map e.view) ∨ ∃ z, s.map e.view = '=' :: z ∧ startsName z := by
  obtain ⟨k, p, t, rfl, hk, hp, -⟩ := (keyAnchored_ne_none_iff he).mp h
  obtain ⟨q₁, n, q₂, rfl, hn, hq₁, -⟩ := lang_key hk
  obtain ⟨name, hname, hview⟩ := view_names he hn
  have hstarts : ∀ z, startsName (n.map e.view ++ z) := by
    intro z
    unfold startsName
    rw [List.any_eq_true]
    exact ⟨name.toList, List.mem_map_of_mem hname,
      List.isPrefixOf_iff_prefix.mpr (hview ▸ List.prefix_append _ _)⟩
  rcases view_optQuote hq₁ with rfl | ⟨x, rfl, hx⟩
  · left
    simp only [List.nil_append, List.append_assoc, List.map_append]
    exact hstarts _
  · right
    refine ⟨n.map e.view ++ (q₂ ++ (p ++ t)).map e.view, ?_, hstarts _⟩
    simp [view_of_quote hx]

/-! ### The suffixes of a field -/

/-- What the suffixes of a replaced field look like. -/
inductive Inner (e : Engine) (k p u : List Sym) : Prop
  | whole : u = k ++ (p ++ redactedPlaceholder) → Inner e k p u
  | unquoted (q k') : k = q :: k' → on isQuote q → e.key.Lang k' →
      u = k' ++ (p ++ redactedPlaceholder) → Inner e k p u
  | name (name : String) (x z : List Char) : name ∈ keyNames → x <:+ name.toList → x ≠ [] →
      x ≠ name.toList → u.map e.view = x ++ '=' :: z → Inner e k p u
  | separator (d : Char) (z : List Char) : d = '=' ∨ d = '[' → u.map e.view = '=' :: d :: z →
      Inner e k p u
  | placeholder : u <:+ redactedPlaceholder → Inner e k p u

theorem view_placeholder : redactedPlaceholder.map e.view = "[redacted]".toList := by
  have hvisible : ∀ x ∈ redactedPlaceholder, visible x.rune := by decide
  have hcanon : (redactedPlaceholder.map Sym.rune).map canon = "[redacted]".toList := by decide
  rw [view_of_visibles he hvisible, hcanon]

/-- The view of a part of the placeholder at its end, closed by the bracket. -/
theorem view_placeholder_suffix {u : List Sym} (hu : u ≠ []) (h : u <:+ redactedPlaceholder) :
    ∃ y, u.map e.view = y ++ [']'] ∧ startsName y = false ∧ startsShape y = false ∧
      y.head? ≠ some '=' := by
  have htails : ∀ z ∈ "[redacted]".toList.tails, z ≠ [] → z = z.dropLast ++ [']'] ∧
      startsName z.dropLast = false ∧ startsShape z.dropLast = false ∧
      z.dropLast.head? ≠ some '=' := by decide
  have hmem : u.map e.view ∈ "[redacted]".toList.tails := by
    rw [List.mem_tails, ← view_placeholder he]
    exact h.map e.view
  exact ⟨(u.map e.view).dropLast, htails _ hmem (by simpa using hu)⟩

theorem shape_placeholder {u : List Sym} (hu : u ≠ []) (h : u <:+ redactedPlaceholder) (x : List Sym) :
    shapePattern.first (u ++ x) = none := by
  obtain ⟨y, hview, -, hno, -⟩ := view_placeholder_suffix he hu h
  refine first_shape_eq_none he ?_
  rw [List.map_append, hview, List.append_assoc, List.singleton_append,
    startsShape_stop (by decide) (by decide), hno]

theorem key_placeholder {u : List Sym} (hu : u ≠ []) (h : u <:+ redactedPlaceholder) (x : List Sym) :
    e.keyAnchoredPattern (u ++ x) = none := by
  by_contra hmatch
  obtain ⟨y, hview, hno, -, hhead⟩ := view_placeholder_suffix he hu h
  have hstop : startsName (y ++ ']' :: x.map e.view) = startsName y :=
    startsName_stop (by decide) y _
  have hstarts := startsName_of_key he hmatch
  rw [List.map_append, hview, List.append_assoc, List.singleton_append] at hstarts
  rcases hstarts with hstarts | ⟨z', hz', -⟩
  · rw [hstop, hno] at hstarts
    exact absurd hstarts Bool.false_ne_true
  · cases y with
    | nil => exact absurd (List.cons.inj hz').1 (by decide)
    | cons c y => exact absurd (congrArg some (List.cons.inj hz').1) hhead

omit he in
theorem view_sep_placeholder {p : List Sym} (hp : e.sep.Lang p) :
    ∃ z, (p ++ redactedPlaceholder).map e.view = '=' :: z := by
  obtain ⟨hne, hall⟩ := view_sep hp
  obtain ⟨x, p, rfl⟩ := List.exists_cons_of_ne_nil hne
  exact ⟨(p ++ redactedPlaceholder).map e.view, by simp [hall x List.mem_cons_self]⟩

theorem inner_of_suffix_sep {k p u : List Sym} (hp : e.sep.Lang p) (hu : u ≠ [])
    (h : u <:+ p ++ redactedPlaceholder) : Inner e k p u := by
  rcases suffix_append_cases h with h | ⟨v, hne, hv, rfl⟩
  · exact Inner.placeholder h
  · obtain ⟨x, v, rfl⟩ := List.exists_cons_of_ne_nil hne
    have hall : ∀ y ∈ x :: v, e.view y = '=' := fun y hy => (view_sep hp).2 y (hv.mem hy)
    obtain ⟨hx, hall⟩ := List.forall_mem_cons.mp hall
    cases v with
    | nil =>
      refine Inner.separator '[' (placeholderTail.map e.view) (Or.inr rfl) ?_
      rw [redactedPlaceholder_eq]
      simp [hx, view_bracket he]
    | cons y v =>
      refine Inner.separator '=' ((v ++ redactedPlaceholder).map e.view) (Or.inl rfl) ?_
      simp [hx, hall y List.mem_cons_self]

theorem inner_of_suffix {k p u : List Sym} (hk : e.key.Lang k) (hp : e.sep.Lang p) (hu : u ≠ [])
    (h : u <:+ k ++ (p ++ redactedPlaceholder)) : Inner e k p u := by
  rcases suffix_append_cases h with h | ⟨v, hne, hv, rfl⟩
  · exact inner_of_suffix_sep he hp hu h
  obtain ⟨q₁, n, q₂, rfl, hn, hq₁, hq₂⟩ := lang_key hk
  obtain ⟨z, hz⟩ := view_sep_placeholder hp
  rcases suffix_append_cases hv with hv | ⟨v', hne', hv', rfl⟩
  · rcases suffix_append_cases hv with hv | ⟨v', hne', hv', rfl⟩
    · -- the closing quote
      rcases view_optQuote hq₂ with rfl | ⟨x, rfl, hx⟩
      · exact absurd (List.suffix_nil.mp hv) hne
      · have heq : v = [x] := by
          rcases suffix_cons_cases hv with heq | hv
          · exact heq
          · exact absurd (List.suffix_nil.mp hv) hne
        refine Inner.separator '=' z (Or.inl rfl) ?_
        rw [heq, List.map_append, hz]
        simp [view_of_quote hx]
    · by_cases hwhole : v' = n
      · subst hwhole
        rcases view_optQuote hq₁ with rfl | ⟨x, rfl, hx⟩
        · exact Inner.whole rfl
        · exact Inner.unquoted x (v' ++ q₂) rfl hx
            ⟨[], v' ++ q₂, rfl, lang_opt.mpr (Or.inl rfl), v', q₂, rfl, hn, hq₂⟩ rfl
      · obtain ⟨name, hname, hview⟩ := view_names he hn
        have hafter : ∃ z, (q₂ ++ (p ++ redactedPlaceholder)).map e.view = '=' :: z := by
          rcases view_optQuote hq₂ with rfl | ⟨x, rfl, hx⟩
          · exact ⟨z, hz⟩
          · exact ⟨_, by rw [List.singleton_append, List.map_cons, view_of_quote hx]⟩
        obtain ⟨z', hz'⟩ := hafter
        refine Inner.name name (v'.map e.view) z' hname (hview ▸ hv'.map e.view) (by simpa using hne')
          ?_ ?_
        · intro heq
          refine hwhole (hv'.eq_of_length ?_)
          rw [← List.length_map e.view, heq, ← hview, List.length_map]
        · rw [List.append_assoc, List.map_append, hz']
  · have heq : v' = q₁ := by
      rcases view_optQuote hq₁ with rfl | ⟨x, rfl, hx⟩
      · exact absurd (List.suffix_nil.mp hv') hne'
      · rcases suffix_cons_cases hv' with heq | hv'
        · exact heq
        · exact absurd (List.suffix_nil.mp hv') hne'
    rw [heq]
    exact Inner.whole rfl

/-- Inside a replaced field no key begins, apart from its own without the opening quote. -/
theorem inner_of_keyAnchored {k p u x : List Sym} (h : Inner e k p u) (hu : u ≠ [])
    (hmatch : e.keyAnchoredPattern (u ++ x) ≠ none) :
    u = k ++ (p ++ redactedPlaceholder) ∨ ∃ q k', k = q :: k' ∧ on isQuote q ∧ e.key.Lang k' ∧
      u = k' ++ (p ++ redactedPlaceholder) := by
  have hnames : ∀ k ∈ keyNames.map String.toList, '=' ∉ k := by decide
  have hstarts := startsName_of_key he hmatch
  rw [List.map_append] at hstarts
  cases h with
  | whole h => exact Or.inl h
  | unquoted q k' hk hq hk' h => exact Or.inr ⟨q, k', hk, hq, hk', h⟩
  | name name y z hname hy hne hproper hview =>
    -- a name that is the end of another one
    have hfalse : ∀ k ∈ keyNames, ∀ y ∈ k.toList.tails, y ≠ [] → y ≠ k.toList →
        startsName y = false ∧ y.head? ≠ some '=' := by decide
    obtain ⟨hno, hhead⟩ := hfalse name hname y ((List.mem_tails _ _).mpr hy) hne hproper
    have hstop := startsName_stop hnames y (z ++ x.map e.view)
    obtain ⟨c, y, rfl⟩ := List.exists_cons_of_ne_nil hne
    rw [hview, List.append_assoc, List.cons_append (a := '=')] at hstarts
    rcases hstarts with hstarts | ⟨z', hz', -⟩
    · rw [hstop, hno] at hstarts
      exact absurd hstarts Bool.false_ne_true
    · exact absurd (congrArg some (List.cons.inj hz').1) hhead
  | separator d z hd hview =>
    have hno : ∀ z, startsName ('=' :: z) = false := fun z =>
      startsName_stop hnames [] z
    have hbracket : ∀ z, startsName ('[' :: z) = false := fun z =>
      startsName_stop (by decide) [] z
    rw [hview, List.cons_append] at hstarts
    rcases hstarts with hstarts | ⟨z', hz', hstarts⟩
    · rw [hno] at hstarts
      exact absurd hstarts Bool.false_ne_true
    · rw [← (List.cons.inj hz').2, List.cons_append] at hstarts
      rcases hd with rfl | rfl
      · rw [hno] at hstarts
        exact absurd hstarts Bool.false_ne_true
      · rw [hbracket] at hstarts
        exact absurd hstarts Bool.false_ne_true
  | placeholder h => exact absurd (key_placeholder he hu h x) hmatch

/-- Inside a replaced field no shape begins. -/
theorem inner_shape {k p u x : List Sym} (hk : e.key.Lang k) (hp : e.sep.Lang p) (hu : u ≠ [])
    (h : u <:+ k ++ (p ++ redactedPlaceholder)) : shapePattern.first (u ++ x) = none := by
  have hstop : ∀ y z, startsShape (y ++ '=' :: z) = startsShape y :=
    startsShape_stop (by decide) (by decide)
  have hnames : ∀ k ∈ keyNames, ∀ y ∈ k.toList.tails, startsShape y = false := by decide
  have hfield : ∀ k', e.key.Lang k' →
      startsShape ((k' ++ (p ++ redactedPlaceholder) ++ x).map e.view) = false := by
    intro k' hk'
    obtain ⟨q₁, n, q₂, rfl, hn, hq₁, hq₂⟩ := lang_key hk'
    obtain ⟨name, hname, hview⟩ := view_names he hn
    have hself := hnames name hname name.toList ((List.mem_tails _ _).mpr List.suffix_rfl)
    rcases view_optQuote hq₁ with rfl | ⟨y, rfl, hy⟩
    · rcases view_optQuote hq₂ with rfl | ⟨y, rfl, hy⟩
      · obtain ⟨z, hz⟩ := view_sep_placeholder hp
        rw [List.nil_append, List.append_nil, List.map_append, List.map_append, hz, hview,
          List.append_assoc, List.cons_append, hstop, hself]
      · rw [List.nil_append, List.append_assoc, List.append_assoc, List.map_append, hview,
          List.singleton_append, List.map_cons, view_of_quote hy, hstop, hself]
    · rw [List.singleton_append, List.cons_append, List.cons_append, List.map_cons,
        view_of_quote hy]
      exact hstop [] _
  have hinner := inner_of_suffix he hk hp hu h
  by_cases hplace : u <:+ redactedPlaceholder
  · exact shape_placeholder he hu hplace x
  refine first_shape_eq_none he ?_
  cases hinner with
  | whole h => exact h ▸ hfield k hk
  | unquoted q k' _ _ hk' h => exact h ▸ hfield k' hk'
  | name name y z hname hy hne hproper hview =>
    rw [List.map_append, hview, List.append_assoc, List.cons_append (a := '='), hstop]
    exact hnames name hname y ((List.mem_tails _ _).mpr hy)
  | separator d z hd hview =>
    rw [List.map_append, hview, List.cons_append]
    exact hstop [] _
  | placeholder h => exact absurd h hplace

end Engine

end Ark.Redact
