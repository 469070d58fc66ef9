import Ark.CredentialPatterns

/-!
# Keys and shapes at a glance

For the question where a key or a shape can begin, a symbol is its letter in lower case, and quotes,
spaces and separators are all the same. In this view neither a key nor a shape begins inside a key, a
separator or the placeholder.
-/

namespace Ark.Redact

open OrderedRegex OrderedRegex.Re

theorem forall_of_all {α : Type*} {l : List α} {p : α → Prop} [DecidablePred p]
    (h : l.all fun x => p x) : ∀ x ∈ l, p x :=
  fun x hx => of_decide_eq_true (List.all_eq_true.mp h x hx)

def keyNames : List String :=
  ["access_token", "refresh_token", "client_secret", "code_verifier", "authorization"]

def letters : List Char := "abcdefghijklmnopqrstuvwxyz_".toList

def canon (c : Char) : Char :=
  if c.isUpper then c.toLower
  else if c = 'ſ' then 's'
  else if c = '\u212A' then 'k'
  else if c = '\u0130' ∨ c = '\u0131' then 'i'
  else c

/-- What both engines have in common. -/
structure Engine.Lawful (e : Engine) : Prop where
  keys : ∀ k ∈ e.keys, k ∈ keyNames
  folds : ∀ l ∈ letters, ∀ c, e.folds l c → canon c = l
  space : ∀ c, e.space c → canon c = c ∧ c.isAlphanum = false ∧ c ∉ "'\"=:[]-_.,;&\x7d".toList

theorem canon_of_goFolds {l c : Char} (hl : l ∈ letters) (h : goFolds l c) : canon c = l := by
  have hself : ∀ l ∈ letters, canon l = l := forall_of_all (by decide)
  have hupper : ∀ l ∈ letters, canon l.toUpper = l := forall_of_all (by decide)
  unfold goFolds at h
  simp only [Bool.or_eq_true, Bool.and_eq_true, beq_iff_eq] at h
  rcases h with ((rfl | rfl) | ⟨rfl, rfl⟩) | ⟨rfl, rfl⟩
  · exact hself _ hl
  · exact hupper _ hl
  · decide
  · decide

theorem go_lawful : go.Lawful where
  keys := by decide
  folds l hl c h := canon_of_goFolds hl h
  space c h := by
    simp only [go, Bool.or_eq_true, beq_iff_eq] at h
    rcases h with (((rfl | rfl) | rfl) | rfl) | rfl <;> decide

def unicodeSpaces : List ℕ :=
  [0x09, 0x0A, 0x0B, 0x0C, 0x0D, 0x1C, 0x1D, 0x1E, 0x1F, 0x20, 0x85, 0xA0, 0x1680, 0x2000, 0x2001,
    0x2002, 0x2003, 0x2004, 0x2005, 0x2006, 0x2007, 0x2008, 0x2009, 0x200A, 0x2028, 0x2029, 0x202F,
    0x205F, 0x3000]

theorem mem_unicodeSpaces {c : Char} (h : python.space c) : c.toNat ∈ unicodeSpaces := by
  simp only [python, Bool.or_eq_true, Bool.and_eq_true, decide_eq_true_eq, beq_iff_eq] at h
  simp only [unicodeSpaces, List.mem_cons, List.not_mem_nil, or_false]
  omega

theorem python_lawful : python.Lawful where
  keys := by decide
  folds l hl c h := by
    simp only [python, Bool.or_eq_true, Bool.and_eq_true, beq_iff_eq] at h
    rcases h with h | ⟨rfl, rfl | rfl⟩
    · exact canon_of_goFolds hl h
    · decide
    · decide
  space c h := by
    have hall : ∀ n ∈ unicodeSpaces, canon (Char.ofNat n) = Char.ofNat n ∧
        (Char.ofNat n).isAlphanum = false ∧
        Char.ofNat n ∉ "'\"=:[]-_.,;&\x7d".toList := by decide
    rw [← Char.ofNat_toNat c]
    exact hall _ (mem_unicodeSpaces h)

/-! ### The view -/

namespace Engine

variable {e : Engine}

def view (e : Engine) (x : Sym) : Char :=
  if e.space x.rune || isQuote x.rune || isSeparator x.rune then '=' else canon x.rune

theorem view_of_space {x : Sym} (h : on e.space x) : e.view x = '=' := by
  unfold on at h
  simp [view, h]

theorem view_of_quote {x : Sym} (h : on isQuote x) : e.view x = '=' := by
  unfold on at h
  simp [view, h]

theorem view_of_separator {x : Sym} (h : on isSeparator x) : e.view x = '=' := by
  unfold on at h
  simp [view, h]

/-- Of a symbol of no such class the view is the letter. -/
theorem view_of_not_space (he : e.Lawful) {x : Sym}
    (h : canon x.rune ≠ x.rune ∨ x.rune.isAlphanum ∨ x.rune ∈ "[]-_.".toList)
    (hq : isQuote x.rune = false) (hs : isSeparator x.rune = false) : e.view x = canon x.rune := by
  have hspace : e.space x.rune = false := by
    by_contra hspace
    obtain ⟨hcanon, halnum, hmem⟩ := he.space x.rune (by simpa using hspace)
    rcases h with h | h | h
    · exact h hcanon
    · rw [halnum] at h
      exact Bool.false_ne_true h
    · have hsub : ∀ c ∈ "[]-_.".toList, c ∈ "'\"=:[]-_.,;&\x7d".toList :=
        forall_of_all (by decide)
      exact hmem (hsub _ h)
  simp [view, hspace, hq, hs]

theorem view_of_folds (he : e.Lawful) {l : Char} (hl : l ∈ letters) {x : Sym}
    (h : on (e.folds l) x) : e.view x = l := by
  have hcanon := he.folds l hl x.rune h
  have hplain : ∀ l ∈ letters, (l.isAlphanum ∨ l ∈ "[]-_.".toList) ∧ l ≠ '\'' ∧ l ≠ '"' ∧ l ≠ '=' ∧
      l ≠ ':' := forall_of_all (by decide)
  obtain ⟨hvisible, hq₁, hq₂, hs₁, hs₂⟩ := hplain l hl
  have hne : ∀ c, canon c = c → l ≠ c → x.rune ≠ c := by
    rintro c hc hlc hx
    rw [hx, hc] at hcanon
    exact hlc hcanon.symm
  rw [view_of_not_space he, hcanon]
  · by_cases hself : canon x.rune = x.rune
    · rw [← hself, hcanon]
      exact Or.inr hvisible
    · exact Or.inl hself
  · simp [isQuote, hne _ (by decide) hq₁, hne _ (by decide) hq₂]
  · simp [isSeparator, hne _ (by decide) hs₁, hne _ (by decide) hs₂]

theorem view_foldText (he : e.Lawful) {k : String} (hk : ∀ l ∈ k.toList, l ∈ letters) {n : List Sym}
    (h : (e.foldText k).Lang n) : n.map e.view = k.toList := by
  unfold foldText at h
  rw [lang_word, List.forall₂_map_left_iff] at h
  generalize k.toList = ls at h hk
  induction h with
  | nil => rfl
  | @cons l x ls n hx hn ih =>
    obtain ⟨hl, hls⟩ := List.forall_mem_cons.mp hk
    rw [List.map_cons, view_of_folds he hl hx, ih hls]

theorem letters_of_keyNames : ∀ k ∈ keyNames, ∀ l ∈ k.toList, l ∈ letters := by
  have hall : ∀ k ∈ keyNames, k.toList.all fun l => l ∈ letters := by decide
  exact fun k hk => forall_of_all (hall k hk)

theorem lang_names {n : List Sym} : e.names.Lang n ↔ ∃ k ∈ e.keys, (e.foldText k).Lang n := by
  unfold names
  cases e.keys with
  | nil =>
    refine iff_of_false ?_ (by simp)
    rintro ⟨c, -, hc⟩
    exact Bool.false_ne_true hc
  | cons k ks =>
    rw [lang_alts]
    simp only [List.mem_map, List.mem_cons, exists_eq_or_imp, exists_exists_and_eq_and]

theorem view_names (he : e.Lawful) {n : List Sym} (h : e.names.Lang n) :
    ∃ k ∈ keyNames, n.map e.view = k.toList := by
  obtain ⟨k, hk, hn⟩ := lang_names.mp h
  exact ⟨k, he.keys k hk, view_foldText he (letters_of_keyNames k (he.keys k hk)) hn⟩

/-- The parts of a key: a name, perhaps with a quote before and after it. -/
theorem lang_key {k : List Sym} (h : e.key.Lang k) :
    ∃ q₁ n q₂, k = q₁ ++ (n ++ q₂) ∧ e.names.Lang n ∧ (opt (cls (on isQuote))).Lang q₁ ∧
      (opt (cls (on isQuote))).Lang q₂ := by
  obtain ⟨q₁, _, rfl, hq₁, n, q₂, rfl, hn, hq₂⟩ := h
  exact ⟨q₁, n, q₂, rfl, hn, hq₁, hq₂⟩

theorem view_optQuote {q : List Sym} (h : (opt (cls (on isQuote))).Lang q) :
    q = [] ∨ ∃ x, q = [x] ∧ on isQuote x := by
  rcases lang_opt.mp h with rfl | ⟨x, rfl, hx⟩
  · exact Or.inl rfl
  · exact Or.inr ⟨x, rfl, hx⟩

/-- Spaces around one separator. -/
theorem lang_sep {p : List Sym} (h : e.sep.Lang p) :
    ∃ u x v, p = u ++ x :: v ∧ (∀ y ∈ u, on e.space y) ∧ on isSeparator x ∧ ∀ y ∈ v, on e.space y := by
  obtain ⟨u, _, rfl, hu, _, v, rfl, ⟨x, rfl, hx⟩, hv⟩ := h
  exact ⟨u, x, v, rfl, hu, hx, hv⟩

theorem view_sep {p : List Sym} (h : e.sep.Lang p) : p ≠ [] ∧ ∀ y ∈ p, e.view y = '=' := by
  obtain ⟨u, x, v, rfl, hu, hx, hv⟩ := lang_sep h
  refine ⟨by simp, fun y hy => ?_⟩
  rcases List.mem_append.mp hy with hy | hy
  · exact view_of_space (hu y hy)
  · rcases List.mem_cons.mp hy with rfl | hy
    · exact view_of_separator hx
    · exact view_of_space (hv y hy)

end Engine

end Ark.Redact
