import Ark.GoFloat
import Ark.GoUrl
import Mathlib.Algebra.Order.BigOperators.Group.List

/-!
# URL templates of HTTP tools

`substituteURLParameters` finds the placeholders of a template once, and then replaces them one after
another in the text that the earlier ones left. Every replacement hits its own placeholders and nothing
else, unless a placeholder is the end of another one that still stands there. The text of an argument
is escaped for a query wherever it goes, so its spaces come back as plus signs from a path, and a float
is printed with an exponent from one million on.
-/

namespace Ark

open GoBytes GoFloat GoUrl

/-- The value of an argument, as JSON is decoded to `any`. -/
inductive Argument
  | string (s : List Char)
  | number (f : Decimal)

namespace Argument

/-- `fmt.Sprintf("%v", value)`. -/
def sprint : Argument → List Char
  | .string s => s
  | .number f => f.fmtG

/-- What the argument says: an integer says its digits. -/
def text : Argument → List Char
  | .string s => s
  | .number f => if f.IsInteger then f.plain else f.fmtG

/-- `encodedValue`. -/
def encode (v : Argument) : List Char := queryEscape (utf8 v.sprint)

end Argument

namespace UrlTemplate

/-! ### Finding the placeholders -/

/-- A template is read as matches of `\{([^}]+)\}` and the characters around them. -/
inductive Part
  | char (c : Char)
  | placeholder (name : List Char)
  deriving DecidableEq, Repr

def placeholder (name : List Char) : List Char := '{' :: (name ++ ['}'])

/-- What a match at an opening brace would hold, `t` being behind the brace. -/
def paramName (t : List Char) : List Char := t.takeWhile (· ≠ '}')

/-- A match starts at `c`. -/
def Opens (c : Char) (t : List Char) : Prop := c = '{' ∧ paramName t ≠ [] ∧ '}' ∈ t

instance (c : Char) (t : List Char) : Decidable (Opens c t) := inferInstanceAs (Decidable (_ ∧ _))

/-- The parts of a text behind `skip` characters that belong to a match. -/
def scan : ℕ → List Char → List Part
  | _, [] => []
  | skip + 1, _ :: t => scan skip t
  | 0, c :: t =>
    if Opens c t then .placeholder (paramName t) :: scan ((paramName t).length + 1) t
    else .char c :: scan 0 t

def parts (t : List Char) : List Part := scan 0 t

def Part.name : Part → Option (List Char)
  | .char _ => none
  | .placeholder name => some name

/-- The names that `FindAllStringSubmatch` finds. -/
def findAllSubmatch (t : List Char) : List (List Char) := (parts t).filterMap Part.name

/-! ### Replacing them -/

/-- `strings.ReplaceAll` for an `old` that is not empty, behind `skip` characters of an occurrence. -/
def replaceAll (old new : List Char) : ℕ → List Char → List Char
  | _, [] => []
  | skip + 1, _ :: t => replaceAll old new skip t
  | 0, c :: t =>
    if old.isPrefixOf (c :: t) then new ++ replaceAll old new (old.length - 1) t
    else c :: replaceAll old new 0 t

abbrev Arguments := List (List Char × Argument)

/-- One turn of the loop. -/
def substitute (arguments : Arguments) (result name : List Char) : List Char :=
  match arguments.lookup name with
  | some value => replaceAll (placeholder name) value.encode 0 result
  | none => result

/-- The result after the turns for the matches `done`. A call without arguments has a nil map. -/
def resultAfter (arguments : Option Arguments) (urlTemplate : List Char) (done : List (List Char)) :
    List Char :=
  match arguments with
  | none => urlTemplate
  | some arguments => done.foldl (substitute arguments) urlTemplate

def substituteURLParameters (urlTemplate : List Char) (arguments : Option Arguments) : List Char :=
  resultAfter arguments urlTemplate (findAllSubmatch urlTemplate)

/-! ### What it is to do -/

def value (arguments : Option Arguments) (name : List Char) : Option Argument :=
  arguments.bind fun arguments => arguments.lookup name

def Part.text (f : List Char → Option (List Char)) : Part → List Char
  | .char c => [c]
  | .placeholder name => (f name).getD (UrlTemplate.placeholder name)

/-- The template with the placeholders that `f` knows replaced, and everything else as it is. -/
def assemble (f : List Char → Option (List Char)) (ps : List Part) : List Char :=
  ps.flatMap (Part.text f)

/-- The encodings of the arguments among `done`. -/
def encoded (arguments : Option Arguments) (done : List (List Char)) (name : List Char) :
    Option (List Char) :=
  if name ∈ done then (value arguments name).map Argument.encode else none

/-- The part of the URL that goes on behind `c`. -/
def after (mode : Encoding) (c : Char) : Encoding :=
  if c = '#' then .fragment else if c = '?' ∧ mode = .path then .queryComponent else mode

/-- The placeholders, each with the part of the URL that it stands in. The text of an argument holds no
separator; a placeholder without an argument stays and may hold one. -/
def occurrences (arguments : Option Arguments) : Encoding → List Part → List (Encoding × List Char)
  | _, [] => []
  | mode, .char c :: ps => occurrences arguments (after mode c) ps
  | mode, .placeholder name :: ps =>
    (mode, name) :: occurrences arguments
      (if (value arguments name).isSome then mode else name.foldl after mode) ps

/-- Every replacement replaces the occurrences of its placeholder in the template and nothing else, and
what it puts there is decoded to what the argument says. -/
structure Faithful (urlTemplate : List Char) (arguments : Option Arguments) : Prop where
  replaced : ∀ done rest, findAllSubmatch urlTemplate = done ++ rest →
    resultAfter arguments urlTemplate done = assemble (encoded arguments done) (parts urlTemplate)
  decoded : ∀ o ∈ occurrences arguments .path (parts urlTemplate), ∀ v, value arguments o.2 = some v →
    unescape o.1 v.encode = some (utf8 v.text)

/-- A placeholder with an argument is never the end of another one that still stands in the text when
it is replaced, which is one without an argument or one that comes only behind it; a text with a space
goes into the query; an integer has at most six digits. -/
structure Substitutable (urlTemplate : List Char) (arguments : Option Arguments) : Prop where
  ends : ∀ done name rest, findAllSubmatch urlTemplate = done ++ name :: rest →
    value arguments name ≠ none → ∀ other ∈ findAllSubmatch urlTemplate,
      value arguments other = none ∨ other ∉ done ∧ other ≠ name →
        ¬ placeholder name <:+ placeholder other
  spaces : ∀ o ∈ occurrences arguments .path (parts urlTemplate), ∀ s,
    value arguments o.2 = some (.string s) → o.1 = .queryComponent ∨ ' ' ∉ s
  integers : ∀ o ∈ occurrences arguments .path (parts urlTemplate), ∀ f,
    value arguments o.2 = some (.number f) → f.IsInteger → f.dp ≤ 6

/-! ### The parts of a template -/

theorem scan_skip (s t : List Char) : scan s.length (s ++ t) = scan 0 t := by
  induction s with
  | nil => rfl
  | cons c s ih => exact ih

theorem paramName_append {name : List Char} (h : '}' ∉ name) (t : List Char) :
    paramName (name ++ '}' :: t) = name := by
  induction name with
  | nil => simp [paramName]
  | cons c name ih =>
    have hc : c ≠ '}' := by
      rintro rfl
      exact h List.mem_cons_self
    have hrest := ih fun hmem => h (List.mem_cons_of_mem c hmem)
    unfold paramName at hrest ⊢
    rw [List.cons_append, List.takeWhile_cons, if_pos (by simpa using hc), hrest]

theorem paramName_split {t : List Char} (h : '}' ∈ t) :
    ∃ rest, t = paramName t ++ '}' :: rest ∧ '}' ∉ paramName t := by
  induction t with
  | nil => cases h
  | cons c t ih =>
    by_cases hc : c = '}'
    · subst hc
      exact ⟨t, by simp [paramName], by simp [paramName]⟩
    · have hcons : paramName (c :: t) = c :: paramName t := by simp [paramName, hc]
      obtain ⟨rest, hsplit, hname⟩ := ih ((List.mem_cons.1 h).resolve_left (Ne.symm hc))
      rw [hcons]
      exact ⟨rest, congrArg (c :: ·) hsplit, List.not_mem_cons_of_ne_of_not_mem (Ne.symm hc) hname⟩

theorem parts_placeholder {name : List Char} (hne : name ≠ []) (h : '}' ∉ name) (t : List Char) :
    parts (placeholder name ++ t) = .placeholder name :: parts t := by
  have hname : paramName (name ++ '}' :: t) = name := paramName_append h t
  have hopens : Opens '{' (name ++ '}' :: t) := ⟨rfl, by rwa [hname], by simp⟩
  have hskip := scan_skip (name ++ ['}']) t
  rw [List.length_append, List.length_singleton, List.append_assoc, List.singleton_append] at hskip
  rw [parts, placeholder, List.cons_append, List.append_assoc, List.singleton_append, scan,
    if_pos hopens, hname, hskip, parts]

theorem parts_char {c : Char} {t : List Char} (h : ¬ Opens c t) :
    parts (c :: t) = .char c :: parts t := by
  rw [parts, scan, if_neg h, parts]

/-- The induction over the matches of a text. -/
theorem parts_induction {motive : List Char → Prop} (nil : motive [])
    (placeholder : ∀ name t, name ≠ [] → '}' ∉ name → motive t → motive (placeholder name ++ t))
    (char : ∀ c t, ¬ Opens c t → motive t → motive (c :: t)) (t : List Char) : motive t := by
  generalize hn : t.length = n
  induction n using Nat.strong_induction_on generalizing t with
  | _ n ih =>
    cases t with
    | nil => exact nil
    | cons c t =>
      rw [List.length_cons] at hn
      by_cases h : Opens c t
      · obtain ⟨rfl, hne, hmem⟩ := h
        obtain ⟨rest, hsplit, hname⟩ := paramName_split hmem
        have hlen := congrArg List.length hsplit
        rw [List.length_append, List.length_cons] at hlen
        have hstep := placeholder _ rest hne hname (ih rest.length (by omega) rest rfl)
        rw [UrlTemplate.placeholder, List.cons_append, List.append_assoc, List.singleton_append,
          ← hsplit] at hstep
        exact hstep
      · exact char c t h (ih t.length (by omega) t rfl)

/-- The template as its parts spell it. -/
def render (ps : List Part) : List Char := assemble (fun _ => none) ps

theorem render_parts (t : List Char) : render (parts t) = t := by
  induction t using parts_induction with
  | nil => rfl
  | placeholder name t hne h ih =>
    rw [parts_placeholder hne h]
    exact congrArg (placeholder name ++ ·) ih
  | char c t h ih =>
    rw [parts_char h]
    exact congrArg (c :: ·) ih

/-- Parts that a text is read as: behind an opening brace between the matches, no closing brace ends a
name. -/
inductive Scanned : List Part → Prop
  | nil : Scanned []
  | placeholder {name : List Char} {ps : List Part} :
      name ≠ [] → '}' ∉ name → Scanned ps → Scanned (.placeholder name :: ps)
  | char {c : Char} {ps : List Part} :
      (c = '{' → '}' ∉ render ps ∨ ∃ t, render ps = '}' :: t) → Scanned ps →
        Scanned (.char c :: ps)

theorem scanned_parts (t : List Char) : Scanned (parts t) := by
  induction t using parts_induction with
  | nil => exact .nil
  | placeholder name t hne h ih =>
    rw [parts_placeholder hne h]
    exact .placeholder hne h ih
  | char c t h ih =>
    rw [parts_char h]
    refine .char ?_ ih
    rintro rfl
    rw [render_parts]
    by_cases hmem : '}' ∈ t
    · right
      have hnil : paramName t = [] := by
        by_contra hne
        exact h ⟨rfl, hne, hmem⟩
      cases t with
      | nil => cases hmem
      | cons d t =>
        refine ⟨t, ?_⟩
        by_cases hd : d = '}'
        · rw [hd]
        · simp [paramName, hd] at hnil
    · exact .inl hmem

theorem mem_findAllSubmatch {t name : List Char} :
    name ∈ findAllSubmatch t ↔ .placeholder name ∈ parts t := by
  rw [findAllSubmatch, List.mem_filterMap]
  constructor
  · rintro ⟨part, hmem, hname⟩
    cases part with
    | char c => cases hname
    | placeholder other =>
      obtain rfl : other = name := Option.some.inj hname
      exact hmem
  · intro hmem
    exact ⟨_, hmem, rfl⟩

theorem Scanned.name {ps : List Part} (h : Scanned ps) {name : List Char}
    (hmem : .placeholder name ∈ ps) : name ≠ [] ∧ '}' ∉ name := by
  induction h with
  | nil => cases hmem
  | placeholder hne hname _ ih =>
    rcases List.mem_cons.1 hmem with heq | hmem
    · obtain rfl := Part.placeholder.inj heq
      exact ⟨hne, hname⟩
    · exact ih hmem
  | char _ _ ih =>
    rcases List.mem_cons.1 hmem with heq | hmem
    · cases heq
    · exact ih hmem

/-! ### One replacement -/

theorem replaceAll_eq_self {old new x : List Char} (h : ∀ s, s <:+ x → ¬ old <+: s) :
    replaceAll old new 0 x = x := by
  induction x with
  | nil => rfl
  | cons c x ih =>
    have hc : ¬ old.isPrefixOf (c :: x) = true := fun hp =>
      h _ List.suffix_rfl (List.isPrefixOf_iff_prefix.1 hp)
    rw [replaceAll, if_neg hc, ih fun s hs => h s (hs.trans (List.suffix_cons c x))]

/-- An occurrence that starts in `x` lies in `x`. -/
def Within (old x y : List Char) : Prop := ∀ s, s <:+ x → s ≠ [] → old <+: s ++ y → old <+: s

theorem replaceAll_append {old new x y : List Char} (h : Within old x y) {skip : ℕ}
    (hskip : skip ≤ x.length) :
    replaceAll old new skip (x ++ y) = replaceAll old new skip x ++ replaceAll old new 0 y := by
  induction x generalizing skip with
  | nil =>
    obtain rfl : skip = 0 := Nat.le_zero.1 hskip
    rfl
  | cons c x ih =>
    have hx : Within old x y := fun s hs => h s (hs.trans (List.suffix_cons c x))
    cases skip with
    | succ skip => exact ih hx (Nat.le_of_succ_le_succ hskip)
    | zero =>
      by_cases hp : old <+: c :: x
      · have hlen := hp.length_le
        rw [List.length_cons] at hlen
        have hp' : old <+: c :: (x ++ y) := hp.trans (List.prefix_append (c :: x) y)
        rw [List.cons_append, replaceAll, if_pos (List.isPrefixOf_iff_prefix.2 hp'), replaceAll,
          if_pos (List.isPrefixOf_iff_prefix.2 hp), ih hx (by omega), List.append_assoc]
      · have hp' : ¬ old <+: c :: (x ++ y) := fun hpre =>
          hp (h _ List.suffix_rfl (by simp) hpre)
        rw [List.cons_append, replaceAll, if_neg fun hpre => hp' (List.isPrefixOf_iff_prefix.1 hpre),
          replaceAll, if_neg fun hpre => hp (List.isPrefixOf_iff_prefix.1 hpre), ih hx (Nat.zero_le _),
          List.cons_append]

/-- A placeholder ends at the first closing brace. -/
theorem placeholder_starts {name s y : List Char} (hs : '}' ∉ s) (hname : '}' ∉ name)
    (h : placeholder name <+: s ++ '}' :: y) : placeholder name = s ++ ['}'] := by
  obtain ⟨z, hz⟩ := h
  have hbody : '}' ∉ '{' :: name := List.not_mem_cons_of_ne_of_not_mem (by decide) hname
  have hsplit : ('{' :: name) ++ '}' :: z = s ++ '}' :: y := by
    rw [← hz, placeholder, List.cons_append, List.cons_append, List.append_assoc,
      List.singleton_append]
  have htake := congrArg (List.takeWhile (· ≠ '}')) hsplit
  change paramName _ = paramName _ at htake
  rw [paramName_append hbody, paramName_append hs] at htake
  rw [placeholder, ← htake, List.cons_append]

theorem placeholder_prefix_head {name y : List Char} {c : Char} (h : placeholder name <+: c :: y) :
    c = '{' := by
  obtain ⟨z, hz⟩ := h
  exact (List.cons.inj hz).1.symm

theorem mem_of_suffix_head {s x : List Char} {c : Char} (hs : c :: s <:+ x) : c ∈ x :=
  hs.subset List.mem_cons_self

theorem within_of_no_open {name x y : List Char} (h : '{' ∉ x) : Within (placeholder name) x y := by
  intro s hs hne hp
  cases s with
  | nil => exact absurd rfl hne
  | cons c s => exact absurd (placeholder_prefix_head hp ▸ mem_of_suffix_head hs) h

theorem within_placeholder {name other y : List Char} (hname : '}' ∉ name) (hother : '}' ∉ other) :
    Within (placeholder name) (placeholder other) y := by
  intro s hs hne hp
  have hbody : '}' ∉ '{' :: other := List.not_mem_cons_of_ne_of_not_mem (by decide) hother
  obtain ⟨u, hu⟩ := hs
  have hsplit : u ++ s = ('{' :: other) ++ ['}'] := hu
  rcases List.append_eq_append_iff.1 hsplit with ⟨a, ha, rfl⟩ | ⟨a, ha, hb⟩
  · -- `s` ends at the closing brace
    have hnone : '}' ∉ a := fun hmem => hbody (ha ▸ List.mem_append_right u hmem)
    rw [List.append_assoc, List.singleton_append] at hp
    rw [placeholder_starts hnone hname hp]
  · cases a with
    | nil =>
      obtain rfl : s = ['}'] := by simpa using hb.symm
      have hhead := @placeholder_prefix_head name y '}' hp
      exact absurd hhead (by decide)
    | cons c a =>
      have hnil : s = [] := (List.append_eq_nil_iff.1 (List.cons.inj hb).2.symm).2
      exact absurd hnil hne

/-! ### One replacement in an assembled text -/

/-- The texts that `f` puts in hold no brace. -/
def Braceless (f : List Char → Option (List Char)) : Prop :=
  ∀ name t, f name = some t → ∀ c ∈ t, c ≠ '{' ∧ c ≠ '}'

section Replacement

variable {f : List Char → Option (List Char)} {ps : List Part} {name new : List Char}

theorem close_notMem_assemble (hf : Braceless f) (h : '}' ∉ render ps) : '}' ∉ assemble f ps := by
  intro hmem
  obtain ⟨part, hpart, htext⟩ := List.mem_flatMap.1 hmem
  refine h (List.mem_flatMap.2 ⟨part, hpart, ?_⟩)
  cases part with
  | char c => exact htext
  | placeholder other =>
    cases hother : f other with
    | some t =>
      rw [Part.text, hother, Option.getD_some] at htext
      exact absurd rfl (hf other t hother _ htext).2
    | none => exact List.mem_cons_of_mem _ (List.mem_append_right _ List.mem_cons_self)

/-- No placeholder starts at a brace between the matches. -/
theorem not_prefix_char {c : Char} (hf : Braceless f) (hne : name ≠ []) (hname : '}' ∉ name)
    (hc : c = '{' → '}' ∉ render ps ∨ ∃ t, render ps = '}' :: t) :
    ¬ placeholder name <+: c :: assemble f ps := by
  intro hp
  obtain rfl := placeholder_prefix_head hp
  rcases hc rfl with hclose | ⟨t, ht⟩
  · have hmem : '}' ∈ '{' :: assemble f ps := hp.subset (by simp [placeholder])
    exact close_notMem_assemble hf hclose ((List.mem_cons.1 hmem).resolve_left (by decide))
  · cases ps with
    | nil => cases ht
    | cons part ps =>
      cases part with
      | placeholder other => exact absurd (List.cons.inj ht).1 (by decide)
      | char d =>
        obtain rfl : d = '}' := (List.cons.inj ht).1
        obtain ⟨z, hz⟩ := hp
        cases name with
        | nil => exact absurd rfl hne
        | cons a name =>
          obtain rfl : a = '}' := (List.cons.inj (List.cons.inj hz).2).1
          exact hname List.mem_cons_self

theorem within_part {part : Part} (hps : Scanned (part :: ps)) (hf : Braceless f) (hne : name ≠ [])
    (hname : '}' ∉ name) : Within (placeholder name) (part.text f) (assemble f ps) := by
  cases hps with
  | @char c _ hc _ =>
    intro s hs hsne hp
    rcases List.suffix_cons_iff.1 hs with rfl | hs
    · exact absurd hp (not_prefix_char hf hne hname hc)
    · exact absurd (List.suffix_nil.1 hs) hsne
  | @placeholder other _ _ hother _ =>
    cases hvalue : f other with
    | some t =>
      rw [Part.text, hvalue]
      exact within_of_no_open fun hmem => (hf other t hvalue _ hmem).1 rfl
    | none =>
      rw [Part.text, hvalue]
      exact within_placeholder hname hother

theorem replaceAll_assemble (hps : Scanned ps) (hf : Braceless f) (hne : name ≠ [])
    (hname : '}' ∉ name) :
    replaceAll (placeholder name) new 0 (assemble f ps) =
      ps.flatMap fun part => replaceAll (placeholder name) new 0 (part.text f) := by
  induction ps with
  | nil => rfl
  | cons part ps ih =>
    have hrest : Scanned ps := by cases hps <;> assumption
    rw [assemble, List.flatMap_cons, List.flatMap_cons, ← ih hrest]
    exact replaceAll_append (within_part hps hf hne hname) (Nat.zero_le _)

theorem replaceAll_self :
    replaceAll (placeholder name) new 0 (placeholder name) = new := by
  have hskip : ∀ s : List Char, replaceAll (placeholder name) new s.length s = [] := by
    intro s
    induction s with
    | nil => rfl
    | cons c s ih => exact ih
  have hlen : (placeholder name).length - 1 = (name ++ ['}']).length := by
    rw [placeholder, List.length_cons, Nat.add_sub_cancel]
  have hp : (placeholder name).isPrefixOf ('{' :: (name ++ ['}'])) = true :=
    List.isPrefixOf_iff_prefix.2 List.prefix_rfl
  conv_lhs => rhs; rw [placeholder]
  rw [replaceAll, if_pos hp, hlen, hskip, List.append_nil]

/-- A text without a closing brace is left as it is, and so is one without an opening brace. -/
theorem replaceAll_braceless {x : List Char} (h : '}' ∉ x ∨ '{' ∉ x) :
    replaceAll (placeholder name) new 0 x = x := by
  refine replaceAll_eq_self fun s hs hp => ?_
  rcases h with h | h
  · exact h (hs.subset (hp.subset (by simp [placeholder])))
  · exact h (hs.subset (hp.subset (by simp [placeholder])))

theorem replaceAll_other {other : List Char} (hname : '}' ∉ name) (hother : '}' ∉ other)
    (h : ¬ placeholder name <:+ placeholder other) :
    replaceAll (placeholder name) new 0 (placeholder other) = placeholder other := by
  refine replaceAll_eq_self fun s hs hp => h ?_
  have hbody : '}' ∉ '{' :: other := List.not_mem_cons_of_ne_of_not_mem (by decide) hother
  obtain ⟨u, hu⟩ := hs
  have hsplit : u ++ s = ('{' :: other) ++ ['}'] := hu
  rcases List.append_eq_append_iff.1 hsplit with ⟨a, ha, rfl⟩ | ⟨a, ha, hb⟩
  · have hnone : '}' ∉ a := fun hmem => hbody (ha ▸ List.mem_append_right u hmem)
    rw [placeholder_starts hnone hname hp]
    exact ⟨u, hu⟩
  · have hlen := hp.length_le
    have hlen' := congrArg List.length hb
    simp only [placeholder, List.length_cons, List.length_append, List.length_nil] at hlen hlen'
    omega

/-- A placeholder that is the end of another one takes its closing brace away. -/
theorem replaceAll_end {other : List Char} (hname : '}' ∉ name) (hother : '}' ∉ other)
    (hnew : ∀ c ∈ new, c ≠ '{' ∧ c ≠ '}') (h : placeholder name <:+ placeholder other) :
    '}' ∉ replaceAll (placeholder name) new 0 (placeholder other) := by
  obtain ⟨u, hu⟩ := h
  have hclose : '}' ∉ u := by
    intro hmem
    have hsplit : (u ++ '{' :: name) ++ ['}'] = ('{' :: other) ++ ['}'] := by
      simpa [placeholder] using hu
    have hbody := List.append_cancel_right hsplit
    have hmem' : '}' ∈ '{' :: other := hbody ▸ List.mem_append_left _ hmem
    exact hother ((List.mem_cons.1 hmem').resolve_left (by decide))
  have hwithin : Within (placeholder name) u (placeholder name) := by
    intro s hs hsne hp
    exfalso
    have hs' : '}' ∉ s := fun hmem => hclose (hs.subset hmem)
    have hbody : '}' ∉ s ++ '{' :: name := by
      simp only [List.mem_append, List.mem_cons, not_or]
      exact ⟨hs', by decide, hname⟩
    have hp' : placeholder name <+: (s ++ '{' :: name) ++ '}' :: [] := by
      simpa [placeholder] using hp
    have hlen := congrArg List.length (placeholder_starts hbody hname hp')
    simp only [placeholder, List.length_cons, List.length_append, List.length_nil] at hlen
    exact hsne (List.length_eq_zero_iff.1 (by omega))
  rw [← hu, replaceAll_append hwithin (Nat.zero_le _), replaceAll_braceless (.inl hclose),
    replaceAll_self]
  intro hmem
  rcases List.mem_append.1 hmem with hmem | hmem
  · exact hclose hmem
  · exact (hnew _ hmem).2 rfl

/-- A part keeps its text, or gets the new one, unless the placeholder is its end. -/
theorem replaceAll_part {part : Part} (hf : Braceless f) (hname : '}' ∉ name)
    (hpart : ∀ other, part = .placeholder other → '}' ∉ other) (hne : name ≠ [])
    (hknown : f name = none ∨ f name = some new)
    (h : ∀ other, part = .placeholder other → Function.update f name (some new) other = none →
      ¬ placeholder name <:+ placeholder other) :
    replaceAll (placeholder name) new 0 (part.text f) =
      part.text (Function.update f name (some new)) := by
  cases part with
  | char c =>
    refine replaceAll_eq_self fun s hs hp => ?_
    have hlen := hp.length_le.trans hs.length_le
    simp only [placeholder, Part.text, List.length_cons, List.length_append, List.length_nil] at hlen
    have hpos := List.length_pos_of_ne_nil hne
    omega
  | placeholder other =>
    cases hvalue : f other with
    | some t =>
      have hkeep : Function.update f name (some new) other = some t := by
        by_cases hother : other = name
        · subst hother
          rw [Function.update_self]
          rcases hknown with hnone | hsome
          · rw [hvalue] at hnone
            cases hnone
          · rw [← hvalue, hsome]
        · rw [Function.update_of_ne hother, hvalue]
      rw [Part.text, Part.text, hvalue, hkeep]
      exact replaceAll_braceless (.inr fun hmem => (hf other t hvalue _ hmem).1 rfl)
    | none =>
      by_cases hother : other = name
      · subst hother
        rw [Part.text, Part.text, hvalue, Function.update_self]
        exact replaceAll_self
      · have hnone : Function.update f name (some new) other = none := by
          rw [Function.update_of_ne hother, hvalue]
        rw [Part.text, Part.text, hvalue, hnone]
        exact replaceAll_other hname (hpart other rfl) (h other rfl hnone)

theorem count_replaceAll_end {other : List Char} (hname : '}' ∉ name) (hother : '}' ∉ other)
    (hnew : ∀ c ∈ new, c ≠ '{' ∧ c ≠ '}') (h : placeholder name <:+ placeholder other)
    (hnone : Function.update f name (some new) other = none) :
    (replaceAll (placeholder name) new 0 ((Part.placeholder other).text f)).count '}' <
      ((Part.placeholder other).text (Function.update f name (some new))).count '}' := by
  have hne : other ≠ name := by
    rintro rfl
    rw [Function.update_self] at hnone
    cases hnone
  have hvalue : f other = none := by rwa [Function.update_of_ne hne] at hnone
  rw [Part.text, Part.text, hvalue, hnone, Option.getD_none,
    List.count_eq_zero_of_not_mem (replaceAll_end hname hother hnew h)]
  exact List.count_pos_iff.2 (List.mem_cons_of_mem _ (List.mem_append_right _ List.mem_cons_self))

/-- A replacement is right exactly when the placeholder is the end of no other one that stays. -/
theorem replaceAll_assemble_eq_iff (hps : Scanned ps) (hf : Braceless f)
    (hnew : ∀ c ∈ new, c ≠ '{' ∧ c ≠ '}') (hmem : .placeholder name ∈ ps)
    (hknown : f name = none ∨ f name = some new) :
    replaceAll (placeholder name) new 0 (assemble f ps) =
        assemble (Function.update f name (some new)) ps ↔
      ∀ other, .placeholder other ∈ ps → Function.update f name (some new) other = none →
        ¬ placeholder name <:+ placeholder other := by
  obtain ⟨hne, hname⟩ := hps.name hmem
  have hclose : ∀ part ∈ ps, ∀ other, part = .placeholder other → '}' ∉ other := by
    rintro _ hpart other rfl
    exact (hps.name hpart).2
  rw [replaceAll_assemble hps hf hne hname, assemble]
  constructor
  · -- otherwise a closing brace is missing
    intro heq other hother hnone hend
    have hcount := congrArg (List.count '}') heq
    rw [List.count_flatMap, List.count_flatMap] at hcount
    refine absurd hcount (ne_of_lt (List.sum_lt_sum _ _ (fun part hpart => ?_)
      ⟨_, hother, count_replaceAll_end hname (hclose _ hother other rfl) hnew hend hnone⟩))
    by_cases hbad : ∃ other, part = .placeholder other ∧
        Function.update f name (some new) other = none ∧ placeholder name <:+ placeholder other
    · obtain ⟨other, rfl, hnone, hend⟩ := hbad
      exact (count_replaceAll_end hname (hclose _ hpart other rfl) hnew hend hnone).le
    · have hpart' := @replaceAll_part f name new part hf hname (hclose part hpart) hne hknown
        fun other he hnone hend => hbad ⟨other, he, hnone, hend⟩
      exact (congrArg (List.count '}') hpart').le
  · intro h
    refine List.flatMap_congr fun part hpart => ?_
    refine replaceAll_part hf hname (hclose part hpart) hne hknown ?_
    rintro other rfl
    exact h other hpart

end Replacement

/-! ### The run -/

section Run

variable {arguments : Option Arguments} {urlTemplate : List Char}

theorem encode_ne_brace (v : Argument) : ∀ c ∈ v.encode, c ≠ '{' ∧ c ≠ '}' :=
  fun _ => queryEscape_ne_brace

theorem braceless_encoded (done : List (List Char)) : Braceless (encoded arguments done) := by
  intro name t h
  unfold encoded at h
  split at h
  · obtain ⟨v, _, rfl⟩ := Option.map_eq_some_iff.1 h
    exact encode_ne_brace v
  · cases h

theorem encoded_nil : encoded arguments [] = fun _ => none :=
  funext fun _ => if_neg List.not_mem_nil

theorem encoded_append_some {done : List (List Char)} {name : List Char} {v : Argument}
    (h : value arguments name = some v) :
    encoded arguments (done ++ [name]) =
      Function.update (encoded arguments done) name (some v.encode) := by
  funext other
  by_cases hother : other = name
  · subst hother
    rw [Function.update_self, encoded, if_pos (by simp), h, Option.map_some]
  · rw [Function.update_of_ne hother]
    simp [encoded, hother]

theorem encoded_append_none {done : List (List Char)} {name : List Char}
    (h : value arguments name = none) :
    encoded arguments (done ++ [name]) = encoded arguments done := by
  funext other
  by_cases hother : other = name
  · subst hother
    simp [encoded, h]
  · simp [encoded, hother]

theorem update_eq_none_iff {done : List (List Char)} {name other : List Char} {v : Argument}
    (h : value arguments name = some v) :
    Function.update (encoded arguments done) name (some v.encode) other = none ↔
      value arguments other = none ∨ other ∉ done ∧ other ≠ name := by
  by_cases hother : other = name
  · subst hother
    simp [h]
  · rw [Function.update_of_ne hother, encoded]
    by_cases hmem : other ∈ done <;> simp [hmem, hother]

theorem resultAfter_append_some {done : List (List Char)} {name : List Char} {v : Argument}
    (h : value arguments name = some v) :
    resultAfter arguments urlTemplate (done ++ [name]) =
      replaceAll (placeholder name) v.encode 0 (resultAfter arguments urlTemplate done) := by
  cases arguments with
  | none => cases h
  | some arguments =>
    have hlookup : arguments.lookup name = some v := h
    simp only [resultAfter, List.foldl_append, List.foldl_cons, List.foldl_nil]
    rw [substitute, hlookup]

theorem resultAfter_append_none {done : List (List Char)} {name : List Char}
    (h : value arguments name = none) :
    resultAfter arguments urlTemplate (done ++ [name]) = resultAfter arguments urlTemplate done := by
  cases arguments with
  | none => rfl
  | some arguments =>
    have hlookup : arguments.lookup name = none := h
    simp only [resultAfter, List.foldl_append, List.foldl_cons, List.foldl_nil]
    rw [substitute, hlookup]

theorem resultAfter_nil :
    resultAfter arguments urlTemplate [] = assemble (encoded arguments []) (parts urlTemplate) := by
  rw [encoded_nil]
  refine Eq.trans ?_ (render_parts urlTemplate).symm
  cases arguments <;> rfl

theorem encoded_known {done : List (List Char)} {name : List Char} {v : Argument}
    (h : value arguments name = some v) :
    encoded arguments done name = none ∨ encoded arguments done name = some v.encode := by
  rw [encoded, h]
  split
  · exact .inr rfl
  · exact .inl rfl

/-- One turn on an assembled text. -/
theorem turn_eq_iff {done rest : List (List Char)} {name : List Char} {v : Argument}
    (hdone : findAllSubmatch urlTemplate = done ++ name :: rest) (h : value arguments name = some v) :
    replaceAll (placeholder name) v.encode 0
          (assemble (encoded arguments done) (parts urlTemplate)) =
        assemble (encoded arguments (done ++ [name])) (parts urlTemplate) ↔
      ∀ other ∈ findAllSubmatch urlTemplate,
        value arguments other = none ∨ other ∉ done ∧ other ≠ name →
          ¬ placeholder name <:+ placeholder other := by
  have hmem : .placeholder name ∈ parts urlTemplate :=
    mem_findAllSubmatch.1 (hdone ▸ List.mem_append_right _ List.mem_cons_self)
  rw [encoded_append_some h, replaceAll_assemble_eq_iff (scanned_parts urlTemplate)
    (braceless_encoded done) (encode_ne_brace v) hmem (encoded_known h)]
  simp only [update_eq_none_iff h, mem_findAllSubmatch]

theorem replaced_iff :
    (∀ done rest, findAllSubmatch urlTemplate = done ++ rest →
      resultAfter arguments urlTemplate done =
        assemble (encoded arguments done) (parts urlTemplate)) ↔
    ∀ done name rest, findAllSubmatch urlTemplate = done ++ name :: rest →
      value arguments name ≠ none → ∀ other ∈ findAllSubmatch urlTemplate,
        value arguments other = none ∨ other ∉ done ∧ other ≠ name →
          ¬ placeholder name <:+ placeholder other := by
  constructor
  · intro h done name rest hdone hvalue
    obtain ⟨v, hv⟩ := Option.ne_none_iff_exists'.1 hvalue
    have hnext := h (done ++ [name]) rest (by rw [hdone, List.append_assoc, List.singleton_append])
    rw [resultAfter_append_some hv, h done (name :: rest) hdone] at hnext
    exact (turn_eq_iff hdone hv).1 hnext
  · intro h done
    induction done using List.reverseRecOn with
    | nil => exact fun _ _ => resultAfter_nil
    | append_singleton done name ih =>
      intro rest hdone
      rw [List.append_assoc, List.singleton_append] at hdone
      cases hv : value arguments name with
      | none => rw [resultAfter_append_none hv, encoded_append_none hv, ih _ hdone]
      | some v =>
        rw [resultAfter_append_some hv, ih _ hdone]
        exact (turn_eq_iff hdone hv).2 (h done name rest hdone (by rw [hv]; exact Option.some_ne_none v))

end Run

/-! ### What is decoded -/

theorem space_mem_utf8 (t : List Char) : 32 ∈ utf8 t ↔ ' ' ∈ t :=
  ascii_mem_utf8 (by omega : 32 < 128) t

theorem unescape_string_iff (mode : Encoding) (s : List Char) :
    unescape mode (Argument.string s).encode = some (utf8 (Argument.string s).text) ↔
      mode = .queryComponent ∨ ' ' ∉ s := by
  rw [Argument.encode, Argument.sprint, Argument.text, unescape_queryEscape_eq_iff, space_mem_utf8]

theorem unescape_number (mode : Encoding) (f : Decimal) :
    unescape mode (Argument.number f).encode = some (utf8 f.fmtG) := by
  rw [Argument.encode, Argument.sprint, unescape_queryEscape_eq_iff, space_mem_utf8]
  exact .inr fun h => Decimal.fmtG_ne_space h rfl

theorem unescape_number_iff (mode : Encoding) (f : Decimal) :
    unescape mode (Argument.number f).encode = some (utf8 (Argument.number f).text) ↔
      (f.IsInteger → f.dp ≤ 6) := by
  rw [unescape_number, Option.some_inj, Argument.text]
  by_cases h : f.IsInteger
  · rw [if_pos h]
    constructor
    · -- the exponent would show in the bytes
      intro heq _
      by_contra hdp
      have hbyte : 101 ∈ utf8 f.plain :=
        heq ▸ (ascii_mem_utf8 (by omega : 101 < 128) _).2 (Decimal.mem_fmtG (by omega))
      have hplain : 'e' ∈ f.plain := (ascii_mem_utf8 (by omega : 101 < 128) _).1 hbyte
      exact (Decimal.ne_of_isPlain (Decimal.isPlain_plain hplain)).1 rfl
    · intro hdp
      rw [(Decimal.fmtG_eq_plain_iff h).2 (hdp h)]
  · simp [h]

/-- The URL of a template is faithful exactly when no placeholder is hidden in another one that still
stands, no argument of a path holds a space and no integer reaches a million. -/
theorem substituteURLParameters_faithful_iff (urlTemplate : List Char)
    (arguments : Option Arguments) :
    Faithful urlTemplate arguments ↔ Substitutable urlTemplate arguments := by
  constructor
  · rintro ⟨hreplaced, hdecoded⟩
    exact ⟨replaced_iff.1 hreplaced,
      fun o ho s hs => (unescape_string_iff o.1 s).1 (hdecoded o ho _ hs),
      fun o ho f hf => (unescape_number_iff o.1 f).1 (hdecoded o ho _ hf)⟩
  · rintro ⟨hends, hspaces, hintegers⟩
    refine ⟨replaced_iff.2 hends, fun o ho v hv => ?_⟩
    cases v with
    | string s => exact (unescape_string_iff o.1 s).2 (hspaces o ho s hv)
    | number f => exact (unescape_number_iff o.1 f).2 (hintegers o ho f hv)

/-- The URL of a faithful substitution. -/
theorem Faithful.url {urlTemplate : List Char} {arguments : Option Arguments}
    (h : Faithful urlTemplate arguments) :
    substituteURLParameters urlTemplate arguments =
      assemble (encoded arguments (findAllSubmatch urlTemplate)) (parts urlTemplate) :=
  h.replaced _ [] (List.append_nil _).symm

/-- No placeholder is hidden when no name holds an opening brace. -/
theorem ends_of_no_brace {urlTemplate : List Char} {name other : List Char}
    (h : ∀ name ∈ findAllSubmatch urlTemplate, '{' ∉ name)
    (hother : other ∈ findAllSubmatch urlTemplate) (hne : other ≠ name) :
    ¬ placeholder name <:+ placeholder other := by
  intro hend
  rcases List.suffix_cons_iff.1 hend with heq | hend
  · rw [placeholder, List.cons.injEq] at heq
    exact hne (List.append_cancel_right heq.2).symm
  · have hmem : '{' ∈ other ++ ['}'] := hend.subset (by simp [placeholder])
    rcases List.mem_append.1 hmem with hmem | hmem
    · exact h other hother hmem
    · exact absurd (List.mem_singleton.1 hmem) (by decide)

/-- The name `John Smith` in a path. -/
theorem space_in_path :
    substituteURLParameters "https://api/users/{name}".toList
        (some [("name".toList, .string "John Smith".toList)]) =
      "https://api/users/John+Smith".toList ∧
    ¬ Faithful "https://api/users/{name}".toList
      (some [("name".toList, .string "John Smith".toList)]) := by
  refine ⟨by decide +kernel, fun h => ?_⟩
  have hname := h.decoded (.path, "name".toList) (by decide +kernel) _ rfl
  exact absurd hname (by decide +kernel)

end UrlTemplate

end Ark
