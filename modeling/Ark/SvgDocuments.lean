import Ark.SvgSanitize

/-!
# Sanitized SVG documents

What the sanitizer writes is the document that it read without the elements and attributes that the
loops refuse, in the same order, but for text behind a removed element. A browser finds no dangerous
element in it, no event handler and no link to another place, unless the link starts with a
backslash. Sanitizing it again changes nothing.
-/

namespace Ark.Svg

open GoBytes HrefTargets KeyedTable RoseHeap

/-! ### What is written -/

section

variable {L : Lowercase} {et : ElementTree} {content : Bytes} {root : Rose Element}

theorem partsOf_pruneAll {ts : List (Rose Element)}
    (h : ∀ t ∈ ts, PartOf (t.prune (isKept L) (cleaned L)) t) :
    PartsOf (Rose.pruneAll (isKept L) (cleaned L) ts) ts := by
  induction ts with
  | nil => exact .nil
  | cons t ts ih =>
    obtain ⟨ht, hts⟩ := List.forall_mem_cons.mp h
    rw [Rose.pruneAll]
    split_ifs
    · exact .keep ht (ih hts)
    · exact .drop (ih hts)

theorem partOf_prune (t : Rose Element) : PartOf (t.prune (isKept L) (cleaned L)) t := by
  induction t using Rose.induct with
  | h e ts ih =>
    have hsublist : List.Sublist (cleaned L e).attrib.items e.attrib.items := by
      change List.Sublist (sanitizeAttributes L e.attrib).items e.attrib.items
      rw [items_sanitizeAttributes]
      exact List.filter_sublist
    exact .node rfl hsublist rfl rfl (partsOf_pruneAll ih)

/-- The text of a document without the elements and attributes that the loops remove. -/
theorem sanitizeSvg_eq (hparse : et.fromstring content = .ok root)
    (hroot : isDangerous L root.value = false) (hdepth : root.height ≤ maxSvgDepth) :
    sanitizeSvg L et content = some (.ok (et.tostring (root.prune (isKept L) (cleaned L)))) := by
  have hne : content ≠ [] := fun h => et.fromstring_nil root (h ▸ hparse)
  obtain ⟨heap, hwalk, hread⟩ :=
    @walk_load _ (isKept L) (cleaned L) isKept_cleaned cleaned_cleaned root maxSvgDepth hdepth
  unfold sanitizeSvg
  rw [if_neg hne, hparse]
  dsimp only
  rw [hroot, if_neg Bool.false_ne_true, sanitizeElement_eq, hwalk, ← hread]
  rfl

/-! ### Names that a browser reads -/

theorem afterBrace_of_not_mem {t : Text} (h : '}' ∉ t) : afterBrace t = t := by
  unfold afterBrace
  rw [List.takeWhile_eq_self_iff.mpr, List.reverse_reverse]
  intro c hc
  exact bne_iff_ne.mpr fun heq => h (List.mem_reverse.mp (heq ▸ hc))

theorem afterBrace_append {s t : Text} (h : '}' ∉ t) : afterBrace (s ++ '}' :: t) = t := by
  unfold afterBrace
  rw [List.reverse_append, List.reverse_cons, List.append_assoc, List.singleton_append,
    List.takeWhile_append_of_pos, List.takeWhile_cons_of_neg (by decide), List.append_nil,
    List.reverse_reverse]
  intro c hc
  exact bne_iff_ne.mpr fun heq => h (List.mem_reverse.mp (heq ▸ hc))

theorem exists_last_brace {t : Text} (h : '}' ∈ t) : ∃ s u, t = s ++ '}' :: u ∧ '}' ∉ u := by
  obtain ⟨a, b, hrev, hnot⟩ := List.eq_append_cons_of_mem (List.mem_reverse.mpr h)
  refine ⟨b.reverse, a.reverse, ?_, fun hc => hnot (List.mem_reverse.mp hc)⟩
  rw [← List.reverse_reverse t, hrev, List.reverse_append, List.reverse_cons, List.append_assoc,
    List.singleton_append]

/-- The name behind the brace, in either order. -/
theorem afterBrace_lower (t : Text) :
    (if '}' ∈ L.lower t then afterBrace (L.lower t) else L.lower t) = L.lower (afterBrace t) := by
  by_cases h : '}' ∈ t
  · obtain ⟨s, u, rfl, hu⟩ := exists_last_brace h
    have hlower : '}' ∉ L.lower u := fun hc => hu (L.brace_of_lower u hc)
    rw [afterBrace_append hu, L.lower_brace, if_pos (by simp), afterBrace_append hlower]
  · rw [if_neg fun hc => h (L.brace_of_lower t hc), afterBrace_of_not_mem h]

theorem localName_eq (t : Text) : localName L t = L.lower (afterBrace t) := by
  unfold localName
  split_ifs with h
  · rfl
  · rw [afterBrace_of_not_mem h]

/-- A name that is ASCII in lower case. -/
theorem lower_of_map_toLower {t w : Text} (hw : (w.all fun c => decide (c.toNat < 128)) = true)
    (h : t.map Char.toLower = w) : L.lower t = w := by
  rw [L.lower_ascii, h]
  intro c hc
  have hmem : c.toLower ∈ w := h ▸ List.mem_map_of_mem hc
  exact ascii_of_toLower (of_decide_eq_true (List.all_eq_true.mp hw _ hmem))

/-- `on` and a letter, in any case. -/
def IsHandler (name : Text) : Prop :=
  ∃ a b c t, name = a :: b :: c :: t ∧ a.toLower = 'o' ∧ b.toLower = 'n' ∧ c.isAlpha = true

/-- An element that runs nothing and leads nowhere else, but for links with a backslash. -/
structure Harmless (e : Element) : Prop where
  name : (afterBrace e.tag).map Char.toLower ∉ dangerousLocalNames
  handlers : ∀ x ∈ e.attrib.items, ¬IsHandler (afterBrace x.1)
  links : ∀ x ∈ e.attrib.items, (afterBrace x.1).map Char.toLower = "href".toList →
    target x.2 = .sameOrigin ∨ (target x.2).Backslashed

theorem refuses_handler {attr value : Text} (h : IsHandler (afterBrace attr)) :
    refuses L attr value = true := by
  obtain ⟨a, b, c, t, hname, ha, hb, hc⟩ := h
  have hnum : c.isAlphanum = true := by
    unfold Char.isAlphanum
    rw [hc, Bool.true_or]
  have hascii : ∀ d ∈ [a, b, c], d.toNat < 128 := by
    have ha' := @ascii_of_toLower a (by rw [ha]; decide)
    have hb' := @ascii_of_toLower b (by rw [hb]; decide)
    simp [ha', hb', ascii_of_isAlphanum hnum]
  obtain ⟨u, hu⟩ := L.lower_ascii_append [a, b, c] t hascii
  have hlower : L.lower (afterBrace attr) = 'o' :: 'n' :: c.toLower :: u := by
    rw [hname]
    change L.lower ([a, b, c] ++ t) = _
    rw [hu, List.map_cons, List.map_cons, List.map_singleton, ha, hb]
    rfl
  unfold refuses
  dsimp only
  have hevent : eventHandlerAttr ('o' :: 'n' :: c.toLower :: u) = isLetter c.toLower := rfl
  rw [afterBrace_lower, hlower, hevent, (isLetter_of_isAlpha hc).2.1, if_pos rfl]

theorem isSafeHref_of_not_refuses {attr value : Text}
    (hname : (afterBrace attr).map Char.toLower = "href".toList) (h : refuses L attr value = false) :
    isSafeHref value = true := by
  have hlower : L.lower (afterBrace attr) = "href".toList := lower_of_map_toLower (by decide) hname
  unfold refuses at h
  dsimp only at h
  rw [afterBrace_lower, hlower, if_neg (by decide), if_pos (by simp)] at h
  simpa using h

theorem harmless_cleaned {e : Element} (h : isDangerous L e = false) : Harmless (cleaned L e) := by
  have hitems : ∀ x ∈ (cleaned L e).attrib.items, refuses L x.1 x.2 = false := by
    intro x hx
    change x ∈ (sanitizeAttributes L e.attrib).items at hx
    rw [items_sanitizeAttributes] at hx
    simpa using (List.mem_filter.mp hx).2
  refine ⟨fun hname => ?_, fun x hx hhandler => ?_, fun x hx hname => ?_⟩
  · have hname : (afterBrace e.tag).map Char.toLower ∈ dangerousLocalNames := hname
    have hall : (dangerousLocalNames.all fun w => w.all fun c => decide (c.toNat < 128)) = true := by
      decide
    have hlower : L.lower (afterBrace e.tag) = (afterBrace e.tag).map Char.toLower :=
      lower_of_map_toLower (List.all_eq_true.mp hall _ hname) rfl
    unfold isDangerous at h
    rw [localName_eq, hlower, List.contains_iff_mem.mpr hname] at h
    cases h
  · have hrefuses := hitems x hx
    rw [refuses_handler hhandler] at hrefuses
    cases hrefuses
  · exact target_of_isSafeHref (isSafeHref_of_not_refuses hname (hitems x hx))

theorem harmless_of_mem_prune {e : Element} (hroot : isDangerous L root.value = false)
    (he : e ∈ (root.prune (isKept L) (cleaned L)).values) : Harmless e := by
  obtain ⟨u, -, rfl, hu⟩ := Rose.exists_of_mem_values_prune he
  apply harmless_cleaned
  rcases hu with hu | rfl
  · unfold isKept at hu
    simpa using hu
  · exact hroot

/-! ### What is kept -/

inductive Token
  | start (tag : Text) (attrib : List (Text × Text))
  | char (c : Char)
  | stop

mutual

/-- A document as tags and characters. -/
def tokens : Rose Element → List Token
  | .node e ts =>
    .start e.tag e.attrib.items :: (e.text.map .char ++ tokensAll ts ++ .stop :: e.tail.map .char)

def tokensAll : List (Rose Element) → List Token
  | [] => []
  | t :: ts => tokens t ++ tokensAll ts

end

variable (L) in
mutual

/-- A document without dangerous children and without the attributes that are refused, with or without
the text behind such a child. -/
def remainder (tails : Bool) : Rose Element → List Token
  | .node e ts =>
    .start e.tag (e.attrib.items.filter fun x => !refuses L x.1 x.2) ::
      (e.text.map .char ++ remainderAll tails ts ++ .stop :: e.tail.map .char)

def remainderAll (tails : Bool) : List (Rose Element) → List Token
  | [] => []
  | t :: ts =>
    (if isDangerous L t.value then if tails then t.value.tail.map .char else []
      else remainder tails t) ++
      remainderAll tails ts

end

theorem tokens_prune (t : Rose Element) :
    tokens (t.prune (isKept L) (cleaned L)) = remainder L false t := by
  induction t using Rose.induct with
  | h e ts ih =>
    have hall : tokensAll (Rose.pruneAll (isKept L) (cleaned L) ts) = remainderAll L false ts := by
      induction ts with
      | nil => rfl
      | cons t ts ihs =>
        obtain ⟨ht, hts⟩ := List.forall_mem_cons.mp ih
        rw [Rose.pruneAll, remainderAll, ← ihs hts]
        unfold isKept
        cases isDangerous L t.value with
        | false =>
          rw [if_neg Bool.false_ne_true, if_pos (by rfl), tokensAll, ← ht]
          rfl
        | true =>
          rw [if_pos rfl, if_neg (by decide)]
          rfl
    rw [Rose.prune, tokens, remainder, hall]
    unfold cleaned
    rw [items_sanitizeAttributes]

theorem remainder_sublist (t : Rose Element) :
    List.Sublist (remainder L false t) (remainder L true t) := by
  induction t using Rose.induct with
  | h e ts ih =>
    have hall : List.Sublist (remainderAll L false ts) (remainderAll L true ts) := by
      induction ts with
      | nil => exact .slnil
      | cons t ts ihs =>
        obtain ⟨ht, hts⟩ := List.forall_mem_cons.mp ih
        rw [remainderAll, remainderAll]
        refine List.Sublist.append ?_ (ihs hts)
        cases isDangerous L t.value with
        | false => exact ht
        | true => exact List.nil_sublist _
    rw [remainder, remainder]
    exact ((List.Sublist.append_left hall _).append_right _).cons_cons _

end

/-! ### A document -/

def asciiLowercase : Lowercase where
  lower := List.map Char.toLower
  lower_ascii _ _ := rfl
  lower_ascii_append _ t _ := ⟨t.map Char.toLower, List.map_append⟩
  lower_brace _ _ := List.map_append
  brace_of_lower t h := by
    obtain ⟨c, hc, heq⟩ := List.mem_map.mp h
    have hbrace : c = '}' := by
      have hall := of_ascii (p := fun c => !(c.toLower == '}') || c == '}') (by decide)
        (ascii_of_toLower (heq ▸ by decide : c.toLower.toNat < 128))
      simpa [heq] using hall
    exact hbrace ▸ hc

def qualified (name : String) : Text := '{' :: "http://www.w3.org/2000/svg".toList ++ '}' :: name.toList

def scriptElement : Rose Element := .node ⟨qualified "script", ⟨[], List.nodup_nil⟩, [], []⟩ []

/-- A root with or without an unsafe style and a script. -/
def document (style script : Bool) : Rose Element :=
  .node
    { tag := qualified "svg"
      attrib :=
        { items := if style then [("style".toList, "width:expression(1)".toList)] else []
          nodup := by cases style <;> decide }
      text := []
      tail := [] }
    (if script then [scriptElement] else [])

def attributeText (style : Bool) : Text := if style then " style=\"width:expression(1)\"".toList else []

def closingText (script : Bool) : Text := if script then "><script /></svg>".toList else " />".toList

def written (style script : Bool) : Bytes :=
  utf8 ('<' ::
    ("?xml version='1.0' encoding='utf-8'?>\n<svg xmlns=\"http://www.w3.org/2000/svg\"".toList ++
      (attributeText style ++ closingText script)))

theorem written_injective {style script style' script' : Bool}
    (h : written style script = written style' script') :
    style = style' ∧ script = script' := by
  have htext := List.append_cancel_left (List.cons.inj (UriSegments.utf8_injective h)).2
  cases style <;> cases script <;> cases style' <;> cases script' <;>
    first | exact ⟨rfl, rfl⟩ | exact absurd htext (by decide)

theorem document_of_partOf {t : Rose Element} {style script : Bool}
    (h : PartOf t (document style script)) :
    ∃ style script, t = document style script := by
  unfold document at h
  cases h with
  | @node _ e' _ ts' htag hitems htext htail hparts =>
    obtain ⟨tag, attrib, text, tail⟩ := e'
    obtain ⟨items, hnodup⟩ := attrib
    dsimp only at htag hitems htext htail
    subst htag htext htail
    have hattrib : ∃ style : Bool,
        items = if style then [("style".toList, "width:expression(1)".toList)] else [] := by
      cases style with
      | false => exact ⟨false, List.sublist_nil.mp hitems⟩
      | true =>
        rcases List.sublist_singleton.mp hitems with h | h
        · exact ⟨false, h⟩
        · exact ⟨true, h⟩
    have hchildren : ∃ script : Bool, ts' = if script then [scriptElement] else [] := by
      cases script with
      | false =>
        cases hparts
        exact ⟨false, rfl⟩
      | true =>
        cases hparts with
        | drop hparts =>
          cases hparts
          exact ⟨false, rfl⟩
        | keep hscript hparts =>
          cases hparts
          refine ⟨true, ?_⟩
          cases hscript with
          | @node _ e' _ ts' htag hitems htext htail hparts =>
            obtain ⟨tag, attrib, text, tail⟩ := e'
            obtain ⟨items, hnodup⟩ := attrib
            cases hparts
            obtain rfl := List.sublist_nil.mp hitems
            dsimp only at htag htext htail
            subst htag htext htail
            rfl
    obtain ⟨style, rfl⟩ := hattrib
    obtain ⟨script, rfl⟩ := hchildren
    exact ⟨style, script, rfl⟩

/-- A parser of these documents. -/
def parseDocument (content : Bytes) : Except String (Rose Element) :=
  if content = written true true then .ok (document true true)
  else if content = written true false then .ok (document true false)
  else if content = written false true then .ok (document false true)
  else if content = written false false then .ok (document false false)
  else .error "no element found: line 1, column 0"

theorem document_of_parse {content : Bytes} {root : Rose Element}
    (h : parseDocument content = .ok root) :
    ∃ style script, content = written style script ∧ root = document style script := by
  unfold parseDocument at h
  split_ifs at h with h1 h2 h3 h4
  · exact ⟨true, true, h1, (Except.ok.inj h).symm⟩
  · exact ⟨true, false, h2, (Except.ok.inj h).symm⟩
  · exact ⟨false, true, h3, (Except.ok.inj h).symm⟩
  · exact ⟨false, false, h4, (Except.ok.inj h).symm⟩

theorem parse_written (style script : Bool) :
    parseDocument (written style script) = .ok (document style script) := by
  unfold parseDocument
  split_ifs with h1 h2 h3 h4
  · obtain ⟨rfl, rfl⟩ := written_injective h1
    rfl
  · obtain ⟨rfl, rfl⟩ := written_injective h2
    rfl
  · obtain ⟨rfl, rfl⟩ := written_injective h3
    rfl
  · obtain ⟨rfl, rfl⟩ := written_injective h4
    rfl
  · cases style <;> cases script <;> contradiction

def fewDocuments : ElementTree where
  fromstring := parseDocument
  tostring
    | .node e ts => written (!e.attrib.items.isEmpty) (!ts.isEmpty)
  fromstring_nil root h := by
    obtain ⟨style, script, hnil, -⟩ := document_of_parse h
    cases hnil
  round_trip content root t hparse ht := by
    obtain ⟨style, script, -, rfl⟩ := document_of_parse hparse
    obtain ⟨style, script, rfl⟩ := document_of_partOf ht
    cases style <;> cases script <;> exact parse_written _ _

end Ark.Svg
