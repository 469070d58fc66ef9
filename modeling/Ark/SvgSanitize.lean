import Ark.GoBytes
import Ark.HrefTargets
import Ark.KeyedTable
import Ark.RoseHeap
import Ark.UriSegments

/-!
# Sanitizing of SVG documents

A document is parsed to elements, from which a loop with a stack removes the children with dangerous
names and deletes attributes, before the elements that are left are written. A link is kept where it
is empty, a fragment or a path without a scheme once some characters are dropped and white space is
stripped, which a browser reads as a link to the same place unless it starts with a backslash.
-/

namespace Ark.Svg

open GoBytes HrefTargets KeyedTable RoseHeap

/-! ### Names -/

/-- `str.lower` and what the code relies on of it. -/
structure Lowercase where
  lower : Text → Text
  lower_ascii : ∀ s, (∀ c ∈ s, c.toNat < 128) → lower s = s.map Char.toLower
  lower_ascii_append : ∀ s t, (∀ c ∈ s, c.toNat < 128) → ∃ u, lower (s ++ t) = s.map Char.toLower ++ u
  lower_brace : ∀ s t, lower (s ++ '}' :: t) = lower s ++ '}' :: lower t
  brace_of_lower : ∀ t, '}' ∈ lower t → '}' ∈ t

/-- `rsplit("}", 1)[-1]`. -/
def afterBrace (t : Text) : Text := (t.reverse.takeWhile fun c => c != '}').reverse

def localName (L : Lowercase) (tag : Text) : Text :=
  if '}' ∈ tag then L.lower (afterBrace tag) else L.lower tag

def dangerousLocalNames : List Text :=
  ["script", "foreignobject", "iframe", "embed", "object", "handler", "set", "animate",
    "animatetransform", "animatemotion", "style"].map String.toList

def maxSvgDepth : ℕ := 256

/-! ### Patterns -/

/-- The letter that a letter stands for where case is ignored. -/
def foldCase (c : Char) : Char :=
  if c = 'İ' || c = 'ı' then 'i'
  else if c = 'ſ' then 's'
  else if c = '\u212a' then 'k'
  else c.toLower

def isLetter (c : Char) : Bool := 'a' ≤ foldCase c && foldCase c ≤ 'z'

/-- `str.isspace` and `\s`. -/
def isSpace (c : Char) : Bool :=
  (9 ≤ c.toNat && c.toNat ≤ 13) || (28 ≤ c.toNat && c.toNat ≤ 32) ||
    [0x85, 0xa0, 0x1680, 0x2028, 0x2029, 0x202f, 0x205f, 0x3000].contains c.toNat ||
    (0x2000 ≤ c.toNat && c.toNat ≤ 0x200a)

/-- `^on[a-z]+`. -/
def eventHandlerAttr : Text → Bool
  | a :: b :: c :: _ => foldCase a == 'o' && foldCase b == 'n' && isLetter c
  | _ => false

def isSchemeSymbol (c : Char) : Bool := isLetter c || c.isDigit || c == '+' || c == '.' || c == '-'

/-- `^[a-z][a-z0-9+.\-]*:`. -/
def hrefScheme : Text → Bool
  | c :: t => isLetter c && (t.dropWhile isSchemeSymbol).head? == some ':'
  | [] => false

/-- The text after a word. -/
def afterWord (word : String) (t : Text) : Option Text :=
  if (t.take word.length).map foldCase = word.toList then some (t.drop word.length) else none

/-- `expression\s*\(|javascript:` anywhere. -/
def unsafeStyle (t : Text) : Bool :=
  t.tails.any fun u =>
    ((afterWord "expression" u).any fun rest => (rest.dropWhile isSpace).head? == some '(') ||
      (afterWord "javascript:" u).isSome

/-- `[\x00-\x1f\x7f]`. -/
def urlIgnored (c : Char) : Bool := c.toNat < 32 || c.toNat == 127

def isSafeHref (value : Text) : Bool :=
  let stripped := normalized urlIgnored isSpace value
  if stripped = [] || stripped.head? = some '#' then true
  else if ['/', '/'].isPrefixOf stripped then false
  else !hrefScheme stripped

/-! ### Elements -/

/-- The attributes of an element, each under its own name. -/
@[ext]
structure Attrib where
  items : List (Text × Text)
  nodup : (items.map Prod.fst).Nodup

def Attrib.keys (attrib : Attrib) : List Text := attrib.items.map Prod.fst

def Attrib.get (attrib : Attrib) (attr : Text) : Text :=
  ((find Prod.fst attr attrib.items).map Prod.snd).getD []

def Attrib.del (attrib : Attrib) (attr : Text) : Attrib where
  items := remove Prod.fst attr attrib.items
  nodup := nodup_remove attrib.nodup

structure Element where
  tag : Text
  attrib : Attrib
  text : Text
  tail : Text

/-- Whether an attribute is deleted. -/
def refuses (L : Lowercase) (attr value : Text) : Bool :=
  let attrLower := L.lower attr
  let localAttr := if '}' ∈ attrLower then afterBrace attrLower else attrLower
  if eventHandlerAttr localAttr then true
  else if ["href".toList, "xlink:href".toList].contains localAttr ||
      ('}' :: "href".toList).isSuffixOf attrLower then
    !isSafeHref value
  else localAttr == "style".toList && unsafeStyle (value.filter fun c => !urlIgnored c)

/-- The loop over the keys as they were before it. -/
def sanitizeAttributes (L : Lowercase) (attrib : Attrib) : Attrib :=
  attrib.keys.foldl
    (fun attrib attr => if refuses L attr (attrib.get attr) then attrib.del attr else attrib) attrib

def isDangerous (L : Lowercase) (element : Element) : Bool :=
  dangerousLocalNames.contains (localName L element.tag)

section Loop

variable {ρ : Type*} [DecidableEq ρ] (L : Lowercase)

abbrev Stack (ρ : Type*) := List (ρ × ℕ)

/-- `elem.remove(child)`. -/
def removeChild (heap : Heap ρ Element) (elem child : ρ) : Heap ρ Element :=
  Function.update heap elem ⟨(heap elem).value, (heap elem).children.erase child⟩

/-- The loop over the children as they were before it. -/
def sanitizeChildren (heap : Heap ρ Element) (stack : Stack ρ) (elem : ρ) (depth : ℕ) :
    Heap ρ Element × Stack ρ :=
  (heap elem).children.foldl
    (fun s child =>
      if isDangerous L (s.1 child).value then (removeChild s.1 elem child, s.2)
      else (s.1, (child, depth + 1) :: s.2)) (heap, stack)

def setAttributes (heap : Heap ρ Element) (elem : ρ) : Heap ρ Element :=
  Function.update heap elem
    ⟨{ (heap elem).value with attrib := sanitizeAttributes L (heap elem).value.attrib },
      (heap elem).children⟩

/-- At most so many elements are popped; the top of the stack stands first. -/
def sanitizeElement : ℕ → Heap ρ Element → Stack ρ → Option (Except String (Heap ρ Element))
  | _, heap, [] => some (.ok heap)
  | 0, _, _ :: _ => none
  | fuel + 1, heap, (elem, depth) :: stack =>
    if maxSvgDepth < depth then some (.error s!"SVG nesting exceeds {maxSvgDepth} levels")
    else
      let s := sanitizeChildren L heap stack elem depth
      sanitizeElement fuel (setAttributes L s.1 elem) s.2

end Loop

/-! ### Documents -/

mutual

/-- A part of a document, with all the text of the elements that are left. -/
inductive PartOf : Rose Element → Rose Element → Prop
  | node {e e' : Element} {ts ts' : List (Rose Element)} :
    e'.tag = e.tag → List.Sublist e'.attrib.items e.attrib.items → e'.text = e.text → e'.tail = e.tail →
      PartsOf ts' ts → PartOf (.node e' ts') (.node e ts)

inductive PartsOf : List (Rose Element) → List (Rose Element) → Prop
  | nil : PartsOf [] []
  | drop {t : Rose Element} {ts ts' : List (Rose Element)} : PartsOf ts' ts → PartsOf ts' (t :: ts)
  | keep {t t' : Rose Element} {ts ts' : List (Rose Element)} :
    PartOf t' t → PartsOf ts' ts → PartsOf (t' :: ts') (t :: ts)

end

/-- A parser, which does not take the empty text, and a writer whose text of a part of a parsed document
is parsed as it. -/
structure ElementTree where
  fromstring : Bytes → Except String (Rose Element)
  tostring : Rose Element → Bytes
  fromstring_nil : ∀ root, fromstring [] ≠ .ok root
  round_trip : ∀ content root t, fromstring content = .ok root → PartOf t root →
    fromstring (tostring t) = .ok t

def sanitizeSvg (L : Lowercase) (et : ElementTree) (content : Bytes) : Option (Except String Bytes) :=
  if content = [] then some (.ok content)
  else
    match et.fromstring content with
    | .error exc => some (.error s!"Invalid SVG content: {exc}")
    | .ok root =>
      if isDangerous L root.value then some (.error "Disallowed root element in SVG content")
      else
        (sanitizeElement L root.size (load root) [([], 0)]).map fun
          | .error exc => .error exc
          | .ok heap => .ok (et.tostring (heap.read root.height []))

/-! ### Letters -/

theorem of_ascii {p : Char → Bool} (h : (List.range 128).all (fun n => p (Char.ofNat n)) = true)
    {c : Char} (hc : c.toNat < 128) : p c = true := by
  have hp := List.all_eq_true.mp h c.toNat (List.mem_range.mpr hc)
  rwa [Char.ofNat_toNat] at hp

theorem ascii_of_isAlphanum {c : Char} (h : c.isAlphanum = true) : c.toNat < 128 := by
  have hval : c.toNat = c.val.toNat := rfl
  unfold Char.isAlphanum Char.isAlpha Char.isUpper Char.isLower Char.isDigit at h
  simp only [Bool.or_eq_true, Bool.and_eq_true, decide_eq_true_eq, UInt32.le_iff_toNat_le,
    ge_iff_le] at h
  have h90 : ('Z'.val).toNat = 90 := rfl
  have h122 : ('z'.val).toNat = 122 := rfl
  have h57 : ('9'.val).toNat = 57 := rfl
  omega

theorem ascii_of_isSchemeChar {c : Char} (h : isSchemeChar c = true) : c.toNat < 128 := by
  unfold isSchemeChar at h
  simp only [Bool.or_eq_true, beq_iff_eq] at h
  rcases h with ((h | rfl) | rfl) | rfl
  · exact ascii_of_isAlphanum h
  all_goals decide

/-- A letter beyond ASCII is no capital of one in ASCII. -/
theorem ascii_of_toLower {c : Char} (h : c.toLower.toNat < 128) : c.toNat < 128 := by
  unfold Char.toLower at h
  split_ifs at h with hupper
  · have hval : c.toNat = c.val.toNat := rfl
    have hle := UInt32.le_iff_toNat_le.mp hupper.2
    have h90 : ('Z'.val).toNat = 90 := rfl
    omega
  · exact h

/-- What a scheme is made of is seen by every reader. -/
theorem visible_of_isSchemeChar {c : Char} (h : isSchemeChar c = true) :
    (urlIgnored c = false ∧ isSpace c = false) ∧ isSchemeSymbol c = true := by
  have hall := of_ascii
    (p := fun c => !isSchemeChar c || (!urlIgnored c && !isSpace c && isSchemeSymbol c))
    (by decide) (ascii_of_isSchemeChar h)
  simpa [h] using hall

theorem isLetter_of_isAlpha {c : Char} (h : c.isAlpha = true) :
    isLetter c = true ∧ isLetter c.toLower = true ∧ c ≠ '#' ∧ isSchemeChar c = true := by
  have hnum : c.isAlphanum = true := by
    unfold Char.isAlphanum
    rw [h, Bool.true_or]
  have hall := of_ascii
    (p := fun c => !c.isAlpha || (isLetter c && isLetter c.toLower && c != '#' && isSchemeChar c))
    (by decide) (ascii_of_isAlphanum hnum)
  simpa [h, and_assoc] using hall

/-! ### Links -/

/-- The code calls a link safe only where a browser stays, but for backslashes. -/
theorem target_of_isSafeHref {v : Text} (h : isSafeHref v = true) :
    target v = .sameOrigin ∨ (target v).Backslashed := by
  have hstart {q : Text} (hq : ∀ c ∈ q, urlIgnored c = false ∧ isSpace c = false)
      (hinput : q <+: input v) :
      q <+: normalized urlIgnored isSpace v := by
    refine prefix_normalized (fun c hc => ?_) (fun c hc => ?_) hq hinput
    · unfold isTabOrNewline at hc
      simp only [Bool.or_eq_true, beq_iff_eq] at hc
      rcases hc with (rfl | rfl) | rfl <;> rfl
    · unfold isControlOrSpace at hc
      have hc := of_decide_eq_true hc
      have hall := of_ascii (p := fun c => !decide (c.toNat ≤ 32) || (urlIgnored c || isSpace c))
        (by decide) (show c.toNat < 128 by omega)
      simpa [hc] using hall
  unfold isSafeHref at h
  dsimp only at h
  by_cases horigin : target v = .sameOrigin
  · exact Or.inl horigin
  rcases exists_start horigin with ⟨a, t, u, hinput, ha, ht⟩ | ⟨a, b, u, hinput, htarget, ha, hb⟩
  · -- a scheme
    obtain ⟨hletter, -, hhash, hsymbol⟩ := isLetter_of_isAlpha ha
    have hvisible : ∀ c ∈ a :: t ++ [':'], urlIgnored c = false ∧ isSpace c = false := by
      intro c hc
      rcases List.mem_append.mp hc with hc | hc
      · rcases List.mem_cons.mp hc with rfl | hc
        · exact (visible_of_isSchemeChar hsymbol).1
        · exact (visible_of_isSchemeChar (ht c hc)).1
      · obtain rfl := List.mem_singleton.mp hc
        decide
    obtain ⟨r, hr⟩ := hstart hvisible ⟨u, by rw [hinput]; simp⟩
    rw [← hr] at h
    have hdrop : (t ++ ':' :: r).dropWhile isSchemeSymbol = ':' :: r := by
      rw [List.dropWhile_append_of_pos fun c hc => (visible_of_isSchemeChar (ht c hc)).2]
      exact List.dropWhile_cons_of_neg (by decide)
    simp [hhash, hletter, hrefScheme, hdrop] at h
  · -- two slashes
    right
    rw [htarget]
    rintro ⟨rfl, rfl⟩
    have hvisible : ∀ c ∈ ['/', '/'], urlIgnored c = false ∧ isSpace c = false := by
      intro c hc
      obtain rfl : c = '/' := by simpa using hc
      decide
    obtain ⟨r, hr⟩ := hstart hvisible ⟨u, by rw [hinput]; rfl⟩
    rw [← hr] at h
    simp at h

/-! ### The loops -/

section

variable {L : Lowercase}

theorem sanitizeAttributes_append {attrib : Attrib} {done rest : List (Text × Text)}
    (h : attrib.items = done ++ rest) :
    ((rest.map Prod.fst).foldl
      (fun attrib attr => if refuses L attr (attrib.get attr) then attrib.del attr else attrib)
      attrib).items =
        done ++ rest.filter fun x => !refuses L x.1 x.2 := by
  induction rest generalizing attrib done with
  | nil => exact h
  | cons x rest ih =>
    have hnodup := attrib.nodup
    have hget : attrib.get x.1 = x.2 := by
      unfold Attrib.get
      rw [find_of_mem hnodup (by rw [h]; exact List.mem_append_right _ List.mem_cons_self)]
      rfl
    rw [List.map_cons, List.foldl_cons, hget, List.filter_cons]
    cases hrefuses : refuses L x.1 x.2 with
    | false =>
      rw [if_neg Bool.false_ne_true, if_pos (by rfl),
        @ih attrib (done ++ [x]) (by rw [h, List.append_assoc, List.singleton_append]),
        List.append_assoc, List.singleton_append]
    | true =>
      rw [if_pos rfl, if_neg (by decide)]
      apply ih
      -- no other attribute has the name
      rw [h, List.map_append, List.map_cons, List.nodup_append] at hnodup
      obtain ⟨-, hrest, hdisjoint⟩ := hnodup
      have hkeep (l : List (Text × Text)) (hl : ∀ y ∈ l, y.1 ≠ x.1) : remove Prod.fst x.1 l = l :=
        List.filter_eq_self.mpr fun y hy => decide_eq_true (hl y hy)
      have hdone := hkeep done fun y hy => hdisjoint y.1 (List.mem_map_of_mem hy) x.1 List.mem_cons_self
      have htail := hkeep rest fun y hy heq =>
        (List.nodup_cons.mp hrest).1 (heq ▸ List.mem_map_of_mem hy)
      unfold remove at hdone htail
      change attrib.items.filter (fun r => decide (r.1 ≠ x.1)) = done ++ rest
      rw [h, List.filter_append, List.filter_cons, hdone, htail]
      simp

/-- The attributes that are left are those that the loop does not refuse. -/
theorem items_sanitizeAttributes (attrib : Attrib) :
    (sanitizeAttributes L attrib).items = attrib.items.filter fun x => !refuses L x.1 x.2 :=
  @sanitizeAttributes_append L attrib [] attrib.items rfl

theorem sanitizeAttributes_idem (attrib : Attrib) :
    sanitizeAttributes L (sanitizeAttributes L attrib) = sanitizeAttributes L attrib := by
  apply Attrib.ext
  rw [items_sanitizeAttributes, items_sanitizeAttributes, List.filter_filter]
  simp only [Bool.and_self]

variable (L) in
def isKept (e : Element) : Bool := !isDangerous L e

variable (L) in
/-- An element after its visit. -/
def cleaned (e : Element) : Element := { e with attrib := sanitizeAttributes L e.attrib }

theorem isKept_cleaned (e : Element) : isKept L (cleaned L e) = isKept L e := rfl

theorem cleaned_cleaned (e : Element) : cleaned L (cleaned L e) = cleaned L e := by
  unfold cleaned
  rw [sanitizeAttributes_idem]

variable {ρ : Type*} [DecidableEq ρ]

/-- What the loop over the children does from a state in which some of them were kept. -/
theorem foldl_sanitizeChildren {heap : Heap ρ Element} {elem : ρ} {depth : ℕ} {kept : List ρ}
    (hkept : ∀ c ∈ kept, isDangerous L (heap c).value = false) (rest : List ρ) (stack : Stack ρ) :
    rest.foldl
        (fun s child =>
          if isDangerous L (s.1 child).value then (removeChild s.1 elem child, s.2)
          else (s.1, (child, depth + 1) :: s.2))
        (Function.update heap elem ⟨(heap elem).value, kept ++ rest⟩, stack) =
      (Function.update heap elem
          ⟨(heap elem).value, kept ++ rest.filter fun c => isKept L (heap c).value⟩,
        ((rest.filter fun c => isKept L (heap c).value).map fun c =>
          (c, depth + 1)).reverse ++ stack) := by
  induction rest generalizing kept stack with
  | nil => rfl
  | cons c rest ih =>
    have hvalue : (Function.update heap elem ⟨(heap elem).value, kept ++ c :: rest⟩ c).value =
        (heap c).value := by
      by_cases hc : c = elem
      · rw [hc, Function.update_self]
      · rw [Function.update_of_ne hc]
    rw [List.foldl_cons, List.filter_cons]
    dsimp only
    rw [hvalue]
    cases hdangerous : isDangerous L (heap c).value with
    | true =>
      have hkeep : isKept L (heap c).value = false := by
        unfold isKept
        rw [hdangerous]
        rfl
      have hnot : c ∉ kept := by
        intro hc
        rw [hkept c hc] at hdangerous
        cases hdangerous
      have hremove :
          removeChild (Function.update heap elem ⟨(heap elem).value, kept ++ c :: rest⟩) elem c =
            Function.update heap elem ⟨(heap elem).value, kept ++ rest⟩ := by
        unfold removeChild
        rw [Function.update_idem, Function.update_self]
        dsimp only
        rw [List.erase_append_right _ hnot, List.erase_cons_head]
      rw [if_pos rfl, hkeep, if_neg Bool.false_ne_true, hremove, ih hkept]
    | false =>
      have hkeep : isKept L (heap c).value = true := by
        unfold isKept
        rw [hdangerous]
        rfl
      have hall : ∀ d ∈ kept ++ [c], isDangerous L (heap d).value = false := by
        intro d hd
        rcases List.mem_append.mp hd with hd | hd
        · exact hkept d hd
        · rw [List.mem_singleton.mp hd, hdangerous]
      have ih := ih hall ((c, depth + 1) :: stack)
      simp only [List.append_assoc, List.singleton_append] at ih
      rw [if_neg Bool.false_ne_true, hkeep, if_pos rfl, ih, List.map_cons, List.reverse_cons,
        List.append_assoc, List.singleton_append]

theorem sanitizeChildren_eq (heap : Heap ρ Element) (stack : Stack ρ) (elem : ρ) (depth : ℕ) :
    sanitizeChildren L heap stack elem depth =
      (Function.update heap elem
          ⟨(heap elem).value, (heap elem).children.filter fun c => isKept L (heap c).value⟩,
        (((heap elem).children.filter fun c => isKept L (heap c).value).map fun c =>
          (c, depth + 1)).reverse ++ stack) := by
  have h := @foldl_sanitizeChildren L _ _ heap elem depth [] (fun c hc => absurd hc List.not_mem_nil)
    (heap elem).children stack
  rw [List.nil_append, Function.update_eq_self] at h
  exact h

/-- The loop of the code is a walk. -/
theorem sanitizeElement_eq (fuel : ℕ) (heap : Heap ρ Element) (stack : Stack ρ) :
    sanitizeElement L fuel heap stack =
      (walk (isKept L) (cleaned L) maxSvgDepth fuel heap stack).map fun r =>
        r.elim (.error s!"SVG nesting exceeds {maxSvgDepth} levels") .ok := by
  induction fuel generalizing heap stack with
  | zero => cases stack <;> rfl
  | succ fuel ih =>
    cases stack with
    | nil => rfl
    | cons p stack =>
      obtain ⟨elem, depth⟩ := p
      rw [sanitizeElement, walk]
      by_cases hdepth : maxSvgDepth < depth
      · rw [if_pos hdepth, if_pos hdepth]
        rfl
      · rw [if_neg hdepth, if_neg hdepth, ← ih]
        dsimp only
        rw [sanitizeChildren_eq]
        dsimp only
        unfold setAttributes
        rw [Function.update_self, Function.update_idem]
        rfl

end

end Ark.Svg
