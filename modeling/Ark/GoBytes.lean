import Mathlib.Data.List.Basic
import Mathlib.Data.List.Infix
import Mathlib.Tactic.SplitIfs

/-!
# Byte slices

`bytes.TrimSpace` and the line scanner of `bufio` on slices of bytes. White space is what
`unicode.IsSpace` accepts, in its UTF-8 encoding; a slice is blank when it is a sequence of such
encodings, and those are the slices that `TrimSpace` empties. What a sender writes line by line the
scanner reads back line by line, whichever way each line ends.
-/

namespace GoBytes

abbrev Bytes := List UInt8

/-! ### White space -/

/-- The encodings of the characters that `unicode.IsSpace` accepts. -/
def spaces : List Bytes :=
  [[9], [10], [11], [12], [13], [32], [194, 133], [194, 160], [225, 154, 128], [226, 128, 128],
    [226, 128, 129], [226, 128, 130], [226, 128, 131], [226, 128, 132], [226, 128, 133],
    [226, 128, 134], [226, 128, 135], [226, 128, 136], [226, 128, 137], [226, 128, 138],
    [226, 128, 168], [226, 128, 169], [226, 128, 175], [226, 129, 159], [227, 128, 128]]

/-- The length of the first of `patterns` that `b` starts with, zero if there is none. -/
def width (patterns : List Bytes) (b : Bytes) : ℕ :=
  ((patterns.find? fun s => s.isPrefixOf b).map List.length).getD 0

/-- Drops `skip` bytes, and then patterns as long as there is one at the start. -/
def dropPatterns (patterns : List Bytes) : ℕ → Bytes → Bytes
  | _, [] => []
  | skip + 1, _ :: b => dropPatterns patterns skip b
  | 0, a :: b =>
    match width patterns (a :: b) with
    | 0 => a :: b
    | skip + 1 => dropPatterns patterns skip b

def trimLeft (b : Bytes) : Bytes := dropPatterns spaces 0 b

def trimRight (b : Bytes) : Bytes := (dropPatterns (spaces.map List.reverse) 0 b.reverse).reverse

/-- `bytes.TrimSpace`. -/
def trimSpace (b : Bytes) : Bytes := trimRight (trimLeft b)

example : trimSpace [32, 226, 128, 168, 120, 226, 128, 32, 9] = [120, 226, 128] := by decide

/-- A sequence of `patterns`. -/
inductive Composed (patterns : List Bytes) : Bytes → Prop
  | nil : Composed patterns []
  | cons {s b : Bytes} : s ∈ patterns → Composed patterns b → Composed patterns (s ++ b)

abbrev Blank (b : Bytes) : Prop := Composed spaces b

section Patterns

variable {patterns : List Bytes}

theorem Composed.append {b c : Bytes} (hb : Composed patterns b) (hc : Composed patterns c) :
    Composed patterns (b ++ c) := by
  induction hb with
  | nil => exact hc
  | cons hs _ ih =>
    rw [List.append_assoc]
    exact .cons hs ih

theorem Composed.of_mem {s : Bytes} (hs : s ∈ patterns) : Composed patterns s := by
  have h := Composed.cons hs .nil
  rwa [List.append_nil] at h

theorem Composed.of_reverse {b : Bytes} (h : Composed (patterns.map List.reverse) b) :
    Composed patterns b.reverse := by
  induction h with
  | nil => exact .nil
  | @cons s b hs _ ih =>
    obtain ⟨t, ht, rfl⟩ := List.mem_map.1 hs
    rw [List.reverse_append, List.reverse_reverse]
    exact ih.append (.of_mem ht)

theorem starts_of_find {s b : Bytes} (h : patterns.find? (fun s => s.isPrefixOf b) = some s) :
    s <+: b := by
  have hs : s.isPrefixOf b = true := List.find?_some (p := fun s : Bytes => s.isPrefixOf b) h
  exact List.isPrefixOf_iff_prefix.1 hs

theorem width_eq_zero (hne : ∀ s ∈ patterns, s ≠ []) {b : Bytes} :
    width patterns b = 0 ↔ ∀ s ∈ patterns, ¬ s <+: b := by
  cases h : patterns.find? fun s => s.isPrefixOf b with
  | none =>
    simp only [width, h, Option.map_none, Option.getD_none, true_iff]
    intro s hs hp
    exact List.find?_eq_none.1 h s hs (List.isPrefixOf_iff_prefix.2 hp)
  | some s =>
    have hs := List.mem_of_find?_eq_some h
    have hp : s <+: b := starts_of_find h
    simp only [width, h, Option.map_some, Option.getD_some, List.length_eq_zero_iff]
    exact ⟨fun h0 => absurd h0 (hne s hs), fun hall => absurd hp (hall s hs)⟩

theorem width_spec {b : Bytes} (h : width patterns b ≠ 0) :
    ∃ s ∈ patterns, s <+: b ∧ width patterns b = s.length := by
  cases hf : patterns.find? fun s => s.isPrefixOf b with
  | none => simp [width, hf] at h
  | some s =>
    exact ⟨s, List.mem_of_find?_eq_some hf, starts_of_find hf,
      by simp [width, hf]⟩

theorem dropPatterns_skip (s b : Bytes) :
    dropPatterns patterns s.length (s ++ b) = dropPatterns patterns 0 b := by
  induction s with
  | nil => rfl
  | cons a s ih => exact ih

theorem dropPatterns_of_width_eq_zero {b : Bytes} (h : width patterns b = 0) :
    dropPatterns patterns 0 b = b := by
  cases b with
  | nil => rfl
  | cons a b => simp only [dropPatterns, h]

theorem dropPatterns_of_width {s b : Bytes} (hs : s ≠ [])
    (h : width patterns (s ++ b) = s.length) :
    dropPatterns patterns 0 (s ++ b) = dropPatterns patterns 0 b := by
  cases s with
  | nil => exact absurd rfl hs
  | cons a s =>
    simp only [List.cons_append, List.length_cons] at h
    simp only [List.cons_append, dropPatterns, h]
    exact dropPatterns_skip s b

/-- What is dropped is a sequence of patterns, and no pattern is left at the start. -/
theorem dropPatterns_spec (hne : ∀ s ∈ patterns, s ≠ []) (b : Bytes) :
    ∃ p, b = p ++ dropPatterns patterns 0 b ∧ Composed patterns p ∧
      width patterns (dropPatterns patterns 0 b) = 0 := by
  generalize hn : b.length = n
  induction n using Nat.strong_induction_on generalizing b with
  | _ n ih =>
    by_cases h : width patterns b = 0
    · exact ⟨[], by rw [dropPatterns_of_width_eq_zero h, List.nil_append], .nil,
        by rwa [dropPatterns_of_width_eq_zero h]⟩
    · obtain ⟨s, hs, ⟨t, rfl⟩, hw⟩ := width_spec h
      have hlen : 0 < s.length := List.length_pos_of_ne_nil (hne s hs)
      rw [List.length_append] at hn
      obtain ⟨p, hp, hc, h0⟩ := ih t.length (by omega) t rfl
      rw [dropPatterns_of_width (hne s hs) hw]
      refine ⟨s ++ p, ?_, .cons hs hc, h0⟩
      rw [List.append_assoc, ← hp]

theorem eq_nil_of_composed (hne : ∀ s ∈ patterns, s ≠ []) {b : Bytes} (h : Composed patterns b)
    (h0 : width patterns b = 0) : b = [] := by
  cases h with
  | nil => rfl
  | cons hs _ => exact absurd (List.prefix_append _ _) ((width_eq_zero hne).1 h0 _ hs)

/-- No pattern is the start of another one. -/
def PrefixFree (patterns : List Bytes) : Prop :=
  (∀ s ∈ patterns, s ≠ []) ∧ ∀ s ∈ patterns, ∀ t ∈ patterns, s <+: t → s = t

theorem PrefixFree.width (hfree : PrefixFree patterns) {s : Bytes} (hs : s ∈ patterns)
    (b : Bytes) : width patterns (s ++ b) = s.length := by
  have h0 : GoBytes.width patterns (s ++ b) ≠ 0 := fun h =>
    (width_eq_zero hfree.1).1 h s hs (List.prefix_append s b)
  obtain ⟨t, ht, hp, hw⟩ := width_spec h0
  rw [hw]
  rcases List.prefix_or_prefix_of_prefix hp (List.prefix_append s b) with h | h
  · rw [hfree.2 t ht s hs h]
  · rw [hfree.2 s hs t ht h]

theorem PrefixFree.dropPatterns_eq_nil (hfree : PrefixFree patterns) {b : Bytes} :
    dropPatterns patterns 0 b = [] ↔ Composed patterns b := by
  constructor
  · intro h
    obtain ⟨p, hp, hc, _⟩ := dropPatterns_spec hfree.1 b
    rw [h, List.append_nil] at hp
    rwa [hp]
  · intro h
    induction h with
    | nil => rfl
    | @cons s b hs _ ih => rwa [dropPatterns_of_width (hfree.1 s hs) (hfree.width hs b)]

end Patterns

theorem prefixFree_spaces : PrefixFree spaces := by
  refine ⟨by decide, ?_⟩
  simp only [← List.isPrefixOf_iff_prefix]
  decide

theorem reversed_ne_nil : ∀ s ∈ spaces.map List.reverse, s ≠ [] := by decide

theorem trimSpace_eq_nil {b : Bytes} : trimSpace b = [] ↔ Blank b := by
  obtain ⟨p, hp, hblank, h0⟩ := dropPatterns_spec prefixFree_spaces.1 b
  constructor
  · intro h
    -- what is left on the left is blank, so a white space stands at its start
    have hrest : Blank (trimLeft b) := by
      obtain ⟨q, hq, hc, _⟩ := dropPatterns_spec reversed_ne_nil (trimLeft b).reverse
      have hnil : dropPatterns (spaces.map List.reverse) 0 (trimLeft b).reverse = [] :=
        List.reverse_eq_nil_iff.1 h
      rw [hnil, List.append_nil] at hq
      rw [← List.reverse_reverse (trimLeft b), hq]
      exact hc.of_reverse
    rw [hp]
    exact hblank.append hrest
  · intro h
    rw [trimSpace, trimLeft, prefixFree_spaces.dropPatterns_eq_nil.2 h]
    rfl

/-- A line feed parts the sequence. -/
theorem Blank.of_append_newline {b c : Bytes} (h : Blank (b ++ 10 :: c)) : Blank b ∧ Blank c := by
  generalize he : b ++ 10 :: c = d at h
  induction h generalizing b with
  | nil => simp at he
  | @cons s d hs hd ih =>
    rcases List.append_eq_append_iff.1 he with ⟨a, rfl, h2⟩ | ⟨a, rfl, h2⟩
    · cases a with
      | nil =>
        obtain ⟨hb, hc⟩ := @ih [] (by simpa using h2)
        exact ⟨by simpa using Composed.of_mem hs, hc⟩
      | cons x a =>
        simp only [List.cons_append, List.cons.injEq] at h2
        obtain ⟨rfl, rfl⟩ := h2
        have hfeed : ∀ s ∈ spaces, 10 ∈ s → s = [10] := by decide
        have h10 := hfeed _ hs (List.mem_append.2 (.inr List.mem_cons_self))
        have hb : b = [] := by
          cases b with
          | nil => rfl
          | cons y b => simp at h10
        subst hb
        have ha : a = [] := by simpa using h10
        subst ha
        exact ⟨.nil, by simpa using hd⟩
    · obtain ⟨ha, hc⟩ := @ih a h2.symm
      exact ⟨.cons hs ha, hc⟩

theorem blank_lines_iff (lines : List Bytes) :
    Blank (lines.flatMap fun line => line ++ [10]) ↔ ∀ line ∈ lines, Blank line := by
  induction lines with
  | nil =>
    simp only [List.flatMap_nil, List.not_mem_nil, false_implies, implies_true, iff_true]
    exact .nil
  | cons line lines ih =>
    rw [List.flatMap_cons, List.forall_mem_cons, ← ih]
    constructor
    · intro h
      rw [List.append_assoc, List.singleton_append] at h
      exact h.of_append_newline
    · rintro ⟨hline, hlines⟩
      exact (hline.append (.of_mem (by decide))).append hlines

/-! ### Text -/

/-- The bytes of a text. -/
def utf8 (t : List Char) : Bytes := t.flatMap String.utf8EncodeChar

theorem ofNat_eq_iff {m n : ℕ} : UInt8.ofNat m = UInt8.ofNat n ↔ m % 256 = n % 256 := by
  rw [← UInt8.toNat_inj, UInt8.toNat_ofNat', UInt8.toNat_ofNat']

theorem ascii_mem_utf8EncodeChar {n : ℕ} (hn : n < 128) (c : Char) :
    UInt8.ofNat n ∈ String.utf8EncodeChar c ↔ c.toNat = n := by
  have hc : c.toNat = c.val.toNat := rfl
  unfold String.utf8EncodeChar
  simp only [hc]
  split_ifs <;> simp only [List.mem_cons, List.not_mem_nil, or_false, ofNat_eq_iff] <;> omega

/-- An ASCII byte of a text is one of its characters. -/
theorem ascii_mem_utf8 {n : ℕ} (hn : n < 128) (t : List Char) :
    UInt8.ofNat n ∈ utf8 t ↔ Char.ofNat n ∈ t := by
  rw [utf8, List.mem_flatMap]
  constructor
  · rintro ⟨c, hc, hmem⟩
    rw [← (ascii_mem_utf8EncodeChar hn c).1 hmem, Char.ofNat_toNat]
    exact hc
  · intro hmem
    have hvalid : n.isValidChar := .inl (by omega)
    have hchar : (Char.ofNat n).toNat = n := by
      rw [Char.ofNat, dif_pos hvalid]
      rfl
    exact ⟨_, hmem, (ascii_mem_utf8EncodeChar hn _).2 hchar⟩

/-! ### Lines -/

/-- The lines of an input, each up to its line feed. -/
def splitLines : Bytes → List Bytes
  | [] => []
  | a :: b =>
    if a = 10 then [] :: splitLines b
    else match splitLines b with
      | [] => [[a]]
      | line :: lines => (a :: line) :: lines

/-- `dropCR`. -/
def dropCR (line : Bytes) : Bytes := if line.getLast? = some 13 then line.dropLast else line

/-- A line as it is sent: its text, and whether a carriage return precedes the line feed. -/
structure Line where
  text : Bytes
  crlf : Bool
  noFeed : 10 ∉ text
  noReturn : text.getLast? ≠ some 13

namespace Line

def content (l : Line) : Bytes := if l.crlf then l.text ++ [13] else l.text

theorem dropCR_content (l : Line) : dropCR l.content = l.text := by
  cases h : l.crlf
  · simp [dropCR, content, h, l.noReturn]
  · simp [dropCR, content, h]

theorem feed_notMem_content (l : Line) : 10 ∉ l.content := by
  rw [content]
  split
  · simpa using l.noFeed
  · exact l.noFeed

end Line

/-- What is sent for `lines`. -/
def sent (lines : List Line) : Bytes := lines.flatMap fun l => l.content ++ [10]

theorem splitLines_append {line : Bytes} (h : 10 ∉ line) (b : Bytes) :
    splitLines (line ++ 10 :: b) = line :: splitLines b := by
  induction line with
  | nil => simp [splitLines]
  | cons a line ih =>
    have ha : a ≠ 10 := by
      rintro rfl
      exact h List.mem_cons_self
    have hline : 10 ∉ line := fun hmem => h (List.mem_cons_of_mem a hmem)
    simp [splitLines, ha, ih hline]

theorem splitLines_sent (lines : List Line) : splitLines (sent lines) = lines.map Line.content := by
  induction lines with
  | nil => rfl
  | cons l lines ih =>
    rw [sent, List.flatMap_cons, List.append_assoc, List.singleton_append,
      splitLines_append l.feed_notMem_content, List.map_cons]
    exact congrArg (l.content :: ·) ih

end GoBytes
