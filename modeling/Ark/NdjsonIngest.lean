import Ark.Utf8Pieces

/-!
# The body of `POST /stream/:query_id`

The handler decodes each buffer of the body on its own and appends the chunk of every line that a
newline ends; what follows the last newline is still in the buffer when the request ends. What is
appended are the values of the lines of the text exactly when no buffer ends inside a character of a
line with a value, no line is `null`, and no value follows the last newline.
-/

namespace Ark

open Json Utf8Decoder

namespace Ndjson

/-! ### Lines -/

theorem takeLines_append (t u : Text) : takeLines (t ++ u) =
    ((takeLines t).1 ++ (takeLines ((takeLines t).2 ++ u)).1, (takeLines ((takeLines t).2 ++ u)).2) := by
  induction t with
  | nil => rfl
  | cons c t ih =>
    rw [List.cons_append, takeLines, takeLines, ih]
    by_cases hc : c = 10
    · rw [if_pos hc, if_pos hc]
      rfl
    · rw [if_neg hc, if_neg hc]
      cases hlines : takeLines t with
      | mk lines rest =>
        cases lines with
        | nil =>
          dsimp only
          rw [List.nil_append, List.nil_append, List.cons_append, takeLines, if_neg hc]
        | cons line lines => rfl

/-- No newline is left. -/
theorem takeLines_rest (t : Text) : takeLines (takeLines t).2 = ([], (takeLines t).2) := by
  induction t with
  | nil => rfl
  | cons c t ih =>
    rw [takeLines]
    split_ifs with hc
    · exact ih
    · cases hlines : takeLines t with
      | mk lines rest =>
        rw [hlines] at ih
        cases lines with
        | nil =>
          dsimp only at ih ⊢
          rw [takeLines, if_neg hc, ih]
        | cons line lines => exact ih

/-- Units other than newlines before a text. -/
def prepend (a : Text) : List Text × Text → List Text × Text
  | ([], rest) => ([], a ++ rest)
  | (line :: lines, rest) => ((a ++ line) :: lines, rest)

theorem takeLines_prepend {a : Text} (ha : ∀ c ∈ a, c ≠ 10) (t : Text) :
    takeLines (a ++ t) = prepend a (takeLines t) := by
  induction a with
  | nil =>
    rw [List.nil_append]
    cases takeLines t with
    | mk lines rest => cases lines <;> rfl
  | cons c a ih =>
    rw [List.forall_mem_cons] at ha
    rw [List.cons_append, takeLines, if_neg ha.1, ih ha.2]
    cases takeLines t with
    | mk lines rest => cases lines <;> rfl

/-- The body, buffer by buffer. -/
def ingest (queryId : String) (ttlSeconds : Option ℕ) (pieces : List (List ℕ)) : ChunkPublishing :=
  pieces.foldl ChunkPublishing.processNDJSONData (.start queryId ttlSeconds)

theorem foldl_processNDJSONData (pieces : List (List ℕ)) (s : ChunkPublishing)
    (hs : takeLines s.buffer = ([], s.buffer)) :
    (pieces.foldl ChunkPublishing.processNDJSONData s).appendChain = s.appendChain ++
      ((takeLines (s.buffer ++ pieces.flatMap bufferToString)).1.filterMap parseLine).filter
        classifies := by
  induction pieces generalizing s with
  | nil =>
    rw [List.flatMap_nil, List.append_nil, hs]
    simp
  | cons piece pieces ih =>
    rw [List.foldl_cons, ih]
    · simp only [ChunkPublishing.processNDJSONData, List.flatMap_cons]
      rw [← List.append_assoc s.buffer, takeLines_append (s.buffer ++ bufferToString piece)]
      simp only [List.filterMap_append, List.filter_append, List.append_assoc]
    · exact takeLines_rest _

/-- The chunks that the handler appends. -/
theorem appendChain_ingest (queryId : String) (ttlSeconds : Option ℕ) (pieces : List (List ℕ)) :
    (ingest queryId ttlSeconds pieces).appendChain =
      (takeLines (pieces.flatMap bufferToString)).1.filterMap fun line =>
        (parseLine line).filter classifies := by
  rw [ingest, foldl_processNDJSONData _ _ rfl]
  simp only [ChunkPublishing.start, List.nil_append, List.filter_filterMap]

/-- The values of the lines of a text, with the line that no newline ends. -/
def values (text : Text) : List Value :=
  (takeLines text).1.filterMap parseLine ++ (parseLine (takeLines text).2).toList

/-- `takeLines` on a text whose units are marked. -/
def markedLines : List (ℕ × Bool) → List (List (ℕ × Bool)) × List (ℕ × Bool)
  | [] => ([], [])
  | c :: t =>
    if c.1 = 10 then ([] :: (markedLines t).1, (markedLines t).2)
    else match markedLines t with
      | ([], rest) => ([], c :: rest)
      | (line :: lines, rest) => ((c :: line) :: lines, rest)

theorem takeLines_map_fst (text : List (ℕ × Bool)) : takeLines (text.map Prod.fst) =
    ((markedLines text).1.map (List.map Prod.fst), (markedLines text).2.map Prod.fst) := by
  induction text with
  | nil => rfl
  | cons c text ih =>
    rw [List.map_cons, takeLines, markedLines, ih]
    split_ifs with hc
    · rfl
    · cases hlines : markedLines text with
      | mk lines rest =>
        cases lines with
        | nil => rfl
        | cons line lines => rfl

/-- Each line is received from its own line. -/
theorem received_lines {text : List (ℕ × Bool)} {t : Text} (h : Received text t) :
    List.Forall₂ Received (markedLines text).1 (takeLines t).1 ∧
      Received (markedLines text).2 (takeLines t).2 := by
  induction h with
  | nil => exact ⟨.nil, .nil⟩
  | @whole text t c h ih =>
    obtain ⟨hlines, hrest⟩ := ih
    rw [markedLines, takeLines]
    by_cases hc : c = 10
    · rw [if_pos hc, if_pos hc]
      exact ⟨.cons .nil hlines, hrest⟩
    · rw [if_neg hc, if_neg hc]
      revert hlines hrest
      cases markedLines text with
      | mk lines rest =>
        cases takeLines t with
        | mk lines' rest' =>
          intro hlines hrest
          cases hlines with
          | nil => exact ⟨.nil, .whole c hrest⟩
          | cons hline hlines => exact ⟨.cons (.whole c hline) hlines, hrest⟩
  | @cut text t c k hc h ih =>
    obtain ⟨hlines, hrest⟩ := ih
    have hnot : ∀ d ∈ List.replicate (k + 2) replacement, d ≠ 10 := by
      intro d hd
      rw [List.eq_of_mem_replicate hd]
      decide
    have hc' : c ≠ 10 := by omega
    rw [markedLines, takeLines_prepend hnot, if_neg hc']
    revert hlines hrest
    cases markedLines text with
    | mk lines rest =>
      cases takeLines t with
      | mk lines' rest' =>
        intro hlines hrest
        cases hlines with
        | nil => exact ⟨.nil, .cut k hc hrest⟩
        | cons hline hlines => exact ⟨.cons (.cut k hc hline) hlines, hrest⟩

/-! ### One line -/

theorem isTrimmed_replacement : isTrimmed replacement = false := by decide

theorem isTrimmed_of_isPrintable {c : ℕ} (h : isPrintable c = true) : isTrimmed c = false := by
  simp only [isPrintable, Bool.and_eq_true, Nat.ble_eq] at h
  rw [← Bool.not_eq_true]
  intro htrimmed
  simp only [isTrimmed, Bool.or_eq_true, List.contains_eq_mem, decide_eq_true_eq, List.mem_cons,
    List.not_mem_nil, or_false, Bool.and_eq_true] at htrimmed
  omega

theorem isTrimmed_of_isSpace {c : ℕ} (h : isSpace c = true) : isTrimmed c = true := by
  simp only [isSpace, List.contains_eq_mem, decide_eq_true_eq, List.mem_cons, List.not_mem_nil,
    or_false] at h
  obtain rfl | rfl | rfl | rfl := h <;> rfl

/-- A line is its trimmed text between units that `trim` removes. -/
theorem exists_trim (t : Text) : ∃ a b, t = a ++ (trim t ++ b) ∧ (∀ c ∈ a, isTrimmed c = true) ∧
    ∀ c ∈ b, isTrimmed c = true := by
  have hback := @List.takeWhile_append_dropWhile _ isTrimmed (t.dropWhile isTrimmed).reverse
  replace hback := congrArg List.reverse hback
  rw [List.reverse_append, List.reverse_reverse] at hback
  refine ⟨t.takeWhile isTrimmed, ((t.dropWhile isTrimmed).reverse.takeWhile isTrimmed).reverse,
    ?_, ?_, fun c hc => ?_⟩
  · rw [trim, hback, List.takeWhile_append_dropWhile]
  · exact List.all_eq_true.mp List.all_takeWhile
  · exact List.all_eq_true.mp List.all_takeWhile c (List.mem_reverse.mp hc)

theorem head?_dropWhile_isTrimmed (t : Text) :
    ∀ c ∈ (t.dropWhile isTrimmed).head?, isTrimmed c = false := by
  intro c hc
  have hnot := List.head?_dropWhile_not isTrimmed t
  rw [Option.mem_def.mp hc] at hnot
  simpa using hnot

/-- A trimmed text ends with a unit that `trim` leaves. -/
theorem getLast?_trim (t : Text) : ∀ c ∈ (trim t).getLast?, isTrimmed c = false := by
  rw [trim, List.getLast?_reverse]
  exact head?_dropWhile_isTrimmed _

theorem head?_trim (t : Text) : ∀ c ∈ (trim t).head?, isTrimmed c = false := by
  obtain ⟨b, hb⟩ : ∃ b, t.dropWhile isTrimmed = trim t ++ b := by
    have hback := @List.takeWhile_append_dropWhile _ isTrimmed (t.dropWhile isTrimmed).reverse
    replace hback := congrArg List.reverse hback
    rw [List.reverse_append, List.reverse_reverse] at hback
    exact ⟨_, hback.symm⟩
  intro c hc
  refine head?_dropWhile_isTrimmed t c ?_
  rw [hb]
  exact List.mem_head?_append_of_mem_head? hc

/-- `trim` finds a text that begins and ends with other units. -/
theorem trim_append {a b y : Text} (ha : ∀ c ∈ a, isTrimmed c = true)
    (hb : ∀ c ∈ b, isTrimmed c = true) (hhead : ∀ c ∈ y.head?, isTrimmed c = false)
    (hlast : ∀ c ∈ y.getLast?, isTrimmed c = false) : trim (a ++ (y ++ b)) = y := by
  have hreverse : ∀ c ∈ b.reverse, isTrimmed c = true := fun c hc => hb c (List.mem_reverse.mp hc)
  have hfront : (y ++ b).dropWhile isTrimmed = if y = [] then [] else y ++ b := by
    cases y with
    | nil =>
      rw [List.nil_append, if_pos rfl, ← List.append_nil b, List.dropWhile_append_of_pos hb]
      rfl
    | cons c y =>
      rw [List.cons_append, List.dropWhile_cons_of_neg (by rw [hhead c rfl]; exact Bool.false_ne_true),
        if_neg (List.cons_ne_nil c y)]
  rw [trim, List.dropWhile_append_of_pos ha, hfront]
  split_ifs with hy
  · rw [hy]
    rfl
  · rw [List.reverse_append, List.dropWhile_append_of_pos hreverse]
    have hend : y.reverse.dropWhile isTrimmed = y.reverse := by
      rw [List.getLast?_eq_head?_reverse] at hlast
      cases hr : y.reverse with
      | nil => rfl
      | cons c z =>
        rw [hr] at hlast
        exact List.dropWhile_cons_of_neg (by rw [hlast c rfl]; exact Bool.false_ne_true)
    rw [hend, List.reverse_reverse]

/-- A line that has a value with replaced units had one before, and what the line with replacements
has more is in the strings. -/
theorem parseLine_replaced {t t' : Text} {v' : Value} (ht : Replaced t t')
    (h : parseLine t' = some v') :
    ∃ v, parseLine t = some v ∧ t'.length + units (strings v) = t.length + units (strings v') := by
  unfold parseLine at h
  split at h
  next => cases h
  next hne =>
    obtain ⟨a, b, hsplit, ha, hb⟩ := exists_trim t'
    have hkept : ∀ {l : Text}, (∀ c ∈ l, isTrimmed c = true) → replacement ∉ l := by
      intro l hl hmem
      have htrimmed := hl replacement hmem
      rw [isTrimmed_replacement] at htrimmed
      cases htrimmed
    rw [hsplit] at ht
    obtain ⟨u, rfl, hu⟩ := ht.append_right (hkept ha)
    obtain ⟨y, rfl, hy⟩ := hu.append_left (hkept hb)
    obtain ⟨v, hv, hlength, rest, ⟨p, c, hp, hc⟩, ⟨p', c', hp', -⟩, hspaces⟩ := parse_replaced hy h
    have hnil : rest = [] := by
      rcases List.eq_nil_or_concat' rest with hnil | ⟨q, d, rfl⟩
      · exact hnil
      · have hlast : (trim t').getLast? = some d := by
          rw [hp', ← List.cons_append, ← List.append_assoc, List.getLast?_concat]
        have hspace := getLast?_trim t' d hlast
        rw [isTrimmed_of_isSpace (hspaces d (by simp))] at hspace
        cases hspace
    have hhead : ∀ d ∈ y.head?, isTrimmed d = false := by
      rw [head?_of_parse hy h]
      exact head?_trim t'
    have hlast : ∀ d ∈ y.getLast?, isTrimmed d = false := by
      intro d hd
      rw [hp, hnil, List.getLast?_concat] at hd
      obtain rfl := Option.some.inj hd
      exact isTrimmed_of_isPrintable hc
    have htrim := trim_append ha hb hhead hlast
    refine ⟨v, ?_, ?_⟩
    · rw [parseLine, htrim, if_neg, hv]
      rintro rfl
      cases hv
    · rw [hsplit]
      simp only [List.length_append] at hlength ⊢
      omega

/-- The chunk of a received line: there is one only if the line had a value, and it is that value only
if the line is not cut and the value is not `null`. -/
theorem received_chunk {line : List (ℕ × Bool)} {t : Text} {v : Value} (h : Received line t)
    (hv : parseLine (line.map Prod.fst) = some v) :
    (parseLine t).filter classifies = some v ↔
      classifies v = true ∧ ∀ c ∈ line, c.2 = false := by
  constructor
  · intro hchunk
    obtain ⟨hparse, hclassifies⟩ := Option.filter_eq_some_iff.mp hchunk
    refine ⟨hclassifies, fun c hc => ?_⟩
    rw [← Bool.not_eq_true]
    intro hcut
    obtain ⟨w, hw, hlength⟩ := parseLine_replaced h.replaced hparse
    obtain rfl := Option.some.inj (hv.symm.trans hw)
    have hlt := h.length_lt ⟨c, hc, hcut⟩
    rw [List.length_map] at hlength
    omega
  · rintro ⟨hclassifies, hwhole⟩
    rw [h.eq_of_whole hwhole, hv, Option.filter_some, if_pos hclassifies]

theorem received_no_chunk {line : List (ℕ × Bool)} {t : Text} (h : Received line t)
    (hv : parseLine (line.map Prod.fst) = none) : (parseLine t).filter classifies = none := by
  cases hparse : parseLine t with
  | none => rfl
  | some v =>
    obtain ⟨w, hw, -⟩ := parseLine_replaced h.replaced hparse
    rw [hv] at hw
    cases hw

/-! ### All lines -/

section Lists

variable {α β γ : Type} {R : α → β → Prop} {f : α → Option γ} {g : β → Option γ} {l : List α}
  {l' : List β}

theorem length_filterMap_le (h : List.Forall₂ R l l') (hnone : ∀ a b, R a b → f a = none → g b = none) :
    (l'.filterMap g).length ≤ (l.filterMap f).length := by
  induction h with
  | nil => exact le_rfl
  | @cons a b l l' hab h ih =>
    cases hf : f a with
    | none =>
      rw [List.filterMap_cons_none hf, List.filterMap_cons_none (hnone a b hab hf)]
      exact ih
    | some x =>
      rw [List.filterMap_cons_some hf, List.length_cons]
      cases hg : g b with
      | none =>
        rw [List.filterMap_cons_none hg]
        exact Nat.le_succ_of_le ih
      | some y =>
        rw [List.filterMap_cons_some hg, List.length_cons]
        exact Nat.succ_le_succ ih

/-- What is found in the related elements is all that is expected exactly if nothing else is expected
and each element gives what its own one is expected to give. -/
theorem filterMap_eq_iff (h : List.Forall₂ R l l') (hnone : ∀ a b, R a b → f a = none → g b = none)
    {extra : List γ} : l'.filterMap g = l.filterMap f ++ extra ↔
      extra = [] ∧ List.Forall₂ (fun a b => g b = f a) l l' := by
  induction h with
  | nil => simp [eq_comm]
  | @cons a b l l' hab h ih =>
    rw [List.forall₂_cons]
    cases hf : f a with
    | none =>
      rw [List.filterMap_cons_none hf, List.filterMap_cons_none (hnone a b hab hf), ih,
        hnone a b hab hf]
      simp
    | some x =>
      rw [List.filterMap_cons_some hf]
      cases hg : g b with
      | none =>
        rw [List.filterMap_cons_none hg]
        have hle := length_filterMap_le h hnone
        constructor
        · intro heq
          have hlength := congrArg List.length heq
          rw [List.length_append, List.length_cons] at hlength
          omega
        · rintro ⟨-, heq, -⟩
          cases heq
      | some y =>
        rw [List.filterMap_cons_some hg, List.cons_append, List.cons.injEq, ih, Option.some_inj]
        constructor
        · rintro ⟨rfl, hextra, hall⟩
          exact ⟨hextra, rfl, hall⟩
        · rintro ⟨hextra, rfl, hall⟩
          exact ⟨rfl, hextra, hall⟩

theorem forall₂_iff_forall_mem {P : α → Prop} {Q : α → β → Prop} (h : List.Forall₂ R l l')
    (hQ : ∀ a b, R a b → (Q a b ↔ P a)) : List.Forall₂ Q l l' ↔ ∀ a ∈ l, P a := by
  induction h with
  | nil => simp
  | cons hab h ih => rw [List.forall₂_cons, hQ _ _ hab, ih, List.forall_mem_cons]

end Lists

/-- A line, its characters marked when a buffer ends inside them, is received with its value: it is
not cut, and its value is not `null`. -/
def Intact (line : List (ℕ × Bool)) : Prop :=
  ∀ v, parseLine (line.map Prod.fst) = some v → classifies v = true ∧ ∀ c ∈ line, c.2 = false

instance (line : List (ℕ × Bool)) : Decidable (Intact line) :=
  decidable_of_iff (((parseLine (line.map Prod.fst)).all fun v =>
    classifies v && line.all fun c => !c.2) = true) <| by
      simp [Intact, Option.all_eq_true]

/-- The condition on a text and its buffers. -/
structure Survives (text : String) (pieces : List (List ℕ)) : Prop where
  lines : ∀ line ∈ (markedLines (marked (bufferEnds 0 pieces) 0 text.toList)).1, Intact line
  rest : parseLine
    ((markedLines (marked (bufferEnds 0 pieces) 0 text.toList)).2.map Prod.fst) = none

theorem intact_iff {line : List (ℕ × Bool)} {t : Text} (h : Received line t) :
    (parseLine t).filter classifies = parseLine (line.map Prod.fst) ↔ Intact line := by
  cases hv : parseLine (line.map Prod.fst) with
  | none =>
    rw [received_no_chunk h hv, Intact, hv]
    simp
  | some v =>
    rw [received_chunk h hv, Intact, hv]
    simp

/-- However the body of a request is cut, the chunks appended are the values of the lines of its text
exactly when the condition holds; the end of the request appends nothing. -/
theorem appended_eq_values_iff (queryId : String) (ttlSeconds : Option ℕ) {text : String}
    {pieces : List (List ℕ)} (h : pieces.flatten = utf8Bytes text) :
    (ingest queryId ttlSeconds pieces).appendChain = values (text.toList.map Char.toNat) ↔
      Survives text pieces := by
  obtain ⟨hlines, -⟩ := received_lines (received_of_flatten h)
  rw [appendChain_ingest, values, ← map_fst_marked (bufferEnds 0 pieces) 0 text.toList,
    takeLines_map_fst, List.filterMap_map]
  have hintact := forall₂_iff_forall_mem hlines (P := Intact)
    (Q := fun line t => (parseLine t).filter classifies = parseLine (line.map Prod.fst))
    fun line t hline => intact_iff hline
  refine (filterMap_eq_iff hlines fun line t hline hnone => ?_).trans ?_
  · exact received_no_chunk hline hnone
  · rw [Option.toList_eq_nil_iff]
    constructor
    · rintro ⟨hrest, hall⟩
      exact ⟨hintact.mp hall, hrest⟩
    · rintro ⟨hall, hrest⟩
      exact ⟨hrest, hintact.mpr hall⟩

instance (text : String) (pieces : List (List ℕ)) : Decidable (Survives text pieces) :=
  decidable_of_iff ((∀ line ∈ (markedLines (marked (bufferEnds 0 pieces) 0 text.toList)).1,
      Intact line) ∧ (parseLine
        ((markedLines (marked (bufferEnds 0 pieces) 0 text.toList)).2.map Prod.fst)).isNone = true) <|
    ⟨fun ⟨hlines, hrest⟩ => ⟨hlines, Option.isNone_iff_eq_none.mp hrest⟩,
      fun h => ⟨h.lines, Option.isNone_iff_eq_none.mpr h.rest⟩⟩

/-- A value that is cut between two characters, and a character that is cut in a line without a
value. -/
theorem appended_eq_values_cut_in_line :
    [[91, 49], [93, 10, 226, 130], [172, 10]].flatten = utf8Bytes "[1]\n€\n" ∧
      (ingest "q" none [[91, 49], [93, 10, 226, 130], [172, 10]]).appendChain =
        values ("[1]\n€\n".toList.map Char.toNat) := by
  have hbytes : [[91, 49], [93, 10, 226, 130], [172, 10]].flatten = utf8Bytes "[1]\n€\n" := by
    decide
  exact ⟨hbytes, (appended_eq_values_iff "q" none hbytes).mpr (by decide +kernel)⟩

/-- A character cut in a string, a line that no newline ends, and `null`. -/
theorem chunks_lost :
    (∃ pieces, pieces.flatten = utf8Bytes "\"€\"\n" ∧ (ingest "q" none pieces).appendChain ≠
      values ("\"€\"\n".toList.map Char.toNat)) ∧
    (∃ pieces, pieces.flatten = utf8Bytes "1" ∧ (ingest "q" none pieces).appendChain ≠
      values ("1".toList.map Char.toNat)) ∧
    ∃ pieces, pieces.flatten = utf8Bytes "null\n" ∧ (ingest "q" none pieces).appendChain ≠
      values ("null\n".toList.map Char.toNat) := by
  refine ⟨⟨[[34, 226], [130, 172, 34, 10]], by decide, fun h => ?_⟩, ⟨[[49]], by decide, fun h => ?_⟩,
    ⟨[[110, 117, 108, 108, 10]], by decide, fun h => ?_⟩⟩
  · have hstrings := congrArg (List.map strings) h
    have hreceived : (ingest "q" none [[34, 226], [130, 172, 34, 10]]).appendChain.map strings =
        [[[65533, 65533, 65533]]] := by decide +kernel
    have hsent : (values ("\"€\"\n".toList.map Char.toNat)).map strings = [[[8364]]] := by
      decide +kernel
    rw [hreceived, hsent] at hstrings
    cases hstrings
  · have hlength := congrArg List.length h
    exact absurd hlength (by decide +kernel)
  · have hlength := congrArg List.length h
    exact absurd hlength (by decide +kernel)

end Ndjson

end Ark
