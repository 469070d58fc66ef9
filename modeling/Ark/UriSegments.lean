import Ark.GoBytes
import Mathlib

/-!
# Segments of a path

A reader of a URL takes its path, which ends before the first `?` or `#`, splits it at the slashes,
drops the dot segments and decodes the escapes. From texts that were only joined by slashes it reads the
texts themselves exactly where none of them has anything that one of these steps looks for, since every
step that does something makes the path lighter.
-/

namespace UriSegments

open GoBytes

/-! ### Weights -/

section Weight

variable {α β γ : Type*} {l l' : List (List α)} {k : ℕ}

/-- The length of some texts, each with a separator of length `k`. -/
def weight (k : ℕ) (l : List (List α)) : ℕ := (l.map fun s => s.length + k).sum

theorem weight_cons (s : List α) (l : List (List α)) :
    weight k (s :: l) = s.length + k + weight k l := by
  unfold weight
  rw [List.map_cons, List.sum_cons]

theorem weight_intercalate (sep : List α) (h : l ≠ []) :
    weight sep.length l = (sep.intercalate l).length + sep.length := by
  induction l with
  | nil => exact absurd rfl h
  | cons s l ih =>
    cases l with
    | nil => simp [weight]
    | cons t l =>
      rw [weight_cons, ih (List.cons_ne_nil _ _), List.intercalate_cons_cons]
      simp only [List.length_append]
      omega

theorem weight_le_of_sublist (h : List.Sublist l l') : weight k l ≤ weight k l' := by
  induction h with
  | slnil => exact Nat.le_refl _
  | cons s _ ih =>
    rw [weight_cons]
    omega
  | cons_cons s _ ih =>
    rw [weight_cons, weight_cons]
    omega

theorem eq_of_sublist (hk : 0 < k) (h : List.Sublist l l') (hw : weight k l' ≤ weight k l) :
    l = l' := by
  induction h with
  | slnil => rfl
  | cons s h ih =>
    have hle := weight_le_of_sublist (k := k) h
    rw [weight_cons] at hw
    omega
  | cons_cons s h ih =>
    rw [weight_cons, weight_cons] at hw
    rw [ih (by omega)]

section

variable {f : β → List α} {g : β → List γ} {l : List β} (hle : ∀ s ∈ l, (f s).length ≤ (g s).length)
include hle

theorem weight_map_le : weight k (l.map f) ≤ weight k (l.map g) := by
  induction l with
  | nil => exact Nat.le_refl _
  | cons s l ih =>
    obtain ⟨hs, hl⟩ := List.forall_mem_cons.mp hle
    have ih := ih hl
    rw [List.map_cons, List.map_cons, weight_cons, weight_cons]
    omega

/-- Where nothing is lost, each text keeps its length. -/
theorem length_eq_of_weight (h : weight k (l.map g) ≤ weight k (l.map f)) :
    ∀ s ∈ l, (f s).length = (g s).length := by
  induction l with
  | nil => exact fun s hs => absurd hs List.not_mem_nil
  | cons s l ih =>
    obtain ⟨hs, hl⟩ := List.forall_mem_cons.mp hle
    have hrest := weight_map_le (k := k) hl
    rw [List.map_cons, List.map_cons, weight_cons, weight_cons] at h
    intro t ht
    rcases List.mem_cons.mp ht with rfl | ht
    · omega
    · exact ih hl (by omega) t ht

end

theorem intercalate_concat (sep s : List α) (h : l ≠ []) :
    sep.intercalate (l ++ [s]) = sep.intercalate l ++ sep ++ s := by
  induction l with
  | nil => exact absurd rfl h
  | cons t l ih =>
    cases l with
    | nil => simp
    | cons u l =>
      have ih := ih (List.cons_ne_nil _ _)
      rw [List.cons_append] at ih ⊢
      rw [List.cons_append, List.intercalate_cons_cons, ih, List.intercalate_cons_cons]
      simp only [List.append_assoc]

theorem map_intercalate (f : α → β) (sep : List α) (l : List (List α)) :
    (sep.intercalate l).map f = (sep.map f).intercalate (l.map (List.map f)) := by
  induction l with
  | nil => rfl
  | cons s l ih =>
    cases l with
    | nil => simp
    | cons t l =>
      rw [List.map_cons] at ih
      rw [List.intercalate_cons_cons, List.map_append, List.map_append, ih, List.map_cons, List.map_cons,
        List.intercalate_cons_cons]

end Weight

/-! ### Escapes -/

def hexValue (b : UInt8) : Option UInt8 :=
  if 48 ≤ b && b ≤ 57 then some (b - 48)
  else if 65 ≤ b && b ≤ 70 then some (b - 55)
  else if 97 ≤ b && b ≤ 102 then some (b - 87)
  else none

def percentDecode : Bytes → Bytes
  | [] => []
  | 37 :: a :: b :: t =>
    match hexValue a, hexValue b with
    | some x, some y => (16 * x + y) :: percentDecode t
    | _, _ => 37 :: percentDecode (a :: b :: t)
  | c :: t => c :: percentDecode t

/-- Decoding makes a text shorter, or there is nothing to decode. -/
theorem percentDecode_shortens (s : Bytes) :
    percentDecode s = s ∨ (percentDecode s).length < s.length := by
  fun_induction percentDecode s with
  | case1 => exact Or.inl rfl
  | case2 a b t x hx y hy ih =>
    right
    rcases ih with ih | ih
    · rw [ih]
      simp
    · simp only [List.length_cons]
      omega
  | case3 a b t hnone ih =>
    rcases ih with ih | ih
    · rw [ih]
      exact Or.inl rfl
    · right
      simp only [List.length_cons] at ih ⊢
      omega
  | case4 c t _ ih =>
    rcases ih with ih | ih
    · rw [ih]
      exact Or.inl rfl
    · right
      simp only [List.length_cons]
      omega

theorem length_percentDecode_le (s : Bytes) : (percentDecode s).length ≤ s.length := by
  rcases percentDecode_shortens s with h | h
  · rw [h]
  · omega

theorem percentDecode_eq_of_length {s : Bytes} (h : (percentDecode s).length = s.length) :
    percentDecode s = s := by
  rcases percentDecode_shortens s with heq | hlt
  · exact heq
  · omega

/-! ### Readers -/

abbrev Segment := List Char

def join (segments : List Segment) : List Char := ['/'].intercalate segments

/-- The text before the first `?` or `#`. -/
def pathOf (url : List Char) : List Char := url.takeWhile fun c => c != '?' && c != '#'

def IsDot (s : Segment) : Prop := s = ['.'] ∨ s = ['.', '.']

/-- A way to drop the dot segments, and with them others. -/
structure DotRemoval where
  remove : List Segment → List Segment
  sublist : ∀ l, List.Sublist (remove l) l
  dotless : ∀ l, ∀ s ∈ remove l, ¬IsDot s
  remove_eq_self : ∀ l, (∀ s ∈ l, ¬IsDot s) → remove l = l

/-- The segments after those that were read, the last of which stands first. -/
def removeDots : List Segment → List Segment → List Segment
  | read, [] => read.reverse
  | read, s :: rest =>
    if s = ['.'] then removeDots read rest
    else if s = ['.', '.'] then removeDots read.tail rest
    else removeDots (s :: read) rest

theorem removeDots_sublist (read rest : List Segment) :
    List.Sublist (removeDots read rest) (read.reverse ++ rest) := by
  induction rest generalizing read with
  | nil => simp [removeDots]
  | cons s rest ih =>
    unfold removeDots
    split_ifs
    · exact (ih read).trans (List.Sublist.append_left (List.sublist_cons_self s rest) _)
    · exact (ih read.tail).trans
        ((List.tail_sublist read).reverse.append (List.sublist_cons_self s rest))
    · have hs := ih (s :: read)
      rwa [List.reverse_cons, List.append_assoc, List.singleton_append] at hs

theorem dotless_removeDots (read rest : List Segment) (h : ∀ s ∈ read, ¬IsDot s) :
    ∀ s ∈ removeDots read rest, ¬IsDot s := by
  induction rest generalizing read with
  | nil => exact fun s hs => h s (List.mem_reverse.mp hs)
  | cons t rest ih =>
    unfold removeDots
    split_ifs with hone htwo
    · exact ih read h
    · exact ih read.tail fun s hs => h s (List.mem_of_mem_tail hs)
    · apply ih
      rintro s hs
      rcases List.mem_cons.mp hs with rfl | hs
      · rintro (hs | hs)
        · exact hone hs
        · exact htwo hs
      · exact h s hs

theorem removeDots_of_dotless (read rest : List Segment) (h : ∀ s ∈ rest, ¬IsDot s) :
    removeDots read rest = read.reverse ++ rest := by
  induction rest generalizing read with
  | nil => simp [removeDots]
  | cons s rest ih =>
    obtain ⟨hs, hrest⟩ := List.forall_mem_cons.mp h
    rw [removeDots, if_neg fun h => hs (Or.inl h), if_neg fun h => hs (Or.inr h), ih _ hrest]
    simp

/-- A double dot takes the segment before it away. -/
def popping : DotRemoval where
  remove := removeDots []
  sublist l := removeDots_sublist [] l
  dotless l := dotless_removeDots [] l fun _ hs => absurd hs List.not_mem_nil
  remove_eq_self l h := removeDots_of_dotless [] l h

/-- The segments that are left, an empty one where there are none. -/
def DotRemoval.kept (dots : DotRemoval) (l : List Segment) : List Segment :=
  if dots.remove l = [] then [[]] else dots.remove l

/-- The segments that a reader gets. -/
def received (dots : DotRemoval) (url : List Char) : List Bytes :=
  ((dots.kept ((pathOf url).splitOn '/')).map utf8).map percentDecode

/-- A text that no reader takes for anything else. -/
structure Plain (s : Segment) : Prop where
  slash : '/' ∉ s
  query : '?' ∉ s
  fragment : '#' ∉ s
  dot : ¬IsDot s
  escape : percentDecode (utf8 s) = utf8 s

theorem not_mem_of_mem_splitOn {c : Char} {t s : List Char} (h : s ∈ t.splitOn c) : c ∉ s := by
  induction t generalizing s with
  | nil =>
    rw [List.splitOn_nil, List.mem_singleton] at h
    rw [h]
    exact List.not_mem_nil
  | cons d t ih =>
    rw [List.splitOn_cons_eq_if_modifyHead] at h
    split_ifs at h with hd
    · rcases List.mem_cons.mp h with rfl | h
      · exact List.not_mem_nil
      · exact ih h
    · cases hsplit : t.splitOn c with
      | nil => exact absurd hsplit (List.splitOn_ne_nil c t)
      | cons u us =>
        rw [hsplit] at h ih
        rw [List.modifyHead_cons] at h
        rcases List.mem_cons.mp h with rfl | h
        · have hu := ih List.mem_cons_self
          intro hmem
          rcases List.mem_cons.mp hmem with rfl | hmem
          · exact hd BEq.rfl
          · exact hu hmem
        · exact ih (List.mem_cons_of_mem u h)

theorem utf8_append (s t : List Char) : utf8 (s ++ t) = utf8 s ++ utf8 t := List.flatMap_append

theorem utf8_join (l : List Segment) : utf8 (join l) = [47].intercalate (l.map utf8) := by
  induction l with
  | nil => rfl
  | cons s l ih =>
    cases l with
    | nil => simp [join]
    | cons t l =>
      unfold join at ih ⊢
      rw [List.intercalate_cons_cons, utf8_append, utf8_append, ih, List.map_cons (l := t :: l),
        List.map_cons, List.intercalate_cons_cons]
      rfl

theorem weight_utf8 {l : List Segment} (h : l ≠ []) :
    weight 1 (l.map utf8) = (utf8 (join l)).length + 1 := by
  rw [utf8_join]
  exact weight_intercalate [47] (by simpa using h)

theorem join_splitOn (t : List Char) : join (t.splitOn '/') = t := List.intercalate_splitOn '/'

theorem length_le_utf8 (t : List Char) : t.length ≤ (utf8 t).length := by
  induction t with
  | nil => exact Nat.le_refl _
  | cons c t ih =>
    have hc : 0 < (String.utf8EncodeChar c).length := List.length_pos_of_ne_nil String.utf8EncodeChar_ne_nil
    have hcons : utf8 (c :: t) = String.utf8EncodeChar c ++ utf8 t := List.flatMap_cons
    rw [hcons, List.length_append, List.length_cons]
    omega

/-- A path that is cut is lighter. -/
theorem pathOf_eq_of_length {t : List Char} (h : (utf8 t).length ≤ (utf8 (pathOf t)).length) :
    pathOf t = t := by
  have happ := List.takeWhile_append_dropWhile (p := fun c => c != '?' && c != '#') (l := t)
  have hlen := congrArg (fun s => (utf8 s).length) happ
  simp only [utf8_append, List.length_append] at hlen
  have hrest := length_le_utf8 (t.dropWhile fun c => c != '?' && c != '#')
  unfold pathOf at h ⊢
  have hnil : t.dropWhile (fun c => c != '?' && c != '#') = [] := List.length_eq_zero_iff.mp (by omega)
  rwa [hnil, List.append_nil] at happ

theorem pathOf_eq_self_iff {t : List Char} : pathOf t = t ↔ '?' ∉ t ∧ '#' ∉ t := by
  unfold pathOf
  rw [List.takeWhile_eq_self_iff]
  simp only [Bool.and_eq_true, bne_iff_ne]
  constructor
  · exact fun h => ⟨fun hc => (h _ hc).1 rfl, fun hc => (h _ hc).2 rfl⟩
  · rintro ⟨hquery, hfragment⟩ c hc
    exact ⟨fun h => hquery (h ▸ hc), fun h => hfragment (h ▸ hc)⟩

theorem mem_join {c : Char} (hc : c ≠ '/') {l : List Segment} : c ∈ join l ↔ ∃ s ∈ l, c ∈ s := by
  induction l with
  | nil => simp [join]
  | cons s l ih =>
    cases l with
    | nil => simp [join]
    | cons t l =>
      unfold join at ih ⊢
      rw [List.intercalate_cons_cons, List.mem_append, List.mem_append, ih]
      simp [hc]

theorem utf8_injective : Function.Injective utf8 := by
  intro s t h
  have hbytes : s.utf8Encode = t.utf8Encode := by
    unfold List.utf8Encode
    exact congrArg List.toByteArray h
  exact String.ofList_injective (String.toByteArray_inj.mp hbytes)

section Received

variable {dots : DotRemoval} {segments : List Segment}

theorem kept_of_dotless (hne : segments ≠ []) (h : ∀ s ∈ segments, ¬IsDot s) :
    dots.kept segments = segments := by
  unfold DotRemoval.kept
  rw [dots.remove_eq_self segments h, if_neg hne]

theorem weight_kept_le (hne : segments ≠ []) :
    weight 1 ((dots.kept segments).map utf8) ≤ weight 1 (segments.map utf8) := by
  unfold DotRemoval.kept
  split_ifs
  · rw [weight_utf8 hne, weight_utf8 (List.cons_ne_nil _ _)]
    exact Nat.succ_le_succ (Nat.zero_le _)
  · exact weight_le_of_sublist ((dots.sublist segments).map utf8)

theorem eq_singleton_of_weight (hne : segments ≠ []) (h : weight 1 (segments.map utf8) ≤ 1) :
    segments = [[]] := by
  cases segments with
  | nil => exact absurd rfl hne
  | cons s l =>
    have hs := length_le_utf8 s
    rw [List.map_cons, weight_cons] at h
    obtain rfl : s = [] := List.length_eq_zero_iff.mp (by omega)
    cases l with
    | nil => rfl
    | cons t l =>
      rw [List.map_cons, weight_cons] at h
      omega

/-- Segments that keep their weight are all kept. -/
theorem remove_eq_self_of_weight (hne : segments ≠ [])
    (h : weight 1 (segments.map utf8) ≤ weight 1 ((dots.kept segments).map utf8)) :
    dots.remove segments = segments := by
  unfold DotRemoval.kept at h
  split_ifs at h with hnil
  · have hone : weight 1 ([[]].map utf8) = 1 := rfl
    obtain rfl := eq_singleton_of_weight hne (hone ▸ h)
    rw [dots.remove_eq_self [[]] (by simp [IsDot])] at hnil
    cases hnil
  · have hmap := eq_of_sublist Nat.one_pos ((dots.sublist segments).map utf8) h
    have hlength := congrArg List.length hmap
    rw [List.length_map, List.length_map] at hlength
    exact (dots.sublist segments).eq_of_length hlength

theorem received_of_plain (hne : segments ≠ []) (h : ∀ s ∈ segments, Plain s) :
    received dots (join segments) = segments.map utf8 := by
  have hpath : pathOf (join segments) = join segments := by
    rw [pathOf_eq_self_iff, mem_join (by decide), mem_join (by decide)]
    constructor
    · rintro ⟨s, hs, hc⟩
      exact (h s hs).query hc
    · rintro ⟨s, hs, hc⟩
      exact (h s hs).fragment hc
  have hsplit : (join segments).splitOn '/' = segments :=
    List.splitOn_intercalate '/' (fun s hs => (h s hs).slash) hne
  rw [received, hpath, hsplit, kept_of_dotless hne fun s hs => (h s hs).dot, List.map_map]
  exact List.map_congr_left fun s hs => (h s hs).escape

/-- What is read of joined texts are the texts exactly where each of them is plain. -/
theorem received_join_iff (hne : segments ≠ []) :
    received dots (join segments) = segments.map utf8 ↔ ∀ s ∈ segments, Plain s := by
  refine ⟨fun h => ?_, received_of_plain hne⟩
  -- no step may lose weight
  have hread := congrArg (weight 1) h
  rw [weight_utf8 hne, received, List.map_map] at hread
  set l := (pathOf (join segments)).splitOn '/' with hl
  have hle (s : Segment) : ((percentDecode ∘ utf8) s).length ≤ (utf8 s).length :=
    length_percentDecode_le (utf8 s)
  have hl_ne : l ≠ [] := List.splitOn_ne_nil _ _
  have hdecode := weight_map_le (k := 1) (l := dots.kept l) fun s _ => hle s
  have hdots := @weight_kept_le dots l hl_ne
  have hcut : weight 1 (l.map utf8) = (utf8 (pathOf (join segments))).length + 1 := by
    rw [weight_utf8 (List.splitOn_ne_nil _ _), join_splitOn]
  have hstart : (utf8 (pathOf (join segments))).length ≤ (utf8 (join segments)).length :=
    ((List.takeWhile_prefix _).flatMap _).length_le
  have hpath := pathOf_eq_of_length (t := join segments) (by omega)
  have hremove := @remove_eq_self_of_weight dots l hl_ne (by omega)
  have hkept : dots.kept l = l := by
    unfold DotRemoval.kept
    rw [hremove, if_neg hl_ne]
  rw [hkept] at hread hdecode
  have hescape : ∀ s ∈ l, (percentDecode ∘ utf8) s = utf8 s := fun s hs =>
    percentDecode_eq_of_length (length_eq_of_weight (k := 1) (fun s _ => hle s) (by omega) s hs)
  rw [received, ← hl, hkept, List.map_map, List.map_congr_left hescape] at h
  obtain ⟨hquery, hfragment⟩ := pathOf_eq_self_iff.mp hpath
  rw [mem_join (by decide)] at hquery hfragment
  intro s hs
  obtain ⟨p, hp, hps⟩ := List.mem_map.mp (h ▸ List.mem_map_of_mem hs : utf8 s ∈ _)
  have hslash := not_mem_of_mem_splitOn hp
  have hdot := dots.dotless _ p (hremove.symm ▸ hp)
  have hpe := hescape p hp
  obtain rfl : p = s := utf8_injective hps
  exact ⟨hslash, fun hc => hquery ⟨p, hs, hc⟩, fun hc => hfragment ⟨p, hs, hc⟩, hdot, hpe⟩

end Received

end UriSegments
