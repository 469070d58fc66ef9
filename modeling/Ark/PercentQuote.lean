import Ark.GoUrl
import Ark.UriSegments

/-!
# Quoted segments

`urllib.parse.quote` with no safe characters writes a text in unreserved characters and escapes only, so
that a quoted text is one segment for every reader, which decodes it to the text. Only a dot segment is
not told apart from what it was. `unquote` decodes escapes and replaces what is no character; it undoes
`quote`, and leaves a text without escapes alone.
-/

namespace UriSegments

open GoBytes GoUrl

def quoteByte (b : UInt8) : List Char :=
  if isUnreserved b.toNat then [Char.ofNat b.toNat]
  else ['%', hexDigit (b.toNat / 16), hexDigit (b.toNat % 16)]

/-- `quote(s, safe="")`. -/
def quote (s : List Char) : List Char := (utf8 s).flatMap quoteByte

/-! ### Decoding -/

theorem percentDecode_cons {b : UInt8} (h : b ≠ 37) (t : Bytes) :
    percentDecode (b :: t) = b :: percentDecode t := by
  rw [percentDecode]
  rintro a c t' rfl
  exact absurd rfl h

def hexByte (n : ℕ) : UInt8 := UInt8.ofNat (if n < 10 then 48 + n else 55 + n)

theorem utf8_hexDigit : ∀ n < 16, String.utf8EncodeChar (hexDigit n) = [hexByte n] := by decide +kernel

theorem hexValue_hexByte : ∀ n < 16, hexValue (hexByte n) = some (UInt8.ofNat n) := by decide +kernel

theorem percentDecode_quoteByte (b : UInt8) (t : Bytes) :
    percentDecode (utf8 (quoteByte b) ++ t) = b :: percentDecode t := by
  have hb : b.toNat < 256 := b.toNat_lt
  have hback : UInt8.ofNat b.toNat = b := UInt8.ofNat_toNat
  by_cases hplain : isUnreserved b.toNat = true
  · obtain ⟨-, -, hutf8⟩ := unreserved_char b.toNat hb hplain
    have hbytes : utf8 (quoteByte b) = [b] := by
      rw [quoteByte, if_pos hplain]
      change String.utf8EncodeChar (Char.ofNat b.toNat) ++ [] = [b]
      rw [hutf8, hback, List.append_nil]
    have hpercent : b ≠ 37 := by
      rintro rfl
      exact absurd hplain (by decide)
    rw [hbytes, List.singleton_append, percentDecode_cons hpercent]
  · have hbytes : utf8 (quoteByte b) = [37, hexByte (b.toNat / 16), hexByte (b.toNat % 16)] := by
      rw [quoteByte, if_neg hplain]
      change String.utf8EncodeChar '%' ++ (String.utf8EncodeChar (hexDigit (b.toNat / 16)) ++
        (String.utf8EncodeChar (hexDigit (b.toNat % 16)) ++ [])) = _
      rw [utf8_hexDigit _ (by omega), utf8_hexDigit _ (by omega)]
      rfl
    have hsum : 16 * UInt8.ofNat (b.toNat / 16) + UInt8.ofNat (b.toNat % 16) = b := by
      have h16 : (16 : UInt8) = UInt8.ofNat 16 := rfl
      rw [h16, ← UInt8.ofNat_mul, ← UInt8.ofNat_add]
      have hdiv : 16 * (b.toNat / 16) + b.toNat % 16 = b.toNat := by omega
      rw [hdiv, hback]
    rw [hbytes]
    simp only [List.cons_append, List.nil_append, percentDecode, hexValue_hexByte _ (by omega : b.toNat / 16 < 16),
      hexValue_hexByte _ (by omega : b.toNat % 16 < 16), hsum]

/-- A quoted text is decoded to the text. -/
theorem percentDecode_quote (s : List Char) : percentDecode (utf8 (quote s)) = utf8 s := by
  have hbytes (l : Bytes) : percentDecode (utf8 (l.flatMap quoteByte)) = l := by
    induction l with
    | nil => rfl
    | cons b l ih => rw [List.flatMap_cons, utf8_append, percentDecode_quoteByte, ih]
  exact hbytes (utf8 s)

theorem quote_injective : Function.Injective quote := by
  intro s t h
  apply utf8_injective
  rw [← percentDecode_quote s, ← percentDecode_quote t, h]

/-! ### Characters -/

/-- How many bytes follow a lead byte, and the least and the greatest that may come next. -/
def continuations (b : UInt8) : ℕ × UInt8 × UInt8 :=
  if 194 ≤ b && b ≤ 223 then (1, 128, 191)
  else if b == 224 then (2, 160, 191)
  else if b == 237 then (2, 128, 159)
  else if 225 ≤ b && b ≤ 239 then (2, 128, 191)
  else if b == 240 then (3, 144, 191)
  else if b == 244 then (3, 128, 143)
  else if 241 ≤ b && b ≤ 243 then (3, 128, 191)
  else (0, 0, 0)

/-- How many bytes a text that begins with no character loses: those that a character may begin with, or
one. -/
def brokenLength : Bytes → ℕ
  | lead :: second :: rest =>
    let (n, least, greatest) := continuations lead
    if n < 2 || second < least || greatest < second then 1
    else if n = 3 && rest.head?.any (fun c => 128 ≤ c && c ≤ 191) then 3
    else 2
  | _ => 1

/-- `decode("utf-8", errors="replace")`, after some bytes that were read. -/
def decodeReplacing : ℕ → Bytes → List Char
  | _, [] => []
  | skip + 1, _ :: b => decodeReplacing skip b
  | 0, a :: b =>
    match (a :: b).toByteArray.utf8DecodeChar? 0 with
    | some c => c :: decodeReplacing (c.utf8Size - 1) b
    | none => '\ufffd' :: decodeReplacing (brokenLength (a :: b) - 1) b

example : decodeReplacing 0 [226, 130, 97, 255, 226, 130, 172] = ['\ufffd', 'a', '\ufffd', '€'] := by
  decide +kernel

theorem decodeReplacing_skip (s b : Bytes) : decodeReplacing s.length (s ++ b) = decodeReplacing 0 b := by
  induction s with
  | nil => rfl
  | cons a s ih => exact ih

theorem decodeReplacing_utf8 (t : List Char) : decodeReplacing 0 (utf8 t) = t := by
  induction t with
  | nil => rfl
  | cons c t ih =>
    have hcons : utf8 (c :: t) = String.utf8EncodeChar c ++ utf8 t := List.flatMap_cons
    rw [hcons]
    have hdecode : (String.utf8EncodeChar c ++ utf8 t).toByteArray.utf8DecodeChar? 0 = some c := by
      rw [List.toByteArray_append]
      exact ByteArray.utf8DecodeChar?_utf8EncodeChar_append
    have hsize : c.utf8Size = (String.utf8EncodeChar c).length := (String.length_utf8EncodeChar c).symm
    cases hbytes : String.utf8EncodeChar c with
    | nil => exact absurd hbytes String.utf8EncodeChar_ne_nil
    | cons a s =>
      rw [hbytes] at hdecode hsize
      rw [List.cons_append] at hdecode ⊢
      rw [decodeReplacing, hdecode]
      dsimp only
      rw [hsize, List.length_cons, Nat.add_sub_cancel, decodeReplacing_skip, ih]

/-- `urllib.parse.unquote`. -/
def unquote (s : List Char) : List Char := decodeReplacing 0 (percentDecode (utf8 s))

theorem unquote_quote (s : List Char) : unquote (quote s) = s := by
  unfold unquote
  rw [percentDecode_quote, decodeReplacing_utf8]

theorem unquote_of_plain {s : Segment} (h : Plain s) : unquote s = s := by
  unfold unquote
  rw [h.escape, decodeReplacing_utf8]

/-! ### What a quoted text is made of -/

theorem hexDigit_unreserved : ∀ n < 16, isUnreserved (hexDigit n).toNat = true := by decide

theorem ofNat_unreserved : ∀ n < 256, (Char.ofNat n).toNat = n := by decide +kernel

theorem mem_quote {c : Char} {s : List Char} (h : c ∈ quote s) : c = '%' ∨ isUnreserved c.toNat = true := by
  obtain ⟨b, -, hc⟩ := List.mem_flatMap.mp h
  have hb : b.toNat < 256 := b.toNat_lt
  unfold quoteByte at hc
  split_ifs at hc with hplain
  · obtain rfl := List.mem_singleton.mp hc
    exact .inr (by rwa [ofNat_unreserved _ hb])
  · simp only [List.mem_cons, List.not_mem_nil, or_false] at hc
    rcases hc with rfl | rfl | rfl
    · exact .inl rfl
    · exact .inr (hexDigit_unreserved _ (by omega))
    · exact .inr (hexDigit_unreserved _ (by omega))

theorem not_mem_quote {c : Char} (hpercent : c ≠ '%') (hc : isUnreserved c.toNat = false) (s : List Char) :
    c ∉ quote s := by
  intro h
  rcases mem_quote h with h | h
  · exact hpercent h
  · rw [hc] at h
    cases h

theorem mem_queryEscape {c : Char} {b : Bytes} (h : c ∈ queryEscape b) :
    c = '+' ∨ c = '%' ∨ isUnreserved c.toNat = true := by
  obtain ⟨a, -, hc⟩ := List.mem_flatMap.mp h
  have ha : a.toNat < 256 := a.toNat_lt
  unfold escapeByte at hc
  split_ifs at hc with hspace hplain
  · exact .inl (List.mem_singleton.mp hc)
  · obtain rfl := List.mem_singleton.mp hc
    exact .inr (.inr (by rwa [ofNat_unreserved _ ha]))
  · simp only [List.mem_cons, List.not_mem_nil, or_false] at hc
    rcases hc with rfl | rfl | rfl
    · exact .inr (.inl rfl)
    · exact .inr (.inr (hexDigit_unreserved _ (by omega)))
    · exact .inr (.inr (hexDigit_unreserved _ (by omega)))

theorem not_mem_queryEscape {c : Char} (hplus : c ≠ '+') (hpercent : c ≠ '%')
    (hc : isUnreserved c.toNat = false) (b : Bytes) : c ∉ queryEscape b := by
  intro h
  rcases mem_queryEscape h with h | h | h
  · exact hplus h
  · exact hpercent h
  · rw [hc] at h
    cases h

theorem quote_dots : quote ['.'] = ['.'] ∧ quote ['.', '.'] = ['.', '.'] := by decide

theorem isDot_quote {s : Segment} : IsDot (quote s) ↔ IsDot s := by
  have hone : quote s = ['.'] ↔ s = ['.'] := by
    rw [← quote_dots.1, quote_injective.eq_iff, quote_dots.1]
  have htwo : quote s = ['.', '.'] ↔ s = ['.', '.'] := by
    rw [← quote_dots.2, quote_injective.eq_iff, quote_dots.2]
  exact or_congr hone htwo

/-! ### Readers -/

/-- No reader cuts the text. -/
structure Whole (s : Segment) : Prop where
  slash : '/' ∉ s
  query : '?' ∉ s
  fragment : '#' ∉ s

theorem Plain.whole {s : Segment} (h : Plain s) : Whole s := ⟨h.slash, h.query, h.fragment⟩

theorem whole_quote (s : Segment) : Whole (quote s) where
  slash := not_mem_quote (by decide) (by decide) s
  query := not_mem_quote (by decide) (by decide) s
  fragment := not_mem_quote (by decide) (by decide) s

theorem received_join {dots : DotRemoval} {segments : List Segment} (hne : segments ≠ [])
    (h : ∀ s ∈ segments, Whole s) :
    received dots (join segments) = ((dots.kept segments).map utf8).map percentDecode := by
  have hpath : pathOf (join segments) = join segments := by
    rw [pathOf_eq_self_iff, mem_join (by decide), mem_join (by decide)]
    constructor
    · rintro ⟨s, hs, hc⟩
      exact (h s hs).query hc
    · rintro ⟨s, hs, hc⟩
      exact (h s hs).fragment hc
  have hsplit : (join segments).splitOn '/' = segments :=
    List.splitOn_intercalate '/' (fun s hs => (h s hs).slash) hne
  rw [received, hpath, hsplit]

theorem pathOf_append_query {path : List Char} (h : '?' ∉ path ∧ '#' ∉ path) (query : List Char) :
    pathOf (path ++ '?' :: query) = path := by
  have hself : pathOf path = path := pathOf_eq_self_iff.mpr h
  unfold pathOf at hself ⊢
  rw [List.takeWhile_append_of_pos (List.takeWhile_eq_self_iff.mp hself)]
  simp

theorem removeDots_of_single (read rest : List Segment) (h : ∀ s ∈ rest, s ≠ ['.', '.']) :
    removeDots read rest = read.reverse ++ rest.filter (· ≠ ['.']) := by
  induction rest generalizing read with
  | nil => simp [removeDots]
  | cons s rest ih =>
    obtain ⟨hs, hrest⟩ := List.forall_mem_cons.mp h
    by_cases hdot : s = ['.']
    · rw [removeDots, if_pos hdot, ih read hrest, List.filter_cons_of_neg (by simpa using hdot)]
    · rw [removeDots, if_neg hdot, if_neg hs, ih _ hrest, List.filter_cons_of_pos (by simpa using hdot)]
      simp

end UriSegments
