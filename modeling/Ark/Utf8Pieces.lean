import Ark.ChunkPublishing
import Ark.JsonReplacement

/-!
# A text decoded in pieces

The bytes of a text arrive in buffers, and each buffer is decoded on its own. A code point is read
back if no buffer ends inside it. Otherwise the buffer with its first bytes ends in a replacement
character, and each byte that follows is replaced by one more.
-/

namespace Ark

open Json

namespace Utf8Decoder

/-! ### Code points -/

/-- The bytes that complete a code point in a decoder. -/
inductive Completes : Utf8Decoder → List ℕ → ℕ → Prop
  | last {d : Utf8Decoder} {b c : ℕ} (h : d.next b = ([c], idle)) : Completes d [b] c
  | more {d : Utf8Decoder} {b c : ℕ} {bytes : List ℕ} (hnext : (d.next b).1 = [])
      (hneeded : (d.next b).2.needed ≠ 0) (h : Completes (d.next b).2 bytes c) :
      Completes d (b :: bytes) c

/-- A byte that does not begin a code point. -/
def Continues (b : ℕ) : Prop := 128 ≤ b ∧ b ≤ 191

theorem next_of_needed {d : Utf8Decoder} {b : ℕ} (hneeded : d.needed ≠ 0)
    (hb : d.lower ≤ b ∧ b ≤ d.upper) : d.next b =
      if d.needed = 1 then ([64 * d.codePoint + (b - 128)], idle)
      else ([], ⟨d.needed - 1, 128, 191, 64 * d.codePoint + (b - 128)⟩) := by
  rw [next, if_neg hneeded, if_pos hb]

/-- The last byte of a code point. -/
theorem completes_last {lower upper codePoint b : ℕ} (hb : lower ≤ b ∧ b ≤ upper) :
    Completes ⟨1, lower, upper, codePoint⟩ [b] (64 * codePoint + (b - 128)) :=
  .last (by rw [next_of_needed Nat.one_ne_zero hb, if_pos rfl])

/-- A byte after which others are missing. -/
theorem completes_more {needed lower upper codePoint b c : ℕ} {bytes : List ℕ}
    (hb : lower ≤ b ∧ b ≤ upper)
    (h : Completes ⟨needed + 1, 128, 191, 64 * codePoint + (b - 128)⟩ bytes c) :
    Completes ⟨needed + 2, lower, upper, codePoint⟩ (b :: bytes) c := by
  have hnext : next ⟨needed + 2, lower, upper, codePoint⟩ b =
      ([], ⟨needed + 1, 128, 191, 64 * codePoint + (b - 128)⟩) := by
    rw [next_of_needed (Nat.succ_ne_zero _) hb]
    exact if_neg (by dsimp only; omega)
  refine .more ?_ ?_ ?_
  · rw [hnext]
  · rw [hnext]
    exact Nat.succ_ne_zero _
  · rwa [hnext]

/-- The first byte of a code point. -/
theorem completes_first {b c : ℕ} {bytes : List ℕ} {d : Utf8Decoder} (hb : first b = ([], d))
    (hd : d.needed ≠ 0) (h : Completes d bytes c) : Completes idle (b :: bytes) c := by
  have hnext : idle.next b = ([], d) := hb
  refine .more ?_ ?_ ?_
  · rw [hnext]
  · rwa [hnext]
  · rwa [hnext]

theorem first_two {b : ℕ} (hb : 194 ≤ b ∧ b < 224) : first b = ([], ⟨1, 128, 191, b - 192⟩) := by
  rw [first, if_neg (by omega), if_neg (by omega), if_pos hb.2]

theorem first_three {b : ℕ} (hb : 224 ≤ b ∧ b < 240) : first b =
    ([], ⟨2, if b = 224 then 160 else 128, if b = 237 then 159 else 191, b - 224⟩) := by
  rw [first, if_neg (by omega), if_neg (by omega), if_neg (by omega), if_pos hb.2]

theorem first_four {b : ℕ} (hb : 240 ≤ b ∧ b ≤ 244) : first b =
    ([], ⟨3, if b = 240 then 144 else 128, if b = 244 then 143 else 191, b - 240⟩) := by
  rw [first, if_neg (by omega), if_neg (by omega), if_neg (by omega), if_neg (by omega)]

/-- The bytes of a character complete it, and only the first one begins a code point. -/
theorem completes_char (c : Char) : ∃ b bytes,
    (String.utf8EncodeChar c).map UInt8.toNat = b :: bytes ∧ Completes idle (b :: bytes) c.toNat ∧
      (∀ x ∈ bytes, Continues x) ∧ (bytes ≠ [] → 128 ≤ c.toNat) := by
  have hc : c.toNat = c.val.toNat := rfl
  have hvalid : c.val.toNat < 55296 ∨ 57343 < c.val.toNat ∧ c.val.toNat < 1114112 := c.valid
  unfold String.utf8EncodeChar
  simp only [hc]
  obtain ⟨v, hv⟩ : ∃ v, v = c.val.toNat := ⟨_, rfl⟩
  rw [← hv] at hvalid ⊢
  split_ifs with h1 h2 h3
  all_goals simp only [List.map_cons, List.map_nil, UInt8.toNat_ofNat']
  · refine ⟨_, [], rfl, .last ?_, fun x hx => absurd hx List.not_mem_nil, fun h => absurd rfl h⟩
    have hascii : v % 2 ^ 8 < 128 := by omega
    have hsame : v % 2 ^ 8 = v := by omega
    refine (if_pos hascii).trans ?_
    rw [hsame]
  · have hlast := @completes_last 128 191 (v / 64 % 32 + 192 - 192) (v % 64 + 128) (by omega)
    have hall := completes_first (first_two (b := v / 64 % 32 + 192) (by omega)) Nat.one_ne_zero hlast
    refine ⟨_, _, rfl, ?_, ?_, fun _ => by omega⟩
    · rw [Nat.mod_eq_of_lt (show v / 64 % 32 + 192 < 2 ^ 8 by omega),
        Nat.mod_eq_of_lt (show v % 64 + 128 < 2 ^ 8 by omega)]
      convert hall using 1
      omega
    · intro x hx
      rw [List.mem_singleton.mp hx]
      exact ⟨by omega, by omega⟩
  · have hlast := @completes_last 128 191
      (64 * (v / 4096 % 16 + 224 - 224) + (v / 64 % 64 + 128 - 128)) (v % 64 + 128) (by omega)
    have hsecond : (if v / 4096 % 16 + 224 = 224 then 160 else 128) ≤ v / 64 % 64 + 128 ∧
        v / 64 % 64 + 128 ≤ if v / 4096 % 16 + 224 = 237 then 159 else 191 := by
      split_ifs <;> omega
    have hall := completes_first (first_three (b := v / 4096 % 16 + 224) (by omega))
      (Nat.succ_ne_zero 1) (completes_more hsecond hlast)
    refine ⟨_, _, rfl, ?_, ?_, fun _ => by omega⟩
    · rw [Nat.mod_eq_of_lt (show v / 4096 % 16 + 224 < 2 ^ 8 by omega),
        Nat.mod_eq_of_lt (show v / 64 % 64 + 128 < 2 ^ 8 by omega),
        Nat.mod_eq_of_lt (show v % 64 + 128 < 2 ^ 8 by omega)]
      convert hall using 1
      omega
    · intro x hx
      simp only [List.mem_cons, List.not_mem_nil, or_false] at hx
      exact ⟨by omega, by omega⟩
  · have hlast := @completes_last 128 191
      (64 * (64 * (v / 262144 % 8 + 240 - 240) + (v / 4096 % 64 + 128 - 128)) +
        (v / 64 % 64 + 128 - 128)) (v % 64 + 128) (by omega)
    have hsecond : (if v / 262144 % 8 + 240 = 240 then 144 else 128) ≤ v / 4096 % 64 + 128 ∧
        v / 4096 % 64 + 128 ≤ if v / 262144 % 8 + 240 = 244 then 143 else 191 := by
      split_ifs <;> omega
    have hthird : 128 ≤ v / 64 % 64 + 128 ∧ v / 64 % 64 + 128 ≤ 191 := by omega
    have hall := completes_first (first_four (b := v / 262144 % 8 + 240) (by omega))
      (Nat.succ_ne_zero 2) (completes_more hsecond (completes_more hthird hlast))
    refine ⟨_, _, rfl, ?_, ?_, fun _ => by omega⟩
    · rw [Nat.mod_eq_of_lt (show v / 262144 % 8 + 240 < 2 ^ 8 by omega),
        Nat.mod_eq_of_lt (show v / 4096 % 64 + 128 < 2 ^ 8 by omega),
        Nat.mod_eq_of_lt (show v / 64 % 64 + 128 < 2 ^ 8 by omega),
        Nat.mod_eq_of_lt (show v % 64 + 128 < 2 ^ 8 by omega)]
      convert hall using 1
      omega
    · intro x hx
      simp only [List.mem_cons, List.not_mem_nil, or_false] at hx
      exact ⟨by omega, by omega⟩

/-! ### Buffers as events -/

/-- A byte, or the end of a buffer. -/
def events (pieces : List (List ℕ)) : List (Option ℕ) :=
  pieces.flatMap fun piece => piece.map some ++ [none]

/-- The text that a sequence of bytes and ends is decoded to. -/
def run (d : Utf8Decoder) : List (Option ℕ) → Text
  | [] => []
  | some b :: es => (d.next b).1 ++ run (d.next b).2 es
  | none :: es => (if d.needed = 0 then [] else [replacement]) ++ run idle es

theorem run_piece (d : Utf8Decoder) (piece : List ℕ) (es : List (Option ℕ)) :
    run d (piece.map some ++ none :: es) = d.decode piece ++ run idle es := by
  induction piece generalizing d with
  | nil => rfl
  | cons b piece ih =>
    rw [List.map_cons, List.cons_append, run, ih, decode, List.append_assoc]

theorem run_events (pieces : List (List ℕ)) :
    run idle (events pieces) = pieces.flatMap bufferToString := by
  induction pieces with
  | nil => rfl
  | cons piece pieces ih =>
    have hsplit : events (piece :: pieces) = piece.map some ++ none :: events pieces := by
      simp [events]
    rw [hsplit, run_piece, ih, List.flatMap_cons, bufferToString]

theorem bytes_events (pieces : List (List ℕ)) : (events pieces).filterMap id = pieces.flatten := by
  induction pieces with
  | nil => rfl
  | cons piece pieces ih =>
    have hsplit : events (piece :: pieces) = piece.map some ++ none :: events pieces := by
      simp [events]
    rw [hsplit, List.filterMap_append, List.filterMap_cons_none rfl, ih, List.filterMap_map]
    simp

/-- The offsets of the ends, counted from `o`. -/
def endsFrom (o : ℕ) : List (Option ℕ) → List ℕ
  | [] => []
  | some _ :: es => endsFrom (o + 1) es
  | none :: es => o :: endsFrom o es

/-- Events that begin with bytes, possibly with ends in between: what follows the bytes. -/
structure After (o n : ℕ) (es rest : List (Option ℕ)) (bytes : List ℕ) : Prop where
  bytes : rest.filterMap id = bytes
  ends : ∀ e, o + n < e → (e ∈ endsFrom o es ↔ e ∈ endsFrom (o + n) rest)

theorem After.cons_end {o n : ℕ} {es rest : List (Option ℕ)} {bytes : List ℕ}
    (h : After o n es rest bytes) : After o n (none :: es) rest bytes := by
  refine ⟨h.bytes, fun e he => ?_⟩
  rw [← h.ends e he, endsFrom, List.mem_cons]
  exact ⟨fun hor => hor.resolve_left (by omega), .inr⟩

theorem After.cons_byte {o n b : ℕ} {es rest : List (Option ℕ)} {bytes : List ℕ}
    (h : After (o + 1) n es rest bytes) : After o (n + 1) (some b :: es) rest bytes := by
  refine ⟨h.bytes, fun e he => ?_⟩
  have hends := h.ends e (by omega)
  rw [show o + 1 + n = o + (n + 1) by omega] at hends
  exact hends

/-- Bytes that continue nothing are replaced one by one. -/
theorem run_continuations {es : List (Option ℕ)} {bytes rest : List ℕ} {o : ℕ}
    (hbytes : ∀ b ∈ bytes, Continues b) (h : es.filterMap id = bytes ++ rest) :
    ∃ es', After o bytes.length es es' rest ∧
      run idle es = List.replicate bytes.length replacement ++ run idle es' := by
  induction es generalizing bytes o with
  | nil =>
    obtain ⟨rfl, rfl⟩ := List.append_eq_nil_iff.mp h.symm
    exact ⟨[], ⟨rfl, fun e _ => Iff.rfl⟩, rfl⟩
  | cons x es ih =>
    cases x with
    | none =>
      obtain ⟨es', hafter, hrun⟩ := ih (o := o) hbytes h
      exact ⟨es', hafter.cons_end, hrun⟩
    | some b =>
      cases bytes with
      | nil => exact ⟨some b :: es, ⟨h, fun e _ => Iff.rfl⟩, rfl⟩
      | cons b' bytes =>
        rw [List.filterMap_cons_some (by rfl), List.cons_append] at h
        obtain ⟨rfl, htail⟩ := List.cons.inj h
        obtain ⟨hb, hrest⟩ := List.forall_mem_cons.mp hbytes
        obtain ⟨es', hafter, hrun⟩ := ih (o := o + 1) hrest htail
        have hnext : idle.next b = ([replacement], idle) := by
          have hlow := hb.1
          have hhigh := hb.2
          change first b = _
          rw [first, if_neg (by omega), if_pos (by omega)]
          rfl
        refine ⟨es', hafter.cons_byte, ?_⟩
        rw [run, hnext, hrun, List.length_cons, List.replicate_succ, List.singleton_append,
          List.cons_append]

theorem le_of_mem_endsFrom {e o : ℕ} {es : List (Option ℕ)} (h : e ∈ endsFrom o es) : o ≤ e := by
  induction es generalizing o with
  | nil => cases h
  | cons x es ih =>
    cases x with
    | some b => exact Nat.le_of_succ_le (ih h)
    | none =>
      obtain rfl | h := List.mem_cons.mp h
      · exact le_rfl
      · exact ih h

/-- The rest of a code point: either no buffer ends in it and it is read, or a buffer does and there
are at least two replacement characters. -/
theorem run_completes {d : Utf8Decoder} {es : List (Option ℕ)} {bytes rest : List ℕ} {c o : ℕ}
    (hd : d.needed ≠ 0) (hc : Completes d bytes c) (hbytes : ∀ b ∈ bytes, Continues b)
    (h : es.filterMap id = bytes ++ rest) :
    ∃ es', After o bytes.length es es' rest ∧
      if ∃ e ∈ endsFrom o es, e < o + bytes.length then
        ∃ k, run d es = List.replicate (k + 2) replacement ++ run idle es'
      else run d es = c :: run idle es' := by
  induction es generalizing d bytes o with
  | nil =>
    obtain ⟨rfl, rfl⟩ := List.append_eq_nil_iff.mp h.symm
    cases hc
  | cons x es ih =>
    cases x with
    | none =>
      obtain ⟨es', hafter, hrun⟩ := @run_continuations es bytes rest o hbytes h
      have hlength : ∃ k, bytes.length = k + 1 := by
        cases hc with
        | last _ => exact ⟨0, rfl⟩
        | more _ _ _ => exact ⟨_, rfl⟩
      obtain ⟨k, hk⟩ := hlength
      refine ⟨es', hafter.cons_end, ?_⟩
      rw [if_pos ⟨o, List.mem_cons_self, by omega⟩]
      refine ⟨k, ?_⟩
      rw [run, if_neg hd, hrun, hk, List.replicate_succ (n := k + 1), List.singleton_append,
        List.cons_append]
    | some b =>
      cases hc with
      | @last _ b' c hnext =>
        rw [List.filterMap_cons_some (by rfl), List.singleton_append] at h
        obtain ⟨rfl, htail⟩ := List.cons.inj h
        refine ⟨es, ⟨htail, fun e _ => Iff.rfl⟩, ?_⟩
        rw [if_neg]
        · rw [run, hnext, List.singleton_append]
        · rintro ⟨e, he, hlt⟩
          have hle := le_of_mem_endsFrom (o := o + 1) he
          rw [List.length_singleton] at hlt
          omega
      | @more _ b' c bytes hnext hneeded hc =>
        rw [List.filterMap_cons_some (by rfl), List.cons_append] at h
        obtain ⟨rfl, htail⟩ := List.cons.inj h
        obtain ⟨es', hafter, hrun⟩ := ih (o := o + 1) hneeded hc
          (List.forall_mem_cons.mp hbytes).2 htail
        refine ⟨es', hafter.cons_byte, ?_⟩
        have hlength : o + (bytes.length + 1) = o + 1 + bytes.length := by omega
        rw [List.length_cons, hlength, run, hnext, List.nil_append]
        exact hrun

/-- A character: either no buffer ends in it and it is read, or a buffer does and there are at least
two replacement characters. -/
theorem run_char {es : List (Option ℕ)} {rest : List ℕ} {o : ℕ} (c : Char)
    (h : es.filterMap id = (String.utf8EncodeChar c).map UInt8.toNat ++ rest) :
    ∃ es', After o c.utf8Size es es' rest ∧
      if ∃ e ∈ endsFrom o es, o < e ∧ e < o + c.utf8Size then
        128 ≤ c.toNat ∧ ∃ k, run idle es = List.replicate (k + 2) replacement ++ run idle es'
      else run idle es = c.toNat :: run idle es' := by
  induction es with
  | nil =>
    obtain ⟨b, bytes, hbytes, -⟩ := completes_char c
    rw [hbytes] at h
    cases h
  | cons x es ih =>
    cases x with
    | none =>
      obtain ⟨es', hafter, hrun⟩ := ih h
      refine ⟨es', hafter.cons_end, ?_⟩
      have hsame : (∃ e ∈ endsFrom o (none :: es), o < e ∧ e < o + c.utf8Size) ↔
          ∃ e ∈ endsFrom o es, o < e ∧ e < o + c.utf8Size := by
        constructor
        · rintro ⟨e, he, hlt⟩
          obtain rfl | he := List.mem_cons.mp he
          · omega
          · exact ⟨e, he, hlt⟩
        · rintro ⟨e, he, hlt⟩
          exact ⟨e, List.mem_cons_of_mem o he, hlt⟩
      simp only [hsame]
      exact hrun
    | some b =>
      obtain ⟨b', bytes, hbytes, hc, hcontinues, hwide⟩ := completes_char c
      have hsize : c.utf8Size = bytes.length + 1 := by
        rw [← String.length_utf8EncodeChar, ← List.length_map (f := UInt8.toNat), hbytes,
          List.length_cons]
      rw [hbytes, List.filterMap_cons_some (by rfl), List.cons_append] at h
      obtain ⟨rfl, htail⟩ := List.cons.inj h
      rw [hsize]
      cases hc with
      | last hnext =>
        refine ⟨es, After.cons_byte (n := 0) ⟨htail, fun e _ => Iff.rfl⟩, ?_⟩
        rw [if_neg]
        · rw [run, hnext, List.singleton_append]
        · rintro ⟨e, -, hlow, hhigh⟩
          rw [List.length_nil] at hhigh
          omega
      | more hnext hneeded hc =>
        obtain ⟨es', hafter, hrun⟩ := run_completes (o := o + 1) hneeded hc hcontinues htail
        refine ⟨es', hafter.cons_byte, ?_⟩
        have hsame : (∃ e ∈ endsFrom o (some b :: es), o < e ∧ e < o + (bytes.length + 1)) ↔
            ∃ e ∈ endsFrom (o + 1) es, e < o + 1 + bytes.length := by
          constructor
          · rintro ⟨e, he, -, hlt⟩
            exact ⟨e, he, by omega⟩
          · rintro ⟨e, he, hlt⟩
            exact ⟨e, he, le_of_mem_endsFrom (o := o + 1) he, by omega⟩
        have hne : bytes ≠ [] := by
          rintro rfl
          cases hc
        simp only [hsame]
        rw [run, hnext, List.nil_append]
        split_ifs with hcut
        · rw [if_pos hcut] at hrun
          exact ⟨hwide hne, hrun⟩
        · rwa [if_neg hcut] at hrun

/-! ### Texts -/

/-- The offsets at which buffers end. -/
def bufferEnds (o : ℕ) : List (List ℕ) → List ℕ
  | [] => []
  | piece :: pieces => (o + piece.length) :: bufferEnds (o + piece.length) pieces

/-- The code points of a text that begins at the offset `o`, each with whether a buffer ends inside
it. -/
def marked (ends : List ℕ) (o : ℕ) : List Char → List (ℕ × Bool)
  | [] => []
  | c :: t => (c.toNat, decide (∃ e ∈ ends, o < e ∧ e < o + c.utf8Size)) ::
      marked ends (o + c.utf8Size) t

theorem map_fst_marked (ends : List ℕ) (o : ℕ) (t : List Char) :
    (marked ends o t).map Prod.fst = t.map Char.toNat := by
  induction t generalizing o with
  | nil => rfl
  | cons c t ih => rw [marked, List.map_cons, ih, List.map_cons]

/-- What a text is received as: each code point that is cut is replaced. -/
inductive Received : List (ℕ × Bool) → Text → Prop
  | nil : Received [] []
  | whole {text : List (ℕ × Bool)} {t : Text} (c : ℕ) (h : Received text t) :
      Received ((c, false) :: text) (c :: t)
  | cut {text : List (ℕ × Bool)} {t : Text} {c : ℕ} (k : ℕ) (hc : 128 ≤ c)
      (h : Received text t) :
      Received ((c, true) :: text) (List.replicate (k + 2) replacement ++ t)

theorem endsFrom_append (piece : List ℕ) (o : ℕ) (es : List (Option ℕ)) :
    endsFrom o (piece.map some ++ es) = endsFrom (o + piece.length) es := by
  induction piece generalizing o with
  | nil => rfl
  | cons b piece ih =>
    rw [List.map_cons, List.cons_append, endsFrom, ih, List.length_cons, Nat.add_right_comm,
      Nat.add_assoc]

theorem endsFrom_events (o : ℕ) (pieces : List (List ℕ)) :
    endsFrom o (events pieces) = bufferEnds o pieces := by
  induction pieces generalizing o with
  | nil => rfl
  | cons piece pieces ih =>
    have hsplit : events (piece :: pieces) = piece.map some ++ none :: events pieces := by
      simp [events]
    rw [hsplit, endsFrom_append, endsFrom, ih, bufferEnds]

/-- The induction is on the text; the events that are left tell which buffers end further on. -/
theorem received_run {t : List Char} {es : List (Option ℕ)} {ends : List ℕ} {o : ℕ}
    (hbytes : es.filterMap id = t.flatMap fun c => (String.utf8EncodeChar c).map UInt8.toNat)
    (hends : ∀ e, o < e → (e ∈ ends ↔ e ∈ endsFrom o es)) :
    Received (marked ends o t) (run idle es) := by
  induction t generalizing es o with
  | nil =>
    have hrun : run idle es = [] := by
      clear hends
      induction es with
      | nil => rfl
      | cons x es ih =>
        cases x with
        | none => exact ih hbytes
        | some b => cases hbytes
    rw [hrun]
    exact .nil
  | cons c t ih =>
    obtain ⟨es', hafter, hrun⟩ := run_char (o := o) c hbytes
    have hrest := ih (o := o + c.utf8Size) hafter.bytes fun e he => by
      rw [hends e (by omega), hafter.ends e he]
    have hsame : (∃ e ∈ ends, o < e ∧ e < o + c.utf8Size) ↔
        ∃ e ∈ endsFrom o es, o < e ∧ e < o + c.utf8Size := by
      refine exists_congr fun e => ?_
      constructor
      · rintro ⟨he, hlow, hhigh⟩
        exact ⟨(hends e hlow).mp he, hlow, hhigh⟩
      · rintro ⟨he, hlow, hhigh⟩
        exact ⟨(hends e hlow).mpr he, hlow, hhigh⟩
    rw [marked]
    simp only [hsame]
    split_ifs at hrun with hcut
    · obtain ⟨hc, k, hrun⟩ := hrun
      rw [hrun, decide_eq_true hcut]
      exact .cut k hc hrest
    · rw [hrun, decide_eq_false hcut]
      exact .whole c.toNat hrest

/-- A text that arrives in buffers is received with the code points replaced in which a buffer
ends. -/
theorem received_of_flatten {text : String} {pieces : List (List ℕ)}
    (h : pieces.flatten = utf8Bytes text) :
    Received (marked (bufferEnds 0 pieces) 0 text.toList) (pieces.flatMap bufferToString) := by
  rw [← run_events]
  refine received_run ?_ fun e _ => ?_
  · rw [bytes_events, h, utf8Bytes]
  · rw [endsFrom_events]

namespace Received

variable {text : List (ℕ × Bool)} {t : Text}

theorem replaced_replicate {c : ℕ} {t t' : Text} (hc : 128 ≤ c) (h : Replaced t t') (k : ℕ) :
    Replaced (c :: t) (List.replicate (k + 1) replacement ++ t') := by
  induction k with
  | zero => exact .replace hc h
  | succ k ih => exact .again hc ih

theorem replaced (h : Received text t) : Replaced (text.map Prod.fst) t := by
  induction h with
  | nil => exact .nil
  | whole c h ih => exact .keep c ih
  | cut k hc h ih => exact replaced_replicate hc ih (k + 1)

/-- Only a text that is cut grows. -/
theorem length_lt (h : Received text t) (hcut : ∃ c ∈ text, c.2 = true) :
    text.length < t.length := by
  induction h with
  | nil =>
    obtain ⟨c, hc, -⟩ := hcut
    cases hc
  | @whole text t c h ih =>
    obtain ⟨d, hd, hcut⟩ := hcut
    obtain rfl | hd := List.mem_cons.mp hd
    · cases hcut
    · exact Nat.succ_lt_succ (ih ⟨d, hd, hcut⟩)
  | @cut text t c k hc h ih =>
    have hle := h.replaced.length_le
    rw [List.length_map] at hle
    rw [List.length_cons, List.length_append, List.length_replicate]
    omega

theorem eq_of_whole (h : Received text t) (hwhole : ∀ c ∈ text, c.2 = false) :
    t = text.map Prod.fst := by
  induction h with
  | nil => rfl
  | @whole text t c h ih =>
    rw [ih fun d hd => hwhole d (List.mem_cons_of_mem (c, false) hd), List.map_cons]
  | @cut text t c k hc h ih => cases hwhole (c, true) List.mem_cons_self

end Received

end Utf8Decoder

end Ark
