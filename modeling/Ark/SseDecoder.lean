import Ark.GoBytes

/-!
# Decoding server-sent events

`keepaliveTolerantDecoder` reads the lines of an event stream. It collects the type and the data of an
event until a blank line, and goes on to the next event when the data is blank. Lines that are comments
or unknown fields change nothing, wherever they are; a blank line always ends what has been collected,
so inside a frame it takes away the type, or cuts the frame in two.
-/

namespace Ark

open GoBytes

/-- `ssestream.Event`. -/
structure SseEvent where
  type : Bytes
  data : Bytes
  deriving DecidableEq, Repr

inductive ScanError
  | tooLong
  deriving DecidableEq, Repr

namespace KeepaliveTolerantDecoder

/-- `bufio.MaxScanTokenSize << 4`. -/
def maxTokenSize : ℕ := 65536 * 16

/-- The text before the first `sep` and the text behind it. -/
def cut (sep : UInt8) (b : Bytes) : Bytes × Bytes :=
  (b.takeWhile (· ≠ sep), (b.dropWhile (· ≠ sep)).tail)

def colon : UInt8 := 58

/-- The bytes of `event`. -/
def eventName : Bytes := [101, 118, 101, 110, 116]

/-- The bytes of `data`. -/
def dataName : Bytes := [100, 97, 116, 97]

def fieldName (txt : Bytes) : Bytes := (cut colon txt).1

/-- The value of a field, less one space at its start. -/
def fieldValue (txt : Bytes) : Bytes :=
  let value := (cut colon txt).2
  if value.head? = some 32 then value.tail else value

/-- What a call of `Next` finds: an event, if it reaches one, the lines that it leaves in the scanner,
and the error of the scanner. -/
structure Found where
  evt : Option SseEvent
  lines : List Bytes
  err : Option ScanError
  deriving DecidableEq, Repr

/-- The loop of `Next`. A write to the buffer never fails. -/
def nextLoop (event data : Bytes) : List Bytes → Found
  | [] => ⟨none, [], none⟩
  | line :: lines =>
    if maxTokenSize ≤ line.length then ⟨none, line :: lines, some .tooLong⟩
    else
      let txt := dropCR line
      if txt = [] then
        if trimSpace data = [] then nextLoop [] [] lines else ⟨some ⟨event, data⟩, lines, none⟩
      else if fieldName txt = [] then nextLoop event data lines
      else if fieldName txt = eventName then nextLoop (fieldValue txt) data lines
      else if fieldName txt = dataName then nextLoop event (data ++ fieldValue txt ++ [10]) lines
      else nextLoop event data lines

end KeepaliveTolerantDecoder

open KeepaliveTolerantDecoder

structure KeepaliveTolerantDecoder where
  evt : SseEvent := ⟨[], []⟩
  lines : List Bytes
  err : Option ScanError := none
  deriving DecidableEq, Repr

namespace KeepaliveTolerantDecoder

/-- The decoder of a body. -/
def register (body : Bytes) : KeepaliveTolerantDecoder := { lines := splitLines body }

/-- `Next`. -/
def next (d : KeepaliveTolerantDecoder) : Bool × KeepaliveTolerantDecoder :=
  match d.err with
  | some _ => (false, d)
  | none =>
    let found := nextLoop [] [] d.lines
    (found.evt.isSome, ⟨found.evt.getD d.evt, found.lines, found.err⟩)

/-- Repeated calls of `Next` yield `events`, and then false without an error. -/
def Yields (d : KeepaliveTolerantDecoder) : List SseEvent → Prop
  | [] => d.next.1 = false ∧ d.next.2.err = none
  | e :: events => d.next.1 = true ∧ d.next.2.evt = e ∧ d.next.2.Yields events

/-! ### What a stream may hold -/

/-- A comment, or a field other than the type and the data. -/
def Ignored (line : Bytes) : Prop :=
  line ≠ [] ∧ fieldName line ≠ eventName ∧ fieldName line ≠ dataName

instance (line : Bytes) : Decidable (Ignored line) := inferInstanceAs (Decidable (_ ∧ _))

/-- `line` is the field `name` with the value `value`; the space behind the colon is optional, unless
the value starts with one. -/
def Writes (name value line : Bytes) : Prop :=
  line = name ++ colon :: 32 :: value ∨ line = name ++ colon :: value ∧ value.head? ≠ some 32

/-- Lines that write a type, if there is one, and data lines, with ignored lines anywhere. -/
inductive Body : Option Bytes → List Bytes → List Bytes → Prop
  | nil : Body none [] []
  | ignored {type : Option Bytes} {datas lines : List Bytes} {line : Bytes} :
      Ignored line → Body type datas lines → Body type datas (line :: lines)
  | event {type line : Bytes} {datas lines : List Bytes} :
      Writes eventName type line → Body none datas lines → Body (some type) datas (line :: lines)
  | data {type : Option Bytes} {value line : Bytes} {datas lines : List Bytes} :
      Writes dataName value line → Body type datas lines → Body type (value :: datas) (line :: lines)

/-- The data lines joined by line feeds, with one behind the last. -/
def joined (datas : List Bytes) : Bytes := datas.flatMap fun value => value ++ [10]

end KeepaliveTolerantDecoder

/-- An event as a server sends it. -/
structure SourceEvent where
  type : Bytes
  datas : List Bytes
  type_line : ∀ b ∈ type, b ≠ 10 ∧ b ≠ 13
  datas_lines : ∀ value ∈ datas, ∀ b ∈ value, b ≠ 10 ∧ b ≠ 13
  notBlank : ¬ ∀ value ∈ datas, Blank value

namespace KeepaliveTolerantDecoder

/-- A frame of an event without its blank line. An event without a type may do without the field. -/
def Frame (e : SourceEvent) (lines : List Bytes) : Prop :=
  ∃ type : Option Bytes, Body type e.datas lines ∧ type.getD [] = e.type

/-- What may stand between two frames, without the blank line behind it: nothing, comments and unknown
fields, or a frame whose data is blank. -/
def Gap (lines : List Bytes) : Prop :=
  ∃ type datas, Body type datas lines ∧ ∀ value ∈ datas, Blank value

/-- The lines of a stream of events. -/
inductive Stream : List SourceEvent → List Bytes → Prop
  | nil {lines : List Bytes} : (∀ line ∈ lines, Ignored line) → Stream [] lines
  | gap {events : List SourceEvent} {lines rest : List Bytes} :
      Gap lines → Stream events rest → Stream events (lines ++ [] :: rest)
  | frame {e : SourceEvent} {events : List SourceEvent} {lines rest : List Bytes} :
      Frame e lines → Stream events rest → Stream (e :: events) (lines ++ [] :: rest)

end KeepaliveTolerantDecoder

/-- The event that the decoder is to yield. -/
def SourceEvent.decoded (e : SourceEvent) : SseEvent := ⟨e.type, joined e.datas⟩

namespace KeepaliveTolerantDecoder

/-! ### The lines of a frame -/

theorem cut_name {name rest : Bytes} (h : colon ∉ name) :
    cut colon (name ++ colon :: rest) = (name, rest) := by
  induction name with
  | nil => simp [cut]
  | cons a name ih =>
    have ha : a ≠ colon := by
      rintro rfl
      exact h List.mem_cons_self
    have hrest := ih fun hmem => h (List.mem_cons_of_mem a hmem)
    simp only [cut, Prod.mk.injEq] at hrest ⊢
    rw [List.cons_append, List.takeWhile_cons, List.dropWhile_cons, if_pos (by simpa using ha),
      if_pos (by simpa using ha), hrest.1]
    exact ⟨rfl, hrest.2⟩

theorem Writes.fieldName {name value line : Bytes} (h : Writes name value line)
    (hname : colon ∉ name) : fieldName line = name := by
  rcases h with rfl | ⟨rfl, _⟩ <;> rw [KeepaliveTolerantDecoder.fieldName, cut_name hname]

theorem Writes.fieldValue {name value line : Bytes} (h : Writes name value line)
    (hname : colon ∉ name) : fieldValue line = value := by
  rcases h with rfl | ⟨rfl, hvalue⟩
  · rw [KeepaliveTolerantDecoder.fieldValue, cut_name hname]
    rfl
  · rw [KeepaliveTolerantDecoder.fieldValue, cut_name hname]
    exact if_neg hvalue

theorem Writes.ne_nil {name value line : Bytes} (h : Writes name value line) : line ≠ [] := by
  rcases h with rfl | ⟨rfl, _⟩ <;> simp

/-! ### The loop on what it is sent -/

/-- The scanner accepts the lines. -/
def Scannable (lines : List Line) : Prop := ∀ l ∈ lines, l.content.length < maxTokenSize

instance (lines : List Line) : Decidable (Scannable lines) :=
  inferInstanceAs (Decidable (∀ l ∈ lines, _))

theorem nextLoop_cons {l : Line} (h : l.content.length < maxTokenSize) (event data : Bytes)
    (lines : List Bytes) :
    nextLoop event data (l.content :: lines) =
      if l.text = [] then
        if trimSpace data = [] then nextLoop [] [] lines else ⟨some ⟨event, data⟩, lines, none⟩
      else if fieldName l.text = [] then nextLoop event data lines
      else if fieldName l.text = eventName then nextLoop (fieldValue l.text) data lines
      else if fieldName l.text = dataName then
        nextLoop event (data ++ fieldValue l.text ++ [10]) lines
      else nextLoop event data lines := by
  rw [nextLoop, if_neg (by omega), l.dropCR_content]

theorem nextLoop_ignored {l : Line} (h : l.content.length < maxTokenSize) (hl : Ignored l.text)
    (event data : Bytes) (lines : List Bytes) :
    nextLoop event data (l.content :: lines) = nextLoop event data lines := by
  obtain ⟨hne, hevent, hdata⟩ := hl
  rw [nextLoop_cons h, if_neg hne, if_neg hevent, if_neg hdata, ite_self]

theorem nextLoop_event {l : Line} (h : l.content.length < maxTokenSize) {type : Bytes}
    (hl : Writes eventName type l.text) (event data : Bytes) (lines : List Bytes) :
    nextLoop event data (l.content :: lines) = nextLoop type data lines := by
  have hname := hl.fieldName (by decide)
  rw [nextLoop_cons h, if_neg hl.ne_nil, if_neg (by rw [hname]; decide), if_pos hname,
    hl.fieldValue (by decide)]

theorem nextLoop_data {l : Line} (h : l.content.length < maxTokenSize) {value : Bytes}
    (hl : Writes dataName value l.text) (event data : Bytes) (lines : List Bytes) :
    nextLoop event data (l.content :: lines) = nextLoop event (data ++ value ++ [10]) lines := by
  have hname := hl.fieldName (by decide)
  rw [nextLoop_cons h, if_neg hl.ne_nil, if_neg (by rw [hname]; decide),
    if_neg (by rw [hname]; decide), if_pos hname, hl.fieldValue (by decide)]

/-- The lines of a body leave its type and add its data. -/
theorem nextLoop_body {type : Option Bytes} {datas texts : List Bytes} (hb : Body type datas texts)
    {lines : List Line} (htexts : lines.map Line.text = texts) (hscan : Scannable lines)
    (event data : Bytes) (rest : List Bytes) :
    nextLoop event data (lines.map Line.content ++ rest) =
      nextLoop (type.getD event) (data ++ joined datas) rest := by
  induction hb generalizing lines event data with
  | nil =>
    rw [List.map_eq_nil_iff.1 htexts]
    simp [joined]
  | ignored hl _ ih =>
    obtain ⟨l, lines, rfl, rfl, hlines⟩ := List.map_eq_cons_iff.1 htexts
    obtain ⟨h, hscan⟩ := List.forall_mem_cons.1 hscan
    rw [List.map_cons, List.cons_append, nextLoop_ignored h hl, ih hlines hscan]
  | event hl _ ih =>
    obtain ⟨l, lines, rfl, rfl, hlines⟩ := List.map_eq_cons_iff.1 htexts
    obtain ⟨h, hscan⟩ := List.forall_mem_cons.1 hscan
    rw [List.map_cons, List.cons_append, nextLoop_event h hl, ih hlines hscan]
    rfl
  | @data type value _ datas _ hl _ ih =>
    obtain ⟨l, lines, rfl, rfl, hlines⟩ := List.map_eq_cons_iff.1 htexts
    obtain ⟨h, hscan⟩ := List.forall_mem_cons.1 hscan
    have hjoin : joined (value :: datas) = value ++ [10] ++ joined datas := List.flatMap_cons
    rw [List.map_cons, List.cons_append, nextLoop_data h hl, ih hlines hscan, hjoin]
    simp only [List.append_assoc]

/-- The blank line behind a body. -/
theorem nextLoop_blank {l : Line} (h : l.content.length < maxTokenSize) (hl : l.text = [])
    (event : Bytes) (datas rest : List Bytes) :
    ((∀ value ∈ datas, Blank value) →
      nextLoop event (joined datas) (l.content :: rest) = nextLoop [] [] rest) ∧
    ((¬ ∀ value ∈ datas, Blank value) →
      nextLoop event (joined datas) (l.content :: rest) =
        ⟨some ⟨event, joined datas⟩, rest, none⟩) := by
  have htrim : trimSpace (joined datas) = [] ↔ ∀ value ∈ datas, Blank value :=
    trimSpace_eq_nil.trans (blank_lines_iff datas)
  constructor
  · intro hblank
    rw [nextLoop_cons h, if_pos hl, if_pos (htrim.2 hblank)]
  · intro hblank
    rw [nextLoop_cons h, if_pos hl, if_neg fun h0 => hblank (htrim.1 h0)]

theorem nextLoop_gap {texts : List Bytes} (hgap : Gap texts) {lines : List Line}
    (htexts : lines.map Line.text = texts) {l : Line} (hl : l.text = [])
    (hscan : Scannable (lines ++ [l])) (rest : List Bytes) :
    nextLoop [] [] (lines.map Line.content ++ l.content :: rest) = nextLoop [] [] rest := by
  obtain ⟨type, datas, hb, hblank⟩ := hgap
  have hlast : l.content.length < maxTokenSize := hscan l (by simp)
  rw [nextLoop_body hb htexts (fun x hx => hscan x (List.mem_append_left _ hx)), List.nil_append]
  exact (nextLoop_blank hlast hl _ datas rest).1 hblank

theorem nextLoop_frame {e : SourceEvent} {texts : List Bytes} (hframe : Frame e texts)
    {lines : List Line} (htexts : lines.map Line.text = texts) {l : Line} (hl : l.text = [])
    (hscan : Scannable (lines ++ [l])) (rest : List Bytes) :
    nextLoop [] [] (lines.map Line.content ++ l.content :: rest) =
      ⟨some e.decoded, rest, none⟩ := by
  obtain ⟨type, hb, htype⟩ := hframe
  have hlast : l.content.length < maxTokenSize := hscan l (by simp)
  rw [nextLoop_body hb htexts (fun x hx => hscan x (List.mem_append_left _ hx)), List.nil_append,
    (nextLoop_blank hlast hl _ e.datas rest).2 e.notBlank, htype]
  rfl

theorem nextLoop_end {lines : List Line} (hscan : Scannable lines)
    (h : ∀ l ∈ lines, Ignored l.text) (event data : Bytes) :
    nextLoop event data (lines.map Line.content) = ⟨none, [], none⟩ := by
  induction lines with
  | nil => rfl
  | cons l lines ih =>
    obtain ⟨hl, h⟩ := List.forall_mem_cons.1 h
    obtain ⟨hlen, hscan⟩ := List.forall_mem_cons.1 hscan
    rw [List.map_cons, nextLoop_ignored hlen hl, ih hscan h]

/-! ### Whole streams -/

/-- What a decoder yields depends on what its first loop finds. -/
theorem yields_congr {d d' : KeepaliveTolerantDecoder} (herr : d.err = none) (herr' : d'.err = none)
    (h : nextLoop [] [] d.lines = nextLoop [] [] d'.lines) {events : List SseEvent}
    (hd : d'.Yields events) : d.Yields events := by
  cases events with
  | nil =>
    simp only [Yields, next, herr, herr', h] at hd ⊢
    exact hd
  | cons e events =>
    simp only [Yields, next, herr, herr'] at hd ⊢
    rw [h]
    obtain ⟨htrue, hevt, hrest⟩ := hd
    obtain ⟨evt, hfound⟩ := Option.isSome_iff_exists.1 htrue
    simp only [hfound, Option.getD_some, Option.isSome_some] at hevt hrest ⊢
    exact ⟨trivial, hevt, hrest⟩

theorem lines_split {lines : List Line} {texts rest : List Bytes}
    (h : lines.map Line.text = texts ++ [] :: rest) :
    ∃ first l last, lines = first ++ l :: last ∧ first.map Line.text = texts ∧ l.text = [] ∧
      last.map Line.text = rest := by
  obtain ⟨first, more, rfl, hfirst, hmore⟩ := List.map_eq_append_iff.1 h
  obtain ⟨l, last, rfl, hl, hlast⟩ := List.map_eq_cons_iff.1 hmore
  exact ⟨first, l, last, rfl, hfirst, hl, hlast⟩

theorem yields_of_stream {events : List SourceEvent} {texts : List Bytes}
    (hs : Stream events texts) {lines : List Line} (htexts : lines.map Line.text = texts)
    (hscan : Scannable lines) (evt : SseEvent) :
    (⟨evt, lines.map Line.content, none⟩ : KeepaliveTolerantDecoder).Yields
      (events.map SourceEvent.decoded) := by
  induction hs generalizing lines evt with
  | nil h =>
    have hignored : ∀ l ∈ lines, Ignored l.text := fun l hl =>
      h l.text (htexts ▸ List.mem_map_of_mem hl)
    simp [Yields, next, nextLoop_end hscan hignored]
  | gap hgap _ ih =>
    obtain ⟨first, l, last, rfl, hfirst, hl, hlast⟩ := lines_split htexts
    refine yields_congr (by rfl) (by rfl) ?_
      (ih hlast (fun x hx => hscan x (by simp [hx])) evt)
    rw [List.map_append, List.map_cons]
    exact nextLoop_gap hgap hfirst hl
      (fun x hx => hscan x (by simp only [List.mem_append, List.mem_cons] at hx ⊢; tauto)) _
  | frame hframe _ ih =>
    obtain ⟨first, l, last, rfl, hfirst, hl, hlast⟩ := lines_split htexts
    have hfound := nextLoop_frame hframe hfirst hl
      (fun x hx => hscan x (by simp only [List.mem_append, List.mem_cons] at hx ⊢; tauto))
      (last.map Line.content)
    rw [List.map_append, List.map_cons, List.map_cons]
    simp only [Yields, next, hfound]
    exact ⟨rfl, rfl, ih hlast (fun x hx => hscan x (by simp [hx])) _⟩

/-- Every stream of frames is decoded to its events, whatever is ignored between and inside the
frames and whatever blank frames stand between them. -/
theorem register_yields {events : List SourceEvent} {lines : List Line}
    (hs : Stream events (lines.map Line.text)) (hscan : Scannable lines) :
    (register (sent lines)).Yields (events.map SourceEvent.decoded) := by
  rw [register, splitLines_sent]
  exact yields_of_stream hs rfl hscan _

/-- The lines `: ping`, an empty one, `event: d`, `id`, `data: x` and an empty one. -/
def pingedLines : List Line :=
  [⟨[58, 32, 112, 105, 110, 103], true, by decide, by decide⟩, ⟨[], true, by decide, by decide⟩,
    ⟨eventName ++ [58, 32, 100], false, by decide, by decide⟩,
    ⟨[105, 100], false, by decide, by decide⟩,
    ⟨dataName ++ [58, 32, 120], false, by decide, by decide⟩, ⟨[], false, by decide, by decide⟩]

/-- The event of type `d` whose data is `x`. -/
def pinged : SourceEvent where
  type := [100]
  datas := [[120]]
  type_line := by simp
  datas_lines := by simp
  notBlank := fun h => absurd (trimSpace_eq_nil.2 (h _ List.mem_cons_self)) (by decide)

theorem frame_pinged :
    Frame pinged [eventName ++ [58, 32, 100], [105, 100], dataName ++ [58, 32, 120]] :=
  ⟨some [100], .event (.inl rfl) (.ignored (by decide) (.data (.inl rfl) .nil)), rfl⟩

theorem register_yields_pinged : (register (sent pingedLines)).Yields [pinged.decoded] :=
  @register_yields [pinged] pingedLines
    (.gap ⟨none, [], .ignored (by decide) .nil, by simp⟩ (.frame frame_pinged (.nil (by simp))))
    (by decide)

/-- A blank line inside the frame, behind its type: the data is yielded under no type. -/
theorem blank_line_in_frame :
    Frame pinged [eventName ++ [58, 32, 100], dataName ++ [58, 32, 120]] ∧
      sent [⟨eventName ++ [58, 32, 100], false, by decide, by decide⟩,
          ⟨[], false, by decide, by decide⟩, ⟨dataName ++ [58, 32, 120], false, by decide, by decide⟩,
          ⟨[], false, by decide, by decide⟩] =
        eventName ++ [58, 32, 100, 10, 10] ++ dataName ++ [58, 32, 120, 10, 10] ∧
      ¬ (register (eventName ++ [58, 32, 100, 10, 10] ++ dataName ++ [58, 32, 120, 10, 10])).Yields
        [pinged.decoded] := by
  refine ⟨⟨some [100], .event (.inl rfl) (.data (.inl rfl) .nil), rfl⟩, by decide, ?_⟩
  intro h
  have hevt : (⟨[], [120, 10]⟩ : SseEvent) = ⟨[100], [120, 10]⟩ := h.2.1
  exact absurd hevt (by decide)

end KeepaliveTolerantDecoder

end Ark
