import Ark.GoJson
import Ark.QueryStream

/-!
# Publishing the chunks of a query

`HTTPEventStream` sends the chunks of a query through a pipe that is the body of one POST. To notify
the completion it closes the pipe and sends a second POST on another connection. The broker processes
the body piece by piece and appends the chunks of its lines in a chain; the handler of the second
request looks at the stream twice before it appends the completion. The pieces and the turns of the two
handlers come in any order, and so do chunks of other queries.
-/

namespace Ark

open Json GoJson

/-! ### Text -/

/-- A decoder between two bytes: how many are missing, the bounds of the next one, and what has been
read of the code point. -/
structure Utf8Decoder where
  needed : ℕ
  lower : ℕ
  upper : ℕ
  codePoint : ℕ
  deriving DecidableEq, Repr

namespace Utf8Decoder

def idle : Utf8Decoder := ⟨0, 128, 191, 0⟩

/-- The first byte of a code point. -/
def first (b : ℕ) : Text × Utf8Decoder :=
  if b < 128 then ([b], idle)
  else if b < 194 ∨ 244 < b then ([65533], idle)
  else if b < 224 then ([], ⟨1, 128, 191, b - 192⟩)
  else if b < 240 then
    ([], ⟨2, if b = 224 then 160 else 128, if b = 237 then 159 else 191, b - 224⟩)
  else ([], ⟨3, if b = 240 then 144 else 128, if b = 244 then 143 else 191, b - 240⟩)

def next (d : Utf8Decoder) (b : ℕ) : Text × Utf8Decoder :=
  if d.needed = 0 then first b
  else if d.lower ≤ b ∧ b ≤ d.upper then
    let codePoint := 64 * d.codePoint + (b - 128)
    if d.needed = 1 then ([codePoint], idle) else ([], ⟨d.needed - 1, 128, 191, codePoint⟩)
  else (65533 :: (first b).1, (first b).2)

def decode (d : Utf8Decoder) : List ℕ → Text
  | [] => if d.needed = 0 then [] else [65533]
  | b :: bytes => (d.next b).1 ++ decode (d.next b).2 bytes

end Utf8Decoder

/-- `Buffer.toString('utf-8')`: a code point whose bytes are not all in the buffer is replaced. -/
def bufferToString (bytes : List ℕ) : Text := Utf8Decoder.idle.decode bytes

example : bufferToString [104, 226, 130, 172, 226, 130] = [104, 8364, 65533] := by decide

/-- The bytes of a string. -/
def utf8Bytes (s : String) : List ℕ :=
  s.toList.flatMap fun c => (String.utf8EncodeChar c).map UInt8.toNat

def isTrimmed (c : ℕ) : Bool :=
  [9, 10, 11, 12, 13, 32, 160, 5760, 8232, 8233, 8239, 8287, 12288, 65279].contains c ||
    (8192 ≤ c && c ≤ 8202)

/-- `String.prototype.trim`. -/
def trim (t : Text) : Text := ((t.dropWhile isTrimmed).reverse.dropWhile isTrimmed).reverse

/-- The lines that a buffer holds, and the rest behind the last newline. -/
def takeLines : Text → List Text × Text
  | [] => ([], [])
  | c :: t =>
    if c = 10 then ([] :: (takeLines t).1, (takeLines t).2)
    else match takeLines t with
      | ([], rest) => ([], c :: rest)
      | (line :: lines, rest) => ((c :: line) :: lines, rest)

/-- The chunk of a line, unless the line is empty or no JSON. -/
def parseLine (line : Text) : Option Value := if trim line = [] then none else parse (trim line)

/-- `classifyChunk` reads a field of the chunk. -/
def classifies : Value → Bool
  | .null => false
  | _ => true

/-! ### The two requests -/

/-- How far the handler of the completion is; the last state is the status of its answer. -/
inductive CompletePc
  | received
  | known
  | open_
  | answered (status : String)
  deriving DecidableEq, Repr

/-- `inTransit` is what the client has written into the pipe and the broker has not processed. The
fields from `buffer` to `responded` are those of the first handler, less the counters of the log. -/
structure ChunkPublishing where
  queryId : String
  chunks : InMemoryStream (CompletionChunkData Value)
  now : ℕ
  notified : Bool
  inTransit : List ℕ
  buffer : Text
  chunkCount : ℕ
  appendChain : List Value
  ended : Bool
  responded : Bool
  completePc : CompletePc

inductive PublishingAction
  | streamChunk (chunk : Value)
  | notifyCompletion
  | data (size : ℕ)
  | endOfStream
  | addChunk
  | respond
  | hasQuery
  | isComplete
  | completeQuery
  | otherQuery (data : CompletionChunkData Value)
  | maintain
  | tick (n : ℕ)

namespace ChunkPublishing

def start (queryId : String) (ttlSeconds : Option ℕ) : ChunkPublishing where
  queryId := queryId
  chunks := .new ttlSeconds
  now := 0
  notified := false
  inTransit := []
  buffer := []
  chunkCount := 0
  appendChain := []
  ended := false
  responded := false
  completePc := .received

variable (s : ChunkPublishing)

/-- `getByQuery`. -/
def byQuery : List (QueryStream.Item Value) :=
  s.chunks.filter s.now fun item => item.data.queryId == s.queryId

def append (data : CompletionChunkData Value) : ChunkPublishing :=
  { s with chunks := s.chunks.append s.now data none }

/-- A chunk on which `classifyChunk` throws is counted and not appended. -/
def processNDJSONData (piece : List ℕ) : ChunkPublishing :=
  let buffer := s.buffer ++ bufferToString piece
  let parsed := (takeLines buffer).1.filterMap parseLine
  { s with
    buffer := (takeLines buffer).2
    chunkCount := s.chunkCount + parsed.length
    appendChain := s.appendChain ++ parsed.filter classifies }

def step : PublishingAction → Option ChunkPublishing
  | .streamChunk chunk =>
    if s.notified then none
    else some { s with inTransit := s.inTransit ++ utf8Bytes (marshal chunk) ++ [10] }
  | .notifyCompletion => if s.notified then none else some { s with notified := true }
  | .data size =>
    if s.inTransit = [] ∨ size = 0 then none
    else some { s.processNDJSONData (s.inTransit.take size) with
      inTransit := s.inTransit.drop size }
  | .endOfStream =>
    if s.notified ∧ s.inTransit = [] then some { s with ended := true } else none
  | .addChunk =>
    match s.appendChain with
    | [] => none
    | chunk :: rest => some { s.append ⟨s.queryId, .object chunk, false⟩ with appendChain := rest }
  | .respond =>
    if s.ended ∧ s.appendChain = [] then some { s with responded := true } else none
  | .hasQuery =>
    if s.notified ∧ s.completePc = .received then some { s with
      completePc := if s.byQuery = [] then .answered "404" else .known }
    else none
  | .isComplete =>
    if s.completePc = .known then some { s with
      completePc := if s.byQuery.any (·.data.complete) then .answered "already_completed"
        else .open_ }
    else none
  | .completeQuery =>
    if s.completePc = .open_ then some { s.append ⟨s.queryId, .text "[DONE]", true⟩ with
      completePc := .answered "completed" }
    else none
  | .otherQuery data => if data.queryId = s.queryId then none else some (s.append data)
  | .maintain => some { s with chunks := s.chunks.maintain s.now }
  | .tick n => some { s with now := s.now + n }

def machine : Machine ChunkPublishing PublishingAction where
  init s := ∃ queryId ttlSeconds, s = start queryId ttlSeconds
  step := step

/-- The broker has processed the body of the first request and made its appends. -/
def Drained : Prop := s.inTransit = [] ∧ s.appendChain = []

instance : Decidable s.Drained := inferInstanceAs (Decidable (_ ∧ _))

/-- The completion is appended when the first request is drained. -/
def CompletesDrained (s : ChunkPublishing) : PublishingAction → Prop
  | .completeQuery => s.Drained
  | _ => True

/-- Completions of the query are numbered above all its chunks. -/
def CompletionLast : Prop :=
  ∀ x ∈ s.chunks.items, x.data.queryId = s.queryId → x.data.complete = true →
    ∀ y ∈ s.chunks.items, y.data.queryId = s.queryId → y.data.complete = false →
      y.sequenceNumber < x.sequenceNumber

/-! ### The marker comes last -/

/-- A reader that stops at the first marker misses nothing if no chunk comes after a marker. -/
theorem chunksBeforeCompletion_filter {χ : Type} {l : List (QueryStream.Item χ)}
    (hincreasing : l.Pairwise fun x y => x.sequenceNumber < y.sequenceNumber)
    (hlast : ∀ x ∈ l, x.data.complete = true → ∀ y ∈ l, y.data.complete = false →
      y.sequenceNumber < x.sequenceNumber) :
    QueryStream.chunksBeforeCompletion l =
      QueryStream.chunksBeforeCompletion (l.filter fun x => !x.data.complete) := by
  induction l with
  | nil => rfl
  | cons x l ih =>
    obtain ⟨hhead, htail⟩ := List.pairwise_cons.mp hincreasing
    cases hx : x.data.complete with
    | true =>
      have hnone : (x :: l).filter (fun y => !y.data.complete) = [] := by
        rw [List.filter_eq_nil_iff]
        intro y hy hcomplete
        obtain rfl | hy := List.mem_cons.mp hy
        · simp [hx] at hcomplete
        · have hlt := hlast x List.mem_cons_self hx y (List.mem_cons_of_mem x hy)
            (by simpa using hcomplete)
          exact Nat.lt_asymm hlt (hhead y hy)
      rw [hnone]
      simp only [QueryStream.chunksBeforeCompletion, hx, if_true]
    | false =>
      have hrest := ih htail fun y hy hcomplete z hz =>
        hlast y (List.mem_cons_of_mem x hy) hcomplete z (List.mem_cons_of_mem x hz)
      rw [List.filter_cons, hx]
      simp only [Bool.not_false, if_true, QueryStream.chunksBeforeCompletion, hx,
        Bool.false_eq_true, if_false, hrest]

variable {s} {t : ChunkPublishing}

/-- After the marker nothing of the first request is left, and nothing is added to it. -/
structure Inv (s : ChunkPublishing) : Prop where
  ordered : s.chunks.Ordered
  last : s.CompletionLast
  drained : ∀ x ∈ s.chunks.items, x.data.queryId = s.queryId → x.data.complete = true →
    s.Drained ∧ s.notified = true
  notified : s.completePc ≠ .received → s.notified = true

theorem inv_start (queryId : String) (ttlSeconds : Option ℕ) : (start queryId ttlSeconds).Inv where
  ordered := InMemoryStream.ordered_new ttlSeconds
  last := by simp [CompletionLast, start, InMemoryStream.new]
  drained := by simp [start, InMemoryStream.new]
  notified := by simp [start]

/-- An item that is no chunk of the query, or a chunk while no marker is there, may be appended. -/
theorem Inv.append (h : s.Inv) (data : CompletionChunkData Value)
    (hdata : data.queryId = s.queryId → data.complete = false →
      ∀ x ∈ s.chunks.items, x.data.queryId = s.queryId → x.data.complete = false) :
    (s.append data).chunks.Ordered ∧ (s.append data).CompletionLast := by
  refine ⟨h.ordered.append s.now data none, ?_⟩
  intro x hx hxquery hcomplete y hy hyquery hchunk
  obtain hx | hx := List.mem_append.mp hx <;> obtain hy | hy := List.mem_append.mp hy
  · exact h.last x hx hxquery hcomplete y hy hyquery hchunk
  · obtain rfl := List.mem_singleton.mp hy
    have hnone := hdata hyquery hchunk x hx hxquery
    rw [hnone] at hcomplete
    cases hcomplete
  · obtain rfl := List.mem_singleton.mp hx
    exact h.ordered.below y hy
  · obtain rfl := List.mem_singleton.mp hx
    obtain rfl := List.mem_singleton.mp hy
    rw [hcomplete] at hchunk
    cases hchunk

theorem Inv.step {a : PublishingAction} (h : s.Inv) (hok : s.CompletesDrained a)
    (hs : s.step a = some t) : t.Inv := by
  cases a with
  | streamChunk chunk =>
    simp only [ChunkPublishing.step] at hs
    split at hs
    next => cases hs
    next hnotified =>
      cases hs
      refine ⟨h.ordered, h.last, fun x hx hquery hcomplete => ?_, h.notified⟩
      exact absurd (h.drained x hx hquery hcomplete).2 hnotified
  | notifyCompletion =>
    simp only [ChunkPublishing.step] at hs
    split at hs
    next => cases hs
    next =>
      cases hs
      refine ⟨h.ordered, h.last, fun x hx hquery hcomplete => ?_, fun _ => rfl⟩
      exact ⟨(h.drained x hx hquery hcomplete).1, rfl⟩
  | data size =>
    simp only [ChunkPublishing.step] at hs
    split at hs
    next => cases hs
    next hpiece =>
      cases hs
      refine ⟨h.ordered, h.last, fun x hx hquery hcomplete => ?_, h.notified⟩
      exact absurd (.inl (h.drained x hx hquery hcomplete).1.1) hpiece
  | endOfStream =>
    simp only [ChunkPublishing.step] at hs
    split at hs
    next =>
      cases hs
      exact ⟨h.ordered, h.last, h.drained, h.notified⟩
    next => cases hs
  | addChunk =>
    simp only [ChunkPublishing.step] at hs
    split at hs
    next => cases hs
    next chunk rest hchain =>
      cases hs
      have hnone : ∀ x ∈ s.chunks.items, x.data.queryId = s.queryId → x.data.complete = false := by
        intro x hx hquery
        rw [← Bool.not_eq_true]
        intro hcomplete
        have hdrained := (h.drained x hx hquery hcomplete).1.2
        rw [hchain] at hdrained
        cases hdrained
      obtain ⟨hordered, hlast⟩ := h.append ⟨s.queryId, .object chunk, false⟩
        fun _ _ => hnone
      refine ⟨hordered, hlast, fun x hx hquery hcomplete => ?_, h.notified⟩
      obtain hx | hx := List.mem_append.mp hx
      · rw [hnone x hx hquery] at hcomplete
        cases hcomplete
      · obtain rfl := List.mem_singleton.mp hx
        cases hcomplete
  | respond =>
    simp only [ChunkPublishing.step] at hs
    split at hs
    next =>
      cases hs
      exact ⟨h.ordered, h.last, h.drained, h.notified⟩
    next => cases hs
  | hasQuery =>
    simp only [ChunkPublishing.step] at hs
    split at hs
    next hreceived =>
      cases hs
      exact ⟨h.ordered, h.last, h.drained, fun _ => hreceived.1⟩
    next => cases hs
  | isComplete =>
    simp only [ChunkPublishing.step] at hs
    split at hs
    next hknown =>
      cases hs
      exact ⟨h.ordered, h.last, h.drained, fun _ => h.notified (by rw [hknown]; simp)⟩
    next => cases hs
  | completeQuery =>
    simp only [ChunkPublishing.step] at hs
    split at hs
    next hopen =>
      cases hs
      have hnotified : s.notified = true := h.notified (by rw [hopen]; simp)
      obtain ⟨hordered, hlast⟩ := h.append ⟨s.queryId, .text "[DONE]", true⟩
        fun _ hchunk => by cases hchunk
      exact ⟨hordered, hlast, fun _ _ _ _ => ⟨hok, hnotified⟩, fun _ => hnotified⟩
    next => cases hs
  | otherQuery data =>
    simp only [ChunkPublishing.step] at hs
    split at hs
    next => cases hs
    next hother =>
      cases hs
      obtain ⟨hordered, hlast⟩ := h.append data fun hquery => absurd hquery hother
      refine ⟨hordered, hlast, fun x hx hquery hcomplete => ?_, h.notified⟩
      obtain hx | hx := List.mem_append.mp hx
      · exact h.drained x hx hquery hcomplete
      · obtain rfl := List.mem_singleton.mp hx
        exact absurd hquery hother
  | maintain =>
    cases hs
    have hsub : (s.chunks.maintain s.now).items.Sublist s.chunks.items := by
      rw [InMemoryStream.maintain]
      split
      · exact .refl _
      · exact List.filter_sublist
    have hnext : (s.chunks.maintain s.now).nextSequence = s.chunks.nextSequence := by
      rw [InMemoryStream.maintain]
      split <;> rfl
    refine ⟨⟨h.ordered.increasing.sublist hsub, fun x hx => ?_,
      fun x hx => h.ordered.positive x (hsub.subset hx), ?_⟩, ?_, ?_, h.notified⟩
    · dsimp only
      rw [hnext]
      exact h.ordered.below x (hsub.subset hx)
    · dsimp only
      rw [hnext]
      exact h.ordered.next_pos
    · intro x hx hxquery hcomplete y hy
      exact h.last x (hsub.subset hx) hxquery hcomplete y (hsub.subset hy)
    · exact fun x hx => h.drained x (hsub.subset hx)
  | tick n =>
    cases hs
    exact ⟨h.ordered, h.last, h.drained, h.notified⟩

theorem inv_of_reachable (h : machine.Reachable CompletesDrained s) : s.Inv := by
  refine h.invariant ?_ fun _ _ _ hinv hok hs => hinv.step hok hs
  rintro _ ⟨queryId, ttlSeconds, rfl⟩
  exact inv_start queryId ttlSeconds

/-- When the completion is appended after the first request is drained, it stays numbered above every
chunk, and a reader that stops at it has seen them all. -/
theorem completion_follows_chunks (h : machine.Reachable CompletesDrained s) :
    s.CompletionLast ∧ QueryStream.chunksBeforeCompletion s.byQuery =
      QueryStream.chunksBeforeCompletion (s.byQuery.filter fun x => !x.data.complete) := by
  have hinv := inv_of_reachable h
  have hlive : (s.chunks.live s.now).Sublist s.chunks.items := by
    rw [InMemoryStream.live]
    split
    · exact .refl _
    · exact List.filter_sublist
  have hsub : s.byQuery.Sublist s.chunks.items := List.filter_sublist.trans hlive
  have hquery : ∀ x ∈ s.byQuery, x.data.queryId = s.queryId := by
    intro x hx
    exact eq_of_beq (List.mem_filter.mp hx).2
  refine ⟨hinv.last, chunksBeforeCompletion_filter (hinv.ordered.increasing.sublist hsub) ?_⟩
  intro x hx hcomplete y hy
  exact hinv.last x (hsub.subset hx) (hquery x hx) hcomplete y (hsub.subset hy) (hquery y hy)

/-! ### Two runs -/

instance (s : ChunkPublishing) (a : PublishingAction) : Decidable (s.CompletesDrained a) :=
  match a with
  | .completeQuery => inferInstanceAs (Decidable s.Drained)
  | .streamChunk _ | .notifyCompletion | .data _ | .endOfStream | .addChunk | .respond | .hasQuery
  | .isComplete | .otherQuery _ | .maintain | .tick _ => .isTrue trivial

instance (s : ChunkPublishing) : Decidable s.CompletionLast :=
  inferInstanceAs (Decidable (∀ x ∈ s.chunks.items, _ → _ → ∀ y ∈ s.chunks.items, _ → _ → _))

def completed (s : ChunkPublishing) : Bool := s.chunks.items.any (·.data.complete)

theorem completion_follows_one_chunk : ∃ s : ChunkPublishing, s.completed = true ∧
    s.CompletionLast ∧ QueryStream.chunksBeforeCompletion s.byQuery =
      QueryStream.chunksBeforeCompletion (s.byQuery.filter fun x => !x.data.complete) := by
  have hrun : (machine.execWhile (fun s a => decide (s.CompletesDrained a)) (start "q" none)
      [.streamChunk (.obj []), .notifyCompletion, .data 2, .data 1, .endOfStream, .addChunk,
        .respond, .hasQuery, .isComplete, .completeQuery]).any completed = true := by
    decide +kernel
  have hstart : machine.init (start "q" none) := ⟨"q", none, rfl⟩
  obtain ⟨s, hreachable, hs⟩ :=
    Machine.exists_reachable hstart (fun s a h => of_decide_eq_true h) hrun
  exact ⟨s, hs, completion_follows_chunks hreachable⟩

/-- The last chunk is still on its way when the second request is handled. -/
theorem completion_overtakes_chunk :
    ∃ s, machine.Reachable Machine.always s ∧ ¬ s.CompletionLast := by
  have hrun : (machine.execWhile (fun _ _ => true) (start "q" none)
      [.streamChunk (.obj []), .data 3, .addChunk, .streamChunk (.obj []), .notifyCompletion,
        .hasQuery, .isComplete, .completeQuery, .data 3, .addChunk]).any
      (fun s => decide (¬ s.CompletionLast)) = true := by
    decide +kernel
  have hstart : machine.init (start "q" none) := ⟨"q", none, rfl⟩
  obtain ⟨s, hreachable, hs⟩ := Machine.exists_reachable hstart (fun _ _ _ => trivial) hrun
  exact ⟨s, hreachable, of_decide_eq_true hs⟩

end ChunkPublishing

end Ark
