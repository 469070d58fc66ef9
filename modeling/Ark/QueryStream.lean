import Ark.InMemoryStream
import Ark.Machine

/-!
# The chunk stream of a query

`handleQueryStream` subscribes to a query, replays what the in-memory chunk stream already holds and
then forwards live chunks. Subscribing and taking the snapshot happen in one turn of the event
loop; the replay with the flush of the buffer is a second one and `caughtUp` is set in a third, and
appends may run between them. `χ` is the type of chunk objects that carry no error; a write after
`res.end()` sends nothing.
-/

namespace Ark

/-- `chunk` of a stored item: an object, or the text that `completeQuery` stores. -/
inductive ChunkValue (χ : Type*)
  | object (c : χ)
  | text (s : String)
  deriving DecidableEq, Repr

structure CompletionChunkData (χ : Type*) where
  queryId : String
  chunk : ChunkValue χ
  complete : Bool
  deriving DecidableEq, Repr

/-- What the client is sent. -/
inductive Frame (χ : Type*)
  | chunk (c : χ)
  | timeoutError
  | done
  deriving DecidableEq, Repr

namespace QueryStream

variable {χ : Type*}

abbrev Item (χ : Type*) := BrokerItem (CompletionChunkData χ)

/-- The chunks that precede the first completion marker. -/
def chunksBeforeCompletion : List (Item χ) → List χ
  | [] => []
  | item :: rest =>
    if item.data.complete then []
    else match item.data.chunk with
      | .object c => c :: chunksBeforeCompletion rest
      | .text _ => chunksBeforeCompletion rest

/-- The response, the subscription and `QueryStreamState`, less the counters of the log. `timer` is
set while the wait timeout is armed. -/
structure QueryStreamState (χ : Type*) where
  sent : List (Frame χ)
  ended : Bool
  subscribed : Bool
  caughtUp : Bool
  hasReceivedChunks : Bool
  timer : Bool
  buffer : List (Item χ)

namespace QueryStreamState

def write (s : QueryStreamState χ) (f : Frame χ) : QueryStreamState χ :=
  if s.ended then s else { s with sent := s.sent ++ [f] }

/-- `res.end()` and `cleanup()`. -/
def endStream (s : QueryStreamState χ) : QueryStreamState χ :=
  { s with ended := true, subscribed := false }

/-- `completeHandler`. -/
def completeHandler (s : QueryStreamState χ) : QueryStreamState χ := (s.write .done).endStream

/-- `writeLiveChunk`, and the body of the loops that replay and flush. -/
def writeChunk (s : QueryStreamState χ) (item : Item χ) : QueryStreamState χ :=
  match item.data.chunk with
  | .object c => s.write (.chunk c)
  | .text _ => s

def handleIncomingItem (s : QueryStreamState χ) (item : Item χ) : QueryStreamState χ :=
  let s := { s with hasReceivedChunks := true, timer := false }
  if s.caughtUp then s.writeChunk item else { s with buffer := s.buffer ++ [item] }

/-- The callback given to `subscribeToQuery`. -/
def onItem (s : QueryStreamState χ) (item : Item χ) : QueryStreamState χ :=
  if item.data.complete then s.completeHandler else s.handleIncomingItem item

/-- `flushBuffer`; the flag tells whether the stream goes on. -/
def flushBuffer (maxReplayedSeq : Int) :
    List (Item χ) → QueryStreamState χ → QueryStreamState χ × Bool
  | [], s => (s, true)
  | item :: rest, s =>
    if (item.sequenceNumber : Int) ≤ maxReplayedSeq then flushBuffer maxReplayedSeq rest s
    else if item.data.complete then (s.completeHandler, false)
    else flushBuffer maxReplayedSeq rest (s.writeChunk item)

/-- The loop of `replayChunks` over the snapshot, then `flushBuffer`. -/
def replayChunks (maxReplayedSeq : Int) :
    List (Item χ) → QueryStreamState χ → QueryStreamState χ × Bool
  | [], s => flushBuffer maxReplayedSeq s.buffer s
  | item :: rest, s =>
    if item.data.complete then (s.completeHandler, false)
    else match item.data.chunk with
      | .object c => replayChunks (max maxReplayedSeq item.sequenceNumber) rest (s.write (.chunk c))
      | .text _ => replayChunks maxReplayedSeq rest s

def onQueryTimeout (s : QueryStreamState χ) : QueryStreamState χ :=
  let s := { s with timer := false }
  if s.hasReceivedChunks then s else ((s.write .timeoutError).write .done).endStream

end QueryStreamState

/-- Where `handleQueryStream` stands. -/
inductive HandlerPc (χ : Type*)
  | notOpened
  | awaitingReplay (snapshot : List (Item χ))
  | replayed
  | finished

/-- The chunk store and one handler, for `queryName`. -/
structure System (χ : Type*) where
  queryName : String
  chunks : InMemoryStream (CompletionChunkData χ)
  handler : QueryStreamState χ
  pc : HandlerPc χ

inductive Action (χ : Type*)
  | appendChunk (queryId : String) (chunk : χ)
  | completeQuery (queryId : String)
  | subscribe (waitForQuery : Bool)
  | replay
  | setCaughtUp
  | timeout

namespace System

def start (queryName : String) : System χ :=
  ⟨queryName, .new none, ⟨[], false, false, false, false, false, []⟩, .notOpened⟩

/-- The items of the query, as `getByQuery` returns them. -/
def byQuery (s : System χ) : List (Item χ) :=
  s.chunks.filter 0 fun item => item.data.queryId == s.queryName

/-- An append and the callbacks it runs. -/
def append (s : System χ) (data : CompletionChunkData χ) : System χ :=
  { s with
    chunks := s.chunks.append 0 data none
    handler := if s.handler.subscribed && data.queryId == s.queryName
      then s.handler.onItem (s.chunks.newItem 0 data none) else s.handler }

def replay (s : System χ) (snapshot : List (Item χ)) : System χ :=
  let r := s.handler.replayChunks (-1) snapshot
  { s with handler := r.1, pc := if r.2 then .replayed else .finished }

def step (s : System χ) (a : Action χ) : Option (System χ) :=
  match a, s.pc with
  | .appendChunk queryId chunk, _ => some (s.append ⟨queryId, .object chunk, false⟩)
  | .completeQuery queryId, _ => some (s.append ⟨queryId, .text "[DONE]", true⟩)
  | .subscribe waitForQuery, .notOpened =>
    some { s with
      handler := { s.handler with subscribed := true, timer := waitForQuery }
      pc := .awaitingReplay s.byQuery }
  | .replay, .awaitingReplay snapshot => some (s.replay snapshot)
  | .setCaughtUp, .replayed =>
    some { s with handler := { s.handler with caughtUp := true }, pc := .finished }
  | .timeout, _ => if s.handler.timer then some { s with handler := s.handler.onQueryTimeout }
    else none
  | _, _ => none

def machine (χ : Type*) : Machine (System χ) (Action χ) where
  init s := ∃ queryName, s = start queryName
  step := step

end System

/-! ### The chunks before the completion marker -/

variable {l l' : List (Item χ)} {item : Item χ}

theorem chunksBeforeCompletion_append (h : ∀ x ∈ l, x.data.complete = false) :
    chunksBeforeCompletion (l ++ l')
      = chunksBeforeCompletion l ++ chunksBeforeCompletion l' := by
  induction l with
  | nil => rfl
  | cons x l ih =>
    have hx : x.data.complete = false := h x List.mem_cons_self
    have hrest := ih fun y hy => h y (List.mem_cons_of_mem x hy)
    simp only [List.cons_append, chunksBeforeCompletion, hx, Bool.false_eq_true, if_false]
    cases x.data.chunk with
    | object c => simp [hrest]
    | text t => exact hrest

theorem exists_complete_tail (h : ∃ x ∈ item :: l, x.data.complete = true)
    (hitem : item.data.complete = false) : ∃ x ∈ l, x.data.complete = true := by
  obtain ⟨x, hx, hcomplete⟩ := h
  rcases List.mem_cons.mp hx with rfl | hx
  · simp [hitem] at hcomplete
  · exact ⟨x, hx, hcomplete⟩

/-- What comes after a completion marker is not expected any more. -/
theorem chunksBeforeCompletion_append_of_complete (h : ∃ x ∈ l, x.data.complete = true) :
    chunksBeforeCompletion (l ++ l') = chunksBeforeCompletion l := by
  induction l with
  | nil => simp at h
  | cons x l ih =>
    cases hx : x.data.complete with
    | true => simp [chunksBeforeCompletion, hx]
    | false =>
      have hrest := exists_complete_tail h hx
      simp only [List.cons_append, chunksBeforeCompletion, hx, Bool.false_eq_true, if_false, ih hrest]

theorem chunksBeforeCompletion_concat (h : item.data.complete = true) :
    chunksBeforeCompletion (l ++ [item]) = chunksBeforeCompletion l := by
  by_cases hl : ∃ x ∈ l, x.data.complete = true
  · exact chunksBeforeCompletion_append_of_complete hl
  · have hnone : ∀ x ∈ l, x.data.complete = false := fun x hx => by
      simpa using fun hc => hl ⟨x, hx, hc⟩
    rw [chunksBeforeCompletion_append hnone]
    simp [chunksBeforeCompletion, h]

/-! ### Replay and flush -/

namespace QueryStreamState

variable {s : QueryStreamState χ} {m : Int}

theorem write_of_ended (h : s.ended = true) (f : Frame χ) : s.write f = s := if_pos h

theorem write_of_open (h : s.ended = false) (f : Frame χ) :
    s.write f = { s with sent := s.sent ++ [f] } := by
  simp [write, h]

theorem completeHandler_of_ended (h : s.ended = true) (hsub : s.subscribed = false) :
    s.completeHandler = s := by
  rw [completeHandler, write_of_ended h]
  obtain ⟨sent, ended, subscribed, caughtUp, received, timer, buffer⟩ := s
  obtain rfl : ended = true := h
  obtain rfl : subscribed = false := hsub
  rfl

theorem flushBuffer_ended (h : s.ended = true) (hsub : s.subscribed = false) (l : List (Item χ)) :
    (flushBuffer m l s).1 = s := by
  induction l with
  | nil => rfl
  | cons x l ih =>
    unfold flushBuffer
    split
    · exact ih
    · split
      · exact completeHandler_of_ended h hsub
      · have hw : s.writeChunk x = s := by
          unfold writeChunk
          split
          · exact write_of_ended h _
          · rfl
        rw [hw]
        exact ih

/-- A replay into a response that has ended changes nothing. -/
theorem replayChunks_ended (h : s.ended = true) (hsub : s.subscribed = false)
    (l : List (Item χ)) : (replayChunks m l s).1 = s := by
  induction l generalizing m with
  | nil => exact flushBuffer_ended h hsub s.buffer
  | cons x l ih =>
    unfold replayChunks
    split
    · exact completeHandler_of_ended h hsub
    · split
      · rw [write_of_ended h]
        exact ih
      · exact ih

theorem flushBuffer_open (h : s.ended = false)
    (hl : ∀ x ∈ l, m < x.sequenceNumber ∧ x.data.complete = false) :
    flushBuffer m l s
      = ({ s with sent := s.sent ++ (chunksBeforeCompletion l).map .chunk }, true) := by
  induction l generalizing s with
  | nil => simp [flushBuffer, chunksBeforeCompletion]
  | cons x l ih =>
    obtain ⟨hseq, hx⟩ := hl x List.mem_cons_self
    have hrest : ∀ y ∈ l, m < y.sequenceNumber ∧ y.data.complete = false :=
      fun y hy => hl y (List.mem_cons_of_mem x hy)
    have hnot : ¬ (x.sequenceNumber : Int) ≤ m := by omega
    simp only [flushBuffer, if_neg hnot, hx, Bool.false_eq_true, if_false, chunksBeforeCompletion,
      writeChunk]
    cases x.data.chunk with
    | object c =>
      simp only [write_of_open h]
      rw [ih (s := { s with sent := s.sent ++ [.chunk c] }) h hrest]
      simp
    | text t => exact ih h hrest

/-- A snapshot without a completion is sent whole, and the buffer after it. -/
theorem replayChunks_open (h : s.ended = false) (hl : ∀ x ∈ l, x.data.complete = false)
    (hbuffer : ∀ y ∈ s.buffer, m < y.sequenceNumber ∧ y.data.complete = false)
    (horder : ∀ x ∈ l, ∀ y ∈ s.buffer, x.sequenceNumber < y.sequenceNumber) :
    replayChunks m l s = ({ s with
      sent := s.sent ++ (chunksBeforeCompletion (l ++ s.buffer)).map .chunk }, true) := by
  induction l generalizing s m with
  | nil => exact flushBuffer_open h hbuffer
  | cons x l ih =>
    have hx : x.data.complete = false := hl x List.mem_cons_self
    have hl' : ∀ y ∈ l, y.data.complete = false := fun y hy => hl y (List.mem_cons_of_mem x hy)
    have horder' : ∀ z ∈ l, ∀ y ∈ s.buffer, z.sequenceNumber < y.sequenceNumber :=
      fun z hz => horder z (List.mem_cons_of_mem x hz)
    simp only [replayChunks, hx, Bool.false_eq_true, if_false, List.cons_append,
      chunksBeforeCompletion]
    cases x.data.chunk with
    | object c =>
      have hmax : ∀ y ∈ s.buffer,
          max m x.sequenceNumber < y.sequenceNumber ∧ y.data.complete = false := fun y hy => by
        have hlt := horder x List.mem_cons_self y hy
        have hm := hbuffer y hy
        exact ⟨by omega, hm.2⟩
      simp only [write_of_open h]
      rw [ih (s := { s with sent := s.sent ++ [.chunk c] }) h hl' hmax horder']
      simp
    | text t => exact ih h hl' hbuffer horder'

/-- A snapshot with a completion is sent up to it, and the stream is closed. -/
theorem replayChunks_complete (h : s.ended = false) (hl : ∃ x ∈ l, x.data.complete = true) :
    replayChunks m l s = ({ s with
      sent := s.sent ++ (chunksBeforeCompletion l).map .chunk ++ [.done]
      ended := true
      subscribed := false }, false) := by
  induction l generalizing s m with
  | nil => simp at hl
  | cons x l ih =>
    cases hx : x.data.complete with
    | true =>
      simp only [replayChunks, hx, if_true, chunksBeforeCompletion, completeHandler,
        write_of_open h, endStream]
      simp
    | false =>
      have hrest := exists_complete_tail hl hx
      simp only [replayChunks, hx, Bool.false_eq_true, if_false, chunksBeforeCompletion]
      cases x.data.chunk with
      | object c =>
        simp only [write_of_open h]
        rw [ih (s := { s with sent := s.sent ++ [.chunk c] }) h hrest]
        simp
      | text t => exact ih h hrest

end QueryStreamState

/-! ### The handler loses nothing -/

namespace System

/-- The completion was sent after exactly the chunks before it, and the handler is unsubscribed. -/
structure Delivered (s : System χ) : Prop where
  ended : s.handler.ended = true
  subscribed : s.handler.subscribed = false
  complete : ∃ x ∈ s.byQuery, x.data.complete = true
  sent : s.handler.sent = (chunksBeforeCompletion s.byQuery).map .chunk ++ [.done]

/-- What the client may rely on: while the handler waits for the replay, a completion arrives only if
no chunk precedes it; no chunk arrives between the flush and `caughtUp`; and the wait timeout does
not fire on a stream that only replayed. -/
def Lossless (s : System χ) : Action χ → Prop
  | .appendChunk queryId _ => queryId = s.queryName → s.handler.ended = false → ¬ s.pc = .replayed
  | .completeQuery queryId => queryId = s.queryName → ∀ snapshot, s.pc = .awaitingReplay snapshot →
      chunksBeforeCompletion s.byQuery = []
  | .timeout => s.handler.hasReceivedChunks = true ∨ s.handler.ended = true
  | _ => True

/-- The response is open and the handler subscribed. -/
structure Open (s : System χ) : Prop where
  ended : s.handler.ended = false
  subscribed : s.handler.subscribed = true

/-- The snapshot and the buffer together are the items of the query. -/
structure Waiting (s : System χ) (snapshot : List (Item χ)) : Prop extends Open s where
  caughtUp : s.handler.caughtUp = false
  sent : s.handler.sent = []
  items : s.byQuery = snapshot ++ s.handler.buffer
  buffer : ∀ x ∈ s.handler.buffer, x.data.complete = false

/-- Everything the query has was sent. -/
structure Live (s : System χ) : Prop extends Open s where
  sent : s.handler.sent = (chunksBeforeCompletion s.byQuery).map .chunk
  incomplete : ∀ x ∈ s.byQuery, x.data.complete = false

def HandlerInv (s : System χ) : HandlerPc χ → Prop
  | .notOpened => s.handler = ⟨[], false, false, false, false, false, []⟩
  | .awaitingReplay snapshot => s.Delivered ∨ s.Waiting snapshot
  | .replayed => s.Delivered ∨ s.Live ∧ s.handler.caughtUp = false
  | .finished => s.Delivered ∨ s.Live ∧ s.handler.caughtUp = true

structure Inv (s : System χ) : Prop where
  ordered : s.chunks.Ordered
  noTtl : s.chunks.ttlMs = none
  handler : s.HandlerInv s.pc

variable {s t : System χ} {data : CompletionChunkData χ}

theorem byQuery_append (h : s.chunks.ttlMs = none) : (s.append data).byQuery
    = if data.queryId = s.queryName then s.byQuery ++ [s.chunks.newItem 0 data none]
      else s.byQuery := by
  have happ : (s.chunks.append 0 data none).ttlMs = none := h
  simp only [byQuery, append, InMemoryStream.filter, InMemoryStream.live, h, happ,
    Option.isNone_none, if_true]
  by_cases hq : data.queryId = s.queryName
  · simp [InMemoryStream.append, InMemoryStream.newItem, List.filter_append, hq]
  · simp [InMemoryStream.append, InMemoryStream.newItem, List.filter_append, hq]

/-- Items of the query are increasing, so a later part of them lies above an earlier one. -/
theorem byQuery_increasing (h : s.chunks.Ordered) (httl : s.chunks.ttlMs = none) :
    s.byQuery.Pairwise fun x y => x.sequenceNumber < y.sequenceNumber := by
  simp only [byQuery, InMemoryStream.filter, InMemoryStream.live, httl, Option.isNone_none, if_true]
  exact h.increasing.filter _

/-- The invariant does not look past the items of the query and the handler. -/
theorem HandlerInv.congr {pc : HandlerPc χ} (h : s.HandlerInv pc) (hi : t.byQuery = s.byQuery)
    (hh : t.handler = s.handler) : t.HandlerInv pc := by
  have hd : s.Delivered → t.Delivered := fun hd =>
    ⟨hh ▸ hd.ended, hh ▸ hd.subscribed, hi ▸ hd.complete, by rw [hh, hi]; exact hd.sent⟩
  have hl : s.Live → t.Live := fun hl =>
    ⟨⟨hh ▸ hl.ended, hh ▸ hl.subscribed⟩, by rw [hh, hi]; exact hl.sent, hi ▸ hl.incomplete⟩
  cases pc with
  | notOpened => exact hh.trans h
  | awaitingReplay snapshot =>
    refine h.imp hd fun hw => ?_
    exact ⟨⟨hh ▸ hw.ended, hh ▸ hw.subscribed⟩, hh ▸ hw.caughtUp, hh ▸ hw.sent,
      by rw [hh, hi]; exact hw.items, hh ▸ hw.buffer⟩
  | replayed => exact h.imp hd fun ⟨h', hc⟩ => ⟨hl h', hh ▸ hc⟩
  | finished => exact h.imp hd fun ⟨h', hc⟩ => ⟨hl h', hh ▸ hc⟩

/-- A closed stream stays as it is whatever is appended. -/
theorem Delivered.append (h : s.Delivered) (httl : s.chunks.ttlMs = none) :
    (s.append data).Delivered := by
  have hhandler : (s.append data).handler = s.handler := by simp [System.append, h.subscribed]
  have hitems := @byQuery_append _ s data httl
  by_cases hq : data.queryId = s.queryName
  · rw [if_pos hq] at hitems
    refine ⟨hhandler ▸ h.ended, hhandler ▸ h.subscribed, ?_, ?_⟩
    · obtain ⟨x, hx, hcomplete⟩ := h.complete
      exact ⟨x, hitems ▸ List.mem_append_left _ hx, hcomplete⟩
    · rw [hhandler, hitems, chunksBeforeCompletion_append_of_complete h.complete]
      exact h.sent
  · rw [if_neg hq] at hitems
    exact ⟨hhandler ▸ h.ended, hhandler ▸ h.subscribed, hitems ▸ h.complete,
      by rw [hhandler, hitems]; exact h.sent⟩

/-- A completion that arrives when everything before it was sent closes the stream as it should. -/
theorem delivered_of_completion (h : s.Open) (httl : s.chunks.ttlMs = none)
    (hcomplete : data.complete = true) (hq : data.queryId = s.queryName)
    (hsent : s.handler.sent = (chunksBeforeCompletion s.byQuery).map .chunk) :
    (s.append data).Delivered := by
  have hitems := @byQuery_append _ s data httl
  rw [if_pos hq] at hitems
  have hhandler : (s.append data).handler = s.handler.completeHandler := by
    simp [System.append, h.subscribed, hq, QueryStreamState.onItem, InMemoryStream.newItem, hcomplete]
  rw [QueryStreamState.completeHandler, QueryStreamState.write_of_open h.ended] at hhandler
  refine ⟨by rw [hhandler]; rfl, by rw [hhandler]; rfl, ?_, ?_⟩
  · exact ⟨s.chunks.newItem 0 data none, by simp [hitems], hcomplete⟩
  · rw [hhandler, hitems, chunksBeforeCompletion_concat hcomplete, ← hsent]
    rfl

theorem HandlerInv.completeQuery (h : s.HandlerInv s.pc) (httl : s.chunks.ttlMs = none)
    {queryId : String} (hok : s.Lossless (.completeQuery queryId)) :
    (s.append ⟨queryId, .text "[DONE]", true⟩).HandlerInv s.pc := by
  by_cases hq : queryId = s.queryName
  · have hclose : s.Open → s.handler.sent = (chunksBeforeCompletion s.byQuery).map .chunk →
        (s.append ⟨queryId, .text "[DONE]", true⟩).Delivered :=
      fun hopen hsent => delivered_of_completion hopen httl rfl hq hsent
    cases hpc : s.pc with
    | notOpened =>
      rw [hpc] at h
      have hsub : s.handler.subscribed = false := by rw [h]
      have hhandler : (s.append ⟨queryId, .text "[DONE]", true⟩).handler = s.handler := by
        simp [System.append, hsub]
      exact hhandler.trans h
    | awaitingReplay snapshot =>
      rw [hpc] at h
      refine Or.inl (h.elim (·.append httl) fun hw => hclose hw.toOpen ?_)
      rw [hok hq snapshot hpc]
      exact hw.sent
    | replayed =>
      rw [hpc] at h
      exact Or.inl (h.elim (·.append httl) fun hl => hclose hl.1.toOpen hl.1.sent)
    | finished =>
      rw [hpc] at h
      exact Or.inl (h.elim (·.append httl) fun hl => hclose hl.1.toOpen hl.1.sent)
  · apply h.congr
    · rw [byQuery_append httl, if_neg hq]
    · simp [System.append, hq]

/-- While the replay is awaited a chunk of the query goes to the buffer. -/
theorem Waiting.appendChunk {snapshot : List (Item χ)} {chunk : χ} (h : s.Waiting snapshot)
    (httl : s.chunks.ttlMs = none) :
    (s.append ⟨s.queryName, .object chunk, false⟩).Waiting snapshot := by
  let item := s.chunks.newItem 0 ⟨s.queryName, .object chunk, false⟩ none
  have hitems : (s.append ⟨s.queryName, .object chunk, false⟩).byQuery = s.byQuery ++ [item] := by
    rw [byQuery_append httl, if_pos rfl]
  have hhandler : (s.append ⟨s.queryName, .object chunk, false⟩).handler
      = { s.handler with
          hasReceivedChunks := true
          timer := false
          buffer := s.handler.buffer ++ [item] } := by
    simp [System.append, h.subscribed, QueryStreamState.onItem, InMemoryStream.newItem,
      QueryStreamState.handleIncomingItem, h.caughtUp, item]
  refine ⟨⟨by rw [hhandler]; exact h.ended, by rw [hhandler]; exact h.subscribed⟩,
    by rw [hhandler]; exact h.caughtUp, by rw [hhandler]; exact h.sent, ?_, ?_⟩
  · rw [hitems, hhandler, h.items, List.append_assoc]
  · rw [hhandler]
    intro x hx
    rcases List.mem_append.mp hx with hold | hnew
    · exact h.buffer x hold
    · obtain rfl := List.mem_singleton.mp hnew
      rfl

/-- Once caught up a chunk of the query is written as it arrives. -/
theorem Live.appendChunk {chunk : χ} (h : s.Live) (hc : s.handler.caughtUp = true)
    (httl : s.chunks.ttlMs = none) :
    (s.append ⟨s.queryName, .object chunk, false⟩).Live ∧
      (s.append ⟨s.queryName, .object chunk, false⟩).handler.caughtUp = true := by
  let item := s.chunks.newItem 0 ⟨s.queryName, .object chunk, false⟩ none
  have hitems : (s.append ⟨s.queryName, .object chunk, false⟩).byQuery = s.byQuery ++ [item] := by
    rw [byQuery_append httl, if_pos rfl]
  have hhandler : (s.append ⟨s.queryName, .object chunk, false⟩).handler
      = { s.handler with
          sent := s.handler.sent ++ [.chunk chunk]
          hasReceivedChunks := true
          timer := false } := by
    simp [System.append, h.subscribed, QueryStreamState.onItem, InMemoryStream.newItem,
      QueryStreamState.handleIncomingItem, hc, QueryStreamState.writeChunk, QueryStreamState.write,
      h.ended]
  refine ⟨⟨⟨by rw [hhandler]; exact h.ended, by rw [hhandler]; exact h.subscribed⟩, ?_, ?_⟩,
    by rw [hhandler]; exact hc⟩
  · rw [hhandler, hitems, chunksBeforeCompletion_append h.incomplete, List.map_append, ← h.sent]
    rfl
  · rw [hitems]
    intro x hx
    rcases List.mem_append.mp hx with hold | hnew
    · exact h.incomplete x hold
    · obtain rfl := List.mem_singleton.mp hnew
      rfl

theorem HandlerInv.appendChunk (h : s.HandlerInv s.pc) (httl : s.chunks.ttlMs = none)
    {queryId : String} {chunk : χ} (hok : s.Lossless (.appendChunk queryId chunk)) :
    (s.append ⟨queryId, .object chunk, false⟩).HandlerInv s.pc := by
  by_cases hq : queryId = s.queryName
  · subst hq
    cases hpc : s.pc with
    | notOpened =>
      rw [hpc] at h
      have hsub : s.handler.subscribed = false := by rw [h]
      have hhandler : (s.append ⟨s.queryName, .object chunk, false⟩).handler = s.handler := by
        simp [System.append, hsub]
      exact hhandler.trans h
    | awaitingReplay snapshot =>
      rw [hpc] at h
      exact h.imp (·.append httl) (·.appendChunk httl)
    | replayed =>
      rw [hpc] at h
      exact Or.inl (h.elim (·.append httl) fun hl => absurd hpc (hok rfl hl.1.ended))
    | finished =>
      rw [hpc] at h
      exact h.imp (·.append httl) fun hl => hl.1.appendChunk hl.2 httl
  · apply h.congr
    · rw [byQuery_append httl, if_neg hq]
    · simp [System.append, hq]

theorem HandlerInv.subscribe (h : s.HandlerInv .notOpened) (waitForQuery : Bool) :
    ({ s with
      handler := { s.handler with subscribed := true, timer := waitForQuery }
      pc := .awaitingReplay s.byQuery } : System χ).Waiting s.byQuery := by
  have hhandler : s.handler = ⟨[], false, false, false, false, false, []⟩ := h
  refine ⟨⟨?_, rfl⟩, ?_, ?_, ?_, ?_⟩
  · simp [hhandler]
  · simp [hhandler]
  · simp [hhandler]
  · simp [hhandler, byQuery]
  · simp [hhandler]

theorem Inv.replay (h : s.Inv) {snapshot : List (Item χ)} (hpc : s.pc = .awaitingReplay snapshot) :
    (s.replay snapshot).HandlerInv (s.replay snapshot).pc := by
  have hinv := h.handler
  rw [hpc] at hinv
  rcases hinv with hd | hw
  · have hsame : (s.replay snapshot).handler = s.handler :=
      QueryStreamState.replayChunks_ended hd.ended hd.subscribed snapshot
    have hd' : (s.replay snapshot).Delivered :=
      ⟨hsame ▸ hd.ended, hsame ▸ hd.subscribed, hd.complete, by rw [hsame]; exact hd.sent⟩
    cases hpc' : (s.replay snapshot).pc with
    | notOpened | awaitingReplay _ =>
      unfold System.replay at hpc'
      dsimp only at hpc'
      split at hpc' <;> cases hpc'
    | replayed | finished => exact Or.inl hd'
  · by_cases hcomplete : ∃ x ∈ snapshot, x.data.complete = true
    · have hreplay := QueryStreamState.replayChunks_complete (m := -1) hw.ended hcomplete
      have hpc' : (s.replay snapshot).pc = .finished := by simp [System.replay, hreplay]
      rw [hpc']
      refine Or.inl ⟨by simp [System.replay, hreplay], by simp [System.replay, hreplay], ?_, ?_⟩
      · obtain ⟨x, hx, hc⟩ := hcomplete
        exact ⟨x, hw.items ▸ List.mem_append_left _ hx, hc⟩
      · have hitems : (s.replay snapshot).byQuery = s.byQuery := rfl
        rw [hitems, hw.items, chunksBeforeCompletion_append_of_complete hcomplete]
        simp [System.replay, hreplay, hw.sent]
    · have hnone : ∀ x ∈ snapshot, x.data.complete = false := fun x hx => by
        simpa using fun hc => hcomplete ⟨x, hx, hc⟩
      have hincr := byQuery_increasing h.ordered h.noTtl
      rw [hw.items, List.pairwise_append] at hincr
      have hreplay := QueryStreamState.replayChunks_open (m := -1) hw.ended hnone
        (fun y hy => ⟨by omega, hw.buffer y hy⟩) hincr.2.2
      have hpc' : (s.replay snapshot).pc = .replayed := by simp [System.replay, hreplay]
      rw [hpc']
      have hitems : (s.replay snapshot).byQuery = s.byQuery := rfl
      refine Or.inr ⟨⟨⟨?_, ?_⟩, ?_, ?_⟩, ?_⟩
      · simpa [System.replay, hreplay] using hw.ended
      · simpa [System.replay, hreplay] using hw.subscribed
      · rw [hitems, hw.items]
        simp [System.replay, hreplay, hw.sent]
      · rw [hitems, hw.items]
        intro x hx
        exact (List.mem_append.mp hx).elim (hnone x) (hw.buffer x)
      · simpa [System.replay, hreplay] using hw.caughtUp

theorem HandlerInv.timeout {pc : HandlerPc χ} (h : s.HandlerInv pc)
    (htimer : s.handler.timer = true)
    (hok : s.handler.hasReceivedChunks = true ∨ s.handler.ended = true) :
    ({ s with handler := s.handler.onQueryTimeout } : System χ).HandlerInv pc := by
  have hd : s.Delivered → ({ s with handler := s.handler.onQueryTimeout } : System χ).Delivered := by
    intro hd
    have hsame : s.handler.onQueryTimeout = { s.handler with timer := false } := by
      unfold QueryStreamState.onQueryTimeout
      by_cases hr : s.handler.hasReceivedChunks = true
      · simp [hr]
      · simp [hr, QueryStreamState.write, hd.ended, hd.subscribed, QueryStreamState.endStream]
    exact ⟨by rw [hsame]; exact hd.ended, by rw [hsame]; exact hd.subscribed, hd.complete,
      by rw [hsame]; exact hd.sent⟩
  have hopen : s.Open → s.handler.onQueryTimeout = { s.handler with timer := false } := by
    intro ho
    have hr : s.handler.hasReceivedChunks = true :=
      hok.resolve_right (by simp [ho.ended])
    simp [QueryStreamState.onQueryTimeout, hr]
  cases pc with
  | notOpened =>
    have hhandler : s.handler = ⟨[], false, false, false, false, false, []⟩ := h
    simp [hhandler] at htimer
  | awaitingReplay snapshot =>
    refine h.imp hd fun hw => ?_
    rw [hopen hw.toOpen]
    exact ⟨⟨hw.ended, hw.subscribed⟩, hw.caughtUp, hw.sent, hw.items, hw.buffer⟩
  | replayed | finished =>
    refine h.imp hd fun hl => ?_
    rw [hopen hl.1.toOpen]
    exact ⟨⟨⟨hl.1.ended, hl.1.subscribed⟩, hl.1.sent, hl.1.incomplete⟩, hl.2⟩

theorem Inv.step {a : Action χ} (h : s.Inv) (hok : s.Lossless a) (hs : s.step a = some t) :
    t.Inv := by
  unfold System.step at hs
  split at hs
  next queryId chunk pc =>
    obtain rfl := Option.some.inj hs
    exact ⟨h.ordered.append _ _ _, h.noTtl, h.handler.appendChunk h.noTtl hok⟩
  next queryId pc =>
    obtain rfl := Option.some.inj hs
    exact ⟨h.ordered.append _ _ _, h.noTtl, h.handler.completeQuery h.noTtl hok⟩
  next waitForQuery hpc =>
    obtain rfl := Option.some.inj hs
    have hinv := h.handler
    rw [hpc] at hinv
    exact ⟨h.ordered, h.noTtl, Or.inr (hinv.subscribe waitForQuery)⟩
  next snapshot hpc =>
    obtain rfl := Option.some.inj hs
    exact ⟨h.ordered, h.noTtl, h.replay hpc⟩
  next hpc =>
    obtain rfl := Option.some.inj hs
    have hinv := h.handler
    rw [hpc] at hinv
    refine ⟨h.ordered, h.noTtl, ?_⟩
    rcases hinv with hd | ⟨hl, _⟩
    · exact Or.inl ⟨hd.ended, hd.subscribed, hd.complete, hd.sent⟩
    · exact Or.inr ⟨⟨⟨hl.ended, hl.subscribed⟩, hl.sent, hl.incomplete⟩, rfl⟩
  next pc =>
    obtain ⟨htimer, rfl⟩ := Option.ite_none_right_eq_some.mp hs |>.imp_right Option.some.inj
    exact ⟨h.ordered, h.noTtl, h.handler.timeout htimer hok⟩
  next => cases hs

theorem inv_of_reachable (h : (machine χ).Reachable Lossless s) : s.Inv := by
  apply h.invariant
  · rintro s ⟨queryName, rfl⟩
    exact ⟨InMemoryStream.ordered_new none, rfl, rfl⟩
  · intro s a t hinv hok hs
    exact hinv.step hok hs

/-- Once the query is complete and the handler has run all its steps, the client was sent the chunks
before the completion, each once and in order, one `[DONE]` and nothing after it. -/
theorem query_stream_lossless (h : (machine χ).Reachable Lossless s)
    (hpc : s.pc = .finished) (hcomplete : ∃ x ∈ s.byQuery, x.data.complete = true) :
    s.handler.sent = (chunksBeforeCompletion s.byQuery).map .chunk ++ [.done] := by
  have hinv := (inv_of_reachable h).handler
  rw [hpc] at hinv
  rcases hinv with hd | ⟨hl, _⟩
  · exact hd.sent
  · obtain ⟨x, hx, hc⟩ := hcomplete
    simp [hl.incomplete x hx] at hc

/-- A check that implies `Lossless`. -/
def quiet (s : System χ) : Action χ → Bool
  | .appendChunk _ _ => match s.pc with
    | .replayed => false
    | _ => true
  | .completeQuery _ => match s.pc with
    | .awaitingReplay _ => false
    | _ => true
  | .timeout => false
  | _ => true

theorem lossless_of_quiet (s : System χ) (a : Action χ) (h : s.quiet a = true) : s.Lossless a := by
  cases a with
  | appendChunk queryId chunk =>
    intro _ _ hpc
    simp [quiet, hpc] at h
  | completeQuery queryId =>
    intro _ snapshot hpc
    simp [quiet, hpc] at h
  | timeout => cases h
  | subscribe _ | replay | setCaughtUp => trivial

/-- The handler has finished, the query is complete and `expected` and `sent` are as given. -/
def outcome (s : System String) (expected : List String) (sent : List (Frame String)) : Bool :=
  (s.pc matches .finished) && s.byQuery.any (·.data.complete) &&
    decide (chunksBeforeCompletion s.byQuery = expected) && decide (s.handler.sent = sent)

theorem outcome_spec {s : System String} {expected : List String} {sent : List (Frame String)}
    (h : s.outcome expected sent = true) : s.pc = .finished ∧
      (∃ x ∈ s.byQuery, x.data.complete = true) ∧ chunksBeforeCompletion s.byQuery = expected ∧
      s.handler.sent = sent := by
  simp only [outcome, Bool.and_eq_true, decide_eq_true_eq, List.any_eq_true] at h
  obtain ⟨⟨⟨hpc, hc⟩, he⟩, hs⟩ := h
  refine ⟨?_, hc, he, hs⟩
  cases hp : s.pc with
  | finished => rfl
  | notOpened | awaitingReplay _ | replayed => simp [hp] at hpc

/-- Chunks before the snapshot, while the replay is awaited and after it. -/
theorem query_stream_lossless_three : ∃ s : System String, s.pc = .finished ∧
    s.handler.sent = [.chunk "a", .chunk "b", .chunk "c", .done] := by
  obtain ⟨s, hs, hp⟩ : ∃ s, (machine String).Reachable Lossless s ∧
      s.outcome ["a", "b", "c"] [.chunk "a", .chunk "b", .chunk "c", .done] = true :=
    Machine.exists_reachable (b := quiet) ⟨"q", rfl⟩ lossless_of_quiet
      (l := [.appendChunk "q" "a", .appendChunk "r" "x", .subscribe false, .appendChunk "q" "b",
        .replay, .setCaughtUp, .appendChunk "q" "c", .completeQuery "q"]) (by decide)
  obtain ⟨hpc, hcomplete, hexpected, _⟩ := outcome_spec hp
  have hsent := query_stream_lossless hs hpc hcomplete
  rw [hexpected] at hsent
  exact ⟨s, hpc, hsent⟩

/-- A completion seen while the replay is awaited closes the response before the replay; a chunk
appended between the flush and `caughtUp` stays in the buffer. -/
theorem query_stream_loses_chunks :
    (∃ s, (machine String).Reachable Machine.always s ∧ s.outcome ["a"] [.done] = true ∧
      s.handler.buffer = []) ∧
    ∃ s, (machine String).Reachable Machine.always s ∧ s.outcome ["a"] [.done] = true ∧
      s.handler.buffer.map (·.data.chunk) = [.object "a"] := by
  constructor
  · obtain ⟨s, hs, hp⟩ : ∃ s, (machine String).Reachable Machine.always s ∧
        (s.outcome ["a"] [.done] && s.handler.buffer.isEmpty) = true :=
      Machine.exists_reachable (b := fun _ _ => true) ⟨"q", rfl⟩ (fun _ _ _ => trivial)
        (l := [.appendChunk "q" "a", .subscribe false, .completeQuery "q", .replay, .setCaughtUp])
        (by decide)
    exact ⟨s, hs, by simpa using hp⟩
  · obtain ⟨s, hs, hp⟩ : ∃ s, (machine String).Reachable Machine.always s ∧
        (s.outcome ["a"] [.done] &&
          decide (s.handler.buffer.map (·.data.chunk) = [.object "a"])) = true :=
      Machine.exists_reachable (b := fun _ _ => true) ⟨"q", rfl⟩ (fun _ _ _ => trivial)
        (l := [.subscribe false, .replay, .appendChunk "q" "a", .setCaughtUp, .completeQuery "q"])
        (by decide)
    exact ⟨s, hs, by simpa using hp⟩

end System

end QueryStream

end Ark
