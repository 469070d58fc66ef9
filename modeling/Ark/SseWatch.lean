import Ark.InMemoryStream
import Ark.Machine
import Mathlib.Data.List.Perm.Basic
import Mathlib.Data.List.Sort

/-!
# Watching a stream over SSE

`streamSSE` subscribes to a stream, runs the replay query, writes its rows and what was buffered
meanwhile, and then writes items as they arrive. Over the in-memory stream an append is one step and
the replay query is answered at once. Over PostgreSQL an append takes its sequence numbers when it
inserts, becomes visible when it commits and is emitted after that, and the replay query runs at
some later moment. Items neither expire nor are deleted here, and writes succeed.
-/

namespace Ark

/-- What the filters read of a stored message or event, and the rest. -/
structure StreamData (π : Type*) where
  conversationId : String
  queryId : String
  sessionId : Option String
  payload : π
  deriving DecidableEq, Repr

/-- An optional query parameter where JavaScript tests it for truth. -/
def truthy (v : Option String) : Option String := v.filter (· != "")

/-- A filter value that is not set lets everything pass. -/
def passes (wanted : Option String) (x : Option String) : Bool :=
  wanted.all fun v => x == some v

namespace SseWatch

variable {π : Type*}

abbrev Item (π : Type*) := BrokerItem (StreamData π)

inductive Backend
  | inMemory
  | postgres
  deriving DecidableEq, Repr

/-- A watch route with its filter. -/
inductive Route
  | messages (conversationId : Option String)
  | allEvents (sessionId : Option String)
  | queryEvents (queryId : String)
  deriving DecidableEq, Repr

/-- The route passes `getSequence` to `streamSSE`. -/
def Route.sequenced : Route → Bool
  | .messages _ => true
  | .allEvents _ | .queryEvents _ => false

/-- What lets an emitted item through, in the subscription or in `streamSSE`. -/
def Route.liveFilter (r : Route) (d : StreamData π) : Bool :=
  match r with
  | .messages conversationId => passes (truthy conversationId) (some d.conversationId)
  | .allEvents sessionId => passes (truthy sessionId) d.sessionId
  | .queryEvents queryId => d.queryId == queryId

/-- The predicate of `filterBy`: an in-memory `predicateFor` or a `whereFor` clause. -/
def Route.replayFilter (r : Route) (b : Backend) (d : StreamData π) : Bool :=
  let value (v : Option String) := match b with
    | .inMemory => v
    | .postgres => truthy v
  match r with
  | .messages conversationId => passes (value conversationId) (some d.conversationId)
  | .allEvents sessionId => passes (value sessionId) d.sessionId
  | .queryEvents queryId => passes (value (some queryId)) (some d.queryId)

/-- `maxReplayedSeq` after the loop over the replayed items. -/
def maxReplayedSeq (sequenced : Bool) (rows : List (Item π)) : Int :=
  if sequenced then rows.foldl (fun m x => max m x.sequenceNumber) (-1) else -1

/-- The variables of `streamSSE` and what it wrote. -/
structure Sse (π : Type*) where
  caughtUp : Bool
  buffer : List (Item π)
  written : List (Item π)

namespace Sse

/-- The callback given to `subscribe`. -/
def onItem (r : Route) (h : Sse π) (x : Item π) : Sse π :=
  if !r.liveFilter x.data then h
  else if h.caughtUp then { h with written := h.written ++ [x] }
  else { h with buffer := h.buffer ++ [x] }

/-- The test of the loop over the buffer. -/
def keeps (sequenced : Bool) (maxSeq : Int) (x : Item π) : Bool :=
  !sequenced || decide (maxSeq < (x.sequenceNumber : Int))

/-- The continuation of the replay query. -/
def flush (r : Route) (h : Sse π) (rows : List (Item π)) : Sse π :=
  { h with
    written := h.written ++ rows ++
      h.buffer.filter (keeps r.sequenced (maxReplayedSeq r.sequenced rows))
    caughtUp := true }

end Sse

/-- Where the watch stands, with the rows its replay query returned. -/
inductive WatchPc (π : Type*)
  | notOpened
  | selecting
  | replaying (rows : List (Item π))
  | live (rows : List (Item π))

/-- A stream, its appends in progress and one watch. `inserting` holds inserted rows with the append
they belong to, `unemitted` the batches that committed and were not emitted yet. -/
structure System (π : Type*) where
  route : Route
  backend : Backend
  cursor : Nat
  nextSequence : Nat
  inserting : List (Nat × Item π)
  committed : List (Item π)
  unemitted : List (List (Item π))
  sse : Sse π
  pc : WatchPc π

inductive Action (π : Type*)
  | append (d : StreamData π)
  | insertRow (tag : Nat) (d : StreamData π)
  | commit (tag : Nat)
  | rollback (tag : Nat)
  | emit (i : Nat)
  | subscribe
  | select
  | flush

namespace System

def start (route : Route) (backend : Backend) (cursor : Nat) : System π :=
  ⟨route, backend, cursor, 1, [], [], [], ⟨false, [], []⟩, .notOpened⟩

def newItem (s : System π) (d : StreamData π) : Item π := ⟨s.nextSequence, 0, none, d⟩

/-- The callback runs only once the watch has subscribed. -/
def deliver (s : System π) (x : Item π) : System π :=
  match s.pc with
  | .notOpened => s
  | _ => { s with sse := s.sse.onItem s.route x }

def replayQuery (s : System π) : List (Item π) :=
  let rows := s.committed.filter fun x =>
    s.route.replayFilter s.backend x.data && decide (s.cursor < x.sequenceNumber)
  match s.backend with
  | .inMemory => rows
  | .postgres => rows.insertionSort fun x y => x.sequenceNumber ≤ y.sequenceNumber

/-- `append` of the in-memory stream. -/
def append (s : System π) (d : StreamData π) : System π :=
  { s with
    nextSequence := s.nextSequence + 1
    committed := s.committed ++ [s.newItem d] }.deliver (s.newItem d)

def insertRow (s : System π) (tag : Nat) (d : StreamData π) : System π :=
  { s with
    nextSequence := s.nextSequence + 1
    inserting := s.inserting ++ [(tag, s.newItem d)] }

/-- The rows of an append commit together; they are emitted in sequence order. -/
def commit (s : System π) (tag : Nat) : System π :=
  let batch := (s.inserting.filter (·.1 == tag)).map (·.2)
  { s with
    inserting := s.inserting.filter (!·.1 == tag)
    committed := s.committed ++ batch
    unemitted := s.unemitted ++ [batch] }

def step (s : System π) (a : Action π) : Option (System π) :=
  match a, s.backend, s.pc with
  | .append d, .inMemory, _ => some (s.append d)
  | .insertRow tag d, .postgres, _ => some (s.insertRow tag d)
  | .commit tag, .postgres, _ => some (s.commit tag)
  | .rollback tag, .postgres, _ =>
    some { s with inserting := s.inserting.filter (!·.1 == tag) }
  | .emit i, .postgres, _ => s.unemitted[i]?.map fun batch =>
    batch.foldl deliver { s with unemitted := s.unemitted.eraseIdx i }
  | .subscribe, .inMemory, .notOpened => some { s with pc := .replaying s.replayQuery }
  | .subscribe, .postgres, .notOpened => some { s with pc := .selecting }
  | .select, .postgres, .selecting => some { s with pc := .replaying s.replayQuery }
  | .flush, _, .replaying rows => some { s with sse := s.sse.flush s.route rows, pc := .live rows }
  | _, _, _ => none

def machine (π : Type*) : Machine (System π) (Action π) where
  init s := ∃ route backend cursor, s = start route backend cursor
  step := step

/-- The item belongs to the watch. -/
def wants (s : System π) (x : Item π) : Bool :=
  s.route.liveFilter x.data && decide (s.cursor < x.sequenceNumber)

def hasSequence (rows : List (Item π)) (n : Nat) : Bool := rows.any (·.sequenceNumber == n)

/-- An item emitted to the watch lies above the cursor and is not written a second time or skipped:
before the flush a row of the replay is recognised by its sequence and any other item lies above
the rows; after the flush it is no row of the replay. -/
def emitsOnce (s : System π) (x : Item π) : Bool :=
  !s.route.liveFilter x.data ||
  match s.pc with
  | .notOpened => true
  | .selecting => decide (s.cursor < x.sequenceNumber) && s.route.sequenced
  | .replaying rows => decide (s.cursor < x.sequenceNumber) &&
    if hasSequence rows x.sequenceNumber then s.route.sequenced
    else Sse.keeps s.route.sequenced (maxReplayedSeq s.route.sequenced rows) x
  | .live rows => decide (s.cursor < x.sequenceNumber) && !hasSequence rows x.sequenceNumber

/-- The replay query and the live filter select the same of the stored items. -/
def filtersAgree (s : System π) : Bool :=
  s.committed.all fun x => !decide (s.cursor < x.sequenceNumber) ||
    s.route.replayFilter s.backend x.data == s.route.liveFilter x.data

def faithful (s : System π) (a : Action π) : Bool :=
  match a, s.backend with
  | .append d, _ => s.emitsOnce (s.newItem d)
  | .emit i, _ => s.unemitted[i]?.all fun batch => batch.all s.emitsOnce
  | .subscribe, .inMemory | .select, _ => s.filtersAgree
  | _, _ => true

/-! ### What the stream stores -/

/-- Sequence numbers are distinct and below the next one; what was not emitted is committed. -/
structure Stored (s : System π) : Prop where
  distinct : ((s.inserting.map (·.2) ++ s.committed).map (·.sequenceNumber)).Nodup
  below : ∀ x ∈ s.inserting.map (·.2) ++ s.committed, x.sequenceNumber < s.nextSequence
  pendingNodup : s.unemitted.flatten.Nodup
  pendingCommitted : ∀ x ∈ s.unemitted.flatten, x ∈ s.committed

variable {s t : System π} {x y : Item π} {pending pending' : List (Item π)}

theorem Stored.eq_of_sequence (h : s.Stored) (hx : x ∈ s.committed) (hy : y ∈ s.committed)
    (hxy : x.sequenceNumber = y.sequenceNumber) : x = y := by
  have hnodup := h.distinct
  rw [List.map_append, List.nodup_append] at hnodup
  exact List.inj_on_of_nodup_map hnodup.2.1 hx hy hxy

theorem Stored.committed_nodup (h : s.Stored) : s.committed.Nodup := by
  have hnodup := h.distinct
  rw [List.map_append, List.nodup_append] at hnodup
  exact List.Nodup.of_map _ hnodup.2.1

/-- A row of the replay is recognised by its sequence. -/
theorem Stored.hasSequence_iff (h : s.Stored) {rows : List (Item π)}
    (hrows : ∀ r ∈ rows, r ∈ s.committed) (hx : x ∈ s.committed) :
    hasSequence rows x.sequenceNumber = true ↔ x ∈ rows := by
  unfold hasSequence
  rw [List.any_eq_true]
  constructor
  · rintro ⟨r, hr, heq⟩
    have hseq : r.sequenceNumber = x.sequenceNumber := by simpa using heq
    exact h.eq_of_sequence (hrows r hr) hx hseq ▸ hr
  · intro hmem
    exact ⟨x, hmem, by simp⟩

theorem Stored.fresh (h : s.Stored) (d : StreamData π) :
    ∀ y ∈ s.inserting.map (·.2) ++ s.committed, y.sequenceNumber ≠ (s.newItem d).sequenceNumber :=
  fun y hy => Nat.ne_of_lt (h.below y hy)

theorem Stored.insertRow (h : s.Stored) (tag : Nat) (d : StreamData π) :
    (s.insertRow tag d).Stored := by
  have hperm : List.Perm ((s.insertRow tag d).inserting.map (·.2) ++ (s.insertRow tag d).committed)
      (s.newItem d :: (s.inserting.map (·.2) ++ s.committed)) := by
    simp only [System.insertRow, List.map_append, List.map_cons, List.map_nil, List.append_assoc]
    exact List.perm_middle
  constructor
  · rw [(hperm.map _).nodup_iff, List.map_cons, List.nodup_cons]
    refine ⟨?_, h.distinct⟩
    intro hmem
    obtain ⟨y, hy, hseq⟩ := List.mem_map.mp hmem
    exact h.fresh d y hy hseq
  · intro y hy
    rcases List.mem_cons.mp (hperm.mem_iff.mp hy) with rfl | hold
    · exact Nat.lt_succ_self _
    · exact Nat.lt_succ_of_lt (h.below y hold)
  · exact h.pendingNodup
  · exact h.pendingCommitted

theorem Stored.rollback (h : s.Stored) (tag : Nat) :
    ({ s with inserting := s.inserting.filter (!·.1 == tag) } : System π).Stored := by
  have hsub : ((s.inserting.filter (!·.1 == tag)).map (·.2) ++ s.committed).Sublist
      (s.inserting.map (·.2) ++ s.committed) := (List.filter_sublist.map _).append_right _
  exact ⟨h.distinct.sublist (hsub.map _), fun y hy => h.below y (hsub.subset hy), h.pendingNodup,
    h.pendingCommitted⟩

/-- The rows that `commit` makes visible. -/
def batch (s : System π) (tag : Nat) : List (Item π) :=
  (s.inserting.filter (·.1 == tag)).map (·.2)

theorem batch_append_perm (s : System π) (tag : Nat) :
    List.Perm ((s.inserting.filter (!·.1 == tag)).map (·.2) ++ s.batch tag)
      (s.inserting.map (·.2)) := by
  unfold batch
  rw [← List.map_append]
  apply List.Perm.map
  exact List.perm_append_comm.trans (List.filter_append_perm _ _)

theorem Stored.batch_fresh (h : s.Stored) {tag : Nat} (hx : x ∈ s.batch tag) :
    x ∉ s.committed := by
  have hnodup := h.distinct
  rw [List.map_append, List.nodup_append] at hnodup
  have hmem : x ∈ s.inserting.map (·.2) :=
    (batch_append_perm s tag).mem_iff.mp (List.mem_append_right _ hx)
  exact fun hc => hnodup.2.2 _ (List.mem_map_of_mem hmem) _ (List.mem_map_of_mem hc) rfl

theorem Stored.batch_nodup (h : s.Stored) (tag : Nat) : (s.batch tag).Nodup := by
  have hnodup := h.distinct
  rw [List.map_append, List.nodup_append] at hnodup
  have hall := (batch_append_perm s tag).nodup_iff.mpr (List.Nodup.of_map _ hnodup.1)
  exact (List.nodup_append.mp hall).2.1

theorem Stored.commit (h : s.Stored) (tag : Nat) : (s.commit tag).Stored := by
  have hperm : List.Perm ((s.commit tag).inserting.map (·.2) ++ (s.commit tag).committed)
      (s.inserting.map (·.2) ++ s.committed) := by
    have hcommit : List.Perm ((s.commit tag).inserting.map (·.2) ++ (s.commit tag).committed)
        (((s.inserting.filter (!·.1 == tag)).map (·.2) ++ s.batch tag) ++ s.committed) := by
      simp only [System.commit, batch, List.append_assoc]
      exact List.Perm.append_left _ List.perm_append_comm
    exact hcommit.trans ((batch_append_perm s tag).append_right _)
  have hflat : (s.commit tag).unemitted.flatten = s.unemitted.flatten ++ s.batch tag := by
    simp [System.commit, batch]
  constructor
  · exact (hperm.map _).nodup_iff.mpr h.distinct
  · exact fun y hy => h.below y (hperm.mem_iff.mp hy)
  · rw [hflat, List.nodup_append]
    refine ⟨h.pendingNodup, h.batch_nodup tag, fun a ha b hb hab => ?_⟩
    exact h.batch_fresh (hab ▸ hb) (h.pendingCommitted a ha)
  · rw [hflat]
    intro y hy
    rcases List.mem_append.mp hy with hold | hnew
    · exact List.mem_append_left _ (h.pendingCommitted y hold)
    · exact List.mem_append_right _ hnew

theorem Stored.append (h : s.Stored) (d : StreamData π) :
    ({ s with
      nextSequence := s.nextSequence + 1
      committed := s.committed ++ [s.newItem d] } : System π).Stored := by
  have hperm : List.Perm (s.inserting.map (·.2) ++ (s.committed ++ [s.newItem d]))
      (s.newItem d :: (s.inserting.map (·.2) ++ s.committed)) := by
    rw [← List.append_assoc]
    exact List.perm_append_singleton _ _
  constructor
  · rw [(hperm.map _).nodup_iff, List.map_cons, List.nodup_cons]
    refine ⟨?_, h.distinct⟩
    intro hmem
    obtain ⟨y, hy, hseq⟩ := List.mem_map.mp hmem
    exact h.fresh d y hy hseq
  · intro y hy
    rcases List.mem_cons.mp (hperm.mem_iff.mp hy) with rfl | hold
    · exact Nat.lt_succ_self _
    · exact Nat.lt_succ_of_lt (h.below y hold)
  · exact h.pendingNodup
  · exact fun y hy => List.mem_append_left _ (h.pendingCommitted y hy)

/-! ### What the watch has written -/

/-- Until the flush, items of the watch that were emitted wait in the buffer. -/
structure Buffering (s : System π) (pending : List (Item π)) : Prop where
  caughtUp : s.sse.caughtUp = false
  written : s.sse.written = []
  nodup : s.sse.buffer.Nodup
  buffer : ∀ b ∈ s.sse.buffer, b ∈ s.committed ∧ s.wants b = true ∧ b ∉ pending

/-- The rows of the replay, against the buffer and what is still to be emitted. -/
structure Replaying (s : System π) (pending rows : List (Item π)) : Prop extends
    Buffering s pending where
  rowsNodup : rows.Nodup
  stored : ∀ r ∈ rows, r ∈ s.committed ∧ s.wants r = true
  known : ∀ b ∈ s.sse.buffer, b ∈ rows → s.route.sequenced = true
  above : ∀ b ∈ s.sse.buffer, b ∉ rows →
    Sse.keeps s.route.sequenced (maxReplayedSeq s.route.sequenced rows) b = true
  covers : ∀ x ∈ s.committed, s.wants x = true → x ∈ rows ∨ x ∈ s.sse.buffer ∨ x ∈ pending

/-- After the flush, what is wanted was written or is still to be emitted, and never both unless the
replay had it. -/
structure Live (s : System π) (pending rows : List (Item π)) : Prop where
  caughtUp : s.sse.caughtUp = true
  nodup : s.sse.written.Nodup
  stored : ∀ r ∈ rows, r ∈ s.committed
  written : ∀ w ∈ s.sse.written, w ∈ s.committed ∧ s.wants w = true ∧ (w ∈ rows ∨ w ∉ pending)
  covers : ∀ x ∈ s.committed, s.wants x = true → x ∈ s.sse.written ∨ x ∈ pending

def SseInv (s : System π) (pending : List (Item π)) : Prop :=
  match s.pc with
  | .notOpened => s.sse = ⟨false, [], []⟩
  | .selecting => s.Buffering pending ∧ (s.sse.buffer ≠ [] → s.route.sequenced = true)
  | .replaying rows => s.Replaying pending rows
  | .live rows => s.Live pending rows

/-- New rows are visible and still to be emitted. -/
theorem SseInv.commit (h : s.SseInv pending) {rows : List (Item π)}
    (hfresh : ∀ x ∈ rows, x ∉ s.committed) (hc : t.committed = s.committed ++ rows)
    (hsse : t.sse = s.sse) (hpc : t.pc = s.pc) (hroute : t.route = s.route)
    (hcursor : t.cursor = s.cursor) : t.SseInv (pending ++ rows) := by
  have hwants : ∀ x, t.wants x = s.wants x := fun x => by simp [wants, hroute, hcursor]
  have hmem : ∀ x ∈ s.committed, x ∈ t.committed := fun x hx => hc ▸ List.mem_append_left _ hx
  have hout : ∀ x ∈ s.committed, x ∉ pending → x ∉ pending ++ rows := fun x hx hnot hin =>
    (List.mem_append.mp hin).elim hnot fun hr => hfresh x hr hx
  have hbuffering : s.Buffering pending → t.Buffering (pending ++ rows) := fun hb =>
    ⟨hsse ▸ hb.caughtUp, hsse ▸ hb.written, hsse ▸ hb.nodup, fun b hmemb => by
      rw [hsse] at hmemb
      obtain ⟨hbc, hbw, hbp⟩ := hb.buffer b hmemb
      exact ⟨hmem b hbc, (hwants b).trans hbw, hout b hbc hbp⟩⟩
  unfold SseInv at h ⊢
  rw [hpc]
  cases hp : s.pc with
  | notOpened =>
    rw [hp] at h
    exact hsse.trans h
  | selecting =>
    rw [hp] at h
    exact ⟨hbuffering h.1, by rw [hsse, hroute]; exact h.2⟩
  | replaying replay =>
    rw [hp] at h
    refine ⟨hbuffering h.toBuffering, h.rowsNodup, fun r hr => ?_, ?_, ?_, fun x hx hw => ?_⟩
    · exact ⟨hmem r (h.stored r hr).1, (hwants r).trans (h.stored r hr).2⟩
    · rw [hsse, hroute]
      exact h.known
    · rw [hsse, hroute]
      exact h.above
    · rw [hsse]
      rw [hc] at hx
      rcases List.mem_append.mp hx with hold | hnew
      · exact (h.covers x hold ((hwants x).symm.trans hw)).imp_right
          (·.imp_right (List.mem_append_left _))
      · exact Or.inr (Or.inr (List.mem_append_right _ hnew))
  | live replay =>
    rw [hp] at h
    refine ⟨hsse ▸ h.caughtUp, hsse ▸ h.nodup, fun r hr => hmem r (h.stored r hr), ?_, ?_⟩
    · rw [hsse]
      intro w hw
      obtain ⟨hwc, hww, hwp⟩ := h.written w hw
      exact ⟨hmem w hwc, (hwants w).trans hww, hwp.imp_right (hout w hwc)⟩
    · rw [hsse]
      intro x hx hw
      rw [hc] at hx
      rcases List.mem_append.mp hx with hold | hnew
      · exact (h.covers x hold ((hwants x).symm.trans hw)).imp_right (List.mem_append_left _)
      · exact Or.inr (List.mem_append_right _ hnew)

theorem SseInv.congr (h : s.SseInv pending) (hc : t.committed = s.committed) (hsse : t.sse = s.sse)
    (hpc : t.pc = s.pc) (hroute : t.route = s.route) (hcursor : t.cursor = s.cursor) :
    t.SseInv pending := by
  have hgrow : t.SseInv (pending ++ []) :=
    h.commit (by simp) (hc.trans (List.append_nil _).symm) hsse hpc hroute hcursor
  rwa [List.append_nil] at hgrow

/-- Unwanted items may leave the ones to be emitted. -/
theorem SseInv.shrink (h : s.SseInv pending) (hsub : ∀ y, y ∉ pending → y ∉ pending')
    (hkeep : ∀ y, s.pc ≠ .notOpened → s.wants y = true → y ∈ pending → y ∈ pending') :
    s.SseInv pending' := by
  have hbuffering : s.Buffering pending → s.Buffering pending' := fun hb =>
    ⟨hb.caughtUp, hb.written, hb.nodup, fun b hmem => by
      obtain ⟨hbc, hbw, hbp⟩ := hb.buffer b hmem
      exact ⟨hbc, hbw, hsub b hbp⟩⟩
  unfold SseInv at h ⊢
  cases hp : s.pc with
  | notOpened =>
    rw [hp] at h
    exact h
  | selecting =>
    rw [hp] at h
    exact ⟨hbuffering h.1, h.2⟩
  | replaying rows =>
    rw [hp] at h
    refine ⟨hbuffering h.toBuffering, h.rowsNodup, h.stored, h.known, h.above, fun y hy hw => ?_⟩
    exact (h.covers y hy hw).imp_right (·.imp_right (hkeep y (by simp [hp]) hw))
  | live rows =>
    rw [hp] at h
    refine ⟨h.caughtUp, h.nodup, h.stored, fun w hw => ?_, fun y hy hw => ?_⟩
    · obtain ⟨hwc, hww, hwp⟩ := h.written w hw
      exact ⟨hwc, hww, hwp.imp_right (hsub w)⟩
    · exact (h.covers y hy hw).imp_right (hkeep y (by simp [hp]) hw)

theorem deliver_of_wanted (hlive : s.route.liveFilter x.data = true) (hpc : s.pc ≠ .notOpened) :
    s.deliver x = { s with
      sse := if s.sse.caughtUp then { s.sse with written := s.sse.written ++ [x] }
        else { s.sse with buffer := s.sse.buffer ++ [x] } } := by
  unfold deliver
  split
  next hp => exact absurd hp hpc
  next => simp [Sse.onItem, hlive]

theorem deliver_of_skipped (h : s.route.liveFilter x.data = false ∨ s.pc = .notOpened) :
    s.deliver x = s := by
  unfold deliver
  split
  next => rfl
  next hp =>
    have hlive := h.resolve_right hp
    simp [Sse.onItem, hlive]

/-- While the watch buffers, an item that is emitted joins the buffer. -/
theorem Buffering.push (h : s.Buffering pending) (hx : x ∈ s.committed) (hw : s.wants x = true)
    (hin : x ∈ pending) (hsub : ∀ y, y ∉ pending → y ∉ pending') (hout : x ∉ pending')
    (hsse : t.sse = ⟨false, s.sse.buffer ++ [x], s.sse.written⟩)
    (hc : t.committed = s.committed) (hwants : t.wants = s.wants) : t.Buffering pending' := by
  refine ⟨by rw [hsse], by rw [hsse]; exact h.written, ?_, ?_⟩
  · rw [hsse]
    apply List.nodup_append.mpr
    refine ⟨h.nodup, by simp, fun a ha b hb hab => ?_⟩
    obtain rfl := List.mem_singleton.mp hb
    exact (h.buffer a ha).2.2 (hab ▸ hin)
  · rw [hsse, hc, hwants]
    intro b hb
    rcases List.mem_append.mp hb with hold | hnew
    · obtain ⟨hbc, hbw, hbp⟩ := h.buffer b hold
      exact ⟨hbc, hbw, hsub b hbp⟩
    · obtain rfl := List.mem_singleton.mp hnew
      exact ⟨hx, hw, hout⟩

/-- Emitting an item the condition allows. -/
theorem SseInv.deliver (h : s.SseInv pending) (hs : s.Stored) (hx : x ∈ s.committed)
    (hpending : ∀ y, y ∈ pending ↔ y = x ∨ y ∈ pending') (hout : x ∉ pending')
    (he : s.emitsOnce x = true) : (s.deliver x).SseInv pending' := by
  have hin : x ∈ pending := (hpending x).mpr (Or.inl rfl)
  have hsub : ∀ y, y ∉ pending → y ∉ pending' := fun y hy hy' => hy ((hpending y).mpr (Or.inr hy'))
  by_cases hskip : s.route.liveFilter x.data = false ∨ s.pc = .notOpened
  · rw [deliver_of_skipped hskip]
    apply h.shrink hsub
    intro y hpc hw hy
    rcases (hpending y).mp hy with rfl | hy
    · simp [wants, hskip.resolve_right hpc] at hw
    · exact hy
  · rw [not_or, Bool.not_eq_false] at hskip
    obtain ⟨hlive, hpc⟩ := hskip
    rw [deliver_of_wanted hlive hpc]
    simp only [emitsOnce, hlive, Bool.not_true, Bool.false_or] at he
    unfold SseInv at h ⊢
    cases hp : s.pc with
    | notOpened => exact absurd hp hpc
    | selecting =>
      rw [hp] at h he
      obtain ⟨hcursor, hseq⟩ := Bool.and_eq_true_iff.mp he
      have hw : s.wants x = true := Bool.and_eq_true_iff.mpr ⟨hlive, hcursor⟩
      simp only [h.1.caughtUp, Bool.false_eq_true, if_false]
      exact ⟨h.1.push hx hw hin hsub hout rfl rfl rfl, fun _ => hseq⟩
    | replaying rows =>
      rw [hp] at h he
      obtain ⟨hcursor, hrow⟩ := Bool.and_eq_true_iff.mp he
      have hw : s.wants x = true := Bool.and_eq_true_iff.mpr ⟨hlive, hcursor⟩
      have hiff := hs.hasSequence_iff (fun r hr => (h.stored r hr).1) hx
      simp only [h.caughtUp, Bool.false_eq_true, if_false]
      refine ⟨h.toBuffering.push hx hw hin hsub hout rfl rfl rfl, h.rowsNodup, h.stored, ?_, ?_,
        ?_⟩
      · intro b hb hbrows
        rcases List.mem_append.mp hb with hold | hnew
        · exact h.known b hold hbrows
        · obtain rfl := List.mem_singleton.mp hnew
          rw [if_pos (hiff.mpr hbrows)] at hrow
          exact hrow
      · intro b hb hbrows
        rcases List.mem_append.mp hb with hold | hnew
        · exact h.above b hold hbrows
        · obtain rfl := List.mem_singleton.mp hnew
          rw [if_neg (fun hc => hbrows (hiff.mp hc))] at hrow
          exact hrow
      · intro y hy hyw
        rcases h.covers y hy hyw with hr | hb | hpend
        · exact Or.inl hr
        · exact Or.inr (Or.inl (List.mem_append_left _ hb))
        · rcases (hpending y).mp hpend with rfl | hpend
          · exact Or.inr (Or.inl (List.mem_append_right _ (List.mem_singleton.mpr rfl)))
          · exact Or.inr (Or.inr hpend)
    | live rows =>
      rw [hp] at h he
      obtain ⟨hcursor, hrow⟩ := Bool.and_eq_true_iff.mp he
      have hw : s.wants x = true := Bool.and_eq_true_iff.mpr ⟨hlive, hcursor⟩
      have hnot : x ∉ rows := fun hr => by
        rw [(hs.hasSequence_iff h.stored hx).mpr hr] at hrow
        cases hrow
      simp only [h.caughtUp, if_true]
      refine ⟨rfl, ?_, h.stored, ?_, ?_⟩
      · apply List.nodup_append.mpr
        refine ⟨h.nodup, by simp, fun a ha b hb hab => ?_⟩
        obtain rfl := List.mem_singleton.mp hb
        rcases (h.written a ha).2.2 with hr | hnp
        · exact hnot (hab ▸ hr)
        · exact hnp (hab ▸ hin)
      · intro w hwr
        rcases List.mem_append.mp hwr with hold | hnew
        · obtain ⟨hwc, hww, hwp⟩ := h.written w hold
          exact ⟨hwc, hww, hwp.imp_right (hsub w)⟩
        · obtain rfl := List.mem_singleton.mp hnew
          exact ⟨hx, hw, Or.inr hout⟩
      · intro y hy hyw
        rcases h.covers y hy hyw with hwr | hpend
        · exact Or.inl (List.mem_append_left _ hwr)
        · rcases (hpending y).mp hpend with rfl | hpend
          · exact Or.inl (List.mem_append_right _ (List.mem_singleton.mpr rfl))
          · exact Or.inr hpend

theorem Stored.congr (h : s.Stored) (hi : t.inserting = s.inserting)
    (hc : t.committed = s.committed) (hn : t.nextSequence = s.nextSequence)
    (hu : t.unemitted = s.unemitted) : t.Stored where
  distinct := by rw [hi, hc]; exact h.distinct
  below := by rw [hi, hc, hn]; exact h.below
  pendingNodup := by rw [hu]; exact h.pendingNodup
  pendingCommitted := by rw [hu, hc]; exact h.pendingCommitted

/-- Delivering changes nothing but the watch. -/
theorem deliver_eq (s : System π) (x : Item π) : s.deliver x = { s with sse := (s.deliver x).sse } := by
  unfold deliver
  split <;> rfl

theorem emitsOnce_deliver (s : System π) (x y : Item π) :
    (s.deliver x).emitsOnce y = s.emitsOnce y := by
  rw [deliver_eq]
  rfl

/-- Emitting the items of a batch one after the other. -/
theorem SseInv.deliverAll {items : List (Item π)} (h : s.SseInv (items ++ pending)) (hs : s.Stored)
    (hnodup : (items ++ pending).Nodup) (hc : ∀ x ∈ items, x ∈ s.committed)
    (he : ∀ x ∈ items, s.emitsOnce x = true) :
    (items.foldl System.deliver s).SseInv pending ∧ (items.foldl System.deliver s).Stored ∧
      (items.foldl System.deliver s).unemitted = s.unemitted ∧
      (items.foldl System.deliver s).backend = s.backend := by
  induction items generalizing s with
  | nil => exact ⟨h, hs, rfl, rfl⟩
  | cons x items ih =>
    rw [List.cons_append, List.nodup_cons] at hnodup
    have hdel : (s.deliver x).SseInv (items ++ pending) :=
      h.deliver hs (hc x List.mem_cons_self) (fun y => by simp) hnodup.1 (he x List.mem_cons_self)
    have heq := deliver_eq s x
    have hs' : (s.deliver x).Stored := by
      rw [heq]
      exact hs.congr rfl rfl rfl rfl
    have hrest := ih hdel hs' hnodup.2
      (fun y hy => by rw [heq]; exact hc y (List.mem_cons_of_mem x hy))
      (fun y hy => by rw [emitsOnce_deliver]; exact he y (List.mem_cons_of_mem x hy))
    rw [heq] at hrest
    rw [List.foldl_cons, heq]
    exact hrest

theorem Stored.emit (h : s.Stored) {i : Nat} {items : List (Item π)}
    (hi : s.unemitted[i]? = some items) :
    List.Perm (items ++ (s.unemitted.eraseIdx i).flatten) s.unemitted.flatten ∧
      (items ++ (s.unemitted.eraseIdx i).flatten).Nodup ∧ ∀ x ∈ items, x ∈ s.committed := by
  obtain ⟨hlt, rfl⟩ := List.getElem?_eq_some_iff.mp hi
  have hperm : List.Perm (s.unemitted[i] ++ (s.unemitted.eraseIdx i).flatten)
      s.unemitted.flatten := (List.getElem_cons_eraseIdx_perm hlt).flatten
  refine ⟨hperm, hperm.nodup_iff.mpr h.pendingNodup, fun x hx => ?_⟩
  exact h.pendingCommitted x (hperm.mem_iff.mp (List.mem_append_left _ hx))

/-- The replay query returns the stored items of the watch when the filters agree. -/
theorem mem_replayQuery (h : s.filtersAgree = true) :
    x ∈ s.replayQuery ↔ x ∈ s.committed ∧ s.wants x = true := by
  have hrows : x ∈ s.replayQuery ↔ x ∈ s.committed.filter fun x =>
      s.route.replayFilter s.backend x.data && decide (s.cursor < x.sequenceNumber) := by
    unfold replayQuery
    split
    · rfl
    · exact List.mem_insertionSort _
  rw [hrows, List.mem_filter]
  apply and_congr_right
  intro hx
  have hagree := List.all_eq_true.mp h x hx
  by_cases hcursor : s.cursor < x.sequenceNumber
  · simp only [hcursor, decide_true, Bool.not_true, Bool.false_or, beq_iff_eq] at hagree
    simp [wants, hcursor, hagree]
  · simp [wants, hcursor]

theorem replayQuery_nodup (h : s.committed.Nodup) : s.replayQuery.Nodup := by
  unfold replayQuery
  split
  · exact h.filter _
  · exact (List.perm_insertionSort _ _).nodup_iff.mpr (h.filter _)

theorem le_foldl_max {rows : List (Item π)} {m : Int} :
    m ≤ rows.foldl (fun m x => max m x.sequenceNumber) m ∧
      ∀ r ∈ rows, (r.sequenceNumber : Int) ≤ rows.foldl (fun m x => max m x.sequenceNumber) m := by
  induction rows generalizing m with
  | nil => simp
  | cons r rows ih =>
    obtain ⟨hle, hmem⟩ := ih (m := max m r.sequenceNumber)
    rw [List.foldl_cons]
    refine ⟨by omega, fun x hx => ?_⟩
    rcases List.mem_cons.mp hx with rfl | hx
    · omega
    · exact hmem x hx

/-- The replay query starts the replay with the stored items of the watch. -/
theorem Buffering.replay (h : s.Buffering pending) (hs : s.Stored)
    (hseq : s.sse.buffer ≠ [] → s.route.sequenced = true) (hagree : s.filtersAgree = true) :
    ({ s with pc := .replaying s.replayQuery } : System π).Replaying pending s.replayQuery := by
  refine ⟨⟨h.caughtUp, h.written, h.nodup, h.buffer⟩, replayQuery_nodup hs.committed_nodup,
    fun r hr => (mem_replayQuery hagree).mp hr, ?_, ?_, ?_⟩
  · intro b hb _
    exact hseq (List.ne_nil_of_mem hb)
  · intro b hb hnot
    obtain ⟨hbc, hbw, _⟩ := h.buffer b hb
    exact absurd ((mem_replayQuery hagree).mpr ⟨hbc, hbw⟩) hnot
  · intro x hx hw
    exact Or.inl ((mem_replayQuery hagree).mpr ⟨hx, hw⟩)

/-- The flush writes the rows and the buffered items the rows do not have. -/
theorem Replaying.flush {rows : List (Item π)} (h : s.Replaying pending rows) :
    ({ s with sse := s.sse.flush s.route rows, pc := .live rows } : System π).Live pending rows := by
  have hkept : ∀ b ∈ s.sse.buffer,
      Sse.keeps s.route.sequenced (maxReplayedSeq s.route.sequenced rows) b = true ↔ b ∉ rows := by
    intro b hb
    constructor
    · intro hkeep hrow
      have hseq := h.known b hb hrow
      have hle := (le_foldl_max (m := -1)).2 b hrow
      simp only [Sse.keeps, maxReplayedSeq, hseq, Bool.not_true, Bool.false_or, if_true,
        decide_eq_true_eq] at hkeep
      omega
    · exact h.above b hb
  have hwritten : s.sse.written ++ rows ++ s.sse.buffer.filter
      (Sse.keeps s.route.sequenced (maxReplayedSeq s.route.sequenced rows))
      = rows ++ s.sse.buffer.filter
        (Sse.keeps s.route.sequenced (maxReplayedSeq s.route.sequenced rows)) := by
    rw [h.written, List.nil_append]
  refine ⟨rfl, ?_, fun r hr => (h.stored r hr).1, ?_, ?_⟩
  · simp only [Sse.flush, hwritten]
    apply List.nodup_append.mpr
    refine ⟨h.rowsNodup, h.nodup.filter _, fun a ha b hb hab => ?_⟩
    obtain ⟨hbuf, hkeep⟩ := List.mem_filter.mp hb
    exact (hkept b hbuf).mp hkeep (hab ▸ ha)
  · simp only [Sse.flush, hwritten]
    intro w hw
    rcases List.mem_append.mp hw with hrow | hbuf
    · exact ⟨(h.stored w hrow).1, (h.stored w hrow).2, Or.inl hrow⟩
    · obtain ⟨hwc, hww, hwp⟩ := h.buffer w (List.mem_of_mem_filter hbuf)
      exact ⟨hwc, hww, Or.inr hwp⟩
  · simp only [Sse.flush, hwritten]
    intro x hx hw
    by_cases hrow : x ∈ rows
    · exact Or.inl (List.mem_append_left _ hrow)
    · rcases h.covers x hx hw with hr | hb | hp
      · exact absurd hr hrow
      · exact Or.inl (List.mem_append_right _ (List.mem_filter.mpr ⟨hb, (hkept x hb).mpr hrow⟩))
      · exact Or.inr hp

structure Inv (s : System π) : Prop where
  stored : s.Stored
  sse : s.SseInv s.unemitted.flatten
  inMemory : s.backend = .inMemory → s.unemitted = []

theorem Inv.append (h : s.Inv) (hb : s.backend = .inMemory) {d : StreamData π}
    (he : s.emitsOnce (s.newItem d) = true) : (s.append d).Inv := by
  let t : System π := { s with
    nextSequence := s.nextSequence + 1
    committed := s.committed ++ [s.newItem d] }
  have hnone := h.inMemory hb
  have hfresh : ∀ x ∈ [s.newItem d], x ∉ s.committed := by
    intro x hx hc
    obtain rfl := List.mem_singleton.mp hx
    exact h.stored.fresh d _ (List.mem_append_right _ hc) rfl
  have ht : t.SseInv ([] ++ [s.newItem d]) := by
    have hsse := h.sse
    rw [hnone] at hsse
    exact SseInv.commit hsse hfresh rfl rfl rfl rfl rfl
  have hdel : (t.deliver (s.newItem d)).SseInv [] :=
    ht.deliver (h.stored.append d) (List.mem_append_right _ (List.mem_singleton.mpr rfl))
      (fun y => by simp) (by simp) he
  have heq : s.append d = t.deliver (s.newItem d) := rfl
  rw [heq]
  have hdeq := deliver_eq t (s.newItem d)
  have hun : (t.deliver (s.newItem d)).unemitted = [] := by
    rw [hdeq]
    exact hnone
  refine ⟨?_, by rw [hun]; exact hdel, fun _ => hun⟩
  rw [hdeq]
  exact (h.stored.append d).congr rfl rfl rfl rfl

theorem Inv.emit (h : s.Inv) {i : Nat} {items : List (Item π)} (hb : s.backend = .postgres)
    (hi : s.unemitted[i]? = some items) (he : ∀ x ∈ items, s.emitsOnce x = true) :
    (items.foldl System.deliver { s with unemitted := s.unemitted.eraseIdx i }).Inv := by
  obtain ⟨hperm, hnodup, hc⟩ := h.stored.emit hi
  let t : System π := { s with unemitted := s.unemitted.eraseIdx i }
  have hsame : t.SseInv s.unemitted.flatten := h.sse.congr rfl rfl rfl rfl rfl
  have hsse : t.SseInv (items ++ (s.unemitted.eraseIdx i).flatten) :=
    hsame.shrink (fun y hy hy' => hy (hperm.mem_iff.mp hy'))
      (fun y _ _ hy => hperm.mem_iff.mpr hy)
  have hstored : t.Stored :=
    ⟨h.stored.distinct, h.stored.below, (List.nodup_append.mp hnodup).2.1, fun x hx =>
      h.stored.pendingCommitted x (hperm.mem_iff.mp (List.mem_append_right _ hx))⟩
  obtain ⟨hinv, hst, hun, hback⟩ := hsse.deliverAll hstored hnodup hc he
  refine ⟨hst, ?_, fun hb' => ?_⟩
  · rw [hun]
    exact hinv
  · rw [hback] at hb'
    exact absurd (hb.symm.trans hb') (by decide)

theorem Inv.step {a : Action π} (h : s.Inv) (hok : s.faithful a = true) (hs : s.step a = some t) :
    t.Inv := by
  have hsse := h.sse
  unfold System.step at hs
  split at hs
  next d hb =>
    obtain rfl := Option.some.inj hs
    exact h.append hb hok
  next tag d hb =>
    obtain rfl := Option.some.inj hs
    exact ⟨h.stored.insertRow tag d, hsse.congr rfl rfl rfl rfl rfl, h.inMemory⟩
  next tag hb =>
    obtain rfl := Option.some.inj hs
    refine ⟨h.stored.commit tag, ?_, fun hb' => absurd (hb.symm.trans hb') (by decide)⟩
    have hgrow : (s.commit tag).SseInv (s.unemitted.flatten ++ s.batch tag) :=
      hsse.commit (fun x hx => h.stored.batch_fresh hx) rfl rfl rfl rfl rfl
    simpa [System.commit, batch] using hgrow
  next tag hb =>
    obtain rfl := Option.some.inj hs
    exact ⟨h.stored.rollback tag, hsse.congr rfl rfl rfl rfl rfl, h.inMemory⟩
  next i hb =>
    obtain ⟨items, hi, rfl⟩ := Option.map_eq_some_iff.mp hs
    apply h.emit hb hi
    simpa [faithful, hi] using hok
  next hb hpc =>
    obtain rfl := Option.some.inj hs
    have hagree : s.filtersAgree = true := by simpa [faithful, hb] using hok
    unfold SseInv at hsse
    rw [hpc] at hsse
    have hbuf : s.Buffering s.unemitted.flatten :=
      ⟨by rw [hsse], by rw [hsse], by rw [hsse]; exact List.nodup_nil, by simp [hsse]⟩
    exact ⟨h.stored.congr rfl rfl rfl rfl,
      hbuf.replay h.stored (by simp [hsse]) hagree, h.inMemory⟩
  next hb hpc =>
    obtain rfl := Option.some.inj hs
    unfold SseInv at hsse
    rw [hpc] at hsse
    refine ⟨h.stored.congr rfl rfl rfl rfl, ⟨?_, by simp [hsse]⟩, h.inMemory⟩
    exact ⟨by simp [hsse], by simp [hsse], by simp [hsse], by simp [hsse]⟩
  next hb hpc =>
    obtain rfl := Option.some.inj hs
    have hagree : s.filtersAgree = true := by simpa [faithful, hb] using hok
    unfold SseInv at hsse
    rw [hpc] at hsse
    exact ⟨h.stored.congr rfl rfl rfl rfl,
      hsse.1.replay h.stored hsse.2 hagree, h.inMemory⟩
  next rows hpc =>
    obtain rfl := Option.some.inj hs
    unfold SseInv at hsse
    rw [hpc] at hsse
    exact ⟨h.stored.congr rfl rfl rfl rfl, hsse.flush, h.inMemory⟩
  next => cases hs

theorem inv_of_reachable (h : (machine π).Reachable (fun s a => s.faithful a = true) s) : s.Inv := by
  apply h.invariant
  · rintro s ⟨route, backend, cursor, rfl⟩
    refine ⟨⟨?_, ?_, ?_, ?_⟩, rfl, fun _ => rfl⟩ <;> simp [start]
  · intro s a t hinv hok hs
    exact hinv.step hok hs

/-- Once the watch has caught up and everything was emitted, the items written are the committed
items of the watch above the cursor, each of them once. -/
theorem watch_exactly_once (h : (machine π).Reachable (fun s a => s.faithful a = true) s)
    {rows : List (Item π)} (hpc : s.pc = .live rows) (hdone : s.unemitted = []) :
    s.sse.written.Perm (s.committed.filter s.wants) := by
  have hinv := inv_of_reachable h
  have hsse := hinv.sse
  unfold SseInv at hsse
  rw [hpc, hdone] at hsse
  apply (List.perm_ext_iff_of_nodup hsse.nodup (hinv.stored.committed_nodup.filter _)).mpr
  intro x
  rw [List.mem_filter]
  constructor
  · intro hx
    exact ⟨(hsse.written x hx).1, (hsse.written x hx).2.1⟩
  · rintro ⟨hx, hw⟩
    exact (hsse.covers x hx hw).resolve_right (by simp)

/-- The watch has caught up, no append is in flight, and the sequences written and wanted are as
given. -/
def outcome (s : System Unit) (written wanted : List Nat) : Bool :=
  (s.pc matches .live _) && s.inserting.isEmpty && s.unemitted.isEmpty &&
    decide (s.sse.written.map (·.sequenceNumber) = written) &&
    decide ((s.committed.filter s.wants).map (·.sequenceNumber) = wanted)

theorem outcome_spec {s : System Unit} {written wanted : List Nat}
    (h : s.outcome written wanted = true) : (∃ rows, s.pc = .live rows) ∧ s.inserting = [] ∧
      s.unemitted = [] ∧ s.sse.written.map (·.sequenceNumber) = written ∧
      (s.committed.filter s.wants).map (·.sequenceNumber) = wanted := by
  simp only [outcome, Bool.and_eq_true, decide_eq_true_eq, List.isEmpty_iff] at h
  obtain ⟨⟨⟨⟨hpc, hi⟩, hu⟩, hwritten⟩, hwanted⟩ := h
  refine ⟨?_, hi, hu, hwritten, hwanted⟩
  cases hp : s.pc with
  | live rows => exact ⟨rows, rfl⟩
  | notOpened | selecting | replaying _ => simp [hp] at hpc

theorem not_perm_of_outcome {s : System Unit} {written wanted : List Nat}
    (h : s.outcome written wanted = true) (hne : ¬ written.Perm wanted) :
    ¬ s.sse.written.Perm (s.committed.filter s.wants) := by
  obtain ⟨_, _, _, hwritten, hwanted⟩ := outcome_spec h
  intro hperm
  apply hne
  rw [← hwritten, ← hwanted]
  exact hperm.map _

/-- An event or message of query `q` in conversation `c` and session `s`. -/
def sample : StreamData Unit := ⟨"c", "q", some "s", ()⟩

/-- Over PostgreSQL an event that commits and is emitted between the subscription and the replay
query is written twice, a message that commits after one with a higher sequence was replayed is not
written, and over the in-memory stream an item below the cursor is written. -/
theorem watch_not_exactly_once :
    (∃ s : System Unit, (machine Unit).Reachable Machine.always s ∧
      s.route = .queryEvents "q" ∧ s.outcome [1, 1] [1] = true ∧
      ¬ s.sse.written.Perm (s.committed.filter s.wants)) ∧
    (∃ s : System Unit, (machine Unit).Reachable Machine.always s ∧
      s.route = .messages none ∧ s.outcome [2] [2, 1] = true ∧
      ¬ s.sse.written.Perm (s.committed.filter s.wants)) ∧
    ∃ s : System Unit, (machine Unit).Reachable Machine.always s ∧
      s.route = .messages none ∧ s.cursor = 5 ∧ s.outcome [1] [] = true ∧
      ¬ s.sse.written.Perm (s.committed.filter s.wants) := by
  refine ⟨?_, ?_, ?_⟩
  · obtain ⟨s, hs, hp⟩ : ∃ s, (machine Unit).Reachable Machine.always s ∧
        (decide (s.route = .queryEvents "q") && s.outcome [1, 1] [1]) = true :=
      Machine.exists_reachable (b := fun _ _ => true) ⟨.queryEvents "q", .postgres, 0, rfl⟩
        (fun _ _ _ => trivial) (l := [.subscribe, .insertRow 0 sample, .commit 0, .emit 0, .select,
          .flush]) (by decide)
    obtain ⟨hroute, hout⟩ := Bool.and_eq_true_iff.mp hp
    exact ⟨s, hs, of_decide_eq_true hroute, hout, not_perm_of_outcome hout (by decide)⟩
  · obtain ⟨s, hs, hp⟩ : ∃ s, (machine Unit).Reachable Machine.always s ∧
        (decide (s.route = .messages none) && s.outcome [2] [2, 1]) = true :=
      Machine.exists_reachable (b := fun _ _ => true) ⟨.messages none, .postgres, 0, rfl⟩
        (fun _ _ _ => trivial) (l := [.insertRow 0 sample, .insertRow 1 sample, .subscribe,
          .commit 1, .select, .commit 0, .emit 0, .emit 0, .flush]) (by decide)
    obtain ⟨hroute, hout⟩ := Bool.and_eq_true_iff.mp hp
    exact ⟨s, hs, of_decide_eq_true hroute, hout, not_perm_of_outcome hout (by decide)⟩
  · obtain ⟨s, hs, hp⟩ : ∃ s, (machine Unit).Reachable Machine.always s ∧
        (decide (s.route = .messages none ∧ s.cursor = 5) && s.outcome [1] []) = true :=
      Machine.exists_reachable (b := fun _ _ => true) ⟨.messages none, .inMemory, 5, rfl⟩
        (fun _ _ _ => trivial) (l := [.subscribe, .flush, .append sample]) (by decide)
    obtain ⟨hroute, hout⟩ := Bool.and_eq_true_iff.mp hp
    have hrc := of_decide_eq_true hroute
    exact ⟨s, hs, hrc.1, hrc.2, hout, not_perm_of_outcome hout (by decide)⟩

/-- Messages before the subscription, during the replay query and after the flush. -/
theorem watch_exactly_once_three : ∃ s : System Unit,
    s.sse.written.map (·.sequenceNumber) = [1, 2, 3] ∧
      s.sse.written.Perm (s.committed.filter s.wants) := by
  obtain ⟨s, hs, hp⟩ : ∃ s, (machine Unit).Reachable (fun s a => s.faithful a = true) s ∧
      s.outcome [1, 2, 3] [1, 2, 3] = true :=
    Machine.exists_reachable (b := faithful) ⟨.messages (some "c"), .postgres, 0, rfl⟩
      (fun _ _ h => h) (l := [.insertRow 0 sample, .commit 0, .emit 0, .subscribe,
        .insertRow 0 sample, .commit 0, .emit 0, .select, .flush, .insertRow 1 sample, .commit 1,
        .emit 0]) (by decide)
  obtain ⟨⟨rows, hpc⟩, _, hu, hwritten, _⟩ := outcome_spec hp
  exact ⟨s, hwritten, watch_exactly_once hs hpc hu⟩

end System

end SseWatch

end Ark
