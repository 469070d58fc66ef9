import Ark.RelatedSessions

/-!
# The two session storages agree

Both storages perform the same calls one after another. They keep the same sessions and send the
same notifications as long as no name is one that a JavaScript record inherits, a message finds the
same session in both, and the sessions that survive a deletion come in the same order.
-/

namespace Ark.Session

open KeyedTable ReadCommitted

/-- The statement has no `ORDER BY`: the rows come as they were inserted, and are the entries of a
record in any order. -/
def getSession (t : Tables) (sid : String) (dbNow : ℕ) : Option SessionEntry :=
  ((t.session sid).filter fun h => dbNow < h.expiresAt).map fun h =>
    rowsToSessionEntry h (t.queriesOf sid)

/-- `now` and `later` are readings of the clock of the in-memory storage. -/
inductive BackendCall
  | applyEvent (d : SessionEventData) (sequence : ℤ) (now later : ℕ) (clock : Clock)
  | applyMessage (conversationId queryId : String) (sequence : ℤ) (now : ℕ) (clock : Clock)
  | deleteQuery (queryId : String)

namespace BackendCall

def inMemory : BackendCall → Memory → Option Memory
  | .applyEvent d _ now later _, m => m.applyEvent d now later
  | .applyMessage conversationId queryId _ now _, m => some (m.applyMessage conversationId queryId now)
  | .deleteQuery queryId, m => some (m.deleteQuery queryId).1

def operation : BackendCall → Operation
  | .applyEvent d sequence _ _ clock => .applyEvent d (some sequence) clock
  | .applyMessage conversationId queryId sequence _ clock =>
    .applyMessage conversationId queryId (some sequence) clock
  | .deleteQuery queryId => .deleteQuery queryId

def marks (b : Marks) : BackendCall → Marks
  | .applyEvent _ sequence _ later clock => ⟨later, clock.now, sequence, b.messageSequence⟩
  | .applyMessage _ _ sequence now clock => ⟨now, clock.now, b.eventSequence, sequence⟩
  | .deleteQuery _ => b

end BackendCall

/-- `memory` is `none` once an event was written to `Object.prototype`. -/
structure Backends where
  memory : Option Memory
  tables : Tables
  next : ℕ
  notified : List Notification
  marks : Marks

namespace Backends

/-- Sequence numbers, which start at 1, and clocks increase, and no session is expired. -/
def Enabled (s : Backends) : BackendCall → Prop
  | .applyEvent _ sequence now later clock =>
    s.marks.eventSequence < sequence ∧ s.marks.memoryClock < now ∧ now ≤ later ∧
      s.marks.brokerClock < clock.now ∧ ∀ h ∈ s.tables.sessions, clock.dbNow < h.expiresAt
  | .applyMessage _ _ sequence now clock =>
    s.marks.messageSequence < sequence ∧ s.marks.memoryClock < now ∧
      s.marks.brokerClock < clock.now ∧ ∀ h ∈ s.tables.sessions, clock.dbNow < h.expiresAt
  | .deleteQuery _ => True

instance (s : Backends) (c : BackendCall) : Decidable (s.Enabled c) := by
  cases c <;> unfold Enabled <;> infer_instance

variable (C : Collation)

def call (s : Backends) (c : BackendCall) : Backends :=
  let o := (program C c.operation).2.run s.next s.tables
  { memory := s.memory.bind c.inMemory
    tables := o.tables
    next := o.next
    notified := s.notified ++ o.notified
    marks := c.marks s.marks }

/-- The session that `queryToSession` names is the first one with the query, in the order of the
collation, and its query has no empty text for a conversation. -/
def MessageFits (m : Memory) (conversationId queryId : String) : Prop :=
  ∀ sid ∈ m.owner queryId,
    (∀ s ∈ m.sessions, (s.query queryId).isSome → C.le sid s.sessionId) ∧
    ∀ s ∈ m.session sid, ∀ e ∈ s.query queryId,
      e.conversationId = some "" → conversationId = ""

/-- The sessions that keep a query after the deletion come in the order of the collation. -/
def DeletionFits (m : Memory) (queryId : String) : Prop :=
  (((ownOrder SessionEntry.sessionId m.sessions).filter (Memory.survives queryId)).map
    SessionEntry.sessionId).Pairwise (C.le · ·)

/-- The condition on a call and the state before it. -/
def Fits (s : Backends) : BackendCall → Prop
  | .applyEvent d .. =>
    ∀ sid ∈ nonEmpty d.sessionId, ∀ queryName ∈ nonEmpty d.queryName,
      sid ∉ inherited ∧ queryName ∉ inherited
  | .applyMessage conversationId queryId .. =>
    ∀ m ∈ s.memory, MessageFits C m conversationId queryId
  | .deleteQuery queryId => queryId ∉ inherited ∧ ∀ m ∈ s.memory, DeletionFits C m queryId

instance (m : Memory) (c q : String) : Decidable (MessageFits C m c q) := by
  unfold MessageFits
  infer_instance

instance (m : Memory) (q : String) : Decidable (DeletionFits C m q) := by
  unfold DeletionFits
  infer_instance

instance (s : Backends) (c : BackendCall) : Decidable (s.Fits C c) := by
  cases c <;> unfold Fits <;> infer_instance

/-- The storages hold the same sessions, clocks aside, and have sent the same notifications. -/
def Agree (s : Backends) : Prop :=
  ∃ m, s.memory = some m ∧ m.notified = s.notified ∧
    ∀ dbNow, (∀ h ∈ s.tables.sessions, dbNow < h.expiresAt) →
      ∀ sid, (m.session sid).map SessionEntry.withoutClock =
        (getSession s.tables sid dbNow).map SessionEntry.withoutClock

end Backends

/-- Both storages, empty at first, and any calls one after another. -/
def backends (C : Collation) : Machine Backends BackendCall where
  init s := s = ⟨some Memory.empty, Tables.empty, 0, [], ⟨0, 0, 0, 0⟩⟩
  step s c := if s.Enabled c then some (s.call C c) else none

variable {C : Collation} {s s' : Backends} {c : BackendCall}

/-! ### Agreement of related storages -/

theorem recalculated_of_aggregated {h : SessionRow} {rows : List SessionQueryRow}
    (ha : Aggregated C h rows)
    (hsorted : rows.Pairwise fun r r' => r.entry.createdAt < r'.entry.createdAt) :
    Recalculated (rowsToSessionEntry h rows) := by
  have hentry : entryOf C h rows = rowsToSessionEntry h rows := by
    rw [entryOf, List.Pairwise.insertionSort_eq]
    refine hsorted.imp ?_
    intro r r' hlt
    simp [Stmt.rowLE, hlt]
  obtain ⟨hcount, hstatus, hconversations⟩ := ha
  rw [hentry, recalculateSessionStatus_eq] at hcount hstatus hconversations
  rw [Recalculated, recalculateSessionStatus_eq]
  simp only [rowsToSessionEntry] at hcount hstatus hconversations ⊢
  rw [← hcount, ← hstatus, ← hconversations]

theorem Related.session_eq {b : Marks} {m : Memory} {t : Tables} (h : Related b m t)
    (ht : TablesSound C t) {dbNow : ℕ} (hlive : ∀ h ∈ t.sessions, dbNow < h.expiresAt)
    (sid : String) : (m.session sid).map SessionEntry.withoutClock =
      (getSession t sid dbNow).map SessionEntry.withoutClock := by
  cases hs : m.session sid with
  | none =>
    have hshare := h.session sid
    rw [hs] at hshare
    have hnone : t.session sid = none := hshare.1
    simp [getSession, hnone]
  | some s =>
    obtain ⟨hheader, hrec, hname, z, -, hz⟩ := h.matched hs
    obtain ⟨x, hx⟩ := Option.isSome_iff_exists.mp hheader
    have hget : getSession t sid dbNow = some (rowsToSessionEntry x (t.queriesOf sid)) := by
      rw [getSession, hx, Option.filter_some, if_pos]
      · rfl
      · exact decide_eq_true (hlive x (mem_of_find hx))
    rw [hget, Option.map_some, Option.map_some]
    obtain ⟨hxid, hxname⟩ := (ht sid).header x hx
    have hsorted : (t.queriesOf sid).Pairwise
        fun r r' => r.entry.createdAt < r'.entry.createdAt := by
      have hcreated := hz.created
      rw [hz.rows, List.pairwise_map]
      rwa [List.pairwise_map] at hcreated
    have hrec' := recalculated_of_aggregated ((ht sid).aggregated x hx) hsorted
    have hentries : (rowsToSessionEntry x (t.queriesOf sid)).queries = z.map Twin.postgres := by
      simp only [rowsToSessionEntry]
      rw [hz.rows, List.map_map, List.filter_eq_self.mpr]
      · rfl
      · intro e he
        obtain ⟨p, hp, rfl⟩ := List.mem_map.mp he
        have hpname := (hz.twin p hp).name
        refine decide_eq_true fun hproto => hpname ?_
        change p.name = "__proto__" at hproto
        rw [hproto]
        decide
    exact congrArg some (withoutClock_eq_of_twins hrec hrec'
      ((Memory.sessionId_of_session hs).trans hxid.symm) (hname.trans hxname.symm) hz.queries hentries
      hz.order)

/-! ### Runs -/

/-- The invariant of the runs whose calls fit. -/
structure Backends.Sound (C : Collation) (s : Backends) (m : Memory) : Prop where
  memory : s.memory = some m
  related : Related s.marks m s.tables
  notified : m.notified = s.notified
  serial : Serial C s.tables s.next
  messageSequence : 0 ≤ s.marks.messageSequence

theorem Backends.Sound.agree {m : Memory} (h : s.Sound C m) : s.Agree :=
  ⟨m, h.memory, h.notified, fun _ hlive sid => h.related.session_eq h.serial.sound hlive sid⟩

/-- A call that fits keeps the invariant. -/
theorem Backends.Sound.call {m : Memory} (h : s.Sound C m) (hc : s.Enabled c) (hfits : s.Fits C c) :
    ∃ m', (s.call C c).Sound C m' := by
  let o := (program C c.operation).2.run s.next s.tables
  have hstep : ∀ m', c.inMemory m = some m' →
      Related (c.marks s.marks) m' o.tables ∧ m'.notified = m.notified ++ o.notified ∧
        o.result.isSome →
      0 ≤ (c.marks s.marks).messageSequence → (s.call C c).Sound C m' := by
    rintro m' hm ⟨hrelated, hnotified, hresult⟩ hmessage
    refine ⟨?_, hrelated, ?_, h.serial.call c.operation hresult, hmessage⟩
    · rw [Backends.call, h.memory, Option.bind_some, hm]
    · rw [hnotified, h.notified]
      rfl
  cases c with
  | applyEvent d sequence now later clock =>
    obtain ⟨hsequence, hnow, hlater, hbroker, -⟩ := hc
    obtain ⟨m', hm, hrest⟩ := h.related.applyEvent (C := C) (n := s.next) hnow hlater hbroker
      hsequence h.messageSequence (fun sid q hsid hq => hfits sid hsid q hq)
    exact ⟨m', hstep m' hm hrest h.messageSequence⟩
  | applyMessage conversationId queryId sequence now clock =>
    obtain ⟨hsequence, hnow, hbroker, hlive⟩ := hc
    have hfit := hfits m h.memory
    have hrest := h.related.applyMessage (C := C) (n := s.next) (c := conversationId) hnow hbroker
      hsequence hlive (fun sid ho => (hfit sid ho).1) (fun sid s e ho hs he => (hfit sid ho).2 s hs e he)
    exact ⟨_, hstep _ rfl hrest (h.messageSequence.trans hsequence.le)⟩
  | deleteQuery queryId =>
    have hrest := h.related.deleteQuery (n := s.next) h.serial.sound hfits.1 (hfits.2 m h.memory)
    exact ⟨_, hstep _ rfl hrest h.messageSequence⟩

/-- In every state that calls reach which fit, both storages hold the same sessions and have sent
the same notifications. -/
theorem backends_agree (C : Collation) {s : Backends}
    (h : (backends C).Reachable (fun s c => s.Fits C c) s) : s.Agree := by
  obtain ⟨m, hm⟩ : ∃ m, s.Sound C m := by
    refine h.invariant (I := fun s => ∃ m, s.Sound C m) ?_ ?_
    · rintro s rfl
      exact ⟨Memory.empty, rfl, related_empty, rfl, serial_empty, le_rfl⟩
    · rintro s c s' ⟨m, hm⟩ hfits hstep
      simp only [backends] at hstep
      split at hstep
      next henabled =>
        obtain rfl := Option.some.inj hstep
        exact hm.call henabled hfits
      next => cases hstep
  exact hm.agree

/-- An event that starts a query. -/
def queryStarted (sessionId queryName : String) : SessionEventData :=
  ⟨some sessionId, some queryName, some "finance", none, some "clerk", none, none, none, some .agent,
    none, some "QueryExecutionStart"⟩

/-- Two queries of a session, a message for the second and the deletion of the first. -/
def fittingCalls : List BackendCall :=
  [.applyEvent (queryStarted "session-billing" "invoice-run") 1 10 11 ⟨10, 7, 3600⟩,
    .applyEvent (queryStarted "session-billing" "audit-run") 2 20 20 ⟨21, 17, 3600⟩,
    .applyMessage "c-7" "audit-run" 1 30 ⟨32, 27, 3600⟩, .deleteQuery "invoice-run"]

theorem backends_agree_fittingCalls : ∃ s : Backends,
    (backends .codePoint).Reachable (fun s c => s.Fits .codePoint c) s ∧
      (s.notified.length = 4 ∧ (s.tables.queriesOf "session-billing").length = 1) ∧ s.Agree := by
  obtain ⟨s, hs, hp⟩ : ∃ s, (backends .codePoint).Reachable (fun s c => s.Fits .codePoint c) s ∧
      decide (s.notified.length = 4 ∧ (s.tables.queriesOf "session-billing").length = 1) = true :=
    Machine.exists_reachable (b := fun s c => decide (s.Fits .codePoint c)) (l := fittingCalls) rfl
      (fun s c h => of_decide_eq_true h) (by decide)
  exact ⟨s, hs, of_decide_eq_true hp, backends_agree .codePoint hs⟩

/-- The storages hold different sessions `sid`. -/
def Backends.differs (sid : String) (s : Backends) : Bool :=
  decide (∀ h ∈ s.tables.sessions, 0 < h.expiresAt) &&
    s.memory.all fun m =>
      decide ((m.session sid).map SessionEntry.withoutClock ≠
        (getSession s.tables sid 0).map SessionEntry.withoutClock)

theorem Backends.not_agree_of_differs {sid : String} (h : s.differs sid = true) : ¬ s.Agree := by
  rintro ⟨m, hm, -, hsession⟩
  rw [differs, hm, Option.all_some, Bool.and_eq_true, decide_eq_true_eq, decide_eq_true_eq] at h
  exact h.2 (hsession 0 h.1 sid)

/-- A query named like a property of every record is missing in memory; and a message for a query of
two sessions reaches the later one in memory and the first one in the tables. -/
theorem backends_disagree :
    (∃ s, (backends .codePoint).Reachable Machine.always s ∧ ¬ s.Agree ∧
      ∃ r, s.tables.queriesOf "session-billing" = [r] ∧ r.queryId = "constructor") ∧
    ∃ s, (backends .codePoint).Reachable Machine.always s ∧ ¬ s.Agree ∧
      s.notified = [("s1", "run"), ("s2", "run"), ("s1", "run")] ∧
      s.memory.map Memory.notified = some [("s1", "run"), ("s2", "run"), ("s2", "run")] := by
  constructor
  · obtain ⟨s, hs, hp⟩ : ∃ s, (backends .codePoint).Reachable Machine.always s ∧
        (s.differs "session-billing" &&
          decide ((s.tables.queriesOf "session-billing").map (·.queryId) = ["constructor"])) = true :=
      Machine.exists_reachable (b := fun _ _ => true)
        (l := [.applyEvent (queryStarted "session-billing" "constructor") 1 10 11 ⟨10, 7, 3600⟩]) rfl
        (fun _ _ _ => trivial) (by decide)
    obtain ⟨hdiffers, hrows⟩ := Bool.and_eq_true_iff.mp hp
    obtain ⟨r, hr, hq⟩ := List.map_eq_singleton_iff.mp (of_decide_eq_true hrows)
    exact ⟨s, hs, Backends.not_agree_of_differs hdiffers, r, hr, hq⟩
  · obtain ⟨s, hs, hp⟩ : ∃ s, (backends .codePoint).Reachable Machine.always s ∧
        (s.differs "s1" &&
          decide (s.notified = [("s1", "run"), ("s2", "run"), ("s1", "run")] ∧
            s.memory.map Memory.notified =
              some [("s1", "run"), ("s2", "run"), ("s2", "run")])) = true :=
      Machine.exists_reachable (b := fun _ _ => true)
        (l := [.applyEvent (queryStarted "s1" "run") 1 10 10 ⟨10, 10, 3600⟩,
          .applyEvent (queryStarted "s2" "run") 2 20 20 ⟨20, 20, 3600⟩,
          .applyMessage "c-7" "run" 1 30 ⟨30, 30, 3600⟩]) rfl
        (fun _ _ _ => trivial) (by decide)
    obtain ⟨hdiffers, hnotified⟩ := Bool.and_eq_true_iff.mp hp
    exact ⟨s, hs, Backends.not_agree_of_differs hdiffers, of_decide_eq_true hnotified⟩

end Ark.Session
