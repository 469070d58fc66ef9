import Ark.SessionStorage

/-!
# The write paths performed alone

What a call of the storage does to the tables when no other call runs beside it.
-/

namespace Ark.Session

open KeyedTable ReadCommitted

namespace Tables

variable {t : Tables} {h : SessionRow} {r : SessionQueryRow} {sid q : String}

theorem sessionId_of_session (hs : t.session sid = some h) : h.sessionId = sid := key_of_find hs

theorem key_of_query (hq : t.query sid q = some r) : r.sessionId = sid ∧ r.queryId = q := by
  have hkey : r.key = (sid, q) := key_of_find hq
  exact Prod.mk.inj hkey

@[simp] theorem query_putSession : (t.write (.putSession h)).query sid q = t.query sid q := rfl

@[simp] theorem queriesOf_putSession :
    (t.write (.putSession h)).queriesOf sid = t.queriesOf sid := rfl

@[simp] theorem session_putQuery : (t.write (.putQuery r)).session sid = t.session sid := rfl

theorem session_putSession :
    (t.write (.putSession h)).session sid =
      if sid = h.sessionId then some h else t.session sid := find_put

theorem query_putQuery :
    (t.write (.putQuery r)).query sid q = if (sid, q) = r.key then some r else t.query sid q :=
  find_put

end Tables

variable {C : Collation} {t : Tables} {n : ℕ} {sid q : String}

/-- The tables after the `INSERT INTO sessions` that opens `applyEvent`. -/
def ensureSession (t : Tables) (n : ℕ) (sid : String) (clock : Clock) : Tables :=
  match t.session sid with
  | some _ => t
  | none => t.write (.putSession (freshSession n sid (sessionName sid) clock))

/-- The header that it finds or inserts. -/
def headerFor (t : Tables) (n : ℕ) (sid : String) (clock : Clock) : SessionRow :=
  (t.session sid).getD (freshSession n sid (sessionName sid) clock)

theorem session_ensureSession {clock : Clock} :
    (ensureSession t n sid clock).session sid = some (headerFor t n sid clock) := by
  unfold ensureSession headerFor
  cases h : t.session sid with
  | some s => simp [h]
  | none => simp [Tables.session_putSession, freshSession]

theorem query_ensureSession {clock : Clock} {sid' : String} :
    (ensureSession t n sid clock).query sid' q = t.query sid' q := by
  unfold ensureSession
  cases t.session sid <;> rfl

theorem sessionId_headerFor {clock : Clock} : (headerFor t n sid clock).sessionId = sid :=
  Tables.sessionId_of_session (session_ensureSession (t := t) (n := n))

/-- The row that an event writes with a new entry. -/
def eventRow (existing : Option SessionQueryRow) (sid : String) (d : SessionEventData)
    (sequence : Option ℤ) (entry : QueryEntry) : SessionQueryRow :=
  match existing with
  | none => insertedQuery sid entry sequence (phaseSequence d sequence)
  | some r => updatedQuery r entry sequence (phaseSequence d sequence)

/-- The session that a header and the query rows of the tables make up. -/
def sessionOf (C : Collation) (t : Tables) (h : SessionRow) : SessionEntry :=
  rowsToSessionEntry h ((t.queriesOf h.sessionId).insertionSort (Stmt.rowLE C · ·))

/-- The tables after an event that writes `entry`. -/
def afterEvent (C : Collation) (t : Tables) (n : ℕ) (sid : String) (d : SessionEventData)
    (sequence : Option ℤ) (clock : Clock) (entry : QueryEntry) : Tables :=
  let h := headerFor t n sid clock
  let t' := (ensureSession t n sid clock).write
    (.putQuery (eventRow (t.query sid entry.name) sid d sequence entry))
  t'.write (.putSession (updatedSession h (recalculateSessionStatus (sessionOf C t' h))
    (some (clock.now, clock.expiresAt))))

@[simp] theorem rowsToSessionEntry_sessionId {h : SessionRow} {rows : List SessionQueryRow} :
    (rowsToSessionEntry h rows).sessionId = h.sessionId := rfl

@[simp] theorem recalculateSessionConversations_sessionId {s : SessionEntry} :
    (recalculateSessionConversations s).sessionId = s.sessionId := by
  unfold recalculateSessionConversations
  split <;> rfl

@[simp] theorem recalculateSessionStatus_sessionId {s : SessionEntry} :
    (recalculateSessionStatus s).sessionId = s.sessionId := by
  unfold recalculateSessionStatus
  split <;> simp

theorem run_lockHeader {h : SessionRow} (hs : t.session sid = some h) :
    (lockHeader sid : Tx (dialect C) _).run n t = some (some h, t, n + 2) := by
  simp [lockHeader, Tx.run, Tx.query, Stmt.exec, hs, view]

theorem run_lockHeaderOrRecreate {h : SessionRow} {name : String} {clock : Clock}
    (hs : t.session sid = some h) :
    (lockHeaderOrRecreate sid name clock : Tx (dialect C) _).run n t = some (h, t, n + 2) := by
  simp [lockHeaderOrRecreate, Tx.run_bind, run_lockHeader hs, Tx.run]

theorem run_refreshHeader {h : SessionRow} {clock : Clock} (b : Bool)
    (hs : t.session h.sessionId = some h) :
    (refreshHeader h clock b : Tx (dialect C) _).run n t =
      some ((), t.write (.putSession (updatedSession h
        (if b then recalculateSessionConversations (sessionOf C t h)
          else recalculateSessionStatus (sessionOf C t h))
        (some (clock.now, clock.expiresAt)))), n + 2) := by
  cases b <;>
    simp [refreshHeader, readSession, Tx.run, Tx.query, Stmt.exec, view, sessionOf, hs]

theorem name_buildQueryEntry {now : ℕ} {phase : QueryPhase} {d : SessionEventData}
    {errorMsg : Option String} : (buildQueryEntry q now phase d errorMsg).name = q := rfl

@[simp] theorem name_applyQueryPhase {e : QueryEntry} {phase : QueryPhase} {now : ℕ}
    {errorMsg : Option String} {b : Bool} :
    (applyQueryPhase e phase now errorMsg b).name = e.name := by
  unfold applyQueryPhase decidePhase
  cases b <;> split_ifs <;> rfl

/-- The four outcomes of an event on an existing row. -/
theorem appliedEntry_cases (r : SessionQueryRow) (phase : QueryPhase) (d : SessionEventData)
    (errorMsg : Option String) (sequence : Option ℤ) (now : ℕ) :
    let merged := mergeQueryMetadata r.entry d
    let o := appliedEntry r phase d errorMsg sequence now
    (stale r sequence = true ∧ merged.2 = false ∧
        (isTerminalPhase phase = false ∨ phaseStale r sequence = true) ∧ o = none) ∨
      (stale r sequence = false ∧ o = some (applyQueryPhase merged.1 phase now errorMsg true)) ∨
      (stale r sequence = true ∧ isTerminalPhase phase = true ∧ phaseStale r sequence = false ∧
        o = some (applyQueryPhase merged.1 phase now errorMsg false)) ∨
      (stale r sequence = true ∧ merged.2 = true ∧
        (isTerminalPhase phase = false ∨ phaseStale r sequence = true) ∧ o = some merged.1) := by
  simp only [appliedEntry, SessionQueryRow.rowToQueryEntry]
  by_cases hs : stale r sequence = true <;> by_cases hp : phaseStale r sequence = true <;>
    by_cases ht : isTerminalPhase phase = true <;>
    by_cases hf : (mergeQueryMetadata r.entry d).2 = true <;> simp [hs, hp, ht, hf]

theorem name_appliedEntry {r : SessionQueryRow} {phase : QueryPhase} {d : SessionEventData}
    {errorMsg : Option String} {sequence : Option ℤ} {now : ℕ} {e : QueryEntry}
    (h : appliedEntry r phase d errorMsg sequence now = some e) : e.name = r.queryId := by
  obtain ⟨-, -, -, ho⟩ | ⟨-, ho⟩ | ⟨-, -, -, ho⟩ | ⟨-, -, -, ho⟩ :=
    appliedEntry_cases r phase d errorMsg sequence now
  · cases h.symm.trans ho
  · obtain rfl := Option.some.inj (h.symm.trans ho)
    exact name_applyQueryPhase
  · obtain rfl := Option.some.inj (h.symm.trans ho)
    exact name_applyQueryPhase
  · obtain rfl := Option.some.inj (h.symm.trans ho)
    rfl

theorem name_eventEntry {existing : Option SessionQueryRow} {d : SessionEventData}
    {sequence : Option ℤ} {now : ℕ} {e : QueryEntry} (hq : ∀ r ∈ existing, r.queryId = q)
    (h : eventEntry existing q d sequence now = some e) : e.name = q := by
  cases existing with
  | none =>
    obtain rfl := Option.some.inj h
    rfl
  | some r => exact (name_appliedEntry h).trans (hq r rfl)

/-- What `applyEvent` does to the tables: nothing beyond the header when nothing is left to do,
else it writes the new entry and rebuilds the header. -/
theorem run_applyEventTx {d : SessionEventData} {sequence : Option ℤ} {clock : Clock} :
    (applyEventTx sid q d sequence clock : Tx (dialect C) _).run n t =
      match eventEntry (t.query sid q) q d sequence clock.now with
      | none => some (false, ensureSession t n sid clock, n + 4)
      | some entry => some (true, afterEvent C t n sid d sequence clock entry, n + 7) := by
  have hfirst : (Tx.query (.insertSession sid (sessionName sid) clock) :
      Tx (dialect C) _).run n t = some ((), ensureSession t n sid clock, n + 1) := by
    unfold ensureSession
    cases hs : t.session sid <;> simp [Tx.query, Tx.run, Stmt.exec, hs, view]
  have hheader : (ensureSession t n sid clock).session sid = some (headerFor t n sid clock) :=
    session_ensureSession
  have hname : ∀ r ∈ t.query sid q, r.queryId = q := fun r hr => (Tables.key_of_query hr).2
  unfold applyEventTx
  rw [Tx.run_bind, hfirst]
  simp only [Option.bind_some]
  rw [Tx.run_bind, run_lockHeaderOrRecreate hheader]
  simp only [Option.bind_some, Tx.query_bind, Tx.run, Stmt.exec, view, List.foldl_nil]
  rw [query_ensureSession]
  cases he : eventEntry (t.query sid q) q d sequence clock.now with
  | none => rfl
  | some entry =>
    have hentry : entry.name = q := name_eventEntry hname he
    have hput : ∀ m, Stmt.exec C (.upsertQuery sid entry sequence (phaseSequence d sequence))
        (ensureSession t n sid clock) m =
        some ((), [.putQuery (eventRow (t.query sid entry.name) sid d sequence entry)]) := by
      intro m
      simp only [Stmt.exec, query_ensureSession, hheader]
      cases t.query sid entry.name <;> rfl
    set t' := (ensureSession t n sid clock).write
      (.putQuery (eventRow (t.query sid entry.name) sid d sequence entry)) with ht'
    have hsession : t'.session (headerFor t n sid clock).sessionId =
        some (headerFor t n sid clock) := by
      rw [ht', Tables.session_putQuery, sessionId_headerFor, hheader]
    have hrest : (refreshHeader (headerFor t n sid clock) clock false : Tx (dialect C) _).run
        (n + 5) t' = _ := run_refreshHeader false hsession
    simp only [hput, view, List.foldl_cons, List.foldl_nil, Tx.run_bind, Tx.run, ← ht']
    rw [hrest]
    rfl

/-- The session that the probe of a message finds. -/
def ownerOf (C : Collation) (t : Tables) (q : String) (dbNow : ℕ) : Option String :=
  ((Stmt.holders t q).insertionSort (Stmt.ownerLE C dbNow · ·)).head?.map (·.sessionId)

/-- The tables after a message for the row `r` of the session `h`. -/
def afterMessage (C : Collation) (t : Tables) (h : SessionRow) (r : SessionQueryRow)
    (conversationId : String) (sequence : Option ℤ) (clock : Clock) : Tables :=
  let t' := t.write (.putQuery (joinedQuery r (r.entry.conversationId.getD conversationId) sequence))
  t'.write (.putSession (updatedSession h (recalculateSessionConversations (sessionOf C t' h))
    (some (clock.now, clock.expiresAt))))

/-- What `applyMessage` does to the tables when the row is there and the message is new. -/
theorem run_applyMessageTx {conversationId : String} {sequence : Option ℤ} {clock : Clock}
    {h : SessionRow} {r : SessionQueryRow} (howner : ownerOf C t q clock.dbNow = some sid)
    (hs : t.session sid = some h) (hr : t.query sid q = some r)
    (hnew : sequence.all (r.lastAppliedMessageSequence < ·) = true) :
    (applyMessageTx conversationId q sequence clock : Tx (dialect C) _).run n t =
      some (if (nonEmpty r.entry.conversationId).isNone then some sid else none,
        afterMessage C t h r conversationId sequence clock, n + 7) := by
  obtain rfl : h.sessionId = sid := Tables.sessionId_of_session hs
  have hold : sequence.any (· ≤ r.lastAppliedMessageSequence) = false := by
    cases sequence with
    | none => rfl
    | some s => simpa using hnew
  set t' := t.write
    (.putQuery (joinedQuery r (r.entry.conversationId.getD conversationId) sequence)) with ht'
  have hsession : t'.session h.sessionId = some h := by rw [ht', Tables.session_putQuery, hs]
  have hrest : (refreshHeader h clock true : Tx (dialect C) _).run (n + 5) t' = _ :=
    run_refreshHeader true hsession
  unfold applyMessageTx
  simp only [Tx.query_bind, Tx.run, Stmt.exec, view, List.foldl_nil]
  rw [← ownerOf, howner]
  simp only [Tx.run_bind, run_lockHeader hs, Option.bind_some, applyMessageTo, Tx.query_bind,
    Tx.run, Stmt.exec, hr, view, List.foldl_nil, hold, hnew, if_true, List.foldl_cons, ← ht',
    Bool.false_eq_true, if_false]
  simp only [one_ne_zero, if_false, Tx.run_bind, hrest, Option.bind_some]
  rfl

theorem run_applyMessageTx_of_none {conversationId : String} {sequence : Option ℤ} {clock : Clock}
    (howner : ownerOf C t q clock.dbNow = none) :
    (applyMessageTx conversationId q sequence clock : Tx (dialect C) _).run n t =
      some (none, t, n + 1) := by
  unfold applyMessageTx
  simp only [Tx.query_bind, Tx.run, Stmt.exec, view, List.foldl_nil]
  rw [← ownerOf, howner]
  rfl

/-- The tables after the deletion of a query from the session `h`. -/
def afterDeletion (C : Collation) (t : Tables) (h : SessionRow) (q : String) : Tables :=
  let t' := t.write (.deleteQuery h.sessionId q)
  if (t'.queriesOf h.sessionId).length = 0 then t'.write (.deleteSession h.sessionId)
  else t'.write (.putSession
    (updatedSession h (recalculateSessionStatus (sessionOf C t' h)) none))

theorem run_deleteQueryTx {h : SessionRow} {r : SessionQueryRow} (hs : t.session sid = some h)
    (hr : t.query sid q = some r) :
    ∃ m, (deleteQueryTx sid q : Tx (dialect C) _).run n t =
      some (some (1, decide (((t.write (.deleteQuery sid q)).queriesOf sid).length ≠ 0)),
        afterDeletion C t h q, m) := by
  obtain rfl : h.sessionId = sid := Tables.sessionId_of_session hs
  set t' := t.write (.deleteQuery h.sessionId q) with ht'
  have hsession : t'.session h.sessionId = some h := hs
  unfold deleteQueryTx
  simp only [Tx.run_bind, run_lockHeader hs, Option.bind_some, Tx.query_bind, Tx.run, Stmt.exec, hr,
    view, List.foldl_cons, List.foldl_nil, ← ht', one_ne_zero, if_false]
  by_cases hempty : (t'.queriesOf h.sessionId).length = 0
  · refine ⟨n + 5, ?_⟩
    simp [hempty, afterDeletion, ← ht', Tx.run, Stmt.exec, view]
  · refine ⟨n + 6, ?_⟩
    simp [hempty, afterDeletion, ← ht', Tx.run, Stmt.exec, view, refreshHeaderAggregates,
      readSession, Tx.query, hsession, sessionOf]

end Ark.Session
