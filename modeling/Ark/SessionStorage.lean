import Ark.SessionTables

/-!
# The write paths of `PostgresSessionsStorage`

Each method is the program of the statements that it sends; the pure work in between is done by
the functions shared with the in-memory storage.
-/

namespace Ark.Session

open ReadCommitted

/-- `sessionId` and `queryName` of a notification. -/
abbrev Notification := String × String

def sessionName (sessionId : String) : String :=
  if "session-".toList.isPrefixOf sessionId.toList then String.ofList (sessionId.toList.drop 8)
  else sessionId

/-- The assignment `queries[row.query_id] = …` to the key `__proto__` adds no property. -/
def rowsToSessionEntry (header : SessionRow) (rows : List SessionQueryRow) : SessionEntry where
  sessionId := header.sessionId
  name := header.name
  queries := (rows.map (·.rowToQueryEntry)).filter (·.name ≠ "__proto__")
  status := header.status
  errorCount := header.errorCount
  participants := deriveParticipants header.conversations
  conversations := header.conversations
  createdAt := header.createdAt
  lastActivity := header.lastActivity

/-- The event is not newer than the last one applied. -/
def stale (r : SessionQueryRow) (sequence : Option ℤ) : Bool :=
  sequence.any (· ≤ r.lastAppliedEventSequence)

/-- The event is not newer than the last terminal one applied. -/
def phaseStale (r : SessionQueryRow) (sequence : Option ℤ) : Bool :=
  sequence.any (· ≤ r.lastPhaseEventSequence)

/-- The entry that an event writes over an existing row; `none` when nothing is left to do. -/
def appliedEntry (existing : SessionQueryRow) (phase : QueryPhase) (d : SessionEventData)
    (errorMsg : Option String) (sequence : Option ℤ) (now : ℕ) : Option QueryEntry :=
  let stale := stale existing sequence
  let phaseStale := phaseStale existing sequence
  let terminal := isTerminalPhase phase
  let (entry, filled) := mergeQueryMetadata existing.rowToQueryEntry d
  if stale && !filled && (!terminal || phaseStale) then none
  else if !stale then some (applyQueryPhase entry phase now errorMsg true)
  else if terminal && !phaseStale then some (applyQueryPhase entry phase now errorMsg false)
  else some entry

/-- The entry of an event for a row that may not exist yet. -/
def eventEntry (existing : Option SessionQueryRow) (queryName : String) (d : SessionEventData)
    (sequence : Option ℤ) (now : ℕ) : Option QueryEntry :=
  match existing with
  | none => some (buildQueryEntry queryName now d.phase (normalizeEventData d) d.error)
  | some r => appliedEntry r d.phase (normalizeEventData d) d.error sequence now

/-- Only terminal events move the phase watermark. -/
def phaseSequence (d : SessionEventData) (sequence : Option ℤ) : ℤ :=
  if isTerminalPhase d.phase then sequence.getD 0 else 0

section Programs

variable {C : Collation}

def lockHeader (sessionId : String) : Tx (dialect C) (Option SessionRow) := do
  match ← Tx.query (.sessionVersion sessionId) with
  | none => pure none
  | some version => Tx.query (.lockSession sessionId version)

def lockHeaderOrRecreate (sessionId name : String) (clock : Clock) :
    Tx (dialect C) SessionRow := do
  match ← lockHeader sessionId with
  | some header => pure header
  | none => Tx.query (.upsertSession sessionId name clock)

def readSession (header : SessionRow) : Tx (dialect C) SessionEntry := do
  let rows ← Tx.query (.selectQueries header.sessionId)
  pure (rowsToSessionEntry header rows)

def refreshHeader (header : SessionRow) (clock : Clock) (conversationsOnly : Bool) :
    Tx (dialect C) Unit := do
  let session ← readSession header
  let session :=
    if conversationsOnly then recalculateSessionConversations session
    else recalculateSessionStatus session
  Tx.query (.updateSession session (some (clock.now, clock.expiresAt)))

def refreshHeaderAggregates (header : SessionRow) : Tx (dialect C) Unit := do
  let session ← readSession header
  Tx.query (.updateSession (recalculateSessionStatus session) none)

/-- The transaction of `applyEvent`; whether it applied the event. -/
def applyEventTx (sessionId queryName : String) (d : SessionEventData) (sequence : Option ℤ)
    (clock : Clock) : Tx (dialect C) Bool := do
  let name := sessionName sessionId
  Tx.query (.insertSession sessionId name clock)
  let header ← lockHeaderOrRecreate sessionId name clock
  let existing ← Tx.query (.selectQuery sessionId queryName)
  match eventEntry existing queryName d sequence clock.now with
  | none => pure false
  | some entry =>
    Tx.query (.upsertQuery sessionId entry sequence (phaseSequence d sequence))
    refreshHeader header clock false
    pure true

def applyEvent (d : SessionEventData) (sequence : Option ℤ) (clock : Clock) :
    Call (dialect C) Notification Unit :=
  match nonEmpty d.sessionId, nonEmpty d.queryName with
  | some sessionId, some queryName =>
    .transaction (applyEventTx sessionId queryName d sequence clock) fun applied =>
      if applied then .notify (sessionId, queryName) (.ret ()) else .ret ()
  | _, _ => .ret ()

/-- The part of `applyMessage` that follows the lock of the owner's header; the session to
notify. -/
def applyMessageTo (header : SessionRow) (conversationId queryId : String) (sequence : Option ℤ)
    (clock : Clock) : Tx (dialect C) (Option String) := do
  match ← Tx.query (.selectQuery header.sessionId queryId) with
  | none => pure none
  | some existing =>
    if sequence.any (· ≤ existing.lastAppliedMessageSequence) then pure none
    else
      let joinedConversation := (nonEmpty existing.entry.conversationId).isNone
      let resolved := existing.entry.conversationId.getD conversationId
      let updated ← Tx.query (.joinConversation header.sessionId queryId resolved sequence)
      if updated = 0 then pure none
      else
        refreshHeader header clock true
        pure (if joinedConversation then some header.sessionId else none)

def applyMessageTx (conversationId queryId : String) (sequence : Option ℤ) (clock : Clock) :
    Tx (dialect C) (Option String) := do
  match ← Tx.query (.owner queryId clock.dbNow) with
  | none => pure none
  | some owner =>
    match ← lockHeader owner with
    | none => pure none
    | some header => applyMessageTo header conversationId queryId sequence clock

def applyMessage (conversationId queryId : String) (sequence : Option ℤ) (clock : Clock) :
    Call (dialect C) Notification Unit :=
  .transaction (applyMessageTx conversationId queryId sequence clock) fun touched =>
    match touched with
    | some sessionId => .notify (sessionId, queryId) (.ret ())
    | none => .ret ()

/-- The transaction of `deleteQuery` for one owner: the number of rows that went and whether the
session survived. -/
def deleteQueryTx (sessionId queryId : String) : Tx (dialect C) (Option (ℕ × Bool)) := do
  match ← lockHeader sessionId with
  | none => pure none
  | some header =>
    let deleted ← Tx.query (.deleteQuery sessionId queryId)
    if deleted = 0 then pure none
    else
      let remaining ← Tx.query (.countQueries sessionId)
      if remaining = 0 then
        Tx.query (.deleteSession sessionId)
        pure (some (deleted, false))
      else
        refreshHeaderAggregates header
        pure (some (deleted, true))

def notifySurvivors (queryId : String) (removed : ℕ) :
    List String → Call (dialect C) Notification ℕ
  | [] => .ret removed
  | sessionId :: survivors => .notify (sessionId, queryId) (notifySurvivors queryId removed survivors)

def deleteQueryFrom (queryId : String) :
    List String → ℕ → List String → Call (dialect C) Notification ℕ
  | [], removed, survivors => notifySurvivors queryId removed survivors
  | sessionId :: owners, removed, survivors =>
    .transaction (deleteQueryTx sessionId queryId) fun outcome =>
      match outcome with
      | none => deleteQueryFrom queryId owners removed survivors
      | some (count, survived) =>
        deleteQueryFrom queryId owners (removed + count)
          (if survived then survivors ++ [sessionId] else survivors)

def deleteQuery (queryId : String) : Call (dialect C) Notification ℕ :=
  .transaction (Tx.query (.owners queryId)) fun owners => deleteQueryFrom queryId owners 0 []

def deleteVersions (p : SessionRow → Bool) : List (String × ℕ) → Tx (dialect C) Unit
  | [] => pure ()
  | (sessionId, version) :: rest => do
    Tx.query (.deleteVersion p sessionId version)
    deleteVersions p rest

/-- `DELETE FROM sessions WHERE p`. -/
def deleteSessions (p : SessionRow → Bool) : Call (dialect C) Notification Unit :=
  .transaction (do deleteVersions p (← Tx.query (.sessionVersions p))) fun _ => .ret ()

def delete : Call (dialect C) Notification Unit := deleteSessions fun _ => true

end Programs

/-- `purge` deletes the sessions that a condition selects. -/
inductive Operation
  | applyEvent (d : SessionEventData) (sequence : Option ℤ) (clock : Clock)
  | applyMessage (conversationId queryId : String) (sequence : Option ℤ) (clock : Clock)
  | deleteQuery (queryId : String)
  | delete
  | purge (p : SessionRow → Bool)

def program (C : Collation) : Operation → Σ β : Type, Call (dialect C) Notification β
  | .applyEvent d sequence clock => ⟨Unit, Session.applyEvent d sequence clock⟩
  | .applyMessage conversationId queryId sequence clock =>
    ⟨Unit, Session.applyMessage conversationId queryId sequence clock⟩
  | .deleteQuery queryId => ⟨ℕ, Session.deleteQuery queryId⟩
  | .delete => ⟨Unit, Session.delete⟩
  | .purge p => ⟨Unit, Session.deleteSessions p⟩

end Ark.Session
