import Ark.KeyedTable
import Ark.ReadCommitted
import Ark.SessionAggregate
import Mathlib.Data.Set.Insert
import Mathlib.Data.String.Basic

/-!
# `PostgresSessionsStorage`

The tables `sessions` and `session_queries`, the statements that the storage sends, and its write
paths as programs of these statements. Texts are ordered by the collation of the database. The
timestamps of the database and those of the brokers come from different clocks; a call carries
both.
-/

namespace Ark.Session

open KeyedTable ReadCommitted

/-- The total order of `ORDER BY` on texts. -/
structure Collation where
  le : String → String → Bool
  total : ∀ a b, le a b || le b a
  trans : ∀ a b c, le a b → le b c → le a c
  antisymm : ∀ a b, le a b → le b a → a = b

/-- The order of code points. -/
def Collation.codePoint : Collation where
  le a b := decide (a ≤ b)
  total a b := by simpa using le_total a b
  trans a b c := by simpa using le_trans
  antisymm a b := by simpa using le_antisymm

/-- A row of `sessions`; `version` tells a row from one inserted later under the same key. -/
structure SessionRow where
  version : ℕ
  sessionId : String
  name : String
  status : Status
  errorCount : ℕ
  createdAt : ℕ
  lastActivity : ℕ
  expiresAt : ℕ
  conversations : List ConversationSummary
  deriving DecidableEq, Repr

/-- A row of `session_queries`; `entry` holds the columns that `rowToQueryEntry` reads. -/
structure SessionQueryRow where
  sessionId : String
  entry : QueryEntry
  lastAppliedEventSequence : ℤ
  lastAppliedMessageSequence : ℤ
  lastPhaseEventSequence : ℤ
  deriving DecidableEq, Repr

namespace SessionQueryRow

def queryId (r : SessionQueryRow) : String := r.entry.name

def key (r : SessionQueryRow) : String × String := (r.sessionId, r.queryId)

def rowToQueryEntry (r : SessionQueryRow) : QueryEntry := r.entry

end SessionQueryRow

structure Tables where
  sessions : List SessionRow
  queries : List SessionQueryRow
  deriving DecidableEq, Repr

inductive Write
  | putSession (h : SessionRow)
  | putQuery (r : SessionQueryRow)
  | deleteQuery (sessionId queryId : String)
  | deleteSession (sessionId : String)

inductive Key
  | session (sessionId : String)
  | query (sessionId queryId : String)
  deriving DecidableEq

namespace Tables

def empty : Tables := ⟨[], []⟩

def session (t : Tables) (sessionId : String) : Option SessionRow :=
  find SessionRow.sessionId sessionId t.sessions

def query (t : Tables) (sessionId queryId : String) : Option SessionQueryRow :=
  find SessionQueryRow.key (sessionId, queryId) t.queries

/-- The query rows of a session. -/
def queriesOf (t : Tables) (sessionId : String) : List SessionQueryRow :=
  t.queries.filter (·.sessionId = sessionId)

/-- The deletion of a session cascades to its query rows. -/
def write (t : Tables) : Write → Tables
  | .putSession h => { t with sessions := put SessionRow.sessionId h t.sessions }
  | .putQuery r => { t with queries := put SessionQueryRow.key r t.queries }
  | .deleteQuery sessionId queryId =>
    { t with queries := remove SessionQueryRow.key (sessionId, queryId) t.queries }
  | .deleteSession sessionId =>
    { sessions := remove SessionRow.sessionId sessionId t.sessions
      queries := t.queries.filter (·.sessionId ≠ sessionId) }

end Tables

/-- `now` is a broker's clock, `dbNow` the `now()` of the transaction. -/
structure Clock where
  now : ℕ
  dbNow : ℕ
  ttlSeconds : ℕ
  deriving DecidableEq, Repr

def Clock.expiresAt (c : Clock) : ℕ := c.dbNow + 1000 * c.ttlSeconds

inductive Stmt : Type → Type
  /-- `INSERT INTO sessions … ON CONFLICT DO NOTHING` -/
  | insertSession (sessionId name : String) (clock : Clock) : Stmt Unit
  /-- `INSERT INTO sessions … ON CONFLICT DO UPDATE SET name … RETURNING *` -/
  | upsertSession (sessionId name : String) (clock : Clock) : Stmt SessionRow
  /-- The row of a session in the snapshot of a statement that then has to lock it. -/
  | sessionVersion (sessionId : String) : Stmt (Option ℕ)
  /-- `SELECT * FROM sessions … FOR UPDATE` once the lock of the row is free. -/
  | lockSession (sessionId : String) (version : ℕ) : Stmt (Option SessionRow)
  /-- `SELECT * FROM session_queries WHERE session_id AND query_id FOR UPDATE` -/
  | selectQuery (sessionId queryId : String) : Stmt (Option SessionQueryRow)
  /-- `SELECT * FROM session_queries WHERE session_id ORDER BY created_at, query_id` -/
  | selectQueries (sessionId : String) : Stmt (List SessionQueryRow)
  /-- `INSERT INTO session_queries … ON CONFLICT DO UPDATE SET …` -/
  | upsertQuery (sessionId : String) (entry : QueryEntry) (sequence : Option ℤ)
      (phaseSequence : ℤ) : Stmt Unit
  /-- The `UPDATE session_queries` of a message; the number of rows it returns. -/
  | joinConversation (sessionId queryId : String) (conversationId : String)
      (sequence : Option ℤ) : Stmt ℕ
  /-- `UPDATE sessions SET …`; `touched` are the new `last_activity` and `expires_at`. -/
  | updateSession (session : SessionEntry) (touched : Option (ℕ × ℕ)) : Stmt Unit
  /-- The unlocked probe of a message. -/
  | owner (queryId : String) (dbNow : ℕ) : Stmt (Option String)
  /-- `SELECT DISTINCT session_id FROM session_queries WHERE query_id ORDER BY session_id` -/
  | owners (queryId : String) : Stmt (List String)
  /-- `DELETE FROM session_queries WHERE session_id AND query_id RETURNING query_id` -/
  | deleteQuery (sessionId queryId : String) : Stmt ℕ
  /-- `SELECT count(*) FROM session_queries WHERE session_id` -/
  | countQueries (sessionId : String) : Stmt ℕ
  /-- `DELETE FROM sessions WHERE session_id` -/
  | deleteSession (sessionId : String) : Stmt Unit
  /-- The snapshot of a `DELETE FROM sessions WHERE p`. -/
  | sessionVersions (p : SessionRow → Bool) : Stmt (List (String × ℕ))
  /-- One row of that statement, once its lock is free; a changed row is tested again. -/
  | deleteVersion (p : SessionRow → Bool) (sessionId : String) (version : ℕ) : Stmt Unit

def freshSession (n : ℕ) (sessionId name : String) (clock : Clock) : SessionRow where
  version := n
  sessionId := sessionId
  name := name
  status := .idle
  errorCount := 0
  createdAt := clock.dbNow
  lastActivity := clock.dbNow
  expiresAt := clock.expiresAt
  conversations := []

/-- The row that the `INSERT` of an event adds. -/
def insertedQuery (sessionId : String) (entry : QueryEntry) (sequence : Option ℤ)
    (phaseSequence : ℤ) : SessionQueryRow where
  sessionId := sessionId
  entry := entry
  lastAppliedEventSequence := sequence.getD 0
  lastAppliedMessageSequence := 0
  lastPhaseEventSequence := phaseSequence

/-- Its `DO UPDATE SET`, which leaves `created_at` and the message watermark alone. -/
def updatedQuery (r : SessionQueryRow) (entry : QueryEntry) (sequence : Option ℤ)
    (phaseSequence : ℤ) : SessionQueryRow :=
  { r with
    entry := { entry with name := r.entry.name, createdAt := r.entry.createdAt }
    lastAppliedEventSequence := max r.lastAppliedEventSequence (sequence.getD 0)
    lastPhaseEventSequence := max r.lastPhaseEventSequence phaseSequence }

/-- The `SET` clause of a message. -/
def joinedQuery (r : SessionQueryRow) (conversationId : String) (sequence : Option ℤ) :
    SessionQueryRow :=
  { r with
    entry := { r.entry with conversationId := some conversationId }
    lastAppliedMessageSequence := sequence.getD r.lastAppliedMessageSequence }

def updatedSession (h : SessionRow) (session : SessionEntry) (touched : Option (ℕ × ℕ)) :
    SessionRow :=
  { h with
    errorCount := session.errorCount
    status := session.status
    conversations := session.conversations
    lastActivity := (touched.map (·.1)).getD h.lastActivity
    expiresAt := (touched.map (·.2)).getD h.expiresAt }

namespace Stmt

variable (C : Collation)

/-- `created_at, query_id`. -/
def rowLE (r r' : SessionQueryRow) : Bool :=
  r.entry.createdAt < r'.entry.createdAt ||
    r.entry.createdAt = r'.entry.createdAt && C.le r.queryId r'.queryId

/-- `(s.expires_at > now()) DESC, sq.session_id`. -/
def ownerLE (dbNow : ℕ) (a b : SessionRow) : Bool :=
  (decide (dbNow < a.expiresAt) && !decide (dbNow < b.expiresAt)) ||
    decide (dbNow < a.expiresAt) = decide (dbNow < b.expiresAt) && C.le a.sessionId b.sessionId

/-- The sessions that hold the query. -/
def holders (t : Tables) (queryId : String) : List SessionRow :=
  t.sessions.filter fun h => (t.query h.sessionId queryId).isSome

def lock : {α : Type} → Stmt α → Tables → Option Key
  | _, .insertSession sessionId .., t =>
    if (t.session sessionId).isSome then none else some (.session sessionId)
  | _, .upsertSession sessionId .., _ => some (.session sessionId)
  | _, .lockSession sessionId version, t =>
    ((t.session sessionId).filter (·.version = version)).map fun _ => .session sessionId
  | _, .selectQuery sessionId queryId, t =>
    (t.query sessionId queryId).map fun _ => .query sessionId queryId
  | _, .upsertQuery sessionId entry .., _ => some (.query sessionId entry.name)
  | _, .joinConversation sessionId queryId .., t =>
    (t.query sessionId queryId).map fun _ => .query sessionId queryId
  | _, .updateSession session .., t =>
    (t.session session.sessionId).map fun _ => .session session.sessionId
  | _, .deleteQuery sessionId queryId, t =>
    (t.query sessionId queryId).map fun _ => .query sessionId queryId
  | _, .deleteSession sessionId, t => (t.session sessionId).map fun _ => .session sessionId
  | _, .deleteVersion _ sessionId version, t =>
    ((t.session sessionId).filter (·.version = version)).map fun _ => .session sessionId
  | _, _, _ => none

/-- The result and the writes; `none` is the violated foreign key of `session_queries`. -/
def exec : {α : Type} → Stmt α → Tables → ℕ → Option (α × List Write)
  | _, .insertSession sessionId name clock, t, n =>
    match t.session sessionId with
    | some _ => some ((), [])
    | none => some ((), [.putSession (freshSession n sessionId name clock)])
  | _, .upsertSession sessionId name clock, t, n =>
    match t.session sessionId with
    | some h => some ({ h with name := name }, [.putSession { h with name := name }])
    | none =>
      let h := freshSession n sessionId name clock
      some (h, [.putSession h])
  | _, .sessionVersion sessionId, t, _ => some ((t.session sessionId).map (·.version), [])
  | _, .lockSession sessionId version, t, _ =>
    some ((t.session sessionId).filter (·.version = version), [])
  | _, .selectQuery sessionId queryId, t, _ => some (t.query sessionId queryId, [])
  | _, .selectQueries sessionId, t, _ =>
    some ((t.queriesOf sessionId).insertionSort (rowLE C · ·), [])
  | _, .upsertQuery sessionId entry sequence phaseSequence, t, _ =>
    match t.query sessionId entry.name with
    | some r => some ((), [.putQuery (updatedQuery r entry sequence phaseSequence)])
    | none =>
      if (t.session sessionId).isSome then
        some ((), [.putQuery (insertedQuery sessionId entry sequence phaseSequence)])
      else none
  | _, .joinConversation sessionId queryId conversationId sequence, t, _ =>
    match t.query sessionId queryId with
    | some r =>
      if sequence.all (r.lastAppliedMessageSequence < ·) then
        some (1, [.putQuery (joinedQuery r conversationId sequence)])
      else some (0, [])
    | none => some (0, [])
  | _, .updateSession session touched, t, _ =>
    match t.session session.sessionId with
    | some h => some ((), [.putSession (updatedSession h session touched)])
    | none => some ((), [])
  | _, .owner queryId dbNow, t, _ =>
    some (((holders t queryId).insertionSort (ownerLE C dbNow · ·)).head?.map (·.sessionId), [])
  | _, .owners queryId, t, _ =>
    some ((((t.queries.filter (·.queryId = queryId)).map (·.sessionId)).dedup).insertionSort
      (C.le · ·), [])
  | _, .deleteQuery sessionId queryId, t, _ =>
    match t.query sessionId queryId with
    | some _ => some (1, [.deleteQuery sessionId queryId])
    | none => some (0, [])
  | _, .countQueries sessionId, t, _ => some ((t.queriesOf sessionId).length, [])
  | _, .deleteSession sessionId, _, _ => some ((), [.deleteSession sessionId])
  | _, .sessionVersions p, t, _ =>
    some ((t.sessions.filter p).map fun h => (h.sessionId, h.version), [])
  | _, .deleteVersion p sessionId version, t, _ =>
    if ((t.session sessionId).filter fun h => h.version = version && p h).isSome then
      some ((), [.deleteSession sessionId])
    else some ((), [])

end Stmt

abbrev dialect (C : Collation) : Dialect where
  Tables := Tables
  Write := Write
  Key := Key
  Stmt := Stmt
  decEqKey := inferInstance
  write := Tables.write
  lock := Stmt.lock
  exec := Stmt.exec C

end Ark.Session
