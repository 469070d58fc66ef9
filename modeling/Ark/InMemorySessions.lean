import Ark.KeyedTable
import Ark.SessionRuns

/-!
# `InMemorySessionsStorage`

The storage is a record of sessions with a map from query names to sessions. A record inherits the
properties of `Object.prototype`, and the storage does not ask whether a property is its own.
-/

namespace Ark.Session

open KeyedTable

/-- The names under which a record inherits a property. -/
def inherited : List String :=
  ["constructor", "__proto__", "__defineGetter__", "__defineSetter__", "hasOwnProperty",
    "__lookupGetter__", "__lookupSetter__", "isPrototypeOf", "propertyIsEnumerable", "toString",
    "valueOf", "toLocaleString"]

/-- `notified` lists what the emitter sent. -/
structure Memory where
  sessions : List SessionEntry
  queryToSession : List (String × String)
  notified : List Notification
  deriving DecidableEq, Repr

namespace Memory

def empty : Memory := ⟨[], [], []⟩

def session (m : Memory) (sid : String) : Option SessionEntry :=
  find SessionEntry.sessionId sid m.sessions

/-- `queryToSession.get(queryId)`. -/
def owner (m : Memory) (queryId : String) : Option String :=
  (find Prod.fst queryId m.queryToSession).map Prod.snd

end Memory

def SessionEntry.query (s : SessionEntry) (queryName : String) : Option QueryEntry :=
  find QueryEntry.name queryName s.queries

def SessionEntry.setQuery (s : SessionEntry) (e : QueryEntry) : SessionEntry :=
  { s with queries := put QueryEntry.name e s.queries }

/-- The session that an event adds. -/
def newSession (sid : String) (now : ℕ) : SessionEntry where
  sessionId := sid
  name := sessionName sid
  queries := []
  status := .idle
  errorCount := 0
  participants := []
  conversations := []
  createdAt := now
  lastActivity := now

/-- The entry that an event leaves. `later` is the clock of `updateExistingQuery`. -/
def nextEntry (existing : Option QueryEntry) (queryName : String) (d : SessionEventData)
    (now later : ℕ) : QueryEntry :=
  match existing with
  | some e => updateExistingQuery e d.phase (normalizeEventData d) d.error later
  | none => buildQueryEntry queryName now d.phase (normalizeEventData d) d.error

/-- The session after an event. An inherited name finds a function of `Object.prototype`, which
takes the update in the place of an entry. -/
def applyToSession (queryName : String) (d : SessionEventData) (now later : ℕ)
    (s : SessionEntry) : SessionEntry :=
  let s := { s with lastActivity := now }
  if queryName ∈ inherited then s
  else s.setQuery (nextEntry (s.query queryName) queryName d now later)

theorem queries_applyToSession {queryName : String} {d : SessionEventData} {now later : ℕ}
    {s : SessionEntry} (hq : queryName ∉ inherited) :
    (applyToSession queryName d now later s).queries =
      put QueryEntry.name (nextEntry (s.query queryName) queryName d now later) s.queries := by
  rw [applyToSession, if_neg hq]
  rfl

theorem sessionId_applyToSession {queryName : String} {d : SessionEventData} {now later : ℕ}
    {s : SessionEntry} : (applyToSession queryName d now later s).sessionId = s.sessionId := by
  unfold applyToSession
  split <;> rfl

theorem name_applyToSession {queryName : String} {d : SessionEventData} {now later : ℕ}
    {s : SessionEntry} : (applyToSession queryName d now later s).name = s.name := by
  unfold applyToSession
  split <;> rfl

namespace Memory

/-- `none` is the event that writes to `Object.prototype` itself, from where every record inherits
it. A session with an inherited name has no `queries`, so that the call throws. -/
def applyEvent (d : SessionEventData) (now later : ℕ) (m : Memory) : Option Memory :=
  match nonEmpty d.sessionId, nonEmpty d.queryName with
  | some sid, some queryName =>
    if sid ∈ inherited then some m
    else if queryName = "__proto__" then none
    else
      let s := (m.session sid).getD (newSession sid now)
      let isNew := queryName ∉ inherited && (s.query queryName).isNone
      some {
        sessions := put SessionEntry.sessionId
          (recalculateSessionStatus (applyToSession queryName d now later s)) m.sessions
        queryToSession :=
          if isNew then put Prod.fst (queryName, sid) m.queryToSession else m.queryToSession
        notified := m.notified ++ [(sid, queryName)] }
  | _, _ => some m

def applyMessage (conversationId queryId : String) (now : ℕ) (m : Memory) : Memory :=
  match m.owner queryId with
  | none => m
  | some sid =>
    match m.session sid with
    | none => m
    | some s =>
      match s.query queryId with
      | none => m
      | some e =>
        let joinedConversation := (nonEmpty e.conversationId).isNone
        let touched := { s with lastActivity := now }
        if joinedConversation then
          let joined := touched.setQuery { e with conversationId := some conversationId }
          { m with
            sessions :=
              put SessionEntry.sessionId (recalculateSessionConversations joined) m.sessions
            notified := m.notified ++ [(sid, queryId)] }
        else { m with sessions := put SessionEntry.sessionId touched m.sessions }

/-- `session.queries[queryId]` is truthy. -/
def finds (queryId : String) (s : SessionEntry) : Bool :=
  queryId ∈ inherited || (s.query queryId).isSome

/-- One round of the loop of `deleteQuery`, with the count of the rounds that removed. -/
def deleteQueryFrom (queryId : String) (r : Memory × ℕ) (s : SessionEntry) : Memory × ℕ :=
  let (m, removed) := r
  if !finds queryId s then r
  else
    let s := { s with queries := remove QueryEntry.name queryId s.queries }
    let queryToSession := remove Prod.fst queryId m.queryToSession
    if s.queries.isEmpty then
      (⟨remove SessionEntry.sessionId s.sessionId m.sessions, queryToSession, m.notified⟩,
        removed + 1)
    else
      (⟨put SessionEntry.sessionId (recalculateSessionStatus s) m.sessions, queryToSession,
        m.notified ++ [(s.sessionId, queryId)]⟩, removed + 1)

def deleteQuery (queryId : String) (m : Memory) : Memory × ℕ :=
  (ownOrder SessionEntry.sessionId m.sessions).foldl (deleteQueryFrom queryId) (m, 0)

/-! ### The loop of `deleteQuery` -/

/-- A session without the query. -/
def without (queryId : String) (s : SessionEntry) : SessionEntry :=
  recalculateSessionStatus { s with queries := remove QueryEntry.name queryId s.queries }

/-- The session finds the query and has others. -/
def survives (queryId : String) (s : SessionEntry) : Bool :=
  finds queryId s && !(remove QueryEntry.name queryId s.queries).isEmpty

/-- What the loop leaves of a session. -/
def leaves (queryId : String) (s : SessionEntry) : Option SessionEntry :=
  if finds queryId s then if survives queryId s then some (without queryId s) else none
  else some s

variable {m : Memory} {s : SessionEntry} {sid q : String} {k : ℕ}

theorem session_put {sessions : List SessionEntry} {owners : List (String × String)}
    {notified : List Notification} :
    session ⟨put SessionEntry.sessionId s sessions, owners, notified⟩ sid =
      if sid = s.sessionId then some s else find SessionEntry.sessionId sid sessions := find_put

theorem sessionId_of_session (h : m.session sid = some s) : s.sessionId = sid := key_of_find h

/-- One round touches its own session only. -/
theorem deleteQueryFrom_spec (hs : m.session s.sessionId = some s) :
    let m' := (deleteQueryFrom q (m, k) s).1
    m'.session s.sessionId = leaves q s ∧
      (∀ sid, sid ≠ s.sessionId → m'.session sid = m.session sid) ∧
      m'.notified = m.notified ++ (if survives q s then [(s.sessionId, q)] else []) ∧
      m'.queryToSession =
        (if finds q s then remove Prod.fst q m.queryToSession else m.queryToSession) ∧
      ((m.sessions.map SessionEntry.sessionId).Nodup →
        (m'.sessions.map SessionEntry.sessionId).Nodup) := by
  have hid : (without q s).sessionId = s.sessionId := recalculateSessionStatus_sessionId
  simp only [deleteQueryFrom]
  by_cases hf : finds q s
  · by_cases he : (remove QueryEntry.name q s.queries).isEmpty
    · simp only [hf, he, leaves, survives, Bool.not_true, Bool.false_eq_true, if_false, if_true,
        Bool.and_false, List.append_nil]
      exact ⟨find_remove_self, fun sid hsid => find_remove_of_ne hsid, trivial, trivial, nodup_remove⟩
    · simp only [hf, he, leaves, survives, Bool.not_true, Bool.false_eq_true, if_false, if_true,
        Bool.and_true, Bool.not_false]
      refine ⟨?_, ?_, trivial, trivial, nodup_put⟩
      · exact session_put.trans (if_pos hid.symm)
      · intro sid hsid
        exact session_put.trans (if_neg fun he => hsid (he.trans hid))
  · simp [hf, leaves, survives, hs]

/-- The loop over sessions that are all in the store. -/
theorem foldl_deleteQueryFrom {l : List SessionEntry}
    (hn : (l.map SessionEntry.sessionId).Nodup) (hl : ∀ s ∈ l, m.session s.sessionId = some s) :
    let m' := (l.foldl (deleteQueryFrom q) (m, k)).1
    (∀ s ∈ l, m'.session s.sessionId = leaves q s) ∧
      (∀ sid, (∀ s ∈ l, s.sessionId ≠ sid) → m'.session sid = m.session sid) ∧
      m'.notified = m.notified ++ ((l.filter (survives q)).map SessionEntry.sessionId).map (·, q) ∧
      m'.queryToSession =
        (if l.any (finds q) then remove Prod.fst q m.queryToSession else m.queryToSession) ∧
      ((m.sessions.map SessionEntry.sessionId).Nodup →
        (m'.sessions.map SessionEntry.sessionId).Nodup) := by
  induction l generalizing m k with
  | nil => simp
  | cons s l ih =>
    rw [List.map_cons, List.nodup_cons] at hn
    have hne : ∀ x ∈ l, x.sessionId ≠ s.sessionId :=
      fun x hx he => hn.1 (he ▸ List.mem_map_of_mem hx)
    obtain ⟨hself, hothers, hnotified, howners, hnodup⟩ :=
      deleteQueryFrom_spec (q := q) (k := k) (hl s List.mem_cons_self)
    rw [List.foldl_cons]
    set r := deleteQueryFrom q (m, k) s with hr
    have hl' : ∀ x ∈ l, r.1.session x.sessionId = some x := by
      intro x hx
      rw [hothers _ (hne x hx)]
      exact hl x (List.mem_cons_of_mem s hx)
    obtain ⟨hself', hothers', hnotified', howners', hnodup'⟩ := ih (m := r.1) (k := r.2) hn.2 hl'
    refine ⟨?_, ?_, ?_, ?_, fun h => hnodup' (hnodup h)⟩
    · intro x hx
      obtain rfl | hx := List.mem_cons.mp hx
      · rw [hothers' _ hne, hself]
      · exact hself' x hx
    · intro sid hsid
      rw [hothers' sid fun x hx => hsid x (List.mem_cons_of_mem s hx),
        hothers sid (Ne.symm (hsid s List.mem_cons_self))]
    · rw [hnotified', hnotified, List.append_assoc]
      cases hs : survives q s <;> simp [hs]
    · rw [howners', howners, List.any_cons]
      by_cases hf : finds q s <;> by_cases hf' : l.any (finds q) <;> simp [hf, hf', remove]

end Memory

end Ark.Session
