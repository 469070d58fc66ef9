import Mathlib.Data.List.Infix
import Mathlib.Data.List.Sort

/-!
# The pure half of the session storages

Both storages fold broker events into query entries and rebuild the session's aggregates from its
entries with the functions of this file. Times are milliseconds; an optional text that is empty
counts as missing wherever the source tests it for truth.
-/

namespace Ark.Session

inductive QueryPhase
  | pending | running | done | error | canceled | unknown
  deriving DecidableEq, Repr

/-- The values that the Query CRD and the column's `CHECK` allow. -/
inductive TargetType
  | agent | team | model | tool
  deriving DecidableEq, Repr

inductive ParticipantType
  | agent | team | tool
  deriving DecidableEq, Repr

inductive Status
  | active | idle | error
  deriving DecidableEq, Repr

/-- `Partial<SessionEventData>`, with the `toolName` that older executors send. -/
structure SessionEventData where
  sessionId : Option String
  queryName : Option String
  queryNamespace : Option String
  conversationId : Option String
  agent : Option String
  team : Option String
  tool : Option String
  toolName : Option String
  targetType : Option TargetType
  error : Option String
  reason : Option String
  deriving DecidableEq, Repr

structure QueryEntry where
  name : String
  ns : Option String
  conversationId : Option String
  agent : Option String
  team : Option String
  tool : Option String
  targetType : TargetType
  phase : QueryPhase
  error : Option String
  createdAt : ℕ
  completedAt : Option ℕ
  lastActivity : ℕ
  deriving DecidableEq, Repr

structure Participant where
  id : String
  name : String
  type : ParticipantType
  deriving DecidableEq, Repr

structure ConversationSummary where
  conversationId : String
  name : String
  participants : List String
  messageCount : ℕ
  duration : String
  startTime : ℕ
  participantType : ParticipantType
  errorCount : ℕ
  deriving DecidableEq, Repr

/-- A session; `queries` lists the record's entries in the order in which its keys were added. -/
structure SessionEntry where
  sessionId : String
  name : String
  queries : List QueryEntry
  status : Status
  errorCount : ℕ
  participants : List Participant
  conversations : List ConversationSummary
  createdAt : ℕ
  lastActivity : ℕ
  deriving DecidableEq, Repr

/-- The text, if it is truthy. -/
def nonEmpty (v : Option String) : Option String := v.filter (· ≠ "")

/-- `v || w`. -/
def orElse (v w : Option String) : Option String := (nonEmpty v).or w

/-- `text.includes(part)`. -/
def includes (text part : String) : Bool := decide (part.toList <:+: text.toList)

/-! ### Events -/

def queryExecutionComplete : String := "QueryExecutionComplete"
def canceledReasonSuffix : String := "Canceled"
def errorReasonSuffix : String := "Error"

def resolveQueryPhase (reason : String) (errorMsg : Option String) : QueryPhase :=
  if reason = queryExecutionComplete then
    if (nonEmpty errorMsg).isSome then .error else .done
  else if includes reason canceledReasonSuffix then .canceled
  else if includes reason errorReasonSuffix then .error
  else .running

/-- The phase that `applyEvent` resolves for an event. -/
def SessionEventData.phase (d : SessionEventData) : QueryPhase :=
  resolveQueryPhase (d.reason.getD "") d.error

def normalizeEventData (d : SessionEventData) : SessionEventData :=
  { d with tool := orElse d.tool d.toolName }

def buildQueryEntry (queryName : String) (now : ℕ) (phase : QueryPhase) (d : SessionEventData)
    (errorMsg : Option String) : QueryEntry where
  name := queryName
  ns := d.queryNamespace
  conversationId := nonEmpty d.conversationId
  agent := d.agent
  team := d.team
  tool := d.tool
  targetType := d.targetType.getD .agent
  phase := phase
  error := errorMsg
  createdAt := now
  completedAt := if phase = .running then none else some now
  lastActivity := now

/-- One identity field of `mergeQueryMetadata`: the first truthy value stays. -/
def fill (new old : Option String) : Option String :=
  if (nonEmpty old).isSome then old else if (nonEmpty new).isSome then new else old

/-- The event has a value for a field that is still empty. -/
def fills (new old : Option String) : Bool := (nonEmpty new).isSome && (nonEmpty old).isNone

def fillTargetType (new : Option TargetType) (old : TargetType) : TargetType :=
  if old = .agent then new.getD old else old

def fillsTargetType (new : Option TargetType) (old : TargetType) : Bool :=
  new.any (· ≠ .agent) && decide (old = .agent)

/-- The entry and whether any field changed. -/
def mergeQueryMetadata (existing : QueryEntry) (d : SessionEventData) : QueryEntry × Bool :=
  ({ existing with
      conversationId := fill d.conversationId existing.conversationId
      ns := fill d.queryNamespace existing.ns
      agent := fill d.agent existing.agent
      team := fill d.team existing.team
      tool := fill d.tool existing.tool
      targetType := fillTargetType d.targetType existing.targetType },
    fills d.conversationId existing.conversationId || fills d.queryNamespace existing.ns ||
      fills d.agent existing.agent || fills d.team existing.team ||
      fills d.tool existing.tool || fillsTargetType d.targetType existing.targetType)

def isTerminalPhase (phase : QueryPhase) : Bool :=
  phase = .done || phase = .error || phase = .canceled

/-- The branches of `applyQueryPhase`: a later `done` supersedes an `error`. -/
def decidePhase (existing : QueryEntry) (phase : QueryPhase) (now : ℕ)
    (errorMsg : Option String) : QueryEntry :=
  if phase = .error then
    { existing with phase := .error, error := errorMsg, completedAt := some now }
  else if phase = .canceled ∧ existing.phase ≠ .error then
    { existing with phase := .canceled, completedAt := some now }
  else if phase = .done ∧ existing.phase ≠ .canceled then
    { existing with phase := .done, error := none, completedAt := some now }
  else existing

def applyQueryPhase (existing : QueryEntry) (phase : QueryPhase) (now : ℕ)
    (errorMsg : Option String) (touchActivity : Bool) : QueryEntry :=
  decidePhase (if touchActivity then { existing with lastActivity := now } else existing) phase
    now errorMsg

def updateExistingQuery (existing : QueryEntry) (phase : QueryPhase) (d : SessionEventData)
    (errorMsg : Option String) (now : ℕ) : QueryEntry :=
  applyQueryPhase (mergeQueryMetadata existing d).1 phase now errorMsg true

/-! ### Aggregates -/

/-- The number that a key is if it is an array index, below `2 ^ 32 - 1`. -/
def arrayIndex (key : String) : Option ℕ :=
  let digits := key.toList
  if !digits.isEmpty && digits.all Char.isDigit &&
      (digits.head? ≠ some '0' || digits.length = 1) then
    (some (digits.foldl (fun n d => 10 * n + (d.toNat - '0'.toNat)) 0)).filter (· < 4294967295)
  else none

/-- The order of a record's own keys: array indices ascending, then the others as they were
added. -/
def ownOrder {α : Type*} (key : α → String) (l : List α) : List α :=
  (l.filter fun x => (arrayIndex (key x)).isSome).insertionSort
      (fun x y => (arrayIndex (key x)).getD 0 ≤ (arrayIndex (key y)).getD 0) ++
    l.filter fun x => (arrayIndex (key x)).isNone

theorem ownOrder_map {α β : Type*} (key : β → String) (f : α → β) (l : List α) :
    ownOrder key (l.map f) = (ownOrder (fun x => key (f x)) l).map f := by
  simp only [ownOrder, List.filter_map, List.map_append, Function.comp_def]
  rw [List.map_insertionSort _ fun x y : β =>
    (arrayIndex (key x)).getD 0 ≤ (arrayIndex (key y)).getD 0]
  exact fun a _ b _ => Iff.rfl

/-- `Object.values(queries)`. -/
def objectValues (queries : List QueryEntry) : List QueryEntry := ownOrder QueryEntry.name queries

def calculateDuration (start : ℕ) : Option ℕ → String
  | none => "ongoing"
  | some stop =>
    let seconds : ℤ := ((stop : ℤ) - start) / 1000
    let minutes := seconds / 60
    if 0 < minutes then
      (toString minutes ++ "m ") ++ (toString (seconds % 60) ++ "s")
    else toString seconds ++ "s"

def isFailed (q : QueryEntry) : Bool := q.phase = .error

/-- The summary of the conversation of `first :: rest`. -/
def summarize (convId : String) (first : QueryEntry) (rest : List QueryEntry) :
    ConversationSummary :=
  let convQueries := first :: rest
  let participants :=
    (convQueries.filterMap fun q => nonEmpty (orElse (orElse q.team q.agent) q.tool)).eraseDups
  { conversationId := convId
    name := participants.head?.getD convId
    participants := participants
    messageCount := convQueries.length
    duration := calculateDuration first.createdAt (convQueries.getLast?.bind (·.completedAt))
    startTime := first.createdAt
    participantType :=
      match first.targetType with
      | .team => .team
      | .tool => .tool
      | _ => .agent
    errorCount := convQueries.countP isFailed }

def recalculateConversations (session : SessionEntry) : SessionEntry :=
  let queries := objectValues session.queries
  let convIds := (queries.filterMap fun q => nonEmpty q.conversationId).eraseDups
  { session with
    conversations := convIds.filterMap fun convId =>
      match queries.filter fun q => nonEmpty q.conversationId = some convId with
      | [] => none
      | first :: rest => some (summarize convId first rest) }

/-- One participant for each conversation name, the first conversation of that name deciding. -/
def deriveParticipants (conversations : List ConversationSummary) : List Participant :=
  conversations.foldl (fun ps c =>
    if ps.any (·.name = c.name) then ps else ps ++ [⟨c.name, c.name, c.participantType⟩]) []

def recalculateParticipants (session : SessionEntry) : SessionEntry :=
  { session with participants := deriveParticipants session.conversations }

def recalculateSessionConversations (session : SessionEntry) : SessionEntry :=
  if session.queries.isEmpty then { session with participants := [], conversations := [] }
  else recalculateParticipants (recalculateConversations session)

/-- The query with the latest activity; the first of several. -/
def latestQuery (first : QueryEntry) (rest : List QueryEntry) : QueryEntry :=
  rest.foldl (fun latest q => if latest.lastActivity < q.lastActivity then q else latest) first

def recalculateSessionStatus (session : SessionEntry) : SessionEntry :=
  match objectValues session.queries with
  | [] => recalculateSessionConversations { session with status := .idle, errorCount := 0 }
  | first :: rest =>
    let queries := first :: rest
    let status :=
      if queries.any fun q => q.phase = .running || q.phase = .pending then Status.active
      else if (latestQuery first rest).phase = .error then .error else .idle
    recalculateSessionConversations
      { session with errorCount := queries.countP isFailed, status := status }

end Ark.Session
