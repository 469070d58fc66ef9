import Ark.CursorPages
import Ark.InMemoryStream

/-!
# Message and event streams

The message and the event stream exist in memory and over a Postgres table. The two kinds differ in
the fields that a filter can name; in memory a predicate compares the data's properties, the table has
columns for them. Times are in milliseconds, and sequence numbers stay where JavaScript's numbers are
exact. A value that the database driver sends for a parameter and the text that it stores are the same,
unless a property is no string.
-/

namespace Ark

/-- What the stream classes of one kind of data differ in. A property that is no string equals no
filter value. -/
structure StreamSchema (F T : Type) where
  fields : List F
  property : F → T → Option String
  column : F → T → Option String
  queryId : F

/-- `MessageFilter` and `EventFilter`. -/
structure StreamFilter (F : Type) where
  value : F → Option String
  afterSequence : Option ℕ := none

namespace StreamSchema

variable {F T : Type} (K : StreamSchema F T)

def predicateFor (filter : StreamFilter F) (item : BrokerItem T) : Bool :=
  K.fields.all fun field => (filter.value field).all fun v => K.property field item.data == some v

/-- An empty value leaves its condition out. -/
def whereFor (filter : StreamFilter F) (data : T) : Bool :=
  K.fields.all fun field =>
    (filter.value field).all fun v => v == "" || K.column field data == some v

def hasScopingField (filter : StreamFilter F) : Bool :=
  K.fields.any fun field => (filter.value field).any (· != "")

end StreamSchema

/-! ### Messages and events -/

structure MessageData (μ : Type) where
  conversationId : String
  queryId : String
  message : μ
  deriving DecidableEq, Repr

inductive MessageField
  | conversationId
  | queryId
  deriving DecidableEq, Repr

def messageColumn {μ : Type} : MessageField → MessageData μ → Option String
  | .conversationId, data => some data.conversationId
  | .queryId, data => some data.queryId

def messageSchema (μ : Type) : StreamSchema MessageField (MessageData μ) where
  fields := [.conversationId, .queryId]
  property := messageColumn
  column := messageColumn
  queryId := .queryId

/-- A property that the route takes as it comes: absent, a string, or a value of another kind with the
text that the driver makes of it. -/
inductive LooseString
  | absent
  | string (s : String)
  | other (text : String)
  deriving DecidableEq, Repr

structure EventData (ε : Type) where
  queryId : String
  sessionId : LooseString
  rest : ε
  deriving DecidableEq, Repr

inductive EventField
  | queryId
  | sessionId
  deriving DecidableEq, Repr

def eventProperty {ε : Type} : EventField → EventData ε → Option String
  | .queryId, data => some data.queryId
  | .sessionId, data =>
    match data.sessionId with
    | .string s => some s
    | .absent | .other _ => none

def eventColumn {ε : Type} : EventField → EventData ε → Option String
  | .queryId, data => some data.queryId
  | .sessionId, data =>
    match data.sessionId with
    | .string s => some s
    | .other text => some text
    | .absent => none

def eventSchema (ε : Type) : StreamSchema EventField (EventData ε) where
  fields := [.queryId, .sessionId]
  property := eventProperty
  column := eventColumn
  queryId := .queryId

/-! ### In memory -/

namespace InMemoryStream

variable {F T : Type} (K : StreamSchema F T) (s : InMemoryStream T)

def filterBy (now : ℕ) (filter : StreamFilter F) : List (BrokerItem T) :=
  (s.filter now (K.predicateFor filter)).filter fun item =>
    filter.afterSequence.all (· < item.sequenceNumber)

def paginateBy (now : ℕ) (limit : ℕ) (cursor : Option ℕ) (filter : Option (StreamFilter F)) :
    PaginatedList (BrokerItem T) :=
  s.paginate now (some limit) cursor (filter.map K.predicateFor)

/-- The loop of `appendMany`, when the clock stands still. -/
def appendMany (now : ℕ) (ttlSeconds : Option ℕ) : List T → InMemoryStream T → InMemoryStream T
  | [], s => s
  | data :: dataList, s => appendMany now ttlSeconds dataList (s.append now data ttlSeconds)

def deleteBy (filter : StreamFilter F) : Except String (InMemoryStream T) :=
  if K.hasScopingField filter then .ok (s.delete (some (K.predicateFor filter)))
  else .error "deleteBy requires at least one filter field"

def deleteByQuery (queryId : String) : InMemoryStream T :=
  s.delete (some fun item => K.property K.queryId item.data == some queryId)

end InMemoryStream

/-! ### Postgres -/

structure StreamRow (T : Type) where
  sequenceNumber : ℕ
  createdAt : ℕ
  expiresAt : ℕ
  data : T
  deriving DecidableEq, Repr

def rowToItem {T : Type} (row : StreamRow T) : BrokerItem T :=
  ⟨row.sequenceNumber, row.createdAt, none, row.data⟩

/-- A table with its sequence, and the stream's own time to live. -/
structure PostgresStream (T : Type) where
  rows : List (StreamRow T)
  lastValue : ℕ
  ttlSeconds : ℕ

namespace PostgresStream

variable {F T : Type} (K : StreamSchema F T) (s : PostgresStream T)

def new (ttlSeconds : ℕ) : PostgresStream T := ⟨[], 0, ttlSeconds⟩

/-- `nextval`, after `gap` values that nobody has got. -/
def nextval (gap : ℕ) : ℕ := s.lastValue + gap + 1

/-- The row of an `INSERT` at the time `now`. -/
def newRow (now gap : ℕ) (data : T) (ttlSeconds : Option ℕ) : StreamRow T :=
  ⟨s.nextval gap, now, now + ttlSeconds.getD s.ttlSeconds * 1000, data⟩

/-- `SELECT … WHERE expires_at > now() … ORDER BY sequence_number`. -/
def select (now : ℕ) (p : StreamRow T → Bool) : List (StreamRow T) :=
  CursorPages.orderBy StreamRow.sequenceNumber
    (s.rows.filter fun row => decide (now < row.expiresAt) && p row)

def filterBy (now : ℕ) (filter : StreamFilter F) : List (BrokerItem T) :=
  (s.select now fun row => K.whereFor filter row.data &&
    filter.afterSequence.all (· < row.sequenceNumber)).map rowToItem

/-- A `PaginatedList` whose total is left unpopulated. -/
def paginateBy (now limit : ℕ) (cursor : Option ℕ) (filter : Option (StreamFilter F)) :
    CursorPages.Page (BrokerItem T) :=
  let rows := (s.select now fun row => (filter.all fun f => K.whereFor f row.data) &&
    cursor.all (· < row.sequenceNumber)).take (limit + 1)
  let hasMore := decide (limit < rows.length)
  let items := (rows.take limit).map rowToItem
  ⟨items, hasMore, if hasMore then items.getLast?.map BrokerItem.sequenceNumber else none⟩

def delete (p : StreamRow T → Bool) : PostgresStream T :=
  { s with rows := s.rows.filter (!p ·) }

def deleteBy (filter : StreamFilter F) : Except String (PostgresStream T) :=
  if K.hasScopingField filter then .ok (s.delete fun row => K.whereFor filter row.data)
  else .error "deleteBy requires at least one filter field"

def deleteByQuery (queryId : String) : PostgresStream T :=
  s.delete fun row => K.column K.queryId row.data == some queryId

end PostgresStream

/-! ### Pages -/

section Pages

open CursorPages

variable {F T : Type} {K : StreamSchema F T}

/-- The page of a `PaginatedList`, whose total is left out. -/
def PaginatedList.toPage {ι : Type} (l : PaginatedList ι) : Page ι :=
  ⟨l.items, l.hasMore, l.nextCursor⟩

theorem filter_isAfter (cursor : Option ℕ) (items : List (BrokerItem T)) :
    items.filter (isAfter BrokerItem.sequenceNumber cursor) = (match cursor with
      | some c => items.filter fun item : BrokerItem T => decide (c < item.sequenceNumber)
      | none => items) := by
  cases cursor with
  | none => exact List.filter_eq_self.mpr fun _ _ => rfl
  | some c => rfl

theorem toPage_page (items : List (BrokerItem T)) (limit : ℕ) (cursor : Option ℕ) :
    (InMemoryStream.page items (some limit) cursor).toPage =
      pageOf BrokerItem.sequenceNumber limit cursor items := by
  have hrest := filter_isAfter cursor items
  cases cursor with
  | none => simp only [PaginatedList.toPage, InMemoryStream.page, pageOf, hrest, Option.getD_some]
  | some c => rfl

namespace PostgresStream

variable {s : PostgresStream T}

/-- The rows that a `SELECT` finds, in the order of the table. -/
theorem select_eq (h : (s.rows.map StreamRow.sequenceNumber).Nodup) (now : ℕ)
    (p : StreamRow T → Bool) : s.select now p =
      ((orderBy StreamRow.sequenceNumber s.rows).filter fun row =>
        decide (now < row.expiresAt)).filter p := by
  rw [select, orderBy_filter h, List.filter_filter]
  refine List.filter_congr fun row _ => ?_
  rw [Bool.and_comm]

/-- One row more than the limit is enough to know whether there are more. -/
theorem paginateBy_eq (h : (s.rows.map StreamRow.sequenceNumber).Nodup) (now limit : ℕ)
    (cursor : Option ℕ) (filter : Option (StreamFilter F)) :
    s.paginateBy K now limit cursor filter = pageOf BrokerItem.sequenceNumber limit cursor
      ((s.select now fun row => filter.all fun f => K.whereFor f row.data).map rowToItem) := by
  have hrows : (s.select now fun row => (filter.all fun f => K.whereFor f row.data) &&
        cursor.all (· < row.sequenceNumber)).map rowToItem =
      ((s.select now fun row => filter.all fun f => K.whereFor f row.data).map rowToItem).filter
        (isAfter BrokerItem.sequenceNumber cursor) := by
    rw [select_eq h, select_eq h, List.filter_map]
    generalize (orderBy StreamRow.sequenceNumber s.rows).filter
      (fun row => decide (now < row.expiresAt)) = live
    rw [List.filter_filter]
    congr 1
    refine List.filter_congr fun row _ => ?_
    rw [Bool.and_comm]
    rfl
  rw [paginateBy, pageOf, ← hrows]
  generalize s.select now (fun row => (filter.all fun f => K.whereFor f row.data) &&
    cursor.all (· < row.sequenceNumber)) = rows
  have hmore : decide (limit < (rows.take (limit + 1)).length) =
      decide (limit < (rows.map rowToItem).length) := by
    rw [decide_eq_decide, List.length_take, List.length_map]
    omega
  have hitems : ((rows.take (limit + 1)).take limit).map rowToItem =
      (rows.map rowToItem).take limit := by
    rw [List.take_take, Nat.min_eq_left (Nat.le_succ limit), List.map_take]
  simp only [hmore, hitems]

end PostgresStream

end Pages

end Ark
