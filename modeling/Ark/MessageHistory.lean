import Ark.BrokerStreams
import Ark.Machine
import Mathlib.Data.List.Perm.Basic

/-!
# Reading a conversation's history

`GetMessages` asks the broker for one page after the other. The broker keeps the messages in memory,
where each append is one turn of the event loop, or in Postgres, where an `INSERT` takes its sequence
numbers row by row and its rows become visible with its commit. Appends of any number of callers run
between two pages.
-/

namespace Ark

/-! ### The broker -/

/-- The stream that the broker was configured with, and the transactions that have not committed. -/
inductive MessageStore (μ : Type)
  | memory (s : InMemoryStream (MessageData μ))
  | postgres (table : PostgresStream (MessageData μ))
      (inFlight : List (List (StreamRow (MessageData μ))))

def MAX_LIMIT : ℕ := 1000

/-- `parsePaginationParams`, from what `parseInt` returns. -/
def parsePaginationParams (limit cursor : Option Int) : Except String (ℕ × Option ℕ) :=
  if limit.any (· < 1) then .error "limit must be a positive integer"
  else if limit.any ((MAX_LIMIT : Int) < ·) then .error "limit cannot exceed 1000"
  else if cursor.any (· < 0) then .error "cursor must be a non-negative integer"
  else .ok ((limit.map Int.toNat).getD DEFAULT_LIMIT, cursor.map Int.toNat)

/-- `MessageItem` of the broker and `MessageRecord` of its client. -/
structure MessageRecord (μ : Type) where
  timestamp : ℕ
  conversationId : String
  queryId : String
  message : μ
  sequence : ℕ
  deriving DecidableEq, Repr

def messageRecord {μ : Type} (item : BrokerItem (MessageData μ)) : MessageRecord μ :=
  ⟨item.timestamp, item.data.conversationId, item.data.queryId, item.data.message,
    item.sequenceNumber⟩

namespace MessageStore

variable {μ : Type} (store : MessageStore μ)

def paginate (now limit : ℕ) (cursor : Option ℕ) (filters : StreamFilter MessageField) :
    CursorPages.Page (BrokerItem (MessageData μ)) :=
  match store with
  | .memory s =>
    let page := s.paginateBy (messageSchema μ) now limit cursor (some filters)
    ⟨page.items, page.hasMore, page.nextCursor⟩
  | .postgres table _ => table.paginateBy (messageSchema μ) now limit cursor (some filters)

/-- `value || undefined`. -/
def orUndefined (value : String) : Option String := if value = "" then none else some value

/-- The response with its status; the total, which no caller reads, is left out. -/
def handlePaginatedMessages (now : ℕ) (conversationId queryId : Option String)
    (limit cursor : Option Int) : Except ℕ (CursorPages.Page (MessageRecord μ)) :=
  match parsePaginationParams limit cursor with
  | .error _ => .error 400
  | .ok (limit, cursor) =>
    let page := store.paginate now limit cursor ⟨fun
      | .conversationId => conversationId.bind orUndefined
      | .queryId => queryId.bind orUndefined, none⟩
    .ok (page.map messageRecord)

/-- The messages that a reader can see, in the order of their numbers. -/
def committed : List (BrokerItem (MessageData μ)) :=
  match store with
  | .memory s => s.items
  | .postgres table _ => (CursorPages.orderBy StreamRow.sequenceNumber table.rows).map rowToItem

def conversation (conversationId : String) : List (BrokerItem (MessageData μ)) :=
  store.committed.filter fun item => item.data.conversationId == conversationId

/-- Sequence numbers are given out once, to the rows of transactions in flight too. -/
def Numbered : Prop :=
  match store with
  | .memory s => s.Ordered
  | .postgres table inFlight =>
    ((table.rows ++ inFlight.flatten).map StreamRow.sequenceNumber).Nodup ∧
      ∀ row ∈ table.rows ++ inFlight.flatten, row.sequenceNumber ≤ table.lastValue

/-- No message has expired. -/
def Unexpired (now : ℕ) : Prop :=
  match store with
  | .memory s => ∀ item ∈ s.items, item.isExpired now = false
  | .postgres table _ => ∀ row ∈ table.rows, now < row.expiresAt

end MessageStore

/-- What happens in the broker on behalf of `addMessages`. -/
inductive StoreAction (μ : Type)
  | append (data : MessageData μ) (ttlSeconds : Option ℕ)
  | begin
  | insertRow (i gap : ℕ) (data : MessageData μ) (ttlSeconds : Option ℕ)
  | commit (i : ℕ)
  | abort (i : ℕ)

namespace MessageStore

variable {μ : Type}

def step (now : ℕ) : MessageStore μ → StoreAction μ → Option (MessageStore μ)
  | .memory s, .append data ttlSeconds => some (.memory (s.append now data ttlSeconds))
  | .postgres table inFlight, .begin => some (.postgres table (inFlight ++ [[]]))
  | .postgres table inFlight, .insertRow i gap data ttlSeconds =>
    match inFlight[i]? with
    | some rows =>
      let row := table.newRow now gap data ttlSeconds
      some (.postgres { table with lastValue := row.sequenceNumber }
        (inFlight.set i (rows ++ [row])))
    | none => none
  | .postgres table inFlight, .commit i =>
    match inFlight[i]? with
    | some rows =>
      some (.postgres { table with rows := table.rows ++ rows } (inFlight.eraseIdx i))
    | none => none
  | .postgres table inFlight, .abort i =>
    if i < inFlight.length then some (.postgres table (inFlight.eraseIdx i)) else none
  | _, _ => none

end MessageStore

/-! ### The client -/

def MessagesPageLimit : ℕ := 1000

def MessagesMaxPages : ℕ := 1000

/-- A client always has a conversation: the one it was configured with, or the one that the broker
has created for it. -/
structure HTTPMemory where
  conversationId : String
  nonempty : conversationId ≠ ""

/-- `createConversation`, when the broker answers with `created`. -/
def newHTTPMemory (configured created : String) (h : created ≠ "") : HTTPMemory :=
  if hconfigured : configured = "" then ⟨created, h⟩ else ⟨configured, hconfigured⟩

/-- The state of the loop of `GetMessages`. -/
structure Reading (m : Type) where
  page : ℕ
  cursor : Option ℕ
  messages : List m
  deriving DecidableEq, Repr

inductive GetMessages (m : Type)
  | idle
  | reading (r : Reading m)
  | returned (result : Except String (List m))

section Client

variable {μ m : Type} (decode : μ → Except String m)

def decodeMessagePage (offset : ℕ) : List (MessageRecord μ) → Except String (List m)
  | [] => .ok []
  | record :: records =>
    match decode record.message with
    | .error e =>
      .error ("failed to unmarshal message at index " ++ toString offset ++ ": " ++ e)
    | .ok message =>
      match decodeMessagePage (offset + 1) records with
      | .error e => .error e
      | .ok messages => .ok (message :: messages)

/-- The body of the loop after the page has been fetched. -/
def Reading.next (r : Reading m) (response : CursorPages.Page (MessageRecord μ)) : GetMessages m :=
  match decodeMessagePage decode r.messages.length response.items with
  | .error e => .returned (.error e)
  | .ok pageMessages =>
    let messages := r.messages ++ pageMessages
    if response.hasMore = false then .returned (.ok messages)
    else match response.nextCursor with
      | none => .returned (.error ("memory backend reported more messages after " ++
          toString messages.length ++ " but returned no nextCursor"))
      | some nextCursor =>
        if r.cursor.any (nextCursor ≤ ·) then
          .returned (.error ("memory backend returned non-advancing nextCursor " ++
            toString nextCursor ++ " (previous " ++ toString (r.cursor.getD 0) ++ ")"))
        else if r.page + 1 < MessagesMaxPages then
          .reading ⟨r.page + 1, some nextCursor, messages⟩
        else .returned (.error ("memory backend still reported more messages after " ++
          toString MessagesMaxPages ++ " pages of " ++ toString MessagesPageLimit))

/-- The broker's answer to `fetchMessagePage`. -/
def fetchMessagePage (store : MessageStore μ) (now : ℕ) (memory : HTTPMemory) (r : Reading m) :
    Except String (CursorPages.Page (MessageRecord μ)) :=
  match store.handlePaginatedMessages now (some memory.conversationId) none
    (some MessagesPageLimit) (r.cursor.map Int.ofNat) with
  | .error status => .error ("HTTP status " ++ toString status)
  | .ok response => .ok response

end Client

/-! ### A call among appends -/

/-- `base` is what was there when the call began, `fetches` how many requests it has made. -/
structure HistoryCall (μ m : Type) where
  store : MessageStore μ
  now : ℕ
  client : GetMessages m
  base : List (BrokerItem (MessageData μ))
  fetches : ℕ

/-- A request fails on its way or is answered. -/
inductive HistoryAction (μ : Type)
  | store (a : StoreAction μ)
  | tick (n : ℕ)
  | call (resolved : Except String Unit)
  | fetch
  | fetchFails (text : String)

namespace HistoryCall

variable {μ m : Type} (decode : μ → Except String m) (memory : HTTPMemory)

def answered (s : HistoryCall μ m) (client : GetMessages m) : HistoryCall μ m :=
  { s with client := client, fetches := s.fetches + 1 }

def step (s : HistoryCall μ m) : HistoryAction μ → Option (HistoryCall μ m)
  | .store a => (s.store.step s.now a).map fun store => { s with store := store }
  | .tick n => some { s with now := s.now + n }
  | .call resolved =>
    match s.client, resolved with
    | .idle, .ok () => some { s with
        client := .reading ⟨0, none, []⟩
        base := s.store.conversation memory.conversationId }
    | .idle, .error e => some { s with client := .returned (.error e) }
    | _, _ => none
  | .fetch =>
    match s.client with
    | .reading r =>
      match fetchMessagePage s.store s.now memory r with
      | .error e => some (s.answered (.returned (.error e)))
      | .ok response => some (s.answered (r.next decode response))
    | _ => none
  | .fetchFails text =>
    match s.client with
    | .reading _ => some (s.answered (.returned (.error text)))
    | _ => none

def machine : Machine (HistoryCall μ m) (HistoryAction μ) where
  init s := s.store.Numbered ∧ s.client = .idle ∧ s.fetches = 0
  step s a := s.step decode memory a

/-- Nothing has expired when a page is asked for. -/
def Lasting (s : HistoryCall μ m) : HistoryAction μ → Prop
  | .fetch => s.store.Unexpired s.now
  | _ => True

end HistoryCall

/-! ### What the broker keeps -/

open CursorPages

namespace MessageStore

variable {μ : Type} {store store' : MessageStore μ} {now : ℕ}

theorem Numbered.perm {table : PostgresStream (MessageData μ)}
    {inFlight : List (List (StreamRow (MessageData μ)))} (h : (postgres table inFlight).Numbered)
    {rows : List (StreamRow (MessageData μ))}
    {inFlight' : List (List (StreamRow (MessageData μ)))}
    (hperm : (table.rows ++ inFlight.flatten).Perm (rows ++ inFlight'.flatten)) :
    (postgres { table with rows := rows } inFlight').Numbered :=
  ⟨(hperm.map _).nodup_iff.mp h.1, fun row hrow => h.2 row (hperm.mem_iff.mpr hrow)⟩

theorem perm_eraseIdx {α : Type} {l : List (List α)} {i : ℕ} {x : List α} (h : l[i]? = some x) :
    l.flatten.Perm (x ++ (l.eraseIdx i).flatten) := by
  obtain ⟨hi, rfl⟩ := List.getElem?_eq_some_iff.mp h
  have hperm := (List.getElem_cons_eraseIdx_perm hi).symm.flatten
  rwa [List.flatten_cons] at hperm

theorem perm_set {α : Type} {l : List (List α)} {i : ℕ} {x : List α} (h : l[i]? = some x)
    (a : α) : (l.set i (x ++ [a])).flatten.Perm (a :: l.flatten) := by
  have hi : i < l.length := (List.getElem?_eq_some_iff.mp h).1
  have hset := (List.set_perm_cons_eraseIdx hi (x ++ [a])).flatten
  rw [List.flatten_cons] at hset
  have hmove : (x ++ [a] ++ (l.eraseIdx i).flatten).Perm (a :: (x ++ (l.eraseIdx i).flatten)) := by
    rw [List.append_assoc, List.singleton_append]
    exact List.perm_middle
  exact hset.trans (hmove.trans ((perm_eraseIdx h).symm.cons a))

/-- A step gives out no number twice and keeps what has been committed. -/
theorem Numbered.step {a : StoreAction μ} (h : store.Numbered) (hs : store.step now a = some store') :
    store'.Numbered ∧ ∀ item ∈ store.committed, item ∈ store'.committed := by
  cases store with
  | memory s =>
    cases a with
    | append data ttlSeconds =>
      cases hs
      exact ⟨InMemoryStream.Ordered.append h now data ttlSeconds,
        fun item hitem => List.mem_append_left _ hitem⟩
    | _ => cases hs
  | postgres table inFlight =>
    cases a with
    | append data ttlSeconds => cases hs
    | begin =>
      cases hs
      refine ⟨h.perm ?_, fun item hitem => hitem⟩
      rw [List.flatten_append]
      simp
    | insertRow i gap data ttlSeconds =>
      rw [MessageStore.step] at hs
      split at hs
      next rows hrows =>
        cases hs
        have hperm := (perm_set hrows (table.newRow now gap data ttlSeconds)).append_left table.rows
        have hlt : ∀ row ∈ table.rows ++ inFlight.flatten,
            row.sequenceNumber < (table.newRow now gap data ttlSeconds).sequenceNumber := by
          intro row hrow
          have hle := h.2 row hrow
          simp only [PostgresStream.newRow, PostgresStream.nextval]
          omega
        have hall := hperm.trans List.perm_middle
        refine ⟨⟨(hall.map _).nodup_iff.mpr ?_, fun row hrow => ?_⟩, fun item hitem => hitem⟩
        · rw [List.map_cons, List.nodup_cons]
          refine ⟨fun hmem => ?_, h.1⟩
          obtain ⟨row, hrow, heq⟩ := List.mem_map.mp hmem
          exact Nat.ne_of_lt (hlt row hrow) heq
        · obtain rfl | hrow := List.mem_cons.mp (hall.mem_iff.mp hrow)
          · exact Nat.le_refl _
          · exact Nat.le_of_lt (hlt row hrow)
      next => cases hs
    | commit i =>
      rw [MessageStore.step] at hs
      split at hs
      next rows hrows =>
        cases hs
        refine ⟨h.perm ?_, fun item hitem => ?_⟩
        · rw [List.append_assoc]
          exact (perm_eraseIdx hrows).append_left table.rows
        · obtain ⟨row, hrow, rfl⟩ := List.mem_map.mp hitem
          refine List.mem_map_of_mem (mem_orderBy.mpr ?_)
          exact List.mem_append_left _ (mem_orderBy.mp hrow)
      next => cases hs
    | abort i =>
      rw [MessageStore.step] at hs
      split at hs
      next hi =>
        cases hs
        have hperm := (perm_eraseIdx (List.getElem?_eq_getElem hi)).append_left table.rows
        have hsub : (table.rows ++ (inFlight.eraseIdx i).flatten).Sublist
            (table.rows ++ (inFlight[i] ++ (inFlight.eraseIdx i).flatten)) :=
          (List.sublist_append_right inFlight[i] _).append_left table.rows
        refine ⟨⟨(hsub.map _).nodup ((hperm.map _).nodup_iff.mp h.1), fun row hrow => ?_⟩,
          fun item hitem => hitem⟩
        exact h.2 row (hperm.mem_iff.mpr (hsub.subset hrow))
      next => cases hs

theorem Numbered.increasing (h : store.Numbered) :
    Increasing BrokerItem.sequenceNumber store.committed := by
  cases store with
  | memory s => exact h.increasing
  | postgres table inFlight =>
    have hnodup : (table.rows.map StreamRow.sequenceNumber).Nodup := by
      rw [Numbered, List.map_append] at h
      exact h.1.of_append_left
    exact List.pairwise_map.mpr (increasing_orderBy hnodup)

theorem conversation_subset (h : ∀ item ∈ store.committed, item ∈ store'.committed)
    (conversationId : String) :
    ∀ item ∈ store.conversation conversationId, item ∈ store'.conversation conversationId := by
  intro item hitem
  obtain ⟨hmem, hid⟩ := List.mem_filter.mp hitem
  exact List.mem_filter.mpr ⟨h item hmem, hid⟩

/-- The filter of a conversation, in memory and in the table. -/
theorem predicateFor_conversation (conversationId : String) (item : BrokerItem (MessageData μ))
    (value : MessageField → Option String) (hid : value .conversationId = some conversationId)
    (hquery : value .queryId = none) :
    (messageSchema μ).predicateFor ⟨value, none⟩ item =
      (item.data.conversationId == conversationId) := by
  simp [StreamSchema.predicateFor, messageSchema, messageColumn, hid, hquery]

theorem whereFor_conversation {conversationId : String} (h : conversationId ≠ "")
    (data : MessageData μ) (value : MessageField → Option String)
    (hid : value .conversationId = some conversationId) (hquery : value .queryId = none) :
    (messageSchema μ).whereFor ⟨value, none⟩ data = (data.conversationId == conversationId) := by
  have hvalue : (conversationId == "") = false := beq_eq_false_iff_ne.mpr h
  simp [StreamSchema.whereFor, messageSchema, messageColumn, hid, hquery, hvalue]

/-- Both streams answer with the page of the conversation. -/
theorem paginate_eq (h : store.Numbered) (hlasting : store.Unexpired now) {conversationId : String}
    (hnonempty : conversationId ≠ "") (limit : ℕ) (cursor : Option ℕ)
    {value : MessageField → Option String} (hid : value .conversationId = some conversationId)
    (hquery : value .queryId = none) :
    store.paginate now limit cursor ⟨value, none⟩ =
      pageOf BrokerItem.sequenceNumber limit cursor (store.conversation conversationId) := by
  cases store with
  | memory s =>
    have hlive : s.live now = s.items := by
      rw [InMemoryStream.live]
      split
      · rfl
      · exact List.filter_eq_self.mpr fun item hitem => by rw [hlasting item hitem]; rfl
    have hfilter : s.items.filter ((messageSchema μ).predicateFor ⟨value, none⟩) =
        (memory s).conversation conversationId :=
      List.filter_congr fun item _ => predicateFor_conversation conversationId item value hid hquery
    rw [paginate, ← hfilter, ← toPage_page, ← hlive]
    rfl
  | postgres table inFlight =>
    have hnodup : (table.rows.map StreamRow.sequenceNumber).Nodup := by
      rw [Numbered, List.map_append] at h
      exact h.1.of_append_left
    have hlive : (orderBy StreamRow.sequenceNumber table.rows).filter
        (fun row => decide (now < row.expiresAt)) = orderBy StreamRow.sequenceNumber table.rows :=
      List.filter_eq_self.mpr fun row hrow => decide_eq_true (hlasting row (mem_orderBy.mp hrow))
    have hfilter : ((orderBy StreamRow.sequenceNumber table.rows).filter fun row =>
          (some (⟨value, none⟩ : StreamFilter MessageField)).all fun f =>
            (messageSchema μ).whereFor f row.data).map rowToItem =
        (postgres table inFlight).conversation conversationId := by
      rw [conversation, committed, List.filter_map]
      congr 1
      refine List.filter_congr fun row _ => ?_
      exact whereFor_conversation hnonempty row.data value hid hquery
    rw [paginate, PostgresStream.paginateBy_eq hnodup, PostgresStream.select_eq hnodup, hlive,
      hfilter]

end MessageStore

/-! ### What the client has collected -/

section Client

variable {μ m : Type} {decode : μ → Except String m}

/-- The messages that a client makes of items. -/
abbrev Decoded (decode : μ → Except String m) (items : List (BrokerItem (MessageData μ)))
    (messages : List m) : Prop :=
  List.Forall₂ (fun item message => decode item.data.message = .ok message) items messages

theorem decoded_of_decodeMessagePage {items : List (BrokerItem (MessageData μ))} {offset : ℕ}
    {messages : List m}
    (h : decodeMessagePage decode offset (items.map messageRecord) = .ok messages) :
    Decoded decode items messages := by
  induction items generalizing offset messages with
  | nil =>
    cases h
    exact .nil
  | cons item items ih =>
    rw [List.map_cons, decodeMessagePage] at h
    split at h
    next => cases h
    next message hmessage =>
      split at h
      next => cases h
      next rest hrest =>
        cases h
        exact .cons hmessage (ih hrest)

theorem fetchMessagePage_eq {store : MessageStore μ} {now : ℕ} (h : store.Numbered)
    (hlasting : store.Unexpired now) (memory : HTTPMemory) (r : Reading m) :
    fetchMessagePage store now memory r =
      .ok ((pageOf BrokerItem.sequenceNumber MessagesPageLimit r.cursor
        (store.conversation memory.conversationId)).map messageRecord) := by
  have hparams : parsePaginationParams (some MessagesPageLimit) (r.cursor.map Int.ofNat) =
      .ok (MessagesPageLimit, r.cursor) := by
    have hlimit : ((some (MessagesPageLimit : Int)).any (· < 1)) = false ∧
        ((some (MessagesPageLimit : Int)).any ((MAX_LIMIT : Int) < ·)) = false := by decide
    cases r.cursor with
    | none => rfl
    | some c =>
      have hcursor : ((some c).map Int.ofNat).any (· < 0) = false :=
        decide_eq_false (Int.not_lt.mpr (Int.natCast_nonneg c))
      rw [parsePaginationParams, hlimit.1, hlimit.2, hcursor]
      rfl
  have hid : (some memory.conversationId).bind MessageStore.orUndefined =
      some memory.conversationId := by
    rw [Option.bind_some, MessageStore.orUndefined, if_neg memory.nonempty]
  rw [fetchMessagePage, MessageStore.handlePaginatedMessages, hparams]
  dsimp only
  rw [MessageStore.paginate_eq h hlasting memory.nonempty MessagesPageLimit r.cursor hid rfl]

end Client

namespace HistoryCall

variable {μ m : Type} {decode : μ → Except String m} {memory : HTTPMemory}
  {s t : HistoryCall μ m}

/-- What a call has, given the items of its conversation that it can have seen. -/
def Progress (decode : μ → Except String m) (base seen : List (BrokerItem (MessageData μ)))
    (fetches : ℕ) : GetMessages m → Prop
  | .idle => fetches = 0
  | .reading r => r.page = fetches ∧ fetches < MessagesMaxPages ∧ (∀ item ∈ base, item ∈ seen) ∧
      ∃ items, Decoded decode items r.messages ∧
        Collected BrokerItem.sequenceNumber base seen r.cursor items
  | .returned (.ok messages) => fetches ≤ MessagesMaxPages ∧
      ∃ items, Decoded decode items messages ∧ Whole BrokerItem.sequenceNumber base seen items
  | .returned (.error _) => fetches ≤ MessagesMaxPages

theorem Progress.mono {base seen seen' : List (BrokerItem (MessageData μ))} {fetches : ℕ}
    {client : GetMessages m} (h : Progress decode base seen fetches client)
    (hsub : ∀ item ∈ seen, item ∈ seen') : Progress decode base seen' fetches client := by
  match client, h with
  | .idle, h => exact h
  | .reading r, ⟨hpage, hlt, hbase, items, hdecoded, hcollected⟩ =>
    exact ⟨hpage, hlt, fun item hitem => hsub item (hbase item hitem), items, hdecoded,
      hcollected.mono hsub⟩
  | .returned (.ok messages), ⟨hle, items, hdecoded, hwhole⟩ =>
    exact ⟨hle, items, hdecoded, hwhole.mono hsub⟩
  | .returned (.error e), h => exact h

/-- A page takes the call on. -/
theorem Progress.next {base seen : List (BrokerItem (MessageData μ))} {fetches : ℕ} {r : Reading m}
    (h : Progress decode base seen fetches (.reading r))
    (hseen : Increasing BrokerItem.sequenceNumber seen) :
    Progress decode base seen (fetches + 1) (r.next decode
      ((pageOf BrokerItem.sequenceNumber MessagesPageLimit r.cursor seen).map messageRecord)) := by
  obtain ⟨hpage, hlt, hbase, items, hdecoded, hcollected⟩ := h
  generalize hresponse : pageOf BrokerItem.sequenceNumber MessagesPageLimit r.cursor seen = page
  rw [Reading.next, Page.map]
  dsimp only
  split
  next => exact hlt
  next pageMessages hmessages =>
    have hall : Decoded decode (items ++ page.items) (r.messages ++ pageMessages) :=
      List.rel_append hdecoded (decoded_of_decodeMessagePage hmessages)
    cases hmore : page.hasMore with
    | false =>
      rw [if_pos rfl]
      subst hresponse
      exact ⟨hlt, _, hall, hcollected.lastPage hseen hbase hmore⟩
    | true =>
      rw [if_neg (by simp)]
      subst hresponse
      obtain ⟨c, hnext, -, hcollected'⟩ := hcollected.page hseen hbase (by decide) hmore
      rw [hnext]
      dsimp only
      split
      next => exact hlt
      next =>
        split
        next hpages =>
          refine ⟨by rw [hpage], by omega, hbase, _, hall, hcollected'⟩
        next => exact hlt

/-- The invariant of the runs. -/
structure Inv (decode : μ → Except String m) (memory : HTTPMemory) (s : HistoryCall μ m) : Prop where
  numbered : s.store.Numbered
  progress : Progress decode s.base (s.store.conversation memory.conversationId) s.fetches s.client

theorem numbered_new (ttlSeconds : Option ℕ) (defaultTtl : ℕ) :
    (MessageStore.memory (.new ttlSeconds) : MessageStore μ).Numbered ∧
      (MessageStore.postgres (.new defaultTtl) [] : MessageStore μ).Numbered :=
  ⟨InMemoryStream.ordered_new ttlSeconds, .nil, by simp [PostgresStream.new]⟩

theorem Inv.init (h : (machine decode memory).init s) : s.Inv decode memory := by
  obtain ⟨hnumbered, hclient, hfetches⟩ := h
  refine ⟨hnumbered, ?_⟩
  rw [hclient, hfetches]
  rfl

theorem Inv.step {a : HistoryAction μ} (h : s.Inv decode memory) (hlasting : s.Lasting a)
    (hs : s.step decode memory a = some t) : t.Inv decode memory := by
  cases a with
  | store a =>
    obtain ⟨store, hstore, rfl⟩ := Option.map_eq_some_iff.mp hs
    obtain ⟨hnumbered, hmono⟩ := h.numbered.step hstore
    exact ⟨hnumbered, h.progress.mono (MessageStore.conversation_subset hmono _)⟩
  | tick n =>
    cases hs
    exact ⟨h.numbered, h.progress⟩
  | call resolved =>
    simp only [HistoryCall.step] at hs
    split at hs
    next hclient =>
      cases hs
      have hfetches : s.fetches = 0 := by
        have hprogress := h.progress
        rwa [hclient] at hprogress
      refine ⟨h.numbered, hfetches.symm, ?_, fun _ hitem => hitem, [], .nil, collected_start _ _⟩
      dsimp only
      rw [hfetches]
      decide
    next e hclient =>
      cases hs
      have hfetches : s.fetches = 0 := by
        have hprogress := h.progress
        rwa [hclient] at hprogress
      exact ⟨h.numbered, Nat.le_trans (Nat.le_of_eq hfetches) (Nat.zero_le _)⟩
    next => cases hs
  | fetch =>
    rw [HistoryCall.step] at hs
    split at hs
    next r hclient =>
      rw [fetchMessagePage_eq h.numbered hlasting] at hs
      cases hs
      have hprogress := h.progress
      rw [hclient] at hprogress
      exact ⟨h.numbered, hprogress.next (h.numbered.increasing.filter _)⟩
    next => cases hs
  | fetchFails text =>
    rw [HistoryCall.step] at hs
    split at hs
    next r hclient =>
      cases hs
      have hprogress := h.progress
      rw [hclient] at hprogress
      exact ⟨h.numbered, hprogress.2.1⟩
    next => cases hs

theorem inv_of_reachable (h : (machine decode memory).Reachable Lasting s) : s.Inv decode memory :=
  h.invariant (fun _ hinit => .init hinit) fun _ _ _ hinv hlasting hs => hinv.step hlasting hs

/-- The conversation is read back whole or not at all. A call that returns messages returns those of
items of the conversation, each once and in the order of their numbers, with all that was committed
when it began; it makes no more than the maximum of requests, and can go on until it returns. -/
theorem history_read_whole (h : (machine decode memory).Reachable Lasting s) :
    (∀ messages, s.client = .returned (.ok messages) → ∃ items, Decoded decode items messages ∧
      Whole BrokerItem.sequenceNumber s.base (s.store.conversation memory.conversationId) items) ∧
    s.fetches ≤ MessagesMaxPages ∧
    ∀ r, s.client = .reading r → s.fetches < MessagesMaxPages ∧
      (s.step decode memory .fetch).isSome := by
  have hinv := inv_of_reachable h
  have hprogress := hinv.progress
  refine ⟨fun messages hclient => ?_, ?_, fun r hclient => ?_⟩
  · rw [hclient] at hprogress
    exact hprogress.2
  · match hclient : s.client with
    | .idle =>
      rw [hclient] at hprogress
      exact Nat.le_trans (Nat.le_of_eq hprogress) (Nat.zero_le _)
    | .reading r =>
      rw [hclient] at hprogress
      exact Nat.le_of_lt hprogress.2.1
    | .returned (.ok messages) =>
      rw [hclient] at hprogress
      exact hprogress.1
    | .returned (.error e) =>
      rw [hclient] at hprogress
      exact hprogress
  · rw [hclient] at hprogress
    refine ⟨hprogress.2.1, ?_⟩
    rw [HistoryCall.step, hclient]
    dsimp only
    split <;> rfl

instance (store : MessageStore μ) (now : ℕ) : Decidable (store.Unexpired now) :=
  match store with
  | .memory s => inferInstanceAs (Decidable (∀ item ∈ s.items, item.isExpired now = false))
  | .postgres table _ => inferInstanceAs (Decidable (∀ row ∈ table.rows, now < row.expiresAt))

instance (s : HistoryCall μ m) (a : HistoryAction μ) : Decidable (s.Lasting a) :=
  match a with
  | .fetch => inferInstanceAs (Decidable (s.store.Unexpired s.now))
  | .store _ | .tick _ | .call _ | .fetchFails _ => .isTrue trivial

def hasReturned (messages : List String) (s : HistoryCall String String) : Bool :=
  match s.client with
  | .returned (.ok result) => result == messages
  | _ => false

/-- The second of two transactions has committed when a client reads the history. -/
theorem history_read_whole_second : ∃ s : HistoryCall String String,
    s.client = .returned (.ok ["Hello."]) ∧ ∃ items, Decoded .ok items ["Hello."] ∧
      Whole BrokerItem.sequenceNumber s.base (s.store.conversation "c") items := by
  let client := newHTTPMemory "" "c" (by decide)
  let start : HistoryCall String String := ⟨.postgres (.new 60) [], 0, .idle, [], 0⟩
  have hstart : (machine .ok client).init start := ⟨(numbered_new none 60).2, rfl, rfl⟩
  have hrun : ((machine .ok client).execWhile (fun s a => decide (s.Lasting a)) start
      [.store .begin, .store .begin, .store (.insertRow 0 0 ⟨"c", "q", "Good morning."⟩ none),
        .store (.insertRow 1 0 ⟨"c", "q", "Hello."⟩ none), .store (.commit 1), .call (.ok ()),
        .fetch]).any (hasReturned ["Hello."]) = true := by
    decide +kernel
  obtain ⟨s, hreachable, hs⟩ :=
    Machine.exists_reachable hstart (fun s a h => of_decide_eq_true h) hrun
  have hclient : s.client = .returned (.ok ["Hello."]) := by
    unfold hasReturned at hs
    split at hs
    next result hresult =>
      rw [hresult, eq_of_beq hs]
    next => cases hs
  exact ⟨s, hclient, (history_read_whole hreachable).1 _ hclient⟩

end HistoryCall

end Ark
