import Ark.SessionShares

/-!
# Sessions that differ in their clocks only

Two storages that perform the same calls read different clocks. The entries that correspond are
twins; what a storage computes from twins is the same, up to the clock, as long as both clocks order
the last activities alike.
-/

namespace Ark.Session

/-! ### Aggregates in closed form -/

/-- The conversations of a session with these queries. -/
def conversationsOf (queries : List QueryEntry) : List ConversationSummary :=
  let values := objectValues queries
  ((values.filterMap fun q => nonEmpty q.conversationId).eraseDups).filterMap fun convId =>
    match values.filter fun q => nonEmpty q.conversationId = some convId with
    | [] => none
    | first :: rest => some (summarize convId first rest)

theorem recalculateSessionConversations_eq (s : SessionEntry) :
    recalculateSessionConversations s =
      { s with
        conversations := conversationsOf s.queries
        participants := deriveParticipants (conversationsOf s.queries) } := by
  unfold recalculateSessionConversations
  split
  next h =>
    rw [List.isEmpty_iff.mp h]
    rfl
  next => rfl

theorem recalculateSessionStatus_eq (s : SessionEntry) :
    recalculateSessionStatus s =
      { s with
        status := electedStatus (objectValues s.queries)
        errorCount := (objectValues s.queries).countP isFailed
        conversations := conversationsOf s.queries
        participants := deriveParticipants (conversationsOf s.queries) } := by
  unfold recalculateSessionStatus
  split
  next h =>
    rw [recalculateSessionConversations_eq, h]
    rfl
  next h =>
    rw [recalculateSessionConversations_eq, h]
    rfl

/-- The aggregates of the session are those of its queries. -/
def Recalculated (s : SessionEntry) : Prop := recalculateSessionStatus s = s

theorem recalculated (s : SessionEntry) : Recalculated (recalculateSessionStatus s) := by
  simp only [Recalculated, recalculateSessionStatus_eq]

/-! ### Without the clock -/

def QueryEntry.withoutClock (e : QueryEntry) : QueryEntry :=
  { e with createdAt := 0, completedAt := e.completedAt.map fun _ => 0, lastActivity := 0 }

def ConversationSummary.withoutClock (c : ConversationSummary) : ConversationSummary :=
  { c with duration := "", startTime := 0 }

def SessionEntry.withoutClock (s : SessionEntry) : SessionEntry :=
  { s with
    queries := s.queries.map QueryEntry.withoutClock
    conversations := s.conversations.map ConversationSummary.withoutClock
    createdAt := 0
    lastActivity := 0 }

theorem objectValues_map_withoutClock (l : List QueryEntry) :
    objectValues (l.map QueryEntry.withoutClock) = (objectValues l).map QueryEntry.withoutClock :=
  ownOrder_map QueryEntry.name QueryEntry.withoutClock l

/-- A list of texts taken from the entries does not depend on the clock. -/
theorem filterMap_congr_withoutClock {β : Type} {f : QueryEntry → Option β} {l l' : List QueryEntry}
    (hf : ∀ e, f e.withoutClock = f e)
    (h : l.map QueryEntry.withoutClock = l'.map QueryEntry.withoutClock) :
    l.filterMap f = l'.filterMap f := by
  have hmap : ∀ k : List QueryEntry, (k.map QueryEntry.withoutClock).filterMap f = k.filterMap f := by
    intro k
    rw [List.filterMap_map]
    exact List.filterMap_congr fun e _ => hf e
  rw [← hmap l, ← hmap l', h]

theorem filter_map_withoutClock {p : QueryEntry → Bool} (hp : ∀ e, p e.withoutClock = p e)
    (l : List QueryEntry) : (l.filter p).map QueryEntry.withoutClock =
      (l.map QueryEntry.withoutClock).filter p := by
  rw [List.filter_map]
  exact congrArg _ (List.filter_congr fun e _ => (hp e).symm)

theorem countP_withoutClock (l : List QueryEntry) :
    (l.map QueryEntry.withoutClock).countP isFailed = l.countP isFailed := by
  rw [List.countP_map]
  rfl

theorem withoutClock_summarize {convId : String} {first first' : QueryEntry}
    {rest rest' : List QueryEntry} (h : first.withoutClock = first'.withoutClock)
    (hrest : rest.map QueryEntry.withoutClock = rest'.map QueryEntry.withoutClock) :
    (summarize convId first rest).withoutClock = (summarize convId first' rest').withoutClock := by
  have hall : (first :: rest).map QueryEntry.withoutClock =
      (first' :: rest').map QueryEntry.withoutClock := by
    rw [List.map_cons, List.map_cons, h, hrest]
  have hparticipants :
      ((first :: rest).filterMap fun q => nonEmpty (orElse (orElse q.team q.agent) q.tool)) =
      (first' :: rest').filterMap fun q => nonEmpty (orElse (orElse q.team q.agent) q.tool) :=
    filterMap_congr_withoutClock (fun _ => rfl) hall
  have hlength : (first :: rest).length = (first' :: rest').length := by
    simpa using congrArg List.length hall
  have hcount : (first :: rest).countP isFailed = (first' :: rest').countP isFailed := by
    rw [← countP_withoutClock, hall, countP_withoutClock]
  have htype : first.withoutClock.targetType = first'.withoutClock.targetType := by rw [h]
  replace htype : first.targetType = first'.targetType := htype
  simp only [ConversationSummary.withoutClock, summarize, hparticipants, hlength, hcount, htype]

theorem withoutClock_conversationsOf {l l' : List QueryEntry}
    (h : l.map QueryEntry.withoutClock = l'.map QueryEntry.withoutClock) :
    (conversationsOf l).map ConversationSummary.withoutClock =
      (conversationsOf l').map ConversationSummary.withoutClock := by
  have hvalues : (objectValues l).map QueryEntry.withoutClock =
      (objectValues l').map QueryEntry.withoutClock := by
    rw [← objectValues_map_withoutClock, ← objectValues_map_withoutClock, h]
  have hids : ((objectValues l).filterMap fun q => nonEmpty q.conversationId) =
      (objectValues l').filterMap fun q => nonEmpty q.conversationId :=
    filterMap_congr_withoutClock (fun _ => rfl) hvalues
  simp only [conversationsOf, hids, List.map_filterMap]
  apply List.filterMap_congr
  intro convId _
  have hfilter := congrArg
    (List.filter fun q : QueryEntry => nonEmpty q.conversationId = some convId) hvalues
  rw [← filter_map_withoutClock fun _ => rfl, ← filter_map_withoutClock fun _ => rfl] at hfilter
  split
  next hnil =>
    rw [hnil, List.map_nil, eq_comm, List.map_eq_nil_iff] at hfilter
    rw [hfilter]
  next first rest hcons =>
    rw [hcons, List.map_cons] at hfilter
    obtain ⟨first', rest', hcons', hfirst, hrest⟩ := List.map_eq_cons_iff.mp hfilter.symm
    rw [hcons']
    exact congrArg some (withoutClock_summarize hfirst.symm hrest.symm)

theorem deriveParticipants_withoutClock (l : List ConversationSummary) :
    deriveParticipants (l.map ConversationSummary.withoutClock) = deriveParticipants l := by
  rw [deriveParticipants, List.foldl_map]
  rfl

/-! ### Twins -/

/-- An entry of the in-memory storage and the corresponding row of the Postgres storage. -/
structure Twin where
  memory : QueryEntry
  row : SessionQueryRow
  same : memory.withoutClock = row.entry.withoutClock

namespace Twin

def postgres (p : Twin) : QueryEntry := p.row.entry

def name (p : Twin) : String := p.row.queryId

/-- A field that is not a clock's. -/
theorem field_eq {β : Type} {f : QueryEntry → β} (hf : ∀ e, f e.withoutClock = f e) (p : Twin) :
    f p.memory = f p.postgres := by
  rw [← hf p.memory, p.same, hf]
  rfl

theorem name_eq (p : Twin) : p.memory.name = p.name := p.field_eq fun _ => rfl

theorem phase_eq (p : Twin) : p.memory.phase = p.postgres.phase := p.field_eq fun _ => rfl

end Twin

/-- Both clocks order the last activities alike. -/
def SameOrder (z : List Twin) : Prop :=
  ∀ p ∈ z, ∀ p' ∈ z,
    p.memory.lastActivity < p'.memory.lastActivity ↔
      p.postgres.lastActivity < p'.postgres.lastActivity

theorem objectValues_memory (z : List Twin) : objectValues (z.map Twin.memory) =
    (ownOrder Twin.name z).map Twin.memory := by
  rw [show Twin.name = fun p : Twin => p.memory.name from (funext Twin.name_eq).symm]
  exact ownOrder_map QueryEntry.name Twin.memory z

theorem objectValues_postgres (z : List Twin) : objectValues (z.map Twin.postgres) =
    (ownOrder Twin.name z).map Twin.postgres := ownOrder_map QueryEntry.name Twin.postgres z

theorem ownOrder_perm {α : Type*} (key : α → String) (l : List α) : (ownOrder key l).Perm l := by
  have hnone : ∀ x : α, (arrayIndex (key x)).isNone = !(arrayIndex (key x)).isSome := by simp
  rw [ownOrder, funext hnone]
  exact ((List.perm_insertionSort _ _).append_right _).trans (List.filter_append_perm _ l)

theorem mem_ownOrder {α : Type*} {key : α → String} {l : List α} {x : α} :
    x ∈ ownOrder key l ↔ x ∈ l := (ownOrder_perm key l).mem_iff

/-- The latest queries of both storages are twins. -/
theorem latestQuery_twin {z : List Twin} (ho : SameOrder z) {p : Twin} {rest : List Twin}
    (hp : p ∈ z) (hrest : ∀ x ∈ rest, x ∈ z) :
    ∃ x ∈ z, latestQuery p.memory (rest.map Twin.memory) = x.memory ∧
      latestQuery p.postgres (rest.map Twin.postgres) = x.postgres := by
  induction rest generalizing p with
  | nil => exact ⟨p, hp, rfl, rfl⟩
  | cons y rest ih =>
    have hy : y ∈ z := hrest y List.mem_cons_self
    have hrest' : ∀ x ∈ rest, x ∈ z := fun x hx => hrest x (List.mem_cons_of_mem y hx)
    simp only [latestQuery, List.map_cons, List.foldl_cons] at ih ⊢
    by_cases hlt : p.memory.lastActivity < y.memory.lastActivity
    · rw [if_pos hlt, if_pos ((ho p hp y hy).mp hlt)]
      exact ih hy hrest'
    · rw [if_neg hlt, if_neg (hlt ∘ (ho p hp y hy).mpr)]
      exact ih hp hrest'

theorem electedStatus_twins {z : List Twin} (ho : SameOrder z) :
    electedStatus (z.map Twin.memory) = electedStatus (z.map Twin.postgres) := by
  cases z with
  | nil => rfl
  | cons p rest =>
    have hany : ((p :: rest).map Twin.memory).any (fun q => q.phase = .running || q.phase = .pending) =
        ((p :: rest).map Twin.postgres).any fun q => q.phase = .running || q.phase = .pending := by
      simp only [List.any_map, Function.comp_def, Twin.phase_eq]
    obtain ⟨x, -, hmemory, hpostgres⟩ :=
      latestQuery_twin ho (p := p) List.mem_cons_self fun y hy => List.mem_cons_of_mem p hy
    simp only [List.map_cons] at hany
    simp only [electedStatus, List.map_cons, hany, hmemory, hpostgres, x.phase_eq]

/-- Sessions of twins are the same without the clock. -/
theorem withoutClock_eq_of_twins {s s' : SessionEntry} {z : List Twin} (hs : Recalculated s)
    (hs' : Recalculated s') (hid : s.sessionId = s'.sessionId) (hname : s.name = s'.name)
    (hq : s.queries = z.map Twin.memory) (hq' : s'.queries = z.map Twin.postgres)
    (ho : SameOrder z) : s.withoutClock = s'.withoutClock := by
  have hqueries : (z.map Twin.memory).map QueryEntry.withoutClock =
      (z.map Twin.postgres).map QueryEntry.withoutClock := by
    rw [List.map_map, List.map_map]
    exact List.map_congr_left fun p _ => p.same
  have hvalues : (objectValues (z.map Twin.memory)).map QueryEntry.withoutClock =
      (objectValues (z.map Twin.postgres)).map QueryEntry.withoutClock := by
    rw [← objectValues_map_withoutClock, ← objectValues_map_withoutClock, hqueries]
  have hstatus : electedStatus (objectValues (z.map Twin.memory)) =
      electedStatus (objectValues (z.map Twin.postgres)) := by
    rw [objectValues_memory, objectValues_postgres]
    exact electedStatus_twins fun p hp p' hp' => ho p (mem_ownOrder.mp hp) p' (mem_ownOrder.mp hp')
  have hcount : (objectValues (z.map Twin.memory)).countP isFailed =
      (objectValues (z.map Twin.postgres)).countP isFailed := by
    rw [← countP_withoutClock, hvalues, countP_withoutClock]
  have hconversations := withoutClock_conversationsOf hqueries
  have hparticipants : deriveParticipants (conversationsOf (z.map Twin.memory)) =
      deriveParticipants (conversationsOf (z.map Twin.postgres)) := by
    rw [← deriveParticipants_withoutClock, hconversations, deriveParticipants_withoutClock]
  rw [← hs, ← hs', recalculateSessionStatus_eq, recalculateSessionStatus_eq, hq, hq']
  simp only [SessionEntry.withoutClock, hqueries, hstatus, hcount, hconversations, hparticipants,
    hid, hname]

end Ark.Session
