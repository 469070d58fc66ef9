import Ark.InMemorySessions
import Ark.SessionTwins

/-!
# One session in both storages

The queries of a session in memory and its query rows are the two sides of a list of twins. An event,
a message and a deletion turn the list into the list of the session afterwards.
-/

namespace Ark.Session

open KeyedTable

/-- The last reading of the clock of the in-memory storage and of the broker of the Postgres
storage, and the last sequence numbers applied. -/
@[ext] structure Marks where
  memoryClock : ℕ
  brokerClock : ℕ
  eventSequence : ℤ
  messageSequence : ℤ
  deriving DecidableEq, Repr

/-- Later marks. -/
structure Marks.LE (b b' : Marks) : Prop where
  memoryClock : b.memoryClock ≤ b'.memoryClock
  brokerClock : b.brokerClock ≤ b'.brokerClock
  eventSequence : b.eventSequence ≤ b'.eventSequence
  messageSequence : b.messageSequence ≤ b'.messageSequence

theorem Marks.LE.refl (b : Marks) : b.LE b := ⟨le_rfl, le_rfl, le_rfl, le_rfl⟩

/-- A twin of the session `sid` that was written before the marks. -/
structure TwinAt (b : Marks) (sid : String) (p : Twin) : Prop where
  sessionId : p.row.sessionId = sid
  name : p.name ∉ inherited
  memoryClock : p.memory.lastActivity ≤ b.memoryClock
  brokerClock : p.postgres.lastActivity ≤ b.brokerClock
  createdAt : p.postgres.createdAt ≤ b.brokerClock
  eventSequence : p.row.lastAppliedEventSequence ≤ b.eventSequence
  messageSequence : p.row.lastAppliedMessageSequence ≤ b.messageSequence

/-- The queries of a session in memory and its rows are the sides of the twins `z`, in the order of
their creation. -/
structure Matched (b : Marks) (sid : String) (queries : List QueryEntry)
    (rows : List SessionQueryRow) (z : List Twin) : Prop where
  queries : queries = z.map Twin.memory
  rows : rows = z.map Twin.row
  twin : ∀ p ∈ z, TwinAt b sid p
  order : SameOrder z
  created : (z.map fun p => p.postgres.createdAt).Pairwise (· < ·)

variable {b b' : Marks} {sid q : String} {queries : List QueryEntry} {rows : List SessionQueryRow}
  {z : List Twin} {p p₀ : Twin}

theorem TwinAt.mono (h : TwinAt b sid p) (hle : b.LE b') : TwinAt b' sid p where
  sessionId := h.sessionId
  name := h.name
  memoryClock := h.memoryClock.trans hle.memoryClock
  brokerClock := h.brokerClock.trans hle.brokerClock
  createdAt := h.createdAt.trans hle.brokerClock
  eventSequence := h.eventSequence.trans hle.eventSequence
  messageSequence := h.messageSequence.trans hle.messageSequence

theorem Twin.key_eq_iff {k : String × String} (h : p.row.sessionId = k.1) :
    p.row.key = k ↔ p.name = k.2 :=
  ⟨congrArg Prod.snd, fun hq => Prod.ext h hq⟩

namespace Matched

theorem mono (h : Matched b sid queries rows z) (hle : b.LE b') : Matched b' sid queries rows z :=
  ⟨h.queries, h.rows, fun p hp => (h.twin p hp).mono hle, h.order, h.created⟩

theorem find_queries (h : Matched b sid queries rows z) :
    find QueryEntry.name q queries = (find Twin.name q z).map Twin.memory := by
  rw [h.queries]
  apply find_map
  intro p _
  rw [p.name_eq]

theorem find_rows (h : Matched b sid queries rows z) :
    find SessionQueryRow.key (sid, q) rows = (find Twin.name q z).map Twin.row := by
  rw [h.rows]
  apply find_map
  intro p hp
  exact Twin.key_eq_iff (h.twin p hp).sessionId

/-- A twin takes the place of the one with its name, or the last place. -/
theorem put (h : Matched b sid queries rows z) (hle : b.LE b') (hp : TwinAt b' sid p)
    (horder : SameOrder (KeyedTable.put Twin.name p z))
    (hcreated : ((KeyedTable.put Twin.name p z).map fun p => p.postgres.createdAt).Pairwise
      (· < ·)) :
    Matched b' sid (KeyedTable.put QueryEntry.name p.memory queries)
      (KeyedTable.put SessionQueryRow.key p.row rows) (KeyedTable.put Twin.name p z) where
  queries := by
    rw [h.queries]
    apply put_map
    intro x _
    rw [x.name_eq, p.name_eq]
  rows := by
    rw [h.rows]
    apply put_map
    intro x hx
    exact Twin.key_eq_iff ((h.twin x hx).sessionId.trans hp.sessionId.symm)
  twin x hx := by
    obtain rfl | hx := mem_put hx
    · exact hp
    · exact (h.twin x hx).mono hle
  order := horder
  created := hcreated

theorem remove (h : Matched b sid queries rows z) :
    Matched b sid (KeyedTable.remove QueryEntry.name q queries)
      (KeyedTable.remove SessionQueryRow.key (sid, q) rows) (KeyedTable.remove Twin.name q z) where
  queries := by
    rw [h.queries]
    apply remove_map
    intro x _
    rw [x.name_eq]
  rows := by
    rw [h.rows]
    apply remove_map
    intro x hx
    exact Twin.key_eq_iff (h.twin x hx).sessionId
  twin x hx := h.twin x (mem_remove.mp hx).1
  order x hx y hy := h.order x (mem_remove.mp hx).1 y (mem_remove.mp hy).1
  created := h.created.sublist (List.filter_sublist.map _)

/-- A twin with later activity than any other. -/
theorem putLatest (h : Matched b sid queries rows z) (hle : b.LE b') (hp : TwinAt b' sid p)
    (hmemory : b.memoryClock < p.memory.lastActivity)
    (hbroker : b.brokerClock < p.postgres.lastActivity)
    (hcreated : match find Twin.name p.name z with
      | none => b.brokerClock < p.postgres.createdAt
      | some p₀ => p.postgres.createdAt = p₀.postgres.createdAt) :
    Matched b' sid (KeyedTable.put QueryEntry.name p.memory queries)
      (KeyedTable.put SessionQueryRow.key p.row rows) (KeyedTable.put Twin.name p z) := by
  apply h.put hle hp
  · intro x hx y hy
    obtain rfl | hxz := mem_put hx <;> obtain rfl | hyz := mem_put hy
    · simp
    · have := (h.twin y hyz).memoryClock
      have := (h.twin y hyz).brokerClock
      omega
    · have := (h.twin x hxz).memoryClock
      have := (h.twin x hxz).brokerClock
      omega
    · exact h.order x hxz y hyz
  · cases hfind : find Twin.name p.name z with
    | none =>
      rw [put_of_find_eq_none hfind, List.map_append]
      rw [hfind] at hcreated
      apply List.pairwise_append.mpr
      refine ⟨h.created, List.pairwise_singleton _ _, ?_⟩
      intro c hc c' hc'
      obtain ⟨x, hx, rfl⟩ := List.mem_map.mp hc
      obtain rfl := List.mem_singleton.mp hc'
      exact (h.twin x hx).createdAt.trans_lt hcreated
    | some p₀ =>
      rw [hfind] at hcreated
      rw [map_put_of_find hfind (f := fun p : Twin => p.postgres.createdAt) hcreated]
      exact h.created

/-- A twin with the clocks of the one that it replaces. -/
theorem putSameClocks (h : Matched b sid queries rows z) (hle : b.LE b') (hp : TwinAt b' sid p)
    (hfind : find Twin.name p.name z = some p₀)
    (hmemory : p.memory.lastActivity = p₀.memory.lastActivity)
    (hbroker : p.postgres.lastActivity = p₀.postgres.lastActivity)
    (hcreated : p.postgres.createdAt = p₀.postgres.createdAt) :
    Matched b' sid (KeyedTable.put QueryEntry.name p.memory queries)
      (KeyedTable.put SessionQueryRow.key p.row rows) (KeyedTable.put Twin.name p z) := by
  have hclocks : ∀ x ∈ KeyedTable.put Twin.name p z, ∃ y ∈ z,
      x.memory.lastActivity = y.memory.lastActivity ∧
        x.postgres.lastActivity = y.postgres.lastActivity := by
    intro x hx
    obtain rfl | hx := mem_put hx
    · exact ⟨p₀, mem_of_find hfind, hmemory, hbroker⟩
    · exact ⟨x, hx, rfl, rfl⟩
  apply h.put hle hp
  · intro x hx y hy
    obtain ⟨x', hx', hxm, hxp⟩ := hclocks x hx
    obtain ⟨y', hy', hym, hyp⟩ := hclocks y hy
    rw [hxm, hxp, hym, hyp]
    exact h.order x' hx' y' hy'
  · rw [map_put_of_find hfind (f := fun p : Twin => p.postgres.createdAt) hcreated]
    exact h.created

end Matched

/-! ### Events -/

theorem withoutClock_updateExistingQuery {e e' : QueryEntry} {phase : QueryPhase}
    {d : SessionEventData} {errorMsg : Option String} {now now' : ℕ}
    (h : e.withoutClock = e'.withoutClock) :
    (updateExistingQuery e phase d errorMsg now).withoutClock =
      (updateExistingQuery e' phase d errorMsg now').withoutClock := by
  have hclock : ∀ (x : QueryEntry) (n : ℕ), (updateExistingQuery x phase d errorMsg n).withoutClock =
      (updateExistingQuery x.withoutClock phase d errorMsg 0).withoutClock := by
    intro x n
    simp only [updateExistingQuery, applyQueryPhase, if_true, decidePhase, mergeQueryMetadata,
      QueryEntry.withoutClock]
    split_ifs <;> simp [Function.comp_def]
  rw [hclock e, hclock e', h]

theorem clocks_updateExistingQuery (e : QueryEntry) (phase : QueryPhase) (d : SessionEventData)
    (errorMsg : Option String) (now : ℕ) :
    let e' := updateExistingQuery e phase d errorMsg now
    e'.name = e.name ∧ e'.createdAt = e.createdAt ∧ e'.lastActivity = now := by
  simp only [updateExistingQuery, applyQueryPhase, if_true, decidePhase, mergeQueryMetadata]
  split_ifs <;> exact ⟨rfl, rfl, rfl⟩

/-- An event above the watermark of its row is applied as the in-memory storage applies it. -/
theorem appliedEntry_of_new {r : SessionQueryRow} {phase : QueryPhase} {d : SessionEventData}
    {errorMsg : Option String} {s : ℤ} {now : ℕ} (h : r.lastAppliedEventSequence < s) :
    appliedEntry r phase d errorMsg (some s) now =
      some (updateExistingQuery r.entry phase d errorMsg now) := by
  simp [appliedEntry, stale, updateExistingQuery, SessionQueryRow.rowToQueryEntry, not_le.mpr h]

theorem updatedQuery_entry {r : SessionQueryRow} {phase : QueryPhase} {d : SessionEventData}
    {errorMsg : Option String} {sequence : Option ℤ} {s : ℤ} {now : ℕ} :
    (updatedQuery r (updateExistingQuery r.entry phase d errorMsg now) sequence s).entry =
      updateExistingQuery r.entry phase d errorMsg now := by
  obtain ⟨hname, hcreated, -⟩ :=
    clocks_updateExistingQuery r.entry phase d errorMsg now
  simp only [updatedQuery, ← hname, ← hcreated]

/-- The twin that an event creates. -/
def freshTwin (sid q : String) (d : SessionEventData) (s : ℤ) (now brokerNow : ℕ) : Twin where
  memory := buildQueryEntry q now d.phase (normalizeEventData d) d.error
  row := insertedQuery sid (buildQueryEntry q brokerNow d.phase (normalizeEventData d) d.error)
    (some s) (phaseSequence d (some s))
  same := by
    simp only [buildQueryEntry, insertedQuery, QueryEntry.withoutClock]
    split <;> rfl

/-- The twin that an event writes over `p`. -/
def updatedTwin (p : Twin) (d : SessionEventData) (s : ℤ) (later brokerNow : ℕ) : Twin where
  memory := updateExistingQuery p.memory d.phase (normalizeEventData d) d.error later
  row := updatedQuery p.row
    (updateExistingQuery p.row.entry d.phase (normalizeEventData d) d.error brokerNow) (some s)
    (phaseSequence d (some s))
  same := by
    rw [updatedQuery_entry]
    exact withoutClock_updateExistingQuery p.same

theorem Matched.event {session : SessionEntry} {d : SessionEventData} {s : ℤ}
    {now later brokerNow : ℕ} (h : Matched b sid session.queries rows z) (hq : q ∉ inherited)
    (hnow : b.memoryClock < now) (hlater : now ≤ later) (hbroker : b.brokerClock < brokerNow)
    (hs : b.eventSequence < s) (hmessage : 0 ≤ b.messageSequence) :
    ∃ e z', eventEntry (find SessionQueryRow.key (sid, q) rows) q d (some s) brokerNow = some e ∧
      z' ≠ [] ∧
      Matched ⟨later, brokerNow, s, b.messageSequence⟩ sid
        (applyToSession q d now later session).queries
        (KeyedTable.put SessionQueryRow.key
          (eventRow (find SessionQueryRow.key (sid, q) rows) sid d (some s) e) rows) z' := by
  have hle : b.LE ⟨later, brokerNow, s, b.messageSequence⟩ :=
    ⟨hnow.le.trans hlater, hbroker.le, hs.le, le_rfl⟩
  have hquery : session.query q = (find Twin.name q z).map Twin.memory := h.find_queries
  rw [h.find_rows]
  cases hfind : find Twin.name q z with
  | none =>
    let p := freshTwin sid q d s now brokerNow
    have hp : TwinAt ⟨later, brokerNow, s, b.messageSequence⟩ sid p :=
      ⟨rfl, hq, hlater, le_rfl, le_rfl, le_rfl, hmessage⟩
    refine ⟨_, KeyedTable.put Twin.name p z, rfl, put_ne_nil, ?_⟩
    have hput := h.putLatest hle hp hnow hbroker (by
      rw [show p.name = q from rfl, hfind]
      exact hbroker)
    rw [queries_applyToSession hq, hquery, hfind]
    exact hput
  | some p₀ =>
    have hname : p₀.name = q := key_of_find hfind
    have hp₀ : TwinAt b sid p₀ := h.twin p₀ (mem_of_find hfind)
    let p := updatedTwin p₀ d s later brokerNow
    obtain ⟨-, -, hmemory⟩ :=
      clocks_updateExistingQuery p₀.memory d.phase (normalizeEventData d) d.error later
    obtain ⟨-, hcreated, hpostgres⟩ :=
      clocks_updateExistingQuery p₀.row.entry d.phase (normalizeEventData d) d.error brokerNow
    have hentry : p.postgres = _ := updatedQuery_entry
    rw [← hentry] at hcreated hpostgres
    have hp : TwinAt ⟨later, brokerNow, s, b.messageSequence⟩ sid p := by
      refine ⟨hp₀.sessionId, hp₀.name, hmemory.le, hpostgres.le, ?_, ?_, hp₀.messageSequence⟩
      · exact hcreated.trans_le (hp₀.createdAt.trans hbroker.le)
      · exact max_le (hp₀.eventSequence.trans hs.le) le_rfl
    have hput := h.putLatest hle hp (hmemory ▸ hnow.trans_le hlater) (hpostgres ▸ hbroker) (by
      rw [show p.name = q from hname, hfind]
      exact hcreated)
    have hnew : appliedEntry p₀.row d.phase (normalizeEventData d) d.error (some s) brokerNow = _ :=
      appliedEntry_of_new (hp₀.eventSequence.trans_lt hs)
    refine ⟨_, KeyedTable.put Twin.name p z, hnew, put_ne_nil, ?_⟩
    rw [queries_applyToSession hq, hquery, hfind]
    exact hput

/-! ### Messages -/

/-- The entry after a message. -/
def joinedEntry (e : QueryEntry) (c : String) : QueryEntry :=
  if (nonEmpty e.conversationId).isNone then { e with conversationId := some c } else e

theorem withoutClock_joinedEntry {c : String} {s : ℤ}
    (hc : p.memory.conversationId = some "" → c = "") :
    (joinedEntry p.memory c).withoutClock =
      (joinedQuery p.row (p.row.entry.conversationId.getD c) (some s)).entry.withoutClock := by
  have hconv : p.memory.conversationId = p.row.entry.conversationId := p.field_eq fun _ => rfl
  have hjoin : ∀ x : Option String, ({ p.memory with conversationId := x } : QueryEntry).withoutClock =
      ({ p.row.entry with conversationId := x } : QueryEntry).withoutClock := by
    intro x
    have := congrArg (fun e : QueryEntry => { e with conversationId := x }) p.same
    exact this
  have hentry : joinedEntry p.memory c =
      { p.memory with conversationId := some (p.memory.conversationId.getD c) } := by
    unfold joinedEntry
    cases hv : p.memory.conversationId with
    | none => rfl
    | some v =>
      by_cases hempty : v = ""
      · subst hempty
        rw [hc hv]
        rfl
      · rw [if_neg (by simp [nonEmpty, hempty]), Option.getD_some, ← hv]
  rw [hentry, hjoin, hconv]
  rfl

theorem Matched.message {c : String} {s : ℤ} (h : Matched b sid queries rows z)
    (hfind : find Twin.name q z = some p) (hle : b.LE b') (hs : s ≤ b'.messageSequence)
    (hc : p.memory.conversationId = some "" → c = "") :
    ∃ z' ≠ [], Matched b' sid (KeyedTable.put QueryEntry.name (joinedEntry p.memory c) queries)
      (KeyedTable.put SessionQueryRow.key
        (joinedQuery p.row (p.row.entry.conversationId.getD c) (some s)) rows) z' := by
  have hp := (h.twin p (mem_of_find hfind)).mono hle
  have hlast : (joinedEntry p.memory c).lastActivity = p.memory.lastActivity := by
    unfold joinedEntry
    split <;> rfl
  let p' : Twin := ⟨joinedEntry p.memory c, _, withoutClock_joinedEntry (s := s) hc⟩
  have hp' : TwinAt b' sid p' :=
    ⟨hp.sessionId, hp.name, hlast.trans_le hp.memoryClock, hp.brokerClock, hp.createdAt,
      hp.eventSequence, hs⟩
  have hname : p.name = q := key_of_find hfind
  replace hfind : find Twin.name p'.name z = some p := hname ▸ hfind
  exact ⟨_, put_ne_nil, h.putSameClocks hle hp' hfind hlast rfl rfl⟩

end Ark.Session
