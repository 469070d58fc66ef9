import Ark.SessionRuns

/-!
# What one session owns of the tables

The share of a session is its header and its query rows. Every statement reads and writes the
share of one session only, and the lock of a header protects the share. `Sound` is the invariant
of a share, `RowLE` the order in which the rows of a query follow one another.
-/

namespace Ark.Session

open KeyedTable ReadCommitted

@[ext] structure Share where
  header : Option SessionRow
  rows : List SessionQueryRow

def Write.sessionId : Write → String
  | .putSession h => h.sessionId
  | .putQuery r => r.sessionId
  | .deleteQuery sessionId _ => sessionId
  | .deleteSession sessionId => sessionId

def Share.write (p : Share) : Write → Share
  | .putSession h => { p with header := some h }
  | .putQuery r => { p with rows := put SessionQueryRow.key r p.rows }
  | .deleteQuery sessionId queryId =>
    { p with rows := remove SessionQueryRow.key (sessionId, queryId) p.rows }
  | .deleteSession _ => ⟨none, []⟩

def Tables.share (t : Tables) (sessionId : String) : Share :=
  ⟨t.session sessionId, t.queriesOf sessionId⟩

/-- What a lock protects: the lock of a header the share of its session, the lock of a query row
nothing beyond that. -/
def part : Key → Tables → Share
  | .session sessionId, t => t.share sessionId
  | .query _ _, _ => ⟨none, []⟩

variable {C : Collation} {t : Tables} {sid q : String} {w : Write} {p : Share}

namespace Tables

theorem share_write : (t.write w).share sid =
    if w.sessionId = sid then (t.share sid).write w else t.share sid := by
  cases w with
  | putSession h =>
    have hs : (t.write (.putSession h)).session sid = _ := session_putSession
    by_cases hsid : h.sessionId = sid
    · simp [share, Write.sessionId, Share.write, hs, hsid]
    · simp [share, Write.sessionId, hs, hsid, Ne.symm hsid]
  | putQuery r =>
    have hkey : ∀ x y : SessionQueryRow, x.key = y.key →
        decide (x.sessionId = sid) = decide (y.sessionId = sid) := by
      intro x y hxy
      rw [(Prod.mk.inj hxy).1]
    have hq : (t.write (.putQuery r)).queriesOf sid =
        if decide (r.sessionId = sid) then put SessionQueryRow.key r (t.queriesOf sid)
        else t.queriesOf sid := filter_put hkey
    by_cases hsid : r.sessionId = sid
    · simp [share, Write.sessionId, Share.write, hq, hsid]
    · simp [share, Write.sessionId, hq, hsid]
  | deleteQuery sid' q =>
    by_cases hsid : sid' = sid
    · simp [share, Write.sessionId, Share.write, write, session, queriesOf, remove, hsid,
        Bool.and_comm]
    · have hother : ∀ x : SessionQueryRow, x.sessionId = sid → x.key ≠ (sid', q) := by
        intro x hx hkey
        exact hsid ((Prod.mk.inj hkey).1.symm.trans hx)
      simp only [share, Write.sessionId, hsid, if_false, write, queriesOf, remove,
        List.filter_filter, session, Share.mk.injEq, true_and]
      apply List.filter_congr
      intro x _
      by_cases hx : x.sessionId = sid
      · simp [hx, hother x hx]
      · simp [hx]
  | deleteSession sid' =>
    by_cases hsid : sid' = sid
    · subst hsid
      simp [share, Write.sessionId, Share.write, write, session, queriesOf]
    · simp only [share, Write.sessionId, hsid, if_false, write, session, queriesOf,
        find_remove_of_ne (Ne.symm hsid), List.filter_filter, Share.mk.injEq, true_and]
      apply List.filter_congr
      intro x _
      by_cases hx : x.sessionId = sid
      · simp [hx, Ne.symm hsid]
      · simp [hx]

theorem query_eq : t.query sid q = find SessionQueryRow.key (sid, q) (t.share sid).rows := by
  simp only [query, share, queriesOf, find]
  induction t.queries with
  | nil => rfl
  | cons x xs ih =>
    by_cases hx : x.key = (sid, q)
    · have hsid : x.sessionId = sid := (Prod.mk.inj hx).1
      simp [hx, hsid]
    · by_cases hsid : x.sessionId = sid <;> simp [hx, hsid, ih]

end Tables

theorem share_view {ws : List Write} (h : ∀ w ∈ ws, w.sessionId = sid) :
    Tables.share (view (D := dialect C) t ws) sid = ws.foldl Share.write (t.share sid) := by
  induction ws generalizing t with
  | nil => rfl
  | cons w ws ih =>
    have hw : (t.write w).share sid = (t.share sid).write w := by
      rw [Tables.share_write, if_pos (h w List.mem_cons_self)]
    simpa [view, hw] using ih (t := t.write w) fun w' hw' => h w' (List.mem_cons_of_mem w hw')

theorem share_view_of_ne {ws : List Write} (h : ∀ w ∈ ws, w.sessionId ≠ sid) :
    Tables.share (view (D := dialect C) t ws) sid = t.share sid := by
  induction ws generalizing t with
  | nil => rfl
  | cons w ws ih =>
    have hw : (t.write w).share sid = t.share sid := by
      rw [Tables.share_write, if_neg (h w List.mem_cons_self)]
    simpa [view, hw] using ih (t := t.write w) fun w' hw' => h w' (List.mem_cons_of_mem w hw')

/-! ### Aggregates -/

/-- The session that a header and its query rows make up. -/
def entryOf (C : Collation) (h : SessionRow) (rows : List SessionQueryRow) : SessionEntry :=
  rowsToSessionEntry h (rows.insertionSort (Stmt.rowLE C · ·))

/-- The header's aggregates are those of the rows. -/
structure Aggregated (C : Collation) (h : SessionRow) (rows : List SessionQueryRow) : Prop where
  errorCount : h.errorCount = (recalculateSessionStatus (entryOf C h rows)).errorCount
  status : h.status = (recalculateSessionStatus (entryOf C h rows)).status
  conversations : h.conversations = (recalculateSessionStatus (entryOf C h rows)).conversations

theorem conversations_congr {s s' : SessionEntry} (h : s.queries = s'.queries) :
    (recalculateSessionConversations s).conversations =
      (recalculateSessionConversations s').conversations := by
  simp only [recalculateSessionConversations, h]
  split
  next => rfl
  next => simp only [recalculateParticipants, recalculateConversations, h]

theorem conversations_recalculateSessionStatus (s : SessionEntry) :
    (recalculateSessionStatus s).conversations =
      (recalculateSessionConversations s).conversations := by
  unfold recalculateSessionStatus
  split <;> exact conversations_congr rfl

@[simp] theorem errorCount_recalculateSessionConversations (s : SessionEntry) :
    (recalculateSessionConversations s).errorCount = s.errorCount := by
  unfold recalculateSessionConversations
  split <;> rfl

@[simp] theorem status_recalculateSessionConversations (s : SessionEntry) :
    (recalculateSessionConversations s).status = s.status := by
  unfold recalculateSessionConversations
  split <;> rfl

theorem errorCount_recalculateSessionStatus (s : SessionEntry) :
    (recalculateSessionStatus s).errorCount = (objectValues s.queries).countP isFailed := by
  unfold recalculateSessionStatus
  split
  next h => simp [h]
  next h => simp [h]

/-- The status that the entries elect. -/
def electedStatus : List QueryEntry → Status
  | [] => .idle
  | first :: rest =>
    if (first :: rest).any fun q => q.phase = .running || q.phase = .pending then .active
    else if (latestQuery first rest).phase = .error then .error else .idle

theorem status_recalculateSessionStatus (s : SessionEntry) :
    (recalculateSessionStatus s).status = electedStatus (objectValues s.queries) := by
  unfold recalculateSessionStatus
  split
  next h => simp [h, electedStatus]
  next h => simp [h, electedStatus]

/-- The entry without the one column that a message may set. -/
def withoutConversation (e : QueryEntry) : QueryEntry := { e with conversationId := none }

theorem objectValues_map (l : List QueryEntry) :
    objectValues (l.map withoutConversation) = (objectValues l).map withoutConversation :=
  ownOrder_map QueryEntry.name withoutConversation l

theorem latestQuery_map (first : QueryEntry) (rest : List QueryEntry) :
    latestQuery (withoutConversation first) (rest.map withoutConversation) =
      withoutConversation (latestQuery first rest) := by
  induction rest generalizing first with
  | nil => rfl
  | cons q rest ih =>
    have hstep : (if (withoutConversation first).lastActivity < (withoutConversation q).lastActivity
        then withoutConversation q else withoutConversation first) =
        withoutConversation (if first.lastActivity < q.lastActivity then q else first) :=
      (apply_ite withoutConversation _ _ _).symm
    simp only [latestQuery, List.map_cons, List.foldl_cons] at ih ⊢
    rw [hstep]
    exact ih _

theorem electedStatus_map (l : List QueryEntry) :
    electedStatus (l.map withoutConversation) = electedStatus l := by
  cases l with
  | nil => rfl
  | cons first rest =>
    simp only [electedStatus, List.map_cons, latestQuery_map]
    rw [← List.map_cons, List.any_map]
    rfl

theorem countP_map (l : List QueryEntry) :
    (l.map withoutConversation).countP isFailed = l.countP isFailed := by
  rw [List.countP_map]
  rfl

/-- A row that differs in its conversation only elects the same status and count. -/
theorem electors_put {h : SessionRow} {rows : List SessionQueryRow} {r r₀ : SessionQueryRow}
    (hr : find SessionQueryRow.key r.key rows = some r₀)
    (he : withoutConversation r.entry = withoutConversation r₀.entry) :
    (objectValues (entryOf C h (put SessionQueryRow.key r rows)).queries).map withoutConversation =
      (objectValues (entryOf C h rows).queries).map withoutConversation := by
  have hentries : ∀ l : List SessionQueryRow,
      ((entryOf C h l).queries).map withoutConversation =
        ((l.map fun x => withoutConversation x.entry).insertionSort fun e e' =>
          (e.createdAt < e'.createdAt || e.createdAt = e'.createdAt && C.le e.name e'.name) =
            true).filter (·.name ≠ "__proto__") := by
    intro l
    rw [← List.map_insertionSort (fun r r' => Stmt.rowLE C r r' = true)]
    · simp [entryOf, rowsToSessionEntry, SessionQueryRow.rowToQueryEntry, List.filter_map,
        Function.comp_def, withoutConversation]
    · exact fun a _ b _ => Iff.rfl
  rw [← objectValues_map, ← objectValues_map, hentries, hentries,
    map_put_of_find hr (f := fun x => withoutConversation x.entry) he]

/-! ### The invariant -/

/-- The invariant of the share of a session. -/
structure Sound (C : Collation) (sid : String) (p : Share) : Prop where
  header : ∀ h ∈ p.header, h.sessionId = sid ∧ h.name = sessionName sid
  sessionId : ∀ r ∈ p.rows, r.sessionId = sid
  nodup : (p.rows.map SessionQueryRow.key).Nodup
  parent : p.header = none → p.rows = []
  aggregated : ∀ h ∈ p.header, Aggregated C h p.rows

/-- A field once set keeps its value. -/
def StaysSet (old new : Option String) : Prop := (nonEmpty old).isSome → new = old

/-- The order in which the rows of a query follow one another. -/
structure RowLE (r r' : SessionQueryRow) : Prop where
  ns : StaysSet r.entry.ns r'.entry.ns
  conversationId : StaysSet r.entry.conversationId r'.entry.conversationId
  agent : StaysSet r.entry.agent r'.entry.agent
  team : StaysSet r.entry.team r'.entry.team
  tool : StaysSet r.entry.tool r'.entry.tool
  targetType : r.entry.targetType ≠ .agent → r'.entry.targetType = r.entry.targetType
  event : r.lastAppliedEventSequence ≤ r'.lastAppliedEventSequence
  phase : r.lastPhaseEventSequence ≤ r'.lastPhaseEventSequence
  message : r.lastAppliedMessageSequence ≤ r'.lastAppliedMessageSequence

theorem StaysSet.refl (a : Option String) : StaysSet a a := fun _ => rfl

theorem StaysSet.trans {a b c : Option String} (h : StaysSet a b) (h' : StaysSet b c) : StaysSet a c := by
  intro ha
  have hb := h ha
  rw [h' (hb ▸ ha), hb]

theorem RowLE.refl (r : SessionQueryRow) : RowLE r r where
  ns := .refl _
  conversationId := .refl _
  agent := .refl _
  team := .refl _
  tool := .refl _
  targetType _ := rfl
  event := le_rfl
  phase := le_rfl
  message := le_rfl

theorem RowLE.trans {r r' r'' : SessionQueryRow} (h : RowLE r r') (h' : RowLE r' r'') :
    RowLE r r'' where
  ns := h.ns.trans h'.ns
  conversationId := h.conversationId.trans h'.conversationId
  agent := h.agent.trans h'.agent
  team := h.team.trans h'.team
  tool := h.tool.trans h'.tool
  targetType ht := by
    have ht' := h.targetType ht
    rw [h'.targetType (ht' ▸ ht), ht']
  event := h.event.trans h'.event
  phase := h.phase.trans h'.phase
  message := h.message.trans h'.message

/-- The event is not above either watermark of the row and fills none of its fields. -/
def LeavesAlone (r : SessionQueryRow) (d : SessionEventData) (sequence : Option ℤ) : Prop :=
  stale r sequence = true ∧ phaseStale r sequence = true ∧
    (mergeQueryMetadata r.entry (normalizeEventData d)).2 = false

/-- What a commit may do to the share of a session. -/
structure Follows (op : Operation) (sid : String) (p p' : Share) : Prop where
  rows : ∀ r ∈ p.rows, ∀ r' ∈ p'.rows, r'.key = r.key → RowLE r r'
  unchanged : ∀ d sequence clock, op = .applyEvent d sequence clock →
    nonEmpty d.sessionId = some sid → ∀ r ∈ p.rows, nonEmpty d.queryName = some r.queryId →
      LeavesAlone r d sequence → p' = p

theorem Follows.refl (op : Operation) {p : Share} (h : Sound C sid p) : Follows op sid p p where
  rows r hr r' hr' hkey := by
    have hfind := find_of_mem h.nodup hr
    rw [← hkey, find_of_mem h.nodup hr'] at hfind
    obtain rfl := Option.some.inj hfind
    exact .refl _
  unchanged _ _ _ _ _ _ _ _ _ := rfl

/-! ### What the writes of a row preserve -/

theorem staysSet_fill (new old : Option String) : StaysSet old (fill new old) := by
  intro h
  rw [fill, if_pos h]

theorem fillTargetType_of_ne {new : Option TargetType} {old : TargetType} (h : old ≠ .agent) :
    fillTargetType new old = old := if_neg h

/-- The identity fields of an entry that an event writes over a row. -/
theorem identity_appliedEntry {r : SessionQueryRow} {phase : QueryPhase} {d : SessionEventData}
    {errorMsg : Option String} {sequence : Option ℤ} {now : ℕ} {e : QueryEntry}
    (h : appliedEntry r phase d errorMsg sequence now = some e) :
    let merged := (mergeQueryMetadata r.entry d).1
    e.ns = merged.ns ∧ e.conversationId = merged.conversationId ∧ e.agent = merged.agent ∧
      e.team = merged.team ∧ e.tool = merged.tool ∧ e.targetType = merged.targetType := by
  have hphase : ∀ (x : QueryEntry) (b : Bool), let y := applyQueryPhase x phase now errorMsg b
      y.ns = x.ns ∧ y.conversationId = x.conversationId ∧ y.agent = x.agent ∧ y.team = x.team ∧
        y.tool = x.tool ∧ y.targetType = x.targetType := by
    intro x b
    simp only [applyQueryPhase, decidePhase]
    cases b <;> split_ifs <;> simp
  obtain ⟨-, -, -, ho⟩ | ⟨-, ho⟩ | ⟨-, -, -, ho⟩ | ⟨-, -, -, ho⟩ :=
    appliedEntry_cases r phase d errorMsg sequence now
  · cases h.symm.trans ho
  · obtain rfl := Option.some.inj (h.symm.trans ho)
    exact hphase _ _
  · obtain rfl := Option.some.inj (h.symm.trans ho)
    exact hphase _ _
  · obtain rfl := Option.some.inj (h.symm.trans ho)
    exact ⟨rfl, rfl, rfl, rfl, rfl, rfl⟩

theorem rowLE_updatedQuery {r : SessionQueryRow} {phase : QueryPhase} {d : SessionEventData}
    {errorMsg : Option String} {sequence : Option ℤ} {now : ℕ} {e : QueryEntry} {s : ℤ}
    (h : appliedEntry r phase d errorMsg sequence now = some e) :
    RowLE r (updatedQuery r e sequence s) := by
  obtain ⟨hns, hconv, hagent, hteam, htool, htype⟩ := identity_appliedEntry h
  refine ⟨?_, ?_, ?_, ?_, ?_, ?_, le_max_left _ _, le_max_left _ _, le_rfl⟩
  · exact hns ▸ staysSet_fill _ _
  · exact hconv ▸ staysSet_fill _ _
  · exact hagent ▸ staysSet_fill _ _
  · exact hteam ▸ staysSet_fill _ _
  · exact htool ▸ staysSet_fill _ _
  · intro ht
    exact htype.trans (fillTargetType_of_ne ht)

theorem rowLE_joinedQuery {r : SessionQueryRow} {conversationId : String} {sequence : Option ℤ}
    (h : sequence.all (r.lastAppliedMessageSequence < ·) = true) :
    RowLE r (joinedQuery r (r.entry.conversationId.getD conversationId) sequence) where
  ns := .refl _
  conversationId hs := by
    cases hc : r.entry.conversationId with
    | none => simp [hc, nonEmpty] at hs
    | some c => simp [joinedQuery]
  agent := .refl _
  team := .refl _
  tool := .refl _
  targetType _ := rfl
  event := le_rfl
  phase := le_rfl
  message := by
    cases sequence with
    | none => exact le_rfl
    | some s =>
      have : r.lastAppliedMessageSequence < s := by simpa using h
      exact this.le

theorem key_updatedQuery {r : SessionQueryRow} {e : QueryEntry} {sequence : Option ℤ} {s : ℤ} :
    (updatedQuery r e sequence s).key = r.key := rfl

theorem key_joinedQuery {r : SessionQueryRow} {c : String} {sequence : Option ℤ} :
    (joinedQuery r c sequence).key = r.key := rfl

theorem key_eventRow {rows : List SessionQueryRow} {d : SessionEventData} {sequence : Option ℤ}
    {entry : QueryEntry} (h : entry.name = q) :
    (eventRow (find SessionQueryRow.key (sid, q) rows) sid d sequence entry).key = (sid, q) := by
  cases hr : find SessionQueryRow.key (sid, q) rows with
  | none => simp [eventRow, insertedQuery, SessionQueryRow.key, SessionQueryRow.queryId, h]
  | some r => exact key_updatedQuery.trans (key_of_find hr)

/-- Rows that agree key by key, up to one row that moves forward. -/
theorem rowLE_put {rows : List SessionQueryRow} {new : SessionQueryRow}
    (hn : (rows.map SessionQueryRow.key).Nodup)
    (hnew : ∀ r ∈ rows, r.key = new.key → RowLE r new) :
    ∀ r ∈ rows, ∀ r' ∈ put SessionQueryRow.key new rows, r'.key = r.key → RowLE r r' := by
  intro r hr r' hr' hkey
  obtain rfl | hr' := mem_put hr'
  · exact hnew r hr hkey.symm
  · have hfind := find_of_mem hn hr
    rw [← hkey, find_of_mem hn hr'] at hfind
    obtain rfl := Option.some.inj hfind
    exact .refl _

/-- A header whose aggregates were computed from the rows. -/
theorem aggregated_updatedSession {h : SessionRow} {rows : List SessionQueryRow}
    {touched : Option (ℕ × ℕ)} :
    Aggregated C (updatedSession h (recalculateSessionStatus (entryOf C h rows)) touched) rows where
  errorCount := by
    simp only [updatedSession, errorCount_recalculateSessionStatus]
    rfl
  status := by
    simp only [updatedSession, status_recalculateSessionStatus]
    rfl
  conversations := by
    simp only [updatedSession, conversations_recalculateSessionStatus]
    exact conversations_congr rfl

/-- After a message only the conversations have to be computed anew. -/
theorem aggregated_conversations {h : SessionRow} {rows : List SessionQueryRow}
    {r r₀ : SessionQueryRow} {touched : Option (ℕ × ℕ)} (ha : Aggregated C h rows)
    (hr : find SessionQueryRow.key r.key rows = some r₀)
    (he : withoutConversation r.entry = withoutConversation r₀.entry) :
    Aggregated C (updatedSession h (recalculateSessionConversations
      (entryOf C h (put SessionQueryRow.key r rows))) touched) (put SessionQueryRow.key r rows) where
  errorCount := by
    rw [errorCount_recalculateSessionStatus, ← countP_map]
    simp only [updatedSession, errorCount_recalculateSessionConversations]
    change h.errorCount =
      ((objectValues (entryOf C h (put SessionQueryRow.key r rows)).queries).map _).countP _
    rw [electors_put hr he, countP_map, ha.errorCount, errorCount_recalculateSessionStatus]
  status := by
    rw [status_recalculateSessionStatus, ← electedStatus_map]
    simp only [updatedSession, status_recalculateSessionConversations]
    change h.status =
      electedStatus ((objectValues (entryOf C h (put SessionQueryRow.key r rows)).queries).map _)
    rw [electors_put hr he, electedStatus_map, ha.status, status_recalculateSessionStatus]
  conversations := by
    simp only [updatedSession, conversations_recalculateSessionStatus]
    exact conversations_congr rfl

end Ark.Session
