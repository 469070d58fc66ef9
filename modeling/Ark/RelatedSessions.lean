import Ark.MatchedSessions
import Ark.SerialSessions

/-!
# The two session storages side by side

The sessions in memory and the tables are related session by session. The related states are kept by
an event, by a message that finds the same session in both, and by the deletion of a query.
-/

namespace Ark.Session

open KeyedTable ReadCommitted

/-- A session in memory and the share of the session in the tables. -/
def Alike (b : Marks) (sid : String) : Option SessionEntry → Share → Prop
  | none, p => p.header = none ∧ p.rows = []
  | some s, p =>
    p.header.isSome ∧ Recalculated s ∧ s.name = sessionName sid ∧
      ∃ z ≠ [], Matched b sid s.queries p.rows z

/-- `queryToSession` names a session with the query for every query that some session has. -/
structure Related (b : Marks) (m : Memory) (t : Tables) : Prop where
  nodup : (m.sessions.map SessionEntry.sessionId).Nodup
  session : ∀ sid, Alike b sid (m.session sid) (t.share sid)
  owner : ∀ q sid, m.owner q = some sid → ∃ s, m.session sid = some s ∧ (s.query q).isSome
  owned : ∀ q sid s, m.session sid = some s → (s.query q).isSome → (m.owner q).isSome

variable {C : Collation} {b b' : Marks} {m : Memory} {t : Tables} {n : ℕ} {sid q : String}
  {s : SessionEntry}

theorem Alike.mono {o : Option SessionEntry} {p : Share} (h : Alike b sid o p) (hle : b.LE b') :
    Alike b' sid o p := by
  cases o with
  | none => exact h
  | some s =>
    obtain ⟨hheader, hs, hname, z, hz, hm⟩ := h
    exact ⟨hheader, hs, hname, z, hz, hm.mono hle⟩

theorem related_empty : Related b Memory.empty Tables.empty where
  nodup := List.nodup_nil
  session _ := ⟨rfl, rfl⟩
  owner _ _ h := by cases h
  owned _ _ _ h := by cases h

namespace Related

theorem mono (h : Related b m t) (hle : b.LE b') : Related b' m t :=
  ⟨h.nodup, fun sid => (h.session sid).mono hle, h.owner, h.owned⟩

/-- A session in memory with its twins. -/
theorem matched (h : Related b m t) (hs : m.session sid = some s) :
    (t.session sid).isSome ∧ Recalculated s ∧ s.name = sessionName sid ∧
      ∃ z ≠ [], Matched b sid s.queries (t.queriesOf sid) z := by
  have := h.session sid
  rwa [hs] at this

/-- Both storages have the same queries in the same sessions. -/
theorem query_isSome_iff (h : Related b m t) :
    (t.query sid q).isSome ↔ ∃ s, m.session sid = some s ∧ (s.query q).isSome := by
  rw [Tables.query_eq]
  cases hs : m.session sid with
  | none =>
    have hrows : t.share sid = ⟨none, []⟩ := by
      have := h.session sid
      rw [hs] at this
      exact Share.ext this.1 this.2
    simp [hrows, find]
  | some s =>
    obtain ⟨-, -, -, z, -, hz⟩ := h.matched hs
    rw [show (t.share sid).rows = t.queriesOf sid from rfl, hz.find_rows]
    simp only [Option.isSome_map, Option.some.injEq, exists_eq_left', SessionEntry.query,
      hz.find_queries]

/-! ### Events -/

/-- The session of an event, before it, in both storages. -/
theorem matched_getD (h : Related b m t) (sid : String) (now : ℕ) :
    let s := (m.session sid).getD (newSession sid now)
    s.sessionId = sid ∧ s.name = sessionName sid ∧
      ∃ z, Matched b sid s.queries (t.queriesOf sid) z := by
  cases hs : m.session sid with
  | none =>
    have := h.session sid
    rw [hs] at this
    have hrows : t.queriesOf sid = [] := this.2
    refine ⟨rfl, rfl, [], ?_⟩
    rw [hrows]
    exact ⟨rfl, rfl, by simp, by simp [SameOrder], List.Pairwise.nil⟩
  | some s =>
    obtain ⟨-, -, hname, z, -, hz⟩ := h.matched hs
    exact ⟨Memory.sessionId_of_session hs, hname, z, hz⟩

end Related

@[simp] theorem recalculateSessionStatus_queries :
    (recalculateSessionStatus s).queries = s.queries := by
  rw [recalculateSessionStatus_eq]

@[simp] theorem recalculateSessionStatus_name : (recalculateSessionStatus s).name = s.name := by
  rw [recalculateSessionStatus_eq]

/-- An event adds its query to the session, and no other. -/
theorem query_applyToSession {d : SessionEventData} {now later : ℕ} {q' : String}
    (hq : q ∉ inherited) :
    ((applyToSession q d now later s).query q').isSome ↔ q' = q ∨ (s.query q').isSome := by
  have hname : (nextEntry (s.query q) q d now later).name = q := by
    cases he : s.query q with
    | none => rfl
    | some e => exact (clocks_updateExistingQuery _ _ _ _ _).1.trans (key_of_find he)
  rw [SessionEntry.query, queries_applyToSession hq, find_put, hname]
  by_cases hqq : q' = q <;> simp [hqq, SessionEntry.query]

/-- `queryToSession` after an event. -/
theorem Related.owner_event {d : SessionEventData} {now later : ℕ} {m' : Memory} (q' : String)
    (hm : m.applyEvent d now later = some m') (hsid : nonEmpty d.sessionId = some sid)
    (hqn : nonEmpty d.queryName = some q) (hs : sid ∉ inherited) (hq : q ∉ inherited) :
    m'.owner q' =
      if q' = q ∧ (((m.session sid).getD (newSession sid now)).query q) = none then some sid
      else m.owner q' := by
  have hproto : q ≠ "__proto__" := by
    rintro rfl
    exact hq (by decide)
  simp only [Memory.applyEvent, hsid, hqn, if_neg hs, if_neg hproto, hq, not_false_eq_true,
    decide_true, Bool.true_and, Option.some.injEq] at hm
  subst hm
  simp only [Memory.owner, Option.isNone_iff_eq_none]
  by_cases hnew : ((m.session sid).getD (newSession sid now)).query q = none
  · simp only [hnew, if_true, find_put, and_true]
    split <;> rfl
  · simp only [hnew, if_false, and_false]

theorem Related.applyEvent {d : SessionEventData} {sequence : ℤ} {now later : ℕ} {clock : Clock}
    (h : Related b m t) (hnow : b.memoryClock < now) (hlater : now ≤ later)
    (hbroker : b.brokerClock < clock.now) (hsequence : b.eventSequence < sequence)
    (hmessage : 0 ≤ b.messageSequence)
    (hok : ∀ sid q, nonEmpty d.sessionId = some sid → nonEmpty d.queryName = some q →
      sid ∉ inherited ∧ q ∉ inherited) :
    ∃ m', m.applyEvent d now later = some m' ∧
      let o := (Session.applyEvent d (some sequence) clock : Call (dialect C) _ _).run n t
      Related ⟨later, clock.now, sequence, b.messageSequence⟩ m' o.tables ∧
        m'.notified = m.notified ++ o.notified ∧ o.result.isSome := by
  have hle : b.LE ⟨later, clock.now, sequence, b.messageSequence⟩ :=
    ⟨hnow.le.trans hlater, hbroker.le, hsequence.le, le_rfl⟩
  cases hsid : nonEmpty d.sessionId with
  | none =>
    refine ⟨m, by simp only [Memory.applyEvent, hsid], ?_⟩
    simp only [Session.applyEvent, hsid, Call.run]
    exact ⟨h.mono hle, (List.append_nil _).symm, rfl⟩
  | some sid =>
    cases hqn : nonEmpty d.queryName with
    | none =>
      refine ⟨m, by simp only [Memory.applyEvent, hsid, hqn], ?_⟩
      simp only [Session.applyEvent, hsid, hqn, Call.run]
      exact ⟨h.mono hle, (List.append_nil _).symm, rfl⟩
    | some q =>
      obtain ⟨hs, hq⟩ := hok sid q hsid hqn
      have hproto : q ≠ "__proto__" := by
        rintro rfl
        exact hq (by decide)
      set s := (m.session sid).getD (newSession sid now) with hsdef
      set s' := recalculateSessionStatus (applyToSession q d now later s) with hs'
      obtain ⟨hid, hname, z, hz⟩ := h.matched_getD sid now
      rw [← hsdef] at hid hname hz
      obtain ⟨e, z', hentry, hz', hmatched⟩ :=
        hz.event (d := d) hq hnow hlater hbroker hsequence hmessage
      have hquery : t.query sid q = find SessionQueryRow.key (sid, q) (t.queriesOf sid) :=
        Tables.query_eq
      have hename : e.name = q :=
        name_eventEntry (fun r hr => (Tables.key_of_query (hquery.trans hr)).2) hentry
      -- what both storages do
      have hrun : (Session.applyEvent d (some sequence) clock : Call (dialect C) _ _).run n t =
          ⟨afterEvent C t n sid d (some sequence) clock e, n + 7, [(sid, q)], some ()⟩ := by
        simp only [Session.applyEvent, hsid, hqn, Call.run, run_applyEventTx, hquery, hentry, if_true]
      have hsets : Sets t (afterEvent C t n sid d (some sequence) clock e) sid _ := sets_afterEvent
      rw [hename, hquery] at hsets
      obtain ⟨m', hm⟩ : ∃ m', m.applyEvent d now later = some m' := by
        simp only [Memory.applyEvent, hsid, hqn, if_neg hs, if_neg hproto]
        exact ⟨_, rfl⟩
      have howner := fun q' => Related.owner_event q' hm hsid hqn hs hq
      rw [← hsdef] at howner
      have hsessions : m'.sessions = put SessionEntry.sessionId s' m.sessions ∧
          m'.notified = m.notified ++ [(sid, q)] := by
        simp only [Memory.applyEvent, hsid, hqn, if_neg hs, if_neg hproto, Option.some.injEq] at hm
        subst hm
        exact ⟨rfl, rfl⟩
      have hid' : s'.sessionId = sid := by
        rw [hs', recalculateSessionStatus_sessionId, sessionId_applyToSession, hid]
      have hsession : ∀ sid', m'.session sid' = if sid' = sid then some s' else m.session sid' := by
        intro sid'
        rw [Memory.session, hsessions.1, find_put, hid']
        rfl
      have hquery' : ∀ q', (s'.query q').isSome ↔ q' = q ∨ (s.query q').isSome := by
        intro q'
        rw [hs', SessionEntry.query, recalculateSessionStatus_queries]
        exact query_applyToSession hq
      -- a query of the session before the event
      have hbefore : ∀ q', (s.query q').isSome →
          ∃ s₀, m.session sid = some s₀ ∧ (s₀.query q').isSome := by
        intro q' hq'
        cases hms : m.session sid with
        | none =>
          rw [hsdef, hms] at hq'
          cases hq'
        | some s₀ =>
          rw [hsdef, hms] at hq'
          exact ⟨s₀, rfl, hq'⟩
      have hafter : ∀ sid' q' s₀, m.session sid' = some s₀ → (s₀.query q').isSome →
          ∃ s₁, m'.session sid' = some s₁ ∧ (s₁.query q').isSome := by
        intro sid' q' s₀ hs₀ hq'
        rw [hsession]
        split
        next he =>
          subst he
          refine ⟨s', rfl, (hquery' q').mpr (.inr ?_)⟩
          rwa [hsdef, hs₀]
        next => exact ⟨s₀, hs₀, hq'⟩
      refine ⟨m', hm, ?_⟩
      rw [hrun]
      refine ⟨⟨?_, ?_, ?_, ?_⟩, hsessions.2, rfl⟩
      · rw [hsessions.1]
        exact nodup_put h.nodup
      · intro sid'
        rw [hsession]
        split
        next he =>
          subst he
          refine ⟨?_, recalculated _, ?_, z', hz', ?_⟩
          · exact hsets.header.mpr put_ne_nil
          · rw [hs', recalculateSessionStatus_name, name_applyToSession, hname]
          · rw [hs', recalculateSessionStatus_queries]
            rw [show (Tables.share _ _).rows = _ from hsets.rows]
            exact hmatched
        next hne =>
          rw [hsets.other sid' hne]
          exact (h.session sid').mono hle
      · intro q' sid' ho
        rw [howner] at ho
        split at ho
        next he =>
          obtain rfl := Option.some.inj ho
          rw [hsession, if_pos rfl]
          exact ⟨s', rfl, (hquery' q').mpr (.inl he.1)⟩
        next =>
          obtain ⟨s₀, hs₀, hq'⟩ := h.owner q' sid' ho
          exact hafter sid' q' s₀ hs₀ hq'
      · intro q' sid' s₁ hs₁ hq'
        rw [howner]
        split
        next => rfl
        next hold =>
          rw [hsession] at hs₁
          split at hs₁
          next he =>
            obtain rfl := Option.some.inj hs₁
            have hold' : (s.query q').isSome := by
              obtain rfl | hq' := (hquery' q').mp hq'
              · rw [Option.isSome_iff_ne_none]
                exact fun hnone => hold ⟨rfl, hnone⟩
              · exact hq'
            obtain ⟨s₀, hs₀, hq₀⟩ := hbefore q' hold'
            exact h.owned q' sid s₀ hs₀ hq₀
          next => exact h.owned q' sid' s₁ hs₁ hq'

/-! ### Messages -/

theorem ownerLE_total (dbNow : ℕ) (x y : SessionRow) :
    Stmt.ownerLE C dbNow x y || Stmt.ownerLE C dbNow y x := by
  have := C.total x.sessionId y.sessionId
  unfold Stmt.ownerLE
  cases decide (dbNow < x.expiresAt) <;> cases decide (dbNow < y.expiresAt) <;> simp_all

theorem ownerLE_trans {dbNow : ℕ} {x y w : SessionRow} (h : Stmt.ownerLE C dbNow x y)
    (h' : Stmt.ownerLE C dbNow y w) : Stmt.ownerLE C dbNow x w := by
  have htrans := C.trans x.sessionId y.sessionId w.sessionId
  unfold Stmt.ownerLE at *
  generalize decide (dbNow < x.expiresAt) = a at *
  generalize decide (dbNow < y.expiresAt) = b at *
  generalize decide (dbNow < w.expiresAt) = c at *
  cases a <;> cases b <;> cases c <;> simp_all

theorem ownerOf_eq_none {dbNow : ℕ} (h : ∀ sid, t.query sid q = none) :
    ownerOf C t q dbNow = none := by
  have hholders : Stmt.holders t q = [] := by
    apply List.filter_eq_nil_iff.mpr
    intro x _
    simp [h x.sessionId]
  rw [ownerOf, hholders]
  rfl

/-- Where no session is expired, the probe finds the first session with the query. -/
theorem ownerOf_eq {dbNow : ℕ} (hlive : ∀ x ∈ t.sessions, dbNow < x.expiresAt)
    (hs : (t.session sid).isSome) (hq : (t.query sid q).isSome)
    (hfirst : ∀ x ∈ Stmt.holders t q, C.le sid x.sessionId) : ownerOf C t q dbNow = some sid := by
  obtain ⟨x, hx⟩ := Option.isSome_iff_exists.mp hs
  obtain rfl : x.sessionId = sid := Tables.sessionId_of_session hx
  have hxmem : x ∈ Stmt.holders t q := List.mem_filter.mpr ⟨mem_of_find hx, hq⟩
  have htotal : Std.Total fun x y : SessionRow => Stmt.ownerLE C dbNow x y = true :=
    ⟨fun x y => by simpa using ownerLE_total dbNow x y⟩
  have htrans : IsTrans SessionRow fun x y => Stmt.ownerLE C dbNow x y = true :=
    ⟨fun _ _ _ => ownerLE_trans⟩
  have hsorted := List.pairwise_insertionSort
    (fun x y : SessionRow => Stmt.ownerLE C dbNow x y = true) (Stmt.holders t q)
  have hmem : ∀ y, y ∈ (Stmt.holders t q).insertionSort (Stmt.ownerLE C dbNow · ·) ↔
      y ∈ Stmt.holders t q := fun y => List.mem_insertionSort _
  rw [ownerOf]
  cases hl : (Stmt.holders t q).insertionSort (Stmt.ownerLE C dbNow · ·) with
  | nil =>
    have := (hmem x).mpr hxmem
    rw [hl] at this
    cases this
  | cons y l =>
    rw [hl] at hsorted hmem
    have hy : y ∈ Stmt.holders t q := (hmem y).mp List.mem_cons_self
    have hyx : Stmt.ownerLE C dbNow y x = true := by
      obtain rfl | hxl := List.mem_cons.mp ((hmem x).mpr hxmem)
      · have := ownerLE_total (C := C) dbNow x x
        simpa using this
      · exact (List.pairwise_cons.mp hsorted).1 x hxl
    have hle : C.le y.sessionId x.sessionId := by
      have hylive := hlive y (List.mem_filter.mp hy).1
      have hxlive := hlive x (List.mem_filter.mp hxmem).1
      simpa [Stmt.ownerLE, hylive, hxlive] using hyx
    exact congrArg some (C.antisymm _ _ hle (hfirst y hy))

/-- A message changes no aggregate but the conversations. -/
theorem recalculated_message {e : QueryEntry} {c : Option String} {now : ℕ} (hs : Recalculated s)
    (he : s.query e.name = some e) :
    Recalculated (recalculateSessionConversations
      (({ s with lastActivity := now } : SessionEntry).setQuery { e with conversationId := c })) := by
  let e' : QueryEntry := { e with conversationId := c }
  have he' : find QueryEntry.name e'.name s.queries = some e := he
  have hmap : (put QueryEntry.name e' s.queries).map withoutConversation =
      s.queries.map withoutConversation := map_put_of_find he' rfl
  have hvalues :
      (objectValues (put QueryEntry.name e' s.queries)).map withoutConversation =
        (objectValues s.queries).map withoutConversation := by
    rw [← objectValues_map, ← objectValues_map, hmap]
  rw [Recalculated, recalculateSessionStatus_eq] at hs
  have hstatus : electedStatus (objectValues s.queries) = s.status := congrArg SessionEntry.status hs
  have hcount : (objectValues s.queries).countP isFailed = s.errorCount :=
    congrArg SessionEntry.errorCount hs
  simp only [Recalculated, recalculateSessionStatus_eq, recalculateSessionConversations_eq,
    SessionEntry.setQuery]
  rw [← electedStatus_map, ← countP_map, hvalues, electedStatus_map, countP_map, hstatus, hcount]

theorem recalculated_touch {now : ℕ} (hs : Recalculated s) :
    Recalculated { s with lastActivity := now } := by
  rw [Recalculated, recalculateSessionStatus_eq] at hs ⊢
  exact congrArg (fun x : SessionEntry => { x with lastActivity := now }) hs

/-- What a message leaves of the session in memory. -/
def messageSession (s : SessionEntry) (e : QueryEntry) (c : String) (now : ℕ) : SessionEntry :=
  let touched := { s with lastActivity := now }
  if (nonEmpty e.conversationId).isNone then
    recalculateSessionConversations (touched.setQuery { e with conversationId := some c })
  else touched

theorem messageSession_spec {e : QueryEntry} (c : String) (now : ℕ) (hs : Recalculated s)
    (he : s.query e.name = some e) :
    let s' := messageSession s e c now
    s'.sessionId = s.sessionId ∧ s'.name = s.name ∧ Recalculated s' ∧
      s'.queries = put QueryEntry.name (joinedEntry e c) s.queries := by
  simp only [messageSession, joinedEntry]
  split
  next =>
    refine ⟨recalculateSessionConversations_sessionId, ?_, recalculated_message hs he, ?_⟩ <;>
      rw [recalculateSessionConversations_eq] <;> rfl
  next => exact ⟨rfl, rfl, recalculated_touch hs, (put_of_find he).symm⟩

/-- The in-memory half of a message that finds its query. -/
theorem Memory.applyMessage_eq {e : QueryEntry} (c : String) (now : ℕ)
    (ho : m.owner q = some sid) (hs : m.session sid = some s) (he : s.query q = some e) :
    (m.applyMessage c q now).sessions =
        put SessionEntry.sessionId (messageSession s e c now) m.sessions ∧
      (m.applyMessage c q now).queryToSession = m.queryToSession ∧
      (m.applyMessage c q now).notified =
        m.notified ++ if (nonEmpty e.conversationId).isNone then [(sid, q)] else [] := by
  simp only [Memory.applyMessage, ho, hs, he, messageSession]
  split <;> simp

/-- Two stores whose sessions differ at one place only stay related when that place does. -/
theorem Related.set {m' : Memory} {t' : Tables} {s' : SessionEntry} {l : List SessionQueryRow}
    {z : List Twin} (h : Related b m t) (hle : b.LE b') (hsets : Sets t t' sid l)
    (hs : m.session sid = some s) (hid : s'.sessionId = sid) (hrec : Recalculated s')
    (hname : s'.name = sessionName sid) (hz : z ≠ []) (hmatched : Matched b' sid s'.queries l z)
    (hl : l ≠ []) (hsame : ∀ q, (s'.query q).isSome ↔ (s.query q).isSome)
    (hsessions : m'.sessions = put SessionEntry.sessionId s' m.sessions)
    (howners : m'.queryToSession = m.queryToSession) : Related b' m' t' := by
  have hsession : ∀ sid', m'.session sid' = if sid' = sid then some s' else m.session sid' := by
    intro sid'
    rw [Memory.session, hsessions, find_put, hid]
    rfl
  have howner : ∀ q, m'.owner q = m.owner q := by
    intro q
    rw [Memory.owner, howners]
    rfl
  refine ⟨?_, ?_, ?_, ?_⟩
  · rw [hsessions]
    exact nodup_put h.nodup
  · intro sid'
    rw [hsession]
    split
    next he =>
      subst he
      refine ⟨hsets.header.mpr hl, hrec, hname, z, hz, ?_⟩
      rw [show (Tables.share _ _).rows = _ from hsets.rows]
      exact hmatched
    next hne =>
      rw [hsets.other sid' hne]
      exact (h.session sid').mono hle
  · intro q sid' ho
    rw [howner] at ho
    obtain ⟨s₀, hs₀, hq⟩ := h.owner q sid' ho
    rw [hsession]
    split
    next he =>
      subst he
      obtain rfl := Option.some.inj (hs.symm.trans hs₀)
      exact ⟨s', rfl, (hsame q).mpr hq⟩
    next => exact ⟨s₀, hs₀, hq⟩
  · intro q sid' s₁ hs₁ hq
    rw [howner]
    rw [hsession] at hs₁
    split at hs₁
    next he =>
      obtain rfl := Option.some.inj hs₁
      exact h.owned q sid s hs ((hsame q).mp hq)
    next => exact h.owned q sid' s₁ hs₁ hq

theorem Related.applyMessage {c : String} {sequence : ℤ} {now : ℕ} {clock : Clock}
    (h : Related b m t) (hnow : b.memoryClock < now) (hbroker : b.brokerClock < clock.now)
    (hsequence : b.messageSequence < sequence)
    (hlive : ∀ x ∈ t.sessions, clock.dbNow < x.expiresAt)
    (hfirst : ∀ sid, m.owner q = some sid →
      ∀ s ∈ m.sessions, (s.query q).isSome → C.le sid s.sessionId)
    (hempty : ∀ sid s e, m.owner q = some sid → m.session sid = some s → s.query q = some e →
      e.conversationId = some "" → c = "") :
    let m' := m.applyMessage c q now
    let o := (Session.applyMessage c q (some sequence) clock : Call (dialect C) _ _).run n t
    Related ⟨now, clock.now, b.eventSequence, sequence⟩ m' o.tables ∧
      m'.notified = m.notified ++ o.notified ∧ o.result.isSome := by
  have hle : b.LE ⟨now, clock.now, b.eventSequence, sequence⟩ :=
    ⟨hnow.le, hbroker.le, le_rfl, hsequence.le⟩
  cases ho : m.owner q with
  | none =>
    have hnone : ∀ sid, t.query sid q = none := by
      intro sid
      by_contra hsome
      obtain ⟨s, hs, hq⟩ := h.query_isSome_iff.mp (Option.isSome_iff_ne_none.mpr hsome)
      have := h.owned q sid s hs hq
      rw [ho] at this
      cases this
    have hm : m.applyMessage c q now = m := by simp only [Memory.applyMessage, ho]
    have hrun : (Session.applyMessage c q (some sequence) clock : Call (dialect C) _ _).run n t =
        ⟨t, n + 1, [], some ()⟩ := by
      simp only [Session.applyMessage, Call.run, run_applyMessageTx_of_none (ownerOf_eq_none hnone)]
    rw [hm, hrun]
    exact ⟨h.mono hle, (List.append_nil _).symm, rfl⟩
  | some sid =>
    obtain ⟨s, hs, hq⟩ := h.owner q sid ho
    obtain ⟨hheader, hrec, hname, z, -, hz⟩ := h.matched hs
    obtain ⟨x, hx⟩ := Option.isSome_iff_exists.mp hheader
    obtain ⟨e, he⟩ := Option.isSome_iff_exists.mp hq
    obtain ⟨p, hp, rfl⟩ := Option.map_eq_some_iff.mp (hz.find_queries.symm.trans he)
    have hrow : t.query sid q = some p.row := by
      rw [Tables.query_eq, show (t.share sid).rows = t.queriesOf sid from rfl, hz.find_rows, hp]
      rfl
    have hpmem := hz.twin p (mem_of_find hp)
    have hconv : p.memory.conversationId = p.row.entry.conversationId := p.field_eq fun _ => rfl
    -- the probe finds the session that the map names
    have howner : ownerOf C t q clock.dbNow = some sid := by
      refine ownerOf_eq hlive hheader (hrow ▸ rfl) ?_
      intro y hy
      obtain ⟨s', hs', hq'⟩ := h.query_isSome_iff.mp (List.mem_filter.mp hy).2
      rw [← Memory.sessionId_of_session hs']
      exact hfirst sid ho s' (mem_of_find hs') hq'
    have hrun : (Session.applyMessage c q (some sequence) clock : Call (dialect C) _ _).run n t =
        ⟨afterMessage C t x p.row c (some sequence) clock, n + 7,
          if (nonEmpty p.memory.conversationId).isNone then [(sid, q)] else [], some ()⟩ := by
      have hnew : (some sequence).all (p.row.lastAppliedMessageSequence < ·) = true :=
        decide_eq_true (hpmem.messageSequence.trans_lt hsequence)
      simp only [Session.applyMessage, Call.run, run_applyMessageTx howner hx hrow hnew, hconv]
      cases (nonEmpty p.row.entry.conversationId).isNone <;> rfl
    obtain ⟨hsessions, howners, hnotified⟩ := Memory.applyMessage_eq c now ho hs he
    have hename : p.memory.name = q := key_of_find he
    obtain ⟨hid', hname', hrec', hqueries⟩ :=
      messageSession_spec c now hrec (hename.symm ▸ he)
    obtain ⟨z', hz', hmatched⟩ := hz.message hp hle le_rfl (hempty sid s p.memory ho hs he)
    have hxid : x.sessionId = sid := Tables.sessionId_of_session hx
    have hsets : Sets t (afterMessage C t x p.row c (some sequence) clock) x.sessionId _ :=
      sets_afterMessage (hpmem.sessionId.trans hxid.symm)
    rw [hxid] at hsets
    have hsame : ∀ q', ((messageSession s p.memory c now).query q').isSome ↔
        (s.query q').isSome := by
      intro q'
      have hjoined : (joinedEntry p.memory c).name = q := by
        unfold joinedEntry
        split <;> exact hename
      rw [SessionEntry.query, hqueries, find_put, hjoined]
      by_cases hqq : q' = q
      · subst hqq
        simp [he]
      · rw [if_neg hqq]
        rfl
    rw [hrun]
    refine ⟨?_, hnotified, rfl⟩
    exact h.set hle hsets hs (hid'.trans (Memory.sessionId_of_session hs)) hrec'
      (hname'.trans hname) hz' (hqueries ▸ hmatched) put_ne_nil hsame hsessions howners

/-! ### Deletions -/

theorem finds_eq (hq : q ∉ inherited) : Memory.finds q s = (s.query q).isSome := by
  simp [Memory.finds, hq]

/-- A session with the query survives its deletion where a row remains. -/
theorem Matched.survives_iff {rows : List SessionQueryRow} {z : List Twin}
    (hz : Matched b sid s.queries rows z) (hq : q ∉ inherited) (hs : (s.query q).isSome) :
    Memory.survives q s = true ↔
      KeyedTable.remove SessionQueryRow.key (sid, q) rows ≠ [] := by
  have hremove := hz.remove (q := q)
  rw [Memory.survives, finds_eq hq, hs, Bool.true_and, hremove.queries, hremove.rows]
  simp

theorem Related.deleteQuery (h : Related b m t) (ht : TablesSound C t) (hq : q ∉ inherited)
    (hsorted : (((ownOrder SessionEntry.sessionId m.sessions).filter (Memory.survives q)).map
      SessionEntry.sessionId).Pairwise (C.le · ·)) :
    let m' := (m.deleteQuery q).1
    let o := (Session.deleteQuery q : Call (dialect C) _ _).run n t
    Related b m' o.tables ∧ m'.notified = m.notified ++ o.notified ∧ o.result.isSome := by
  intro m' o
  set l := ownOrder SessionEntry.sessionId m.sessions with hl
  have hperm : l.Perm m.sessions := ownOrder_perm _ _
  have hnodup : (l.map SessionEntry.sessionId).Nodup :=
    ((hperm.map _).nodup_iff).mpr h.nodup
  have hmem : ∀ s ∈ l, m.session s.sessionId = some s :=
    fun s hs => find_of_mem h.nodup (hperm.mem_iff.mp hs)
  have hmem' : ∀ {sid s}, m.session sid = some s → s ∈ l :=
    fun hs => hperm.mem_iff.mpr (mem_of_find hs)
  obtain ⟨hleaves, hothers, hnotified, howners, hkeys⟩ :=
    Memory.foldl_deleteQueryFrom (q := q) (k := 0) hnodup hmem
  change ∀ s ∈ l, m'.session s.sessionId = _ at hleaves
  change ∀ sid, _ → m'.session sid = m.session sid at hothers
  change m'.notified = _ at hnotified
  change m'.queryToSession = _ at howners
  obtain ⟨hdeleted, hnotified', hresult⟩ := run_deleteQuery (q := q) (n := n) ht
  change DeletedFrom t o.tables q _ at hdeleted
  change o.notified = _ at hnotified'
  have hsession : ∀ sid, m'.session sid = (m.session sid).bind (Memory.leaves q) := by
    intro sid
    cases hs : m.session sid with
    | none =>
      rw [hothers, hs]
      · rfl
      · rintro s hsl rfl
        rw [hmem s hsl] at hs
        cases hs
    | some s =>
      rw [← Memory.sessionId_of_session hs]
      exact hleaves s (hmem' hs)
  have howner : ∀ q', q' ≠ q → m'.owner q' = m.owner q' := by
    intro q' hne
    rw [Memory.owner, howners]
    split
    next => rw [find_remove_of_ne hne]; rfl
    next => rfl
  -- a session without the query stays as it is
  have hkeep : ∀ s, (s.query q).isSome = false → Memory.leaves q s = some s := by
    intro s hs
    rw [Memory.leaves, finds_eq hq, hs]
    rfl
  have hqueries : ∀ s s', Memory.leaves q s = some s' →
      s'.query q = none ∧ ∀ q', q' ≠ q → s'.query q' = s.query q' := by
    intro s s' hs'
    cases hs : (s.query q).isSome with
    | false =>
      obtain rfl := Option.some.inj ((hkeep s hs).symm.trans hs')
      exact ⟨Option.not_isSome_iff_eq_none.mp (Bool.eq_false_iff.mp hs), fun _ _ => rfl⟩
    | true =>
      rw [Memory.leaves, finds_eq hq, hs, if_pos rfl] at hs'
      split at hs'
      next =>
        obtain rfl := Option.some.inj hs'
        simp only [SessionEntry.query, Memory.without, recalculateSessionStatus_queries]
        exact ⟨find_remove_self, fun q' hne => find_remove_of_ne hne⟩
      next => cases hs'
  refine ⟨⟨hkeys h.nodup, ?_, ?_, ?_⟩, ?_, hresult⟩
  · intro sid
    rw [hsession]
    by_cases hmo : (t.query sid q).isSome
    · -- the session has the query in both storages
      obtain ⟨s, hs, hsq⟩ := h.query_isSome_iff.mp hmo
      obtain ⟨-, -, hname, z, -, hz⟩ := h.matched hs
      have hown : sid ∈ ownersOf C t q := mem_ownersOf.mpr hmo
      have hiff := hz.survives_iff hq hsq
      have hremaining : (o.tables.queriesOf sid) = remove SessionQueryRow.key (sid, q)
          (t.queriesOf sid) := hdeleted.rows sid hown
      rw [hs, Option.bind_some, Memory.leaves, finds_eq hq, hsq, if_pos rfl]
      split
      next hsurvives =>
        refine ⟨(hdeleted.header sid hown).mpr (hiff.mp hsurvives), recalculated _, ?_,
          KeyedTable.remove Twin.name q z, ?_, ?_⟩
        · rw [Memory.without, recalculateSessionStatus_name, hname]
        · have hrows := hiff.mp hsurvives
          rw [hz.remove.rows] at hrows
          exact fun hnil => hrows (congrArg (List.map Twin.row) hnil)
        · rw [show (Tables.share _ _).rows = _ from hremaining, Memory.without,
            recalculateSessionStatus_queries]
          exact hz.remove
      next hsurvives =>
        have hnil : remaining t q sid = [] := not_not.mp fun hne => hsurvives (hiff.mpr hne)
        refine ⟨?_, hremaining.trans hnil⟩
        rw [← Option.not_isSome_iff_eq_none]
        exact fun hsome => (hdeleted.header sid hown).mp hsome hnil
    · have hshare : o.tables.share sid = t.share sid :=
        hdeleted.other sid fun hmem => hmo (mem_ownersOf.mp hmem)
      have hsame : (m.session sid).bind (Memory.leaves q) = m.session sid := by
        cases hs : m.session sid with
        | none => rfl
        | some s =>
          apply hkeep
          rw [Bool.eq_false_iff]
          exact fun hsq => hmo (h.query_isSome_iff.mpr ⟨s, hs, hsq⟩)
      rw [hsame, hshare]
      exact h.session sid
  · intro q' sid ho
    by_cases hne : q' = q
    · subst hne
      rw [Memory.owner, howners] at ho
      split at ho
      next =>
        rw [find_remove_self] at ho
        cases ho
      next hany =>
        obtain ⟨s, hs, hsq⟩ := h.owner q' sid ho
        refine absurd (List.any_eq_true.mpr ⟨s, hmem' hs, ?_⟩) hany
        rw [finds_eq hq, hsq]
    · rw [howner q' hne] at ho
      obtain ⟨s, hs, hsq⟩ := h.owner q' sid ho
      rw [hsession, hs, Option.bind_some]
      cases hl : Memory.leaves q s with
      | some s' => exact ⟨s', rfl, by rw [(hqueries s s' hl).2 q' hne]; exact hsq⟩
      | none =>
        -- the session has another query, and survives
        rw [Memory.leaves] at hl
        split at hl
        next hfinds =>
          split at hl
          next => cases hl
          next hsurvives =>
            rw [Memory.survives, hfinds, Bool.true_and, Bool.not_eq_true', Bool.not_eq_false,
              List.isEmpty_iff] at hsurvives
            have hfind : find QueryEntry.name q' (remove QueryEntry.name q s.queries) =
                s.query q' := find_remove_of_ne hne
            rw [hsurvives] at hfind
            rw [← hfind] at hsq
            cases hsq
        next => cases hl
  · intro q' sid s' hs' hsq
    rw [hsession] at hs'
    obtain ⟨s, hs, hl⟩ := Option.bind_eq_some_iff.mp hs'
    by_cases hne : q' = q
    · subst hne
      rw [(hqueries s s' hl).1] at hsq
      cases hsq
    · rw [howner q' hne]
      rw [(hqueries s s' hl).2 q' hne] at hsq
      exact h.owned q' sid s hs hsq
  · rw [hnotified, hnotified']
    congr 2
    -- both lists hold the survivors, in the order of the collation
    have hiff : ∀ sid, sid ∈ (l.filter (Memory.survives q)).map SessionEntry.sessionId ↔
        sid ∈ (ownersOf C t q).filter fun sid => remaining t q sid ≠ [] := by
      intro sid
      rw [List.mem_map, List.mem_filter, mem_ownersOf, h.query_isSome_iff]
      constructor
      · rintro ⟨s, hs, rfl⟩
        obtain ⟨hsl, hsurvives⟩ := List.mem_filter.mp hs
        have hsq : (s.query q).isSome := by
          rw [← finds_eq hq]
          exact (Bool.and_eq_true_iff.mp hsurvives).1
        obtain ⟨-, -, -, z, -, hz⟩ := h.matched (hmem s hsl)
        exact ⟨⟨s, hmem s hsl, hsq⟩, decide_eq_true ((hz.survives_iff hq hsq).mp hsurvives)⟩
      · rintro ⟨⟨s, hs, hsq⟩, hrows⟩
        obtain ⟨-, -, -, z, -, hz⟩ := h.matched hs
        refine ⟨s, List.mem_filter.mpr ⟨hmem' hs, ?_⟩, Memory.sessionId_of_session hs⟩
        exact (hz.survives_iff hq hsq).mpr (of_decide_eq_true hrows)
    have htotal : Std.Total fun x y : String => C.le x y = true :=
      ⟨fun x y => by simpa using C.total x y⟩
    have htrans : IsTrans String fun x y => C.le x y = true := ⟨C.trans⟩
    have hsorted' : ((ownersOf C t q).filter fun sid => remaining t q sid ≠ []).Pairwise
        fun x y => C.le x y = true :=
      (List.pairwise_insertionSort _ _).sublist List.filter_sublist
    have hperm' := (List.perm_ext_iff_of_nodup
      (hnodup.sublist (List.filter_sublist.map _)) (nodup_ownersOf.sublist List.filter_sublist)).mpr hiff
    exact hperm'.eq_of_pairwise (fun x y _ _ hxy hyx => C.antisymm x y hxy hyx) hsorted hsorted'

end Ark.Session
