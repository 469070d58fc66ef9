import Ark.SessionShares

/-!
# Session headers under concurrent writers

Every write path takes the lock of the header before it reads a query row, so from then on it works
on a share that nobody else changes. Each path keeps the invariant of the shares, and a commit moves
the rows of a query only forward.
-/

namespace Ark.Session

open KeyedTable ReadCommitted

variable {C : Collation} {op : Operation} {sid q : String} {α β : Type}

/-- Every share satisfies its invariant. -/
def TablesSound (C : Collation) (t : Tables) : Prop := ∀ sid, Sound C sid (t.share sid)

/-- What a commit of the operation may do to the tables. -/
def CommitFollows (op : Operation) (t t' : Tables) : Prop :=
  ∀ sid, Follows op sid (t.share sid) (t'.share sid)

/-- The promise that each write path keeps. -/
abbrev TxKeeps (C : Collation) (op : Operation) (tx : Tx (dialect C) α) (held : Set Key)
    (ws : List Write) (t : Tables) : Prop :=
  tx.Keeps part (TablesSound C) (CommitFollows op) held ws t

/-- The transaction holds the lock of the header, has written to this share only, found it as `p₀`
and sees it as `p`. -/
structure Owns (C : Collation) (sid : String) (p₀ p : Share) (held : Set Key) (ws : List Write)
    (t : Tables) : Prop where
  held : .session sid ∈ held
  writes : ∀ w ∈ ws, w.sessionId = sid
  found : t.share sid = p₀
  sees : Tables.share (view (D := dialect C) t ws) sid = p

/-- A transaction without writes. -/
theorem keeps_ret_nil {t : Tables} {held : Set Key} (a : α) (h : TablesSound C t) :
    TxKeeps C op (.ret a : Tx (dialect C) α) held [] t :=
  ⟨fun _ _ => rfl, h, fun sid => .refl op (h sid)⟩

namespace Owns

variable {p₀ p : Share} {held : Set Key} {ws : List Write} {t : Tables}

/-- Nobody else changes the share, and the transaction sees its next writes. -/
theorem next {held' : Set Key} {ws' : List Write} {t' : Tables} (h : Owns C sid p₀ p held ws t)
    (hheld : held ⊆ held') (hw : ∀ w ∈ ws', w.sessionId = sid) (hsame : Same (D := dialect C) part held' t t') :
    Owns C sid p₀ (ws'.foldl Share.write p) held' (ws ++ ws') t' := by
  have hshare : t'.share sid = t.share sid := hsame (.session sid) (hheld h.held)
  have hwrites : ∀ w ∈ ws ++ ws', w.sessionId = sid := by
    intro w hw'
    obtain hw' | hw' := List.mem_append.mp hw'
    · exact h.writes w hw'
    · exact hw w hw'
  refine ⟨hheld h.held, hwrites, hshare.trans h.found, ?_⟩
  rw [share_view hwrites, hshare, List.foldl_append, ← share_view (C := C) h.writes, h.sees]

/-- A statement whose result and writes depend on the owned share only. -/
theorem stmt {s : Stmt α} {k : α → Tx (dialect C) β} {a : α} {w : List Write}
    (h : Owns C sid p₀ p held ws t)
    (hs : ∀ (v : Tables) n, v.share sid = p → Stmt.exec C s v n = some (a, w))
    (hw : ∀ x ∈ w, x.sessionId = sid)
    (hk : ∀ held ws t, TablesSound C t → Owns C sid p₀ (w.foldl Share.write p) held ws t →
      TxKeeps C op (k a) held ws t) :
    TxKeeps C op (.stmt s k) held ws t := by
  intro n a' ws' he t' hI hsame
  obtain ⟨rfl, rfl⟩ := Prod.mk.inj (Option.some.inj ((hs _ n h.sees).symm.trans he))
  exact hk _ _ t' hI (h.next Set.subset_union_left hw hsame)

/-- The commit. -/
theorem ret (a : α) (h : Owns C sid p₀ p held ws t) (ht : TablesSound C t) (hp : Sound C sid p)
    (hf : Follows op sid p₀ p) : TxKeeps C op (.ret a : Tx (dialect C) α) held ws t := by
  have hother : ∀ sid', sid' ≠ sid →
      Tables.share (view (D := dialect C) t ws) sid' = t.share sid' := by
    intro sid' hne
    exact share_view_of_ne fun w hw => h.writes w hw ▸ Ne.symm hne
  refine ⟨?_, ?_, ?_⟩
  · intro k hk
    cases k with
    | query => rfl
    | session sid' => exact hother sid' fun he => hk (he ▸ h.held)
  · intro sid'
    by_cases hne : sid' = sid
    · subst hne
      rwa [h.sees]
    · rw [hother sid' hne]
      exact ht sid'
  · intro sid'
    by_cases hne : sid' = sid
    · subst hne
      rwa [h.sees, h.found]
    · rw [hother sid' hne]
      exact .refl op (ht sid')

end Owns

/-! ### The header lock -/

theorem lockHeader_bind (k : Option SessionRow → Tx (dialect C) β) :
    lockHeader sid >>= k = .stmt (.sessionVersion sid) fun o =>
      match o with
      | none => k none
      | some version => .stmt (.lockSession sid version) k := by
  simp only [lockHeader, Tx.query_bind, Tx.stmt_bind]
  congr 1
  funext o
  cases o <;> rfl

/-- The rule for `lockHeader` in a transaction that has written nothing: it finds nothing, or owns
the share of the header that it returns. -/
theorem keeps_lockHeader {k : Option SessionRow → Tx (dialect C) β} {held : Set Key} {t : Tables}
    (hnone : ∀ held t, TablesSound C t → TxKeeps C op (k none) held [] t)
    (hsome : ∀ header p held t, TablesSound C t → p.header = some header →
      Owns C sid p p held [] t → TxKeeps C op (k (some header)) held [] t) :
    TxKeeps C op (lockHeader sid >>= k) held [] t := by
  rw [lockHeader_bind]
  intro n version ws' he t' hI _
  change Stmt.exec C (.sessionVersion sid) t n = some (version, ws') at he
  obtain ⟨rfl, rfl⟩ : (t.session sid).map (·.version) = version ∧ [] = ws' := by
    simpa [Stmt.exec, eq_comm] using he
  cases (t.session sid).map (·.version) with
  | none => exact hnone _ _ hI
  | some version =>
    intro n found ws' he t'' hI' hsame
    change Stmt.exec C (.lockSession sid version) t' n = some (found, ws') at he
    obtain ⟨hf, rfl⟩ : (t'.session sid).filter (·.version = version) = found ∧ [] = ws' := by
      simpa [Stmt.exec, eq_comm] using he
    cases found with
    | none => exact hnone _ _ hI'
    | some header =>
      have hheader : t'.session sid = some header := (Option.filter_eq_some_iff.mp hf).1
      have hlock : Stmt.lock (.lockSession sid version) t' = some (.session sid) := by
        simp [Stmt.lock, hf]
      have hkey : Key.session sid ∈ {k | Stmt.lock (.lockSession sid version) t' = some k} := hlock
      have hshare : t''.share sid = t'.share sid := hsame (.session sid) (.inr hkey)
      have hp : (t'.share sid).header = some header := hheader
      exact hsome header (t'.share sid) _ _ hI' hp ⟨.inr hkey, by simp, hshare, hshare⟩

/-- The rule for a statement that only reads, in a transaction that has written nothing. -/
theorem keeps_read {s : Stmt α} {k : α → Tx (dialect C) β} {held : Set Key} {t : Tables}
    (hs : ∀ v n a ws', Stmt.exec C s v n = some (a, ws') → ws' = [])
    (hk : ∀ a held t, TablesSound C t → TxKeeps C op (k a) held [] t) :
    TxKeeps C op (.stmt s k) held [] t := by
  intro n a ws' he t' hI _
  obtain rfl := hs _ n a ws' he
  exact hk a _ t' hI

namespace Owns

variable {p₀ p : Share} {held : Set Key} {ws : List Write} {t : Tables}

theorem lockHeader {k : Option SessionRow → Tx (dialect C) β} {header : SessionRow}
    (h : Owns C sid p₀ p held ws t) (hp : p.header = some header)
    (hk : ∀ held ws t, TablesSound C t → Owns C sid p₀ p held ws t →
      TxKeeps C op (k (some header)) held ws t) :
    TxKeeps C op (Session.lockHeader sid >>= k) held ws t := by
  have hheader : ∀ v : Tables, v.share sid = p → v.session sid = some header :=
    fun v hv => (congrArg Share.header hv).trans hp
  rw [lockHeader_bind]
  apply h.stmt (a := some header.version) (w := [])
  · intro v n hv
    simp [Stmt.exec, hheader v hv]
  · simp
  · intro held ws t _ (h : Owns C sid p₀ p held ws t)
    apply h.stmt (a := some header) (w := []) _ (by simp) hk
    intro v n hv
    simp [Stmt.exec, hheader v hv]

theorem selectQuery {k : Option SessionQueryRow → Tx (dialect C) β}
    (h : Owns C sid p₀ p held ws t)
    (hk : ∀ held ws t, TablesSound C t → Owns C sid p₀ p held ws t →
      TxKeeps C op (k (find SessionQueryRow.key (sid, q) p.rows)) held ws t) :
    TxKeeps C op (.stmt (.selectQuery sid q) k) held ws t := by
  apply h.stmt (w := []) _ (by simp) hk
  intro v n hv
  rw [Stmt.exec, Tables.query_eq, hv]

theorem selectQueries {k : List SessionQueryRow → Tx (dialect C) β}
    (h : Owns C sid p₀ p held ws t)
    (hk : ∀ held ws t, TablesSound C t → Owns C sid p₀ p held ws t →
      TxKeeps C op (k (p.rows.insertionSort (Stmt.rowLE C · ·))) held ws t) :
    TxKeeps C op (.stmt (.selectQueries sid) k) held ws t := by
  apply h.stmt (w := []) _ (by simp) hk
  intro v n hv
  rw [← hv]
  rfl

theorem sessionId_eventRow {d : SessionEventData} {sequence : Option ℤ} {entry : QueryEntry} :
    (eventRow (find SessionQueryRow.key (sid, q) p.rows) sid d sequence entry).sessionId = sid := by
  cases hr : find SessionQueryRow.key (sid, q) p.rows with
  | none => rfl
  | some r =>
    have hkey : r.key = (sid, q) := key_of_find hr
    exact (Prod.mk.inj hkey).1

theorem upsertQuery {k : Unit → Tx (dialect C) β} {header : SessionRow} {entry : QueryEntry}
    {d : SessionEventData} {sequence : Option ℤ} (h : Owns C sid p₀ p held ws t)
    (hp : p.header = some header)
    (hk : ∀ held ws t, TablesSound C t →
      Owns C sid p₀ ⟨p.header, put SessionQueryRow.key (eventRow
        (find SessionQueryRow.key (sid, entry.name) p.rows) sid d sequence entry) p.rows⟩
        held ws t → TxKeeps C op (k ()) held ws t) :
    TxKeeps C op (.stmt (.upsertQuery sid entry sequence (phaseSequence d sequence)) k)
      held ws t := by
  apply h.stmt (w := [.putQuery (eventRow
    (find SessionQueryRow.key (sid, entry.name) p.rows) sid d sequence entry)]) _ _ hk
  · intro v n hv
    have hheader : v.session sid = some header := (congrArg Share.header hv).trans hp
    have hquery : v.query sid entry.name = find SessionQueryRow.key (sid, entry.name) p.rows := by
      rw [Tables.query_eq, hv]
    simp only [Stmt.exec, hheader, hquery]
    cases find SessionQueryRow.key (sid, entry.name) p.rows <;> rfl
  · simpa [Write.sessionId] using sessionId_eventRow

theorem updateSession {k : Unit → Tx (dialect C) β} {header : SessionRow} {s : SessionEntry}
    {touched : Option (ℕ × ℕ)} (h : Owns C sid p₀ p held ws t) (hp : p.header = some header)
    (hs : s.sessionId = sid) (hid : header.sessionId = sid)
    (hk : ∀ held ws t, TablesSound C t →
      Owns C sid p₀ ⟨some (updatedSession header s touched), p.rows⟩ held ws t →
      TxKeeps C op (k ()) held ws t) :
    TxKeeps C op (.stmt (.updateSession s touched) k) held ws t := by
  apply h.stmt (w := [.putSession (updatedSession header s touched)]) _ _ hk
  · intro v n hv
    have hheader : v.session sid = some header := (congrArg Share.header hv).trans hp
    simp [Stmt.exec, hs, hheader]
  · simpa [Write.sessionId, updatedSession] using hid

theorem refreshHeader {k : Unit → Tx (dialect C) β} {header : SessionRow} {clock : Clock} (b : Bool)
    (h : Owns C sid p₀ p held ws t) (hp : p.header = some header) (hid : header.sessionId = sid)
    (hk : ∀ held ws t, TablesSound C t →
      Owns C sid p₀ ⟨some (updatedSession header
        (if b then recalculateSessionConversations (entryOf C header p.rows)
          else recalculateSessionStatus (entryOf C header p.rows))
        (some (clock.now, clock.expiresAt))), p.rows⟩ held ws t → TxKeeps C op (k ()) held ws t) :
    TxKeeps C op (Session.refreshHeader header clock b >>= k) held ws t := by
  simp only [Session.refreshHeader, readSession, Tx.query_bind, Tx.stmt_bind, Tx.pure_eq_ret,
    Tx.ret_bind, hid]
  apply h.selectQueries
  intro held ws t _ h
  refine h.updateSession hp ?_ hid hk
  cases b <;> simpa using hid

theorem refreshHeaderAggregates {k : Unit → Tx (dialect C) β} {header : SessionRow}
    (h : Owns C sid p₀ p held ws t) (hp : p.header = some header) (hid : header.sessionId = sid)
    (hk : ∀ held ws t, TablesSound C t →
      Owns C sid p₀ ⟨some (updatedSession header
        (recalculateSessionStatus (entryOf C header p.rows)) none), p.rows⟩ held ws t →
      TxKeeps C op (k ()) held ws t) :
    TxKeeps C op (Session.refreshHeaderAggregates header >>= k) held ws t := by
  simp only [Session.refreshHeaderAggregates, readSession, Tx.query_bind, Tx.stmt_bind,
    Tx.pure_eq_ret, Tx.ret_bind, hid]
  apply h.selectQueries
  intro held ws t _ h
  exact h.updateSession hp (by simpa using hid) hid hk

end Owns

/-! ### `applyEvent` -/

section ApplyEvent

variable {d : SessionEventData} {sequence : Option ℤ} {clock : Clock} {p₀ p : Share}
  {held : Set Key} {ws : List Write} {t : Tables} {header : SessionRow}

/-- The part of `applyEventTx` that follows the lock of the header. -/
def applyEventTo (header : SessionRow) (sid q : String) (d : SessionEventData)
    (sequence : Option ℤ) (clock : Clock) : Tx (dialect C) Bool := do
  let existing ← Tx.query (.selectQuery sid q)
  match eventEntry existing q d sequence clock.now with
  | none => pure false
  | some entry =>
    Tx.query (.upsertQuery sid entry sequence (phaseSequence d sequence))
    refreshHeader header clock false
    pure true

theorem eventEntry_of_leavesAlone {r : SessionQueryRow} {now : ℕ} (h : LeavesAlone r d sequence) :
    eventEntry (some r) q d sequence now = none := by
  obtain ⟨hs, hp, hm⟩ := h
  simp [eventEntry, appliedEntry, SessionQueryRow.rowToQueryEntry, hs, hp, hm]

/-- The share after an event that writes `entry`. -/
theorem sound_event {entry : QueryEntry} {touched : Option (ℕ × ℕ)} (hp : Sound C sid p)
    (hheader : p.header = some header) (hname : entry.name = q) :
    let rows := put SessionQueryRow.key
      (eventRow (find SessionQueryRow.key (sid, q) p.rows) sid d sequence entry) p.rows
    Sound C sid ⟨some (updatedSession header
      (recalculateSessionStatus (entryOf C header rows)) touched), rows⟩ where
  header h hh := by
    obtain rfl := Option.some.inj hh
    exact hp.header header hheader
  sessionId r hr := by
    obtain rfl | hr := mem_put hr
    · exact (Prod.mk.inj (key_eventRow hname)).1
    · exact hp.sessionId r hr
  nodup := nodup_put hp.nodup
  parent h := by cases h
  aggregated h hh := by
    obtain rfl := Option.some.inj hh
    exact aggregated_updatedSession

/-- An event moves its row forward, or inserts it. -/
theorem rowLE_event {entry : QueryEntry} (hp : Sound C sid p) (hname : entry.name = q)
    (he : eventEntry (find SessionQueryRow.key (sid, q) p.rows) q d sequence clock.now =
      some entry) :
    ∀ r ∈ p.rows, ∀ r' ∈ put SessionQueryRow.key
      (eventRow (find SessionQueryRow.key (sid, q) p.rows) sid d sequence entry) p.rows,
      r'.key = r.key → RowLE r r' := by
  apply rowLE_put hp.nodup
  intro r hr hkey
  rw [key_eventRow hname] at hkey
  have hfind : find SessionQueryRow.key (sid, q) p.rows = some r := hkey ▸ find_of_mem hp.nodup hr
  rw [hfind] at he ⊢
  exact rowLE_updatedQuery he

theorem keeps_applyEventTo (ho : Owns C sid p₀ p held ws t) (hp : Sound C sid p) (hheader : p.header = some header) (hrows : p₀.rows = p.rows)
    (hfound : p.rows ≠ [] → p₀ = p) (hq : nonEmpty d.queryName = some q) :
    TxKeeps C (.applyEvent d sequence clock) (applyEventTo header sid q d sequence clock)
      held ws t := by
  have hid : header.sessionId = sid := (hp.header header hheader).1
  simp only [applyEventTo, Tx.query_bind]
  apply ho.selectQuery
  intro held ws t ht ho
  cases he : eventEntry (find SessionQueryRow.key (sid, q) p.rows) q d sequence clock.now with
  | none =>
    have hf : Follows (.applyEvent d sequence clock) sid p₀ p := by
      by_cases hnil : p.rows = []
      · exact ⟨by simp [hrows, hnil], by simp [hrows, hnil]⟩
      · rw [hfound hnil]
        exact .refl _ hp
    exact ho.ret false ht hp hf
  | some entry =>
    have hname : entry.name = q := by
      refine name_eventEntry ?_ he
      intro r hr
      have hkey : r.key = (sid, q) := key_of_find hr
      exact (Prod.mk.inj hkey).2
    apply ho.upsertQuery hheader
    intro held ws t _ ho
    refine ho.refreshHeader false hheader hid ?_
    intro held ws t ht ho
    rw [hname] at ho
    refine ho.ret true ht (sound_event hp hheader hname) ⟨?_, ?_⟩
    · rw [hrows]
      exact rowLE_event hp hname he
    · rintro d' sequence' clock' ⟨⟩ _ r hr hqr hleaves
      rw [hrows] at hr
      obtain rfl : q = r.queryId := Option.some.inj (hq.symm.trans hqr)
      have hkey : r.key = (sid, r.queryId) := Prod.ext (hp.sessionId r hr) rfl
      rw [← hkey, find_of_mem hp.nodup hr, eventEntry_of_leavesAlone hleaves] at he
      cases he

theorem applyEventTx_eq : (applyEventTx sid q d sequence clock : Tx (dialect C) Bool) =
    .stmt (.insertSession sid (sessionName sid) clock) fun _ =>
      lockHeader sid >>= fun o =>
        match o with
        | some header => applyEventTo header sid q d sequence clock
        | none => .stmt (.upsertSession sid (sessionName sid) clock) fun header =>
            applyEventTo header sid q d sequence clock := by
  simp only [applyEventTx, lockHeaderOrRecreate, Tx.query_bind, Tx.bind_assoc']
  congr 1
  funext _
  congr 1
  funext o
  cases o <;> rfl

theorem freshSession_sessionId (n : ℕ) (sid : String) (clock : Clock) :
    (freshSession n sid (sessionName sid) clock).sessionId = sid := rfl

/-- A session without a header has no rows; its header is inserted in the transaction. -/
theorem sound_fresh {n : ℕ} :
    Sound C sid ⟨some (freshSession n sid (sessionName sid) clock), []⟩ where
  header h hh := by
    obtain rfl := Option.some.inj hh
    exact ⟨rfl, rfl⟩
  sessionId r hr := by cases hr
  nodup := List.nodup_nil
  parent h := by cases h
  aggregated h hh := by
    obtain rfl := Option.some.inj hh
    exact ⟨rfl, rfl, rfl⟩

/-- The statement that takes the lock also writes the header. -/
theorem owns_putSession {t' : Tables} (hkey : Key.session sid ∈ held)
    (hsame : Same (D := dialect C) part held t t') (hid : header.sessionId = sid) :
    Owns C sid (t.share sid) ⟨some header, (t.share sid).rows⟩ held [.putSession header] t' := by
  have hshare : t'.share sid = t.share sid := hsame (.session sid) hkey
  have hwrites : ∀ w ∈ [Write.putSession header], w.sessionId = sid := by
    simpa [Write.sessionId] using hid
  refine ⟨hkey, hwrites, hshare, ?_⟩
  rw [share_view hwrites, hshare]
  rfl

/-- The rule for `upsertSession`, which locks the header, or inserts one that was missed. -/
theorem keeps_upsertSession (ht : TablesSound C t) (hq : nonEmpty d.queryName = some q) :
    TxKeeps C (.applyEvent d sequence clock)
      (.stmt (.upsertSession sid (sessionName sid) clock) fun header =>
        applyEventTo header sid q d sequence clock) held [] t := by
  intro n header ws' he t' hI hsame
  change Stmt.exec C (.upsertSession sid (sessionName sid) clock) t n = some (header, ws') at he
  have hkey : Key.session sid ∈ held ∪
      {k | Stmt.lock (.upsertSession sid (sessionName sid) clock) t = some k} := .inr rfl
  cases hs : t.session sid with
  | some h =>
    obtain ⟨hid, hname⟩ := (ht sid).header h hs
    have hsamerow : { h with name := sessionName sid } = h := by rw [← hname]
    simp only [Stmt.exec, hs, hsamerow, Option.some.injEq, Prod.mk.injEq] at he
    obtain ⟨rfl, rfl⟩ := he
    have ho := owns_putSession hkey hsame hid
    have hp : (⟨some h, (t.share sid).rows⟩ : Share) = t.share sid := Share.ext hs.symm rfl
    rw [hp] at ho
    exact keeps_applyEventTo ho (ht sid) hs rfl (fun _ => rfl) hq
  | none =>
    simp only [Stmt.exec, hs, Option.some.injEq, Prod.mk.injEq] at he
    obtain ⟨rfl, rfl⟩ := he
    have hrows : (t.share sid).rows = [] := (ht sid).parent hs
    have ho := owns_putSession (C := C) hkey hsame (freshSession_sessionId n sid clock)
    rw [hrows] at ho
    exact keeps_applyEventTo ho sound_fresh rfl hrows (fun h => absurd rfl h) hq

theorem keeps_applyEventTx (ht : TablesSound C t) (hq : nonEmpty d.queryName = some q) :
    TxKeeps C (.applyEvent d sequence clock) (applyEventTx sid q d sequence clock) held [] t := by
  rw [applyEventTx_eq]
  intro n a ws' he t' hI hsame
  change Stmt.exec C (.insertSession sid (sessionName sid) clock) t n = some (a, ws') at he
  cases hs : t.session sid with
  | some h =>
    obtain ⟨rfl, rfl⟩ : () = a ∧ [] = ws' := by simpa [Stmt.exec, hs, eq_comm] using he
    apply keeps_lockHeader
    · intro held t ht
      exact keeps_upsertSession ht hq
    · intro header p held t ht hp ho
      exact keeps_applyEventTo ho (ho.found ▸ ht sid) hp rfl (fun _ => rfl) hq
  | none =>
    have hkey : Key.session sid ∈ held ∪
        {k | Stmt.lock (.insertSession sid (sessionName sid) clock) t = some k} := by
      simp [Stmt.lock, hs]
    simp only [Stmt.exec, hs, Option.some.injEq, Prod.mk.injEq] at he
    obtain ⟨-, rfl⟩ := he
    have hrows : (t.share sid).rows = [] := (ht sid).parent hs
    have ho := owns_putSession (C := C) hkey hsame (freshSession_sessionId n sid clock)
    rw [hrows] at ho
    refine ho.lockHeader rfl ?_
    intro held ws t ht ho
    exact keeps_applyEventTo ho sound_fresh rfl hrows (fun h => absurd rfl h) hq

theorem keeps_applyEvent :
    (applyEvent d sequence clock : Call (dialect C) Notification Unit).Keeps part (TablesSound C)
      (CommitFollows (.applyEvent d sequence clock)) := by
  unfold applyEvent
  split
  next sid q hsid hq =>
    refine ⟨fun t ht => keeps_applyEventTx ht hq, ?_⟩
    intro applied
    cases applied <;> trivial
  next => trivial

end ApplyEvent

/-! ### `applyMessage` -/

section ApplyMessage

variable {conversationId : String} {sequence : Option ℤ} {clock : Clock} {p₀ p : Share}
  {held : Set Key} {ws : List Write} {t : Tables} {header : SessionRow} {r : SessionQueryRow}

/-- The share after a message joined the row of its query to a conversation. -/
theorem sound_message {c : String} {touched : Option (ℕ × ℕ)} (hp : Sound C sid p)
    (hheader : p.header = some header) (hr : find SessionQueryRow.key (sid, q) p.rows = some r) :
    let rows := put SessionQueryRow.key (joinedQuery r c sequence) p.rows
    Sound C sid ⟨some (updatedSession header
      (recalculateSessionConversations (entryOf C header rows)) touched), rows⟩ where
  header h hh := by
    obtain rfl := Option.some.inj hh
    exact hp.header header hheader
  sessionId x hx := by
    obtain rfl | hx := mem_put hx
    · exact hp.sessionId r (mem_of_find hr)
    · exact hp.sessionId x hx
  nodup := nodup_put hp.nodup
  parent h := by cases h
  aggregated h hh := by
    obtain rfl := Option.some.inj hh
    have hkey : r.key = (sid, q) := key_of_find hr
    have hfind : find SessionQueryRow.key (joinedQuery r c sequence).key p.rows = some r := by
      rwa [key_joinedQuery, hkey]
    exact aggregated_conversations (hp.aggregated header hheader) hfind rfl

theorem follows_message {p' : Share} {queryId : String}
    (h : ∀ r ∈ p.rows, ∀ r' ∈ p'.rows, r'.key = r.key → RowLE r r') :
    Follows (.applyMessage conversationId queryId sequence clock) sid p p' :=
  ⟨h, by rintro _ _ _ ⟨⟩⟩

/-- The statement that joins the row; it returns no row when the watermark refuses it. -/
theorem Owns.joinConversation {k : ℕ → Tx (dialect C) β} {c : String}
    (h : Owns C sid p p held ws t) (hr : find SessionQueryRow.key (sid, q) p.rows = some r)
    (hk : sequence.all (r.lastAppliedMessageSequence < ·) = true → ∀ held ws t, TablesSound C t →
      Owns C sid p ⟨p.header, put SessionQueryRow.key (joinedQuery r c sequence) p.rows⟩ held ws t →
        TxKeeps C op (k 1) held ws t)
    (hk' : ∀ held ws t, TablesSound C t → Owns C sid p p held ws t → TxKeeps C op (k 0) held ws t) :
    TxKeeps C op (.stmt (.joinConversation sid q c sequence) k) held ws t := by
  have hquery : ∀ v : Tables, v.share sid = p → v.query sid q = some r := by
    intro v hv
    rw [Tables.query_eq, hv, hr]
  by_cases hnew : sequence.all (r.lastAppliedMessageSequence < ·) = true
  · apply h.stmt (w := [.putQuery (joinedQuery r c sequence)]) _ _ (hk hnew)
    · intro v n hv
      simp only [Stmt.exec, hquery v hv, hnew, if_true]
    · have hkey : r.key = (sid, q) := key_of_find hr
      simpa [Write.sessionId, joinedQuery] using (Prod.mk.inj hkey).1
  · apply h.stmt (w := []) _ (by simp) hk'
    intro v n hv
    simp only [Stmt.exec, hquery v hv, hnew, Bool.false_eq_true, if_false]

theorem keeps_applyMessageTo (ho : Owns C sid p p held ws t) (hp : Sound C sid p) (hheader : p.header = some header) :
    TxKeeps C (.applyMessage conversationId q sequence clock)
      (applyMessageTo header conversationId q sequence clock) held ws t := by
  have hid : header.sessionId = sid := (hp.header header hheader).1
  have hsame : Follows (.applyMessage conversationId q sequence clock) sid p p := .refl _ hp
  simp only [applyMessageTo, Tx.query_bind, hid]
  apply ho.selectQuery
  intro held ws t ht ho
  cases hr : find SessionQueryRow.key (sid, q) p.rows with
  | none => exact ho.ret none ht hp hsame
  | some r =>
    dsimp only
    split
    next => exact ho.ret none ht hp hsame
    next =>
      refine ho.joinConversation hr ?_ ?_
      · intro hnew held ws t ht ho
        refine ho.refreshHeader true hheader hid ?_
        intro held ws t ht ho
        refine ho.ret _ ht (sound_message hp hheader hr) (follows_message ?_)
        apply rowLE_put hp.nodup
        intro x hx hkey
        have hfind := find_of_mem hp.nodup hx
        rw [hkey, key_joinedQuery, show r.key = (sid, q) from key_of_find hr, hr] at hfind
        obtain rfl := Option.some.inj hfind
        exact rowLE_joinedQuery hnew
      · intro held ws t ht ho
        exact ho.ret none ht hp hsame

theorem keeps_applyMessage :
    (applyMessage conversationId q sequence clock : Call (dialect C) Notification Unit).Keeps part
      (TablesSound C) (CommitFollows (.applyMessage conversationId q sequence clock)) := by
  refine ⟨?_, ?_⟩
  · intro t ht
    simp only [applyMessageTx, Tx.query_bind]
    refine keeps_read ?_ ?_
    · intro v n a ws' he
      simp only [Stmt.exec, Option.some.injEq, Prod.mk.injEq] at he
      exact he.2.symm
    · intro owner held t ht
      cases owner with
      | none => exact keeps_ret_nil none ht
      | some owner =>
        apply keeps_lockHeader
        · intro held t ht
          exact keeps_ret_nil none ht
        · intro header p held t ht hp ho
          exact keeps_applyMessageTo ho (ho.found ▸ ht owner) hp
  · intro touched
    cases touched <;> trivial

end ApplyMessage

/-! ### `deleteQuery` -/

section DeleteQuery

variable {p₀ p : Share} {held : Set Key} {ws : List Write} {t : Tables} {header : SessionRow}

theorem sound_deletion {touched : Option (ℕ × ℕ)} (hp : Sound C sid p)
    (hheader : p.header = some header) :
    let rows := remove SessionQueryRow.key (sid, q) p.rows
    Sound C sid ⟨some (updatedSession header
      (recalculateSessionStatus (entryOf C header rows)) touched), rows⟩ where
  header h hh := by
    obtain rfl := Option.some.inj hh
    exact hp.header header hheader
  sessionId r hr := hp.sessionId r (mem_remove.mp hr).1
  nodup := nodup_remove hp.nodup
  parent h := by cases h
  aggregated h hh := by
    obtain rfl := Option.some.inj hh
    exact aggregated_updatedSession

theorem sound_gone : Sound C sid ⟨none, []⟩ where
  header h hh := by cases hh
  sessionId r hr := by cases hr
  nodup := List.nodup_nil
  parent _ := rfl
  aggregated h hh := by cases hh

/-- A commit of an operation other than `applyEvent` whose rows were there before. -/
theorem follows_of_subset {p' : Share} (hop : ∀ d sequence clock, op ≠ .applyEvent d sequence clock)
    (hp : Sound C sid p) (h : ∀ r ∈ p'.rows, r ∈ p.rows) : Follows op sid p p' :=
  ⟨fun r hr r' hr' => (Follows.refl op hp).rows r hr r' (h r' hr'),
    fun d sequence clock he => absurd he (hop d sequence clock)⟩

theorem keeps_deleteQueryTx :
    TxKeeps C (.deleteQuery q) (deleteQueryTx sid q) held [] t := by
  have hop : ∀ d sequence clock, Operation.deleteQuery q ≠ .applyEvent d sequence clock := by
    rintro _ _ _ ⟨⟩
  simp only [deleteQueryTx]
  apply keeps_lockHeader
  · intro held t ht
    exact keeps_ret_nil none ht
  · intro header p held t ht hheader ho
    have hp : Sound C sid p := ho.found ▸ ht sid
    have hid : header.sessionId = sid := (hp.header header hheader).1
    have hquery : ∀ v : Tables, v.share sid = p →
        v.query sid q = find SessionQueryRow.key (sid, q) p.rows := by
      intro v hv
      rw [Tables.query_eq, hv]
    simp only [Tx.query_bind]
    cases hr : find SessionQueryRow.key (sid, q) p.rows with
    | none =>
      apply ho.stmt (a := 0) (w := [])
      · intro v n hv
        simp [Stmt.exec, hquery v hv, hr]
      · simp
      · intro held ws t ht ho
        exact ho.ret none ht hp (.refl _ hp)
    | some r =>
      apply ho.stmt (a := 1) (w := [.deleteQuery sid q])
      · intro v n hv
        simp [Stmt.exec, hquery v hv, hr]
      · simp [Write.sessionId]
      · intro held ws t _ ho
        set rows := remove SessionQueryRow.key (sid, q) p.rows with hrows
        have hsub : ∀ x ∈ rows, x ∈ p.rows := fun x hx => (mem_remove.mp hx).1
        replace ho : Owns C sid p ⟨p.header, rows⟩ held ws t := ho
        apply ho.stmt (a := rows.length) (w := [])
        · intro v n hv
          simp only [Stmt.exec]
          rw [show v.queriesOf sid = rows from congrArg Share.rows hv]
        · simp
        · intro held ws t _ ho
          replace ho : Owns C sid p ⟨p.header, rows⟩ held ws t := ho
          by_cases hempty : rows.length = 0
          · simp only [hempty, if_true]
            apply ho.stmt (a := ()) (w := [.deleteSession sid])
            · intro v n hv
              rfl
            · simp [Write.sessionId]
            · intro held ws t ht ho
              exact ho.ret _ ht sound_gone (follows_of_subset hop hp (by simp [Share.write]))
          · simp only [hempty, if_false]
            refine ho.refreshHeaderAggregates hheader hid ?_
            intro held ws t ht ho
            exact ho.ret _ ht (sound_deletion hp hheader) (follows_of_subset hop hp hsub)

theorem keeps_notifySurvivors {queryId : String} {removed : ℕ} (l : List String) :
    (notifySurvivors queryId removed l : Call (dialect C) Notification ℕ).Keeps part
      (TablesSound C) (CommitFollows op) := by
  induction l with
  | nil => trivial
  | cons _ _ ih => exact ih

theorem keeps_deleteQueryFrom (owners : List String) (removed : ℕ) (survivors : List String) :
    (deleteQueryFrom q owners removed survivors : Call (dialect C) Notification ℕ).Keeps part
      (TablesSound C) (CommitFollows (.deleteQuery q)) := by
  induction owners generalizing removed survivors with
  | nil => exact keeps_notifySurvivors survivors
  | cons sid owners ih =>
    refine ⟨fun t _ => keeps_deleteQueryTx, ?_⟩
    intro outcome
    cases outcome with
    | none => exact ih removed survivors
    | some o => exact ih _ _

theorem keeps_deleteQuery :
    (deleteQuery q : Call (dialect C) Notification ℕ).Keeps part (TablesSound C)
      (CommitFollows (.deleteQuery q)) := by
  refine ⟨?_, fun owners => keeps_deleteQueryFrom owners 0 []⟩
  intro t ht
  apply keeps_read
  · intro v n a ws' he
    simp only [Stmt.exec, Option.some.injEq, Prod.mk.injEq] at he
    exact he.2.symm
  · intro owners held t ht
    exact keeps_ret_nil owners ht

end DeleteQuery

/-! ### `delete` and purges -/

section DeleteSessions

variable {held : Set Key} {ws : List Write} {t : Tables} {p : SessionRow → Bool}

/-- The transaction has deleted sessions only, each with its lock. -/
def Deletes (held : Set Key) (ws : List Write) : Prop :=
  ∀ w ∈ ws, ∃ sid, w = .deleteSession sid ∧ .session sid ∈ held

theorem share_view_deletes (h : ∀ w ∈ ws, ∃ sid, w = .deleteSession sid) (sid : String) :
    Tables.share (view (D := dialect C) t ws) sid = ⟨none, []⟩ ∨
      Tables.share (view (D := dialect C) t ws) sid = t.share sid := by
  induction ws generalizing t with
  | nil => exact .inr rfl
  | cons w ws ih =>
    obtain ⟨sid', rfl⟩ := h w List.mem_cons_self
    have ih := ih (t := t.write (.deleteSession sid')) fun w hw => h w (List.mem_cons_of_mem _ hw)
    obtain hgone | hsame := ih
    · exact .inl hgone
    · by_cases hsid : (Write.deleteSession sid').sessionId = sid
      · rw [Tables.share_write, if_pos hsid] at hsame
        exact .inl hsame
      · rw [Tables.share_write, if_neg hsid] at hsame
        exact .inr hsame

theorem Deletes.ret (h : Deletes held ws) (ht : TablesSound C t)
    (hop : ∀ d sequence clock, op ≠ .applyEvent d sequence clock) :
    TxKeeps C op (.ret () : Tx (dialect C) Unit) held ws t := by
  have hdel : ∀ w ∈ ws, ∃ sid, w = Write.deleteSession sid := by
    intro w hw
    obtain ⟨sid, he, -⟩ := h w hw
    exact ⟨sid, he⟩
  refine ⟨?_, ?_, ?_⟩
  · intro k hk
    cases k with
    | query => rfl
    | session sid =>
      apply share_view_of_ne
      intro w hw
      obtain ⟨sid', rfl, hheld⟩ := h w hw
      exact fun he => hk (he ▸ hheld)
  · intro sid
    obtain hgone | hsame := share_view_deletes (C := C) (t := t) hdel sid
    · exact hgone ▸ sound_gone
    · exact hsame ▸ ht sid
  · intro sid
    apply follows_of_subset hop (ht sid)
    obtain hgone | hsame := share_view_deletes (C := C) (t := t) hdel sid
    · simp [hgone]
    · simp [hsame]

theorem keeps_deleteVersions (hop : ∀ d sequence clock, op ≠ .applyEvent d sequence clock)
    (l : List (String × ℕ)) (h : Deletes held ws) (ht : TablesSound C t) :
    TxKeeps C op (deleteVersions p l : Tx (dialect C) Unit) held ws t := by
  induction l generalizing held ws t with
  | nil => exact h.ret ht hop
  | cons v l ih =>
    obtain ⟨sid, version⟩ := v
    intro n a ws' he t' hI _
    apply ih _ hI
    set v := view (D := dialect C) t ws
    change Stmt.exec C (.deleteVersion p sid version) v n = some (a, ws') at he
    intro w hw
    obtain hw | hw := List.mem_append.mp hw
    · obtain ⟨sid', he', hheld⟩ := h w hw
      exact ⟨sid', he', .inl hheld⟩
    · by_cases hfound : ((v.session sid).filter fun x => x.version = version && p x).isSome = true
      · rw [Stmt.exec, if_pos hfound] at he
        obtain ⟨-, rfl⟩ := Prod.mk.inj (Option.some.inj he)
        have hlock : Stmt.lock (.deleteVersion p sid version) v = some (.session sid) := by
          obtain ⟨x, hx⟩ := Option.isSome_iff_exists.mp hfound
          obtain ⟨hs, hx⟩ := Option.filter_eq_some_iff.mp hx
          have hversion : x.version = version := by simpa using (Bool.and_eq_true_iff.mp hx).1
          simp [Stmt.lock, hs, hversion]
        exact ⟨sid, List.mem_singleton.mp hw, .inr hlock⟩
      · rw [Stmt.exec, if_neg hfound] at he
        obtain ⟨-, rfl⟩ := Prod.mk.inj (Option.some.inj he)
        cases hw

theorem keeps_deleteSessions (hop : ∀ d sequence clock, op ≠ .applyEvent d sequence clock) :
    (deleteSessions p : Call (dialect C) Notification Unit).Keeps part (TablesSound C)
      (CommitFollows op) := by
  refine ⟨?_, fun _ => trivial⟩
  intro t ht
  apply keeps_read
  · intro v n a ws' he
    simp only [Stmt.exec, Option.some.injEq, Prod.mk.injEq] at he
    exact he.2.symm
  · intro l held t ht
    exact keeps_deleteVersions hop l (by simp [Deletes]) ht

end DeleteSessions

theorem keeps_program (op : Operation) :
    (program C op).2.Keeps part (TablesSound C) (CommitFollows op) := by
  cases op with
  | applyEvent d sequence clock => exact keeps_applyEvent
  | applyMessage conversationId queryId sequence clock => exact keeps_applyMessage
  | deleteQuery queryId => exact keeps_deleteQuery
  | delete => exact keeps_deleteSessions (by rintro _ _ _ ⟨⟩)
  | purge p => exact keeps_deleteSessions (by rintro _ _ _ ⟨⟩)

theorem tablesSound_empty : TablesSound C Tables.empty := fun _ => sound_gone

/-- The storage of any number of replicas on empty tables. -/
abbrev storage (C : Collation) : Machine (ReadCommitted.State (dialect C) Notification Operation)
    (ReadCommitted.Action Operation) :=
  ReadCommitted.machine Tables.empty (program C)

variable {ok : ReadCommitted.State (dialect C) Notification Operation →
    ReadCommitted.Action Operation → Prop}
  {s t : ReadCommitted.State (dialect C) Notification Operation}

theorem sound_of_reachable (h : (storage C).Reachable ok s) : TablesSound C s.tables :=
  (ReadCommitted.sound_of_reachable tablesSound_empty keeps_program h).tables

theorem commits_of_step {a : ReadCommitted.Action Operation} (h : (storage C).Reachable ok s)
    (hs : (storage C).step s a = some t) : Commits CommitFollows a s t :=
  ReadCommitted.commits_of_step tablesSound_empty keeps_program h hs

/-! ### Headers match their rows -/

/-- In every reachable state a session with query rows has the aggregates of exactly these rows,
and no query row is without its header. -/
theorem headers_match (h : (storage C).Reachable Machine.always s) :
    (∀ sid, s.tables.queriesOf sid ≠ [] → ∃ header, s.tables.session sid = some header ∧
      let session := recalculateSessionStatus (entryOf C header (s.tables.queriesOf sid))
      header.errorCount = session.errorCount ∧ header.status = session.status ∧
        header.conversations = session.conversations) ∧
      ∀ r ∈ s.tables.queries, (s.tables.session r.sessionId).isSome := by
  have hsound := sound_of_reachable h
  have hheader : ∀ sid, s.tables.queriesOf sid ≠ [] →
      ∃ header, s.tables.session sid = some header := by
    intro sid hne
    cases hs : s.tables.session sid with
    | some header => exact ⟨header, rfl⟩
    | none => exact absurd ((hsound sid).parent hs) hne
  refine ⟨?_, ?_⟩
  · intro sid hne
    obtain ⟨header, hs⟩ := hheader sid hne
    have ha := (hsound sid).aggregated header hs
    exact ⟨header, hs, ha.errorCount, ha.status, ha.conversations⟩
  · intro r hr
    have hmem : r ∈ s.tables.queriesOf r.sessionId := by simpa [Tables.queriesOf] using hr
    obtain ⟨header, hs⟩ := hheader r.sessionId (List.ne_nil_of_mem hmem)
    rw [hs]
    rfl

/-! ### Rows move forward -/

theorem rowLE_of_step {a : ReadCommitted.Action Operation} {r r' : SessionQueryRow}
    (h : (storage C).Reachable ok s) (hs : (storage C).step s a = some t)
    (hr : s.tables.query sid q = some r) (hr' : t.tables.query sid q = some r') : RowLE r r' := by
  obtain hsame | ⟨i, op, -, -, hfollows⟩ := commits_of_step h hs
  · rw [hsame, hr] at hr'
    obtain rfl := Option.some.inj hr'
    exact .refl _
  · rw [Tables.query_eq] at hr hr'
    refine (hfollows sid).rows r (mem_of_find hr) r' (mem_of_find hr') ?_
    exact (key_of_find hr').trans (key_of_find hr).symm

theorem rowLE_of_run (h : (storage C).Reachable Machine.always s)
    (hrun : (storage C).Run (fun u _ => (u.tables.query sid q).isSome) s t) :
    ∀ r r', s.tables.query sid q = some r → t.tables.query sid q = some r' → RowLE r r' := by
  induction hrun with
  | refl =>
    intro r r' hr hr'
    obtain rfl := Option.some.inj (hr.symm.trans hr')
    exact .refl _
  | tail hrun hok hst ih =>
    intro r r' hr hr'
    obtain ⟨r₁, hr₁⟩ := Option.isSome_iff_exists.mp hok
    have hreach := h.trans (hrun.mono fun _ _ _ => trivial)
    exact (ih r r₁ hr hr₁).trans (rowLE_of_step hreach hst hr₁ hr')

/-- While the row of a query stays, its identity fields, its target type and its watermarks move
forward only; and an event that is not above its watermarks and fills no field changes neither
the row nor the header. -/
theorem metadata_never_regresses (h : (storage C).Reachable Machine.always s) (sid q : String) :
    (∀ t r r', (storage C).Run (fun u _ => (u.tables.query sid q).isSome) s t →
      s.tables.query sid q = some r → t.tables.query sid q = some r' → RowLE r r') ∧
    (∀ i d sequence clock t r,
      (s.clients i).operation = some (.applyEvent d sequence clock) →
      nonEmpty d.sessionId = some sid → nonEmpty d.queryName = some q →
      (storage C).step s (.advance i) = some t → s.tables.query sid q = some r →
      LeavesAlone r d sequence →
        t.tables.query sid q = some r ∧ t.tables.session sid = s.tables.session sid) := by
  refine ⟨fun t r r' hrun => rowLE_of_run h hrun r r', ?_⟩
  intro i d sequence clock t r hop hsid hq hs hr hleaves
  obtain hsame | ⟨j, op, hj, hopj, hfollows⟩ := commits_of_step h hs
  · rw [hsame]
    exact ⟨hr, rfl⟩
  · cases hj
    obtain rfl : .applyEvent d sequence clock = op := Option.some.inj (hop.symm.trans hopj)
    have hmem : r ∈ (s.tables.share sid).rows := by
      rw [Tables.query_eq] at hr
      exact mem_of_find hr
    obtain ⟨-, hqr⟩ := Tables.key_of_query hr
    have hshare := (hfollows sid).unchanged d sequence clock rfl hsid r hmem (hqr ▸ hq) hleaves
    refine ⟨?_, congrArg Share.header hshare⟩
    rw [Tables.query_eq, hshare, ← Tables.query_eq, hr]

/-! ### A redelivered event -/

/-- The event that two replicas deliver. -/
def toolFinished : SessionEventData :=
  ⟨some "session-billing", some "invoice-run", some "finance", some "c-7", some "clerk", none, none,
    some "ledger", some .agent, none, some queryExecutionComplete⟩

/-- One replica applies the event; another is about to commit its redelivery. -/
def redelivery : List (ReadCommitted.Action Operation) :=
  [.call 0 (.applyEvent toolFinished (some 12) ⟨30, 20, 3600⟩)] ++
    List.replicate 11 (.advance 0) ++
    [.call 1 (.applyEvent toolFinished (some 12) ⟨45, 33, 3600⟩)] ++ List.replicate 5 (.advance 1)

/-- The client delivers the event. -/
def delivers : Option Operation → Bool
  | some (.applyEvent d sequence clock) =>
    d = toolFinished && sequence = some 12 && clock = ⟨45, 33, 3600⟩
  | _ => false

theorem eq_of_delivers {o : Option Operation} (h : delivers o = true) :
    o = some (.applyEvent toolFinished (some 12) ⟨45, 33, 3600⟩) := by
  unfold delivers at h
  split at h
  next d sequence clock =>
    simp only [Bool.and_eq_true, decide_eq_true_eq] at h
    obtain ⟨⟨rfl, rfl⟩, rfl⟩ := h
    rfl
  next => cases h

/-- The row, and that the redelivered event leaves it alone. -/
def rowLeftAlone (s : ReadCommitted.State (dialect C) Notification Operation) : Bool :=
  (s.tables.query "session-billing" "invoice-run").any fun r =>
    stale r (some 12) && phaseStale r (some 12) &&
      !(mergeQueryMetadata r.entry (normalizeEventData toolFinished)).2

theorem exists_redelivery : ∃ s t r, (storage .codePoint).Reachable Machine.always s ∧
    (s.clients 1).operation = some (.applyEvent toolFinished (some 12) ⟨45, 33, 3600⟩) ∧
    (storage .codePoint).step s (.advance 1) = some t ∧
    s.tables.query "session-billing" "invoice-run" = some r ∧
    LeavesAlone r toolFinished (some 12) := by
  obtain ⟨s, hs, hp⟩ : ∃ s, (storage .codePoint).Reachable Machine.always s ∧
      (delivers (s.clients 1).operation && rowLeftAlone s &&
        ((storage .codePoint).step s (.advance 1)).isSome) = true :=
    Machine.exists_reachable (b := fun _ _ => true) (l := redelivery) rfl (fun _ _ _ => trivial)
      (by decide)
  simp only [Bool.and_eq_true] at hp
  obtain ⟨⟨hop, hrow⟩, hstep⟩ := hp
  obtain ⟨t, ht⟩ := Option.isSome_iff_exists.mp hstep
  obtain ⟨r, hr, hleft⟩ := (Option.any_eq_true _ _).mp hrow
  simp only [Bool.and_eq_true, Bool.not_eq_true'] at hleft
  exact ⟨s, t, r, hs, eq_of_delivers hop, ht, hr, hleft.1.1, hleft.1.2, hleft.2⟩

theorem headers_match_redelivery : ∃ s, (storage .codePoint).Reachable Machine.always s ∧
    ∃ header, s.tables.session "session-billing" = some header ∧
      header.status = (recalculateSessionStatus
        (entryOf .codePoint header (s.tables.queriesOf "session-billing"))).status := by
  obtain ⟨s, -, r, hs, -, -, hr, -⟩ := exists_redelivery
  have hrow : r ∈ s.tables.queriesOf "session-billing" := by
    rw [Tables.query_eq] at hr
    exact mem_of_find hr
  obtain ⟨header, hheader, -, hstatus, -⟩ :=
    (headers_match hs).1 "session-billing" (List.ne_nil_of_mem hrow)
  exact ⟨s, hs, header, hheader, hstatus⟩

theorem metadata_never_regresses_redelivery : ∃ s t r r',
    (storage .codePoint).Reachable Machine.always s ∧
    (storage .codePoint).step s (.advance 1) = some t ∧
    s.tables.query "session-billing" "invoice-run" = some r ∧
    t.tables.query "session-billing" "invoice-run" = some r' ∧ RowLE r r' ∧ r' = r ∧
    t.tables.session "session-billing" = s.tables.session "session-billing" := by
  obtain ⟨s, t, r, hs, hop, ht, hr, hleft⟩ := exists_redelivery
  have hmain := metadata_never_regresses hs "session-billing" "invoice-run"
  obtain ⟨hrow, hheader⟩ := hmain.2 1 _ _ _ t r hop rfl rfl ht hr hleft
  have hrun : (storage .codePoint).Run
      (fun u _ => (u.tables.query "session-billing" "invoice-run").isSome) s t :=
    Machine.Run.refl.tail (by rw [hr]; rfl) ht
  exact ⟨s, t, r, r, hs, ht, hr, hrow, hmain.1 t r r hrun hr hrow, rfl, hheader⟩

end Ark.Session
