import Ark.SessionHeaders
import Mathlib.Data.List.Dedup

/-!
# Calls of the storage one after another

What each write path does to the shares of the sessions when no other call runs beside it. The
tables stay those of a reachable state of the storage, so that the invariant of the shares holds
between the calls.
-/

namespace Ark.Session

open KeyedTable ReadCommitted

variable {C : Collation} {t : Tables} {n : ℕ} {sid sid' q : String} {h : SessionRow}

/-- The tables of a reachable state in which no call is under way. -/
def Serial (C : Collation) (t : Tables) (n : ℕ) : Prop :=
  ∃ s, (storage C).Reachable Machine.always s ∧ s.locks = [] ∧ s.clients 0 = .idle ∧
    s.tables = t ∧ s.next = n

theorem serial_empty : Serial C Tables.empty 0 := ⟨_, .init rfl, rfl, rfl, rfl, rfl⟩

theorem Serial.sound (h : Serial C t n) : TablesSound C t := by
  obtain ⟨s, hreach, -, -, rfl, -⟩ := h
  exact sound_of_reachable hreach

/-- A call that does not fail. -/
theorem Serial.call (h : Serial C t n) (op : Operation)
    (hresult : ((program C op).2.run n t).result.isSome) :
    Serial C ((program C op).2.run n t).tables ((program C op).2.run n t).next := by
  obtain ⟨s, hreach, hlocks, hidle, rfl, rfl⟩ := h
  let s₁ := s.setClient 0 (.calling op (program C op).2)
  have hstep : (storage C).step s (.call 0 op) = some s₁ := by
    change s.step (program C) (.call 0 op) = _
    simp only [State.step, hidle]
    rfl
  have hcalling : s₁.clients 0 = .calling op (program C op).2 := by simp [s₁, State.setClient]
  obtain ⟨s', hrun, hidle', ht, hn, -, hlocks'⟩ := exists_run_call (s := s₁) hlocks hcalling hresult
  exact ⟨s', (hreach.step trivial hstep).trans hrun, hlocks', hidle', ht, hn⟩

/-! ### The shares after a write -/

theorem isSome_of_mem_queriesOf {r : SessionQueryRow} (h : TablesSound C t)
    (hr : r ∈ t.queriesOf sid) : (t.session sid).isSome := by
  by_contra hnone
  have hrows : t.queriesOf sid = [] := (h sid).parent (Option.not_isSome_iff_eq_none.mp hnone)
  rw [hrows] at hr
  cases hr

theorem share_write_of_ne {w : Write} (hw : w.sessionId = sid) (hsid : sid' ≠ sid) :
    (t.write w).share sid' = t.share sid' := by
  rw [Tables.share_write, if_neg]
  rw [hw]
  exact Ne.symm hsid

theorem share_write_self {w : Write} (hw : w.sessionId = sid) :
    (t.write w).share sid = (t.share sid).write w := by
  rw [Tables.share_write, if_pos hw]

theorem queriesOf_putQuery {r : SessionQueryRow} (hr : r.sessionId = sid) :
    (t.write (.putQuery r)).queriesOf sid = put SessionQueryRow.key r (t.queriesOf sid) :=
  congrArg Share.rows (share_write_self (w := .putQuery r) hr)

/-- The rows that the deletion of a query leaves. -/
def remaining (t : Tables) (q sid : String) : List SessionQueryRow :=
  remove SessionQueryRow.key (sid, q) (t.queriesOf sid)

theorem queriesOf_deleteQuery : (t.write (.deleteQuery sid q)).queriesOf sid = remaining t q sid :=
  congrArg Share.rows (share_write_self (w := .deleteQuery sid q) rfl)

/-- The session `sid` now has the rows `l`, and is there unless it has none; the other shares are
what they were. -/
structure Sets (t t' : Tables) (sid : String) (l : List SessionQueryRow) : Prop where
  rows : t'.queriesOf sid = l
  header : (t'.session sid).isSome ↔ l ≠ []
  other : ∀ sid', sid' ≠ sid → t'.share sid' = t.share sid'

/-- Every write path ends with the header. -/
theorem sets_putSession {t' : Tables} {l : List SessionQueryRow} (hid : h.sessionId = sid)
    (hrows : t'.queriesOf sid = l) (hne : l ≠ [])
    (hother : ∀ sid', sid' ≠ sid → t'.share sid' = t.share sid') :
    Sets t (t'.write (.putSession h)) sid l where
  rows := hrows
  header := by
    refine iff_of_true ?_ hne
    rw [Tables.session_putSession, if_pos hid.symm]
    rfl
  other sid' hsid := (share_write_of_ne (w := .putSession h) hid hsid).trans (hother sid' hsid)

theorem share_ensureSession_of_ne {clock : Clock} (hsid : sid' ≠ sid) :
    (ensureSession t n sid clock).share sid' = t.share sid' := by
  unfold ensureSession
  cases t.session sid with
  | some h => rfl
  | none => exact share_write_of_ne rfl hsid

theorem queriesOf_ensureSession {clock : Clock} :
    (ensureSession t n sid clock).queriesOf sid' = t.queriesOf sid' := by
  unfold ensureSession
  cases t.session sid <;> rfl

theorem sets_afterEvent {d : SessionEventData} {sequence : Option ℤ} {clock : Clock}
    {e : QueryEntry} : Sets t (afterEvent C t n sid d sequence clock e) sid
      (put SessionQueryRow.key (eventRow (t.query sid e.name) sid d sequence e)
        (t.queriesOf sid)) := by
  have hrow : (eventRow (t.query sid e.name) sid d sequence e).sessionId = sid := by
    cases hr : t.query sid e.name with
    | none => rfl
    | some r => exact (Tables.key_of_query hr).1
  refine sets_putSession (sessionId_headerFor (t := t) (n := n)) ?_ put_ne_nil ?_
  · rw [queriesOf_putQuery hrow, queriesOf_ensureSession]
  · intro sid' hsid
    exact (share_write_of_ne (w := .putQuery _) hrow hsid).trans (share_ensureSession_of_ne hsid)

theorem sets_afterMessage {r : SessionQueryRow} {c : String} {sequence : Option ℤ} {clock : Clock}
    (hr : r.sessionId = h.sessionId) : Sets t (afterMessage C t h r c sequence clock) h.sessionId
      (put SessionQueryRow.key (joinedQuery r (r.entry.conversationId.getD c) sequence)
        (t.queriesOf h.sessionId)) := by
  refine sets_putSession rfl (queriesOf_putQuery hr) put_ne_nil ?_
  intro sid' hsid
  exact share_write_of_ne (w := .putQuery _) hr hsid

theorem sets_afterDeletion : Sets t (afterDeletion C t h q) h.sessionId
    (remaining t q h.sessionId) := by
  have hrows : (t.write (.deleteQuery h.sessionId q)).queriesOf h.sessionId = _ :=
    queriesOf_deleteQuery
  have hother : ∀ sid', sid' ≠ h.sessionId →
      (t.write (.deleteQuery h.sessionId q)).share sid' = t.share sid' :=
    fun sid' hsid => share_write_of_ne rfl hsid
  simp only [afterDeletion, hrows]
  split
  next hempty =>
    have hnil : remaining t q h.sessionId = [] := List.length_eq_zero_iff.mp hempty
    have hshare := share_write_self (t := t.write (.deleteQuery h.sessionId q))
      (w := .deleteSession h.sessionId) rfl
    refine ⟨?_, ?_, ?_⟩
    · rw [hnil]
      exact congrArg Share.rows hshare
    · have hheader : Tables.session _ h.sessionId = none := congrArg Share.header hshare
      rw [hheader, hnil]
      simp
    · intro sid' hsid
      exact (share_write_of_ne rfl hsid).trans (hother sid' hsid)
  next hempty => exact sets_putSession rfl hrows (hempty ∘ List.length_eq_zero_iff.mpr) hother

/-! ### `deleteQuery` -/

/-- The sessions that hold a query, as the first statement of `deleteQuery` lists them. -/
def ownersOf (C : Collation) (t : Tables) (q : String) : List String :=
  (((t.queries.filter (·.queryId = q)).map (·.sessionId)).dedup).insertionSort (C.le · ·)

theorem mem_ownersOf : sid ∈ ownersOf C t q ↔ (t.query sid q).isSome := by
  have hkey : (t.query sid q).isSome ↔ ∃ r ∈ t.queries, r.key = (sid, q) := by
    simp [Tables.query, find]
  rw [hkey, ownersOf, List.mem_insertionSort, List.mem_dedup, List.mem_map]
  constructor
  · rintro ⟨r, hr, rfl⟩
    obtain ⟨hr, hq⟩ := List.mem_filter.mp hr
    exact ⟨r, hr, Prod.ext rfl (of_decide_eq_true hq)⟩
  · rintro ⟨r, hr, hkey⟩
    obtain ⟨rfl, rfl⟩ := Prod.mk.inj hkey
    exact ⟨r, List.mem_filter.mpr ⟨hr, decide_eq_true rfl⟩, rfl⟩

theorem nodup_ownersOf : (ownersOf C t q).Nodup :=
  (List.perm_insertionSort _ _).nodup_iff.mpr (List.nodup_dedup _)

/-- The query is gone from the sessions `owners`, and those without another query are gone. -/
structure DeletedFrom (t t' : Tables) (q : String) (owners : List String) : Prop where
  rows : ∀ sid ∈ owners, t'.queriesOf sid = remaining t q sid
  header : ∀ sid ∈ owners, ((t'.session sid).isSome ↔ remaining t q sid ≠ [])
  other : ∀ sid, sid ∉ owners → t'.share sid = t.share sid

theorem Sets.deletedFrom {t₁ t₂ : Tables} {owners : List String} (hsid : sid ∉ owners)
    (h : Sets t t₁ sid (remaining t q sid)) (h' : DeletedFrom t₁ t₂ q owners) :
    DeletedFrom t t₂ q (sid :: owners) := by
  have hself : t₂.share sid = t₁.share sid := h'.other sid hsid
  have hne : ∀ sid' ∈ owners, sid' ≠ sid := fun sid' hmem he => hsid (he ▸ hmem)
  have hremaining : ∀ sid' ∈ owners, remaining t₁ q sid' = remaining t q sid' := by
    intro sid' hmem
    rw [remaining, show t₁.queriesOf sid' = t.queriesOf sid' from
      congrArg Share.rows (h.other sid' (hne sid' hmem))]
    rfl
  refine ⟨?_, ?_, ?_⟩
  · intro sid' hmem
    obtain rfl | hmem := List.mem_cons.mp hmem
    · exact (congrArg Share.rows hself).trans h.rows
    · rw [h'.rows sid' hmem, hremaining sid' hmem]
  · intro sid' hmem
    obtain rfl | hmem := List.mem_cons.mp hmem
    · rw [show t₂.session sid' = t₁.session sid' from congrArg Share.header hself]
      exact h.header
    · rw [h'.header sid' hmem, hremaining sid' hmem]
  · intro sid' hmem
    rw [List.mem_cons, not_or] at hmem
    rw [h'.other sid' hmem.2, h.other sid' hmem.1]

theorem run_notifySurvivors {removed : ℕ} (l : List String) :
    (notifySurvivors q removed l : Call (dialect C) Notification ℕ).run n t =
      ⟨t, n, l.map (·, q), some removed⟩ := by
  induction l with
  | nil => rfl
  | cons sid l ih => simp only [notifySurvivors, Call.run, ih, List.map_cons]

theorem run_deleteQueryFrom {owners : List String} (removed : ℕ) (survivors : List String)
    (hn : owners.Nodup)
    (h : ∀ sid ∈ owners, (t.session sid).isSome ∧ (t.query sid q).isSome) :
    let o := (deleteQueryFrom q owners removed survivors : Call (dialect C) Notification ℕ).run n t
    DeletedFrom t o.tables q owners ∧
      o.notified =
        (survivors ++ owners.filter fun sid => remaining t q sid ≠ []).map (·, q) ∧
      o.result.isSome := by
  induction owners generalizing t n removed survivors with
  | nil =>
    simp only [deleteQueryFrom, run_notifySurvivors]
    exact ⟨⟨by simp, by simp, fun _ _ => rfl⟩, by simp, rfl⟩
  | cons sid owners ih =>
    rw [List.nodup_cons] at hn
    obtain ⟨hs, hr⟩ := h sid List.mem_cons_self
    obtain ⟨header, hs⟩ := Option.isSome_iff_exists.mp hs
    obtain ⟨r, hr⟩ := Option.isSome_iff_exists.mp hr
    obtain rfl : header.sessionId = sid := Tables.sessionId_of_session hs
    obtain ⟨m, hrun⟩ := run_deleteQueryTx (C := C) (n := n) hs hr
    have hsets : Sets t (afterDeletion C t header q) header.sessionId _ := sets_afterDeletion
    set t₁ := afterDeletion C t header q with ht₁
    have hshare : ∀ sid' ∈ owners, t₁.share sid' = t.share sid' :=
      fun sid' hmem => hsets.other sid' fun he => hn.1 (he ▸ hmem)
    have hothers : ∀ sid' ∈ owners, (t₁.session sid').isSome ∧ (t₁.query sid' q).isSome := by
      intro sid' hmem
      rw [show t₁.session sid' = t.session sid' from congrArg Share.header (hshare sid' hmem),
        Tables.query_eq, hshare sid' hmem, ← Tables.query_eq]
      exact h sid' (List.mem_cons_of_mem _ hmem)
    have hremaining : owners.filter (fun sid' => remaining t₁ q sid' ≠ []) =
        owners.filter fun sid' => remaining t q sid' ≠ [] := by
      apply List.filter_congr
      intro sid' hmem
      rw [remaining, remaining, show t₁.queriesOf sid' = t.queriesOf sid' from
        congrArg Share.rows (hshare sid' hmem)]
    simp only [deleteQueryFrom, Call.run, hrun]
    obtain ⟨hdeleted, hnotified, hresult⟩ := ih (t := t₁) (n := m) (removed + 1)
      (if decide (((t.write (.deleteQuery header.sessionId q)).queriesOf
        header.sessionId).length ≠ 0) then survivors ++ [header.sessionId] else survivors)
      hn.2 hothers
    refine ⟨hsets.deletedFrom hn.1 hdeleted, ?_, hresult⟩
    rw [hnotified, hremaining, queriesOf_deleteQuery]
    by_cases hempty : remaining t q header.sessionId = [] <;> simp [hempty]

/-- What `deleteQuery` does. -/
theorem run_deleteQuery (ht : TablesSound C t) :
    let o := (deleteQuery q : Call (dialect C) Notification ℕ).run n t
    DeletedFrom t o.tables q (ownersOf C t q) ∧
      o.notified =
        ((ownersOf C t q).filter fun sid => remaining t q sid ≠ []).map (·, q) ∧
      o.result.isSome := by
  have howners : ∀ sid ∈ ownersOf C t q, (t.session sid).isSome ∧ (t.query sid q).isSome := by
    intro sid hmem
    have hquery := mem_ownersOf.mp hmem
    obtain ⟨r, hr⟩ := Option.isSome_iff_exists.mp hquery
    refine ⟨isSome_of_mem_queriesOf ht (r := r) ?_, hquery⟩
    rw [Tables.query_eq] at hr
    exact mem_of_find hr
  exact run_deleteQueryFrom 0 [] nodup_ownersOf howners

end Ark.Session
