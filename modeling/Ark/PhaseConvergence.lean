import Ark.SessionRuns
import Mathlib.Data.List.Pairwise

/-!
# The phase of a query under reordered and repeated events

Only terminal events newer than the last one applied change the phase of an existing row, so the
outcome of a delivery order is decided by its first event and by the terminal events that arrive
in increasing order. `OrderIrrelevant` is the exact condition on a set of events under which every
delivery order ends like the order of their sequences.
-/

namespace Ark.Session

open ReadCommitted

/-- An event of one query with its position in the event stream. -/
structure QueryEvent (sid q : String) where
  data : SessionEventData
  sequence : ℕ
  sessionId_eq : nonEmpty data.sessionId = some sid
  queryName_eq : nonEmpty data.queryName = some q
  sequence_pos : 0 < sequence

/-- A finite set of events with distinct sequences, listed by sequence. -/
structure EventSet (sid q : String) where
  events : List (QueryEvent sid q)
  increasing : events.Pairwise (·.sequence < ·.sequence)

variable {C : Collation} {sid q : String}

namespace QueryEvent

def phase (e : QueryEvent sid q) : QueryPhase := e.data.phase

def error (e : QueryEvent sid q) : Option String := e.data.error

def terminal (e : QueryEvent sid q) : Bool := isTerminalPhase e.phase

end QueryEvent

/-- One delivery to a replica whose clocks read `x.2`; the number makes fresh row versions. -/
def deliver (C : Collation) (s : Tables × ℕ) (x : QueryEvent sid q × Clock) : Tables × ℕ :=
  let o := (applyEvent (C := C) x.1.data (some x.1.sequence) x.2).run s.2 s.1
  (o.tables, o.next)

/-- The query row after the deliveries. -/
def finalRow (C : Collation) (s : Tables × ℕ) (deliveries : List (QueryEvent sid q × Clock)) :
    Option SessionQueryRow :=
  (deliveries.foldl (deliver C) s).1.query sid q

def phaseAndError (r : SessionQueryRow) : QueryPhase × Option String :=
  (r.entry.phase, r.entry.error)

/-- Every delivery of exactly these events, in any order and with any repetitions, leaves the
phase and error that delivering them once each by sequence leaves. -/
def Converges (C : Collation) (S : EventSet sid q) : Prop :=
  ∀ (t : Tables) (n : ℕ), t.query sid q = none →
    ∀ deliveries inOrder : List (QueryEvent sid q × Clock),
      (∀ e, e ∈ deliveries.map (·.1) ↔ e ∈ S.events) → inOrder.map (·.1) = S.events →
        (finalRow C (t, n) deliveries).map phaseAndError =
          (finalRow C (t, n) inOrder).map phaseAndError

/-- The terminal event with the highest sequence. -/
def EventSet.last (S : EventSet sid q) : Option (QueryEvent sid q) :=
  (S.events.filter (·.terminal)).getLast?

def EventSet.OrderIrrelevant (S : EventSet sid q) : Prop :=
  match S.last with
  | none => ∀ x ∈ S.events, ∀ y ∈ S.events, x.error = y.error
  | some t =>
    match t.phase with
    | .error => True
    | .done =>
      (∀ x ∈ S.events, x = t) ∨ (t.error = none ∧ ∀ x ∈ S.events, x.phase ≠ .canceled)
    | _ =>
      (∀ x ∈ S.events, x.phase ≠ .error ∧ x.error = t.error) ∧
        (t.error = none ∨ ∀ d ∈ S.events, d.phase = .done →
          ∀ x ∈ S.events, x.phase = .running ∨ x.phase = .done → x = d)

/-! ### The phase columns -/

/-- The columns that decide a query's phase. -/
structure PhaseRecord where
  phase : QueryPhase
  error : Option String
  watermark : ℤ

namespace PhaseRecord

/-- A terminal event newer than the watermark. -/
def settle (p : PhaseRecord) (e : QueryEvent sid q) : PhaseRecord :=
  if e.phase = .error then ⟨.error, e.error, e.sequence⟩
  else if e.phase = .canceled ∧ p.phase ≠ .error then ⟨.canceled, p.error, e.sequence⟩
  else if e.phase = .done ∧ p.phase ≠ .canceled then ⟨.done, none, e.sequence⟩
  else ⟨p.phase, p.error, e.sequence⟩

def first (e : QueryEvent sid q) : PhaseRecord :=
  ⟨e.phase, e.error, if e.terminal then e.sequence else 0⟩

def next : Option PhaseRecord → QueryEvent sid q → PhaseRecord
  | none, e => first e
  | some p, e => if e.terminal ∧ p.watermark < e.sequence then p.settle e else p

/-- The record after the deliveries of a list. -/
def final (l : List (QueryEvent sid q)) : Option PhaseRecord :=
  l.foldl (fun p e => some (next p e)) none

@[simp] theorem final_nil : final ([] : List (QueryEvent sid q)) = none := rfl

@[simp] theorem final_snoc (l : List (QueryEvent sid q)) (e : QueryEvent sid q) :
    final (l ++ [e]) = some (next (final l) e) := by
  simp [final]

end PhaseRecord

def phaseRecord (r : SessionQueryRow) : PhaseRecord :=
  ⟨r.entry.phase, r.entry.error, r.lastPhaseEventSequence⟩

/-- The phase watermark of a row never passes its event watermark. -/
def WatermarksOrdered (r : SessionQueryRow) : Prop :=
  0 ≤ r.lastPhaseEventSequence ∧ r.lastPhaseEventSequence ≤ r.lastAppliedEventSequence

theorem decidePhase_of_not_terminal {e : QueryEntry} {phase : QueryPhase} {now : ℕ}
    {errorMsg : Option String} (h : isTerminalPhase phase = false) :
    decidePhase e phase now errorMsg = e := by
  simp only [isTerminalPhase, Bool.or_eq_false_iff, decide_eq_false_iff_not] at h
  simp [decidePhase, h.1.1, h.1.2, h.2]

theorem settle_eq {entry : QueryEntry} {e : QueryEvent sid q} {w : ℤ} (now : ℕ) (b : Bool) :
    PhaseRecord.settle ⟨entry.phase, entry.error, w⟩ e =
      ⟨(applyQueryPhase entry e.phase now e.error b).phase,
        (applyQueryPhase entry e.phase now e.error b).error, e.sequence⟩ := by
  unfold PhaseRecord.settle applyQueryPhase decidePhase
  cases b <;> split_ifs <;> simp_all

theorem phaseSequence_eq (e : QueryEvent sid q) :
    phaseSequence e.data (some (e.sequence : ℤ)) = if e.terminal then (e.sequence : ℤ) else 0 :=
  rfl

/-- What an event does to the phase columns of an existing row. -/
theorem phaseRecord_updatedQuery {r : SessionQueryRow} {e : QueryEvent sid q} {entry : QueryEntry}
    {now : ℕ} (hr : WatermarksOrdered r)
    (h : appliedEntry r e.phase (normalizeEventData e.data) e.error (some e.sequence) now =
      some entry) :
    phaseRecord (updatedQuery r entry (some e.sequence) (phaseSequence e.data (some e.sequence))) =
      PhaseRecord.next (some (phaseRecord r)) e := by
  obtain ⟨hP, hPW⟩ := hr
  set merged := (mergeQueryMetadata r.entry (normalizeEventData e.data)).1 with hm
  have hrecord : phaseRecord r = ⟨merged.phase, merged.error, r.lastPhaseEventSequence⟩ := rfl
  have happlied (b : Bool) (hnew : r.lastPhaseEventSequence < e.sequence)
      (he : entry = applyQueryPhase merged e.phase now e.error b) :
      phaseRecord (updatedQuery r entry (some e.sequence)
        (phaseSequence e.data (some e.sequence))) = PhaseRecord.next (some (phaseRecord r)) e := by
    subst he
    by_cases hterm : e.terminal = true
    · rw [PhaseRecord.next, if_pos ⟨hterm, hnew⟩, hrecord, settle_eq now b]
      simp [phaseRecord, updatedQuery, phaseSequence_eq, hterm, hnew.le]
    · have hnot : isTerminalPhase e.phase = false := by simpa [QueryEvent.terminal] using hterm
      rw [PhaseRecord.next, if_neg fun hc => hterm hc.1, applyQueryPhase,
        decidePhase_of_not_terminal hnot, hrecord]
      cases b <;> simp [phaseRecord, updatedQuery, phaseSequence_eq, hterm, hP]
  obtain ⟨-, -, -, ho⟩ | ⟨hs, ho⟩ | ⟨-, -, hp, ho⟩ | ⟨-, -, hp, ho⟩ :=
    appliedEntry_cases r e.phase (normalizeEventData e.data) e.error (some e.sequence) now
  · cases h.symm.trans ho
  · apply happlied true _ (Option.some.inj (h.symm.trans ho))
    have : r.lastAppliedEventSequence < e.sequence := by simpa [stale] using hs
    omega
  · apply happlied false _ (Option.some.inj (h.symm.trans ho))
    simpa [phaseStale] using hp
  · obtain rfl := Option.some.inj (h.symm.trans ho)
    have hskip : ¬ (e.terminal = true ∧ (phaseRecord r).watermark < e.sequence) := by
      rintro ⟨hterm, hnew⟩
      obtain hp | hp := hp
      · exact absurd hterm (by simp [QueryEvent.terminal, hp])
      · exact absurd hnew (by simpa [phaseStale, phaseRecord] using hp)
    rw [PhaseRecord.next, if_neg hskip, hrecord]
    by_cases hterm : e.terminal = true
    · have : (e.sequence : ℤ) ≤ r.lastPhaseEventSequence := by
        by_contra hc
        exact hskip ⟨hterm, not_le.mp hc⟩
      simp [phaseRecord, updatedQuery, phaseSequence_eq, hterm, this, ← hm]
    · simp [phaseRecord, updatedQuery, phaseSequence_eq, hterm, hP, ← hm]

/-- An event that leaves the row alone changes no record. -/
theorem next_of_appliedEntry_none {r : SessionQueryRow} {e : QueryEvent sid q} {now : ℕ}
    (h : appliedEntry r e.phase (normalizeEventData e.data) e.error (some e.sequence) now = none) :
    PhaseRecord.next (some (phaseRecord r)) e = phaseRecord r := by
  obtain ⟨-, -, hp, -⟩ | ⟨-, ho⟩ | ⟨-, -, -, ho⟩ | ⟨-, -, -, ho⟩ :=
    appliedEntry_cases r e.phase (normalizeEventData e.data) e.error (some e.sequence) now
  · rw [PhaseRecord.next, if_neg]
    rintro ⟨hterm, hnew⟩
    obtain hp | hp := hp
    · exact absurd hterm (by simp [QueryEvent.terminal, hp])
    · exact absurd hnew (by simpa [phaseStale, phaseRecord] using hp)
  all_goals cases h.symm.trans ho

/-- The row agrees with the record. -/
def Agrees (r : Option SessionQueryRow) (p : Option PhaseRecord) : Prop :=
  r.map phaseRecord = p ∧ ∀ x ∈ r, WatermarksOrdered x

theorem query_afterEvent {t : Tables} {n : ℕ} {d : SessionEventData} {sequence : Option ℤ}
    {clock : Clock} {entry : QueryEntry} (hname : entry.name = q) :
    (afterEvent C t n sid d sequence clock entry).query sid q =
      some (eventRow (t.query sid q) sid d sequence entry) := by
  have hkey : (eventRow (t.query sid q) sid d sequence entry).key = (sid, q) := by
    cases hr : t.query sid q with
    | none => simp [eventRow, insertedQuery, SessionQueryRow.key, SessionQueryRow.queryId, hname]
    | some r =>
      obtain ⟨hsid, hq⟩ := Tables.key_of_query hr
      simpa [eventRow, updatedQuery, SessionQueryRow.key, SessionQueryRow.queryId] using
        ⟨hsid, hq⟩
  rw [afterEvent, hname, Tables.query_putSession, Tables.query_putQuery, if_pos hkey.symm]

/-- One delivery refines one step of the record. -/
theorem agrees_deliver {s : Tables × ℕ} {x : QueryEvent sid q × Clock} {p : Option PhaseRecord}
    (h : Agrees (s.1.query sid q) p) :
    Agrees ((deliver C s x).1.query sid q) (some (PhaseRecord.next p x.1)) := by
  obtain ⟨e, clock⟩ := x
  obtain ⟨hmap, hord⟩ := h
  have hname : ∀ r ∈ s.1.query sid q, r.queryId = q := fun r hr => (Tables.key_of_query hr).2
  simp only [deliver, applyEvent, e.sessionId_eq, e.queryName_eq, Call.run, run_applyEventTx]
  cases he : eventEntry (s.1.query sid q) q e.data (some e.sequence) clock.now with
  | none =>
    simp only [Bool.false_eq_true, if_false, Call.run, query_ensureSession]
    cases hr : s.1.query sid q with
    | none =>
      rw [hr] at he
      cases he
    | some r =>
      rw [hr] at he hmap hord
      obtain rfl : some (phaseRecord r) = p := hmap
      refine ⟨?_, hord⟩
      rw [next_of_appliedEntry_none he]
      rfl
  | some entry =>
    simp only [if_true, Call.run, query_afterEvent (name_eventEntry hname he)]
    have hpos : (0 : ℤ) < e.sequence := by exact_mod_cast e.sequence_pos
    cases hr : s.1.query sid q with
    | none =>
      rw [hr] at he hmap
      obtain rfl : none = p := hmap
      obtain rfl := Option.some.inj he
      refine ⟨rfl, ?_⟩
      rintro x ⟨⟩
      simp only [WatermarksOrdered, eventRow, insertedQuery, phaseSequence_eq, Option.getD_some]
      split <;> omega
    | some r =>
      rw [hr] at he hmap hord
      obtain rfl : some (phaseRecord r) = p := hmap
      refine ⟨?_, ?_⟩
      · rw [← phaseRecord_updatedQuery (hord r rfl) he]
        rfl
      · rintro x ⟨⟩
        obtain ⟨hP, hPW⟩ := hord r rfl
        simp only [WatermarksOrdered, eventRow, updatedQuery, phaseSequence_eq, Option.getD_some]
        split <;> omega

theorem agrees_finalRow {t : Tables} {n : ℕ} (h : t.query sid q = none)
    (ds : List (QueryEvent sid q × Clock)) :
    Agrees (finalRow C (t, n) ds) (PhaseRecord.final (ds.map (·.1))) := by
  induction ds using List.reverseRecOn with
  | nil =>
    refine ⟨?_, ?_⟩ <;> simp [finalRow, h]
  | append_singleton ds x ih =>
    have hstep := agrees_deliver (C := C) (x := x) ih
    rw [List.map_append, List.map_singleton, PhaseRecord.final_snoc]
    simpa [finalRow] using hstep

/-! ### Delivery orders -/

namespace PhaseRecord

variable {l pre post : List (QueryEvent sid q)} {e t : QueryEvent sid q} {p : PhaseRecord}

theorem exists_final (he : e ∈ l) : ∃ p, final l = some p := by
  cases l using List.reverseRecOn with
  | nil => cases he
  | append_singleton l y => exact ⟨_, final_snoc l y⟩

theorem watermark_settle : (p.settle e).watermark = e.sequence := by
  unfold settle
  split_ifs <;> rfl

theorem watermark_next_le : ∀ o : Option PhaseRecord, ∀ p ∈ o, p.watermark ≤ (next o e).watermark
  | some p, _, rfl => by
    rw [next]
    split
    next h => exact watermark_settle.symm ▸ h.2.le
    next => exact le_rfl

theorem sequence_le_watermark_next (he : e.terminal = true) :
    ∀ o : Option PhaseRecord, (e.sequence : ℤ) ≤ (next o e).watermark
  | none => by simp [next, first, he]
  | some p => by
    rw [next]
    split
    next => exact watermark_settle.symm ▸ le_rfl
    next h => exact not_lt.mp fun hlt => h ⟨he, hlt⟩

/-- Every terminal event that arrived is at most the watermark. -/
theorem sequence_le_watermark (hp : final l = some p) :
    ∀ e ∈ l, e.terminal = true → (e.sequence : ℤ) ≤ p.watermark := by
  induction l using List.reverseRecOn generalizing p with
  | nil => cases hp
  | append_singleton l x ih =>
    rw [final_snoc] at hp
    obtain rfl := Option.some.inj hp
    intro e he hterm
    obtain he | he := List.mem_append.mp he
    · obtain ⟨p', hp'⟩ := exists_final he
      exact (ih hp' e he hterm).trans (watermark_next_le _ p' hp')
    · obtain rfl := List.mem_singleton.mp he
      exact sequence_le_watermark_next hterm _

/-- The watermark is the sequence of a terminal event that arrived, or zero. -/
theorem watermark_cases (hp : final l = some p) :
    p.watermark = 0 ∨ ∃ e ∈ l, e.terminal = true ∧ p.watermark = e.sequence := by
  induction l using List.reverseRecOn generalizing p with
  | nil => cases hp
  | append_singleton l x ih =>
    rw [final_snoc] at hp
    obtain rfl := Option.some.inj hp
    have hx : x ∈ l ++ [x] := List.mem_append_right l (List.mem_singleton_self x)
    cases hl : final l with
    | none =>
      by_cases hterm : x.terminal = true
      · exact .inr ⟨x, hx, hterm, by simp [next, first, hterm]⟩
      · exact .inl (by simp [next, first, hterm])
    | some p' =>
      rw [next]
      split
      next h => exact .inr ⟨x, hx, h.1, watermark_settle⟩
      next =>
        refine (ih hl).imp_right ?_
        rintro ⟨e, he, h⟩
        exact ⟨e, List.mem_append_left _ he, h⟩

/-- After the last terminal event nothing changes the record. -/
theorem final_append_of_last (ht : t ∈ pre) (hterm : t.terminal = true)
    (hpost : ∀ e ∈ post, e.terminal = true → e.sequence ≤ t.sequence) :
    final (pre ++ post) = final pre := by
  induction post using List.reverseRecOn with
  | nil => rw [List.append_nil]
  | append_singleton post x ih =>
    have ih := ih fun e he => hpost e (List.mem_append_left _ he)
    rw [← List.append_assoc, final_snoc, ih]
    obtain ⟨p, hp⟩ := exists_final ht
    have hle := sequence_le_watermark hp t ht hterm
    rw [hp, next, if_neg]
    rintro ⟨hx, hnew⟩
    have := hpost x (by simp) hx
    omega

/-- The record once `t` arrives before every newer terminal event. -/
def endsWith (t : QueryEvent sid q) : Option PhaseRecord → PhaseRecord
  | none => first t
  | some p => p.settle t

/-- A delivery order ends with its last terminal event, whose first arrival finds what some of the
other events left. -/
theorem final_of_last (ht : t ∈ l) (hterm : t.terminal = true)
    (hlast : ∀ e ∈ l, e.terminal = true → e ≠ t → e.sequence < t.sequence) :
    ∃ pre : List (QueryEvent sid q), (∀ e ∈ pre, e ∈ l ∧ e ≠ t) ∧
      final l = some (endsWith t (final pre)) := by
  obtain ⟨pre, post, rfl, hpre⟩ := List.eq_append_cons_of_mem ht
  have hmem : ∀ e ∈ pre, e ∈ pre ++ t :: post ∧ e ≠ t := fun e he =>
    ⟨List.mem_append_left _ he, fun h => hpre (h ▸ he)⟩
  have hpost : ∀ e ∈ post, e.terminal = true → e.sequence ≤ t.sequence := by
    intro e he hte
    by_cases h : e = t
    · rw [h]
    · exact (hlast e (by simp [he]) hte h).le
  refine ⟨pre, hmem, ?_⟩
  rw [List.append_cons, final_append_of_last (t := t) (by simp) hterm hpost, final_snoc]
  cases hp : final pre with
  | none => rfl
  | some p =>
    have hnew : p.watermark < t.sequence := by
      obtain h | ⟨e, he, hte, h⟩ := watermark_cases hp
      · rw [h]
        exact_mod_cast t.sequence_pos
      · rw [h]
        exact_mod_cast hlast e (hmem e he).1 hte (hmem e he).2
    rw [next, if_pos ⟨hterm, hnew⟩]
    rfl

theorem phase_settle : (p.settle e).phase = e.phase ∨ (p.settle e).phase = p.phase := by
  unfold settle
  split_ifs with h₁ h₂ h₃
  · exact .inl h₁.symm
  · exact .inl h₂.1.symm
  · exact .inl h₃.1.symm
  · exact .inr rfl

/-- The phase is that of an event that arrived. -/
theorem phase_mem (hp : final l = some p) : ∃ e ∈ l, e.phase = p.phase := by
  induction l using List.reverseRecOn generalizing p with
  | nil => cases hp
  | append_singleton l x ih =>
    rw [final_snoc] at hp
    obtain rfl := Option.some.inj hp
    have hx : x ∈ l ++ [x] := List.mem_append_right l (List.mem_singleton_self x)
    have hold : ∀ p', final l = some p' → ∃ e ∈ l ++ [x], e.phase = p'.phase := by
      intro p' hl
      obtain ⟨e, he, h⟩ := ih hl
      exact ⟨e, List.mem_append_left _ he, h⟩
    cases hl : final l with
    | none => exact ⟨x, hx, rfl⟩
    | some p' =>
      rw [next]
      split
      next =>
        obtain h | h := phase_settle (p := p') (e := x)
        · exact ⟨x, hx, h.symm⟩
        · exact h ▸ hold p' hl
      next => exact hold p' hl

theorem error_none (hp : final l = some p) (he : ∀ e ∈ l, e.error = none) : p.error = none := by
  induction l using List.reverseRecOn generalizing p with
  | nil => cases hp
  | append_singleton l x ih =>
    rw [final_snoc] at hp
    obtain rfl := Option.some.inj hp
    have hx := he x (by simp)
    cases hl : final l with
    | none => exact hx
    | some p' =>
      have ih := ih hl fun e hm => he e (List.mem_append_left _ hm)
      simp only [next, settle]
      split_ifs <;> first | exact hx | exact ih | rfl

end PhaseRecord

theorem QueryEvent.phase_cases (e : QueryEvent sid q) :
    e.phase = .running ∨ e.phase = .done ∨ e.phase = .error ∨ e.phase = .canceled := by
  unfold QueryEvent.phase SessionEventData.phase resolveQueryPhase
  split_ifs <;> simp

namespace PhaseRecord

variable {l : List (QueryEvent sid q)} {p : PhaseRecord} {v : Option String}

/-- Where no event failed and a `done` stands neither beside a `running` nor beside another
`done`, the error of the first event stays. -/
theorem error_of_single_done (hp : final l = some p) (he : ∀ e ∈ l, e.phase ≠ .error)
    (hv : ∀ e ∈ l, e.error = v)
    (hd : ∀ d ∈ l, d.phase = .done → ∀ x ∈ l, x.phase = .running ∨ x.phase = .done → x = d) :
    p.error = v ∧ (p.phase = .canceled ∨ (p.phase = .running ∧ ∃ x ∈ l, x.phase = .running) ∨
      (p.phase = .done ∧ ∃ d ∈ l, d.phase = .done ∧ (d.sequence : ℤ) ≤ p.watermark)) := by
  induction l using List.reverseRecOn generalizing p with
  | nil => cases hp
  | append_singleton l x ih =>
    rw [final_snoc] at hp
    obtain rfl := Option.some.inj hp
    have hx : x ∈ l ++ [x] := List.mem_append_right l (List.mem_singleton_self x)
    have hl : ∀ e ∈ l, e ∈ l ++ [x] := fun e => List.mem_append_left _
    cases hp' : final l with
    | none =>
      refine ⟨hv x hx, ?_⟩
      obtain h | h | h | h := x.phase_cases
      · exact .inr (.inl ⟨h, x, hx, h⟩)
      · refine .inr (.inr ⟨h, x, hx, h, ?_⟩)
        exact sequence_le_watermark_next (by simp [QueryEvent.terminal, isTerminalPhase, h]) none
      · exact absurd h (he x hx)
      · exact .inl h
    | some p' =>
      obtain ⟨herr, hcases⟩ := ih hp' (fun e h => he e (hl e h)) (fun e h => hv e (hl e h))
        fun d h hdone y hy => hd d (hl d h) hdone y (hl y hy)
      rw [next]
      split
      next hnew =>
        by_cases hxc : x.phase = .canceled
        · have hne : p'.phase ≠ .error := by
            obtain hc | ⟨hr, -⟩ | ⟨hdone, -⟩ := hcases <;> simp [*]
          simp [settle, hxc, hne, herr]
        · have hxd : x.phase = .done := by
            obtain h | h | h | h := x.phase_cases
            · exact absurd hnew.1 (by simp [QueryEvent.terminal, isTerminalPhase, h])
            · exact h
            · exact absurd h (he x hx)
            · exact absurd h hxc
          -- only a canceled query may precede the `done`
          obtain hc | ⟨-, y, hy, hyr⟩ | ⟨-, d, hdl, hdd, hle⟩ := hcases
          · simp [settle, hxd, hc, herr]
          · have hyx := hd x hx hxd y (hl y hy) (.inl hyr)
            exact absurd (hyr.symm.trans (hyx ▸ hxd)) (by simp)
          · have hdx := hd x hx hxd d (hl d hdl) (.inr hdd)
            rw [hdx] at hle
            omega
      next =>
        refine ⟨herr, ?_⟩
        obtain hc | ⟨hr, y, hy, hyr⟩ | ⟨hdone, d, hdl, hdd, hle⟩ := hcases
        · exact .inl hc
        · exact .inr (.inl ⟨hr, y, hl y hy, hyr⟩)
        · exact .inr (.inr ⟨hdone, d, hl d hdl, hdd, hle⟩)

end PhaseRecord

/-! ### The exact condition -/

/-- What a delivery order shows in the end. -/
def outcome (l : List (QueryEvent sid q)) : Option (QueryPhase × Option String) :=
  (PhaseRecord.final l).map fun p => (p.phase, p.error)

theorem phaseAndError_finalRow {t : Tables} {n : ℕ} (h : t.query sid q = none)
    (ds : List (QueryEvent sid q × Clock)) :
    (finalRow C (t, n) ds).map phaseAndError = outcome (ds.map (·.1)) := by
  rw [outcome, ← (agrees_finalRow (C := C) (n := n) h ds).1, Option.map_map]
  rfl

theorem converges_iff_outcome (S : EventSet sid q) :
    Converges C S ↔
      ∀ l : List (QueryEvent sid q), (∀ e, e ∈ l ↔ e ∈ S.events) → outcome l = outcome S.events := by
  constructor
  · intro h l hl
    have hall := h Tables.empty 0 rfl (l.map (·, ⟨0, 0, 0⟩)) (S.events.map (·, ⟨0, 0, 0⟩))
    rw [phaseAndError_finalRow rfl, phaseAndError_finalRow rfl] at hall
    simpa [Function.comp_def] using hall (by simpa [Function.comp_def] using hl)
      (by simp [Function.comp_def])
  · intro h t n ht ds inOrder hds hin
    rw [phaseAndError_finalRow ht, phaseAndError_finalRow ht, hin]
    exact h _ hds

namespace EventSet

variable {S : EventSet sid q} {t : QueryEvent sid q}

theorem not_terminal_of_last (h : S.last = none) : ∀ e ∈ S.events, e.terminal = false := by
  intro e he
  have hnil := List.getLast?_eq_none_iff.mp h
  simpa using List.filter_eq_nil_iff.mp hnil e he

theorem last_spec (h : S.last = some t) : t ∈ S.events ∧ t.terminal = true ∧
    ∀ e ∈ S.events, e.terminal = true → e ≠ t → e.sequence < t.sequence := by
  have hmem := List.mem_of_getLast? h
  rw [List.mem_filter] at hmem
  refine ⟨hmem.1, hmem.2, ?_⟩
  intro e he hterm hne
  obtain ⟨pre, hpre⟩ := List.getLast?_eq_some_iff.mp h
  have hsorted := S.increasing.filter (·.terminal)
  have hefilter : e ∈ S.events.filter (·.terminal) := List.mem_filter.mpr ⟨he, hterm⟩
  rw [hpre] at hsorted hefilter
  obtain hm | hm := List.mem_append.mp hefilter
  · exact (List.pairwise_append.mp hsorted).2.2 e hm t (List.mem_singleton_self t)
  · exact absurd (List.mem_singleton.mp hm) hne

/-- Every delivery order of `S` ends with its last terminal event. -/
theorem outcome_of_last (h : S.last = some t) {l : List (QueryEvent sid q)}
    (hl : ∀ e, e ∈ l ↔ e ∈ S.events) :
    ∃ pre : List (QueryEvent sid q), (∀ e ∈ pre, e ∈ S.events ∧ e ≠ t) ∧
      PhaseRecord.final l = some (PhaseRecord.endsWith t (PhaseRecord.final pre)) := by
  obtain ⟨ht, hterm, hlast⟩ := last_spec h
  obtain ⟨pre, hpre, hfinal⟩ := PhaseRecord.final_of_last ((hl t).mpr ht) hterm
    fun e he => hlast e ((hl e).mp he)
  exact ⟨pre, fun e he => ⟨(hl e).mp (hpre e he).1, (hpre e he).2⟩, hfinal⟩

/-- A delivery may begin with any events that end with the last terminal one. -/
theorem outcome_prefix (h : S.last = some t) {pre : List (QueryEvent sid q)} (ht : t ∈ pre) :
    outcome (pre ++ S.events) = outcome pre := by
  obtain ⟨-, hterm, hlast⟩ := last_spec h
  have hpost : ∀ e ∈ S.events, e.terminal = true → e.sequence ≤ t.sequence := by
    intro e he hte
    by_cases hne : e = t
    · rw [hne]
    · exact (hlast e he hte hne).le
  rw [outcome, PhaseRecord.final_append_of_last ht hterm hpost]
  rfl

theorem final_of_no_terminal {l : List (QueryEvent sid q)} (h : ∀ e ∈ l, e.terminal = false) :
    PhaseRecord.final l = l.head?.map PhaseRecord.first := by
  induction l using List.reverseRecOn with
  | nil => rfl
  | append_singleton l x ih =>
    have hx := h x (by simp)
    rw [PhaseRecord.final_snoc, ih fun e he => h e (List.mem_append_left _ he)]
    cases l <;> simp [PhaseRecord.next, hx]

/-- Under the condition every delivery order shows the last terminal event. -/
theorem outcome_of_irrelevant (h : S.last = some t) (hS : S.OrderIrrelevant)
    {l : List (QueryEvent sid q)} (hl : ∀ e, e ∈ l ↔ e ∈ S.events) :
    outcome l = some (t.phase, t.error) := by
  obtain ⟨pre, hpre, hfinal⟩ := outcome_of_last h hl
  obtain ⟨ht, hterm, hlast⟩ := last_spec h
  simp only [OrderIrrelevant, h] at hS
  rw [outcome, hfinal]
  cases hp : PhaseRecord.final pre with
  | none => rfl
  | some p =>
    obtain ⟨x, hx, hxp⟩ := PhaseRecord.phase_mem hp
    obtain ⟨hxS, hxt⟩ := hpre x hx
    obtain hphase | hphase | hphase | hphase := t.phase_cases
    · exact absurd hterm (by simp [QueryEvent.terminal, isTerminalPhase, hphase])
    · simp only [hphase] at hS
      obtain honly | ⟨hnone, hcanceled⟩ := hS
      · exact absurd (honly x hxS) hxt
      · have hne : p.phase ≠ .canceled := hxp ▸ hcanceled x hxS
        simp [PhaseRecord.endsWith, PhaseRecord.settle, hphase, hne, hnone]
    · simp [PhaseRecord.endsWith, PhaseRecord.settle, hphase]
    · simp only [hphase] at hS
      obtain ⟨hall, hdone⟩ := hS
      have hne : p.phase ≠ .error := hxp ▸ (hall x hxS).1
      have herror : p.error = t.error := by
        obtain hnone | hdone := hdone
        · rw [hnone]
          exact PhaseRecord.error_none hp fun e he => (hall e (hpre e he).1).2.trans hnone
        · refine (PhaseRecord.error_of_single_done hp (fun e he => (hall e (hpre e he).1).1)
            (fun e he => (hall e (hpre e he).1).2) ?_).1
          exact fun d hd hdd y hy => hdone d (hpre d hd).1 hdd y (hpre y hy).1
      simp [PhaseRecord.endsWith, PhaseRecord.settle, hphase, hne, herror]

theorem watermark_first_lt {x y : QueryEvent sid q}
    (h : x.terminal = true → x.sequence < y.sequence) :
    (PhaseRecord.first x).watermark < y.sequence := by
  have := y.sequence_pos
  by_cases hx : x.terminal = true
  · simpa [PhaseRecord.first, hx] using h hx
  · simpa [PhaseRecord.first, hx] using this

theorem outcome_pair (h : S.last = some t) {x : QueryEvent sid q} (hx : x ∈ S.events)
    (hne : x ≠ t) :
    outcome [x, t] = some (((PhaseRecord.first x).settle t).phase,
      ((PhaseRecord.first x).settle t).error) := by
  obtain ⟨ht, hterm, hlast⟩ := last_spec h
  have hlt := watermark_first_lt fun hxt => hlast x hx hxt hne
  simp [outcome, PhaseRecord.final, PhaseRecord.next, hterm, hlt]

theorem outcome_triple (h : S.last = some t) {x d : QueryEvent sid q} (hd : d ∈ S.events)
    (hdterm : d.terminal = true) (hdt : d ≠ t) (hxd : x.terminal = true → x.sequence < d.sequence) :
    outcome [x, d, t] = some ((((PhaseRecord.first x).settle d).settle t).phase,
      (((PhaseRecord.first x).settle d).settle t).error) := by
  obtain ⟨ht, hterm, hlast⟩ := last_spec h
  have hlt := watermark_first_lt hxd
  have hlt' := hlast d hd hdterm hdt
  simp [outcome, PhaseRecord.final, PhaseRecord.next, hterm, hdterm, hlt,
    PhaseRecord.watermark_settle, hlt']

/-- Where the delivery order is irrelevant, every beginning that ends with the last terminal event
shows that event. -/
theorem outcome_beginning (h : S.last = some t)
    (hS : ∀ l : List (QueryEvent sid q), (∀ e, e ∈ l ↔ e ∈ S.events) → outcome l = outcome S.events)
    {pre : List (QueryEvent sid q)} (ht : t ∈ pre) (hpre : ∀ e ∈ pre, e ∈ S.events) :
    outcome pre = some (t.phase, t.error) := by
  have hbegin : ∀ pre : List (QueryEvent sid q), t ∈ pre → (∀ e ∈ pre, e ∈ S.events) →
      outcome pre = outcome S.events := by
    intro pre ht hpre
    rw [← outcome_prefix h ht]
    apply hS
    intro e
    rw [List.mem_append]
    exact ⟨fun he => he.elim (hpre e) id, .inr⟩
  rw [hbegin pre ht hpre, ← hbegin [t] (List.mem_singleton_self t) (by simpa using (last_spec h).1)]
  rfl

theorem sequence_ne {x y : QueryEvent sid q} (hx : x ∈ S.events) (hy : y ∈ S.events)
    (h : x ≠ y) : x.sequence ≠ y.sequence := by
  have : Std.Symm fun x y : QueryEvent sid q => x.sequence ≠ y.sequence :=
    ⟨fun _ _ hne => hne.symm⟩
  have hne : S.events.Pairwise fun x y => x.sequence ≠ y.sequence :=
    S.increasing.imp fun hlt => hlt.ne
  exact hne.forall hx hy h

/-- Two events before the last `canceled`, the second a `done` that the first lets through, erase
the error. -/
theorem error_none_of_done (h : S.last = some t) (hphase : t.phase = .canceled)
    (hS : ∀ l : List (QueryEvent sid q), (∀ e, e ∈ l ↔ e ∈ S.events) → outcome l = outcome S.events)
    {x d : QueryEvent sid q} (hx : x ∈ S.events) (hd : d ∈ S.events) (hdone : d.phase = .done)
    (hxphase : x.phase ≠ .canceled) (hxd : x.terminal = true → x.sequence < d.sequence) :
    t.error = none := by
  have hdterm : d.terminal = true := by simp [QueryEvent.terminal, isTerminalPhase, hdone]
  have hdt : d ≠ t := fun hdt => by simp [hdt, hphase] at hdone
  have hmem : ∀ e ∈ [x, d, t], e ∈ S.events := by
    simpa using ⟨hx, hd, (last_spec h).1⟩
  have hsame := (outcome_triple h hd hdterm hdt hxd).symm.trans
    (outcome_beginning h hS (by simp) hmem)
  have herror : none = t.error := by
    simpa [PhaseRecord.settle, PhaseRecord.first, hphase, hdone, hxphase] using hsame
  exact herror.symm

theorem irrelevant_of_outcome
    (hS : ∀ l : List (QueryEvent sid q), (∀ e, e ∈ l ↔ e ∈ S.events) → outcome l = outcome S.events) :
    S.OrderIrrelevant := by
  cases h : S.last with
  | none =>
    simp only [OrderIrrelevant, h]
    have hnot := not_terminal_of_last h
    have hfirst : ∀ x ∈ S.events, outcome S.events = some (x.phase, x.error) := by
      intro x hx
      have hmem : ∀ e, e ∈ x :: S.events ↔ e ∈ S.events := by
        intro e
        rw [List.mem_cons]
        exact ⟨fun he => he.elim (fun hex => hex ▸ hx) id, .inr⟩
      rw [← hS _ hmem, outcome, final_of_no_terminal fun e he => hnot e ((hmem e).mp he)]
      rfl
    intro x hx y hy
    have hxy := (hfirst x hx).symm.trans (hfirst y hy)
    simp only [Option.some.injEq, Prod.mk.injEq] at hxy
    exact hxy.2
  | some t =>
    obtain ⟨ht, hterm, hlast⟩ := last_spec h
    -- delivering `x` and then `t` has to show `t`
    have hpair : ∀ x ∈ S.events, x ≠ t →
        ((PhaseRecord.first x).settle t).phase = t.phase ∧
          ((PhaseRecord.first x).settle t).error = t.error := by
      intro x hx hne
      have hmem : ∀ e ∈ [x, t], e ∈ S.events := by simpa using ⟨hx, ht⟩
      have hsame := (outcome_pair h hx hne).symm.trans (outcome_beginning h hS (by simp) hmem)
      simpa using hsame
    simp only [OrderIrrelevant, h]
    obtain hphase | hphase | hphase | hphase := t.phase_cases
    · exact absurd hterm (by simp [QueryEvent.terminal, isTerminalPhase, hphase])
    · simp only [hphase]
      have hcanceled : ∀ x ∈ S.events, x.phase ≠ .canceled := by
        intro x hx hxc
        have hne : x ≠ t := fun hxt => by simp [hxt, hphase] at hxc
        have := (hpair x hx hne).1
        simp [PhaseRecord.settle, PhaseRecord.first, hphase, hxc] at this
      by_cases honly : ∀ x ∈ S.events, x = t
      · exact .inl honly
      · push Not at honly
        obtain ⟨x, hx, hne⟩ := honly
        have herror : none = t.error := by
          simpa [PhaseRecord.settle, PhaseRecord.first, hphase, hcanceled x hx] using
            (hpair x hx hne).2
        exact .inr ⟨herror.symm, hcanceled⟩
    · simp only [hphase]
    · simp only [hphase]
      have hnoerror : ∀ x ∈ S.events, x.phase ≠ .error := by
        intro x hx hxe
        have hne : x ≠ t := fun hxt => by simp [hxt, hphase] at hxe
        have := (hpair x hx hne).1
        simp [PhaseRecord.settle, PhaseRecord.first, hphase, hxe] at this
      refine ⟨?_, ?_⟩
      · intro x hx
        refine ⟨hnoerror x hx, ?_⟩
        by_cases hne : x = t
        · rw [hne]
        · have := (hpair x hx hne).2
          simpa [PhaseRecord.settle, PhaseRecord.first, hphase, hnoerror x hx] using this
      · by_contra hc
        push Not at hc
        obtain ⟨herror, d, hd, hdone, x, hx, hxphase, hxd⟩ := hc
        apply herror
        obtain hrunning | hxdone := hxphase
        · exact error_none_of_done h hphase hS hx hd hdone (by simp [hrunning])
            (by simp [QueryEvent.terminal, isTerminalPhase, hrunning])
        · obtain hlt | hlt := lt_or_gt_of_ne (sequence_ne hx hd hxd)
          · exact error_none_of_done h hphase hS hx hd hdone (by simp [hxdone]) fun _ => hlt
          · exact error_none_of_done h hphase hS hd hx hxdone (by simp [hdone]) fun _ => hlt

/-- Reordered and repeated events leave the phase and error of an in-order delivery exactly when
the set of events meets the condition. -/
theorem converges_iff (C : Collation) (S : EventSet sid q) : Converges C S ↔ S.OrderIrrelevant := by
  rw [converges_iff_outcome]
  refine ⟨irrelevant_of_outcome, ?_⟩
  intro hS l hl
  cases h : S.last with
  | none =>
    have hnot := not_terminal_of_last h
    simp only [OrderIrrelevant, h] at hS
    have hrunning : ∀ e ∈ S.events, e.phase = .running := by
      intro e he
      obtain hp | hp | hp | hp := e.phase_cases
      · exact hp
      all_goals exact absurd (hnot e he) (by simp [QueryEvent.terminal, isTerminalPhase, hp])
    rw [outcome, outcome, final_of_no_terminal fun e he => hnot e ((hl e).mp he),
      final_of_no_terminal hnot]
    cases hle : l with
    | nil =>
      rw [hle] at hl
      rw [List.eq_nil_iff_forall_not_mem.mpr fun e he => List.not_mem_nil ((hl e).mpr he)]
    | cons x xs =>
      have hx : x ∈ S.events := (hl x).mp (hle ▸ List.mem_cons_self)
      cases hSe : S.events with
      | nil => simp [hSe] at hx
      | cons y ys =>
        have hy : y ∈ S.events := hSe ▸ List.mem_cons_self
        simp [PhaseRecord.first, hrunning x hx, hrunning y hy, hS x hx y hy]
  | some t =>
    rw [outcome_of_irrelevant h hS hl, outcome_of_irrelevant h hS fun _ => Iff.rfl]

/-- A query that failed and is canceled afterwards. -/
def failedThenCanceled : EventSet "session-retry" "nightly" where
  events :=
    [⟨⟨some "session-retry", some "nightly", none, none, none, none, none, none, none,
        some "tool call failed", some queryExecutionComplete⟩, 4, rfl, rfl, Nat.succ_pos 3⟩,
      ⟨⟨some "session-retry", some "nightly", none, none, none, none, none, none, none, none,
        some "QueryExecutionCanceled"⟩, 9, rfl, rfl, Nat.succ_pos 8⟩]
  increasing := by simp

/-- By sequence the query stays failed; delivered the other way round it is canceled. -/
theorem not_converges_failedThenCanceled :
    ¬ Converges Collation.codePoint failedThenCanceled := by
  intro h
  have hswap := h Tables.empty 0 rfl (failedThenCanceled.events.reverse.map (·, ⟨70, 60, 50⟩))
    (failedThenCanceled.events.map (·, ⟨70, 60, 50⟩)) (by simp [Function.comp_def])
    (by simp [Function.comp_def])
  revert hswap
  decide

end EventSet

end Ark.Session
