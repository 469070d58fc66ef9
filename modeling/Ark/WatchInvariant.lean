import Ark.Cluster

/-!
# Where the rows of a watch come from

Everything queued for a watcher or being read by a relist is a committed version that the watcher
wants, no cursor passes the sequence, and a version recorded as seen was delivered unless it does
not decode. These facts hold in every run, whatever is promised of it.
-/

namespace Ark

namespace PostgresWatcher

/-- The rows on their way from the broadcaster to the stream. -/
def pending (w : PostgresWatcher) : List Row :=
  match w.pc with
  | .forwarding x => x :: w.inputCh
  | _ => w.inputCh

/-- The stream carries an event of this version. -/
def delivered (w : PostgresWatcher) (x : Row) : Prop := ∃ type, .change type x ∈ w.outCh

structure Queued (db : Database) (w : PostgresWatcher) : Prop where
  pending : ∀ x ∈ w.pending, x ∈ db.log ∧ w.filter.wants x ∧ x.decodable = true
  sorted : ∀ cause rows, w.pc = .scanning cause rows → rows.Pairwise (·.rv ≤ ·.rv)
  scanned : ∀ cause rows, w.pc = .scanning cause rows → ∀ x ∈ rows, x ∈ db.log ∧ w.filter.wants x

structure History (db : Database) (w : PostgresWatcher) : Prop where
  cursor_le : w.lastSeenRV ≤ max db.seq w.startRV
  seen : ∀ k v, w.seenRVs k = some v →
    ∃ x ∈ db.log, x.uid = k ∧ x.rv = v ∧ (w.delivered x ∨ x.decodable = false)
  delivered : ∀ x, w.delivered x → x ∈ db.log ∧ w.filter.wants x

variable {db db' : Database} {w w' : PostgresWatcher} {x y : Row} {cachedRV : Nat} {a : Action}

theorem pending_eq (h : ∀ x, w.pc ≠ .forwarding x) : w.pending = w.inputCh := by
  unfold pending
  split
  next x hpc => exact absurd hpc (h x)
  next => rfl

theorem delivered_emit : (w.emit x).delivered y ↔ w.delivered y ∨ y = x := by
  constructor
  · rintro ⟨type, h⟩
    rcases List.mem_append.mp h with h | h
    · exact .inl ⟨type, h⟩
    · simp only [List.mem_singleton, WatchEvent.change.injEq] at h
      exact .inr h.2
  · rintro (⟨type, h⟩ | rfl)
    · exact ⟨type, List.mem_append_left _ h⟩
    · exact ⟨_, List.mem_append_right _ List.mem_cons_self⟩

theorem delivered_sendBookmark : (w.sendBookmark cachedRV).delivered y ↔ w.delivered y := by
  unfold delivered
  simp only [sendBookmark]
  split <;> simp

/-- Events are only ever appended to the stream. -/
theorem outCh_extends (h : w.step db cachedRV a = some w') : w.outCh <+: w'.outCh := by
  cases step_effect h with
  | rowEmitted | forwardEmitted => exact List.prefix_append _ _
  | sendBookmark =>
    simp only [PostgresWatcher.sendBookmark]
    split
    · exact List.prefix_append _ _
    · exact List.prefix_refl _
  | _ => exact List.prefix_refl _

theorem delivered_step (h : w.step db cachedRV a = some w') (hx : w.delivered x) :
    w'.delivered x := by
  obtain ⟨type, hx⟩ := hx
  exact ⟨type, (outCh_extends h).subset hx⟩

/-- The filter and the resume point never change. -/
theorem fixed_step (h : w.step db cachedRV a = some w') :
    w'.filter = w.filter ∧ w'.startRV = w.startRV := by
  cases step_effect h <;> exact ⟨rfl, rfl⟩

/-! ### History -/

theorem History.mono (hlog : ∀ x ∈ db.log, x ∈ db'.log) (hseq : db.seq ≤ db'.seq)
    (h : w.History db) : w.History db' where
  cursor_le := by
    have hc := h.cursor_le
    omega
  seen k v hk := by
    obtain ⟨x, hx, hxk⟩ := h.seen k v hk
    exact ⟨x, hlog x hx, hxk⟩
  delivered x hx := (h.delivered x hx).imp_left (hlog x)

theorem History.emit (hdb : db.WellFormed) (h : w.History db) (hx : x ∈ db.log)
    (hwants : w.filter.wants x) : (w.emit x).History db where
  cursor_le := by
    have hle := hdb.log_le x hx
    have hc := h.cursor_le
    simp only [PostgresWatcher.emit]
    omega
  seen k v hk := by
    rcases SeenVersions.mark_eq_some hk with ⟨rfl, rfl⟩ | ⟨-, hk⟩
    · exact ⟨x, hx, rfl, rfl, .inl (delivered_emit.mpr (.inr rfl))⟩
    · obtain ⟨y, hy, hyk, hyv, hd⟩ := h.seen k v hk
      exact ⟨y, hy, hyk, hyv, hd.imp_left fun hd => delivered_emit.mpr (.inl hd)⟩
  delivered y hy := by
    rcases delivered_emit.mp hy with hy | rfl
    · exact h.delivered y hy
    · exact ⟨hx, hwants⟩

theorem History.prune (floor : Nat) (h : w.History db) :
    ({ w with seenRVs := w.seenRVs.prune floor }).History db :=
  { h with seen := fun k v hk => h.seen k v (SeenVersions.prune_eq_some.mp hk).1 }

theorem History.step (hdb : db.WellFormed) (hq : w.Queued db) (h : w.History db)
    (hs : w.step db cachedRV a = some w') : w'.History db := by
  cases step_effect hs with
  | rowUndecodable hpc hskip hdec =>
    have hx := hq.scanned _ _ hpc _ List.mem_cons_self
    refine { cursor_le := h.cursor_le, seen := ?_, delivered := h.delivered }
    intro k v hk
    rcases SeenVersions.mark_eq_some hk with ⟨rfl, rfl⟩ | ⟨-, hk⟩
    · exact ⟨_, hx.1, rfl, rfl, .inr hdec⟩
    · exact h.seen k v hk
  | rowEmitted hpc =>
    have hx := hq.scanned _ _ hpc _ List.mem_cons_self
    have he := h.emit hdb hx.1 hx.2
    exact ⟨he.cursor_le, he.seen, he.delivered⟩
  | @forwardEmitted x hpc =>
    have hx := hq.pending x (by simp [PostgresWatcher.pending, hpc])
    have he := h.emit hdb hx.1 hx.2.1
    exact ⟨he.cursor_le, he.seen, he.delivered⟩
  | relistDone =>
    have hp := h.prune (w.lastSeenRV - seenWindow)
    exact ⟨hp.cursor_le, hp.seen, hp.delivered⟩
  | sendBookmark =>
    refine { cursor_le := h.cursor_le, seen := ?_, delivered := ?_ }
    · intro k v hk
      obtain ⟨x, hx, hxk, hxv, hd⟩ := h.seen k v hk
      exact ⟨x, hx, hxk, hxv, hd.imp_left delivered_sendBookmark.mpr⟩
    · exact fun x hx => h.delivered x (delivered_sendBookmark.mp hx)
  | _ => exact ⟨h.cursor_le, h.seen, h.delivered⟩

/-! ### Queued rows -/

theorem Queued.mono (hlog : ∀ x ∈ db.log, x ∈ db'.log) (h : w.Queued db) : w.Queued db' :=
  { h with
    pending := fun x hx => (h.pending x hx).imp_left (hlog x)
    scanned := fun c rows hpc x hx => (h.scanned c rows hpc x hx).imp_left (hlog x) }

/-- A step that does not leave the watcher scanning and queues nothing keeps the queue sound. -/
theorem Queued.of_pc (h : w.Queued db) (hf : w'.filter = w.filter)
    (hin : ∀ x ∈ w'.pending, x ∈ w.pending) (hpc : ∀ c rows, w'.pc ≠ .scanning c rows) :
    w'.Queued db where
  pending x hx := hf ▸ h.pending x (hin x hx)
  sorted c rows hs := absurd hs (hpc c rows)
  scanned c rows hs := absurd hs (hpc c rows)

theorem pending_subset_inputCh (h : w'.inputCh = w.inputCh) (hpc : ∀ x, w'.pc ≠ .forwarding x) :
    ∀ x ∈ w'.pending, x ∈ w.pending := by
  intro x hx
  rw [pending_eq hpc, h] at hx
  unfold pending
  split
  · exact List.mem_cons_of_mem _ hx
  · exact hx

/-- A scan moving past its first row. -/
theorem Queued.scan_tail {cause : Cause} {xs : List Row} (h : w.Queued db)
    (hpc : w.pc = .scanning cause (x :: xs)) (hpc' : w'.pc = .scanning cause xs)
    (hf : w'.filter = w.filter) (hin : w'.inputCh = w.inputCh) : w'.Queued db where
  pending y hy := hf ▸ h.pending y (pending_subset_inputCh hin (by simp [hpc']) y hy)
  sorted c rows hs := by
    obtain ⟨rfl, rfl⟩ : cause = c ∧ xs = rows := by simpa [hpc'] using hs
    exact (h.sorted _ _ hpc).of_cons
  scanned c rows hs y hy := by
    obtain ⟨rfl, rfl⟩ : cause = c ∧ xs = rows := by simpa [hpc'] using hs
    exact hf ▸ h.scanned _ _ hpc y (List.mem_cons_of_mem _ hy)

theorem Queued.step (hdb : db.WellFormed) (h : w.Queued db)
    (hs : w.step db cachedRV a = some w') : w'.Queued db := by
  cases step_effect hs with
  | @relistQuery cause q hpc hq =>
    refine { pending := ?_, sorted := ?_, scanned := ?_ }
    · intro x hx
      have hin : x ∈ w.inputCh := hx
      rw [← pending_eq (w := w) (by simp [hpc])] at hin
      exact h.pending x hin
    · intro c rows hrows
      obtain ⟨-, rfl⟩ : cause = c ∧ db.select q = rows := by simpa using hrows
      exact db.select_sorted q
    · intro c rows hrows x hx
      obtain ⟨-, rfl⟩ : cause = c ∧ db.select q = rows := by simpa using hrows
      obtain ⟨hmem, hqx⟩ := Database.mem_select.mp hx
      exact ⟨hdb.rows_log x hmem, ((w.filter.buildRelistQuery_iff hq x).mp hqx).1⟩
  | rowSkipped hpc | rowUndecodable hpc | rowEmitted hpc => exact h.scan_tail hpc rfl rfl rfl
  | @queryError cause | @scanError cause | @relistDone cause =>
    exact h.of_pc rfl (pending_subset_inputCh rfl cause.next_ne.1) cause.next_ne.2
  | @caughtUp r =>
    have hnext := (Cause.catchUp r).next_ne
    exact h.of_pc rfl (pending_subset_inputCh rfl hnext.1) hnext.2
  | receive hpc hin =>
    refine h.of_pc rfl ?_ (by simp)
    intro y hy
    simpa [PostgresWatcher.pending, hpc, hin] using hy
  | consume =>
    exact ⟨h.pending, h.sorted, h.scanned⟩
  | _ => exact h.of_pc rfl (pending_subset_inputCh rfl (by simp)) (by simp)

/-! ### Fan-out -/

/-- What a fan-out does to one watcher: nothing, append the row, or mark the watcher behind. -/
theorem offer_cases (x : Row) (w : PostgresWatcher) :
    (w.offer x = w ∧ (w.pc = .stopped ∨ w.filter.matchesWatcher x = false)) ∨
    (w.pc ≠ .stopped ∧ w.filter.matchesWatcher x = true ∧
      w.offer x = { w with inputCh := w.inputCh ++ [x] }) ∨
    (w.pc ≠ .stopped ∧ w.filter.matchesWatcher x = true ∧ inputCap ≤ w.inputCh.length ∧
      w.offer x = { w with behind := true }) := by
  unfold offer
  by_cases hs : w.pc = .stopped
  · simp [hs]
  · cases hm : w.filter.matchesWatcher x with
    | false => simp
    | true =>
      by_cases hlen : w.inputCh.length < inputCap
      · simp [hs, hlen]
      · simp [hs, hlen, Nat.not_lt.mp hlen]

theorem pending_append :
    ({ w with inputCh := w.inputCh ++ [x] }).pending = w.pending ++ [x] := by
  cases hpc : w.pc <;> simp [pending, hpc]

theorem Queued.offer (h : w.Queued db) (hx : x ∈ db.log) (hk : x.kind = w.filter.kind)
    (hdec : x.decodable = true) : (w.offer x).Queued db := by
  rcases offer_cases x w with ⟨he, -⟩ | ⟨-, hm, he⟩ | ⟨-, -, -, he⟩
  · rwa [he]
  · rw [he]
    refine { pending := ?_, sorted := h.sorted, scanned := h.scanned }
    intro y hy
    rw [pending_append] at hy
    rcases List.mem_append.mp hy with hy | hy
    · exact h.pending y hy
    · obtain rfl := List.mem_singleton.mp hy
      exact ⟨hx, ⟨hk, hm⟩, hdec⟩
  · rw [he]
    exact ⟨h.pending, h.sorted, h.scanned⟩

theorem History.offer (h : w.History db) : (w.offer x).History db := by
  rcases offer_cases x w with ⟨he, -⟩ | ⟨-, -, he⟩ | ⟨-, -, -, he⟩ <;> rw [he]
  · exact h
  · exact ⟨h.cursor_le, h.seen, h.delivered⟩
  · exact ⟨h.cursor_le, h.seen, h.delivered⟩

theorem offer_filter : (w.offer x).filter = w.filter := by
  rcases offer_cases x w with ⟨he, -⟩ | ⟨-, -, he⟩ | ⟨-, -, -, he⟩ <;> rw [he]

end PostgresWatcher

namespace KindBroadcaster

structure Sound (db : Database) (b : KindBroadcaster) : Prop where
  cursor_le : b.lastSeenRV ≤ db.seq
  seen : ∀ k v, b.seenRVs k = some v → ∃ x ∈ db.log, x.uid = k ∧ x.rv = v
  sorted : ∀ rows m n, b.pc = .scanning rows m n → rows.Pairwise (·.rv ≤ ·.rv)
  scanned : ∀ rows m n, b.pc = .scanning rows m n → ∀ x ∈ rows, x ∈ db.log ∧ x.kind = b.kind
  max_le : ∀ rows m n, b.pc = .scanning rows m n → m ≤ db.seq
  kind : ∀ i w, (i, w) ∈ b.watchers → w.filter.kind = b.kind
  queued : ∀ i w, (i, w) ∈ b.watchers → w.Queued db
  history : ∀ i w, (i, w) ∈ b.watchers → w.History db

variable {db db' : Database} {b b' : KindBroadcaster} {x : Row} {cachedRV : Nat} {a : Action}

theorem Sound.mono (hlog : ∀ x ∈ db.log, x ∈ db'.log) (hseq : db.seq ≤ db'.seq)
    (h : b.Sound db) : b.Sound db' where
  cursor_le := h.cursor_le.trans hseq
  seen k v hk := by
    obtain ⟨x, hx, hxk⟩ := h.seen k v hk
    exact ⟨x, hlog x hx, hxk⟩
  sorted := h.sorted
  scanned rows m n hpc x hx := (h.scanned rows m n hpc x hx).imp_left (hlog x)
  max_le rows m n hpc := (h.max_le rows m n hpc).trans hseq
  kind := h.kind
  queued i w hw := (h.queued i w hw).mono hlog
  history i w hw := (h.history i w hw).mono hlog hseq

theorem mem_relistQuery {x : Row} : x ∈ db.select b.relistQuery ↔
    x ∈ db.rows ∧ x.kind = b.kind ∧ b.lastSeenRV - relistLookbackRVs < x.rv := by
  simp [Database.mem_select, relistQuery]

theorem maxResourceVersion_le (hdb : db.WellFormed) : db.maxResourceVersion ≤ db.seq := by
  rcases Nat.eq_zero_or_pos db.maxResourceVersion with h | h
  · omega
  · obtain ⟨x, hx, hrv⟩ := Database.maxRV_mem h
    have hle := hdb.rows_le hx
    unfold Database.maxResourceVersion
    omega

/-- Moving past a row of the scan, whether or not it is recorded as seen. -/
theorem Sound.scan_tail {xs : List Row} {m n : Nat} (hdb : db.WellFormed) (h : b.Sound db)
    (hpc : b.pc = .scanning (x :: xs) m n) (seen : SeenVersions String)
    (hseen : ∀ k v, seen k = some v → b.seenRVs k = some v ∨ (k = x.uid ∧ v = x.rv))
    (ws : Slots PostgresWatcher)
    (hws : ∀ i w, (i, w) ∈ ws → w.filter.kind = b.kind ∧ w.Queued db ∧ w.History db) :
    ({ b with
      seenRVs := seen
      watchers := ws
      pc := .scanning xs (max m x.rv) n } : KindBroadcaster).Sound db where
  cursor_le := h.cursor_le
  seen k v hk := by
    rcases hseen k v hk with hk | ⟨rfl, rfl⟩
    · exact h.seen k v hk
    · exact ⟨x, (h.scanned _ _ _ hpc x List.mem_cons_self).1, rfl, rfl⟩
  sorted rows m' n' hs := by
    obtain ⟨rfl, -, -⟩ : xs = rows ∧ max m x.rv = m' ∧ n = n' := by simpa using hs
    exact (h.sorted _ _ _ hpc).of_cons
  scanned rows m' n' hs y hy := by
    obtain ⟨rfl, -, -⟩ : xs = rows ∧ max m x.rv = m' ∧ n = n' := by simpa using hs
    exact h.scanned _ _ _ hpc y (List.mem_cons_of_mem _ hy)
  max_le rows m' n' hs := by
    obtain ⟨-, rfl, -⟩ : xs = rows ∧ max m x.rv = m' ∧ n = n' := by simpa using hs
    have hm := h.max_le _ _ _ hpc
    have hx := hdb.log_le x (h.scanned _ _ _ hpc x List.mem_cons_self).1
    omega
  kind i w hw := (hws i w hw).1
  queued i w hw := (hws i w hw).2.1
  history i w hw := (hws i w hw).2.2

theorem Sound.step (hdb : db.WellFormed) (h : b.Sound db)
    (hs : b.step db cachedRV a = some b') : b'.Sound db := by
  have hws : ∀ i w, (i, w) ∈ b.watchers → w.filter.kind = b.kind ∧ w.Queued db ∧ w.History db :=
    fun i w hw => ⟨h.kind i w hw, h.queued i w hw, h.history i w hw⟩
  cases step_effect hs with
  | @prime ok hpc =>
    refine { h with cursor_le := ?_, sorted := ?_, scanned := ?_, max_le := ?_ }
    · cases ok with
      | true => exact maxResourceVersion_le hdb
      | false => exact Nat.zero_le _
    all_goals simp
  | wake hpc =>
    refine { h with sorted := ?_, scanned := ?_, max_le := ?_ }
    all_goals simp
  | relistQuery hpc =>
    refine { h with sorted := ?_, scanned := ?_, max_le := ?_ }
    · intro rows m n hrows
      obtain ⟨rfl, -, -⟩ : db.select b.relistQuery = rows ∧ b.lastSeenRV = m ∧ db.log.length = n := by
        simpa using hrows
      exact db.select_sorted _
    · intro rows m n hrows x hx
      obtain ⟨rfl, -, -⟩ : db.select b.relistQuery = rows ∧ b.lastSeenRV = m ∧ db.log.length = n := by
        simpa using hrows
      obtain ⟨hmem, hk, -⟩ := mem_relistQuery.mp hx
      exact ⟨hdb.rows_log x hmem, hk⟩
    · intro rows m n hrows
      obtain ⟨-, rfl, -⟩ : db.select b.relistQuery = rows ∧ b.lastSeenRV = m ∧ db.log.length = n := by
        simpa using hrows
      exact h.cursor_le
  | rowPassed hpc => exact h.scan_tail hdb hpc b.seenRVs (fun k v hk => .inl hk) b.watchers hws
  | rowMarked hpc =>
    refine h.scan_tail hdb hpc _ (fun k v hk => ?_) b.watchers hws
    rcases SeenVersions.mark_eq_some hk with hk | ⟨-, hk⟩
    · exact .inr hk
    · exact .inl hk
  | @rowFannedOut x xs m n hpc hskip hdec =>
    refine h.scan_tail hdb hpc _ (fun k v hk => ?_) _ ?_
    · rcases SeenVersions.mark_eq_some hk with hk | ⟨-, hk⟩
      · exact .inr hk
      · exact .inl hk
    · intro i w hw
      obtain ⟨⟨j, w₀⟩, hw₀, he⟩ := List.mem_map.mp hw
      obtain ⟨rfl, rfl⟩ := Prod.mk.inj he
      obtain ⟨hk, hq, hh⟩ := hws j w₀ hw₀
      obtain ⟨hlog, hxk⟩ := h.scanned _ _ _ hpc x List.mem_cons_self
      refine ⟨?_, hq.offer hlog (hxk.trans hk.symm) hdec, hh.offer⟩
      rwa [PostgresWatcher.offer_filter]
  | @relistDone m n hpc =>
    have hm := h.max_le _ _ _ hpc
    have hc := h.cursor_le
    refine { h with cursor_le := ?_, seen := ?_, sorted := ?_, scanned := ?_, max_le := ?_ }
    · simp only [KindBroadcaster.relistDone]
      omega
    · exact fun k v hk => h.seen k v (SeenVersions.prune_eq_some.mp hk).1
    all_goals simp [KindBroadcaster.relistDone]
  | relistError hpc =>
    refine { h with sorted := ?_, scanned := ?_, max_le := ?_ }
    all_goals simp [KindBroadcaster.onRelistFailure]
  | @stop wid w₀ hw₀ hpc =>
    have hstop : ∀ i w, (i, w) ∈ b.watchers.put wid { w₀ with pc := .stopped } →
        w.filter.kind = b.kind ∧ w.Queued db ∧ w.History db := by
      intro i w hw
      rcases Slots.mem_put hw with ⟨-, rfl⟩ | ⟨-, hw⟩
      · obtain ⟨hk, hq, hh⟩ := hws wid w₀ (Slots.mem_of_get? hw₀)
        refine ⟨hk, hq.of_pc rfl ?_ (by simp), ⟨hh.cursor_le, hh.seen, hh.delivered⟩⟩
        exact PostgresWatcher.pending_subset_inputCh rfl (by simp)
      · exact hws i w hw
    exact { h with
      kind := fun i w hw => (hstop i w hw).1
      queued := fun i w hw => (hstop i w hw).2.1
      history := fun i w hw => (hstop i w hw).2.2 }
  | @watcher wid w₀ w' a hw₀ hw' =>
    obtain ⟨hk, hq, hh⟩ := hws wid w₀ (Slots.mem_of_get? hw₀)
    have hput : ∀ i w, (i, w) ∈ b.watchers.put wid w' →
        w.filter.kind = b.kind ∧ w.Queued db ∧ w.History db := by
      intro i w hw
      rcases Slots.mem_put hw with ⟨-, rfl⟩ | ⟨-, hw⟩
      · exact ⟨(PostgresWatcher.fixed_step hw').1 ▸ hk, hq.step hdb hw', hh.step hdb hq hw'⟩
      · exact hws i w hw
    exact { h with
      kind := fun i w hw => (hput i w hw).1
      queued := fun i w hw => (hput i w hw).2.1
      history := fun i w hw => (hput i w hw).2.2 }

end KindBroadcaster

/-- A database step only adds to the log and only advances the sequence. -/
theorem Database.step_mono {db db' : Database} {a : Database.Action} (h : db.step a = some db') :
    (∀ x ∈ db.log, x ∈ db'.log) ∧ db.seq ≤ db'.seq := by
  rcases step_cases h with ⟨x, -, rfl⟩ | ⟨x, -, -, rfl⟩ | ⟨x, -, rfl⟩ | ⟨seq, clock, hle, rfl⟩
  · exact ⟨fun _ hx => hx, Nat.le_succ _⟩
  · exact ⟨fun _ hx => List.mem_append_left _ hx, le_rfl⟩
  · exact ⟨fun _ hx => hx, le_rfl⟩
  · exact ⟨fun _ hx => hx, hle⟩

/-- A row that a step brings into the table has just been committed. -/
theorem Database.step_rows {db db' : Database} {a : Database.Action} (hdb : db.WellFormed)
    (h : db.step a = some db') : ∀ x ∈ db'.rows, x ∈ db.rows ∨ x ∉ db.log := by
  rcases Database.step_cases h with
    ⟨x, -, rfl⟩ | ⟨x, hx, -, rfl⟩ | ⟨x, -, rfl⟩ | ⟨seq, clock, -, rfl⟩
  · exact fun _ => .inl
  · intro y hy
    simp only [Database.commitRow, List.mem_cons, List.mem_filter] at hy
    rcases hy with rfl | ⟨hy, -⟩
    · exact .inr (hdb.inflight_not_log hx)
    · exact .inl hy
  · exact fun _ => .inl
  · exact fun _ => .inl

theorem Database.purgeExpired_fixed (db : Database) :
    db.purgeExpired.1.log = db.log ∧ db.purgeExpired.1.seq = db.seq ∧
      ∀ x ∈ db.purgeExpired.1.rows, x ∈ db.rows := by
  simp only [Database.purgeExpired]
  split
  · exact ⟨rfl, rfl, fun x hx => List.mem_of_mem_filter hx⟩
  · exact ⟨rfl, rfl, fun x hx => hx⟩

namespace Cluster

theorem Promise.preserves_sound (P : Promise) :
    P.Preserves (fun _ _ => True) (fun db b => b.Sound db) where
  database db db' a b _ _ hs _ h := h.mono (Database.step_mono hs).1 (Database.step_mono hs).2
  purge db b _ _ h := by
    obtain ⟨hlog, hseq, -⟩ := db.purgeExpired_fixed
    exact h.mono (fun x hx => hlog ▸ hx) hseq.ge
  new db kind := by
    constructor <;> simp [KindBroadcaster.new]
  subscribe db b wid filter startRV _ hk _ h := by
    have hnew : ∀ i w, (i, w) ∈ (b.subscribe wid (.new filter startRV)).watchers →
        w.filter.kind = b.kind ∧ w.Queued db ∧ w.History db := by
      intro i w hw
      rcases List.mem_cons.mp hw with hw | hw
      · obtain ⟨rfl, rfl⟩ := Prod.mk.inj hw
        refine ⟨hk.symm, ?_, ?_⟩
        · constructor <;> simp [PostgresWatcher.new, PostgresWatcher.pending]
        · constructor <;> simp [PostgresWatcher.new, PostgresWatcher.delivered]
      · exact ⟨h.kind i w hw, h.queued i w hw, h.history i w hw⟩
    exact { h with
      kind := fun i w hw => (hnew i w hw).1
      queued := fun i w hw => (hnew i w hw).2.1
      history := fun i w hw => (hnew i w hw).2.2 }
  step db cachedRV b b' a hdb _ hs _ h := h.step hdb hs

theorem sound_of_reachable {P : Promise} {c : Cluster} (h : machine.Reachable P.allows c) :
    ∀ b, c.Has b → b.Sound c.db :=
  P.preserves_sound.reachable (fun _ _ _ _ => trivial) h

end Cluster
end Ark
