import Ark.FanOut

/-!
# No committed change is lost by a watch

For every row a stream still owes, the watcher's cursor has not moved a lookback window past the
row, and the row is on one of the routes that end in the stream: about to be read by a relist, in
the queue, recoverable by a catch-up relist because `behind` is set, or still to be fanned out. Two
steps can break this: a broadcaster that primes its cursor after its subscribers' initial relists,
and a queued row forwarded while a failed catch-up relist is still to be retried.
-/

namespace Ark

namespace PostgresWatcher

/-- A row of the table that belongs on the stream. -/
structure Owed (w : PostgresWatcher) (x : Row) : Prop where
  wants : w.filter.wants x
  decodable : x.decodable = true
  above : w.resumeFloor < x.rv

/-- No relist and no row the watcher is busy with moves the cursor a window past `x` before `x` is
read. -/
structure InLookback (w : PostgresWatcher) (x : Row) : Prop where
  cursor : w.lastSeenRV < x.rv + relistLookbackRVs
  scan : ∀ cause rows, w.pc = .scanning cause rows →
    x ∈ rows ∨ ∀ y ∈ rows, y.rv < x.rv + relistLookbackRVs

/-- With `behind` set, the catch-up relist runs before the cursor moves a window past `x`. -/
inductive Recoverable (w : PostgresWatcher) (x : Row) : Prop
  | recovering {r : Recovery} (hpc : w.pc = .recover r)
  | retrying (hfail : w.relistFailed = true) (hpc : ∀ cause rows, w.pc ≠ .scanning cause rows)
  | next {y : Row} (hhead : w.pending.head? = some y) (hlt : y.rv < x.rv + relistLookbackRVs)

/-- How the row will reach the stream. -/
inductive Route (b : KindBroadcaster) (w : PostgresWatcher) (x : Row) : Prop
  | relist {cause : Cause} (hpc : w.pc = .relist cause)
  | scanning {cause : Cause} {rows : List Row} (hpc : w.pc = .scanning cause rows) (hx : x ∈ rows)
  | queued (hx : x ∈ w.pending)
  | behind (hb : w.behind = true) (hr : w.Recoverable x)
  | fanOut (hb : b.willFanOut x)

/-- The row was delivered, or its route to the stream is open. -/
def Tracked (b : KindBroadcaster) (w : PostgresWatcher) (x : Row) : Prop :=
  w.delivered x ∨ (w.InLookback x ∧ w.Route b x)

/-- Until the initial relist ended its outcome is not recorded. -/
def Once (w : PostgresWatcher) : Prop :=
  (w.pc = .relist .initial ∨ ∃ rows, w.pc = .scanning .initial rows) → w.initialRelist = none

/-- A class of running watchers that no watcher enters. -/
structure Followed (A : PostgresWatcher → Prop) : Prop where
  running : ∀ w, A w → w.pc ≠ .stopped
  step : ∀ db cachedRV w a w', w.Once → w.step db cachedRV a = some w' → A w' → A w
  offer : ∀ x w, A (w.offer x) → A w

/-- A step forwards a queued row while a failed relist is still to be retried only if every row the
stream owes is delivered, queued, or within a window of the forwarded row. -/
def ForwardCovered (db : Database) (w : PostgresWatcher) : Action → Prop
  | .forwardRow => ∀ q, w.pc = .forwarding q → w.relistFailed = true →
    w.resumeFloor < q.rv → w.seenRVs.skips q.uid q.rv = false →
    ∀ x ∈ db.rows, w.Owed x →
      w.delivered x ∨ x ∈ w.pending ∨ q.rv < x.rv + relistLookbackRVs
  | _ => True

variable {db db' : Database} {b b' : KindBroadcaster} {w w' : PostgresWatcher} {x y : Row}
  {cachedRV : Nat} {a : Action}

/-- A row of the table that the watcher recorded as seen was delivered. -/
theorem delivered_of_skips (hdb : db.WellFormed) (hh : w.History db) (hx : x ∈ db.rows)
    (hdec : x.decodable = true) (h : w.seenRVs.skips x.uid x.rv = true) : w.delivered x := by
  obtain ⟨s, hs, hle⟩ := SeenVersions.skips_iff.mp h
  obtain ⟨y, hy, hu, hrv, hd⟩ := hh.seen _ _ hs
  obtain rfl : y = x := hdb.eq_of_le hx hy hu (by omega)
  rcases hd with hd | hd
  · exact hd
  · rw [hdec] at hd
    cases hd

/-- Moving past a row of the scan other than `x`. -/
theorem tracked_scan_tail {cause : Cause} {xs : List Row} (hq : w.Queued db)
    (hpc : w.pc = .scanning cause (y :: xs)) (hne : x ≠ y) (hlook : w.InLookback x)
    (hroute : w.Route b x) (hpc' : w'.pc = .scanning cause xs)
    (hcur : w'.lastSeenRV ≤ max w.lastSeenRV y.rv) (hin : w'.inputCh = w.inputCh)
    (hbehind : w'.behind = w.behind) : w'.InLookback x ∧ w'.Route b x := by
  have hscan : ∀ c rows, w'.pc = .scanning c rows → xs = rows := by
    intro c rows hs
    rw [hpc'] at hs
    exact (WatcherPc.scanning.inj hs).2
  have hpend : w'.pending = w.pending := by
    rw [pending_eq (by simp [hpc']), pending_eq (by simp [hpc]), hin]
  have hy : y.rv < x.rv + relistLookbackRVs := by
    rcases hlook.scan _ _ hpc with hmem | hall
    · have hxs : x ∈ xs := (List.mem_cons.mp hmem).resolve_left hne
      have hle : y.rv ≤ x.rv := List.rel_of_pairwise_cons (hq.sorted _ _ hpc) hxs
      have hpos := relistLookbackRVs_pos
      omega
    · exact hall y List.mem_cons_self
  refine ⟨⟨?_, ?_⟩, ?_⟩
  · have hc := hlook.cursor
    omega
  · intro c rows hs
    obtain rfl := hscan c rows hs
    rcases hlook.scan _ _ hpc with hmem | hall
    · exact .inl ((List.mem_cons.mp hmem).resolve_left hne)
    · exact .inr fun z hz => hall z (List.mem_cons_of_mem _ hz)
  · cases hroute with
    | relist h => simp [hpc] at h
    | scanning h hx =>
      rw [hpc] at h
      obtain ⟨-, rfl⟩ := WatcherPc.scanning.inj h
      exact .scanning hpc' ((List.mem_cons.mp hx).resolve_left hne)
    | queued hx => exact .queued (hpend ▸ hx)
    | behind hb hr =>
      refine .behind (hbehind.trans hb) ?_
      cases hr with
      | recovering h => simp [hpc] at h
      | retrying _ h => exact absurd hpc (h _ _)
      | next hhead hlt => exact .next (hpend ▸ hhead) hlt
    | fanOut hb => exact .fanOut hb

/-- A step between points where the watcher neither reads the table nor is about to keeps the row
tracked when it keeps the cursor, the queue and the flags. -/
theorem tracked_of_queue (hlook : w.InLookback x) (hroute : w.Route b x)
    (hrelist : ∀ cause, w.pc ≠ .relist cause)
    (hscan : ∀ cause rows, w.pc ≠ .scanning cause rows)
    (hrecover : ∀ r, w.pc = .recover r → w.behind = false)
    (hscan' : ∀ cause rows, w'.pc ≠ .scanning cause rows)
    (hcur : w'.lastSeenRV = w.lastSeenRV) (hpend : w'.pending = w.pending)
    (hbehind : w'.behind = w.behind) (hfail : w'.relistFailed = w.relistFailed) :
    w'.InLookback x ∧ w'.Route b x := by
  refine ⟨⟨hcur ▸ hlook.cursor, fun c rows hc => absurd hc (hscan' c rows)⟩, ?_⟩
  cases hroute with
  | relist h => exact absurd h (hrelist _)
  | scanning h => exact absurd h (hscan _ _)
  | queued hmem => exact .queued (hpend ▸ hmem)
  | behind hb hr =>
    refine .behind (hbehind.trans hb) ?_
    cases hr with
    | recovering h =>
      rw [hrecover _ h] at hb
      cases hb
    | retrying hf => exact .retrying (hfail.trans hf) hscan'
    | next hhead hlt => exact .next (hpend ▸ hhead) hlt
  | fanOut hb => exact .fanOut hb

/-- The row at the head of the queue lies within a window of a tracked row: by its position before
it, because the row is recoverable or still to be fanned out, or because the step is covered. -/
theorem forward_lt (hord : w.pending.Pairwise fun z y => y ∈ db.rows →
      z.rv < y.rv + relistLookbackRVs)
    (hqueue : b.willFanOut x → ∀ z ∈ w.pending, z.rv < x.rv + relistLookbackRVs)
    (hx : x ∈ db.rows) (hpc : w.pc = .forwarding y) (hne : x ≠ y) (hnew : ¬ w.delivered x)
    (hroute : w.Route b x)
    (hcov : w.relistFailed = true →
      w.delivered x ∨ x ∈ w.pending ∨ y.rv < x.rv + relistLookbackRVs) :
    y.rv < x.rv + relistLookbackRVs := by
  have hpend : w.pending = y :: w.inputCh := by simp [pending, hpc]
  have hafter : x ∈ w.pending → y.rv < x.rv + relistLookbackRVs := by
    intro hmem
    rw [hpend] at hmem hord
    exact List.rel_of_pairwise_cons hord ((List.mem_cons.mp hmem).resolve_left hne) hx
  cases hroute with
  | relist h => simp [hpc] at h
  | scanning h => simp [hpc] at h
  | queued hmem => exact hafter hmem
  | behind hb hr =>
    cases hr with
    | recovering h => simp [hpc] at h
    | retrying hfail =>
      rcases hcov hfail with hd | hmem | hlt
      · exact absurd hd hnew
      · exact hafter hmem
      · exact hlt
    | next hhead hlt =>
      rw [hpend] at hhead
      obtain rfl := Option.some.inj hhead
      exact hlt
  | fanOut hb => exact hqueue hb y (by simp [hpend])

theorem Tracked.step (hdb : db.WellFormed) (hq : w.Queued db) (hh : w.History db)
    (hord : w.pending.Pairwise fun z y => y ∈ db.rows → z.rv < y.rv + relistLookbackRVs)
    (hqueue : b.willFanOut x → ∀ z ∈ w.pending, z.rv < x.rv + relistLookbackRVs)
    (hx : x ∈ db.rows) (howed : w.Owed x) (hfwd : w.ForwardCovered db a)
    (hs : w.step db cachedRV a = some w') (h : w.Tracked b x) : w'.Tracked b x := by
  by_cases hnew : w'.delivered x
  · exact .inl hnew
  have hold : ¬ w.delivered x := fun hd => hnew (delivered_step hs hd)
  obtain ⟨hlook, hroute⟩ := h.resolve_left hold
  refine .inr ?_
  have hnoskip : w.seenRVs.skips x.uid x.rv = false := by
    rw [← Bool.not_eq_true]
    exact fun hskip => hold (delivered_of_skips hdb hh hx howed.decodable hskip)
  cases step_effect hs with
  | @relistQuery cause q hpc hquery =>
    have hmem : x ∈ db.select q := by
      rw [Database.mem_select, w.filter.buildRelistQuery_iff hquery]
      have hcur := hlook.cursor
      have hpos := hdb.rows_pos hx
      have hfloor := howed.above
      exact ⟨hx, howed.wants, by unfold queryFromRV; omega⟩
    refine ⟨⟨hlook.cursor, fun c rows hc => .inl ?_⟩, .scanning rfl hmem⟩
    obtain ⟨-, rfl⟩ := WatcherPc.scanning.inj hc
    exact hmem
  | @queryError cause | @scanError cause =>
    have hnext := cause.next_ne.2
    refine ⟨⟨hlook.cursor, fun c rows hc => absurd hc (hnext c rows)⟩, ?_⟩
    exact .behind rfl (.retrying rfl hnext)
  | @rowSkipped cause y xs hpc hskip =>
    have hne : x ≠ y := by
      rintro rfl
      rw [hskip] at hnoskip
      cases hnoskip
    exact tracked_scan_tail hq hpc hne hlook hroute rfl (le_max_left _ _) rfl rfl
  | @rowUndecodable cause y xs hpc hskip hdec =>
    have hne : x ≠ y := by
      rintro rfl
      rw [howed.decodable] at hdec
      cases hdec
    exact tracked_scan_tail hq hpc hne hlook hroute rfl (le_max_left _ _) rfl rfl
  | @rowEmitted cause y xs hpc hskip hdec hroom =>
    have hne : x ≠ y := by
      rintro rfl
      exact hnew (delivered_emit.mpr (.inr rfl))
    exact tracked_scan_tail hq hpc hne hlook hroute rfl le_rfl rfl rfl
  | @relistDone cause hpc =>
    have hnext := cause.next_ne
    have hpend : (w.relistDone cause).pending = w.pending := by
      rw [pending_eq hnext.1, pending_eq (by simp [hpc])]
      rfl
    refine ⟨⟨hlook.cursor, fun c rows hc => absurd hc (hnext.2 c rows)⟩, ?_⟩
    cases hroute with
    | relist h => simp [hpc] at h
    | scanning h hmem =>
      rw [hpc] at h
      obtain ⟨-, rfl⟩ := WatcherPc.scanning.inj h
      cases hmem
    | queued hmem => exact .queued (hpend ▸ hmem)
    | behind hb hr =>
      cases hr with
      | recovering h => simp [hpc] at h
      | retrying _ h => exact absurd hpc (h _ _)
      | next hhead hlt => exact .behind hb (.next (hpend ▸ hhead) hlt)
    | fanOut hb => exact .fanOut hb
  | sendBookmark hpc =>
    have hpend : w.pending = w.inputCh := pending_eq (by simp [hpc])
    exact tracked_of_queue hlook hroute (by simp [hpc]) (by simp [hpc]) (by simp [hpc]) (by simp)
      rfl hpend.symm rfl rfl
  | tick hpc =>
    have hpend : w.pending = w.inputCh := pending_eq (by simp [hpc])
    refine ⟨⟨hlook.cursor, by simp⟩, ?_⟩
    cases hroute with
    | relist h => simp [hpc] at h
    | scanning h => simp [hpc] at h
    | queued hmem => exact .queued (hpend ▸ hmem)
    | behind hb => exact .behind hb (.recovering rfl)
    | fanOut hb => exact .fanOut hb
  | @receive y rest hpc hin =>
    have hpend : w.pending = y :: rest := by rw [pending_eq (by simp [hpc]), hin]
    exact tracked_of_queue hlook hroute (by simp [hpc]) (by simp [hpc]) (by simp [hpc]) (by simp)
      rfl hpend.symm rfl rfl
  | @forwardSkipped y hpc hskip =>
    have hpend : w.pending = y :: w.inputCh := by simp [pending, hpc]
    have hne : x ≠ y := by
      rintro rfl
      rcases hskip with hfloor | hskip
      · have := howed.above
        omega
      · rw [hskip] at hnoskip
        cases hnoskip
    refine ⟨⟨hlook.cursor, by simp⟩, ?_⟩
    cases hroute with
    | relist h => simp [hpc] at h
    | scanning h => simp [hpc] at h
    | queued hmem =>
      rw [hpend] at hmem
      exact .queued ((List.mem_cons.mp hmem).resolve_left hne)
    | behind hb => exact .behind hb (.recovering rfl)
    | fanOut hb => exact .fanOut hb
  | @forwardEmitted y hpc hfloor hskip hroom =>
    have hpend : w.pending = y :: w.inputCh := by simp [pending, hpc]
    have hne : x ≠ y := by
      rintro rfl
      exact hnew (delivered_emit.mpr (.inr rfl))
    have hlt : y.rv < x.rv + relistLookbackRVs :=
      forward_lt hord hqueue hx hpc hne hold hroute
        fun hfail => hfwd y hpc hfail hfloor hskip x hx howed
    refine ⟨⟨?_, by simp⟩, ?_⟩
    · have hcur := hlook.cursor
      simp only [emit]
      omega
    · cases hroute with
      | relist h => simp [hpc] at h
      | scanning h => simp [hpc] at h
      | queued hmem =>
        rw [hpend] at hmem
        exact .queued ((List.mem_cons.mp hmem).resolve_left hne)
      | behind hb => exact .behind hb (.recovering rfl)
      | fanOut hb => exact .fanOut hb
  | recover hpc hb => exact ⟨⟨hlook.cursor, by simp⟩, .relist rfl⟩
  | @caughtUp r hpc hb =>
    have hnext := (Cause.catchUp r).next_ne
    have hpend : w.pending = w.inputCh := pending_eq (by simp [hpc])
    exact tracked_of_queue hlook hroute (by simp [hpc]) (by simp [hpc]) (fun _ _ => hb) hnext.2
      rfl ((pending_eq hnext.1).trans hpend.symm) rfl rfl
  | consume hlt =>
    refine ⟨⟨hlook.cursor, hlook.scan⟩, ?_⟩
    cases hroute with
    | relist h => exact .relist h
    | scanning h hmem => exact .scanning h hmem
    | queued hmem => exact .queued hmem
    | behind hb hr =>
      refine .behind hb ?_
      cases hr with
      | recovering h => exact .recovering h
      | retrying hfail h => exact .retrying hfail h
      | next hhead hlt => exact .next hhead hlt
    | fanOut hb => exact .fanOut hb

/-! ### Fan-out -/

theorem Tracked.mono (h : w.Tracked b x) (hb : b.willFanOut x → b'.willFanOut x) :
    w.Tracked b' x := by
  refine h.imp_right fun ⟨hlook, hroute⟩ => ⟨hlook, ?_⟩
  cases hroute with
  | relist hpc => exact .relist hpc
  | scanning hpc hx => exact .scanning hpc hx
  | queued hx => exact .queued hx
  | behind hb hr => exact .behind hb hr
  | fanOut h => exact .fanOut (hb h)

/-- Being offered a row costs nothing. -/
theorem Tracked.offer (h : w.Tracked b x) : (w.offer y).Tracked b x := by
  rcases offer_cases y w with ⟨he, -⟩ | ⟨-, -, he⟩ | ⟨-, -, -, he⟩ <;> rw [he]
  · exact h
  · refine h.imp_right fun ⟨hlook, hroute⟩ => ⟨⟨hlook.cursor, hlook.scan⟩, ?_⟩
    cases hroute with
    | relist hpc => exact .relist hpc
    | scanning hpc hx => exact .scanning hpc hx
    | queued hx => exact .queued (by rw [pending_append]; exact List.mem_append_left _ hx)
    | behind hb hr =>
      refine .behind hb ?_
      cases hr with
      | recovering hpc => exact .recovering hpc
      | retrying hfail hpc => exact .retrying hfail hpc
      | next hhead hlt =>
        refine .next ?_ hlt
        rw [pending_append, List.head?_append, hhead]
        rfl
    | fanOut hb => exact .fanOut hb
  · refine h.imp_right fun ⟨hlook, hroute⟩ => ⟨⟨hlook.cursor, hlook.scan⟩, ?_⟩
    cases hroute with
    | relist hpc => exact .relist hpc
    | scanning hpc hx => exact .scanning hpc hx
    | queued hx => exact .queued hx
    | behind _ hr =>
      refine .behind rfl ?_
      cases hr with
      | recovering hpc => exact .recovering hpc
      | retrying hfail hpc => exact .retrying hfail hpc
      | next hhead hlt => exact .next hhead hlt
    | fanOut hb => exact .fanOut hb

/-- The fan-out of the row itself queues it, or marks the watcher behind while the head of its full
queue is within a window of the row. -/
theorem Tracked.fanned (hrun : w.pc ≠ .stopped) (howed : w.Owed x)
    (hqueue : ∀ z ∈ w.pending, z.rv < x.rv + relistLookbackRVs) (h : w.Tracked b x) :
    (w.offer x).Tracked b' x := by
  rcases offer_cases x w with ⟨-, hno⟩ | ⟨-, -, he⟩ | ⟨-, -, hfull, he⟩
  · rcases hno with hno | hno
    · exact absurd hno hrun
    · rw [howed.wants.2] at hno
      cases hno
  · rw [he]
    refine h.imp_right fun ⟨hlook, _⟩ => ⟨⟨hlook.cursor, hlook.scan⟩, .queued ?_⟩
    rw [pending_append]
    exact List.mem_append_right _ List.mem_cons_self
  · rw [he]
    refine h.imp_right fun ⟨hlook, _⟩ => ⟨⟨hlook.cursor, hlook.scan⟩, .behind rfl ?_⟩
    have hne : w.inputCh ≠ [] := by
      intro hnil
      simp [hnil, inputCap] at hfull
    have hpne : w.pending ≠ [] := by
      unfold pending
      split
      · exact List.cons_ne_nil _ _
      · exact hne
    have hhead := List.head?_eq_some_head hpne
    exact .next hhead (hqueue _ (List.head_mem hpne))

theorem owed_step (hs : w.step db cachedRV a = some w') (h : w'.Owed x) : w.Owed x := by
  obtain ⟨hf, hr⟩ := fixed_step hs
  refine ⟨hf ▸ h.wants, h.decodable, ?_⟩
  have := h.above
  unfold resumeFloor at this ⊢
  rwa [hr] at this

theorem Once.of_ne (h₁ : w.pc ≠ .relist .initial) (h₂ : ∀ rows, w.pc ≠ .scanning .initial rows) :
    w.Once := by
  rintro (h | ⟨rows, h⟩)
  · exact absurd h h₁
  · exact absurd h (h₂ rows)

theorem Once.step (h : w.Once) (hs : w.step db cachedRV a = some w') : w'.Once := by
  cases step_effect hs with
  | @relistQuery cause q hpc =>
    rintro (hpc' | ⟨rows, hpc'⟩)
    · cases hpc'
    · obtain ⟨rfl, -⟩ := WatcherPc.scanning.inj hpc'
      exact h (.inl hpc)
  | @rowSkipped cause x xs hpc | @rowUndecodable cause x xs hpc | @rowEmitted cause x xs hpc =>
    rintro (hpc' | ⟨rows, hpc'⟩)
    · cases hpc'
    · obtain ⟨rfl, -⟩ := WatcherPc.scanning.inj hpc'
      exact h (.inr ⟨_, hpc⟩)
  | @queryError cause | @scanError cause | @relistDone cause =>
    refine Once.of_ne ?_ fun rows => cause.next_ne.2 .initial rows
    rcases cause with _ | _ | _ <;> simp [PostgresWatcher.relistDone,
      PostgresWatcher.relistError, Cause.next]
  | @caughtUp r hpc =>
    refine Once.of_ne ?_ fun rows => (Cause.catchUp r).next_ne.2 .initial rows
    cases r <;> simp [Cause.next]
  | consume => exact h
  | _ => exact Once.of_ne (by simp) (by simp)

theorem running_of_step (hs : w.step db cachedRV a = some w') (h : w'.pc ≠ .stopped) :
    w.pc ≠ .stopped := by
  cases step_effect hs with
  | consume => exact h
  | relistQuery hpc | queryError hpc | scanError hpc | rowSkipped hpc | rowUndecodable hpc
  | rowEmitted hpc | relistDone hpc | sendBookmark hpc | tick hpc | receive hpc
  | forwardSkipped hpc | forwardEmitted hpc | recover hpc | caughtUp hpc => simp [hpc]

theorem offer_fixed : (w.offer x).pc = w.pc ∧ (w.offer x).initialRelist = w.initialRelist := by
  rcases offer_cases x w with ⟨he, -⟩ | ⟨-, -, he⟩ | ⟨-, -, -, he⟩ <;> simp [he]

/-- The watcher has not been stopped. -/
def Running (w : PostgresWatcher) : Prop := w.pc ≠ .stopped

theorem followed_running : Followed Running where
  running _ h := h
  step _ _ _ _ _ _ hs h := running_of_step hs h
  offer x w h := by
    unfold Running at h
    rwa [offer_fixed.1] at h

/-- The watcher runs and its initial relist has not failed. -/
structure Active (w : PostgresWatcher) : Prop where
  running : w.pc ≠ .stopped
  listed : w.initialRelist ≠ some false

theorem followed_active : Followed Active where
  running _ h := h.running
  step db cachedRV w a w' honce hs h := by
    refine ⟨running_of_step hs h.running, ?_⟩
    cases step_effect hs with
    | @queryError cause | @scanError cause =>
      cases cause with
      | initial => exact absurd rfl h.listed
      | catchUp r => exact h.listed
    | @relistDone cause hpc =>
      cases cause with
      | initial => simp [honce (.inr ⟨_, hpc⟩)]
      | catchUp r => exact h.listed
    | _ => exact h.listed
  offer x w h := by
    obtain ⟨hpc, hinit⟩ := offer_fixed (w := w) (x := x)
    exact ⟨hpc ▸ h.running, hinit ▸ h.listed⟩

end PostgresWatcher
namespace KindBroadcaster

/-- The broadcaster primes its cursor at the maximum version only if every followed subscriber that
has issued its initial query has, delivered or being read, each row it is owed that the first
relist no longer looks back to. -/
def PrimeCovered (A : PostgresWatcher → Prop) (db : Database) (b : KindBroadcaster) :
    Action → Prop
  | .prime true => ∀ i w, (i, w) ∈ b.watchers → A w → w.pc ≠ .relist .initial →
    ∀ x ∈ db.rows, w.Owed x → x.rv + relistLookbackRVs ≤ db.maxResourceVersion →
      w.delivered x ∨ ∃ cause rows, w.pc = .scanning cause rows ∧ x ∈ rows
  | _ => True

def ForwardCovered (A : PostgresWatcher → Prop) (db : Database) (b : KindBroadcaster) :
    Action → Prop
  | .watcher wid a => ∀ w, b.watchers.get? wid = some w → A w → w.ForwardCovered db a
  | _ => True

structure Covered (A : PostgresWatcher → Prop) (db : Database) (b : KindBroadcaster) : Prop where
  once : ∀ i w, (i, w) ∈ b.watchers → w.Once
  tracked : ∀ i w, (i, w) ∈ b.watchers → A w → ∀ x ∈ db.rows, w.Owed x → w.Tracked b x

variable {A : PostgresWatcher → Prop} {db db' : Database} {b b' : KindBroadcaster} {x : Row}
  {cachedRV : Nat} {a : Action}

/-- A step of the broadcaster that keeps its watchers and fans nothing out. -/
theorem Covered.mono (h : b.Covered A db) (hws : b'.watchers = b.watchers)
    (hb : ∀ i w, (i, w) ∈ b.watchers → A w → ∀ x ∈ db.rows, w.Owed x →
      b.willFanOut x → b'.willFanOut x) : b'.Covered A db where
  once := hws ▸ h.once
  tracked i w hw hact x hx howed :=
    (h.tracked i w (hws ▸ hw) hact x hx howed).mono (hb i w (hws ▸ hw) hact x hx howed)

theorem Covered.prime {ok : Bool} (hdb : db.WellFormed) (h : b.Covered A db)
    (hcov : b.PrimeCovered A db (.prime ok)) :
    ({ b with
      lastSeenRV := if ok then db.maxResourceVersion else 0
      pc := .relist } : KindBroadcaster).Covered A db := by
  refine { once := h.once, tracked := ?_ }
  intro i w hw hact x hx howed
  have htr := h.tracked i w hw hact x hx howed
  by_cases hfar : ok = true ∧ x.rv + relistLookbackRVs ≤ db.maxResourceVersion
  · obtain ⟨rfl, hfar⟩ := hfar
    rcases htr with hd | ⟨hlook, -⟩
    · exact .inl hd
    by_cases hpc : w.pc = .relist .initial
    · exact .inr ⟨hlook, .relist hpc⟩
    rcases hcov i w hw hact hpc x hx howed hfar with hd | ⟨cause, rows, hscan, hmem⟩
    · exact .inl hd
    · exact .inr ⟨hlook, .scanning hscan hmem⟩
  · refine htr.mono fun hwill => ⟨hwill.1, ?_⟩
    have hpos := hdb.rows_pos hx
    cases ok with
    | true =>
      have : db.maxResourceVersion < x.rv + relistLookbackRVs := by
        simp only [true_and, not_le] at hfar
        exact hfar
      simpa using this
    | false =>
      simp only [Bool.false_eq_true, if_false]
      omega

theorem Covered.step (hA : PostgresWatcher.Followed A) (hdb : db.WellFormed) (hsound : b.Sound db) (hfan : b.FanOut db)
    (h : b.Covered A db) (hprime : b.PrimeCovered A db a) (hfwd : b.ForwardCovered A db a)
    (hs : b.step db cachedRV a = some b') : b'.Covered A db := by
  cases step_effect hs with
  | prime hpc => exact h.prime hdb hprime
  | wake | relistQuery | relistError => exact h.mono rfl fun _ _ _ _ _ _ _ hwill => hwill
  | rowPassed hpc hskip => exact h.mono rfl fun _ _ _ _ _ _ _ hwill => hwill
  | @rowMarked x xs m n hpc hskip hdec =>
    have hx := (hsound.scanned _ _ _ hpc x List.mem_cons_self).1
    refine h.mono rfl fun i w hw hact y hy howed hwill => ⟨?_, hwill.2⟩
    have hne : y ≠ x := by
      rintro rfl
      rw [howed.decodable] at hdec
      cases hdec
    exact (skips_mark_other hdb hx hy hne hskip).trans hwill.1
  | @rowFannedOut x xs m n hpc hskip hdec =>
    obtain ⟨hx, hxk⟩ := hsound.scanned _ _ _ hpc x List.mem_cons_self
    have hlast := hfan.window _ _ _ hpc x List.mem_cons_self
    refine { once := ?_, tracked := ?_ }
    · intro i w hw
      obtain ⟨⟨j, w₀⟩, hw₀, he⟩ := List.mem_map.mp hw
      obtain ⟨rfl, rfl⟩ := Prod.mk.inj he
      have honce := h.once j w₀ hw₀
      rcases PostgresWatcher.offer_cases x w₀ with ⟨he, -⟩ | ⟨-, -, he⟩ | ⟨-, -, -, he⟩ <;>
        simp only [he]
      · exact honce
      · exact honce
      · exact honce
    · intro i w hw hact y hy howed
      obtain ⟨⟨j, w₀⟩, hw₀, he⟩ := List.mem_map.mp hw
      obtain ⟨rfl, rfl⟩ := Prod.mk.inj he
      have hact₀ : A w₀ := hA.offer x w₀ hact
      have howed₀ : w₀.Owed y := by
        rcases PostgresWatcher.offer_cases x w₀ with ⟨he, -⟩ | ⟨-, -, he⟩ | ⟨-, -, -, he⟩ <;>
          simp only [he] at howed
        · exact howed
        · exact ⟨howed.wants, howed.decodable, howed.above⟩
        · exact ⟨howed.wants, howed.decodable, howed.above⟩
      have htr := h.tracked j w₀ hw₀ hact₀ y hy howed₀
      by_cases hne : y = x
      · subst hne
        exact htr.fanned (hA.running w₀ hact₀) howed₀
          (hfan.queue y hy hxk ⟨hskip, hlast⟩ j w₀ hw₀)
      · refine htr.offer.mono fun hwill => ⟨?_, hwill.2⟩
        exact (skips_mark_other hdb hx hy hne hskip).trans hwill.1
  | @relistDone m n hpc =>
    refine h.mono rfl fun i w hw hact x hx howed hwill => ?_
    have hk : x.kind = b.kind := howed.wants.1.trans (hsound.kind i w hw)
    exact willFanOut_relistDone hwill (hfan.ahead x hx hk hwill _ _ _ hpc).2
  | @stop wid w₀ hw₀ hpc =>
    refine { once := ?_, tracked := ?_ }
    · intro i w hw
      rcases Slots.mem_put hw with ⟨-, rfl⟩ | ⟨-, hw⟩
      · exact PostgresWatcher.Once.of_ne (by simp) (by simp)
      · exact h.once i w hw
    · intro i w hw hact x hx howed
      rcases Slots.mem_put hw with ⟨-, rfl⟩ | ⟨-, hw⟩
      · exact absurd rfl (hA.running _ hact)
      · exact (h.tracked i w hw hact x hx howed).mono fun hwill => hwill
  | @watcher wid w₀ w' a hw₀ hw' =>
    have hmem := Slots.mem_of_get? hw₀
    refine { once := ?_, tracked := ?_ }
    · intro i w hw
      rcases Slots.mem_put hw with ⟨-, rfl⟩ | ⟨-, hw⟩
      · exact (h.once wid w₀ hmem).step hw'
      · exact h.once i w hw
    · intro i w hw hact x hx howed
      rcases Slots.mem_put hw with ⟨-, rfl⟩ | ⟨-, hw⟩
      · have howed₀ := PostgresWatcher.owed_step hw' howed
        have hact₀ := hA.step _ _ _ _ _ (h.once wid w₀ hmem) hw' hact
        have hk : x.kind = b.kind := howed₀.wants.1.trans (hsound.kind wid w₀ hmem)
        have htr := h.tracked wid w₀ hmem hact₀ x hx howed₀
        have hnext := htr.step hdb (hsound.queued wid w₀ hmem) (hsound.history wid w₀ hmem)
          (hfan.ordered wid w₀ hmem) (fun hwill => hfan.queue x hx hk hwill wid w₀ hmem) hx howed₀
          (hfwd w₀ hw₀ hact₀) hw'
        exact hnext.mono fun hwill => hwill
      · exact (h.tracked i w hw hact x hx howed).mono fun hwill => hwill

/-- A row that has just been committed is still to be fanned out to everyone. -/
theorem Covered.commit (hdb : db.WellFormed) (hsound : b.Sound db) (h : b.Covered A db)
    (hx : x ∈ db.inflight) (htimely : db.seq < x.rv + relistLookbackRVs) :
    b.Covered A (db.commitRow x) := by
  refine { once := h.once, tracked := ?_ }
  intro i w hw hact y hy howed
  simp only [Database.commitRow, List.mem_cons, List.mem_filter] at hy
  rcases hy with rfl | ⟨hy, -⟩
  · refine .inr ⟨⟨?_, ?_⟩, .fanOut ⟨?_, ?_⟩⟩
    · have hc := (hsound.history i w hw).cursor_le
      have hf := howed.above
      unfold PostgresWatcher.resumeFloor at hf
      omega
    · intro cause rows hpc
      refine .inr fun z hz => ?_
      have hle := hdb.log_le z ((hsound.queued i w hw).scanned _ _ hpc z hz).1
      omega
    · rw [SeenVersions.not_skips_iff]
      intro s hs
      obtain ⟨z, hz, hu, rfl⟩ := hsound.seen _ _ hs
      exact hdb.newer y hx z hz hu
    · have hc := hsound.cursor_le
      omega
  · exact h.tracked i w hw hact y hy howed

theorem Covered.of_rows (h : b.Covered A db) (hrows : ∀ x ∈ db'.rows, x ∈ db.rows) :
    b.Covered A db' where
  once := h.once
  tracked i w hw hact x hx := h.tracked i w hw hact x (hrows x hx)

end KindBroadcaster

namespace Cluster

/-- Transactions commit in time, cursors are primed and queued rows forwarded only when covered. -/
def deliveryPromise (A : PostgresWatcher → Prop) : Promise where
  database := TimelyCommit
  broadcaster db b a := b.PrimeCovered A db a ∧ b.ForwardCovered A db a

section
variable {A : PostgresWatcher → Prop} {c : Cluster}

theorem preserves_covered (hA : PostgresWatcher.Followed A) :
    (deliveryPromise A).Preserves (fun db b => b.Sound db ∧ b.FanOut db)
      (fun db b => b.Covered A db) where
  database db db' a b hdb hok hs hJ h := by
    rcases Database.step_cases hs with
      ⟨x, -, rfl⟩ | ⟨x, hx, rfl, rfl⟩ | ⟨x, -, rfl⟩ | ⟨seq, clock, -, rfl⟩
    · exact h.of_rows fun _ hx => hx
    · exact h.commit hdb hJ.1 hx hok
    · exact h.of_rows fun _ hx => hx
    · exact h.of_rows fun _ hx => hx
  purge db b _ _ h := h.of_rows db.purgeExpired_fixed.2.2
  new db kind := by
    constructor <;> simp [KindBroadcaster.new]
  subscribe db b wid filter startRV _ _ _ h := by
    refine { once := ?_, tracked := ?_ }
    · intro i w hw
      rcases List.mem_cons.mp hw with hw | hw
      · obtain ⟨-, rfl⟩ := Prod.mk.inj hw
        exact fun _ => rfl
      · exact h.once i w hw
    · intro i w hw hact x hx howed
      rcases List.mem_cons.mp hw with hw | hw
      · obtain ⟨-, rfl⟩ := Prod.mk.inj hw
        refine .inr ⟨⟨?_, by simp [PostgresWatcher.new]⟩, .relist rfl⟩
        have hf := howed.above
        simp only [PostgresWatcher.resumeFloor, PostgresWatcher.new] at hf ⊢
        omega
      · exact (h.tracked i w hw hact x hx howed).mono fun hwill => hwill
  step db cachedRV b b' a hdb hok hs hJ h := h.step hA hdb hJ.1 hJ.2 hok.1 hok.2 hs

theorem fanOut_of_reachable (h : machine.Reachable (deliveryPromise A).allows c) :
    ∀ b, c.Has b → b.FanOut c.db :=
  (Promise.preserves_fanOut fun _ _ hok => hok).reachable (fun _ hc => sound_of_reachable hc) h

theorem covered_of_reachable (hA : PostgresWatcher.Followed A)
    (h : machine.Reachable (deliveryPromise A).allows c) :
    ∀ b, c.Has b → b.Covered A c.db :=
  (preserves_covered hA).reachable
    (fun _ hc b hb => ⟨sound_of_reachable hc b hb, fanOut_of_reachable hc b hb⟩) h

end

end Cluster

/-- Nothing is under way: every transaction has ended, the broadcaster has relisted since the last
commit, and the watcher, whose initial relist succeeded, waits with an empty queue and is not
behind. -/
structure PostgresWatcher.Quiescent (db : Database) (b : KindBroadcaster) (w : PostgresWatcher) :
    Prop where
  settled : db.inflight = []
  relisted : b.covered = db.log.length
  waiting : w.pc = .select
  drained : w.inputCh = []
  listed : w.initialRelist = some true
  notBehind : w.behind = false

/-- At a quiescent moment a tracked row has been delivered. -/
theorem PostgresWatcher.Tracked.delivered {db : Database} {b : KindBroadcaster}
    {w : PostgresWatcher} {x : Row} (hdb : db.WellFormed) (hfan : b.FanOut db)
    (hq : w.Quiescent db b) (hx : x ∈ db.rows) (hk : x.kind = b.kind) (h : w.Tracked b x) :
    w.delivered x := by
  rcases h with hd | ⟨-, hroute⟩
  · exact hd
  exfalso
  have hpc := hq.waiting
  cases hroute with
  | relist h => simp [hpc] at h
  | scanning h => simp [hpc] at h
  | queued h => simp [pending, hpc, hq.drained] at h
  | behind h => simp [hq.notBehind] at h
  | fanOut h =>
    have htake : x ∈ db.log.take b.covered := by
      rw [hq.relisted, List.take_length]
      exact hdb.rows_log x hx
    exact hfan.complete x hx hk htake h

namespace Cluster

/-- In runs that keep the delivery promise no stream misses the latest version of a row it wants:
whenever nothing is under way it has been delivered. -/
theorem delivered_of_quiescent {A : PostgresWatcher → Prop} (hA : PostgresWatcher.Followed A)
    {c : Cluster} (h : machine.Reachable (deliveryPromise A).allows c) {b : KindBroadcaster} 
    (hb : c.Has b) {i : Nat} {w : PostgresWatcher} (hw : (i, w) ∈ b.watchers) (hact : A w)
    (hq : w.Quiescent c.db b) {x : Row} (hx : x ∈ c.db.rows) (howed : w.Owed x) :
    w.delivered x := by
  have hdb := wellFormed_of_reachable h
  have hk : x.kind = b.kind := howed.wants.1.trans ((sound_of_reachable h b hb).kind i w hw)
  exact ((covered_of_reachable hA h b hb).tracked i w hw hact x hx howed).delivered hdb
    (fanOut_of_reachable h b hb) hq hx hk

/-- No committed change is lost by a watch opened from the beginning, in runs that keep the
delivery promise. -/
theorem no_change_lost {c : Cluster}
    (h : machine.Reachable (deliveryPromise PostgresWatcher.Active).allows c)
    {b : KindBroadcaster} (hb : c.Has b) {i : Nat} {w : PostgresWatcher} (hw : (i, w) ∈ b.watchers)
    (hstart : w.startRV = 0) (hq : w.Quiescent c.db b) :
    ∀ x ∈ c.db.rows, w.filter.wants x → x.decodable = true → w.delivered x := by
  intro x hx hwants hdec
  have hpos := (wellFormed_of_reachable h).rows_pos hx
  have hfloor : w.resumeFloor = 0 := by simp [PostgresWatcher.resumeFloor, hstart]
  have hact : w.Active := ⟨by simp [hq.waiting], by simp [hq.listed]⟩
  exact delivered_of_quiescent PostgresWatcher.followed_active h hb hw hact hq hx
    ⟨hwants, hdec, by omega⟩

/-! ### Concrete runs -/

/-- A test that implies the delivery promise. -/
def keepsDelivery (c : Cluster) : Action → Bool
  | .database (.commit rv) => decide (c.db.seq < rv + relistLookbackRVs)
  | .broadcaster r bid (.prime true) =>
    (c.broadcaster? r bid).all fun b => b.watchers.all (·.2.pc == .relist .initial)
  | .broadcaster r bid (.watcher wid .forwardRow) =>
    (c.broadcaster? r bid).all fun b => (b.watchers.get? wid).all (!·.relistFailed)
  | _ => true

theorem keepsDelivery_sound {A : PostgresWatcher → Prop} {c : Cluster} {a : Action}
    (h : keepsDelivery c a = true) : (deliveryPromise A).allows c a := by
  cases a with
  | database a =>
    cases a with
    | commit rv =>
      have : c.db.seq < rv + relistLookbackRVs := by simpa [keepsDelivery] using h
      exact this
    | _ => trivial
  | broadcaster r bid a =>
    intro b hb
    cases a with
    | prime ok =>
      cases ok with
      | false => exact ⟨trivial, trivial⟩
      | true =>
        refine ⟨fun i w hw hact hpc => absurd ?_ hpc, trivial⟩
        simp only [keepsDelivery, hb, Option.all_some, List.all_eq_true, beq_iff_eq] at h
        exact h (i, w) hw
    | watcher wid a =>
      refine ⟨trivial, fun w hw _ => ?_⟩
      cases a with
      | forwardRow =>
        intro q hpc hfail
        simp [keepsDelivery, hb, hw, hfail] at h
      | _ => trivial
    | _ => exact ⟨trivial, trivial⟩
  | _ => trivial

/-- The executable form of `Quiescent`. -/
def quiescent (c : Cluster) (b : KindBroadcaster) (w : PostgresWatcher) : Bool :=
  c.db.inflight == [] && b.covered == c.db.log.length && w.pc == .select && w.inputCh == [] &&
    w.initialRelist == some true && !w.behind

theorem quiescent_iff {c : Cluster} {b : KindBroadcaster} {w : PostgresWatcher} :
    quiescent c b w = true ↔ w.Quiescent c.db b := by
  simp only [quiescent, Bool.and_eq_true, beq_iff_eq, Bool.not_eq_true']
  constructor
  · rintro ⟨⟨⟨⟨⟨h₁, h₂⟩, h₃⟩, h₄⟩, h₅⟩, h₆⟩
    exact ⟨h₁, h₂, h₃, h₄, h₅, h₆⟩
  · rintro ⟨h₁, h₂, h₃, h₄, h₅, h₆⟩
    exact ⟨⟨⟨⟨⟨h₁, h₂⟩, h₃⟩, h₄⟩, h₅⟩, h₆⟩

/-- A query created after the initial relist reaches the stream through the broadcaster. -/
def deliveringRun : List Action :=
  openWatch allQueries "" ++ createQuery 1 "a" ++
  [.broadcaster 0 0 (.prime false), .broadcaster 0 0 .relistQuery, .broadcaster 0 0 .relistRow,
    .broadcaster 0 0 .relistDone, watcherStep .receive, watcherStep .forwardRow,
    watcherStep .recoverIfBehind]

theorem no_change_lost_after_fanout :
    ∃ c, machine.Reachable (deliveryPromise PostgresWatcher.Active).allows c ∧
      ∃ b w, c.Has b ∧ (0, w) ∈ b.watchers ∧ query 1 "a" ∈ c.db.rows ∧ w.delivered (query 1 "a") := by
  have hrun : (machine.execWhile keepsDelivery ⟨.empty, []⟩ deliveringRun).any (fun c =>
      (c.watcher? 0 0 0).any fun q => quiescent c q.1 q.2 && q.2.startRV == 0 && c.db.rows == [query 1 "a"] &&
        decide (q.2.filter.wants (query 1 "a"))) = true := by decide
  obtain ⟨c, hc, hp⟩ := Machine.exists_reachable rfl (fun _ _ => keepsDelivery_sound) hrun
  obtain ⟨⟨b, w⟩, hfind, hp⟩ := (Option.any_eq_true _ _).mp hp
  simp only [Bool.and_eq_true, quiescent_iff, beq_iff_eq, decide_eq_true_eq] at hp
  obtain ⟨⟨⟨hq, hstart⟩, hrows⟩, hwants⟩ := hp
  obtain ⟨hb, hw⟩ := mem_of_watcher? hfind
  have hmem : query 1 "a" ∈ c.db.rows := by simp [hrows]
  exact ⟨c, hc, b, w, hb, hw, hmem, no_change_lost hc hb hw hstart hq _ hmem hwants rfl⟩

/-- A query is committed between the initial relist and the priming of the cursor, 500 versions
below the maximum that primes it. -/
def latePrimeRun : List Action :=
  openWatch allQueries "" ++ createQuery 1 "a" ++ List.replicate 499 (.database .burn) ++
  createAgent 501 "b" ++
  [.broadcaster 0 0 (.prime true), .broadcaster 0 0 .relistQuery, .broadcaster 0 0 .relistDone]

/-- A test for runs whose transactions commit in time. -/
def commitsInTime (c : Cluster) : Action → Bool
  | .database (.commit rv) => decide (c.db.seq < rv + relistLookbackRVs)
  | _ => true

def timelyPromise : Promise := ⟨TimelyCommit, fun _ _ _ => True⟩

theorem commitsInTime_sound {c : Cluster} {a : Action} (h : commitsInTime c a = true) :
    timelyPromise.allows c a := by
  cases a with
  | database a =>
    cases a with
    | commit rv =>
      have : c.db.seq < rv + relistLookbackRVs := by simpa [commitsInTime] using h
      exact this
    | _ => trivial
  | broadcaster r bid a => exact fun _ _ => trivial
  | _ => trivial

set_option maxRecDepth 10000 in
/-- Without the promise on the cursor a committed query is lost, though every transaction commits in
time and nothing is under way. -/
theorem change_lost_by_late_prime :
    ¬ ∀ c, machine.Reachable timelyPromise.allows c → ∀ b, c.Has b → ∀ i w, (i, w) ∈ b.watchers →
      w.startRV = 0 → w.Quiescent c.db b →
      ∀ x ∈ c.db.rows, w.filter.wants x → x.decodable = true → w.delivered x := by
  intro hall
  have hrun : (machine.execWhile commitsInTime ⟨.empty, []⟩ latePrimeRun).any (fun c =>
      (c.watcher? 0 0 0).any fun q => quiescent c q.1 q.2 && q.2.startRV == 0 && c.db.rows.contains (query 1 "a") &&
        decide (q.2.filter.wants (query 1 "a")) && q.2.outCh == []) = true := by decide
  obtain ⟨c, hc, hp⟩ := Machine.exists_reachable rfl (fun _ _ => commitsInTime_sound) hrun
  obtain ⟨⟨b, w⟩, hfind, hp⟩ := (Option.any_eq_true _ _).mp hp
  simp only [Bool.and_eq_true, quiescent_iff, beq_iff_eq, decide_eq_true_eq,
    List.contains_iff_mem] at hp
  obtain ⟨⟨⟨⟨hq, hstart⟩, hmem⟩, hwants⟩, hout⟩ := hp
  obtain ⟨hb, hw⟩ := mem_of_watcher? hfind
  obtain ⟨type, hev⟩ := hall c hc b hb 0 w hw hstart hq _ hmem hwants rfl
  simp [hout] at hev

end Cluster
end Ark
