import Ark.WatchInvariant

/-!
# What the broadcaster still owes its subscribers

When every transaction commits before the sequence has moved a lookback window past its version,
a row that the broadcaster has not fanned out and that its cursor still looks back to will be read
by its next relist, and nothing queued for a subscriber lies a window above it.
-/

namespace Ark

/-- At a commit the sequence is still within the lookback window of the committed version. -/
def TimelyCommit (db : Database) : Database.Action → Prop
  | .commit rv => db.seq < rv + relistLookbackRVs
  | _ => True

namespace KindBroadcaster

/-- The next relist of the broadcaster reads `x` and fans it out. -/
def willFanOut (b : KindBroadcaster) (x : Row) : Prop :=
  b.seenRVs.skips x.uid x.rv = false ∧ b.lastSeenRV < x.rv + relistLookbackRVs

structure FanOut (db : Database) (b : KindBroadcaster) : Prop where
  started : b.pc = .start → b.lastSeenRV = 0 ∧ b.covered = 0
  asOf_le : ∀ rows m n, b.pc = .scanning rows m n → n ≤ db.log.length
  covered_le : b.covered ≤ db.log.length
  window : ∀ rows m n, b.pc = .scanning rows m n →
    ∀ x ∈ rows, b.lastSeenRV < x.rv + relistLookbackRVs
  ahead : ∀ x ∈ db.rows, x.kind = b.kind → b.willFanOut x →
    ∀ rows m n, b.pc = .scanning rows m n →
      (x ∈ rows ∨ ∀ y ∈ rows, y.rv < x.rv + relistLookbackRVs) ∧ m < x.rv + relistLookbackRVs
  queue : ∀ x ∈ db.rows, x.kind = b.kind → b.willFanOut x →
    ∀ i w, (i, w) ∈ b.watchers → ∀ y ∈ w.pending, y.rv < x.rv + relistLookbackRVs
  ordered : ∀ i w, (i, w) ∈ b.watchers →
    w.pending.Pairwise fun y x => x ∈ db.rows → y.rv < x.rv + relistLookbackRVs
  read : ∀ x ∈ db.rows, x.kind = b.kind → ∀ rows m n, b.pc = .scanning rows m n →
    x ∈ db.log.take n → x ∈ rows ∨ ¬ b.willFanOut x
  complete : ∀ x ∈ db.rows, x.kind = b.kind → x ∈ db.log.take b.covered → ¬ b.willFanOut x

variable {db db' : Database} {b b' : KindBroadcaster} {x y : Row} {cachedRV : Nat} {a : Action}

/-- Recording another row of the table leaves what is known of a current row unchanged. -/
theorem skips_mark_other (hdb : db.WellFormed) (hx : x ∈ db.log) (hy : y ∈ db.rows) (hne : y ≠ x)
    {seen : SeenVersions String} (hskip : seen.skips x.uid x.rv = false) :
    (seen.mark x.uid x.rv).skips y.uid y.rv = seen.skips y.uid y.rv := by
  by_cases hu : y.uid = x.uid
  · have hlt : x.rv < y.rv := by
      by_contra hle
      exact hne (hdb.eq_of_le hy hx hu.symm (Nat.not_lt.mp hle)).symm
    have hnew : (seen.mark x.uid x.rv).skips y.uid y.rv = false := by
      rw [SeenVersions.not_skips_iff]
      intro s hs
      rw [hu, SeenVersions.mark_same] at hs
      obtain rfl := Option.some.inj hs
      exact hlt
    have hold : seen.skips y.uid y.rv = false := by
      rw [SeenVersions.not_skips_iff]
      intro s hs
      have := SeenVersions.not_skips_iff.mp hskip s (hu ▸ hs)
      omega
    rw [hnew, hold]
  · simp only [SeenVersions.skips, SeenVersions.mark_ne hu]

theorem willFanOut_of_relistDone {m n : Nat} (h : (b.relistDone m n).willFanOut x) :
    b.willFanOut x := by
  obtain ⟨hskip, hlast⟩ := h
  simp only [relistDone] at hskip hlast
  refine ⟨?_, by omega⟩
  cases hs : b.seenRVs.skips x.uid x.rv with
  | false => rfl
  | true =>
    rcases SeenVersions.skips_prune_or_lt (max b.lastSeenRV m - seenWindow) hs with hp | hlt
    · rw [hp] at hskip
      cases hskip
    · unfold seenWindow at hlt
      unfold relistLookbackRVs at hlast
      omega

theorem willFanOut_relistDone {m n : Nat} (h : b.willFanOut x)
    (hm : m < x.rv + relistLookbackRVs) : (b.relistDone m n).willFanOut x := by
  obtain ⟨hskip, hlast⟩ := h
  refine ⟨?_, ?_⟩
  · cases hs : (b.relistDone m n).seenRVs.skips x.uid x.rv with
    | false => rfl
    | true =>
      rw [SeenVersions.skips_of_prune hs] at hskip
      cases hskip
  · simp only [relistDone]
    omega

/-- Moving past a row of the scan that is recorded as seen afterwards. -/
theorem FanOut.scan_tail {xs : List Row} {m n : Nat} (hsound : b.Sound db) (h : b.FanOut db)
    (hpc : b.pc = .scanning (x :: xs) m n) (hpc' : b'.pc = .scanning xs (max m x.rv) n)
    (hkind : b'.kind = b.kind) (hlast : b'.lastSeenRV = b.lastSeenRV)
    (hcov : b'.covered = b.covered) (hmarked : b'.seenRVs.skips x.uid x.rv = true)
    (hother : ∀ y ∈ db.rows, y ≠ x →
      b'.seenRVs.skips y.uid y.rv = b.seenRVs.skips y.uid y.rv)
    (hqueue : ∀ i w, (i, w) ∈ b'.watchers → ∀ y ∈ db.rows, y ≠ x → y.kind = b.kind →
      b.willFanOut y → ∀ z ∈ w.pending, z.rv < y.rv + relistLookbackRVs)
    (hordered : ∀ i w, (i, w) ∈ b'.watchers →
      w.pending.Pairwise fun z y => y ∈ db.rows → z.rv < y.rv + relistLookbackRVs) :
    b'.FanOut db := by
  have hback : ∀ y ∈ db.rows, b'.willFanOut y → y ≠ x ∧ b.willFanOut y := by
    rintro y hy ⟨hskip, hlt⟩
    have hne : y ≠ x := by
      rintro rfl
      rw [hmarked] at hskip
      cases hskip
    exact ⟨hne, hother y hy hne ▸ hskip, hlast ▸ hlt⟩
  have hfwd : ∀ y ∈ db.rows, ¬ b.willFanOut y → ¬ b'.willFanOut y :=
    fun y hy hno hyes => hno (hback y hy hyes).2
  have hscan : ∀ rows m' n', b'.pc = .scanning rows m' n' →
      xs = rows ∧ max m x.rv = m' ∧ n = n' := by
    intro rows m' n' hs
    simpa [hpc'] using hs
  refine
    { started := by simp [hpc']
      asOf_le := ?_
      covered_le := hcov ▸ h.covered_le
      window := ?_
      ahead := ?_
      queue := ?_
      ordered := hordered
      read := ?_
      complete := ?_ }
  · intro rows m' n' hs
    obtain ⟨-, -, rfl⟩ := hscan rows m' n' hs
    exact h.asOf_le _ _ _ hpc
  · intro rows m' n' hs y hy
    obtain ⟨rfl, -, -⟩ := hscan rows m' n' hs
    rw [hlast]
    exact h.window _ _ _ hpc y (List.mem_cons_of_mem _ hy)
  · intro y hy hk hw rows m' n' hs
    obtain ⟨rfl, rfl, -⟩ := hscan rows m' n' hs
    obtain ⟨hne, hw⟩ := hback y hy hw
    obtain ⟨hor, hm⟩ := h.ahead y hy (hk.trans hkind) hw _ _ _ hpc
    rcases hor with hmem | hall
    · have hxs : y ∈ xs := (List.mem_cons.mp hmem).resolve_left hne
      have hle : x.rv ≤ y.rv := List.rel_of_pairwise_cons (hsound.sorted _ _ _ hpc) hxs
      have hpos := relistLookbackRVs_pos
      exact ⟨.inl hxs, by omega⟩
    · have hx := hall x List.mem_cons_self
      exact ⟨.inr fun z hz => hall z (List.mem_cons_of_mem _ hz), by omega⟩
  · intro y hy hk hw i w hmem
    obtain ⟨hne, hw⟩ := hback y hy hw
    exact hqueue i w hmem y hy hne (hk.trans hkind) hw
  · intro y hy hk rows m' n' hs htake
    obtain ⟨rfl, -, rfl⟩ := hscan rows m' n' hs
    rcases h.read y hy (hk.trans hkind) _ _ _ hpc htake with hmem | hno
    · rcases List.mem_cons.mp hmem with rfl | hxs
      · refine .inr fun hw => ?_
        exact (hback y hy hw).1 rfl
      · exact .inl hxs
    · exact .inr (hfwd y hy hno)
  · intro y hy hk htake
    exact hfwd y hy (h.complete y hy (hk.trans hkind) (hcov ▸ htake))

theorem pending_fanout {i : Nat} {w : PostgresWatcher}
    (hw : (i, w) ∈ b.watchers.map fun p => (p.1, p.2.offer x)) :
    ∃ w₀, (i, w₀) ∈ b.watchers ∧ (w.pending = w₀.pending ∨ w.pending = w₀.pending ++ [x]) := by
  obtain ⟨⟨j, w₀⟩, hw₀, he⟩ := List.mem_map.mp hw
  obtain ⟨rfl, rfl⟩ := Prod.mk.inj he
  refine ⟨w₀, hw₀, ?_⟩
  rcases PostgresWatcher.offer_cases x w₀ with ⟨he, -⟩ | ⟨-, -, he⟩ | ⟨-, -, -, he⟩
  · exact .inl (by rw [he])
  · exact .inr (by rw [he, PostgresWatcher.pending_append])
  · exact .inl (by rw [he]; rfl)

/-- A watcher's own steps only take rows off its queue. -/
theorem pending_sublist {w w' : PostgresWatcher} {a : PostgresWatcher.Action}
    (h : w.step db cachedRV a = some w') : w'.pending.Sublist w.pending := by
  have hin : ∀ {v : PostgresWatcher}, v.inputCh = w.inputCh → (∀ x, v.pc ≠ .forwarding x) →
      v.pending.Sublist w.pending := by
    intro v hv hpc
    rw [PostgresWatcher.pending_eq hpc, hv]
    unfold PostgresWatcher.pending
    split
    · exact List.sublist_cons_self _ _
    · exact List.Sublist.refl _
  cases PostgresWatcher.step_effect h with
  | @queryError cause | @scanError cause | @relistDone cause => exact hin rfl cause.next_ne.1
  | @caughtUp r => exact hin rfl (Cause.catchUp r).next_ne.1
  | receive hpc hrest => simp [PostgresWatcher.pending, hpc, hrest]
  | consume => exact List.Sublist.refl _
  | _ => exact hin rfl (by simp)

theorem FanOut.watchers (h : b.FanOut db) {ws : Slots PostgresWatcher} {done : Bool}
    (hws : ∀ i w, (i, w) ∈ ws → ∃ j w₀, (j, w₀) ∈ b.watchers ∧ w.pending.Sublist w₀.pending) :
    ({ b with watchers := ws, done } : KindBroadcaster).FanOut db :=
  { h with
    queue := fun x hx hk hwill i w hw y hy => by
      obtain ⟨j, w₀, hw₀, hsub⟩ := hws i w hw
      exact h.queue x hx hk hwill j w₀ hw₀ y (hsub.subset hy)
    ordered := fun i w hw => by
      obtain ⟨j, w₀, hw₀, hsub⟩ := hws i w hw
      exact (h.ordered j w₀ hw₀).sublist hsub }

theorem FanOut.step (hdb : db.WellFormed) (hsound : b.Sound db) (h : b.FanOut db)
    (hs : b.step db cachedRV a = some b') : b'.FanOut db := by
  cases step_effect hs with
  | @prime ok hpc =>
    obtain ⟨hzero, hcov⟩ := h.started hpc
    have hwas : ∀ x, b.seenRVs.skips x.uid x.rv = false → b.willFanOut x := by
      intro x hx
      have hpos := relistLookbackRVs_pos
      exact ⟨hx, by omega⟩
    refine
      { h with
        started := by simp
        asOf_le := by simp
        window := by simp
        ahead := by simp
        queue := fun x hx hk hwill => h.queue x hx hk (hwas x hwill.1)
        read := by simp
        complete := ?_ }
    intro x _ _ htake
    simp [hcov] at htake
  | wake hpc =>
    exact
      { h with
        started := by simp
        asOf_le := by simp
        window := by simp
        ahead := by simp
        read := by simp }
  | relistQuery hpc =>
    have hscan : ∀ {rows m n}, BroadcasterPc.scanning (db.select b.relistQuery) b.lastSeenRV
        db.log.length = .scanning rows m n →
        db.select b.relistQuery = rows ∧ b.lastSeenRV = m ∧ db.log.length = n := by
      intro rows m n hrows
      simpa using hrows
    refine
      { h with
        started := by simp
        asOf_le := ?_
        window := ?_
        ahead := ?_
        read := ?_ }
    · intro rows m n hrows
      obtain ⟨-, -, rfl⟩ := hscan hrows
      exact le_rfl
    · intro rows m n hrows x hx
      obtain ⟨rfl, -, -⟩ := hscan hrows
      have hlow := (mem_relistQuery.mp hx).2.2
      simp only
      omega
    · intro x hx hk hwill rows m n hrows
      obtain ⟨rfl, rfl, -⟩ := hscan hrows
      have hlt := hwill.2
      simp only at hlt
      exact ⟨.inl (mem_relistQuery.mpr ⟨hx, hk, by have := hdb.rows_pos hx; omega⟩), hlt⟩
    · intro x hx hk rows m n hrows _
      obtain ⟨rfl, -, -⟩ := hscan hrows
      by_cases hwill : b.willFanOut x
      · have hlt := hwill.2
        exact .inl (mem_relistQuery.mpr ⟨hx, hk, by have := hdb.rows_pos hx; omega⟩)
      · exact .inr hwill
  | @rowPassed x xs m n hpc hskip =>
    exact h.scan_tail hsound hpc rfl rfl rfl rfl hskip (fun _ _ _ => rfl)
      (fun i w hw y hy _ hk hwill => h.queue y hy hk hwill i w hw) h.ordered
  | @rowMarked x xs m n hpc hskip hdec =>
    have hx := (hsound.scanned _ _ _ hpc x List.mem_cons_self).1
    exact h.scan_tail hsound hpc rfl rfl rfl rfl SeenVersions.skips_mark_self
      (fun y hy hne => skips_mark_other hdb hx hy hne hskip)
      (fun i w hw y hy _ hk hwill => h.queue y hy hk hwill i w hw) h.ordered
  | @rowFannedOut x xs m n hpc hskip hdec =>
    obtain ⟨hx, hxk⟩ := hsound.scanned _ _ _ hpc x List.mem_cons_self
    have hlast := h.window _ _ _ hpc x List.mem_cons_self
    refine h.scan_tail hsound hpc rfl rfl rfl rfl SeenVersions.skips_mark_self
      (fun y hy hne => skips_mark_other hdb hx hy hne hskip) ?_ ?_
    · intro i w hw y hy hne hk hwill z hz
      obtain ⟨w₀, hw₀, hpend⟩ := pending_fanout hw
      have hold := h.queue y hy hk hwill i w₀ hw₀
      have hnew : x.rv < y.rv + relistLookbackRVs := by
        rcases (h.ahead y hy hk hwill _ _ _ hpc).1 with hmem | hall
        · have hxs : y ∈ xs := (List.mem_cons.mp hmem).resolve_left hne
          have hle : x.rv ≤ y.rv := List.rel_of_pairwise_cons (hsound.sorted _ _ _ hpc) hxs
          have hpos := relistLookbackRVs_pos
          omega
        · exact hall x List.mem_cons_self
      rcases hpend with hpend | hpend
      · exact hold z (hpend ▸ hz)
      · rcases List.mem_append.mp (hpend ▸ hz) with hz | hz
        · exact hold z hz
        · obtain rfl := List.mem_singleton.mp hz
          exact hnew
    · intro i w hw
      obtain ⟨w₀, hw₀, hpend⟩ := pending_fanout hw
      rcases hpend with hpend | hpend
      · exact hpend ▸ h.ordered i w₀ hw₀
      · rw [hpend, List.pairwise_append]
        refine ⟨h.ordered i w₀ hw₀, by simp, ?_⟩
        intro z hz y hy hrow
        obtain rfl := List.mem_singleton.mp hy
        exact h.queue y hrow hxk ⟨hskip, hlast⟩ i w₀ hw₀ z hz
  | @relistDone m n hpc =>
    refine
      { h with
        started := by simp [KindBroadcaster.relistDone]
        asOf_le := by simp [KindBroadcaster.relistDone]
        covered_le := h.asOf_le _ _ _ hpc
        window := by simp [KindBroadcaster.relistDone]
        ahead := by simp [KindBroadcaster.relistDone]
        queue := fun x hx hk hwill => h.queue x hx hk (willFanOut_of_relistDone hwill)
        read := by simp [KindBroadcaster.relistDone]
        complete := ?_ }
    intro x hx hk htake hwill
    rcases h.read x hx hk _ _ _ hpc htake with hmem | hno
    · cases hmem
    · exact hno (willFanOut_of_relistDone hwill)
  | relistError hpc =>
    exact
      { h with
        started := by simp [KindBroadcaster.onRelistFailure]
        asOf_le := by simp [KindBroadcaster.onRelistFailure]
        window := by simp [KindBroadcaster.onRelistFailure]
        ahead := by simp [KindBroadcaster.onRelistFailure]
        read := by simp [KindBroadcaster.onRelistFailure] }
  | @stop wid w₀ hw₀ hpc =>
    refine h.watchers fun i w hw => ?_
    rcases Slots.mem_put hw with ⟨-, rfl⟩ | ⟨-, hw⟩
    · refine ⟨wid, w₀, Slots.mem_of_get? hw₀, ?_⟩
      unfold PostgresWatcher.pending
      dsimp only
      split
      · exact List.sublist_cons_self _ _
      · exact List.Sublist.refl _
    · exact ⟨i, w, hw, List.Sublist.refl _⟩
  | @watcher wid w₀ w' a hw₀ hw' =>
    refine h.watchers fun i w hw => ?_
    rcases Slots.mem_put hw with ⟨-, rfl⟩ | ⟨-, hw⟩
    · exact ⟨wid, w₀, Slots.mem_of_get? hw₀, pending_sublist hw'⟩
    · exact ⟨i, w, hw, List.Sublist.refl _⟩

/-- The table shrinks or stays, and the log stays. -/
theorem FanOut.of_rows (h : b.FanOut db) (hrows : ∀ x ∈ db'.rows, x ∈ db.rows)
    (hlog : db'.log = db.log) : b.FanOut db' :=
  { started := h.started
    asOf_le := hlog ▸ h.asOf_le
    covered_le := hlog ▸ h.covered_le
    window := h.window
    ahead := fun x hx => h.ahead x (hrows x hx)
    queue := fun x hx => h.queue x (hrows x hx)
    ordered := fun i w hw => (h.ordered i w hw).imp fun hyx hx => hyx (hrows _ hx)
    read := fun x hx => hlog ▸ h.read x (hrows x hx)
    complete := fun x hx => hlog ▸ h.complete x (hrows x hx) }

theorem FanOut.commit (hdb : db.WellFormed) (hsound : b.Sound db) (h : b.FanOut db)
    (hx : x ∈ db.inflight) (htimely : db.seq < x.rv + relistLookbackRVs) :
    b.FanOut (db.commitRow x) := by
  have hrows : ∀ y ∈ (db.commitRow x).rows, y = x ∨ y ∈ db.rows := by
    intro y hy
    simp only [Database.commitRow, List.mem_cons, List.mem_filter] at hy
    tauto
  have htake : ∀ {n}, n ≤ db.log.length → (db.commitRow x).log.take n = db.log.take n := by
    intro n hn
    exact List.take_append_of_le_length hn
  have hnew : ∀ {n}, n ≤ db.log.length → x ∉ (db.commitRow x).log.take n := by
    intro n hn hmem
    rw [htake hn] at hmem
    exact hdb.inflight_not_log hx (List.mem_of_mem_take hmem)
  have hbound : ∀ y ∈ db.log, y.rv < x.rv + relistLookbackRVs := by
    intro y hy
    have := hdb.log_le y hy
    omega
  have hlen : db.log.length ≤ (db.commitRow x).log.length := by simp [Database.commitRow]
  refine
    { started := h.started
      asOf_le := fun rows m n hpc => (h.asOf_le rows m n hpc).trans hlen
      covered_le := h.covered_le.trans hlen
      window := h.window
      ahead := ?_
      queue := ?_
      ordered := ?_
      read := ?_
      complete := ?_ }
  · intro y hy hk hwill rows m n hpc
    rcases hrows y hy with rfl | hy
    · have hm := hsound.max_le _ _ _ hpc
      exact ⟨.inr fun z hz => hbound z (hsound.scanned _ _ _ hpc z hz).1, by omega⟩
    · exact h.ahead y hy hk hwill rows m n hpc
  · intro y hy hk hwill i w hw z hz
    rcases hrows y hy with rfl | hy
    · exact hbound z ((hsound.queued i w hw).pending z hz).1
    · exact h.queue y hy hk hwill i w hw z hz
  · intro i w hw
    refine (h.ordered i w hw).imp_of_mem ?_
    intro z y hz _ hzy hy
    rcases hrows y hy with rfl | hy
    · exact hbound z ((hsound.queued i w hw).pending z hz).1
    · exact hzy hy
  · intro y hy hk rows m n hpc hmem
    have hn := h.asOf_le _ _ _ hpc
    rcases hrows y hy with rfl | hy
    · exact absurd hmem (hnew hn)
    · exact h.read y hy hk rows m n hpc (htake hn ▸ hmem)
  · intro y hy hk hmem
    rcases hrows y hy with rfl | hy
    · exact absurd hmem (hnew h.covered_le)
    · exact h.complete y hy hk (htake h.covered_le ▸ hmem)

end KindBroadcaster

namespace Cluster

theorem Promise.preserves_fanOut {P : Promise} (hP : ∀ db a, P.database db a → TimelyCommit db a) :
    P.Preserves (fun db b => b.Sound db) (fun db b => b.FanOut db) where
  database db db' a b hdb hok hs hsound h := by
    rcases Database.step_cases hs with
      ⟨x, -, rfl⟩ | ⟨x, hx, rfl, rfl⟩ | ⟨x, -, rfl⟩ | ⟨seq, clock, -, rfl⟩
    · exact h.of_rows (fun _ hx => hx) rfl
    · exact h.commit hdb hsound hx (hP _ _ hok)
    · exact h.of_rows (fun _ hx => hx) rfl
    · exact h.of_rows (fun _ hx => hx) rfl
  purge db b _ _ h := by
    obtain ⟨hlog, -, hrows⟩ := db.purgeExpired_fixed
    exact h.of_rows hrows hlog
  new db kind := by
    constructor <;> simp [KindBroadcaster.new]
  subscribe db b wid filter startRV _ _ _ h := by
    have hpend : (PostgresWatcher.new filter startRV).pending = [] := rfl
    refine { h with queue := ?_, ordered := ?_ }
    · intro x hx hk hwill i w hw
      rcases List.mem_cons.mp hw with hw | hw
      · obtain ⟨-, rfl⟩ := Prod.mk.inj hw
        simp [hpend]
      · exact h.queue x hx hk hwill i w hw
    · intro i w hw
      rcases List.mem_cons.mp hw with hw | hw
      · obtain ⟨-, rfl⟩ := Prod.mk.inj hw
        simp [hpend]
      · exact h.ordered i w hw
  step db cachedRV b b' a hdb _ hs hsound h := h.step hdb hsound hs

end Cluster
end Ark
