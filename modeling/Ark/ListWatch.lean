import Ark.Pagination
import Ark.SelectorWatch

/-!
# Listing a kind and watching it from there

A client lists a kind over any number of pages and then watches from the version the list reports.
A row that was written again while the pages were read, and is on none of them, was committed after
page 1 took its snapshot, hence within the lookback window of the reported version, and the watch
sends it. The client's map from uid to version converges to the live rows.
-/

namespace Ark

namespace Database

/-- Nothing was purged: every object that was ever written has its row, and no row has moved to
another kind or namespace. -/
structure Unpurged (db : Database) : Prop where
  floor : db.watchPurgeFloor = 0
  rowed : ∀ x ∈ db.log, ∃ y ∈ db.rows, y.uid = x.uid
  placed : ∀ x ∈ db.log ++ db.inflight, ∀ y ∈ db.log ++ db.inflight, x.uid = y.uid →
    x.kind = y.kind ∧ x.ns = y.ns

variable {db db' : Database} {a : Action}

/-- A statement writes a new object, or another version of an object where it is. -/
theorem step_places (h : db.step a = some db') :
    (∃ x, db' = db.write x ∧ ((∀ y ∈ db.log ++ db.inflight, y.uid ≠ x.uid) ∨
      ∃ y ∈ db.rows, y.uid = x.uid ∧ y.kind = x.kind ∧ y.ns = x.ns)) ∨
    ∀ x ∈ db'.log ++ db'.inflight, x ∈ db.log ++ db.inflight := by
  cases a with
  | create kind ns name uid labels decodable =>
    simp only [step, uidFresh, Option.ite_none_right_eq_some, Bool.and_eq_true, List.all_eq_true,
      bne_iff_ne, Option.some.injEq] at h
    obtain ⟨⟨-, hlog, hin⟩, rfl⟩ := h
    refine .inl ⟨_, rfl, .inl ?_⟩
    intro y hy
    exact (List.mem_append.mp hy).elim (hlog y) (hin y)
  | update kind ns name rv labels decodable =>
    simp only [step, Option.bind_eq_bind, Option.bind_eq_some_iff, Option.ite_none_right_eq_some,
      Option.some.injEq] at h
    obtain ⟨x, hx, -, rfl⟩ := h
    exact .inl ⟨_, rfl, .inr ⟨x, (liveRow_some hx).1, rfl, rfl, rfl⟩⟩
  | delete kind ns name =>
    simp only [step, Option.bind_eq_bind, Option.bind_eq_some_iff, Option.ite_none_right_eq_some,
      Option.some.injEq] at h
    obtain ⟨x, hx, -, rfl⟩ := h
    exact .inl ⟨_, rfl, .inr ⟨x, (liveRow_some hx).1, rfl, rfl, rfl⟩⟩
  | burn | tick =>
    obtain rfl := Option.some.inj h
    exact .inr fun _ hx => hx
  | commit rv =>
    obtain ⟨x, hx, rfl⟩ := Option.map_eq_some_iff.mp h
    have hmem := List.mem_of_find?_eq_some hx
    right
    intro y hy
    simp only [commitRow, List.append_assoc, List.mem_append, List.mem_singleton] at hy
    rcases hy with hy | rfl | hy
    · exact List.mem_append_left _ hy
    · exact List.mem_append_right _ hmem
    · exact List.mem_append_right _ (List.mem_of_mem_erase hy)
  | rollback rv =>
    obtain ⟨x, -, rfl⟩ := Option.map_eq_some_iff.mp h
    right
    intro y hy
    exact (List.mem_append.mp hy).elim (List.mem_append_left _)
      fun hy => List.mem_append_right _ (List.mem_of_mem_erase hy)

theorem Unpurged.step (hdb : db.WellFormed) (hu : db.Unpurged) (h : db.step a = some db') :
    db'.Unpurged where
  floor := (step_floor h).trans hu.floor
  rowed := by
    rcases step_cases h with ⟨x, -, rfl⟩ | ⟨x, hx, -, rfl⟩ | ⟨x, -, rfl⟩ | ⟨seq, clock, -, rfl⟩
    · exact hu.rowed
    · intro z hz
      rcases List.mem_append.mp hz with hz | hz
      · obtain ⟨y, hy, hyu⟩ := hu.rowed z hz
        by_cases hyx : y.uid = x.uid
        · exact ⟨x, List.mem_cons_self, hyx.symm.trans hyu⟩
        · refine ⟨y, List.mem_cons_of_mem _ (List.mem_filter.mpr ⟨hy, by simpa using hyx⟩), hyu⟩
      · rw [List.mem_singleton.mp hz]
        exact ⟨x, List.mem_cons_self, rfl⟩
    · exact hu.rowed
    · exact hu.rowed
  placed := by
    rcases step_places h with ⟨x, rfl, hx⟩ | hsub
    · have hmem : ∀ y, y ∈ (db.write x).log ++ (db.write x).inflight →
          y = { x with rv := db.seq + 1 } ∨ y ∈ db.log ++ db.inflight := by
        intro y hy
        simp only [write, List.mem_append, List.mem_cons] at hy ⊢
        tauto
      -- an older version of the object that was written is where the new one is
      have hold : ∀ y ∈ db.log ++ db.inflight, x.uid = y.uid → x.kind = y.kind ∧ x.ns = y.ns := by
        intro y hy hyu
        rcases hx with hfresh | ⟨z, hz, hzu, hzk, hzn⟩
        · exact absurd hyu.symm (hfresh y hy)
        · have hzl : z ∈ db.log ++ db.inflight := List.mem_append_left _ (hdb.rows_log z hz)
          rw [← hzk, ← hzn]
          exact hu.placed z hzl y hy (hzu.trans hyu)
      intro y hy z hz hyz
      rcases hmem y hy with rfl | hy
      · rcases hmem z hz with rfl | hz
        · exact ⟨rfl, rfl⟩
        · exact hold z hz hyz
      · rcases hmem z hz with rfl | hz
        · obtain ⟨hk, hn⟩ := hold y hy hyz.symm
          exact ⟨hk.symm, hn.symm⟩
        · exact hu.placed y hy z hz hyz
    · exact fun y hy z hz => hu.placed y (hsub y hy) z (hsub z hz)

end Database

namespace PostgresWatcher

/-- Everything on the stream, or about to be, is above the resume floor. -/
structure AboveFloor (w : PostgresWatcher) : Prop where
  delivered : ∀ x, w.delivered x → w.resumeFloor < x.rv
  scanned : ∀ cause rows, w.pc = .scanning cause rows → ∀ x ∈ rows, w.resumeFloor < x.rv

variable {db : Database} {w w' : PostgresWatcher} {x : Row} {cachedRV : Nat} {a : Action}

theorem aboveFloor_new (filter : WatchFilter) (startRV : Nat) :
    (PostgresWatcher.new filter startRV).AboveFloor := by
  constructor <;> simp [PostgresWatcher.new, PostgresWatcher.delivered]

theorem AboveFloor.of_out (h : w.AboveFloor) (hout : ∀ y, w'.delivered y → w.delivered y)
    (hs : w'.startRV = w.startRV)
    (hpc : ∀ cause rows, w'.pc = .scanning cause rows →
      ∃ rows', w.pc = .scanning cause rows' ∧ rows ⊆ rows') : w'.AboveFloor := by
  have hfloor : w'.resumeFloor = w.resumeFloor := by
    unfold resumeFloor
    rw [hs]
  constructor
  · intro y hy
    rw [hfloor]
    exact h.delivered y (hout y hy)
  · intro cause rows hi y hy
    obtain ⟨rows', hpc', hsub⟩ := hpc cause rows hi
    rw [hfloor]
    exact h.scanned cause rows' hpc' y (hsub hy)

theorem AboveFloor.step (h : w.AboveFloor) (hs : w.step db cachedRV a = some w') :
    w'.AboveFloor := by
  cases step_effect hs with
  | @relistQuery cause q hpc hq =>
    refine ⟨h.delivered, ?_⟩
    intro c rows hi x hx
    obtain ⟨-, rfl⟩ := WatcherPc.scanning.inj hi
    have hlt := ((w.filter.buildRelistQuery_iff hq x).mp (Database.mem_select.mp hx).2).2
    have hle : w.resumeFloor ≤ w.queryFromRV := le_max_right _ _
    exact hle.trans_lt hlt
  | @queryError cause | @scanError cause | @relistDone cause =>
    exact h.of_out (fun _ hy => hy) rfl fun c rows hi => absurd hi (cause.next_ne.2 c rows)
  | @rowSkipped cause x xs hpc | @rowUndecodable cause x xs hpc =>
    refine h.of_out (fun _ hy => hy) rfl ?_
    intro c rows hi
    obtain ⟨rfl, rfl⟩ := WatcherPc.scanning.inj hi
    exact ⟨x :: xs, hpc, List.subset_cons_self x xs⟩
  | @rowEmitted cause x xs hpc hskip hdec hroom =>
    have hx := h.scanned cause (x :: xs) hpc x List.mem_cons_self
    constructor
    · intro y hy
      rcases delivered_emit.mp hy with hy | rfl
      · exact h.delivered y hy
      · exact hx
    · intro c rows hi y hy
      obtain ⟨rfl, rfl⟩ := WatcherPc.scanning.inj hi
      exact h.scanned cause (x :: xs) hpc y (List.mem_cons_of_mem _ hy)
  | sendBookmark hpc =>
    exact h.of_out (fun y hy => delivered_sendBookmark.mp hy) rfl fun c rows hi => by cases hi
  | @forwardEmitted x hpc hfloor hskip hroom =>
    constructor
    · intro y hy
      rcases delivered_emit.mp hy with hy | rfl
      · exact h.delivered y hy
      · exact hfloor
    · intro c rows hi
      cases hi
  | caughtUp =>
    exact h.of_out (fun _ hy => hy) rfl fun c rows hi =>
      absurd hi ((Cause.catchUp _).next_ne.2 c rows)
  | consume => exact ⟨h.delivered, h.scanned⟩
  | _ => exact h.of_out (fun _ hy => hy) rfl fun c rows hi => by cases hi

theorem AboveFloor.offer (h : w.AboveFloor) (x : Row) : (w.offer x).AboveFloor := by
  rcases offer_cases x w with ⟨he, -⟩ | ⟨-, -, he⟩ | ⟨-, -, -, he⟩ <;> rw [he]
  · exact h
  · exact ⟨h.delivered, h.scanned⟩
  · exact ⟨h.delivered, h.scanned⟩

end PostgresWatcher

namespace Cluster

theorem Promise.preserves_aboveFloor (P : Promise) :
    P.Preserves (fun _ _ => True) (fun _ b => ∀ i w, (i, w) ∈ b.watchers → w.AboveFloor) where
  database _ _ _ _ _ _ _ _ h := h
  purge _ _ _ _ h := h
  new db kind := by simp [KindBroadcaster.new]
  subscribe db b wid filter startRV _ _ _ h := by
    intro i w hw
    rcases List.mem_cons.mp hw with hw | hw
    · obtain ⟨-, rfl⟩ := Prod.mk.inj hw
      exact PostgresWatcher.aboveFloor_new filter startRV
    · exact h i w hw
  step db cachedRV b b' a _ _ hs _ h := by
    intro i w hw
    cases KindBroadcaster.step_effect hs with
    | rowFannedOut =>
      obtain ⟨⟨j, v⟩, hv, heq⟩ := List.mem_map.mp hw
      obtain ⟨-, rfl⟩ := Prod.mk.inj heq
      exact (h j v hv).offer _
    | stop hget =>
      rcases Slots.mem_put hw with ⟨-, rfl⟩ | ⟨-, hw⟩
      · exact (h _ _ (Slots.mem_of_get? hget)).of_out (fun _ hy => hy) rfl
          fun c rows hi => by cases hi
      · exact h i w hw
    | watcher hget hstep =>
      rcases Slots.mem_put hw with ⟨-, rfl⟩ | ⟨-, hw⟩
      · exact (h _ _ (Slots.mem_of_get? hget)).step hstep
      · exact h i w hw
    | _ => exact h i w hw

theorem unpurged_of_reachable {ok : Cluster → Action → Prop} {c : Cluster}
    (hok : ∀ c a, ok c a → ∀ r, a ≠ .purgeExpired r) (h : machine.Reachable ok c) :
    c.db.Unpurged := by
  refine h.invariant_of (J := fun c => c.db.WellFormed) (I := fun c => c.db.Unpurged)
    (fun _ => wellFormed_of_reachable) ?_ ?_
  · rintro _ rfl
    constructor <;> simp [Database.empty]
  · intro c a c' hdb hu ha hs
    rcases step_db hs with ⟨d, -, hd⟩ | ⟨⟨r, rfl⟩, -⟩ | he
    · exact hu.step hdb hd
    · exact absurd rfl (hok c _ ha r)
    · exact he ▸ hu

theorem aboveFloor_of_reachable {P : Promise} {c : Cluster} (h : machine.Reachable P.allows c)
    {b : KindBroadcaster} (hb : c.Has b) {i : Nat} {w : PostgresWatcher}
    (hw : (i, w) ∈ b.watchers) : w.AboveFloor :=
  P.preserves_aboveFloor.reachable (fun _ _ _ _ => trivial) h b hb i w hw

/-! ### The list -/

variable {ok : Cluster → Action → Prop} {opts : ListOptions} {tok : ListContinueToken}
  {c c' : Cluster} {read last : PageRead} {reads rest : List PageRead} {s : Snapshot} {x : Row}

/-- Every page is read after the start of the list and before its last page is answered. -/
theorem Listing.run_pages (h : Listing ok opts tok c reads) (hlast : reads.getLast? = some last) :
    machine.Run ok c last.head ∧ ∀ r ∈ reads, machine.Run ok c r.select ∧
      machine.Run ok r.select r.head ∧ machine.Run ok r.head last.head := by
  induction h with
  | stop => cases hlast
  | @next tok tok' c read rest hs htok hrest ih =>
    obtain ⟨h₁, h₂, h₃, -⟩ := hs
    have hpage := h₂.trans h₃
    cases rest with
    | nil =>
      obtain rfl : read = last := by simpa using hlast
      refine ⟨h₁.trans hpage, ?_⟩
      intro r hr
      rw [List.mem_singleton.mp hr]
      exact ⟨h₁, hpage, .refl⟩
    | cons r' rest =>
      obtain ⟨hrun, hall⟩ := ih (by simpa using hlast)
      refine ⟨(h₁.trans hpage).trans hrun, ?_⟩
      intro r hr
      rcases List.mem_cons.mp hr with rfl | hr
      · exact ⟨h₁, hpage, hrun⟩
      · exact ⟨(h₁.trans hpage).trans (hall r hr).1, (hall r hr).2⟩
  | @last tok c read hs htok =>
    obtain ⟨h₁, h₂, h₃, -⟩ := hs
    obtain rfl : read = last := by simpa using hlast
    refine ⟨h₁.trans (h₂.trans h₃), ?_⟩
    intro r hr
    rw [List.mem_singleton.mp hr]
    exact ⟨h₁, h₂.trans h₃, .refl⟩

theorem Listing.run_rest (h : Listing ok opts tok c (read :: rest)) {r : PageRead}
    (hr : r ∈ rest) : machine.Run ok read.select r.select := by
  cases h with
  | next hs htok hrest =>
    obtain ⟨-, h₂, h₃, -⟩ := hs
    have hlast := List.getLast?_eq_some_getLast (List.ne_nil_of_mem hr)
    exact (h₂.trans h₃).trans ((hrest.run_pages hlast).2 r hr).1
  | last => cases hr

/-- A version that was in every table the pages read is not rewritten. -/
theorem not_rewritten_of_kept (h : ∀ r ∈ reads, x ∈ r.select.db.rows) : ¬ Rewritten x reads := by
  induction reads with
  | nil => exact id
  | cons read rest ih =>
    simp only [Rewritten, not_or, not_and, not_not]
    exact ⟨h read List.mem_cons_self, fun _ => ih fun r hr => h r (List.mem_cons_of_mem _ hr)⟩

theorem maxRV_le {rows : List Row} {n : Nat} (h : ∀ x ∈ rows, x.rv ≤ n) :
    Database.maxRV rows ≤ n := by
  by_cases hpos : 0 < Database.maxRV rows
  · obtain ⟨x, hx, hrv⟩ := Database.maxRV_mem hpos
    exact hrv ▸ h x hx
  · omega

/-- Without purges a page reports at most the highest version its snapshot sees. -/
theorem Served.listRV_le {n : Nat} (hok : ∀ c a, ok c a → ∀ r, a ≠ .purgeExpired r)
    (hreach : machine.Reachable ok c) (h : Served ok opts tok c read) (hrv : tok.headRV ≤ n)
    (hs : ∀ floor p s, PostgreSQLBackend.PageOf read.select.db read.snapshot.db read.head.db floor
      opts tok read.page p s → ∀ v ∈ s, v ≤ n) : read.page.listRV ≤ n := by
  obtain ⟨-, -, hrun, hrun', floor, p, s, ⟨i, q, hq, hfloor⟩, hp⟩ :=
    h.page (oneRow_of_reachable hreach)
  have hhead := (hreach.trans hrun).trans hrun'
  have hzero : floor ≤ 0 := by
    rw [← hfloor, ← (unpurged_of_reachable hok hhead).floor]
    exact (mirrors_of_reachable hhead i q hq).cachedPurgeFloor_le
  rw [hp.listRV, PostgreSQLBackend.pageListRV]
  split
  next =>
    refine max_le (maxRV_le ?_) (by omega)
    intro x hx
    have hv : x.rv ∈ s := by simpa [Snapshot.visible] using (List.mem_filter.mp hx).2
    exact hs floor p s hp x.rv hv
  next => exact hrv

theorem Listing.listRV_le {n : Nat} (hok : ∀ c a, ok c a → ∀ r, a ≠ .purgeExpired r)
    (h : Listing ok opts tok c reads) (hreach : machine.Reachable ok c) (hf : Follows s c tok)
    (hs : ∀ v ∈ s, v ≤ n) (hrv : tok.headRV ≤ n) : ∀ r ∈ reads, r.page.listRV ≤ n := by
  have hpage : ∀ {tok : ListContinueToken} {c read}, machine.Reachable ok c → Follows s c tok →
      tok.headRV ≤ n → Served ok opts tok c read → read.page.listRV ≤ n := by
    intro tok c read hreach hf hrv hserved
    refine hserved.listRV_le hok hreach hrv ?_
    intro floor p s' hp v hv
    obtain rfl : s' = s := by
      simpa [PostgreSQLBackend.pageSnapshot, hf.snapshot] using hp.snapshot
    exact hs v hv
  induction h with
  | stop => simp
  | @next tok tok' c read rest hserved htok hrest ih =>
    have hc := oneRow_of_reachable hreach
    obtain ⟨-, -, hrun, hrun', -⟩ := hserved.page hc
    have hle := hpage hreach hf hrv hserved
    have hhead := (hserved.token hc htok).2.2.2.1
    intro r hr
    rcases List.mem_cons.mp hr with rfl | hr
    · exact hle
    · exact ih ((hreach.trans hrun).trans hrun') (hf.next hc hserved htok) (hhead ▸ hle) r hr
  | last hserved htok =>
    intro r hr
    rw [List.mem_singleton.mp hr]
    exact hpage hreach hf hrv hserved

/-- When page 1's query selects nothing, the snapshot is taken by a second statement: what the list
asks for and commits in between is still within the lookback window then. -/
def FirstPageSettled (opts : ListOptions) (read : PageRead) : Prop :=
  (∀ x ∈ read.select.db.rows, ¬ opts.asks x) → ∀ y ∈ read.snapshot.db.log,
    y ∉ read.select.db.log → opts.filter.wants y → read.snapshot.db.seq < y.rv + relistLookbackRVs

/-- The versions the pages report are below some `n` such that whatever is in a later table was
committed before page 1 or lies within the lookback window of `n`. -/
theorem Listing.listRV_bound (hok : ∀ c a, ok c a → ∀ r, a ≠ .purgeExpired r)
    (htimely : ∀ c d, ok c (.database d) → TimelyCommit c.db d)
    (hreach : machine.Reachable ok c) (h : Listing ok opts .first c (read :: rest))
    (hsettled : FirstPageSettled opts read) (hrun : machine.Run ok read.head c') :
    ∃ n, (∀ r ∈ read :: rest, r.page.listRV ≤ n) ∧ ∀ y ∈ c'.db.log, opts.filter.wants y →
      y ∈ read.select.db.log ∨ n < y.rv + relistLookbackRVs := by
  have hserved : Served ok opts .first c read := by
    cases h with
    | next hs => exact hs
    | last hs => exact hs
  have hc := oneRow_of_reachable hreach
  obtain ⟨hsel, -, hcsel, hrunhead, -⟩ := hserved.page hc
  have hwf := hsel.1
  -- the snapshot of page 1 sees nothing above `n`
  have hbound : ∀ n, (∀ floor p s, PostgreSQLBackend.PageOf read.select.db read.snapshot.db
      read.head.db floor opts .first read.page p s → ∀ v ∈ s, v ≤ n) →
      read.page.listRV ≤ n := fun n => hserved.listRV_le hok hreach (Nat.zero_le n)
  by_cases hsome : ∃ x ∈ read.select.db.rows, opts.asks x
  · obtain ⟨x, hx, hasks⟩ := hsome
    have hseq : ∀ v ∈ read.select.db.currentSnapshot, v ≤ read.select.db.seq := by
      intro v hv
      obtain ⟨y, hy, rfl⟩ := List.mem_map.mp hv
      exact hwf.log_le y hy
    have hfirst : read.page.listRV ≤ read.select.db.seq := by
      apply hbound
      intro floor p s hp v hv
      have hxp : p x = true := (PostgreSQLBackend.buildListQuery_iff hp.query x).mpr
        ⟨hasks, .inl rfl, fun s hs => by cases hs⟩
      have hne : PostgreSQLBackend.limitRows opts.limit (read.select.db.selectDesc p) ≠ [] := by
        rw [ne_eq, PostgreSQLBackend.limitRows_eq_nil]
        exact List.ne_nil_of_mem (PostgreSQLBackend.mem_selectDesc.mpr ⟨hx, hxp⟩)
      obtain rfl : s = read.select.db.currentSnapshot := by
        simpa [PostgreSQLBackend.pageSnapshot, ListContinueToken.first, hne] using hp.snapshot
      exact hseq v hv
    refine ⟨read.select.db.seq, ?_, ?_⟩
    · intro r hr
      rcases List.mem_cons.mp hr with rfl | hr
      · exact hfirst
      cases h with
      | next hs htok hrest =>
        have hheadRV := (hs.token hc htok).2.2.2.1
        exact hrest.listRV_le hok ((hreach.trans hcsel).trans hrunhead) (follows_first hc hs htok)
          hseq (hheadRV ▸ hfirst) r hr
      | last hs htok => cases hr
    · intro y hy _
      exact (later_of_run hwf htimely (hrunhead.trans hrun)).fresh y hy
  · obtain ⟨-, hsnap, hhead, -⟩ := hserved
    have hnone : ∀ x ∈ read.select.db.rows, ¬ opts.asks x :=
      fun x hx hasks => hsome ⟨x, hx, hasks⟩
    have hwf' := (hsel.run hsnap).1
    refine ⟨read.snapshot.db.seq, ?_, ?_⟩
    · intro r hr
      rcases List.mem_cons.mp hr with heq | hr
      · rw [heq]
        apply hbound
        intro floor p s hp v hv
        have hnil : read.select.db.selectDesc p = [] := by
          apply List.eq_nil_iff_forall_not_mem.mpr
          intro x hx
          obtain ⟨hx, hpx⟩ := PostgreSQLBackend.mem_selectDesc.mp hx
          exact hnone x hx ((PostgreSQLBackend.buildListQuery_iff hp.query x).mp hpx).1
        obtain rfl : s = read.snapshot.db.currentSnapshot := by
          have hlimit : PostgreSQLBackend.limitRows opts.limit
              (read.select.db.selectDesc p) = [] :=
            PostgreSQLBackend.limitRows_eq_nil.mpr hnil
          simpa [PostgreSQLBackend.pageSnapshot, ListContinueToken.first, hlimit]
            using hp.snapshot
        obtain ⟨y, hy, rfl⟩ := List.mem_map.mp hv
        exact hwf'.log_le y hy
      cases h with
      | next hs htok hrest =>
        -- a page without objects has no token
        obtain ⟨x, hx⟩ := List.exists_mem_of_ne_nil _ (hs.token hc htok).1
        obtain ⟨hx, hasks, -⟩ := hs.item hc hx
        exact absurd hasks (hnone x hx)
      | last hs htok => cases hr
    · intro y hy hwants
      rcases (later_of_run hwf' htimely (hhead.trans hrun)).fresh y hy with hy | hlt
      · by_cases hold : y ∈ read.select.db.log
        · exact .inl hold
        · exact .inr (hsettled hnone y hy hold hwants)
      · exact .inr hlt

/-! ### The client -/

/-- A client that lists a kind of a namespace, or of all, without selectors and then watches it
from a version the pages reported, at a moment when nothing is under way. -/
structure ListThenWatch (ok : Cluster → Action → Prop) (kind ns : String) (limit : Nat)
    (c₀ : Cluster) (reads : List PageRead) (c : Cluster) (w : PostgresWatcher) : Prop where
  reachable : machine.Reachable ok c₀
  listing : Listing ok ⟨⟨kind, ns, [], []⟩, limit⟩ .first c₀ reads
  complete : Complete reads
  run : ∀ last, reads.getLast? = some last → machine.Run ok last.head c
  filter : w.filter = ⟨kind, ns, [], []⟩
  startRV : ∃ r ∈ reads, w.startRV = r.page.listRV
  quiescent : ∃ b i, c.Has b ∧ (i, w) ∈ b.watchers ∧ w.Quiescent c.db b

/-- What the client holds: the events of the stream applied by uid over the listed items. -/
def clientView (reads : List PageRead) (w : PostgresWatcher) : PostgresWatcher.View :=
  ((items reads).map (fun x => (EventType.added, x)) ++ w.events).foldl
    PostgresWatcher.applyEvent fun _ => none

/-- The client holds exactly the live rows of the kind and namespace, at their versions. -/
def Converged (kind ns : String) (reads : List PageRead) (c : Cluster) (w : PostgresWatcher) :
    Prop :=
  ∀ uid y, clientView reads w uid = some y ↔ y.uid = uid ∧ y ∈ c.db.rows ∧ y.kind = kind ∧
    (ns = "" ∨ y.ns = ns) ∧ y.deleted = false

/-- Events over other ones decide the objects they mention. -/
theorem foldl_applyEvent_over (evs : List (EventType × Row)) (v : PostgresWatcher.View)
    (uid : String) :
    ((∃ q ∈ evs, q.2.uid = uid) ∧ evs.foldl PostgresWatcher.applyEvent v uid =
      evs.foldl PostgresWatcher.applyEvent (fun _ => none) uid) ∨
    ((∀ q ∈ evs, q.2.uid ≠ uid) ∧ evs.foldl PostgresWatcher.applyEvent v uid = v uid) := by
  induction evs using List.reverseRecOn with
  | nil => exact .inr ⟨by simp, rfl⟩
  | append_singleton evs p ih =>
    rw [List.foldl_append, List.foldl_append, List.foldl_cons, List.foldl_nil, List.foldl_cons,
      List.foldl_nil]
    by_cases hu : p.2.uid = uid
    · left
      refine ⟨⟨p, by simp, hu⟩, ?_⟩
      subst hu
      unfold PostgresWatcher.applyEvent
      rw [Function.update_self, Function.update_self]
    · have hstep : ∀ v : PostgresWatcher.View, PostgresWatcher.applyEvent v p uid = v uid :=
        fun v => Function.update_of_ne (Ne.symm hu) ..
      rw [hstep, hstep]
      rcases ih with ⟨⟨q, hq, hqu⟩, heq⟩ | ⟨hno, heq⟩
      · exact .inl ⟨⟨q, by simp [hq], hqu⟩, heq⟩
      · refine .inr ⟨?_, heq⟩
        intro q hq
        rcases List.mem_append.mp hq with hq | hq
        · exact hno q hq
        · rw [List.mem_singleton.mp hq]
          exact hu

/-- A stream without selectors, over a table without purges, that was sent every row it is owed. -/
structure Settled (db : Database) (kind ns : String) (w : PostgresWatcher) : Prop where
  wellFormed : db.WellFormed
  unpurged : db.Unpurged
  history : w.History db
  ordered : w.Ordered
  aboveFloor : w.AboveFloor
  filter : w.filter = ⟨kind, ns, [], []⟩
  decodable : ∀ y ∈ db.rows, w.filter.wants y → y.decodable = true
  delivered : ∀ y ∈ db.rows, w.Owed y → w.delivered y

theorem wants_iff {kind ns : String} {y : Row} :
    WatchFilter.wants ⟨kind, ns, [], []⟩ y ↔ y.kind = kind ∧ (ns = "" ∨ y.ns = ns) := by
  simp only [WatchFilter.wants, WatchFilter.matchesWatcher, Selector.matches, List.all_nil,
    Bool.and_true, Bool.or_eq_true, beq_iff_eq, eq_comm (a := ns) (b := y.ns)]

variable {db : Database} {kind ns uid : String} {w : PostgresWatcher} {y : Row}

/-- The row of an object the filter wanted once is wanted still. -/
theorem Settled.wants_row (h : Settled db kind ns w) {z : Row} (hy : y ∈ db.log)
    (hwants : w.filter.wants y) (hz : z ∈ db.rows) (hu : z.uid = y.uid) : w.filter.wants z := by
  obtain ⟨hk, hn⟩ := h.unpurged.placed z (List.mem_append_left _ (h.wellFormed.rows_log z hz)) y
    (List.mem_append_left _ hy) hu
  rw [h.filter, wants_iff] at hwants ⊢
  rw [hk, hn]
  exact hwants

/-- The row of an object of which anything was sent was sent. -/
theorem Settled.row_delivered (h : Settled db kind ns w) {z : Row} (hy : w.delivered y)
    (hz : z ∈ db.rows) (hu : z.uid = y.uid) : w.delivered z := by
  obtain ⟨hlog, hwants⟩ := h.history.delivered y hy
  have hwz := h.wants_row hlog hwants hz hu
  have hle := h.wellFormed.latest z hz y hlog hu.symm
  exact h.delivered z hz ⟨hwz, h.decodable z hz hwz, (h.aboveFloor.delivered y hy).trans_le hle⟩

/-- The events of an object leave its live row, or nothing. -/
theorem Settled.view_iff (h : Settled db kind ns w) (hsent : ∃ q ∈ w.events, q.2.uid = uid) :
    w.view uid = some y ↔ y.uid = uid ∧ y ∈ db.rows ∧ w.filter.wants y ∧ y.deleted = false := by
  obtain ⟨⟨type, x⟩, hx, rfl⟩ := hsent
  have hx : w.delivered x := PostgresWatcher.delivered_iff.mpr ⟨type, hx⟩
  rw [PostgresWatcher.view_iff_last h.ordered]
  constructor
  · rintro ⟨hu, hlive, hd, hmax⟩
    obtain ⟨hlog, hwants⟩ := h.history.delivered y hd
    obtain ⟨z, hz, hzu⟩ := h.unpurged.rowed y hlog
    have hle := hmax z (h.row_delivered hd hz hzu) (hzu.trans hu)
    obtain rfl := h.wellFormed.eq_of_le hz hlog hzu.symm hle
    exact ⟨hu, hz, hwants, hlive⟩
  · rintro ⟨hu, hrow, -, hlive⟩
    refine ⟨hu, hlive, h.row_delivered hx hrow hu, ?_⟩
    intro z hz hzu
    exact h.wellFormed.latest y hrow z (h.history.delivered z hz).1 (hzu.trans hu.symm)

theorem foldl_listed {xs : List Row} (h : (xs.map (·.uid)).Nodup) :
    (xs.map fun x => (EventType.added, x)).foldl PostgresWatcher.applyEvent (fun _ => none) uid =
      some y ↔ y.uid = uid ∧ y ∈ xs := by
  have hne : xs.Pairwise fun x z => x.uid ≠ z.uid := List.pairwise_map.mp h
  have horder : (xs.map fun x => (EventType.added, x)).Pairwise fun p q => p.2.uid = q.2.uid →
      p.2.rv < q.2.rv ∧ p.1 ≠ .deleted := by
    refine List.pairwise_map.mpr (hne.imp ?_)
    exact fun hxz hu => absurd hu hxz
  rw [PostgresWatcher.foldl_applyEvent_iff horder]
  constructor
  · rintro ⟨hu, type, hmem, -⟩
    obtain ⟨x, hx, heq⟩ := List.mem_map.mp hmem
    obtain ⟨-, rfl⟩ := Prod.mk.inj heq
    exact ⟨hu, hx⟩
  · rintro ⟨rfl, hy⟩
    refine ⟨rfl, .added, List.mem_map.mpr ⟨y, hy, rfl⟩, by simp, ?_⟩
    intro q hq hqu
    obtain ⟨x, hx, rfl⟩ := List.mem_map.mp hq
    rw [List.inj_on_of_nodup_map h hx hy hqu]

/-- The promises of watch delivery and of per-object order, and no purge. -/
def KeepsConverging (c : Cluster) (a : Action) : Prop :=
  (deliveryPromise PostgresWatcher.Active).allows c a ∧ orderPromise.allows c a ∧
    ∀ r, a ≠ .purgeExpired r

theorem settled_of_reachable (h : machine.Reachable KeepsConverging c) {b : KindBroadcaster}
    {i : Nat} (hb : c.Has b) (hw : (i, w) ∈ b.watchers) (hq : w.Quiescent c.db b)
    (hfilter : w.filter = ⟨kind, ns, [], []⟩)
    (hdec : ∀ y ∈ c.db.log, y.kind = kind → y.decodable = true) : Settled c.db kind ns w := by
  have hdelivery : machine.Reachable (deliveryPromise PostgresWatcher.Active).allows c :=
    h.mono fun _ _ hok => hok.1
  have horder : machine.Reachable orderPromise.allows c := h.mono fun _ _ hok => hok.2.1
  have hact : w.Active := ⟨by simp [hq.waiting], by simp [hq.listed]⟩
  have hwf := wellFormed_of_reachable h
  refine
    { wellFormed := hwf
      unpurged := unpurged_of_reachable (fun _ _ hok => hok.2.2) h
      history := (sound_of_reachable hdelivery b hb).history i w hw
      ordered := ordered_of_reachable horder hb hw
      aboveFloor := aboveFloor_of_reachable hdelivery hb hw
      filter := hfilter
      decodable := ?_
      delivered := ?_ }
  · intro y hy hwants
    rw [hfilter] at hwants
    exact hdec y (hwf.rows_log y hy) hwants.1
  · intro y hy howed
    exact delivered_of_quiescent PostgresWatcher.followed_active hdelivery hb hw hact hq hy howed

/-- In runs that keep the promises, whose rows decode, a client that lists and then watches holds
exactly the live rows. -/
theorem list_then_watch_converges {limit : Nat} {c₀ : Cluster}
    (h : ListThenWatch KeepsConverging kind ns limit c₀ reads c w)
    (hsettled : ∀ read, reads.head? = some read →
      FirstPageSettled ⟨⟨kind, ns, [], []⟩, limit⟩ read)
    (hdec : ∀ y ∈ c.db.log, y.kind = kind → y.decodable = true) :
    Converged kind ns reads c w := by
  obtain ⟨hreach, hlist, hlast, hrun, hfilter, ⟨r₀, hr₀, hstart⟩, b, i, hb, hw, hq⟩ := h
  have hc := oneRow_of_reachable hreach
  cases reads with
  | nil => cases hr₀
  | cons read rest =>
  have hcomplete := hlast
  obtain ⟨last, hgetLast, -⟩ := hlast
  have hlastRun := hrun last hgetLast
  obtain ⟨hrunLast, hpages⟩ := hlist.run_pages hgetLast
  have hset := settled_of_reachable ((hreach.trans hrunLast).trans hlastRun) hb hw hq hfilter hdec
  have hwf := hset.wellFormed
  obtain ⟨hrunSelect, hselectHead, hheadLast⟩ := hpages read List.mem_cons_self
  have hsel := hc.run hrunSelect
  have hlater : ∀ r ∈ read :: rest, (∀ x ∈ r.select.db.log, x ∈ c.db.log) ∧
      ∀ x ∈ c.db.rows, x ∈ r.select.db.log → x ∈ r.select.db.rows := by
    intro r hr
    obtain ⟨h₁, h₂, h₃⟩ := hpages r hr
    exact rows_kept (hc.run h₁).1 ((h₂.trans h₃).trans hlastRun)
  obtain ⟨hlog, hkept⟩ := hlater read List.mem_cons_self
  have hasks : ∀ y, ListOptions.asks ⟨⟨kind, ns, [], []⟩, limit⟩ y ↔
      w.filter.wants y ∧ y.deleted = false := by
    intro y
    rw [hfilter]
    rfl
  obtain ⟨n, hn, hdich⟩ := hlist.listRV_bound (fun _ _ hok => hok.2.2) (fun _ _ hok => hok.1)
    hreach (hsettled read rfl) (hheadLast.trans hlastRun)
  -- a row the stream does not owe was committed before page 1
  have hold : ∀ y ∈ c.db.rows, w.filter.wants y → ¬ w.delivered y →
      y ∈ read.select.db.log := by
    intro y hy hwants hnot
    rcases hdich y (hwf.rows_log y hy) (hfilter ▸ hwants) with hlog | hlt
    · exact hlog
    · refine absurd (hset.delivered y hy ⟨hwants, hset.decodable y hy hwants, ?_⟩) hnot
      have hle := hn r₀ hr₀
      have hpos := hwf.rows_pos hy
      unfold PostgresWatcher.resumeFloor
      omega
  intro uid y
  have hwants : (y.kind = kind ∧ (ns = "" ∨ y.ns = ns)) ↔ w.filter.wants y := by
    rw [hfilter, wants_iff]
  rw [← and_assoc (a := y.kind = kind), hwants]
  unfold clientView
  rw [List.foldl_append]
  rcases foldl_applyEvent_over w.events (((items (read :: rest)).map fun x =>
      (EventType.added, x)).foldl PostgresWatcher.applyEvent fun _ => none) uid with
    ⟨hsent, heq⟩ | ⟨hno, heq⟩
  · rw [heq]
    exact hset.view_iff hsent
  rw [heq]
  have hnot : ∀ z, z.uid = uid → ¬ w.delivered z := by
    intro z hz hd
    obtain ⟨type, hev⟩ := PostgresWatcher.delivered_iff.mp hd
    exact hno _ hev hz
  rw [foldl_listed (hlist.uid_nodup hc)]
  constructor
  · rintro ⟨hu, hy⟩
    obtain ⟨hrow, hyasks, -⟩ := (hlist.sound hc).2 y hy
    obtain ⟨hyw, hlive⟩ := (hasks y).mp hyasks
    have hyl := hlog y (hsel.1.rows_log y hrow)
    obtain ⟨z, hz, hzu⟩ := hset.unpurged.rowed y hyl
    have hzold := hold z hz (hset.wants_row hyl hyw hz hzu) (hnot z (hzu.trans hu))
    have hle := hsel.1.latest y hrow z hzold hzu
    obtain rfl := hwf.eq_of_le hz hyl hzu.symm (hwf.latest z hz y hyl hzu.symm |>.antisymm hle).ge
    exact ⟨hu, hz, hyw, hlive⟩
  · rintro ⟨hu, hy, hyw, hlive⟩
    have hyold := hold y hy hyw (hnot y hu)
    have hrows : ∀ r ∈ read :: rest, y ∈ r.select.db.rows := by
      intro r hr
      refine (hlater r hr).2 y hy ?_
      rcases List.mem_cons.mp hr with heq | hr
      · rw [heq]
        exact hyold
      · exact (rows_kept hsel.1 (hlist.run_rest hr)).1 y hyold
    refine ⟨hu, hlist.complete hc hcomplete ?_ (hrows read List.mem_cons_self)
      ((hasks y).mpr ⟨hyw, hlive⟩) (not_rewritten_of_kept hrows)⟩
    intro r hr x hx hxasks
    have hxw := ((hasks x).mp hxasks).1
    rw [hfilter] at hxw
    exact hdec x ((hlater r hr).1 x (((hc.run (hpages r hr).1)).1.rows_log x hx)) hxw.1

/-! ### Concrete runs -/

/-- A row is forwarded whose object is remembered. -/
def remembersRow (c : Cluster) : Action → Bool
  | .broadcaster r bid (.watcher wid .forwardRow) =>
    (c.watcher? r bid wid).all fun q =>
      match q.2.pc with
      | .forwarding x => (q.2.seenRVs x.uid).isSome
      | _ => false
  | _ => false

theorem remembersRow_sound {a : Action} (h : remembersRow c a = true) : orderPromise.allows c a := by
  unfold remembersRow at h
  split at h
  next r bid wid =>
    intro b hb w hw x hpc _ hnone
    have hfind : c.watcher? r bid wid = some (b, w) := by simp [watcher?, hb, hw]
    simp only [hfind, Option.all_some, hpc, hnone, Option.isSome_none] at h
    cases h
  next => cases h

/-- A test that implies `KeepsConverging`. -/
def keepsConverging (c : Cluster) (a : Action) : Bool :=
  keepsDelivery c a && (keepsOrder c a || remembersRow c a) &&
    match a with
    | .purgeExpired _ => false
    | _ => true

theorem keepsConverging_sound {a : Action} (h : keepsConverging c a = true) :
    KeepsConverging c a := by
  simp only [keepsConverging, Bool.and_eq_true, Bool.or_eq_true] at h
  obtain ⟨⟨hdelivery, horder⟩, hpurge⟩ := h
  refine ⟨keepsDelivery_sound hdelivery, horder.elim keepsOrder_sound remembersRow_sound, ?_⟩
  rintro r rfl
  cases hpurge

/-- Transactions commit within the lookback window and nothing is purged. -/
def TimelyUnpurged (c : Cluster) (a : Action) : Prop :=
  timelyPromise.allows c a ∧ ∀ r, a ≠ .purgeExpired r

/-- A test that implies `TimelyUnpurged`. -/
def timelyUnpurged (c : Cluster) (a : Action) : Bool :=
  commitsInTime c a &&
    match a with
    | .purgeExpired _ => false
    | _ => true

theorem timelyUnpurged_sound {a : Action} (h : timelyUnpurged c a = true) :
    TimelyUnpurged c a := by
  simp only [timelyUnpurged, Bool.and_eq_true] at h
  refine ⟨commitsInTime_sound h.1, ?_⟩
  rintro r rfl
  cases h.2

def oneQuery : Cluster :=
  ⟨⟨1, 0, [query 1 "a"], [], 0, [query 1 "a"], []⟩, [(0, .new)]⟩

/-- The watch is opened at the version the list reported and the broadcaster relists. -/
def watchListed : List Action :=
  (openWatch allQueries "1").tail.take 2 ++
  [watcherStep .relistRow, watcherStep .relistDone, watcherStep .sendBookmark,
    .broadcaster 0 0 (.prime false), .broadcaster 0 0 .relistQuery, .broadcaster 0 0 .relistRow,
    .broadcaster 0 0 .relistDone, watcherStep .receive, watcherStep .forwardRow,
    watcherStep .recoverIfBehind]

/-- A computed run after a list of one page. -/
theorem listThenWatch_of_exec {b : Cluster → Action → Bool}
    (hb : ∀ c a, b c a = true → ok c a) {c₀ : Cluster} (page : ListPage) (limit : Nat)
    (hreach : machine.Reachable ok c₀) (hr : (0, .new) ∈ c₀.replicas)
    (hpage : PostgreSQLBackend.list c₀.db c₀.db c₀.db 0 ⟨allQueries, limit⟩ .first = some page)
    (hlast : page.continueToken = none) (l : List Action) (f : Cluster → PostgresWatcher → Bool)
    (h : ((machine.execWhile b c₀ l).any fun c => (c.watcher? 0 0 0).any fun q =>
      quiescent c q.1 q.2 && q.2.filter == allQueries && q.2.startRV == page.listRV &&
        f c q.2) = true) :
    ∃ c w, ListThenWatch ok "Query" "" limit c₀ [readAt c₀ page] c w ∧ f c w = true := by
  obtain ⟨c, hc, h⟩ := (Option.any_eq_true _ _).mp h
  obtain ⟨⟨k, w⟩, hfind, h⟩ := (Option.any_eq_true _ _).mp h
  simp only [Bool.and_eq_true, quiescent_iff, beq_iff_eq] at h
  obtain ⟨⟨⟨hq, hfilter⟩, hstart⟩, hf⟩ := h
  obtain ⟨hhas, hmem⟩ := mem_of_watcher? hfind
  refine ⟨c, w, ?_, hf⟩
  exact
    { reachable := hreach
      listing := .last (served_readAt .refl hr hpage) hlast
      complete := ⟨_, rfl, hlast⟩
      run := by
        intro last hl
        obtain rfl : readAt c₀ page = last := Option.some.inj hl
        exact Machine.run_of_execWhile hb hc
      filter := hfilter
      startRV := ⟨_, List.mem_cons_self, hstart⟩
      quiescent := ⟨k, 0, hhas, hmem, hq⟩ }

theorem list_then_watch_converges_on_one_query :
    ∃ reads c w, ListThenWatch KeepsConverging "Query" "" 1 oneQuery reads c w ∧
      Converged "Query" "" reads c w ∧ query 1 "a" ∈ c.db.rows := by
  have hreach : machine.Reachable KeepsConverging oneQuery :=
    ⟨_, rfl, Machine.run_of_execWhile (b := keepsConverging) (fun _ _ => keepsConverging_sound)
      (l := .new 0 :: createQuery 1 "a") rfl⟩
  obtain ⟨c, w, h, hlog⟩ := listThenWatch_of_exec (b := keepsConverging)
    (fun _ _ => keepsConverging_sound) ⟨[query 1 "a"], none, 1⟩ 1 hreach List.mem_cons_self
    (by decide) rfl watchListed
    (fun c _ => c.db.log == [query 1 "a"] && c.db.rows == [query 1 "a"]) (by decide)
  simp only [Bool.and_eq_true, beq_iff_eq] at hlog
  refine ⟨_, c, w, h, list_then_watch_converges h ?_ ?_, by simp [hlog.2]⟩
  · intro read hread hnone
    obtain rfl : readAt oneQuery ⟨[query 1 "a"], none, 1⟩ = read := Option.some.inj hread
    exact absurd ⟨by decide, rfl⟩ (hnone (query 1 "a") List.mem_cons_self)
  · intro y hy _
    rw [hlog.1, List.mem_singleton] at hy
    rw [hy]
    rfl

/-- After an empty list the watch completes its initial relist; a query is committed and, 500
versions later, an agent, before the cursor of the broadcaster is primed. -/
def watchPrimedLate : List Action :=
  (openWatch allQueries "0").tail ++ createQuery 1 "a" ++
  List.replicate 499 (.database .burn) ++ createAgent 501 "b" ++
  [.broadcaster 0 0 (.prime true), .broadcaster 0 0 .relistQuery, .broadcaster 0 0 .relistDone]

set_option maxRecDepth 10000 in
/-- Without the promises on the broadcaster the client misses a query for good. -/
theorem client_misses_query :
    ¬ ∀ kind ns limit c₀ reads c w, ListThenWatch TimelyUnpurged kind ns limit c₀ reads c w →
      (∀ y ∈ c.db.log, y.decodable = true) → Converged kind ns reads c w := by
  intro hall
  have hreach : machine.Reachable TimelyUnpurged ⟨.empty, [(0, .new)]⟩ :=
    ⟨_, rfl, Machine.run_of_execWhile (b := timelyUnpurged) (fun _ _ => timelyUnpurged_sound)
      (l := [.new 0]) rfl⟩
  obtain ⟨c, w, h, hp⟩ := listThenWatch_of_exec (b := timelyUnpurged)
    (fun _ _ => timelyUnpurged_sound) ⟨[], none, 0⟩ 1 hreach List.mem_cons_self (by decide) rfl
    watchPrimedLate (fun c w => c.db.log.all (·.decodable) && c.db.rows.contains (query 1 "a") &&
      w.outCh == []) (by decide)
  simp only [Bool.and_eq_true, beq_iff_eq, List.all_eq_true, List.contains_iff_mem] at hp
  obtain ⟨⟨hdec, hmem⟩, hout⟩ := hp
  have hview := (hall _ _ _ _ _ c w h hdec "a" (query 1 "a")).mpr
    ⟨rfl, hmem, rfl, .inl rfl, rfl⟩
  have hnone : clientView [readAt ⟨.empty, [(0, .new)]⟩ ⟨[], none, 0⟩] w "a" = none := by
    simp [clientView, items, readAt, PostgresWatcher.events, hout]
  rw [hnone] at hview
  cases hview

end Cluster
end Ark
