import Ark.WatchInvariant

/-!
# The order of events of one object

`seenRVs` remembers the highest version recorded for each object until `pruneSeen` forgets it. A
relist never meets a forgotten object below its old versions, because it reads a shorter window
than the one that is remembered. A row waiting in the queue has no such protection.
-/

namespace Ark

namespace PostgresWatcher

/-- The changes on the stream, bookmarks left out. -/
def events (w : PostgresWatcher) : List (EventType × Row) :=
  w.outCh.filterMap fun
    | .change type x => some (type, x)
    | .bookmark .. => none

/-- The versions of each object strictly increase along the stream, and nothing follows its
deletion. -/
def InOrder (w : PostgresWatcher) : Prop :=
  w.events.Pairwise fun p q => p.2.uid = q.2.uid → p.2.rv < q.2.rv ∧ p.1 ≠ .deleted

/-- The queued row about to be sent either belongs to an object that is remembered or is newer than
everything sent for that object. -/
def ForwardRemembered (w : PostgresWatcher) : Action → Prop
  | .forwardRow => ∀ x, w.pc = .forwarding x → w.resumeFloor < x.rv → w.seenRVs x.uid = none →
    ∀ p ∈ w.events, p.2.uid = x.uid → p.2.rv < x.rv
  | _ => True

/-- What the remembered and the forgotten versions say about the events sent. -/
structure Ordered (w : PostgresWatcher) : Prop where
  inOrder : w.InOrder
  typed : ∀ p ∈ w.events, p.1 = .deleted ↔ p.2.deleted = true
  remembered : ∀ p ∈ w.events, ∀ v, w.seenRVs p.2.uid = some v → p.2.rv ≤ v
  forgotten : ∀ p ∈ w.events, w.seenRVs p.2.uid = none → p.2.rv + seenWindow < w.lastSeenRV
  scanned : ∀ cause rows, w.pc = .scanning cause rows → ∀ x ∈ rows, w.seenRVs x.uid = none →
    ∀ p ∈ w.events, p.2.uid = x.uid → p.2.rv < x.rv

variable {db : Database} {w w' : PostgresWatcher} {x : Row} {cachedRV : Nat} {a : Action}

theorem mem_events {p : EventType × Row} : p ∈ w.events ↔ .change p.1 p.2 ∈ w.outCh := by
  obtain ⟨type, x⟩ := p
  simp only [events, List.mem_filterMap]
  constructor
  · rintro ⟨e, he, h⟩
    cases e with
    | change type' x' =>
      obtain ⟨rfl, rfl⟩ := Prod.mk.inj (Option.some.inj h)
      exact he
    | bookmark => cases h
  · exact fun h => ⟨_, h, rfl⟩

theorem delivered_iff : w.delivered x ↔ ∃ type, (type, x) ∈ w.events := by
  simp only [delivered, mem_events]

theorem events_emit : (w.emit x).events =
    w.events ++ [(w.resumeEventType x.rv x.deleted (!w.hasSeenUID x.uid), x)] := by
  simp [events, emit]

theorem events_sendBookmark : (w.sendBookmark cachedRV).events = w.events := by
  simp only [events, sendBookmark]
  split <;> simp

theorem resumeEventType_deleted {rv : Nat} {deleted uidNew : Bool} :
    w.resumeEventType rv deleted uidNew = .deleted ↔ deleted = true := by
  unfold resumeEventType
  split
  next h => simp [h]
  next h =>
    simp only [h]
    split
    · simp
    · split <;> simp

/-- Everything sent for the object is older than a row that is not skipped. -/
theorem Ordered.lt_of_not_skips (h : w.Ordered) (hskip : w.seenRVs.skips x.uid x.rv = false)
    (hnone : w.seenRVs x.uid = none → ∀ p ∈ w.events, p.2.uid = x.uid → p.2.rv < x.rv) :
    ∀ p ∈ w.events, p.2.uid = x.uid → p.2.rv < x.rv := by
  intro p hp hu
  cases hs : w.seenRVs x.uid with
  | none => exact hnone hs p hp hu
  | some v =>
    have hlt := SeenVersions.not_skips_iff.mp hskip v hs
    have hle := h.remembered p hp v (hu ▸ hs)
    omega

theorem inOrder_emit_iff : (w.emit x).InOrder ↔
    w.InOrder ∧ ∀ p ∈ w.events, p.2.uid = x.uid → p.2.rv < x.rv ∧ p.1 ≠ .deleted := by
  unfold InOrder
  rw [events_emit, List.pairwise_append]
  simp

/-- Sending a row above everything sent for its object. -/
theorem Ordered.emit (hdb : db.WellFormed) (hh : w.History db) (h : w.Ordered) (hx : x ∈ db.log)
    (hlt : ∀ p ∈ w.events, p.2.uid = x.uid → p.2.rv < x.rv) {pc : WatcherPc}
    (hpc : ∀ cause rows, pc = .scanning cause rows → ∃ y, w.pc = .scanning cause (y :: rows)) :
    ({ w.emit x with pc } : PostgresWatcher).Ordered := by
  have hevents : ({ w.emit x with pc } : PostgresWatcher).events = (w.emit x).events := rfl
  have hsplit : ∀ p ∈ (w.emit x).events, p ∈ w.events ∨ p.2 = x := by
    intro p hp
    rw [events_emit, List.mem_append, List.mem_singleton] at hp
    exact hp.imp_right fun h => by rw [h]
  refine
    { inOrder := inOrder_emit_iff.mpr ⟨h.inOrder, fun p hp hu => ⟨hlt p hp hu, fun hdel => ?_⟩⟩
      typed := ?_
      remembered := ?_
      forgotten := ?_
      scanned := ?_ }
  · have hpdel := (h.typed p hp).mp hdel
    have hplog := (hh.delivered p.2 ⟨p.1, mem_events.mp hp⟩).1
    have hle := hdb.tombstone_last p.2 hplog hpdel x (List.mem_append_left _ hx) hu.symm
    have := hlt p hp hu
    omega
  · intro p hp
    rw [hevents, events_emit, List.mem_append, List.mem_singleton] at hp
    rcases hp with hp | rfl
    · exact h.typed p hp
    · exact resumeEventType_deleted
  · intro p hp v hs
    rcases SeenVersions.mark_eq_some hs with ⟨hu, rfl⟩ | ⟨hne, hs⟩
    · rcases hsplit p hp with hp | rfl
      · exact (hlt p hp hu).le
      · exact le_rfl
    · rcases hsplit p hp with hp | rfl
      · exact h.remembered p hp v hs
      · exact absurd rfl hne
  · intro p hp hs
    obtain ⟨hne, hs⟩ := SeenVersions.mark_eq_none hs
    rcases hsplit p hp with hp | rfl
    · have := h.forgotten p hp hs
      simp only [PostgresWatcher.emit]
      omega
    · exact absurd rfl hne
  · intro cause rows hs y hy hnone p hp hu
    obtain ⟨z, hold⟩ := hpc cause rows hs
    obtain ⟨hne, hnone⟩ := SeenVersions.mark_eq_none hnone
    rcases hsplit p hp with hp | rfl
    · exact h.scanned cause _ hold y (List.mem_cons_of_mem _ hy) hnone p hp hu
    · exact absurd hu.symm hne

/-- A step that sends nothing and does not leave the watcher scanning. -/
theorem Ordered.of_events (h : w.Ordered) (hev : w'.events = w.events)
    (hseen : w'.seenRVs = w.seenRVs) (hcur : w'.lastSeenRV = w.lastSeenRV)
    (hpc : ∀ cause rows, w'.pc ≠ .scanning cause rows) : w'.Ordered where
  inOrder := by
    unfold InOrder
    rw [hev]
    exact h.inOrder
  typed := hev ▸ h.typed
  remembered := by
    rw [hev, hseen]
    exact h.remembered
  forgotten := by
    rw [hev, hseen, hcur]
    exact h.forgotten
  scanned cause rows hs := absurd hs (hpc cause rows)

theorem Ordered.step (hdb : db.WellFormed) (hq : w.Queued db) (hh : w.History db) (h : w.Ordered)
    (hfwd : w.ForwardRemembered a) (hs : w.step db cachedRV a = some w') : w'.Ordered := by
  cases step_effect hs with
  | @relistQuery cause q hpc hquery =>
    refine
      { inOrder := h.inOrder
        typed := h.typed
        remembered := h.remembered
        forgotten := h.forgotten
        scanned := ?_ }
    intro c rows hc x hx hnone p hp hu
    obtain ⟨-, rfl⟩ := WatcherPc.scanning.inj hc
    obtain ⟨-, hqx⟩ := Database.mem_select.mp hx
    have hfrom := ((w.filter.buildRelistQuery_iff hquery x).mp hqx).2
    have hold := h.forgotten p hp (hu ▸ hnone)
    unfold queryFromRV relistLookbackRVs at hfrom
    unfold seenWindow at hold
    omega
  | @queryError cause | @scanError cause => exact h.of_events rfl rfl rfl cause.next_ne.2
  | @rowSkipped cause x xs hpc hskip =>
    refine
      { inOrder := h.inOrder
        typed := h.typed
        remembered := h.remembered
        forgotten := h.forgotten
        scanned := ?_ }
    intro c rows hc y hy
    obtain ⟨rfl, rfl⟩ := WatcherPc.scanning.inj hc
    exact h.scanned _ _ hpc y (List.mem_cons_of_mem _ hy)
  | @rowUndecodable cause x xs hpc hskip hdec =>
    have hlt := h.lt_of_not_skips hskip (h.scanned _ _ hpc x List.mem_cons_self)
    refine
      { inOrder := h.inOrder
        typed := h.typed
        remembered := ?_
        forgotten := ?_
        scanned := ?_ }
    · intro p hp v hv
      rcases SeenVersions.mark_eq_some hv with ⟨hu, rfl⟩ | ⟨-, hv⟩
      · exact (hlt p hp hu).le
      · exact h.remembered p hp v hv
    · intro p hp hnone
      exact h.forgotten p hp (SeenVersions.mark_eq_none hnone).2
    · intro c rows hc y hy hnone
      obtain ⟨rfl, rfl⟩ := WatcherPc.scanning.inj hc
      exact h.scanned _ _ hpc y (List.mem_cons_of_mem _ hy) (SeenVersions.mark_eq_none hnone).2
  | @rowEmitted cause x xs hpc hskip hdec hroom =>
    have hx := (hq.scanned _ _ hpc x List.mem_cons_self).1
    refine h.emit hdb hh hx (h.lt_of_not_skips hskip (h.scanned _ _ hpc x List.mem_cons_self)) ?_
    intro c rows hc
    obtain ⟨rfl, rfl⟩ := WatcherPc.scanning.inj hc
    exact ⟨x, hpc⟩
  | @relistDone cause hpc =>
    refine
      { inOrder := h.inOrder
        typed := h.typed
        remembered := ?_
        forgotten := ?_
        scanned := fun c rows hc => absurd hc (cause.next_ne.2 c rows) }
    · intro p hp v hv
      exact h.remembered p hp v (SeenVersions.prune_eq_some.mp hv).1
    · intro p hp hnone
      rcases SeenVersions.prune_eq_none hnone with hnone | ⟨v, hv, hlt⟩
      · exact h.forgotten p hp hnone
      · have hle := h.remembered p hp v hv
        have hcur : (w.relistDone cause).lastSeenRV = w.lastSeenRV := rfl
        omega
  | sendBookmark hpc => exact h.of_events events_sendBookmark rfl rfl (by simp)
  | @forwardEmitted x hpc hfloor hskip hroom =>
    have hx := (hq.pending x (by simp [pending, hpc])).1
    exact h.emit hdb hh hx (h.lt_of_not_skips hskip (hfwd x hpc hfloor)) (by simp)
  | @caughtUp r => exact h.of_events rfl rfl rfl (Cause.catchUp r).next_ne.2
  | consume => exact ⟨h.inOrder, h.typed, h.remembered, h.forgotten, h.scanned⟩
  | _ => exact h.of_events rfl rfl rfl (by simp)

theorem Ordered.offer (h : w.Ordered) : (w.offer x).Ordered := by
  rcases offer_cases x w with ⟨he, -⟩ | ⟨-, -, he⟩ | ⟨-, -, -, he⟩ <;> rw [he]
  · exact h
  · exact ⟨h.inOrder, h.typed, h.remembered, h.forgotten, h.scanned⟩
  · exact ⟨h.inOrder, h.typed, h.remembered, h.forgotten, h.scanned⟩

/-- Forwarding a row whose object was forgotten after that version or a newer one was sent breaks
the order. -/
theorem not_inOrder_of_forward (hs : w.step db cachedRV .forwardRow = some w')
    (hfwd : ¬ w.ForwardRemembered .forwardRow) : ¬ w'.InOrder := by
  intro hin
  apply hfwd
  intro x hpc hfloor hnone p hp hu
  have hnoskip : w.seenRVs.skips x.uid x.rv = false := by simp [SeenVersions.skips, hnone]
  cases step_effect hs with
  | @forwardSkipped y hpc' hskip =>
    rw [hpc] at hpc'
    obtain rfl := WatcherPc.forwarding.inj hpc'
    rcases hskip with hle | hskip
    · omega
    · rw [hnoskip] at hskip
      cases hskip
  | @forwardEmitted y hpc' =>
    rw [hpc] at hpc'
    obtain rfl := WatcherPc.forwarding.inj hpc'
    exact ((inOrder_emit_iff.mp hin).2 p hp hu).1

end PostgresWatcher

namespace Cluster

/-- A row whose object the watcher has forgotten is forwarded only when it is newer than everything
sent for the object. -/
def orderPromise : Promise where
  database _ _ := True
  broadcaster _ b
    | .watcher wid a => ∀ w, b.watchers.get? wid = some w → w.ForwardRemembered a
    | _ => True

theorem preserves_ordered :
    orderPromise.Preserves (fun db b => b.Sound db)
      (fun _ b => ∀ i w, (i, w) ∈ b.watchers → w.Ordered) where
  database _ _ _ _ _ _ _ _ h := h
  purge _ _ _ _ h := h
  new db kind := by simp [KindBroadcaster.new]
  subscribe db b wid filter startRV _ _ _ h := by
    intro i w hw
    rcases List.mem_cons.mp hw with hw | hw
    · obtain ⟨-, rfl⟩ := Prod.mk.inj hw
      constructor <;>
        simp [PostgresWatcher.InOrder, PostgresWatcher.events, PostgresWatcher.new]
    · exact h i w hw
  step db cachedRV b b' a hdb hok hs hsound h := by
    cases KindBroadcaster.step_effect hs with
    | @rowFannedOut x =>
      intro i w hw
      obtain ⟨⟨j, w₀⟩, hw₀, he⟩ := List.mem_map.mp hw
      obtain ⟨rfl, rfl⟩ := Prod.mk.inj he
      exact (h j w₀ hw₀).offer
    | @stop wid w₀ hw₀ =>
      intro i w hw
      rcases Slots.mem_put hw with ⟨-, rfl⟩ | ⟨-, hw⟩
      · exact (h wid w₀ (Slots.mem_of_get? hw₀)).of_events rfl rfl rfl (by simp)
      · exact h i w hw
    | @watcher wid w₀ w' a hw₀ hw' =>
      intro i w hw
      have hmem := Slots.mem_of_get? hw₀
      rcases Slots.mem_put hw with ⟨-, rfl⟩ | ⟨-, hw⟩
      · exact (h wid w₀ hmem).step hdb (hsound.queued wid w₀ hmem) (hsound.history wid w₀ hmem)
          (hok w₀ hw₀) hw'
      · exact h i w hw
    | _ => exact h

theorem ordered_of_reachable {c : Cluster} (h : machine.Reachable orderPromise.allows c)
    {b : KindBroadcaster} (hb : c.Has b) {i : Nat} {w : PostgresWatcher}
    (hw : (i, w) ∈ b.watchers) : w.Ordered :=
  preserves_ordered.reachable (fun _ hc => sound_of_reachable hc) h b hb i w hw

/-- A test that implies the order promise. -/
def keepsOrder (c : Cluster) : Action → Bool
  | .broadcaster r bid (.watcher wid .forwardRow) =>
    (c.watcher? r bid wid).all fun q =>
      match q.2.pc with
      | .forwarding x => q.2.events.all fun p => p.2.uid != x.uid || decide (p.2.rv < x.rv)
      | _ => true
  | _ => true

theorem keepsOrder_sound {c : Cluster} {a : Action} (h : keepsOrder c a = true) :
    orderPromise.allows c a := by
  cases a with
  | broadcaster r bid a =>
    intro b hb
    cases a with
    | watcher wid a =>
      intro w hw
      cases a with
      | forwardRow =>
        intro x hpc _ _ p hp hu
        have hfind : c.watcher? r bid wid = some (b, w) := by simp [watcher?, hb, hw]
        simp only [keepsOrder, hfind, Option.all_some, hpc, List.all_eq_true, Bool.or_eq_true,
          bne_iff_ne, decide_eq_true_eq] at h
        exact (h p hp).resolve_left (not_not_intro hu)
      | _ => trivial
    | _ => trivial
  | _ => trivial

/-- Two versions of a query go through the broadcaster. -/
def updatingRun : List Action :=
  openWatch allQueries "" ++ createQuery 1 "a" ++
  [.broadcaster 0 0 (.prime false), .broadcaster 0 0 .relistQuery, .broadcaster 0 0 .relistRow,
    .broadcaster 0 0 .relistDone, .database (.delete "Query" "default" "a"),
    .database (.commit 2), .broadcaster 0 0 .wake, .broadcaster 0 0 .relistQuery,
    .broadcaster 0 0 .relistRow, .broadcaster 0 0 .relistDone, watcherStep .receive,
    watcherStep .forwardRow, watcherStep .recoverIfBehind, watcherStep .receive,
    watcherStep .forwardRow]

/-- Query `b` waits in the queue while a catch-up relist sends it, moves the cursor by 5000
versions and forgets it. -/
def forgottenRun : List Action :=
  [.new 0, .watch 0 0 0 allQueries "", watcherStep .relistError, watcherStep .sendBookmark] ++
  createQuery 1 "a" ++ createQuery 2 "b" ++
  [.broadcaster 0 0 (.prime true), .broadcaster 0 0 .relistQuery, .broadcaster 0 0 .relistRow,
    .broadcaster 0 0 .relistRow, .broadcaster 0 0 .relistDone, watcherStep .receive,
    watcherStep .forwardRow] ++
  List.replicate 5000 (.database .burn) ++ createQuery 5003 "c" ++
  [watcherStep .recoverIfBehind, watcherStep .relistQuery, watcherStep .relistRow,
    watcherStep .relistRow, watcherStep .relistRow, watcherStep .relistDone, watcherStep .receive,
    watcherStep .forwardRow]

end Cluster
end Ark
