import Ark.WatchOrder

/-!
# What a watch stream says

Whatever the interleaving, every change on a stream is a committed version that the watch asked for, with
the type that the client expects of it. A stream may come back to an object only with a newer version, or
when its last version of the object lies more than `seenWindow` behind the newest one it has sent.
-/

namespace Ark

namespace PostgresWatcher

/-- The newest version on a stream that was resumed at `startRV`. -/
def newest (startRV : ℕ) (es : List (EventType × Row)) : ℕ :=
  es.foldl (fun rv e => max rv e.2.rv) startRV

/-- The stream is so far ahead of the version that it need not know the object any more. -/
def Outdated (startRV : ℕ) (es : List (EventType × Row)) (x : Row) : Prop :=
  x.rv + seenWindow < newest startRV es

/-- On a stream that was opened with the filter `f` and resumed at `startRV`, the event `(type, x)` is
right behind the events `es`. -/
structure Truthful (db : Database) (f : WatchFilter) (startRV : ℕ) (es : List (EventType × Row))
    (type : EventType) (x : Row) : Prop where
  committed : x ∈ db.log
  wanted : f.wants x
  decodable : x.decodable = true
  recent : startRV < x.rv + relistLookbackRVs
  again : ∀ e ∈ es, e.2.uid = x.uid → e.2.rv < x.rv ∧ e.1 ≠ .deleted ∨ Outdated startRV es e.2
  deleted : type = .deleted ↔ x.deleted = true
  added : type = .added → startRV < x.rv ∧ ∀ e ∈ es, e.2.uid = x.uid → Outdated startRV es e.2
  modified : type = .modified → x.rv ≤ startRV ∨
    ∃ y ∈ db.log, y.uid = x.uid ∧ ((∃ e ∈ es, e.2 = y) ∨ y.decodable = false)

/-- Each event of the stream is right behind the earlier ones, and of each object on the stream the
watcher knows a version that is as new, or the version is outdated. -/
structure Telling (db : Database) (w : PostgresWatcher) : Prop where
  cursor : w.lastSeenRV = newest w.startRV w.events
  scanned : ∀ cause rows, w.pc = .scanning cause rows → ∀ x ∈ rows, w.resumeFloor < x.rv
  known : ∀ e ∈ w.events, (∃ v, w.seenRVs e.2.uid = some v ∧ e.2.rv ≤ v) ∨
    Outdated w.startRV w.events e.2
  truthful : ∀ earlier type x later, w.events = earlier ++ (type, x) :: later →
    Truthful db w.filter w.startRV earlier type x

variable {db db' : Database} {w w' : PostgresWatcher} {x : Row} {cachedRV : ℕ} {a : Action}

theorem newest_append (startRV : ℕ) (es : List (EventType × Row)) (type : EventType) (x : Row) :
    newest startRV (es ++ [(type, x)]) = max (newest startRV es) x.rv := by
  unfold newest
  rw [List.foldl_append, List.foldl_cons, List.foldl_nil]

theorem Outdated.append {startRV : ℕ} {es : List (EventType × Row)} (h : Outdated startRV es x)
    (type : EventType) (y : Row) : Outdated startRV (es ++ [(type, y)]) x := by
  unfold Outdated at h ⊢
  rw [newest_append]
  omega

theorem resumeEventType_added {rv : ℕ} {deleted uidNew : Bool} (h : w.resumeEventType rv deleted uidNew = .added) :
    w.startRV < rv ∧ uidNew = true := by
  unfold resumeEventType at h
  split_ifs at h with _ hrv huid
  exact ⟨by omega, huid⟩

theorem resumeEventType_modified {rv : ℕ} {deleted uidNew : Bool}
    (h : w.resumeEventType rv deleted uidNew = .modified) : rv ≤ w.startRV ∨ uidNew = false := by
  unfold resumeEventType at h
  split_ifs at h with _ hrv huid
  · exact .inl hrv
  · exact .inr (by simpa using huid)

/-- The events before the last one are as they were, the last one is new. -/
theorem splits_append {α : Type*} {P : List α → α → Prop} {l : List α} {a : α}
    (h : ∀ earlier b later, l = earlier ++ b :: later → P earlier b) (ha : P l a) :
    ∀ earlier b later, l ++ [a] = earlier ++ b :: later → P earlier b := by
  intro earlier b later heq
  rcases List.eq_nil_or_concat later with rfl | ⟨init, last, rfl⟩
  · obtain ⟨rfl, hb⟩ := List.append_inj' heq rfl
    obtain rfl := List.singleton_inj.mp hb
    exact ha
  · rw [List.concat_eq_append, ← List.cons_append, ← List.append_assoc] at heq
    exact h earlier b init (List.append_inj' heq rfl).1

theorem Truthful.mono {f : WatchFilter} {startRV : ℕ} {es : List (EventType × Row)} {type : EventType}
    (hlog : ∀ x ∈ db.log, x ∈ db'.log) (h : Truthful db f startRV es type x) :
    Truthful db' f startRV es type x :=
  { h with
    committed := hlog x h.committed
    modified := fun hm => (h.modified hm).imp_right fun ⟨y, hy, hrest⟩ => ⟨y, hlog y hy, hrest⟩ }

theorem Telling.mono (hlog : ∀ x ∈ db.log, x ∈ db'.log) (h : w.Telling db) : w.Telling db' :=
  { h with truthful := fun earlier type x later he => (h.truthful earlier type x later he).mono hlog }

/-- A row that is not skipped is newer than what the watcher knows of its object. -/
theorem Telling.newer (h : w.Telling db) (hskip : w.seenRVs.skips x.uid x.rv = false) :
    ∀ e ∈ w.events, e.2.uid = x.uid → e.2.rv < x.rv ∨ Outdated w.startRV w.events e.2 := by
  intro e he hu
  rcases h.known e he with ⟨v, hv, hle⟩ | hold
  · have hlt := SeenVersions.not_skips_iff.mp hskip v (hu ▸ hv)
    exact .inl (by omega)
  · exact .inr hold

/-- Nothing that follows a deletion is newer than it. -/
theorem Telling.again (hdb : db.WellFormed) (h : w.Telling db) (hx : x ∈ db.log)
    (hskip : w.seenRVs.skips x.uid x.rv = false) : ∀ e ∈ w.events, e.2.uid = x.uid →
      e.2.rv < x.rv ∧ e.1 ≠ .deleted ∨ Outdated w.startRV w.events e.2 := by
  intro e he hu
  refine (h.newer hskip e he hu).imp_left fun hlt => ⟨hlt, fun hdel => ?_⟩
  obtain ⟨earlier, later, hsplit⟩ := List.append_of_mem he
  have hsaid := h.truthful earlier e.1 e.2 later hsplit
  have hle := hdb.tombstone_last e.2 hsaid.committed (hsaid.deleted.mp hdel) x
    (List.mem_append_left _ hx) hu.symm
  omega

/-- The event that `emit` sends is right. -/
theorem Telling.truthful_emit (hdb : db.WellFormed) (hh : w.History db) (h : w.Telling db) (hx : x ∈ db.log)
    (hwants : w.filter.wants x) (hdec : x.decodable = true) (hfloor : w.resumeFloor < x.rv)
    (hskip : w.seenRVs.skips x.uid x.rv = false) :
    Truthful db w.filter w.startRV w.events (w.resumeEventType x.rv x.deleted (!w.hasSeenUID x.uid)) x where
  committed := hx
  wanted := hwants
  decodable := hdec
  recent := by
    unfold resumeFloor at hfloor
    omega
  again := h.again hdb hx hskip
  deleted := resumeEventType_deleted
  added htype := by
    obtain ⟨hrv, hnew⟩ := resumeEventType_added htype
    refine ⟨hrv, fun e he hu => (h.known e he).resolve_left ?_⟩
    rintro ⟨v, hv, -⟩
    rw [hu] at hv
    simp [hasSeenUID, hv] at hnew
  modified htype := by
    rcases resumeEventType_modified htype with hrv | hseen
    · exact .inl hrv
    · right
      cases hv : w.seenRVs x.uid with
      | none => simp [hasSeenUID, hv] at hseen
      | some v =>
        obtain ⟨y, hy, huid, -, hd⟩ := hh.seen x.uid v hv
        refine ⟨y, hy, huid, hd.imp_left fun hd => ?_⟩
        obtain ⟨type, hmem⟩ := delivered_iff.mp hd
        exact ⟨_, hmem, rfl⟩

theorem Telling.emit (hdb : db.WellFormed) (hh : w.History db) (h : w.Telling db) (hx : x ∈ db.log)
    (hwants : w.filter.wants x) (hdec : x.decodable = true) (hfloor : w.resumeFloor < x.rv)
    (hskip : w.seenRVs.skips x.uid x.rv = false) {pc : WatcherPc}
    (hpc : ∀ cause rows, pc = .scanning cause rows → ∃ y, w.pc = .scanning cause (y :: rows)) :
    ({ w.emit x with pc } : PostgresWatcher).Telling db := by
  have hevents : ({ w.emit x with pc } : PostgresWatcher).events =
    w.events ++ [(w.resumeEventType x.rv x.deleted (!w.hasSeenUID x.uid), x)] := events_emit
  refine { cursor := ?_, scanned := ?_, known := ?_, truthful := ?_ }
  · rw [hevents, newest_append]
    change max w.lastSeenRV x.rv = max (newest w.startRV w.events) x.rv
    rw [h.cursor]
  · intro cause rows hs y hy
    obtain ⟨z, hold⟩ := hpc cause rows hs
    exact h.scanned cause _ hold y (List.mem_cons_of_mem _ hy)
  · intro e he
    rw [hevents, List.mem_append, List.mem_singleton] at he
    rw [hevents]
    rcases he with he | rfl
    · by_cases hu : e.2.uid = x.uid
      · rcases h.newer hskip e he hu with hlt | hold
        · exact .inl ⟨x.rv, by rw [hu]; exact SeenVersions.mark_same, hlt.le⟩
        · exact .inr (hold.append _ x)
      · rcases h.known e he with ⟨v, hv, hle⟩ | hold
        · exact .inl ⟨v, (SeenVersions.mark_ne hu).trans hv, hle⟩
        · exact .inr (hold.append _ x)
    · exact .inl ⟨x.rv, SeenVersions.mark_same, le_rfl⟩
  · rw [hevents]
    intro earlier type y later heq
    refine splits_append (P := fun es (e : EventType × Row) => Truthful db w.filter w.startRV es e.1 e.2)
      (fun es e later he => h.truthful es e.1 e.2 later he) ?_ earlier (type, y) later heq
    exact h.truthful_emit hdb hh hx hwants hdec hfloor hskip

/-- A step that sends nothing, forgets nothing and does not leave the watcher scanning. -/
theorem Telling.of_events (h : w.Telling db) (hf : w'.filter = w.filter) (hstart : w'.startRV = w.startRV)
    (hev : w'.events = w.events) (hseen : w'.seenRVs = w.seenRVs) (hcur : w'.lastSeenRV = w.lastSeenRV)
    (hpc : ∀ cause rows, w'.pc = .scanning cause rows → w.pc = .scanning cause rows) :
    w'.Telling db where
  cursor := by rw [hcur, hstart, hev, h.cursor]
  scanned cause rows hs x hx := by
    have hold := h.scanned cause rows (hpc cause rows hs) x hx
    unfold resumeFloor at hold ⊢
    rwa [hstart]
  known e he := by
    rw [hseen, hstart, hev]
    exact h.known e (hev ▸ he)
  truthful earlier type x later he := by
    rw [hf, hstart]
    exact h.truthful earlier type x later (hev ▸ he)

theorem Telling.step (hdb : db.WellFormed) (hq : w.Queued db) (hh : w.History db) (h : w.Telling db)
    (hs : w.step db cachedRV a = some w') : w'.Telling db := by
  cases step_effect hs with
  | @relistQuery cause q hpc hquery =>
    refine { cursor := h.cursor, scanned := ?_, known := h.known, truthful := h.truthful }
    intro c rows hc x hx
    obtain ⟨-, rfl⟩ := WatcherPc.scanning.inj hc
    obtain ⟨-, hqx⟩ := Database.mem_select.mp hx
    have hfrom := ((w.filter.buildRelistQuery_iff hquery x).mp hqx).2
    unfold queryFromRV at hfrom
    change w.resumeFloor < x.rv
    omega
  | @queryError cause | @scanError cause =>
    exact h.of_events rfl rfl rfl rfl rfl fun c rows hc => absurd hc (cause.next_ne.2 c rows)
  | @rowSkipped cause x xs hpc hskip =>
    refine { cursor := h.cursor, scanned := ?_, known := h.known, truthful := h.truthful }
    intro c rows hc y hy
    obtain ⟨rfl, rfl⟩ := WatcherPc.scanning.inj hc
    exact h.scanned _ _ hpc y (List.mem_cons_of_mem _ hy)
  | @rowUndecodable cause x xs hpc hskip hdec =>
    refine { cursor := h.cursor, scanned := ?_, known := ?_, truthful := h.truthful }
    · intro c rows hc y hy
      obtain ⟨rfl, rfl⟩ := WatcherPc.scanning.inj hc
      exact h.scanned _ _ hpc y (List.mem_cons_of_mem _ hy)
    · intro e he
      by_cases hu : e.2.uid = x.uid
      · refine (h.newer hskip e he hu).imp_left fun hlt => ?_
        exact ⟨x.rv, by rw [hu]; exact SeenVersions.mark_same, hlt.le⟩
      · refine (h.known e he).imp_left fun ⟨v, hv, hle⟩ => ?_
        exact ⟨v, (SeenVersions.mark_ne hu).trans hv, hle⟩
  | @rowEmitted cause x xs hpc hskip hdec hroom =>
    obtain ⟨hx, hwants⟩ := hq.scanned _ _ hpc x List.mem_cons_self
    refine h.emit hdb hh hx hwants hdec (h.scanned _ _ hpc x List.mem_cons_self) hskip ?_
    intro c rows hc
    obtain ⟨rfl, rfl⟩ := WatcherPc.scanning.inj hc
    exact ⟨x, hpc⟩
  | @relistDone cause hpc =>
    refine { cursor := h.cursor, scanned := ?_, known := ?_, truthful := h.truthful }
    · exact fun c rows hc => absurd hc (cause.next_ne.2 c rows)
    · intro e he
      rcases h.known e he with ⟨v, hv, hle⟩ | hold
      · by_cases hfloor : w.lastSeenRV - seenWindow ≤ v
        · exact .inl ⟨v, SeenVersions.prune_eq_some.mpr ⟨hv, hfloor⟩, hle⟩
        · have hcur := h.cursor
          refine .inr ?_
          change e.2.rv + seenWindow < newest w.startRV w.events
          omega
      · exact .inr hold
  | sendBookmark hpc =>
    exact h.of_events rfl rfl events_sendBookmark rfl rfl (by simp)
  | @forwardEmitted x hpc hfloor hskip hroom =>
    obtain ⟨hx, hwants, hdec⟩ := hq.pending x (by simp [pending, hpc])
    exact h.emit hdb hh hx hwants hdec hfloor hskip (by simp)
  | @caughtUp r =>
    exact h.of_events rfl rfl rfl rfl rfl fun c rows hc => absurd hc ((Cause.catchUp r).next_ne.2 c rows)
  | consume => exact h.of_events rfl rfl rfl rfl rfl fun _ _ hc => hc
  | _ => exact h.of_events rfl rfl rfl rfl rfl (by simp)

theorem Telling.offer (h : w.Telling db) : (w.offer x).Telling db := by
  rcases offer_cases x w with ⟨he, -⟩ | ⟨-, -, he⟩ | ⟨-, -, -, he⟩ <;> rw [he]
  · exact h
  · exact h.of_events rfl rfl rfl rfl rfl fun _ _ hc => hc
  · exact h.of_events rfl rfl rfl rfl rfl fun _ _ hc => hc

theorem Telling.new (filter : WatchFilter) (startRV : ℕ) :
    (PostgresWatcher.new filter startRV).Telling db := by
  constructor <;> simp [PostgresWatcher.new, events, newest]

end PostgresWatcher

namespace Cluster

open PostgresWatcher

theorem preserves_telling (P : Promise) :
    P.Preserves (fun db b => b.Sound db) (fun db b => ∀ i w, (i, w) ∈ b.watchers → w.Telling db) where
  database db db' a b _ _ hs _ h i w hw := (h i w hw).mono (Database.step_mono hs).1
  purge db b _ _ h i w hw := by
    obtain ⟨hlog, -, -⟩ := db.purgeExpired_fixed
    exact (h i w hw).mono fun x hx => hlog ▸ hx
  new db kind := by simp [KindBroadcaster.new]
  subscribe db b wid filter startRV _ _ _ h := by
    intro i w hw
    rcases List.mem_cons.mp hw with hw | hw
    · obtain ⟨-, rfl⟩ := Prod.mk.inj hw
      exact .new filter startRV
    · exact h i w hw
  step db cachedRV b b' a hdb _ hs hsound h := by
    cases KindBroadcaster.step_effect hs with
    | @rowFannedOut x =>
      intro i w hw
      obtain ⟨⟨j, w₀⟩, hw₀, he⟩ := List.mem_map.mp hw
      obtain ⟨rfl, rfl⟩ := Prod.mk.inj he
      exact (h j w₀ hw₀).offer
    | @stop wid w₀ hw₀ =>
      intro i w hw
      rcases Slots.mem_put hw with ⟨-, rfl⟩ | ⟨-, hw⟩
      · exact (h wid w₀ (Slots.mem_of_get? hw₀)).of_events rfl rfl rfl rfl rfl (by simp)
      · exact h i w hw
    | @watcher wid w₀ w' a hw₀ hw' =>
      intro i w hw
      have hmem := Slots.mem_of_get? hw₀
      rcases Slots.mem_put hw with ⟨-, rfl⟩ | ⟨-, hw⟩
      · exact (h wid w₀ hmem).step hdb (hsound.queued wid w₀ hmem) (hsound.history wid w₀ hmem) hw'
      · exact h i w hw
    | _ => exact h

theorem telling_of_reachable {P : Promise} {c : Cluster} (h : machine.Reachable P.allows c)
    {b : KindBroadcaster} (hb : c.Has b) {i : ℕ} {w : PostgresWatcher} (hw : (i, w) ∈ b.watchers) :
    w.Telling c.db :=
  (preserves_telling P).reachable (fun _ hc => sound_of_reachable hc) h b hb i w hw

end Cluster
end Ark
