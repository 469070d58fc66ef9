import Ark.Mirrors
import Ark.WatchDelivery

/-!
# The marker that ends the initial events

`sendBookmark` remembers that it has annotated a bookmark before its non-blocking send, and `run`
calls it after a failed initial relist as well. When the first bookmark is sent after a complete
initial relist and finds room, it is the annotated one, and it follows an event for every row of
some state of the table not older than the opening of the watch.
-/

namespace Ark

namespace PostgresWatcher

/-- The annotations of the bookmarks on the stream. -/
def bookmarks (w : PostgresWatcher) : List Bool :=
  w.outCh.filterMap fun
    | .bookmark _ initialEventsEnd => some initialEventsEnd
    | .change _ _ => none

/-- An event of this version is in the list. -/
def Emitted (events : List WatchEvent) (x : Row) : Prop := ∃ type, .change type x ∈ events

/-- The rows of the table that belong on the stream are all in `events`. -/
def Shows (w : PostgresWatcher) (events : List WatchEvent) (rows : List Row) : Prop :=
  ∀ x ∈ rows, w.Owed x → Emitted events x

/-- The first bookmark is annotated, no other one is, and every bookmark follows the rows of one
of the tables `S`. -/
structure InitialSync (S : List Row → Prop) (w : PostgresWatcher) : Prop where
  marks : w.bookmarks = [] ∨ ∃ n, w.bookmarks = true :: List.replicate n false
  complete : ∀ pre rv b, pre ++ [.bookmark rv b] <+: w.outCh → ∃ rows, S rows ∧ w.Shows pre rows

/-- What the bookmarks sent so far say. -/
structure Marked (S : List Row → Prop) (w : PostgresWatcher) : Prop where
  settled : w.initialRelist = some true → ∃ rows, S rows ∧ w.Shows w.outCh rows
  unmarked : w.initialListDone = false → w.bookmarks = []
  marked : w.initialListDone = true →
    w.initialRelist = some true ∧ ∃ n, w.bookmarks = true :: List.replicate n false
  complete : ∀ pre rv b, pre ++ [.bookmark rv b] <+: w.outCh → ∃ rows, S rows ∧ w.Shows pre rows

/-- Where the initial relist stands. -/
structure Syncing (S : List Row → Prop) (w : PostgresWatcher) : Prop extends w.Marked S where
  fresh : w.pc = .relist .initial →
    w.seenRVs = .empty ∧ w.lastSeenRV = w.startRV ∧ w.initialRelist = none
  scanning : ∀ rows, w.pc = .scanning .initial rows → w.initialRelist = none ∧
    (∃ T, S T ∧ ∀ x ∈ T, w.Owed x → x ∈ rows ∨ w.delivered x) ∧
    (∀ x ∈ rows, w.seenRVs x.uid = none ∨ w.delivered x ∨ x.decodable = false) ∧
    ∀ x ∈ rows, ∀ y ∈ rows, x.uid = y.uid → x = y

/-- The bookmark that is about to flip `initialListDone` finds room, after a complete relist. -/
def SyncReady (w : PostgresWatcher) (cachedRV : Nat) : Prop :=
  w.initialListDone = false → w.bookmarkRV cachedRV ≠ 0 →
    w.hasRoom = true ∧ w.initialRelist = some true

variable {S S' : List Row → Prop} {db : Database} {w w' : PostgresWatcher} {x y : Row}
  {cachedRV : Nat} {a : Action}

theorem Syncing.initialSync (h : w.Syncing S) : w.InitialSync S where
  marks := by
    cases hd : w.initialListDone with
    | false => exact .inl (h.unmarked hd)
    | true => exact .inr (h.marked hd).2
  complete := h.complete

theorem Marked.mono (hS : ∀ rows, S rows → S' rows) (h : w.Marked S) : w.Marked S' where
  settled hr := by
    obtain ⟨rows, hrows, hshow⟩ := h.settled hr
    exact ⟨rows, hS rows hrows, hshow⟩
  unmarked := h.unmarked
  marked := h.marked
  complete pre rv b hpre := by
    obtain ⟨rows, hrows, hshow⟩ := h.complete pre rv b hpre
    exact ⟨rows, hS rows hrows, hshow⟩

theorem Syncing.mono (hS : ∀ rows, S rows → S' rows) (h : w.Syncing S) : w.Syncing S' where
  toMarked := h.toMarked.mono hS
  fresh := h.fresh
  scanning rows hpc := by
    obtain ⟨hnone, ⟨T, hT, hrows⟩, hseen, hinj⟩ := h.scanning rows hpc
    exact ⟨hnone, ⟨T, hS T hT, hrows⟩, hseen, hinj⟩

theorem syncing_new (filter : WatchFilter) (startRV : Nat) :
    (PostgresWatcher.new filter startRV).Syncing S := by
  refine ⟨⟨?_, fun _ => rfl, ?_, ?_⟩, fun _ => ⟨rfl, rfl, rfl⟩, ?_⟩
  · intro hr
    cases hr
  · intro hd
    cases hd
  · intro pre rv b hpre
    simp [PostgresWatcher.new] at hpre
  · intro rows hpc
    cases hpc

/-! ### The stream -/

theorem owed_congr (hf : w'.filter = w.filter) (hs : w'.startRV = w.startRV) :
    w'.Owed x ↔ w.Owed x := by
  constructor
  · rintro ⟨h₁, h₂, h₃⟩
    unfold resumeFloor at h₃
    exact ⟨hf ▸ h₁, h₂, by unfold resumeFloor; rwa [← hs]⟩
  · rintro ⟨h₁, h₂, h₃⟩
    unfold resumeFloor at h₃
    exact ⟨hf ▸ h₁, h₂, by unfold resumeFloor; rwa [hs]⟩

theorem Shows.congr {events : List WatchEvent} {rows : List Row} (h : w.Shows events rows)
    (hf : w'.filter = w.filter) (hs : w'.startRV = w.startRV) : w'.Shows events rows :=
  fun x hx howed => h x hx ((owed_congr hf hs).mp howed)

/-- A change of the other fields. -/
theorem Marked.congr (h : w.Marked S) (hout : w'.outCh = w.outCh) (hf : w'.filter = w.filter)
    (hs : w'.startRV = w.startRV) (hdone : w'.initialListDone = w.initialListDone)
    (hrel : w'.initialRelist = w.initialRelist) : w'.Marked S := by
  have hb : w'.bookmarks = w.bookmarks := by
    unfold bookmarks
    rw [hout]
  refine ⟨?_, ?_, ?_, ?_⟩
  · intro hr
    obtain ⟨rows, hrows, hshow⟩ := h.settled (hrel ▸ hr)
    rw [hout]
    exact ⟨rows, hrows, hshow.congr hf hs⟩
  · intro hd
    rw [hb]
    exact h.unmarked (hdone ▸ hd)
  · intro hd
    rw [hb, hrel]
    exact h.marked (hdone ▸ hd)
  · intro pre rv b hpre
    rw [hout] at hpre
    obtain ⟨rows, hrows, hshow⟩ := h.complete pre rv b hpre
    exact ⟨rows, hrows, hshow.congr hf hs⟩

/-- An event that is not a bookmark ends no new prefix. -/
theorem Marked.emit (h : w.Marked S) (x : Row) : (w.emit x).Marked S := by
  have hb : (w.emit x).bookmarks = w.bookmarks := by simp [bookmarks, PostgresWatcher.emit]
  refine ⟨?_, ?_, ?_, ?_⟩
  · intro hr
    obtain ⟨rows, hrows, hshow⟩ := h.settled hr
    refine ⟨rows, hrows, ?_⟩
    intro y hy howed
    have howed' : w.Owed y := ⟨howed.wants, howed.decodable, howed.above⟩
    obtain ⟨type, ht⟩ := hshow y hy howed'
    exact ⟨type, List.mem_append_left _ ht⟩
  · intro hd
    rw [hb]
    exact h.unmarked hd
  · intro hd
    rw [hb]
    exact h.marked hd
  · intro pre rv b hpre
    rcases List.prefix_concat_iff.mp hpre with heq | hpre
    · have hlast := congrArg List.getLast? heq
      simp at hlast
    · obtain ⟨rows, hrows, hshow⟩ := h.complete pre rv b hpre
      exact ⟨rows, hrows, hshow.congr rfl rfl⟩

theorem bookmarks_append {rv : Nat} {b : Bool} (h : w'.outCh = w.outCh ++ [.bookmark rv b]) :
    w'.bookmarks = w.bookmarks ++ [b] := by
  simp [bookmarks, h]

/-- The step of `sendBookmark`. -/
theorem Marked.sendBookmark (h : w.Marked S) (hready : w.SyncReady cachedRV) :
    (w.sendBookmark cachedRV).Marked S := by
  by_cases hrv : w.bookmarkRV cachedRV = 0
  · apply h.congr <;> simp [PostgresWatcher.sendBookmark, hrv]
  have hdone : (w.sendBookmark cachedRV).initialListDone = true := by
    simp [PostgresWatcher.sendBookmark, hrv]
  -- in both cases the initial relist was complete
  have hrel : w.initialRelist = some true := by
    cases hd : w.initialListDone with
    | false => exact (hready hd hrv).2
    | true => exact (h.marked hd).1
  obtain ⟨T, hT, hshow⟩ := h.settled hrel
  by_cases hroom : w.hasRoom = true
  · have hout : (w.sendBookmark cachedRV).outCh =
        w.outCh ++ [.bookmark (w.bookmarkRV cachedRV) (!w.initialListDone)] := by
      simp [PostgresWatcher.sendBookmark, hrv, hroom]
    refine ⟨?_, ?_, ?_, ?_⟩
    · intro _
      refine ⟨T, hT, ?_⟩
      intro y hy howed
      have howed' : w.Owed y := ⟨howed.wants, howed.decodable, howed.above⟩
      obtain ⟨type, ht⟩ := hshow y hy howed'
      rw [hout]
      exact ⟨type, List.mem_append_left _ ht⟩
    · intro hd
      rw [hdone] at hd
      cases hd
    · intro _
      refine ⟨hrel, ?_⟩
      rw [bookmarks_append hout]
      cases hd : w.initialListDone with
      | false =>
        rw [h.unmarked hd]
        exact ⟨0, rfl⟩
      | true =>
        obtain ⟨n, hn⟩ := (h.marked hd).2
        rw [hn]
        exact ⟨n + 1, by simp [List.replicate_succ']⟩
    · intro pre rv b hpre
      rw [hout] at hpre
      rcases List.prefix_concat_iff.mp hpre with heq | hpre
      · obtain ⟨rfl, -⟩ := List.append_inj' heq rfl
        exact ⟨T, hT, hshow.congr rfl rfl⟩
      · obtain ⟨rows, hrows, hshow⟩ := h.complete pre rv b hpre
        exact ⟨rows, hrows, hshow.congr rfl rfl⟩
  · -- the bookmark is dropped, which the promise excludes for the first one
    have hd : w.initialListDone = true := by
      cases hd : w.initialListDone with
      | false => exact absurd (hready hd hrv).1 hroom
      | true => rfl
    apply h.congr <;> simp [PostgresWatcher.sendBookmark, hroom, hd]

/-! ### Steps -/

theorem Marked.syncing (h : w.Marked S) (h₁ : w.pc ≠ .relist .initial)
    (h₂ : ∀ rows, w.pc ≠ .scanning .initial rows) : w.Syncing S :=
  { h with
    fresh := fun hpc => absurd hpc h₁
    scanning := fun rows hpc => absurd hpc (h₂ rows) }

theorem next_ne_initial (cause : Cause) : cause.next ≠ .relist .initial := by
  rcases cause with _ | _ | _ <;> simp [Cause.next]

/-- The end of the initial relist, when nothing has been marked yet. -/
theorem Syncing.relisted (h : w.Syncing S) (cause : Cause) (ok : Bool)
    (hinit : cause = .initial → w.initialRelist = none ∧
      (ok = true → ∃ rows, S rows ∧ w.Shows w.outCh rows))
    (hout : w'.outCh = w.outCh) (hf : w'.filter = w.filter) (hs : w'.startRV = w.startRV)
    (hdone : w'.initialListDone = w.initialListDone)
    (hrel : w'.initialRelist = if cause = .initial then some ok else w.initialRelist) :
    w'.Marked S := by
  by_cases hc : cause = .initial
  · obtain ⟨hnone, hok⟩ := hinit hc
    have hno : w.initialListDone = false := by
      cases hd : w.initialListDone with
      | false => rfl
      | true =>
        have := (h.marked hd).1
        rw [hnone] at this
        cases this
    have hb : w'.bookmarks = [] := by
      unfold bookmarks
      rw [hout]
      exact h.unmarked hno
    rw [if_pos hc] at hrel
    refine ⟨?_, fun _ => hb, ?_, ?_⟩
    · intro hr
      rw [hrel, Option.some.injEq] at hr
      obtain ⟨rows, hrows, hshow⟩ := hok hr
      rw [hout]
      exact ⟨rows, hrows, hshow.congr hf hs⟩
    · intro hd
      rw [hdone, hno] at hd
      cases hd
    · intro pre rv b hpre
      rw [hout] at hpre
      obtain ⟨rows, hrows, hshow⟩ := h.complete pre rv b hpre
      exact ⟨rows, hrows, hshow.congr hf hs⟩
  · rw [if_neg hc] at hrel
    exact h.toMarked.congr hout hf hs hdone hrel

/-- A row of the initial relist: what is left of the table is still to be scanned or delivered. -/
theorem Syncing.scan_tail {xs : List Row} (h : w.Syncing S) {cause : Cause}
    (hpc : w.pc = .scanning cause (x :: xs)) (hpc' : w'.pc = .scanning cause xs)
    (hm : w'.Marked S) (hf : w'.filter = w.filter) (hs : w'.startRV = w.startRV)
    (hrel : w'.initialRelist = w.initialRelist) (hold : ∀ y, w.delivered y → w'.delivered y)
    (hx : w.seenRVs x.uid = none ∨ w.delivered x ∨ x.decodable = false →
      w'.delivered x ∨ x.decodable = false)
    (hseen : ∀ k, k ≠ x.uid → w'.seenRVs k = w.seenRVs k) : w'.Syncing S := by
  refine { hm with fresh := ?_, scanning := ?_ }
  · intro hi
    rw [hpc'] at hi
    cases hi
  · intro rows hi
    rw [hpc'] at hi
    obtain ⟨rfl, rfl⟩ := WatcherPc.scanning.inj hi
    obtain ⟨hnone, ⟨T, hT, hrows⟩, hnew, hinj⟩ := h.scanning _ hpc
    have hhead := hx (hnew x List.mem_cons_self)
    refine ⟨hrel.trans hnone, ⟨T, hT, ?_⟩, ?_, ?_⟩
    · intro y hy howed
      have howed' := (owed_congr hf hs).mp howed
      rcases hrows y hy howed' with hmem | hd
      · rcases List.mem_cons.mp hmem with rfl | hmem
        · rcases hhead with hd | hdec
          · exact .inr hd
          · rw [howed'.decodable] at hdec
            cases hdec
        · exact .inl hmem
      · exact .inr (hold y hd)
    · intro y hy
      have hmem : y ∈ x :: xs := List.mem_cons_of_mem _ hy
      by_cases hu : y.uid = x.uid
      · obtain rfl := hinj y hmem x List.mem_cons_self hu
        exact .inr hhead
      · rw [hseen y.uid hu]
        exact (hnew y hmem).imp_right (.imp_left (hold y))
    · intro y hy z hz hu
      exact hinj y (List.mem_cons_of_mem _ hy) z (List.mem_cons_of_mem _ hz) hu

theorem Syncing.step (hdb : db.WellFormed) (hS : S db.rows) (h : w.Syncing S)
    (hready : a = .sendBookmark → w.SyncReady cachedRV) (hs : w.step db cachedRV a = some w') :
    w'.Syncing S := by
  have hm := h.toMarked
  cases step_effect hs with
  | @relistQuery cause q hpc hq =>
    have hm' : ({ w with pc := .scanning cause (db.select q) } : PostgresWatcher).Marked S :=
      hm.congr rfl rfl rfl rfl rfl
    refine { hm' with
      fresh := ?_, scanning := ?_ }
    · intro hi
      cases hi
    · intro rows hi
      obtain ⟨rfl, rfl⟩ := WatcherPc.scanning.inj hi
      obtain ⟨hempty, hcur, hnone⟩ := h.fresh hpc
      refine ⟨hnone, ⟨db.rows, hS, ?_⟩, ?_, ?_⟩
      · intro x hx howed
        have howed' : w.Owed x := ⟨howed.wants, howed.decodable, howed.above⟩
        left
        apply Database.mem_select.mpr
        refine ⟨hx, (w.filter.buildRelistQuery_iff hq x).mpr ⟨howed'.wants, ?_⟩⟩
        have habove := howed'.above
        unfold resumeFloor at habove
        unfold queryFromRV resumeFloor
        omega
      · intro x _
        left
        simp [hempty, SeenVersions.empty]
      · intro x hx y hy hu
        exact hdb.rows_inj (Database.mem_select.mp hy).1 (Database.mem_select.mp hx).1 hu
  | @queryError cause hpc =>
    refine Marked.syncing ?_ (next_ne_initial cause) (fun rows => cause.next_ne.2 _ rows)
    refine h.relisted cause false ?_ rfl rfl rfl rfl rfl
    rintro rfl
    exact ⟨(h.fresh hpc).2.2, fun hok => by cases hok⟩
  | @scanError cause rows hpc =>
    refine Marked.syncing ?_ (next_ne_initial cause) (fun rows => cause.next_ne.2 _ rows)
    refine h.relisted cause false ?_ rfl rfl rfl rfl rfl
    rintro rfl
    exact ⟨(h.scanning _ hpc).1, fun hok => by cases hok⟩
  | @rowSkipped cause x xs hpc hskip =>
    refine h.scan_tail hpc rfl (hm.congr rfl rfl rfl rfl rfl) rfl rfl rfl (fun _ h => h) ?_
      (fun _ _ => rfl)
    rintro (hnone | hseen)
    · simp [SeenVersions.skips, hnone] at hskip
    · exact hseen
  | @rowUndecodable cause x xs hpc hskip hdec =>
    refine h.scan_tail hpc rfl (hm.congr rfl rfl rfl rfl rfl) rfl rfl rfl (fun _ h => h)
      (fun _ => .inr hdec) (fun k hk => SeenVersions.mark_ne hk)
  | @rowEmitted cause x xs hpc hskip hdec hroom =>
    refine h.scan_tail hpc rfl ((hm.emit x).congr rfl rfl rfl rfl rfl) rfl rfl rfl ?_ ?_
      (fun k hk => SeenVersions.mark_ne hk)
    · intro y hy
      exact delivered_emit.mpr (.inl hy)
    · intro _
      exact .inl (delivered_emit.mpr (.inr rfl))
  | @relistDone cause hpc =>
    refine Marked.syncing ?_ (next_ne_initial cause) (fun rows => cause.next_ne.2 _ rows)
    refine h.relisted cause true ?_ rfl rfl rfl rfl rfl
    rintro rfl
    obtain ⟨hnone, ⟨T, hT, hrows⟩, -, -⟩ := h.scanning _ hpc
    refine ⟨hnone, fun _ => ⟨T, hT, ?_⟩⟩
    intro x hx howed
    rcases hrows x hx howed with hmem | hd
    · cases hmem
    · exact hd
  | sendBookmark hpc =>
    apply Marked.syncing
    · exact (hm.sendBookmark (hready rfl)).congr rfl rfl rfl rfl rfl
    · simp
    · simp
  | @forwardEmitted x hpc =>
    apply Marked.syncing
    · exact (hm.emit x).congr rfl rfl rfl rfl rfl
    · simp
    · simp
  | @caughtUp r =>
    apply Marked.syncing
    · exact hm.congr rfl rfl rfl rfl rfl
    · exact next_ne_initial _
    · exact fun rows => (Cause.catchUp r).next_ne.2 _ rows
  | consume =>
    have hm' : ({ w with received := w.received + 1 } : PostgresWatcher).Marked S :=
      hm.congr rfl rfl rfl rfl rfl
    refine { hm' with
      fresh := h.fresh, scanning := ?_ }
    intro rows hpc
    obtain ⟨hnone, ⟨T, hT, hrows⟩, hrest⟩ := h.scanning rows hpc
    refine ⟨hnone, ⟨T, hT, ?_⟩, hrest⟩
    intro x hx howed
    exact hrows x hx ⟨howed.wants, howed.decodable, howed.above⟩
  | _ =>
    apply Marked.syncing
    · exact hm.congr rfl rfl rfl rfl rfl
    · simp
    · simp

theorem Syncing.offer (h : w.Syncing S) (x : Row) : (w.offer x).Syncing S := by
  have hkeep : ∀ {v : PostgresWatcher}, v.outCh = w.outCh → v.filter = w.filter →
      v.startRV = w.startRV → v.initialListDone = w.initialListDone →
      v.initialRelist = w.initialRelist → v.pc = w.pc → v.seenRVs = w.seenRVs →
      v.lastSeenRV = w.lastSeenRV → v.Syncing S := by
    intro v hout hf hs hdone hrel hpc hseen hcur
    refine { h.toMarked.congr hout hf hs hdone hrel with fresh := ?_, scanning := ?_ }
    · intro hi
      rw [hseen, hcur, hs, hrel]
      exact h.fresh (hpc ▸ hi)
    · intro rows hi
      obtain ⟨hnone, ⟨T, hT, hrows⟩, hnew, hinj⟩ := h.scanning rows (hpc ▸ hi)
      refine ⟨hrel.trans hnone, ⟨T, hT, ?_⟩, ?_, hinj⟩
      · intro y hy howed
        have hd := hrows y hy ((owed_congr hf hs).mp howed)
        unfold delivered at hd ⊢
        rwa [hout]
      · unfold delivered
        rw [hseen, hout]
        exact hnew
  rcases offer_cases x w with ⟨he, -⟩ | ⟨-, -, he⟩ | ⟨-, -, -, he⟩
  · rwa [he]
  · rw [he]
    apply hkeep <;> rfl
  · rw [he]
    apply hkeep <;> rfl

end PostgresWatcher

namespace Cluster

variable {c c₁ c' : Cluster} {a : Action} {r bid wid : Nat} {w : PostgresWatcher}

/-- Watcher `wid` of broadcaster `bid` on replica `r`. -/
def Serves (c : Cluster) (r bid wid : Nat) (w : PostgresWatcher) : Prop :=
  ∃ p b, (r, p) ∈ c.replicas ∧ (bid, b) ∈ p.broadcasters ∧ (wid, w) ∈ b.watchers

theorem serves_of_watcher? {b : KindBroadcaster} (h : c.watcher? r bid wid = some (b, w)) :
    c.Serves r bid wid w := by
  obtain ⟨b', hfind, h⟩ := Option.bind_eq_some_iff.mp h
  obtain ⟨p, hp, hb⟩ := Option.bind_eq_some_iff.mp hfind
  obtain ⟨w', hw, heq⟩ := Option.bind_eq_some_iff.mp h
  obtain ⟨rfl, rfl⟩ := Prod.mk.inj (Option.some.inj heq)
  exact ⟨p, b', Slots.mem_of_get? hp, Slots.mem_of_get? hb, Slots.mem_of_get? hw⟩

/-- How a watcher comes out of a step: it is kept, new, has moved, was offered a row or was
stopped. -/
inductive WatcherStep (c : Cluster) (a : Action) (r bid wid : Nat) : PostgresWatcher → Prop
  | kept {w : PostgresWatcher} (h : c.Serves r bid wid w) : WatcherStep c a r bid wid w
  | opened (filter : WatchFilter) (startRV : Nat) :
      WatcherStep c a r bid wid (.new filter startRV)
  | moved {p : PostgreSQLBackend} {b : KindBroadcaster} {w w' : PostgresWatcher}
      {act : PostgresWatcher.Action} (ha : a = .broadcaster r bid (.watcher wid act))
      (hp : c.replicas.get? r = some p) (hb : p.broadcasters.get? bid = some b)
      (hw : b.watchers.get? wid = some w) (hs : w.step c.db p.cachedRV act = some w') :
      WatcherStep c a r bid wid w'
  | offered {w : PostgresWatcher} (x : Row) (h : c.Serves r bid wid w) :
      WatcherStep c a r bid wid (w.offer x)
  | stopped {w : PostgresWatcher} (h : c.Serves r bid wid w) :
      WatcherStep c a r bid wid { w with pc := .stopped }

/-- The watchers of a broadcaster after one of its steps. -/
theorem broadcaster_step {p : PostgreSQLBackend} {b b' : KindBroadcaster}
    {act : KindBroadcaster.Action} (hp : c.replicas.get? r = some p)
    (hb : p.broadcasters.get? bid = some b) (hs : b.step c.db p.cachedRV act = some b')
    (hw : (wid, w) ∈ b'.watchers) : WatcherStep c (.broadcaster r bid act) r bid wid w := by
  have hold : ∀ {v}, (wid, v) ∈ b.watchers → c.Serves r bid wid v :=
    fun hv => ⟨p, b, Slots.mem_of_get? hp, Slots.mem_of_get? hb, hv⟩
  cases KindBroadcaster.step_effect hs with
  | rowFannedOut =>
    obtain ⟨⟨i, v⟩, hv, heq⟩ := List.mem_map.mp hw
    obtain ⟨rfl, rfl⟩ := Prod.mk.inj heq
    exact .offered _ (hold hv)
  | stop hget =>
    rcases Slots.mem_put hw with ⟨rfl, rfl⟩ | ⟨-, hw⟩
    · exact .stopped (hold (Slots.mem_of_get? hget))
    · exact .kept (hold hw)
  | watcher hget hstep =>
    rcases Slots.mem_put hw with ⟨rfl, rfl⟩ | ⟨-, hw⟩
    · exact .moved rfl hp hb hget hstep
    · exact .kept (hold hw)
  | _ => exact .kept (hold hw)

/-- A new watch joins the broadcaster of its kind. -/
theorem watcher_subscribed {p p' : PostgreSQLBackend} {b : KindBroadcaster} {nb nw : Nat}
    {filter : WatchFilter} {startRV : Nat} (hp : c.replicas.get? r = some p)
    (hsub : p.getOrCreateBroadcasterAndSubscribe nb nw (.new filter startRV) = some p')
    (hb : (bid, b) ∈ p'.broadcasters) (hw : (wid, w) ∈ b.watchers) :
    WatcherStep c a r bid wid w := by
  rcases PostgreSQLBackend.subscribed hsub bid b hb with hb | rfl | ⟨b₀, hb₀, -, -, rfl⟩
  · exact .kept ⟨p, b, Slots.mem_of_get? hp, hb, hw⟩
  · rcases List.mem_cons.mp hw with heq | hw
    · obtain ⟨-, rfl⟩ := Prod.mk.inj heq
      exact .opened filter startRV
    · cases hw
  · rcases List.mem_cons.mp hw with heq | hw
    · obtain ⟨-, rfl⟩ := Prod.mk.inj heq
      exact .opened filter startRV
    · exact .kept ⟨p, b₀, Slots.mem_of_get? hp, hb₀, hw⟩

/-- A replica whose broadcasters stay as they are keeps its watchers. -/
theorem kept_of_put {p p' : PostgreSQLBackend} {i : Nat} {db : Database}
    (hp : c.replicas.get? i = some p)
    (hw : (⟨db, c.replicas.put i p'⟩ : Cluster).Serves r bid wid w)
    (hbs : p'.broadcasters = p.broadcasters) :
    WatcherStep c a r bid wid w := by
  obtain ⟨q, b, hq, hb, hw⟩ := hw
  rcases Slots.mem_put hq with ⟨rfl, rfl⟩ | ⟨-, hq⟩
  · exact .kept ⟨p, b, Slots.mem_of_get? hp, hbs ▸ hb, hw⟩
  · exact .kept ⟨q, b, hq, hb, hw⟩

theorem watcher_step (hs : c.step a = some c') (hw : c'.Serves r bid wid w) :
    WatcherStep c a r bid wid w := by
  cases a with
  | database d =>
    obtain ⟨db, -, rfl⟩ := Option.map_eq_some_iff.mp hs
    exact .kept hw
  | new i =>
    obtain ⟨-, hs⟩ := Option.ite_none_right_eq_some.mp hs
    obtain rfl := Option.some.inj hs
    obtain ⟨p, b, hp, hb, hw⟩ := hw
    rcases List.mem_cons.mp hp with heq | hp
    · obtain ⟨-, rfl⟩ := Prod.mk.inj heq
      cases hb
    · exact .kept ⟨p, b, hp, hb, hw⟩
  | close i =>
    obtain rfl := Option.some.inj hs
    obtain ⟨p, b, hp, hb, hw⟩ := hw
    exact .kept ⟨p, b, List.mem_of_mem_filter hp, hb, hw⟩
  | readMaxRV i =>
    obtain ⟨p, hp, rfl⟩ := Option.map_eq_some_iff.mp hs
    exact kept_of_put hp hw rfl
  | storeCachedRV i =>
    obtain ⟨p, hp, hs⟩ := Option.bind_eq_some_iff.mp hs
    obtain ⟨rv, -, hs⟩ := Option.bind_eq_some_iff.mp hs
    obtain rfl := Option.some.inj hs
    exact kept_of_put hp hw rfl
  | purgeExpired i =>
    obtain ⟨p, hp, hs⟩ := Option.bind_eq_some_iff.mp hs
    obtain rfl := Option.some.inj hs
    exact kept_of_put hp hw rfl
  | readPurgeFloor i | storePurgeFloor i floor =>
    obtain ⟨p, hp, hs⟩ := Option.bind_eq_some_iff.mp hs
    obtain ⟨-, hs⟩ := Option.ite_none_right_eq_some.mp hs
    obtain rfl := Option.some.inj hs
    exact kept_of_put hp hw rfl
  | watch i nb nw filter resourceVersion =>
    obtain ⟨p, hp, hs⟩ := Option.bind_eq_some_iff.mp hs
    obtain ⟨startRV, -, hs⟩ := Option.bind_eq_some_iff.mp hs
    obtain ⟨p', hsub, hs⟩ := Option.bind_eq_some_iff.mp hs
    obtain rfl := Option.some.inj hs
    obtain ⟨q, b, hq, hb, hw⟩ := hw
    rcases Slots.mem_put hq with ⟨rfl, rfl⟩ | ⟨-, hq⟩
    · exact watcher_subscribed hp hsub hb hw
    · exact .kept ⟨q, b, hq, hb, hw⟩
  | broadcaster i j act =>
    obtain ⟨p, hp, hs⟩ := Option.bind_eq_some_iff.mp hs
    obtain ⟨b₀, hb₀, hs⟩ := Option.bind_eq_some_iff.mp hs
    obtain ⟨b', hstep, hs⟩ := Option.bind_eq_some_iff.mp hs
    obtain rfl := Option.some.inj hs
    obtain ⟨q, b, hq, hb, hw⟩ := hw
    rcases Slots.mem_put hq with ⟨rfl, rfl⟩ | ⟨-, hq⟩
    · rcases Slots.mem_put hb with ⟨rfl, rfl⟩ | ⟨-, hb⟩
      · exact broadcaster_step hp hb₀ hstep hw
      · exact .kept ⟨p, b, Slots.mem_of_get? hp, hb, hw⟩
    · exact .kept ⟨q, b, hq, hb, hw⟩

/-! ### Runs -/

/-- The step of `sendBookmark` that would flip `initialListDone` finds room, after a complete
initial relist. -/
def SyncsFirst (c : Cluster) (a : Action) : Prop :=
  ∀ r bid wid p b w, a = .broadcaster r bid (.watcher wid .sendBookmark) →
    c.replicas.get? r = some p → p.broadcasters.get? bid = some b →
    b.watchers.get? wid = some w → w.SyncReady p.cachedRV

/-- The tables between two states of a run. -/
def Between (ok : Cluster → Action → Prop) (c₁ c : Cluster) (rows : List Row) : Prop :=
  ∃ c', machine.Run ok c₁ c' ∧ machine.Run ok c' c ∧ c'.db.rows = rows

variable {ok : Cluster → Action → Prop}

theorem Between.tail {rows : List Row} (ha : ok c a) (hs : c.step a = some c')
    (h : Between ok c₁ c rows) : Between ok c₁ c' rows := by
  obtain ⟨m, hm, hmc, hrows⟩ := h
  exact ⟨m, hm, hmc.tail ha hs, hrows⟩

theorem syncing_step (hdb : c.db.WellFormed) (hrun : machine.Run SyncsFirst c₁ c)
    (ha : SyncsFirst c a) (hs : c.step a = some c')
    (h : ∀ w, c.Serves r bid wid w → w.Syncing (Between SyncsFirst c₁ c))
    (hw : c'.Serves r bid wid w) : w.Syncing (Between SyncsFirst c₁ c') := by
  have htail : ∀ rows, Between SyncsFirst c₁ c rows → Between SyncsFirst c₁ c' rows :=
    fun _ => Between.tail ha hs
  cases watcher_step hs hw with
  | kept hw => exact (h w hw).mono htail
  | opened filter startRV => exact PostgresWatcher.syncing_new filter startRV
  | @moved p b w₀ _ act heq hp hb hget hstep =>
    have hw₀ : c.Serves r bid wid w₀ :=
      ⟨p, b, Slots.mem_of_get? hp, Slots.mem_of_get? hb, Slots.mem_of_get? hget⟩
    refine ((h w₀ hw₀).step hdb ⟨c, hrun, .refl, rfl⟩ ?_ hstep).mono htail
    rintro rfl
    exact ha r bid wid p b w₀ heq hp hb hget
  | @offered w₀ x hw₀ => exact ((h w₀ hw₀).offer x).mono htail
  | @stopped w₀ hw₀ =>
    have hm : w₀.Marked (Between SyncsFirst c₁ c') := (h w₀ hw₀).toMarked.mono htail
    have hm' : ({ w₀ with pc := .stopped } : PostgresWatcher).Marked (Between SyncsFirst c₁ c') :=
      hm.congr rfl rfl rfl rfl rfl
    exact hm'.syncing (by simp) (by simp)

theorem Between.mem {rows : List Row} {x : Row} (h₁ : c₁.db.WellFormed)
    (hx₁ : x ∈ c₁.db.rows) (hx : x ∈ c.db.rows) (h : Between ok c₁ c rows) : x ∈ rows := by
  obtain ⟨m, hm, hmc, rfl⟩ := h
  have hwf : m.db.WellFormed :=
    hm.preserves (I := fun c => c.db.WellFormed) (fun _ _ _ hI _ hs => step_wellFormed hI hs) h₁
  exact (rows_kept hwf hmc).2 x hx ((rows_kept h₁ hm).1 x (h₁.rows_log x hx₁))

/-- In a run in which the first bookmark is sent after a complete initial relist and finds room,
the stream of a watch opened after `c₁` marks the end of the initial events once, after an event
for every row of a table not older than `c₁`, hence for every row of `c₁` that is still in the
table. -/
theorem initial_events_end (h : machine.Reachable SyncsFirst c₁)
    (hopen : ∀ w, ¬ c₁.Serves r bid wid w) (hrun : machine.Run SyncsFirst c₁ c)
    (hw : c.Serves r bid wid w) :
    w.InitialSync (Between SyncsFirst c₁ c) ∧
      ∀ pre rv b, pre ++ [.bookmark rv b] <+: w.outCh →
        ∀ x ∈ c₁.db.rows, x ∈ c.db.rows → w.Owed x → PostgresWatcher.Emitted pre x := by
  have hdb := wellFormed_of_reachable h
  have hall : ∀ w, c.Serves r bid wid w → w.Syncing (Between SyncsFirst c₁ c) := by
    clear hw
    induction hrun with
    | refl => exact fun w hw => absurd hw (hopen w)
    | tail hrun ha hs ih =>
      intro w hw
      exact syncing_step (wellFormed_of_reachable (h.trans hrun)) hrun ha hs ih hw
  have hsync := (hall w hw).initialSync
  refine ⟨hsync, ?_⟩
  intro pre rv b hpre x hx₁ hx howed
  obtain ⟨rows, hrows, hshow⟩ := hsync.complete pre rv b hpre
  exact hshow x (hrows.mem hdb hx₁ hx) howed

/-! ### Concrete runs -/

/-- A test that implies `SyncsFirst`. -/
def syncsFirst (c : Cluster) : Action → Bool
  | .broadcaster r bid (.watcher wid .sendBookmark) =>
    (c.replicas.get? r).all fun p => (p.broadcasters.get? bid).all fun b =>
      (b.watchers.get? wid).all fun w =>
        w.initialListDone || w.bookmarkRV p.cachedRV == 0 ||
          (w.hasRoom && w.initialRelist == some true)
  | _ => true

theorem syncsFirst_sound (h : syncsFirst c a = true) : SyncsFirst c a := by
  rintro r bid wid p b w rfl hp hb hw hdone hrv
  simp only [syncsFirst, hp, hb, hw, Option.all_some, hdone, Bool.false_or, Bool.or_eq_true,
    Bool.and_eq_true, beq_iff_eq] at h
  exact h.resolve_left hrv

/-- A query is in the table, and its version in the mirror, before the watch is opened. -/
def beforeWatch : List Action :=
  createQuery 1 "a" ++ [.new 0, .readMaxRV 0, .storeCachedRV 0]

/-- The initial relist sends the query before the bookmark. -/
def syncedRun : List Action :=
  [.watch 0 0 0 allQueries "", watcherStep .relistQuery, watcherStep .relistRow,
    watcherStep .relistDone, watcherStep .sendBookmark]

/-- The initial relist fails; the bookmark is sent all the same. -/
def failedRelistRun : List Action :=
  [.watch 0 0 0 allQueries "", watcherStep .relistError, watcherStep .sendBookmark]

theorem runs_of_exec {b : Cluster → Action → Bool} (hb : ∀ c a, b c a = true → ok c a)
    (l l' : List Action) (test : Cluster → Cluster → Bool)
    (h : ((machine.execWhile b ⟨.empty, []⟩ l).any fun c₁ =>
      (machine.execWhile b c₁ l').any fun c => test c₁ c) = true) :
    ∃ c₁ c, machine.Reachable ok c₁ ∧ machine.Run ok c₁ c ∧ test c₁ c = true := by
  obtain ⟨c₁, hc₁, h⟩ := (Option.any_eq_true _ _).mp h
  obtain ⟨c, hc, h⟩ := (Option.any_eq_true _ _).mp h
  exact ⟨c₁, c, ⟨_, rfl, Machine.run_of_execWhile hb hc₁⟩, Machine.run_of_execWhile hb hc, h⟩

/-- What the concrete runs are tested for. -/
def opensOver (x : Row) (p : PostgresWatcher → Bool) (c₁ c : Cluster) : Bool :=
  c₁.replicas.all (·.2.broadcasters.isEmpty) && c₁.db.rows == [x] && c.db.rows == [x] &&
    (c.watcher? 0 0 0).any fun q => decide (q.2.filter.wants x) && q.2.startRV == 0 && p q.2

theorem of_opensOver {x : Row} {p : PostgresWatcher → Bool} (h : opensOver x p c₁ c = true) :
    (∀ w, ¬ c₁.Serves r bid wid w) ∧ x ∈ c₁.db.rows ∧ x ∈ c.db.rows ∧
      ∃ w, c.Serves 0 0 0 w ∧ w.filter.wants x ∧ w.startRV = 0 ∧ p w = true := by
  simp only [opensOver, Bool.and_eq_true, List.all_eq_true, List.isEmpty_iff, beq_iff_eq,
    Option.any_eq_true, decide_eq_true_eq] at h
  obtain ⟨⟨⟨hnone, hx₁⟩, hx⟩, ⟨b, w⟩, hfind, ⟨hwants, hstart⟩, hp⟩ := h
  refine ⟨?_, by simp [hx₁], by simp [hx], w, serves_of_watcher? hfind, hwants, hstart, hp⟩
  rintro w ⟨p, b, hp, hb, -⟩
  rw [hnone _ hp] at hb
  cases hb

theorem initial_events_end_after_relist : ∃ c₁ c w, machine.Reachable SyncsFirst c₁ ∧
    machine.Run SyncsFirst c₁ c ∧ c.Serves 0 0 0 w ∧ w.bookmarks = [true] ∧
      PostgresWatcher.Emitted w.outCh (query 1 "a") ∧
      w.InitialSync (Between SyncsFirst c₁ c) := by
  let synced : PostgresWatcher → Bool := fun w =>
    w.outCh == [.change .added (query 1 "a"), .bookmark 1 true]
  obtain ⟨c₁, c, h, hrun, hp⟩ := runs_of_exec (b := syncsFirst)
    (fun _ _ => syncsFirst_sound) beforeWatch syncedRun (opensOver (query 1 "a") synced) (by decide)
  obtain ⟨hopen, hx₁, hx, w, hw, hwants, hstart, hout⟩ := of_opensOver hp
  have hout : w.outCh = [.change .added (query 1 "a"), .bookmark 1 true] := beq_iff_eq.mp hout
  refine ⟨c₁, c, w, h, hrun, hw, by simp [PostgresWatcher.bookmarks, hout], ?_,
    (initial_events_end h hopen hrun hw).1⟩
  rw [hout]
  exact ⟨.added, List.mem_cons_self⟩

/-- In general the annotated bookmark does not wait for the rows. -/
theorem bookmark_without_initial_events :
    ¬ ∀ c₁ c r bid wid w, machine.Reachable Machine.always c₁ →
      (∀ w, ¬ c₁.Serves r bid wid w) → machine.Run Machine.always c₁ c → c.Serves r bid wid w →
      w.InitialSync (Between Machine.always c₁ c) := by
  intro hall
  let unsynced : PostgresWatcher → Bool := fun w => w.outCh == [.bookmark 1 true]
  have hall' : ∀ (c : Cluster) (a : Action), true = true → Machine.always c a :=
    fun _ _ _ => trivial
  obtain ⟨c₁, c, h, hrun, hp⟩ := runs_of_exec hall' beforeWatch failedRelistRun
    (opensOver (query 1 "a") unsynced) (by decide)
  obtain ⟨hopen, hx₁, hx, w, hw, hwants, hstart, hout⟩ := of_opensOver hp
  have hout : w.outCh = [.bookmark 1 true] := beq_iff_eq.mp hout
  have hsync := hall c₁ c 0 0 0 w h hopen hrun hw
  obtain ⟨rows, hrows, hshow⟩ := hsync.complete [] 1 true (by simp [hout])
  have howed : w.Owed (query 1 "a") :=
    ⟨hwants, rfl, by simp [PostgresWatcher.resumeFloor, hstart, query]⟩
  obtain ⟨type, hev⟩ := hshow _ (hrows.mem (wellFormed_of_reachable h) hx₁ hx) howed
  cases hev

end Cluster
end Ark
