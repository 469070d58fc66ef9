import Ark.Mirrors
import Ark.WatchDelivery

/-!
# Resuming from a bookmark

A bookmark advertises the larger of the watcher's cursor and the maximum version of the whole
store that the replica last read. Everything a lookback window below the cursor was delivered. The
mirrored maximum carries no such guarantee: it also counts other kinds, and it does not wait for
the broadcaster. A client that resumes from the bookmark misses nothing exactly when the rows that
far below the mirrored maximum were delivered too.
-/

namespace Ark

namespace PostgresWatcher

/-- A client that resumes from `rv` will be sent every row it has not been sent yet. -/
def BookmarkSafe (db : Database) (w : PostgresWatcher) (rv : Nat) : Prop :=
  ∀ x ∈ db.rows, w.Owed x → w.delivered x ∨ rv < x.rv + relistLookbackRVs

/-- The rows a lookback window below the mirrored maximum were delivered. -/
def CachedCovered (db : Database) (w : PostgresWatcher) (cachedRV : Nat) : Prop :=
  ∀ x ∈ db.rows, w.Owed x → x.rv + relistLookbackRVs ≤ cachedRV → w.delivered x

/-- The cursor never makes a bookmark unsafe. -/
theorem bookmarkSafe_iff {db : Database} {b : KindBroadcaster} {w : PostgresWatcher}
    {cachedRV : Nat} (h : ∀ x ∈ db.rows, w.Owed x → w.Tracked b x) :
    w.BookmarkSafe db (w.bookmarkRV cachedRV) ↔ w.CachedCovered db cachedRV := by
  constructor
  · intro hsafe x hx howed hle
    rcases hsafe x hx howed with hd | hlt
    · exact hd
    · unfold bookmarkRV at hlt
      omega
  · intro hcov x hx howed
    rcases h x hx howed with hd | ⟨hlook, -⟩
    · exact .inl hd
    · by_cases hle : x.rv + relistLookbackRVs ≤ cachedRV
      · exact .inl (hcov x hx howed hle)
      · have hcur := hlook.cursor
        refine .inr ?_
        unfold bookmarkRV
        omega

end PostgresWatcher

namespace Cluster

open PostgresWatcher (Running followed_running)

/-- The delivery promise, for every watcher that has not been stopped. -/
abbrev resumePromise : Promise := deliveryPromise Running

/-- Every row of a later table was delivered by the first stream before its bookmark or is owed by
the stream that resumes from it. -/
theorem delivered_or_owed {db db' : Database} {w w' : PostgresWatcher} {rv : Nat}
    (hlater : db.Later db') (hsafe : w.BookmarkSafe db rv) (hrv : rv ≤ max db.seq w.startRV)
    (hdb' : db'.WellFormed) (hfilter : w'.filter = w.filter) (hstart : w'.startRV = rv)
    {y : Row} (hy : y ∈ db'.rows) (howed : w.Owed y) : w.delivered y ∨ w'.Owed y := by
  have hback : rv < y.rv + relistLookbackRVs → w'.Owed y := by
    intro hlt
    have hpos := hdb'.rows_pos hy
    refine ⟨hfilter ▸ howed.wants, howed.decodable, ?_⟩
    unfold PostgresWatcher.resumeFloor
    omega
  rcases hlater.fresh y (hdb'.rows_log y hy) with hold | hnew
  · have hrow : y ∈ db.rows := (hlater.rows y hy).resolve_right (not_not_intro hold)
    exact (hsafe y hrow howed).imp_right hback
  · have habove := howed.above
    unfold PostgresWatcher.resumeFloor at habove
    exact .inr (hback (by omega))

section
variable {c : Cluster} {r bid wid : Nat} {p : PostgreSQLBackend} {b : KindBroadcaster}
  {w : PostgresWatcher}

end

/-- A query is delivered, the replica refreshes its mirror, and the bookmark tick fires. -/
def bookmarkRun : List Action :=
  openWatch allQueries "" ++ createQuery 1 "a" ++
  [.broadcaster 0 0 (.prime false), .broadcaster 0 0 .relistQuery, .broadcaster 0 0 .relistRow,
    .broadcaster 0 0 .relistDone, watcherStep .receive, watcherStep .forwardRow,
    watcherStep .recoverIfBehind, .readMaxRV 0, .storeCachedRV 0, watcherStep .tick,
    watcherStep .recoverIfBehind]

/-- The watcher of a computed run, about to send a bookmark. -/
def atBookmark (c : Cluster) (p : PostgreSQLBackend → PostgresWatcher → Bool) : Bool :=
  (c.replicas.get? 0).any fun q => (c.watcher? 0 0 0).any fun s => s.2.pc == .bookmark && p q s.2

theorem exists_atBookmark {c : Cluster} {f : PostgreSQLBackend → PostgresWatcher → Bool}
    (h : atBookmark c f = true) : ∃ p b w, c.replicas.get? 0 = some p ∧
      c.watcher? 0 0 0 = some (b, w) ∧ w.pc = .bookmark ∧ f p w = true := by
  obtain ⟨p, hp, h⟩ := (Option.any_eq_true _ _).mp h
  obtain ⟨⟨b, w⟩, hw, h⟩ := (Option.any_eq_true _ _).mp h
  simp only [Bool.and_eq_true, beq_iff_eq] at h
  exact ⟨p, b, w, hp, hw, h.1, h.2⟩

/-- A query waits to be fanned out while an agent 501 versions above it raises the mirrored
maximum, and the bookmark tick fires. -/
def overtakenRun : List Action :=
  openWatch allQueries "" ++ createQuery 1 "a" ++ List.replicate 500 (.database .burn) ++
  createAgent 502 "b" ++
  [.readMaxRV 0, .storeCachedRV 0, watcherStep .tick, watcherStep .recoverIfBehind]

/-- The client takes the bookmark and resumes from it. -/
def resumingRun : List Action :=
  [watcherStep .sendBookmark, .broadcaster 0 0 (.stop 0), .watch 0 1 1 allQueries "502",
    .broadcaster 0 1 (.watcher 1 .relistQuery), .broadcaster 0 1 (.watcher 1 .relistDone),
    .broadcaster 0 1 (.watcher 1 .sendBookmark), .broadcaster 0 1 (.prime true),
    .broadcaster 0 1 .relistQuery, .broadcaster 0 1 .relistDone]

/-- The second stream at the end of `resumingRun`. -/
def resumedEmpty (c : Cluster) : Bool :=
  (c.watcher? 0 1 1).any fun s => quiescent c s.1 s.2 && s.2.startRV == 502 &&
    s.2.filter == allQueries && s.2.outCh == [.bookmark 502 true] &&
    c.db.rows.contains (query 1 "a")

end Cluster
end Ark
