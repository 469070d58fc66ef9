import Mathlib.Data.List.Induction
import Ark.WatchDelivery
import Ark.WatchOrder

/-!
# What a selector watch adds up to

A client folds the events of a stream by uid. Both filter paths test the labels of the new version
only, and no path sends a DELETED event for an object that stopped matching, so the fold of a stream
that has caught up holds the live matching objects and, beside them, the last matching version of
objects that left the selector.
-/

namespace Ark

namespace PostgresWatcher

/-- The client's map from uid to object. -/
abbrev View := String → Option Row

/-- ADDED and MODIFIED insert the object, DELETED removes it. -/
def applyEvent (v : View) (p : EventType × Row) : View :=
  Function.update v p.2.uid (if p.1 = .deleted then none else some p.2)

def view (w : PostgresWatcher) : View := w.events.foldl applyEvent fun _ => none

/-- Every row of the table the stream wants was delivered. -/
def CaughtUp (db : Database) (w : PostgresWatcher) : Prop :=
  ∀ x ∈ db.rows, w.filter.wants x → w.delivered x

/-- A live version that was the last one delivered for an object whose row, if it is still there, no
longer matches. -/
structure Stale (db : Database) (w : PostgresWatcher) (y : Row) : Prop where
  live : y.deleted = false
  delivered : w.delivered y
  last : ∀ z, w.delivered z → z.uid = y.uid → z.rv ≤ y.rv
  left : ∀ x ∈ db.rows, x.uid = y.uid → ¬ w.filter.wants x

/-- In a list of events in order the fold holds the last event of each object, unless it is a
deletion. -/
theorem foldl_applyEvent_iff {evs : List (EventType × Row)} {uid : String} {y : Row}
    (h : evs.Pairwise fun p q => p.2.uid = q.2.uid → p.2.rv < q.2.rv ∧ p.1 ≠ .deleted) :
    evs.foldl applyEvent (fun _ => none) uid = some y ↔
      y.uid = uid ∧ ∃ type, (type, y) ∈ evs ∧ type ≠ .deleted ∧
        ∀ q ∈ evs, q.2.uid = uid → q.2.rv ≤ y.rv := by
  induction evs using List.reverseRecOn with
  | nil => simp
  | append_singleton evs p ih =>
    obtain ⟨type, x⟩ := p
    rw [List.pairwise_append] at h
    obtain ⟨hpre, -, hlast⟩ := h
    have hbefore : ∀ q ∈ evs, q.2.uid = x.uid → q.2.rv < x.rv ∧ q.1 ≠ .deleted :=
      fun q hq => hlast q hq (type, x) List.mem_cons_self
    rw [List.foldl_append, List.foldl_cons, List.foldl_nil]
    by_cases hu : uid = x.uid
    · subst hu
      have hstep : applyEvent (evs.foldl applyEvent fun _ => none) (type, x) x.uid =
          if type = .deleted then none else some x := Function.update_self ..
      rw [hstep]
      constructor
      · intro heq
        split at heq
        next => cases heq
        next hne =>
          obtain rfl := Option.some.inj heq
          refine ⟨rfl, type, by simp, hne, ?_⟩
          intro q hq hqu
          rcases List.mem_append.mp hq with hq | hq
          · exact (hbefore q hq hqu).1.le
          · rw [List.mem_singleton.mp hq]
      · rintro ⟨hyu, type', hmem, hne, hmax⟩
        have hle : x.rv ≤ y.rv := hmax (type, x) (by simp) rfl
        rcases List.mem_append.mp hmem with hmem | hmem
        · have hlt := (hbefore _ hmem hyu).1
          simp only at hlt
          omega
        · obtain ⟨rfl, rfl⟩ := Prod.mk.inj (List.mem_singleton.mp hmem)
          rw [if_neg hne]
    · have hstep : applyEvent (evs.foldl applyEvent fun _ => none) (type, x) uid =
          evs.foldl applyEvent (fun _ => none) uid := Function.update_of_ne hu ..
      rw [hstep, ih hpre]
      constructor
      · rintro ⟨hyu, type', hmem, hne, hmax⟩
        refine ⟨hyu, type', by simp [hmem], hne, ?_⟩
        intro q hq hqu
        rcases List.mem_append.mp hq with hq | hq
        · exact hmax q hq hqu
        · rw [List.mem_singleton.mp hq] at hqu
          exact absurd hqu.symm hu
      · rintro ⟨hyu, type', hmem, hne, hmax⟩
        refine ⟨hyu, type', ?_, hne, fun q hq => hmax q (by simp [hq])⟩
        rcases List.mem_append.mp hmem with hmem | hmem
        · exact hmem
        · obtain ⟨-, rfl⟩ := Prod.mk.inj (List.mem_singleton.mp hmem)
          exact absurd hyu.symm hu

variable {db : Database} {w : PostgresWatcher}

/-- The view holds the last version delivered of each object, unless it is a deletion. -/
theorem view_iff_last (h : w.Ordered) {uid : String} {y : Row} :
    w.view uid = some y ↔ y.uid = uid ∧ y.deleted = false ∧ w.delivered y ∧
      ∀ z, w.delivered z → z.uid = uid → z.rv ≤ y.rv := by
  unfold view
  rw [foldl_applyEvent_iff h.inOrder]
  constructor
  · rintro ⟨hu, type, hmem, hne, hmax⟩
    refine ⟨hu, ?_, delivered_iff.mpr ⟨type, hmem⟩, ?_⟩
    · cases hd : y.deleted with
      | false => rfl
      | true => exact absurd ((h.typed _ hmem).mpr hd) hne
    · intro z hz
      obtain ⟨t, ht⟩ := delivered_iff.mp hz
      exact hmax _ ht
  · rintro ⟨hu, hlive, hd, hmax⟩
    obtain ⟨type, hmem⟩ := delivered_iff.mp hd
    refine ⟨hu, type, hmem, ?_, fun q hq => hmax q.2 (delivered_iff.mpr ⟨q.1, hq⟩)⟩
    intro hdel
    have hyes := (h.typed _ hmem).mp hdel
    simp [hlive] at hyes

/-- The view of a stream that has caught up: the live matching objects, and stale versions of
objects that left the selector. -/
theorem view_of_caughtUp (hdb : db.WellFormed) (hh : w.History db) (h : w.Ordered)
    (hup : w.CaughtUp db) (uid : String) (y : Row) :
    w.view uid = some y ↔ y.uid = uid ∧
      ((y ∈ db.rows ∧ w.filter.wants y ∧ y.deleted = false) ∨ w.Stale db y) := by
  rw [view_iff_last h]
  constructor
  · rintro ⟨rfl, hlive, hd, hmax⟩
    refine ⟨rfl, ?_⟩
    by_cases hrow : ∃ x ∈ db.rows, x.uid = y.uid ∧ w.filter.wants x
    · obtain ⟨x, hx, hu, hwants⟩ := hrow
      have hle : x.rv ≤ y.rv := hmax x (hup x hx hwants) hu
      obtain rfl : y = x := hdb.eq_of_le hx (hh.delivered y hd).1 hu.symm hle
      exact .inl ⟨hx, hwants, hlive⟩
    · exact .inr ⟨hlive, hd, hmax, fun x hx hu hwants => hrow ⟨x, hx, hu, hwants⟩⟩
  · rintro ⟨rfl, ⟨hy, hwants, hlive⟩ | hstale⟩
    · refine ⟨rfl, hlive, hup y hy hwants, ?_⟩
      exact fun z hz hu => hdb.latest y hy z (hh.delivered z hz).1 hu
    · exact ⟨rfl, hstale.live, hstale.delivered, hstale.last⟩

end PostgresWatcher

namespace Cluster

/-- Watch the queries labelled `app=web`. -/
def webQueries : WatchFilter := ⟨"Query", "", [⟨"app", .equals, ["web"], ⟨"web", rfl⟩⟩], []⟩

def labelledQuery (rv : Nat) (app : String) : Row :=
  ⟨rv, "Query", "default", "a", "a", [("app", app)], none, true⟩

/-- A matching query is created and delivered. -/
def matchingRun : List Action :=
  openWatch webQueries "" ++
  [.database (.create "Query" "default" "a" "a" [("app", "web")] true), .database (.commit 1),
    .broadcaster 0 0 (.prime false), .broadcaster 0 0 .relistQuery, .broadcaster 0 0 .relistRow,
    .broadcaster 0 0 .relistDone, watcherStep .receive, watcherStep .forwardRow,
    watcherStep .recoverIfBehind]

/-- The query then loses the label, and the broadcaster relists. -/
def leavingRun : List Action :=
  matchingRun ++
  [.database (.update "Query" "default" "a" 1 [("app", "db")] true), .database (.commit 2),
    .broadcaster 0 0 .wake, .broadcaster 0 0 .relistQuery, .broadcaster 0 0 .relistRow,
    .broadcaster 0 0 .relistDone]

end Cluster
end Ark
