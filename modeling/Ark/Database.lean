import Mathlib.Data.List.Sort
import Ark.Selector

/-!
# The shared `resources` table

Every write takes the next value of the `resource_version` sequence when its statement executes
and becomes visible when its transaction commits, so versions can become visible out of order. A
row keeps only the latest committed version of an object; a deletion leaves a tombstone until
`purgeExpired` removes it and raises the persisted purge floor.
-/

namespace Ark

/-- The columns of `resources` that watches read. `decodable` says whether the converter decodes
the reconstructed object. -/
structure Row where
  rv : Nat
  kind : String
  ns : String
  name : String
  uid : String
  labels : Labels
  deletedAt : Option Nat
  decodable : Bool
  deriving DecidableEq, Repr

def Row.deleted (x : Row) : Bool := x.deletedAt.isSome

/-- `x` and `y` name the same object while they are live. -/
def Row.sameKey (x y : Row) : Bool := x.kind == y.kind && x.ns == y.ns && x.name == y.name

/-- The database: `log` lists every committed version in commit order and `purged` the tombstones
that were hard-deleted; no statement reads either. -/
structure Database where
  seq : Nat
  clock : Nat
  rows : List Row
  inflight : List Row
  watchPurgeFloor : Nat
  log : List Row
  purged : List Row
  deriving DecidableEq, Repr

namespace Database

def empty : Database := ⟨0, 0, [], [], 0, [], []⟩

/-- `SELECT … WHERE p ORDER BY resource_version ASC`. -/
def select (db : Database) (p : Row → Bool) : List Row :=
  (db.rows.filter p).insertionSort (·.rv ≤ ·.rv)

def maxRV (rows : List Row) : Nat := (rows.map (·.rv)).foldr max 0

/-- `getMaxResourceVersion`; the maximum of no rows is NULL and read as 0. -/
def maxResourceVersion (db : Database) : Nat := maxRV db.rows

/-- The row is locked by a write whose transaction is still open. -/
def locked (db : Database) (uid : String) : Bool := db.inflight.any (·.uid == uid)

/-- A statement wrote `x` under the next sequence value. -/
def write (db : Database) (x : Row) : Database :=
  { db with seq := db.seq + 1, inflight := { x with rv := db.seq + 1 } :: db.inflight }

inductive Action
  | create (kind ns name uid : String) (labels : Labels) (decodable : Bool)
  | update (kind ns name : String) (rv : Nat) (labels : Labels) (decodable : Bool)
  | delete (kind ns name : String)
  | burn
  | commit (rv : Nat)
  | rollback (rv : Nat)
  | tick
  deriving DecidableEq, Repr

/-- `idx_resources_unique_active`: no live row, nor an open insert, has the key. -/
def keyFree (db : Database) (x : Row) : Bool :=
  db.rows.all (fun y => y.deleted || !x.sameKey y) && db.inflight.all (fun y => !x.sameKey y)

/-- Uids are generated fresh for each created object. -/
def uidFresh (db : Database) (uid : String) : Bool :=
  db.log.all (·.uid != uid) && db.inflight.all (·.uid != uid)

def liveRow (db : Database) (kind ns name : String) : Option Row :=
  db.rows.find? fun x => x.kind == kind && x.ns == ns && x.name == name && !x.deleted

def commitRow (db : Database) (x : Row) : Database :=
  { db with
    rows := x :: db.rows.filter (·.uid != x.uid)
    inflight := db.inflight.erase x
    log := db.log ++ [x] }

/-- One statement, commit or clock tick. `burn` is a statement that failed after `nextval`. -/
def step (db : Database) : Action → Option Database
  | .create kind ns name uid labels decodable =>
    let x : Row := ⟨0, kind, ns, name, uid, labels, none, decodable⟩
    if db.keyFree x && db.uidFresh uid then some (db.write x) else none
  | .update kind ns name rv labels decodable => do
    let x ← db.liveRow kind ns name
    if x.rv == rv && !db.locked x.uid then
      some (db.write { x with labels, decodable })
    else none
  | .delete kind ns name => do
    let x ← db.liveRow kind ns name
    if !db.locked x.uid then some (db.write { x with deletedAt := some db.clock }) else none
  | .burn => some { db with seq := db.seq + 1 }
  | .commit rv => (db.inflight.find? (·.rv == rv)).map db.commitRow
  | .rollback rv =>
    (db.inflight.find? (·.rv == rv)).map fun x => { db with inflight := db.inflight.erase x }
  | .tick => some { db with clock := db.clock + 1 }

/-- The retention window of tombstones, five minutes. -/
def retention : Nat := 300

def expired (db : Database) (x : Row) : Bool :=
  x.deletedAt.any (fun t => decide (t + retention < db.clock))

/-- The statement of `purgeExpired`, with the floor it returns; `none` is `ErrNoRows`. -/
def purgeExpired (db : Database) : Database × Option Nat :=
  let gone := db.rows.filter db.expired
  let rv := maxRV gone
  if 0 < rv then
    let floor := max db.watchPurgeFloor rv
    ({ db with
      rows := db.rows.filter (!db.expired ·)
      watchPurgeFloor := floor
      purged := db.purged ++ gone }, some floor)
  else (db, none)

/-- The invariant of the table: versions are unique and issued in sequence, the row of an object
is its latest committed version, and nothing follows a tombstone. -/
structure WellFormed (db : Database) : Prop where
  rows_log : ∀ x ∈ db.rows, x ∈ db.log
  log_pos : ∀ x ∈ db.log, 0 < x.rv
  log_le : ∀ x ∈ db.log, x.rv ≤ db.seq
  inflight_pos : ∀ x ∈ db.inflight, 0 < x.rv
  inflight_le : ∀ x ∈ db.inflight, x.rv ≤ db.seq
  rv_inj : ∀ x ∈ db.log ++ db.inflight, ∀ y ∈ db.log ++ db.inflight, x.rv = y.rv → x = y
  nodup : (db.log ++ db.inflight).Nodup
  latest : ∀ x ∈ db.rows, ∀ y ∈ db.log, y.uid = x.uid → y.rv ≤ x.rv
  newer : ∀ x ∈ db.inflight, ∀ y ∈ db.log, y.uid = x.uid → y.rv < x.rv
  one_writer : ∀ x ∈ db.inflight, ∀ y ∈ db.inflight, x.uid = y.uid → x = y
  tombstone_last : ∀ x ∈ db.log, x.deleted = true →
    ∀ y ∈ db.log ++ db.inflight, y.uid = x.uid → y.rv ≤ x.rv
  purged_le : ∀ x ∈ db.purged, x.rv ≤ db.watchPurgeFloor
  floor_purged : 0 < db.watchPurgeFloor →
    ∃ x ∈ db.purged, x.rv = db.watchPurgeFloor ∧ x.deleted = true

/-! ### What a step does -/

/-- The object `uid` can be written: no open transaction holds it, and it is either new or live. -/
structure Writable (db : Database) (uid : String) : Prop where
  unlocked : ∀ y ∈ db.inflight, y.uid ≠ uid
  new_or_live : (∀ y ∈ db.log, y.uid ≠ uid) ∨ ∃ r ∈ db.rows, r.uid = uid ∧ r.deleted = false

theorem liveRow_some {db : Database} {kind ns name : String} {x : Row}
    (h : db.liveRow kind ns name = some x) : x ∈ db.rows ∧ x.deleted = false := by
  refine ⟨List.mem_of_find?_eq_some h, ?_⟩
  have hp := List.find?_some h
  simp only [Bool.and_eq_true, Bool.not_eq_true'] at hp
  exact hp.2

theorem writable_of_live {db : Database} {x : Row} (hx : x ∈ db.rows) (hd : x.deleted = false)
    (hl : db.locked x.uid = false) : db.Writable x.uid where
  unlocked := by simpa [locked] using hl
  new_or_live := .inr ⟨x, hx, rfl, hd⟩

/-- The four kinds of step: a statement writes an object, a transaction commits, a transaction
rolls back, or only the sequence and the clock move. -/
theorem step_cases {db db' : Database} {a : Action} (h : db.step a = some db') :
    (∃ x, db.Writable x.uid ∧ db' = db.write x) ∨
    (∃ x ∈ db.inflight, a = .commit x.rv ∧ db' = db.commitRow x) ∨
    (∃ x ∈ db.inflight, db' = { db with inflight := db.inflight.erase x }) ∨
    (∃ seq clock, db.seq ≤ seq ∧ db' = { db with seq, clock }) := by
  cases a with
  | create kind ns name uid labels decodable =>
    simp only [step, uidFresh, Option.ite_none_right_eq_some, Bool.and_eq_true, List.all_eq_true,
      bne_iff_ne, Option.some.injEq] at h
    obtain ⟨⟨-, hlog, hin⟩, rfl⟩ := h
    exact .inl ⟨_, ⟨hin, .inl hlog⟩, rfl⟩
  | update kind ns name rv labels decodable =>
    simp only [step, Option.bind_eq_bind, Option.bind_eq_some_iff, Option.ite_none_right_eq_some,
      Bool.and_eq_true, Bool.not_eq_true', Option.some.injEq] at h
    obtain ⟨x, hx, ⟨-, hl⟩, rfl⟩ := h
    obtain ⟨hmem, hd⟩ := liveRow_some hx
    have hw : db.Writable x.uid := writable_of_live hmem hd hl
    exact .inl ⟨{ x with labels, decodable }, hw, rfl⟩
  | delete kind ns name =>
    simp only [step, Option.bind_eq_bind, Option.bind_eq_some_iff, Option.ite_none_right_eq_some,
      Bool.not_eq_true', Option.some.injEq] at h
    obtain ⟨x, hx, hl, rfl⟩ := h
    obtain ⟨hmem, hd⟩ := liveRow_some hx
    have hw : db.Writable x.uid := writable_of_live hmem hd hl
    exact .inl ⟨{ x with deletedAt := some db.clock }, hw, rfl⟩
  | burn =>
    obtain rfl := Option.some.inj h
    exact .inr (.inr (.inr ⟨db.seq + 1, db.clock, by omega, rfl⟩))
  | commit rv =>
    simp only [step, Option.map_eq_some_iff] at h
    obtain ⟨x, hx, rfl⟩ := h
    have hrv := List.find?_some hx
    simp only [beq_iff_eq] at hrv
    exact .inr (.inl ⟨x, List.mem_of_find?_eq_some hx, by rw [hrv], rfl⟩)
  | rollback rv =>
    simp only [step, Option.map_eq_some_iff] at h
    obtain ⟨x, hx, rfl⟩ := h
    exact .inr (.inr (.inl ⟨x, List.mem_of_find?_eq_some hx, rfl⟩))
  | tick =>
    obtain rfl := Option.some.inj h
    exact .inr (.inr (.inr ⟨db.seq, db.clock + 1, le_rfl, rfl⟩))

theorem mem_select {db : Database} {p : Row → Bool} {x : Row} :
    x ∈ db.select p ↔ x ∈ db.rows ∧ p x = true := by
  simp [select, List.mem_insertionSort]

theorem select_sorted (db : Database) (p : Row → Bool) :
    (db.select p).Pairwise (·.rv ≤ ·.rv) := by
  have := List.pairwise_insertionSort (fun x y : Row => x.rv ≤ y.rv) (db.rows.filter p)
  exact this

theorem le_maxRV {rows : List Row} {x : Row} (h : x ∈ rows) : x.rv ≤ maxRV rows := by
  induction rows with
  | nil => cases h
  | cons y rows ih =>
    rcases List.mem_cons.mp h with rfl | h
    · exact le_max_left _ _
    · exact (ih h).trans (le_max_right _ _)

theorem maxRV_mem {rows : List Row} (h : 0 < maxRV rows) : ∃ x ∈ rows, x.rv = maxRV rows := by
  induction rows with
  | nil => simp [maxRV] at h
  | cons y rows ih =>
    have hmax : maxRV (y :: rows) = max y.rv (maxRV rows) := rfl
    rcases le_total (maxRV rows) y.rv with hle | hle
    · exact ⟨y, by simp, by omega⟩
    · obtain ⟨x, hx, hrv⟩ := ih (by omega)
      exact ⟨x, by simp [hx], by omega⟩

/-! ### The invariant -/

namespace WellFormed

variable {db : Database} (hdb : db.WellFormed)
include hdb

theorem log_inj {x y : Row} (hx : x ∈ db.log) (hy : y ∈ db.log) (h : x.rv = y.rv) : x = y :=
  hdb.rv_inj x (by simp [hx]) y (by simp [hy]) h

/-- The log holds no version of the row's object above the row itself. -/
theorem eq_of_le {x y : Row} (hx : x ∈ db.rows) (hy : y ∈ db.log) (hu : y.uid = x.uid)
    (h : x.rv ≤ y.rv) : y = x :=
  hdb.log_inj hy (hdb.rows_log x hx) (le_antisymm (hdb.latest x hx y hy hu) h)

theorem rows_inj {x y : Row} (hx : x ∈ db.rows) (hy : y ∈ db.rows) (hu : y.uid = x.uid) : y = x :=
  hdb.eq_of_le hx (hdb.rows_log y hy) hu (hdb.latest y hy x (hdb.rows_log x hx) hu.symm)

theorem rows_pos {x : Row} (hx : x ∈ db.rows) : 0 < x.rv := hdb.log_pos x (hdb.rows_log x hx)

theorem rows_le {x : Row} (hx : x ∈ db.rows) : x.rv ≤ db.seq := hdb.log_le x (hdb.rows_log x hx)

/-- An in-flight version is not in the log yet. -/
theorem inflight_not_log {x : Row} (hx : x ∈ db.inflight) : x ∉ db.log := by
  intro hl
  exact (List.disjoint_of_nodup_append hdb.nodup) hl hx

theorem write {x : Row} (hw : db.Writable x.uid) : (db.write x).WellFormed := by
  have hlt : ∀ y ∈ db.log ++ db.inflight, y.rv < db.seq + 1 := by
    intro y hy
    rcases List.mem_append.mp hy with hy | hy
    · have := hdb.log_le y hy
      omega
    · have := hdb.inflight_le y hy
      omega
  have hmem : ∀ y, y ∈ db.log ++ (db.write x).inflight →
      y = { x with rv := db.seq + 1 } ∨ y ∈ db.log ++ db.inflight := by
    intro y hy
    simp only [Database.write, List.mem_append, List.mem_cons] at hy ⊢
    tauto
  have hold : ∀ y ∈ db.log, y.uid = x.uid → y.deleted = false := by
    intro y hy hu
    rcases hw.new_or_live with hnew | ⟨r, hr, hru, hrd⟩
    · exact absurd hu (hnew y hy)
    · cases hd : y.deleted with
      | false => rfl
      | true =>
        have hrl := hdb.rows_log r hr
        have hle := hdb.tombstone_last y hy hd r (by simp [hrl]) (hru.trans hu.symm)
        have hry : y = r := hdb.eq_of_le hr hy (hu.trans hru.symm) hle
        rw [← hry, hd] at hrd
        cases hrd
  refine
    { rows_log := hdb.rows_log
      log_pos := hdb.log_pos
      log_le := fun y hy => Nat.le_succ_of_le (hdb.log_le y hy)
      inflight_pos := ?_
      inflight_le := ?_
      rv_inj := ?_
      nodup := ?_
      latest := hdb.latest
      newer := ?_
      one_writer := ?_
      tombstone_last := ?_
      purged_le := hdb.purged_le
      floor_purged := hdb.floor_purged }
  · intro y hy
    rcases List.mem_cons.mp hy with rfl | hy
    · exact Nat.succ_pos _
    · exact hdb.inflight_pos y hy
  · intro y hy
    rcases List.mem_cons.mp hy with rfl | hy
    · exact le_rfl
    · exact Nat.le_succ_of_le (hdb.inflight_le y hy)
  · intro y hy z hz h
    rcases hmem y hy with rfl | hy
    · rcases hmem z hz with rfl | hz
      · rfl
      · have := hlt z hz
        simp only at h
        omega
    · rcases hmem z hz with rfl | hz
      · have := hlt y hy
        simp only at h
        omega
      · exact hdb.rv_inj y hy z hz h
  · have hnot : ({ x with rv := db.seq + 1 } : Row) ∉ db.log ++ db.inflight := by
      intro h
      have := hlt _ h
      simp at this
    have hperm : (db.log ++ (db.write x).inflight).Perm
        ({ x with rv := db.seq + 1 } :: (db.log ++ db.inflight)) := List.perm_middle
    exact hperm.nodup_iff.mpr (List.nodup_cons.mpr ⟨hnot, hdb.nodup⟩)
  · intro y hy z hz hu
    rcases List.mem_cons.mp hy with rfl | hy
    · exact hlt z (List.mem_append_left _ hz)
    · exact hdb.newer y hy z hz hu
  · intro y hy z hz hu
    rcases List.mem_cons.mp hy with rfl | hy
    · rcases List.mem_cons.mp hz with rfl | hz
      · rfl
      · exact absurd hu.symm (hw.unlocked z hz)
    · rcases List.mem_cons.mp hz with rfl | hz
      · exact absurd hu (hw.unlocked y hy)
      · exact hdb.one_writer y hy z hz hu
  · intro y hy hd z hz hu
    rcases hmem z hz with rfl | hz
    · rw [hold y hy hu.symm] at hd
      cases hd
    · exact hdb.tombstone_last y hy hd z hz hu

theorem commitRow {x : Row} (hx : x ∈ db.inflight) : (db.commitRow x).WellFormed := by
  have hperm : ((db.commitRow x).log ++ (db.commitRow x).inflight).Perm
      (db.log ++ db.inflight) := by
    have h₁ : (db.log ++ [x] ++ db.inflight.erase x).Perm
        (db.log ++ (x :: db.inflight.erase x)) := by simp
    exact h₁.trans ((List.perm_cons_erase hx).symm.append_left db.log)
  have hlog : ∀ y, y ∈ (db.commitRow x).log ↔ y ∈ db.log ∨ y = x := by
    intro y
    simp [Database.commitRow]
  have hrows : ∀ y, y ∈ (db.commitRow x).rows ↔ y = x ∨ (y ∈ db.rows ∧ y.uid ≠ x.uid) := by
    intro y
    simp [Database.commitRow]
  have hin : ∀ y, y ∈ (db.commitRow x).inflight → y ∈ db.inflight ∧ y ≠ x := by
    intro y hy
    exact ((hdb.nodup.of_append_right).mem_erase_iff.mp hy).symm
  refine
    { rows_log := ?_
      log_pos := ?_
      log_le := ?_
      inflight_pos := fun y hy => hdb.inflight_pos y (hin y hy).1
      inflight_le := fun y hy => hdb.inflight_le y (hin y hy).1
      rv_inj := fun y hy z hz => hdb.rv_inj y (hperm.mem_iff.mp hy) z (hperm.mem_iff.mp hz)
      nodup := hperm.nodup_iff.mpr hdb.nodup
      latest := ?_
      newer := ?_
      one_writer := fun y hy z hz => hdb.one_writer y (hin y hy).1 z (hin z hz).1
      tombstone_last := ?_
      purged_le := hdb.purged_le
      floor_purged := hdb.floor_purged }
  · intro y hy
    rcases (hrows y).mp hy with rfl | ⟨hy, -⟩
    · exact (hlog y).mpr (.inr rfl)
    · exact (hlog y).mpr (.inl (hdb.rows_log y hy))
  · intro y hy
    rcases (hlog y).mp hy with hy | rfl
    · exact hdb.log_pos y hy
    · exact hdb.inflight_pos y hx
  · intro y hy
    rcases (hlog y).mp hy with hy | rfl
    · exact hdb.log_le y hy
    · exact hdb.inflight_le y hx
  · intro y hy z hz hu
    rcases (hrows y).mp hy with rfl | ⟨hy, hne⟩
    · rcases (hlog z).mp hz with hz | rfl
      · exact (hdb.newer y hx z hz hu).le
      · exact le_rfl
    · rcases (hlog z).mp hz with hz | rfl
      · exact hdb.latest y hy z hz hu
      · exact absurd hu.symm hne
  · intro y hy z hz hu
    obtain ⟨hy', hne⟩ := hin y hy
    rcases (hlog z).mp hz with hz | rfl
    · exact hdb.newer y hy' z hz hu
    · exact absurd (hdb.one_writer y hy' z hx hu.symm) hne
  · intro y hy hd z hz hu
    rcases (hlog y).mp hy with hy | rfl
    · exact hdb.tombstone_last y hy hd z (hperm.mem_iff.mp hz) hu
    · rcases List.mem_append.mp (hperm.mem_iff.mp hz) with hz | hz
      · exact (hdb.newer y hx z hz hu).le
      · rw [hdb.one_writer z hz y hx hu]

theorem rollback (x : Row) : ({ db with inflight := db.inflight.erase x }).WellFormed := by
  have hin : ∀ y, y ∈ db.inflight.erase x → y ∈ db.inflight := fun y => List.mem_of_mem_erase
  have happ : ∀ y, y ∈ db.log ++ db.inflight.erase x → y ∈ db.log ++ db.inflight := by
    intro y hy
    rcases List.mem_append.mp hy with hy | hy
    · simp [hy]
    · simp [hin y hy]
  have hsub : (db.log ++ db.inflight.erase x).Sublist (db.log ++ db.inflight) :=
    (List.erase_sublist).append_left _
  exact
    { rows_log := hdb.rows_log
      log_pos := hdb.log_pos
      log_le := hdb.log_le
      inflight_pos := fun y hy => hdb.inflight_pos y (hin y hy)
      inflight_le := fun y hy => hdb.inflight_le y (hin y hy)
      rv_inj := fun y hy z hz => hdb.rv_inj y (happ y hy) z (happ z hz)
      nodup := hsub.nodup hdb.nodup
      latest := hdb.latest
      newer := fun y hy => hdb.newer y (hin y hy)
      one_writer := fun y hy z hz => hdb.one_writer y (hin y hy) z (hin z hz)
      tombstone_last := fun y hy hd z hz => hdb.tombstone_last y hy hd z (happ z hz)
      purged_le := hdb.purged_le
      floor_purged := hdb.floor_purged }

theorem advance {seq : Nat} (clock : Nat) (h : db.seq ≤ seq) :
    ({ db with seq, clock }).WellFormed :=
  { hdb with
    log_le := fun x hx => (hdb.log_le x hx).trans h
    inflight_le := fun x hx => (hdb.inflight_le x hx).trans h }

theorem step {db' : Database} {a : Action} (h : db.step a = some db') : db'.WellFormed := by
  rcases step_cases h with ⟨x, hw, rfl⟩ | ⟨x, hx, -, rfl⟩ | ⟨x, -, rfl⟩ | ⟨seq, clock, hle, rfl⟩
  · exact hdb.write hw
  · exact hdb.commitRow hx
  · exact hdb.rollback x
  · exact hdb.advance clock hle

theorem purgeExpired : db.purgeExpired.1.WellFormed := by
  simp only [Database.purgeExpired]
  split
  next hpos =>
    have hgone : ∀ x ∈ db.rows.filter db.expired, x ∈ db.rows ∧ x.deleted = true := by
      intro x hx
      obtain ⟨hmem, he⟩ := List.mem_filter.mp hx
      refine ⟨hmem, ?_⟩
      cases hd : x.deletedAt with
      | none => simp [expired, hd] at he
      | some t => simp [Row.deleted, hd]
    refine
      { hdb with
        rows_log := fun x hx => hdb.rows_log x (List.mem_of_mem_filter hx)
        latest := fun x hx => hdb.latest x (List.mem_of_mem_filter hx)
        purged_le := ?_
        floor_purged := ?_ }
    · intro x hx
      rcases List.mem_append.mp hx with hx | hx
      · exact (hdb.purged_le x hx).trans (le_max_left _ _)
      · exact (le_maxRV hx).trans (le_max_right _ _)
    · intro _
      rcases le_total (maxRV (db.rows.filter db.expired)) db.watchPurgeFloor with hle | hle
      · obtain ⟨x, hx, hrv, hd⟩ := hdb.floor_purged (lt_of_lt_of_le hpos hle)
        exact ⟨x, by simp [hx], by simp only [hrv]; omega, hd⟩
      · obtain ⟨x, hx, hrv⟩ := maxRV_mem hpos
        exact ⟨x, List.mem_append_right _ hx, by simp only [hrv]; omega, (hgone x hx).2⟩
  next => exact hdb

end WellFormed

theorem empty_wellFormed : empty.WellFormed := by
  constructor <;> simp [empty]

end Database
end Ark
