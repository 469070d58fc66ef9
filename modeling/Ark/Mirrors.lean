import Ark.FanOut

/-!
# Later databases and what replicas mirror of them

Along a run the log only grows, a row that is in the table later was in it already or was committed
since, and nothing a replica mirrors is ahead of the database.
-/

namespace Ark

namespace Database

/-- `db'` comes after `db` in a run whose transactions commit in time. -/
structure Later (db db' : Database) : Prop where
  log : ∀ x ∈ db.log, x ∈ db'.log
  seq : db.seq ≤ db'.seq
  rows : ∀ x ∈ db'.rows, x ∈ db.rows ∨ x ∉ db.log
  fresh : ∀ x ∈ db'.log, x ∈ db.log ∨ db.seq < x.rv + relistLookbackRVs

variable {db db' db'' : Database}

theorem Later.refl (db : Database) : db.Later db := ⟨fun _ h => h, le_rfl, fun _ => .inl, fun _ => .inl⟩

theorem Later.trans (h : db.Later db') (h' : db'.Later db'') : db.Later db'' where
  log x hx := h'.log x (h.log x hx)
  seq := h.seq.trans h'.seq
  rows x hx := by
    rcases h'.rows x hx with hx | hx
    · exact h.rows x hx
    · exact .inr fun hl => hx (h.log x hl)
  fresh x hx := by
    rcases h'.fresh x hx with hx | hlt
    · exact h.fresh x hx
    · exact .inr (h.seq.trans_lt hlt)

theorem later_of_step {a : Action} (hdb : db.WellFormed) (htimely : TimelyCommit db a)
    (h : db.step a = some db') : db.Later db' := by
  obtain ⟨hlog, hseq⟩ := step_mono h
  refine ⟨hlog, hseq, step_rows hdb h, ?_⟩
  rcases step_cases h with ⟨x, -, rfl⟩ | ⟨x, -, rfl, rfl⟩ | ⟨x, -, rfl⟩ | ⟨seq, clock, -, rfl⟩
  · exact fun _ => .inl
  · intro y hy
    rcases List.mem_append.mp hy with hy | hy
    · exact .inl hy
    · obtain rfl := List.mem_singleton.mp hy
      exact .inr htimely
  · exact fun _ => .inl
  · exact fun _ => .inl

theorem later_of_purge (db : Database) : db.Later db.purgeExpired.1 := by
  obtain ⟨hlog, hseq, hrows⟩ := db.purgeExpired_fixed
  exact ⟨fun x hx => hlog ▸ hx, hseq.ge, fun x hx => .inl (hrows x hx), fun x hx => .inl (hlog ▸ hx)⟩

theorem step_floor {a : Action} (h : db.step a = some db') :
    db'.watchPurgeFloor = db.watchPurgeFloor := by
  rcases step_cases h with ⟨x, -, rfl⟩ | ⟨x, -, -, rfl⟩ | ⟨x, -, rfl⟩ | ⟨seq, clock, -, rfl⟩ <;> rfl

/-- A purge raises the stored floor and returns it. -/
theorem purge_floor (db : Database) : db.watchPurgeFloor ≤ db.purgeExpired.1.watchPurgeFloor ∧
    ∀ f ∈ db.purgeExpired.2.toList, f = db.purgeExpired.1.watchPurgeFloor := by
  simp only [purgeExpired]
  split
  · exact ⟨le_max_left _ _, by simp⟩
  · exact ⟨le_rfl, by simp⟩

end Database

namespace PostgreSQLBackend

/-- Nothing the replica mirrors is ahead of the database. -/
structure Mirrors (db : Database) (p : PostgreSQLBackend) : Prop where
  cachedRV_le : p.cachedRV ≤ db.seq
  rvRead_le : ∀ rv, p.rvRead = some rv → rv ≤ db.seq
  cachedPurgeFloor_le : p.cachedPurgeFloor ≤ db.watchPurgeFloor
  floorsRead_le : ∀ f ∈ p.floorsRead, f ≤ db.watchPurgeFloor

variable {db db' : Database} {p p' : PostgreSQLBackend}

theorem Mirrors.mono (hseq : db.seq ≤ db'.seq) (hfloor : db.watchPurgeFloor ≤ db'.watchPurgeFloor)
    (h : p.Mirrors db) : p.Mirrors db' where
  cachedRV_le := h.cachedRV_le.trans hseq
  rvRead_le rv hrv := (h.rvRead_le rv hrv).trans hseq
  cachedPurgeFloor_le := h.cachedPurgeFloor_le.trans hfloor
  floorsRead_le f hf := (h.floorsRead_le f hf).trans hfloor

theorem mirrors_of_subscribe {bid wid : Nat} {w : PostgresWatcher} (h : p.Mirrors db)
    (hs : p.getOrCreateBroadcasterAndSubscribe bid wid w = some p') : p'.Mirrors db := by
  unfold getOrCreateBroadcasterAndSubscribe at hs
  split at hs
  next =>
    obtain ⟨-, hs⟩ := Option.ite_none_right_eq_some.mp hs
    obtain rfl := Option.some.inj hs
    exact ⟨h.cachedRV_le, h.rvRead_le, h.cachedPurgeFloor_le, h.floorsRead_le⟩
  next =>
    obtain ⟨-, hs⟩ := Option.ite_none_right_eq_some.mp hs
    obtain rfl := Option.some.inj hs
    exact ⟨h.cachedRV_le, h.rvRead_le, h.cachedPurgeFloor_le, h.floorsRead_le⟩

end PostgreSQLBackend

namespace Cluster

variable {c c' : Cluster} {a : Action}

theorem mirrors_put {r : Nat} {p : PostgreSQLBackend} (hp : p.Mirrors c.db)
    (h : ∀ i q, (i, q) ∈ c.replicas → q.Mirrors c.db) :
    ∀ i q, (i, q) ∈ (c.put r p).replicas → q.Mirrors c.db := by
  intro i q hq
  rcases Slots.mem_put hq with ⟨-, rfl⟩ | ⟨-, hq⟩
  · exact hp
  · exact h i q hq

theorem mirrors_step (hdb : c.db.WellFormed) (h : ∀ i p, (i, p) ∈ c.replicas → p.Mirrors c.db)
    (hs : c.step a = some c') : ∀ i p, (i, p) ∈ c'.replicas → p.Mirrors c'.db := by
  cases a with
  | database d =>
    obtain ⟨db, hds, rfl⟩ := Option.map_eq_some_iff.mp hs
    exact fun i p hp => (h i p hp).mono (Database.step_mono hds).2 (Database.step_floor hds).ge
  | new r =>
    obtain ⟨-, hs⟩ := Option.ite_none_right_eq_some.mp hs
    obtain rfl := Option.some.inj hs
    intro i p hp
    rcases List.mem_cons.mp hp with hp | hp
    · obtain ⟨-, rfl⟩ := Prod.mk.inj hp
      constructor <;> simp [PostgreSQLBackend.new]
    · exact h i p hp
  | close r =>
    obtain rfl := Option.some.inj hs
    exact fun i p hp => h i p (List.mem_of_mem_filter hp)
  | readMaxRV r =>
    obtain ⟨p, hp, rfl⟩ := Option.map_eq_some_iff.mp hs
    have hm := h r p (Slots.mem_of_get? hp)
    refine mirrors_put { hm with rvRead_le := ?_ } h
    intro rv hrv
    obtain rfl := Option.some.inj hrv
    exact KindBroadcaster.maxResourceVersion_le hdb
  | storeCachedRV r =>
    obtain ⟨p, hp, hs⟩ := Option.bind_eq_some_iff.mp hs
    obtain ⟨rv, hrv, hs⟩ := Option.bind_eq_some_iff.mp hs
    obtain rfl := Option.some.inj hs
    have hm := h r p (Slots.mem_of_get? hp)
    exact mirrors_put { hm with cachedRV_le := hm.rvRead_le rv hrv, rvRead_le := by simp } h
  | readPurgeFloor r =>
    obtain ⟨p, hp, hs⟩ := Option.bind_eq_some_iff.mp hs
    obtain ⟨-, hs⟩ := Option.ite_none_right_eq_some.mp hs
    obtain rfl := Option.some.inj hs
    have hm := h r p (Slots.mem_of_get? hp)
    refine mirrors_put { hm with floorsRead_le := ?_ } h
    intro f hf
    rcases List.mem_cons.mp hf with rfl | hf
    · exact le_rfl
    · exact hm.floorsRead_le f hf
  | purgeExpired r =>
    obtain ⟨p, hp, hs⟩ := Option.bind_eq_some_iff.mp hs
    obtain rfl := Option.some.inj hs
    obtain ⟨-, hseq, -⟩ := c.db.purgeExpired_fixed
    obtain ⟨hfloor, hret⟩ := c.db.purge_floor
    have hall : ∀ i q, (i, q) ∈ c.replicas → q.Mirrors c.db.purgeExpired.1 :=
      fun i q hq => (h i q hq).mono hseq.ge hfloor
    have hm := hall r p (Slots.mem_of_get? hp)
    refine mirrors_put (c := { c with db := c.db.purgeExpired.1 })
      { hm with floorsRead_le := ?_ } hall
    intro f hf
    rcases List.mem_append.mp hf with hf | hf
    · exact (hret f hf).le
    · exact hm.floorsRead_le f hf
  | storePurgeFloor r floor =>
    obtain ⟨p, hp, hs⟩ := Option.bind_eq_some_iff.mp hs
    obtain ⟨hmem, hs⟩ := Option.ite_none_right_eq_some.mp hs
    obtain rfl := Option.some.inj hs
    have hm := h r p (Slots.mem_of_get? hp)
    have hle := hm.floorsRead_le floor hmem
    refine mirrors_put { hm with cachedPurgeFloor_le := ?_, floorsRead_le := ?_ } h
    · exact max_le hm.cachedPurgeFloor_le hle
    · exact fun f hf => hm.floorsRead_le f (List.mem_of_mem_erase hf)
  | watch r bid wid filter resourceVersion =>
    obtain ⟨p, hp, hs⟩ := Option.bind_eq_some_iff.mp hs
    obtain ⟨startRV, -, hs⟩ := Option.bind_eq_some_iff.mp hs
    obtain ⟨p', hsub, hs⟩ := Option.bind_eq_some_iff.mp hs
    obtain rfl := Option.some.inj hs
    exact mirrors_put (PostgreSQLBackend.mirrors_of_subscribe (h r p (Slots.mem_of_get? hp)) hsub) h
  | broadcaster r bid a =>
    obtain ⟨p, hp, hs⟩ := Option.bind_eq_some_iff.mp hs
    obtain ⟨b, -, hs⟩ := Option.bind_eq_some_iff.mp hs
    obtain ⟨b', -, hs⟩ := Option.bind_eq_some_iff.mp hs
    obtain rfl := Option.some.inj hs
    have hm := h r p (Slots.mem_of_get? hp)
    exact mirrors_put ⟨hm.cachedRV_le, hm.rvRead_le, hm.cachedPurgeFloor_le, hm.floorsRead_le⟩ h

theorem mirrors_of_reachable {ok : Cluster → Action → Prop} (h : machine.Reachable ok c) :
    ∀ i p, (i, p) ∈ c.replicas → p.Mirrors c.db := by
  refine h.invariant_of (J := fun c => c.db.WellFormed)
    (I := fun c => ∀ i p, (i, p) ∈ c.replicas → p.Mirrors c.db)
    (fun _ => wellFormed_of_reachable) ?_ ?_
  · rintro _ rfl i p hp
    cases hp
  · exact fun _ _ _ hdb hI _ hs => mirrors_step hdb hI hs

/-- A row that was committed before a run and is in the table after it was there all the time. -/
theorem rows_kept {ok : Cluster → Action → Prop} (hdb : c.db.WellFormed)
    (h : machine.Run ok c c') :
    (∀ x ∈ c.db.log, x ∈ c'.db.log) ∧ ∀ x ∈ c'.db.rows, x ∈ c.db.log → x ∈ c.db.rows := by
  suffices hall : c'.db.WellFormed ∧ (∀ x ∈ c.db.log, x ∈ c'.db.log) ∧
      ∀ x ∈ c'.db.rows, x ∈ c.db.log → x ∈ c.db.rows from hall.2
  induction h with
  | refl => exact ⟨hdb, fun _ hx => hx, fun _ hx _ => hx⟩
  | @tail m m' a _ _ hs ih =>
    obtain ⟨hm, hlog, hrows⟩ := ih
    have hstep : (∀ x ∈ m.db.log, x ∈ m'.db.log) ∧
        ∀ x ∈ m'.db.rows, x ∈ m.db.rows ∨ x ∉ m.db.log := by
      rcases step_db hs with ⟨d, -, hd⟩ | ⟨-, he⟩ | he
      · exact ⟨(Database.step_mono hd).1, Database.step_rows hm hd⟩
      · obtain ⟨hl, -, hr⟩ := m.db.purgeExpired_fixed
        rw [he, hl]
        exact ⟨fun _ hx => hx, fun x hx => .inl (hr x hx)⟩
      · rw [he]
        exact ⟨fun _ hx => hx, fun _ => .inl⟩
    refine ⟨step_wellFormed hm hs, fun x hx => hstep.1 x (hlog x hx), ?_⟩
    intro x hx hl
    rcases hstep.2 x hx with hx | hnot
    · exact hrows x hx hl
    · exact absurd (hlog x hl) hnot

theorem later_of_run {ok : Cluster → Action → Prop} (hdb : c.db.WellFormed)
    (hok : ∀ c d, ok c (.database d) → TimelyCommit c.db d) (h : machine.Run ok c c') :
    c.db.Later c'.db := by
  suffices hboth : c'.db.WellFormed ∧ c.db.Later c'.db from hboth.2
  induction h with
  | refl => exact ⟨hdb, .refl _⟩
  | tail _ ha hs ih =>
    refine ⟨step_wellFormed ih.1 hs, ih.2.trans ?_⟩
    rcases step_db hs with ⟨d, rfl, hds⟩ | ⟨-, he⟩ | he
    · exact Database.later_of_step ih.1 (hok _ d ha) hds
    · exact he ▸ Database.later_of_purge _
    · exact he ▸ .refl _

end Cluster
end Ark
