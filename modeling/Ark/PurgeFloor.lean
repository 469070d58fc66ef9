import Ark.Mirrors

/-!
# Resuming above the purge floor

The stored purge floor is the highest version ever hard-deleted. A replica decides against its own
mirror of it, which starts at 0 and trails the stored one, so a resume point between the two is
accepted although a tombstone above it is gone.
-/

namespace Ark

open PostgreSQLBackend (parseResourceVersion)

namespace Database

/-- A tombstone above `rv` was hard-deleted exactly when `rv` lies below the stored floor. -/
theorem WellFormed.purged_above_iff {db : Database} (hdb : db.WellFormed) (rv : Nat) :
    (∃ x ∈ db.purged, rv < x.rv) ↔ rv < db.watchPurgeFloor := by
  constructor
  · rintro ⟨x, hx, hlt⟩
    exact hlt.trans_le (hdb.purged_le x hx)
  · intro hlt
    obtain ⟨x, hx, hrv, -⟩ := hdb.floor_purged (by omega)
    exact ⟨x, hx, by omega⟩

end Database

namespace PostgreSQLBackend

variable {p : PostgreSQLBackend} {s : String} {startRV : Nat}

theorem acceptWatch_eq (hs : parseResourceVersion s = .ok startRV) (hpos : 0 < startRV) :
    p.acceptWatch s = if startRV < p.cachedPurgeFloor then
      .error (.resourceExpired startRV p.cachedPurgeFloor) else .ok startRV := by
  unfold acceptWatch checkResourceVersionNotExpired
  rw [hs]
  by_cases hlt : startRV < p.cachedPurgeFloor
  · simp [hpos, hlt, bind, Except.bind]
  · simp [hlt, bind, Except.bind, pure, Except.pure]

/-- What a resume owes the client: it is accepted and no tombstone above the resume point was
hard-deleted, or one was and the request is rejected as expired. -/
def ResumeSound (db : Database) (p : PostgreSQLBackend) (s : String) (startRV : Nat) : Prop :=
  (p.acceptWatch s = .ok startRV ∧ ∀ x ∈ db.purged, x.rv ≤ startRV) ∨
  ((∃ floor, p.acceptWatch s = .error (.resourceExpired startRV floor)) ∧
    ∃ x ∈ db.purged, startRV < x.rv)

end PostgreSQLBackend

namespace Cluster

/-- On every replica of every reachable cluster a resume is sound exactly when its resume point does
not lie between the replica's mirror and the stored floor. -/
theorem resume_sound_iff {c : Cluster} (h : machine.Reachable Machine.always c) {r : Nat}
    {p : PostgreSQLBackend} (hp : c.replicas.get? r = some p) {s : String} {startRV : Nat}
    (hs : parseResourceVersion s = .ok startRV) (hpos : 0 < startRV) :
    p.ResumeSound c.db s startRV ↔
      ¬ (p.cachedPurgeFloor ≤ startRV ∧ startRV < c.db.watchPurgeFloor) := by
  have hdb := wellFormed_of_reachable h
  have hmirror := (mirrors_of_reachable h r p (Slots.mem_of_get? hp)).cachedPurgeFloor_le
  have hgone := hdb.purged_above_iff startRV
  have hkept : (∀ x ∈ c.db.purged, x.rv ≤ startRV) ↔ ¬ startRV < c.db.watchPurgeFloor := by
    rw [← hgone]
    simp only [not_exists, not_and, Nat.not_lt]
  unfold PostgreSQLBackend.ResumeSound
  rw [PostgreSQLBackend.acceptWatch_eq hs hpos, hkept, hgone]
  by_cases hlt : startRV < p.cachedPurgeFloor
  · simp only [hlt, if_true, reduceCtorEq, false_and, false_or]
    constructor
    · rintro - ⟨hle, -⟩
      omega
    · exact fun _ => ⟨⟨_, rfl⟩, by omega⟩
  · simp only [hlt, if_false, reduceCtorEq, exists_false, false_and, or_false, true_and]
    constructor
    · rintro hno ⟨-, hbelow⟩
      exact hno hbelow
    · exact fun hno hbelow => hno ⟨by omega, hbelow⟩

/-- A query is created and deleted, and replica 0 purges its tombstone five minutes later. -/
def purgeRun : List Action :=
  [.new 0, .new 1] ++ createQuery 1 "a" ++
  [.database (.delete "Query" "default" "a"), .database (.commit 2)] ++
  List.replicate 301 (.database .tick) ++ [.purgeExpired 0, .storePurgeFloor 0 2]

set_option maxRecDepth 10000 in
theorem resume_sound_on_purging_replica :
    ∃ c, machine.Reachable Machine.always c ∧ ∃ p, c.replicas.get? 0 = some p ∧
      c.db.watchPurgeFloor = 2 ∧ p.ResumeSound c.db "1" 1 := by
  have hrun : (machine.execWhile (fun _ _ => true) ⟨.empty, []⟩ purgeRun).any (fun c =>
      c.db.watchPurgeFloor == 2 &&
        (c.replicas.get? 0).any fun p => p.cachedPurgeFloor == 2) = true := by decide
  obtain ⟨c, hc, hp⟩ := Machine.exists_reachable rfl (fun _ _ _ => trivial) hrun
  simp only [Bool.and_eq_true, beq_iff_eq] at hp
  obtain ⟨hfloor, hp⟩ := hp
  obtain ⟨p, hp, hmirror⟩ := (Option.any_eq_true _ _).mp hp
  have hmirror : p.cachedPurgeFloor = 2 := by simpa using hmirror
  exact ⟨c, hc, p, hp, hfloor,
    (resume_sound_iff hc hp (s := "1") (by rfl) (by decide)).mpr (by omega)⟩

set_option maxRecDepth 10000 in
/-- The replica that did not purge accepts a resume below a tombstone that is gone. -/
theorem resume_below_purged_tombstone :
    ¬ ∀ c, machine.Reachable Machine.always c → ∀ r p, c.replicas.get? r = some p →
      ∀ s startRV, parseResourceVersion s = .ok startRV → 0 < startRV →
        p.acceptWatch s = .ok startRV → ∀ x ∈ c.db.purged, x.rv ≤ startRV := by
  intro hall
  have hrun : (machine.execWhile (fun _ _ => true) ⟨.empty, []⟩ purgeRun).any (fun c =>
      c.db.purged.any (·.rv == 2) &&
        (c.replicas.get? 1).any fun p => (p.acceptWatch "1").toOption == some 1) = true := by decide
  obtain ⟨c, hc, hp⟩ := Machine.exists_reachable rfl (fun _ _ _ => trivial) hrun
  simp only [Bool.and_eq_true, List.any_eq_true, beq_iff_eq] at hp
  obtain ⟨⟨x, hx, hrv⟩, hp⟩ := hp
  obtain ⟨p, hp, hok⟩ := (Option.any_eq_true _ _).mp hp
  have haccept : p.acceptWatch "1" = .ok 1 := by
    cases h : p.acceptWatch "1" with
    | error e => simp [h, Except.toOption] at hok
    | ok n => simpa [h, Except.toOption] using hok
  have := hall c hc 1 p hp "1" 1 (by rfl) (by decide) haccept x hx
  omega

end Cluster
end Ark
