import Ark.RowEvolution

/-!
# The writes on a row

The versions that the statements of all requests replaced, taken together, are one chain for each row: it
begins with the version that the creation inserted, each write replaces what the one before it left, and the
row is what the last one left. A request writes rows of its own object only, at most once, or twice when its
update lets go of the last finalizer, and a request that was refused has written nothing.
-/

namespace Ark

variable {V : Type*}

/-- The version that a statement wrote is the next one of the live row it replaced. -/
structure Change.Advances (c : Change V) : Prop where
  evolves : Evolves c.before c.after
  newer : c.before.resourceVersion < c.after.resourceVersion
  live : c.before.deletedAt = none

/-- The writes lead from `x` to `y`, each from what the one before it left. -/
inductive Leads : Resource V → List (Change V) → Resource V → Prop
  | refl (x : Resource V) : Leads x [] x
  | concat {x : Resource V} {l : List (Change V)} {c : Change V} (h : Leads x l c.before)
      (hc : c.Advances) : Leads x (l ++ [c]) c.after

/-! ### What a request has written -/

/-- Answers that mean that the request had no effect. -/
def ApiError.refuses : ApiError → Bool
  | .conflict _ _ | .alreadyExists _ | .serverTimeout _ | .rejected _ => true
  | .notFound _ | .internal _ => false

/-- One write, or a write and the removal of the row. -/
def Brief (l : List (Change V)) : Prop :=
  l.length ≤ 1 ∨ ∃ c d, l = [c, d] ∧ d.after.deletedAt.isSome = true

/-- What a request has written by the statement that comes next. -/
def Written : Pc V → List (Change V) → Prop
  | .finalize _, l | .readUpdated, l | .readStatus, l => l.length ≤ 1
  | .finished (.ok _), l => Brief l
  | .finished (.error e), l => Brief l ∧ (e.refuses = true → l = [])
  | _, l => l = []

theorem written_nil (pc : Pc V) : Written pc [] := by
  have hbrief : Brief ([] : List (Change V)) := .inl (Nat.zero_le 1)
  cases pc with
  | finished r =>
    cases r with
    | ok => exact hbrief
    | error => exact ⟨hbrief, fun _ => rfl⟩
  | finalize => exact Nat.zero_le 1
  | readUpdated => exact Nat.zero_le 1
  | readStatus => exact Nat.zero_le 1
  | _ => rfl

theorem handleUpdateError_refuses {config : ResourceConfig} {operation name : String} {err : BackendError}
    (h : err ≠ .conflict) : (handleUpdateError config operation name err).refuses = false := by
  cases err with
  | conflict => exact absurd rfl h
  | _ => rfl

namespace Job

variable {merge : V → V → V} {t t' : ResourceTable V} {j j' : Job V}

/-- After a write the request is done or reads the object once more, unless it removes the row. -/
theorem afterWrite_written (config : ResourceConfig) (request : Request V) (now : ℕ) (w : Write V)
    (c : Change V) : Written (afterWrite config request now w (.ok ())) [c] := by
  cases w with
  | update o =>
    change Written (if _ then Pc.finalize o else .readUpdated) [c]
    split_ifs <;> exact Nat.le_refl 1
  | updateStatus => exact Nat.le_refl 1
  | mark => exact .inl (Nat.le_refl 1)

/-- The last read of a request reports its object. -/
theorem afterRead_last (now : ℕ) (h : j.pc = .readUpdated ∨ j.pc = .readStatus) :
    j.afterRead merge now = finish j.request.name false := by
  obtain ⟨config, ns, request, pc, reads, changes⟩ := j
  rcases h with rfl | rfl <;> cases request <;> rfl

theorem finish_written {l : List (Change V)} (name : String) (flag : Bool)
    (r : Except BackendError (Object V)) (hl : l.length ≤ 1) : Written (finish name flag r) l := by
  cases r with
  | ok => exact .inl hl
  | error => exact ⟨.inl hl, fun h => nomatch h⟩

/-- A removal that follows an update is the second write. -/
theorem removed_written {o : Object V} {flag : Bool} (hl : j.changes.length ≤ 1)
    (h : j.softDelete t o flag = (t', j')) : Written j'.pc j'.changes := by
  unfold softDelete at h
  split at h
  next =>
    obtain ⟨-, rfl⟩ := Prod.mk.inj h
    exact ⟨.inl hl, fun hr => by rw [handleUpdateError_refuses (by simp)] at hr; cases hr⟩
  next x _ =>
    obtain ⟨-, rfl⟩ := Prod.mk.inj h
    change Brief (j.changes ++ [⟨x, t.softDeleted x⟩])
    match j.changes, hl with
    | [], _ => exact .inl (Nat.le_refl 1)
    | [c], _ => exact .inr ⟨c, _, rfl, rfl⟩

/-- Nothing is written before the first write, whatever the request goes on with. -/
theorem written_of_nil (h : j.changes = []) (pc : Pc V) : Written pc j.changes := by
  rw [h]
  exact written_nil pc

theorem perform_written [DecidableEq V] (hw : Written j.pc j.changes) (h : j.perform merge t = some (t', j')) :
    Written j'.pc j'.changes := by
  obtain ⟨config, ns, request, pc, reads, changes⟩ := j
  cases pc with
  | create c o attempt =>
    obtain rfl : changes = [] := hw
    have hchanges : ∀ {t' : ResourceTable V} {j' : Job V}, Job.insert t
        ⟨config, ns, request, .create c o attempt, reads, []⟩ c o attempt = (t', j') → j'.changes = [] := by
      intro t' j' h
      unfold Job.insert at h
      split at h <;> obtain ⟨-, rfl⟩ := Prod.mk.inj h <;> rfl
    exact written_of_nil (hchanges (Option.some.inj h)) _
  | write w =>
    obtain rfl : changes = [] := hw
    have h := Option.some.inj h
    unfold compareAndSwap at h
    split at h
    · obtain ⟨-, rfl⟩ := Prod.mk.inj h
      exact written_nil _
    · split at h <;> obtain ⟨-, rfl⟩ := Prod.mk.inj h
      · exact written_nil _
      · exact afterWrite_written _ _ _ _ _
  | finalize o => exact removed_written hw (Option.some.inj h)
  | remove o =>
    obtain rfl : changes = [] := hw
    have hl : Job.changes ⟨config, ns, request, .remove o, reads, []⟩ = [] := rfl
    exact removed_written (hl ▸ Nat.zero_le 1) (Option.some.inj h)
  | readUpdated =>
    obtain ⟨-, rfl⟩ := Prod.mk.inj (Option.some.inj h)
    unfold read
    rw [afterRead_last _ (.inl rfl)]
    exact finish_written _ _ _ hw
  | readStatus =>
    obtain ⟨-, rfl⟩ := Prod.mk.inj (Option.some.inj h)
    unfold read
    rw [afterRead_last _ (.inr rfl)]
    exact finish_written _ _ _ hw
  | finished => cases h
  | _ =>
    obtain rfl : changes = [] := hw
    obtain ⟨-, rfl⟩ := Prod.mk.inj (Option.some.inj h)
    exact written_nil _

theorem fail_written {now : ℕ} {text : String} (hw : Written j.pc j.changes)
    (h : j.fail merge now text = some j') : Written j'.pc j'.changes := by
  obtain ⟨config, ns, request, pc, reads, changes⟩ := j
  cases pc with
  | finalize o =>
    obtain rfl := Option.some.inj h
    exact ⟨.inl hw, fun hr => nomatch hr⟩
  | readUpdated =>
    obtain rfl := Option.some.inj h
    rw [afterRead_last _ (.inl rfl)]
    exact finish_written request.name false (.error (.other ("failed to scan row: " ++ text))) hw
  | readStatus =>
    obtain rfl := Option.some.inj h
    rw [afterRead_last _ (.inr rfl)]
    exact finish_written request.name false (.error (.other ("failed to scan row: " ++ text))) hw
  | finished => cases h
  | _ =>
    obtain rfl : changes = [] := hw
    obtain rfl := Option.some.inj h
    exact written_nil _

end Job

/-! ### The chain of each row -/

/-- The row is as a creation inserts it. -/
structure Resource.Inserted (x : Resource V) : Prop where
  generation : x.generation = 1
  unmarked : x.deletionTimestamp = none
  live : x.deletedAt = none

namespace Registry

/-- All versions that were replaced. -/
def writes (s : Registry V) : List (Change V) := s.jobs.flatMap fun p => p.2.changes

/-- The writes of all requests to the row with this number. -/
def writesOf (s : Registry V) (id : ℕ) : List (Change V) := s.writes.filter fun c => c.after.id == id

structure Linear (s : Registry V) : Prop where
  chains : ∀ x ∈ s.table.rows, ∃ x₀ l, x₀.Inserted ∧ Leads x₀ l x ∧ l.Perm (s.writesOf x.id)
  rows : ∀ c ∈ s.writes, ∃ x ∈ s.table.rows, x.id = c.after.id
  own : ∀ p ∈ s.jobs, ∀ c ∈ p.2.changes, c.after.key = p.2.key
  written : ∀ p ∈ s.jobs, Written p.2.pc p.2.changes

variable {s s' : Registry V}

theorem writesOf_put {t : ResourceTable V} {i : ℕ} {j j' : Job V} {cs : List (Change V)} (hs : s.Inv)
    (hj : s.jobs.get? i = some j) (hc : j'.changes = j.changes ++ cs) (id : ℕ) :
    (writesOf ⟨t, s.jobs.put i j'⟩ id).Perm (s.writesOf id ++ cs.filter fun c => c.after.id == id) := by
  have hperm : (writes ⟨t, s.jobs.put i j'⟩).Perm (s.writes ++ cs) :=
    Slots.flatMap_put_perm hs.nodup hj hc
  rw [writesOf, writesOf, ← List.filter_append]
  exact hperm.filter _

/-- A statement inserts at most one row, or replaces one live row of the request's object. -/
inductive Touches (t : ResourceTable V) (key : ResourceKey) : ResourceTable V → List (Change V) → Prop
  | adds {t' : ResourceTable V} (added : List (Resource V)) (hrows : t'.rows = t.rows ++ added)
      (h : ∀ x ∈ added, x.Inserted ∧ x.id = t.nextId) : Touches t key t' []
  | replaces {x y : Resource V} (hx : x ∈ t.rows) (hkey : x.key = key) (hadv : Change.Advances ⟨x, y⟩) :
      Touches t key (t.store y) [⟨x, y⟩]

theorem Touches.refl (t : ResourceTable V) (key : ResourceKey) : Touches t key t [] :=
  .adds [] (List.append_nil _).symm fun _ hx => nomatch hx

theorem touches_of_effect [DecidableEq V] {t t' : ResourceTable V} {j : Job V} {cs : List (Change V)} (ht : t.WellFormed)
    (he : Job.Effect t j t' cs) : Touches t j.key t' cs := by
  cases he with
  | quiet => exact .refl t j.key
  | insert _ h =>
    obtain ⟨-, rfl⟩ := ResourceTable.create_some h
    refine .adds _ rfl ?_
    intro x hx
    obtain rfl := List.mem_singleton.mp hx
    exact ⟨⟨rfl, rfl, rfl⟩, rfl⟩
  | @write w x _ _ hx =>
    obtain ⟨hmem, hkey, hlive⟩ := ResourceTable.live_some (ResourceTable.liveAt_some hx).1
    have hrv := ht.rv_le x hmem
    have hnew : (w.apply t x).resourceVersion = t.seq + 1 := by cases w <;> rfl
    refine .replaces hmem hkey ⟨evolves_apply hrv hlive w, ?_, hlive⟩
    change x.resourceVersion < (w.apply t x).resourceVersion
    omega
  | @remove x _ hx =>
    obtain ⟨hmem, hkey, hlive⟩ := ResourceTable.live_some hx
    have hrv := ht.rv_le x hmem
    exact .replaces hmem hkey ⟨evolves_softDeleted hrv hlive, Nat.lt_succ_of_le hrv, hlive⟩

/-- A write that replaces `x` by `y` extends the chain of that row and of no other. -/
theorem chains_store {i : ℕ} {j j' : Job V} {x y : Resource V} (hs : s.Inv) (h : s.Linear)
    (hj : s.jobs.get? i = some j) (hc : j'.changes = j.changes ++ [⟨x, y⟩]) (hx : x ∈ s.table.rows)
    (hadv : Change.Advances ⟨x, y⟩) {z : Resource V} (hz : z ∈ (s.table.store y).rows) :
    ∃ x₀ l, x₀.Inserted ∧ Leads x₀ l z ∧ l.Perm (writesOf ⟨s.table.store y, s.jobs.put i j'⟩ z.id) := by
  have hid : y.id = x.id := hadv.evolves.id
  have hput := writesOf_put (t := s.table.store y) hs hj hc z.id
  rcases ResourceTable.mem_store hz with rfl | ⟨hz, hne⟩
  · obtain ⟨x₀, l, hins, hleads, hperm⟩ := h.chains x hx
    refine ⟨x₀, l ++ [⟨x, z⟩], hins, hleads.concat hadv, ?_⟩
    rw [List.filter_cons_of_pos (by simp), List.filter_nil, hid] at hput
    rw [hid]
    exact (hperm.append_right _).trans hput.symm
  · obtain ⟨x₀, l, hins, hleads, hperm⟩ := h.chains z hz
    refine ⟨x₀, l, hins, hleads, ?_⟩
    rw [List.filter_cons_of_neg (by simpa using Ne.symm hne), List.filter_nil, List.append_nil] at hput
    exact hperm.trans hput.symm

theorem Linear.touches {i : ℕ} {j j' : Job V} {t' : ResourceTable V} {cs : List (Change V)} (hs : s.Inv)
    (h : s.Linear) (hj : s.jobs.get? i = some j) (ht : Touches s.table j.key t' cs)
    (hc : j'.changes = j.changes ++ cs) (hsame : j.Same j') (hw : Written j'.pc j'.changes) :
    Linear ⟨t', s.jobs.put i j'⟩ := by
  have hmem := Slots.mem_of_get? hj
  have hwrites : ∀ c ∈ writes ⟨t', s.jobs.put i j'⟩, c ∈ s.writes ∨ c ∈ cs := by
    intro c hcs
    obtain ⟨⟨k, jk⟩, hk, hck⟩ := List.mem_flatMap.mp hcs
    rcases Slots.mem_put hk with ⟨rfl, rfl⟩ | ⟨-, hk⟩
    · rw [hc, List.mem_append] at hck
      exact hck.imp (fun hold => List.mem_flatMap.mpr ⟨_, hmem, hold⟩) fun hnew => hnew
    · exact .inl (List.mem_flatMap.mpr ⟨_, hk, hck⟩)
  have hwritten : ∀ p ∈ s.jobs.put i j', Written p.2.pc p.2.changes := by
    rintro ⟨k, jk⟩ hk
    rcases Slots.mem_put hk with ⟨rfl, rfl⟩ | ⟨-, hk⟩
    · exact hw
    · exact h.written _ hk
  have hown : (∀ c ∈ cs, c.after.key = j.key) → ∀ p ∈ s.jobs.put i j', ∀ c ∈ p.2.changes,
      c.after.key = p.2.key := by
    rintro hcs ⟨k, jk⟩ hk c hck
    rcases Slots.mem_put hk with ⟨rfl, rfl⟩ | ⟨-, hk⟩
    · rw [hc, List.mem_append] at hck
      rw [hsame.key]
      exact hck.elim (h.own _ hmem c) (hcs c)
    · exact h.own _ hk c hck
  cases ht with
  | adds added hrows hadded =>
    refine ⟨?_, ?_, hown (by simp), hwritten⟩
    · intro z hz
      have hput := writesOf_put (t := t') hs hj hc z.id
      rw [List.filter_nil, List.append_nil] at hput
      rcases List.mem_append.mp (hrows ▸ hz) with hz | hz
      · obtain ⟨x₀, l, hins, hleads, hperm⟩ := h.chains z hz
        exact ⟨x₀, l, hins, hleads, hperm.trans hput.symm⟩
      · obtain ⟨hins, hid⟩ := hadded z hz
        have hnil : s.writesOf z.id = [] := by
          rw [writesOf, List.filter_eq_nil_iff]
          intro c hcs heq
          obtain ⟨x, hx, hxid⟩ := h.rows c hcs
          have hlt := hs.table.id_lt x hx
          have hcid := eq_of_beq heq
          omega
        refine ⟨z, [], hins, .refl z, ?_⟩
        rw [hnil] at hput
        exact hput.symm
    · intro c hcs
      obtain ⟨x, hx, hid⟩ := h.rows c ((hwrites c hcs).resolve_right (by simp))
      exact ⟨x, hrows ▸ List.mem_append_left _ hx, hid⟩
  | @replaces x y hx hkey hadv =>
    have hid : y.id = x.id := hadv.evolves.id
    refine ⟨fun z hz => chains_store hs h hj hc hx hadv hz, ?_, hown ?_, hwritten⟩
    · intro c hcs
      have hrow : ∃ z ∈ s.table.rows, z.id = c.after.id := by
        rcases hwrites c hcs with hcs | hcs
        · exact h.rows c hcs
        · obtain rfl := List.mem_singleton.mp hcs
          exact ⟨x, hx, hid.symm⟩
      obtain ⟨z, hz, hzid⟩ := hrow
      obtain ⟨w, hw, hzw⟩ := exists_evolves_store hs.table hx hadv.evolves hz
      exact ⟨w, hw, hzw.id.trans hzid⟩
    · intro c hcs
      obtain rfl := List.mem_singleton.mp hcs
      exact hadv.evolves.key.trans hkey

theorem linear_init : (empty : Registry V).Linear where
  chains := by simp [empty, ResourceTable.empty]
  rows := by simp [writes, empty]
  own := by simp [empty]
  written := by simp [empty]

variable [DecidableEq V] {merge : V → V → V}

theorem Linear.step {a : Action V} (hs : s.Inv) (h : s.Linear) (hstep : step merge s a = some s') :
    s'.Linear := by
  rcases step_cases hstep with ⟨i, config, ns, request, -, -, rfl⟩ | ⟨i, j, t, j', -, hj, hp, rfl⟩ |
    ⟨i, text, j, j', -, hj, hf, rfl⟩ | ⟨-, rfl⟩
  · refine ⟨h.chains, h.rows, ?_, ?_⟩
    · rintro p hp c hc
      rcases List.mem_cons.mp hp with rfl | hp
      · cases hc
      · exact h.own p hp c hc
    · rintro p hp
      rcases List.mem_cons.mp hp with rfl | hp
      · exact written_nil _
      · exact h.written p hp
  · obtain ⟨cs, he, hc, hsame, -⟩ := Job.perform_effect hp
    have hw := Job.perform_written (h.written _ (Slots.mem_of_get? hj)) hp
    exact h.touches hs hj (touches_of_effect hs.table he) hc hsame hw
  · obtain ⟨hsame, hc, -⟩ := Job.fail_same hf
    have hw := Job.fail_written (h.written _ (Slots.mem_of_get? hj)) hf
    exact h.touches hs hj (.refl _ _) (by rw [hc, List.append_nil]) hsame hw
  · exact ⟨h.chains, h.rows, h.own, h.written⟩

/-- In every reachable state the writes of all requests on a row are one chain from the inserted version to
the row; a request writes only rows of its object, at most once before a removal, and not when it is refused. -/
theorem writes_linear {ok : Registry V → Action V → Prop} (h : (machine merge).Reachable ok s) : s.Linear := by
  refine (h.invariant (I := fun s => s.Inv ∧ s.Linear) ?_ ?_).2
  · rintro s rfl
    exact ⟨Inv.init, linear_init⟩
  · intro s a t hs _ hstep
    exact ⟨hs.1.step hstep, hs.2.step hs.1 hstep⟩

/-- Two updates read the first version, and both name it in their writes. -/
def racingUpdates : List (Action Unit) :=
  request 0 (post "u" (agentBody none none [])) 2 ++ request 1 (put (agentBody none none ["f"])) 1 ++
    request 2 (put (agentBody none none ["g"])) 1 ++ [.perform 1, .perform 2, .perform 2, .perform 1]

theorem writes_linear_race : ∃ s, agents.Reachable Machine.always s ∧
    (s.jobs.map fun p => (p.1, p.2.changes.length)) = [(2, 0), (1, 1), (0, 0)] ∧ s.Linear := by
  obtain ⟨s, hs, hp⟩ : ∃ s, agents.Reachable Machine.always s ∧
      ((s.jobs.map fun p => (p.1, p.2.changes.length)) == [(2, 0), (1, 1), (0, 0)]) = true :=
    Machine.exists_reachable (b := fun _ _ => true) rfl (fun _ _ _ => trivial) (l := racingUpdates) (by decide)
  exact ⟨s, hs, eq_of_beq hp, writes_linear hs⟩

end Registry
end Ark
