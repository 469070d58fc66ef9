import Ark.Finalizers

/-!
# Optimistic concurrency of updates

A client names the version it has read. `GenericStorage.Update` passes that version to the
compare-and-swap; `StatusStorage.Update` writes onto the object it has read itself, and with it
that object's version.
-/

namespace Ark

variable {V : Type*}

/-- The updated object carries version `v`, whatever the storage has read. -/
def Request.Sends (v : ℕ) : Request V → Prop
  | .update _ u _ _ _ | .updateStatus _ u => ∀ e o, u e = .ok o → o.resourceVersion = some v
  | _ => False

def ApiError.isRace : ApiError → Bool
  | .notFound _ | .conflict _ _ => true
  | _ => false

/-- The first change replaces version `v`, and each later one the version just written. -/
def Follows (v : ℕ) : List (Change V) → Prop
  | [] => True
  | c :: cs => c.before.resourceVersion = v ∧ Follows c.after.resourceVersion cs

theorem handleUpdateError_isRace {config : ResourceConfig} {operation name : String}
    {err : BackendError} (h : err = .conflict ∨ err = .notFound) :
    (handleUpdateError config operation name err).isRace = true := by
  rcases h with rfl | rfl <;> rfl

namespace Job

/-- The request is accepted by its own checks and compares the version it sends: a main update
finds its object, a status update reads the version that its client has read, and the row that is
removed after an update is the one that the update wrote. -/
def compares (t : ResourceTable V) (j : Job V) : Bool :=
  match j.pc, j.request with
  | .updateRead, .update _ u a force _ =>
    match t.live j.key with
    | none => !force
    | some x =>
      match u (some x.reconstructObject) with
      | .ok o => (a (carryOver x.reconstructObject o) x.reconstructObject).isOk
      | .error _ => false
  | .statusRead, .updateStatus _ u =>
    match t.live j.key with
    | none => true
    | some x =>
      match u (some x.reconstructObject) with
      | .ok o => decide (o.resourceVersion = some x.resourceVersion)
      | .error _ => false
  | .finalize _, _ =>
    match t.live j.key, j.changes.getLast? with
    | some x, some c => decide (x.resourceVersion = c.after.resourceVersion)
    | _, _ => true
  | _, _ => true

/-- The statement may fail without an answer that the comparison does not give. -/
def mayFail (j : Job V) : Bool :=
  match j.pc, j.request with
  | .write _, _ => false
  | .updateRead, .update _ _ _ force _ => !force
  | _, _ => true

/-- Where an update that sends version `v` stands. -/
def Compared (v : ℕ) (j : Job V) : Prop :=
  match j.pc, j.request with
  | .updateRead, .update _ _ _ _ _ | .statusRead, .updateStatus _ _ => j.changes = []
  | .write (.update o), _ | .missed (.update o), _ | .write (.updateStatus o), _
  | .missed (.updateStatus o), _ => j.changes = [] ∧ o.resourceVersion = some v
  | .finalize _, _ => ∃ c, j.changes = [c] ∧ c.before.resourceVersion = v
  | .readUpdated, _ | .readStatus, _ | .finished (.ok _), _ =>
    j.changes ≠ [] ∧ Follows v j.changes
  | .finished (.error e), _ => Follows v j.changes ∧ (j.changes = [] → e.isRace = true)
  | _, _ => False

theorem compared_race {v : ℕ} {j : Job V} {e : ApiError} (hc : j.changes = [])
    (he : e.isRace = true) (hpc : j.pc = .finished (.error e)) : j.Compared v := by
  unfold Compared
  rw [hpc, hc]
  exact ⟨trivial, fun _ => he⟩

theorem finish_compared {v : ℕ} {j : Job V} (name : String) (flag : Bool)
    (r : Except BackendError (Object V)) (hc : j.changes ≠ []) (hf : Follows v j.changes)
    (hpc : j.pc = finish name flag r) : j.Compared v := by
  unfold finish at hpc
  unfold Compared
  split at hpc
  next =>
    rw [hpc]
    exact ⟨hc, hf⟩
  next =>
    rw [hpc]
    exact ⟨hf, fun h => absurd h hc⟩

theorem afterUpdateRead_compared {v now : ℕ} {j : Job V} {ns name : String}
    {u : Option (Object V) → Except String (Object V)}
    {a : Object V → Object V → Except String (Labels × V)} {force : Bool} {c : Creation V}
    {r : Except BackendError (Object V)} (hc : j.changes = [])
    (hsend : ∀ e o, u e = .ok o → o.resourceVersion = some v)
    (hforce : ∀ e, r = .error e → force = false)
    (hok : ∀ x, r = .ok x → ∃ o b, u (some x) = .ok o ∧ a (carryOver x o) x = .ok b)
    (hpc : j.pc = afterUpdateRead ns now name u a force c r) : j.Compared v := by
  cases r with
  | error e =>
    have hno : force = false := hforce e rfl
    have hpc' : j.pc = .finished (.error (.notFound name)) := by
      rw [hpc, afterUpdateRead, hno]
      rfl
    exact compared_race hc rfl hpc'
  | ok x =>
    obtain ⟨o, ⟨annotations, spec⟩, ho, hb⟩ := hok x rfl
    have hrv : (carryOver x o).resourceVersion = some v := by
      simp [carryOver, hsend _ o ho]
    simp only [afterUpdateRead, ho, hb] at hpc
    unfold Compared
    rw [hpc]
    exact ⟨hc, hrv⟩

theorem afterStatusRead_compared {merge : V → V → V} {v : ℕ} {j : Job V} {name : String}
    {u : Option (Object V) → Except String (Object V)} {r : Except BackendError (Object V)}
    (hc : j.changes = [])
    (hok : ∀ x, r = .ok x → x.resourceVersion = some v ∧ ∃ o, u (some x) = .ok o)
    (hpc : j.pc = afterStatusRead merge name u r) : j.Compared v := by
  cases r with
  | error e => exact compared_race hc rfl hpc
  | ok x =>
    obtain ⟨hrv, o, ho⟩ := hok x rfl
    simp only [afterStatusRead, ho] at hpc
    unfold Compared
    rw [hpc]
    exact ⟨hc, hrv⟩

/-- The reads of an update that its own checks accept. -/
theorem read_compared {merge : V → V → V} {t : ResourceTable V} {j : Job V} {v : ℕ}
    (hsend : j.request.Sends v) (hj : j.Compared v) (hok : j.compares t = true)
    (hpc : j.pc = .updateRead ∨ j.pc = .statusRead) : (j.read merge t).Compared v := by
  obtain ⟨config, ns, request, pc, reads, changes⟩ := j
  have hget : ∀ key x, t.get key = .ok x → ∃ y, t.live key = some y ∧ x = y.reconstructObject := by
    intro key x hx
    unfold ResourceTable.get at hx
    split at hx
    next => cases hx
    next y hy => exact ⟨y, hy, (Except.ok.inj hx).symm⟩
  have hmiss : ∀ key e, t.get key = .error e → t.live key = none := by
    intro key e he
    unfold ResourceTable.get at he
    split at he
    next hnone => exact hnone
    next => cases he
  rcases hpc with rfl | rfl
  · cases request with
    | update name u a force c =>
      have hc : changes = [] := hj
      refine afterUpdateRead_compared hc hsend ?_ ?_ rfl
      · intro e he
        simp only [compares, hmiss _ e he] at hok
        simpa using hok
      · intro x hx
        obtain ⟨y, hy, rfl⟩ := hget _ x hx
        simp only [compares, hy] at hok
        split at hok
        next o ho =>
          cases hb : a (carryOver y.reconstructObject o) y.reconstructObject with
          | ok b => exact ⟨o, b, ho, hb⟩
          | error e =>
            rw [hb] at hok
            cases hok
        next => cases hok
    | _ => cases hj
  · cases request with
    | updateStatus name u =>
      have hc : changes = [] := hj
      refine afterStatusRead_compared hc ?_ rfl
      intro x hx
      obtain ⟨y, hy, rfl⟩ := hget _ x hx
      simp only [compares, hy] at hok
      split at hok
      next o ho =>
        have hrv : o.resourceVersion = some y.resourceVersion := of_decide_eq_true hok
        exact ⟨hrv.symm.trans (hsend _ o ho), o, ho⟩
      next => cases hok
    | _ => cases hj

/-- A comparison that finds no row with the version is answered with a conflict or not found. -/
theorem afterWrite_compared {v : ℕ} (now : ℕ) {j : Job V} {config : ResourceConfig}
    {request : Request V} {w : Write V} {err : BackendError} (hc : j.changes = [])
    (hw : ∀ o n, w ≠ .mark o n) (herr : err = .conflict ∨ err = .notFound)
    (hpc : j.pc = afterWrite config request now w (.error err)) : j.Compared v := by
  cases w with
  | update o => exact compared_race hc (handleUpdateError_isRace herr) hpc
  | updateStatus o => exact compared_race hc (handleUpdateError_isRace herr) hpc
  | mark o n => exact absurd rfl (hw o n)

theorem compareAndSwap_compared [DecidableEq V] {t : ResourceTable V} {j : Job V} {w : Write V}
    {v : ℕ} (hv : v ≠ 0) (hc : j.changes = []) (hw : ∀ o n, w ≠ .mark o n) (hrv : w.rv = v) :
    (j.compareAndSwap t w).2.Compared v := by
  have hne : w.rv ≠ 0 := by omega
  unfold compareAndSwap
  rw [if_neg hne]
  split
  next =>
    cases w with
    | update o =>
      have : o.resourceVersion = some v := by
        cases ho : o.resourceVersion with
        | none => simp [Write.rv, ho] at hne
        | some n => simpa [Write.rv, ho] using hrv
      exact ⟨hc, this⟩
    | updateStatus o =>
      have : o.resourceVersion = some v := by
        cases ho : o.resourceVersion with
        | none => simp [Write.rv, ho] at hne
        | some n => simpa [Write.rv, ho] using hrv
      exact ⟨hc, this⟩
    | mark o n => exact absurd rfl (hw o n)
  next x hx =>
    have hbefore : x.resourceVersion = v := (ResourceTable.liveAt_some hx).2.trans hrv
    cases w with
    | update o =>
      unfold Compared
      simp only [afterWrite, hc, List.nil_append]
      by_cases hf : o.deletionTimestamp.isSome = true ∧ o.finalizers = []
      · rw [if_pos hf]
        exact ⟨_, rfl, hbefore⟩
      · rw [if_neg hf]
        exact ⟨List.cons_ne_nil _ _, hbefore, trivial⟩
    | updateStatus o =>
      unfold Compared
      simp only [afterWrite, hc, List.nil_append]
      exact ⟨List.cons_ne_nil _ _, hbefore, trivial⟩
    | mark o n => exact absurd rfl (hw o n)

theorem softDelete_compared {t : ResourceTable V} {j : Job V} {o : Object V} {v : ℕ}
    {c : Change V} (hc : j.changes = [c]) (hv : c.before.resourceVersion = v)
    (hlast : ∀ x, t.live j.key = some x → x.resourceVersion = c.after.resourceVersion) :
    (j.softDelete t o false).2.Compared v := by
  unfold softDelete
  split
  next =>
    unfold Compared
    simp only [removed, hc]
    exact ⟨⟨hv, trivial⟩, fun h => absurd h (List.cons_ne_nil _ _)⟩
  next x hx =>
    unfold Compared
    simp only [removed, hc]
    exact ⟨List.cons_ne_nil _ _, hv, hlast x hx, trivial⟩

theorem perform_compared [DecidableEq V] {merge : V → V → V} {t t' : ResourceTable V}
    {j j' : Job V} {v : ℕ} (hv : v ≠ 0) (hsend : j.request.Sends v) (hj : j.Compared v)
    (hok : j.compares t = true) (h : j.perform merge t = some (t', j')) : j'.Compared v := by
  have hrace : ∀ b : Bool, (if b then BackendError.conflict else .notFound) = .conflict ∨
      (if b then BackendError.conflict else .notFound) = .notFound := by
    intro b
    cases b
    · exact .inr rfl
    · exact .inl rfl
  cases hpc : j.pc with
  | updateRead =>
    simp only [perform, hpc, Option.some.injEq, Prod.mk.injEq] at h
    exact h.2 ▸ read_compared hsend hj hok (.inl hpc)
  | statusRead =>
    simp only [perform, hpc, Option.some.injEq, Prod.mk.injEq] at h
    exact h.2 ▸ read_compared hsend hj hok (.inr hpc)
  | write w =>
    simp only [perform, hpc, Option.some.injEq] at h
    have hj' : j' = (j.compareAndSwap t w).2 := by rw [h]
    unfold Compared at hj
    rw [hpc] at hj
    rw [hj']
    cases w with
    | mark => cases hj
    | update o =>
      exact compareAndSwap_compared hv hj.1 (fun _ _ => nofun) (by simp [Write.rv, hj.2])
    | updateStatus o =>
      exact compareAndSwap_compared hv hj.1 (fun _ _ => nofun) (by simp [Write.rv, hj.2])
  | missed w =>
    simp only [perform, hpc, Option.some.injEq, Prod.mk.injEq] at h
    unfold Compared at hj
    rw [hpc] at hj
    cases w with
    | mark => cases hj
    | update o =>
      rw [← h.2]
      refine afterWrite_compared t.clock (w := .update o) hj.1 ?_ (hrace _) rfl
      intro _ _ he
      cases he
    | updateStatus o =>
      rw [← h.2]
      refine afterWrite_compared t.clock (w := .updateStatus o) hj.1 ?_ (hrace _) rfl
      intro _ _ he
      cases he
  | finalize o =>
    simp only [perform, hpc, Option.some.injEq] at h
    have hj' : j' = (j.softDelete t o false).2 := by rw [h]
    unfold Compared at hj
    rw [hpc] at hj
    obtain ⟨c, hc, hb⟩ := hj
    rw [hj']
    apply softDelete_compared hc hb
    intro x hx
    simpa [compares, hpc, hx, hc] using hok
  | readUpdated =>
    simp only [perform, hpc, Option.some.injEq, Prod.mk.injEq] at h
    unfold Compared at hj
    rw [hpc] at hj
    rw [← h.2]
    refine finish_compared j.request.name false (t.get j.key) hj.1 hj.2 ?_
    simp only [read, afterRead, hpc]
  | readStatus =>
    simp only [perform, hpc, Option.some.injEq, Prod.mk.injEq] at h
    unfold Compared at hj
    rw [hpc] at hj
    rw [← h.2]
    refine finish_compared j.request.name false (t.get j.key) hj.1 hj.2 ?_
    simp only [read, afterRead, hpc]
  | finished r =>
    simp only [perform, hpc] at h
    cases h
  | _ =>
    unfold Compared at hj
    rw [hpc] at hj
    cases hj

theorem fail_compared {merge : V → V → V} {now : ℕ} {text : String} {j j' : Job V} {v : ℕ}
    (hj : j.Compared v) (hok : j.mayFail = true)
    (h : j.fail merge now text = some j') : j'.Compared v := by
  obtain ⟨config, ns, request, pc, reads, changes⟩ := j
  cases pc with
  | updateRead =>
    obtain rfl := Option.some.inj h
    cases request with
    | update name u a force c =>
      obtain rfl : force = false := by simpa [mayFail] using hok
      exact compared_race hj rfl rfl
    | _ => cases hj
  | statusRead =>
    obtain rfl := Option.some.inj h
    cases request with
    | updateStatus name u =>
      exact compared_race hj rfl rfl
    | _ => cases hj
  | write w => cases hok
  | missed w =>
    obtain rfl := Option.some.inj h
    cases w with
    | mark => cases hj
    | update o => exact ⟨by rw [hj.1]; trivial, fun _ => rfl⟩
    | updateStatus o => exact ⟨by rw [hj.1]; trivial, fun _ => rfl⟩
  | finalize o =>
    obtain rfl := Option.some.inj h
    obtain ⟨c, hc, hb⟩ := hj
    obtain rfl : changes = [c] := hc
    exact ⟨⟨hb, trivial⟩, fun h => absurd h (List.cons_ne_nil _ _)⟩
  | readUpdated =>
    obtain rfl := Option.some.inj h
    exact ⟨hj.2, fun h => absurd h hj.1⟩
  | readStatus =>
    obtain rfl := Option.some.inj h
    exact ⟨hj.2, fun h => absurd h hj.1⟩
  | finished r => cases h
  | _ => cases hj

theorem start_compared {now : ℕ} {config : ResourceConfig} {ns : String} {request : Request V}
    {v : ℕ} (hsend : request.Sends v) : (start now config ns request).Compared v := by
  cases request with
  | update => rfl
  | updateStatus => rfl
  | _ => cases hsend

end Job

namespace Registry

/-- Every update that sends a version compares it. -/
def ComparesSent (s : Registry V) : Action V → Prop
  | .perform i => ∀ j ∈ s.jobs.get? i, j.compares s.table = true
  | .fail i _ => ∀ j ∈ s.jobs.get? i, j.mayFail = true
  | _ => True

instance (s : Registry V) (a : Action V) : Decidable (s.ComparesSent a) :=
  match a with
  | .start _ _ _ _ => inferInstanceAs (Decidable True)
  | .perform i => inferInstanceAs (Decidable (∀ j ∈ s.jobs.get? i, j.compares s.table = true))
  | .fail i _ => inferInstanceAs (Decidable (∀ j ∈ s.jobs.get? i, j.mayFail = true))
  | .tick => inferInstanceAs (Decidable True)

/-- An update replaces only the version that its client sent, or the one it has just written
itself. It succeeds only by replacing it; otherwise it answers that it lost the race or that the
object is gone, and has changed nothing. -/
structure NoLostUpdate (s : Registry V) : Prop where
  follows : ∀ q ∈ s.jobs, ∀ v, v ≠ 0 → q.2.request.Sends v → Follows v q.2.changes
  succeeds : ∀ q ∈ s.jobs, ∀ v, v ≠ 0 → q.2.request.Sends v → ∀ reply,
    q.2.pc = .finished (.ok reply) → q.2.changes ≠ []
  refused : ∀ q ∈ s.jobs, ∀ v, v ≠ 0 → q.2.request.Sends v → ∀ e,
    q.2.pc = .finished (.error e) → q.2.changes = [] → e.isRace = true

def AllCompared (s : Registry V) : Prop :=
  ∀ q ∈ s.jobs, ∀ v, v ≠ 0 → q.2.request.Sends v → q.2.Compared v

theorem AllCompared.noLostUpdate {s : Registry V} (h : s.AllCompared) : s.NoLostUpdate where
  follows := by
    intro q hq v hv hsend
    have hc := h q hq v hv hsend
    unfold Job.Compared at hc
    split at hc
    · rw [hc]
      trivial
    · rw [hc]
      trivial
    · rw [hc.1]
      trivial
    · rw [hc.1]
      trivial
    · rw [hc.1]
      trivial
    · rw [hc.1]
      trivial
    · obtain ⟨c, hc, hb⟩ := hc
      rw [hc]
      exact ⟨hb, trivial⟩
    · exact hc.2
    · exact hc.2
    · exact hc.2
    · exact hc.1
    · cases hc
  succeeds := by
    intro q hq v hv hsend reply hpc
    have hc := h q hq v hv hsend
    unfold Job.Compared at hc
    rw [hpc] at hc
    exact hc.1
  refused := by
    intro q hq v hv hsend e hpc
    have hc := h q hq v hv hsend
    unfold Job.Compared at hc
    rw [hpc] at hc
    exact hc.2

variable [DecidableEq V] {merge : V → V → V} {s s' : Registry V} {a : Action V}

theorem allCompared_step (hinv : s.AllCompared) (hok : s.ComparesSent a)
    (h : step merge s a = some s') : s'.AllCompared := by
  rcases step_cases h with ⟨i, config, ns, request, -, -, rfl⟩ | ⟨i, j, t, j', rfl, hj, hp, rfl⟩ |
    ⟨i, text, j, j', rfl, hj, hf, rfl⟩ | ⟨-, rfl⟩
  · intro q hq v hv hsend
    rcases List.mem_cons.mp hq with rfl | hq
    · exact Job.start_compared hsend
    · exact hinv q hq v hv hsend
  · obtain ⟨-, -, -, hsame, -⟩ := Job.perform_effect hp
    rintro ⟨k, jk⟩ hq v hv hsend
    rcases Slots.mem_put hq with ⟨rfl, rfl⟩ | ⟨-, hq⟩
    · have hsend' : j.request.Sends v := hsame.request ▸ hsend
      have hc := hinv _ (Slots.mem_of_get? hj) v hv hsend'
      exact Job.perform_compared hv hsend' hc (hok j hj) hp
    · exact hinv _ hq v hv hsend
  · obtain ⟨hsame, -, -⟩ := Job.fail_same hf
    rintro ⟨k, jk⟩ hq v hv hsend
    rcases Slots.mem_put hq with ⟨rfl, rfl⟩ | ⟨-, hq⟩
    · have hsend' : j.request.Sends v := hsame.request ▸ hsend
      have hc := hinv _ (Slots.mem_of_get? hj) v hv hsend'
      exact Job.fail_compared hc (hok j hj) hf
    · exact hinv _ hq v hv hsend
  · exact hinv

/-- In every run in which every update compares the version it sends, no update is lost. -/
theorem no_lost_update (h : (machine merge).Reachable ComparesSent s) : s.NoLostUpdate := by
  apply AllCompared.noLostUpdate
  refine h.invariant ?_ ?_
  · rintro s rfl
    intro q hq
    cases hq
  · intro s a t hinv hok hstep
    exact allCompared_step hinv hok hstep

/-- A `PUT` of the body on the status subresource. -/
def putStatus (body : Object Unit) : Request Unit := .updateStatus "a" fun _ => .ok body

theorem putStatus_sends (v : ℕ) : (putStatus (agentBody (some v) none [])).Sends v := by
  intro e o ho
  obtain rfl := Except.ok.inj ho
  rfl

/-- A status update of version 1 arrives when the row has version 2. -/
def staleStatusRun : List (Action Unit) :=
  request 0 (post "u" (agentBody none none [])) 2 ++
    request 1 (put (agentBody (some 1) none [])) 3 ++
    request 2 (putStatus (agentBody (some 1) none [])) 2

theorem stale_status_lands :
    ¬ ∀ s, agents.Reachable Machine.always s → s.NoLostUpdate := by
  intro h
  have hrun : (agents.execWhile (fun _ _ => true) empty staleStatusRun).map
      (fun s => (s.jobs.get? 2).map fun j => (j.request, j.changes.map (·.before.resourceVersion)))
      = some (some (putStatus (agentBody (some 1) none []), [2])) := rfl
  obtain ⟨s, hs, hget⟩ := Option.map_eq_some_iff.mp hrun
  obtain ⟨j, hj, hpair⟩ := Option.map_eq_some_iff.mp hget
  obtain ⟨hreq, hch⟩ := Prod.mk.inj hpair
  have hreach : agents.Reachable Machine.always s :=
    (Machine.Reachable.init rfl).trans (Machine.run_of_execWhile (fun _ _ _ => trivial) hs)
  have hfollows := (h s hreach).follows _ (Slots.mem_of_get? hj) 1 (by decide)
    (by rw [hreq]; exact putStatus_sends 1)
  cases hc : j.changes with
  | nil => simp [hc] at hch
  | cons c cs =>
    rw [hc] at hfollows hch
    have h2 : c.before.resourceVersion = 2 := (List.cons.inj hch).1
    have h1 : c.before.resourceVersion = 1 := hfollows.1
    omega

/-- The same status update with the version that the row has. -/
theorem no_lost_update_serial : ∃ s, agents.Reachable ComparesSent s ∧
    (s.jobs.any fun q => q.1 == 2 && !q.2.changes.isEmpty) = true ∧ s.NoLostUpdate := by
  obtain ⟨s, hs, hp⟩ : ∃ s, agents.Reachable ComparesSent s ∧
      (s.jobs.any fun q => q.1 == 2 && !q.2.changes.isEmpty) = true :=
    Machine.exists_reachable (b := fun s a => decide (s.ComparesSent a)) rfl
      (fun _ _ => of_decide_eq_true)
      (l := request 0 (post "u" (agentBody none none [])) 2 ++
        request 1 (put (agentBody (some 1) none [])) 3 ++
        request 2 (putStatus (agentBody (some 2) none [])) 2) (by decide)
  exact ⟨s, hs, hp, no_lost_update hs⟩

end Registry
end Ark
