import Ark.Finalizers

/-!
# Graceful deletion

`Delete` marks a row that has finalizers, and the update that empties the list of a marked row
goes on to remove it. The marking, the client's body and the stored row are three copies of the
deletion timestamp; `Gracefully` says how they have to agree.
-/

namespace Ark

variable {V : Type*}

namespace Job

/-- The job's own update is followed by the removal of the row. -/
def finalizing (j : Job V) : Bool :=
  match j.pc with
  | .finalize _ => true
  | _ => false

theorem removes_of_finalizing {j : Job V} (h : j.finalizing = true) : j.removes = true := by
  unfold finalizing at h
  split at h
  next hpc => simp [removes, hpc, Pc.removes]
  next => cases h

/-- An update keeps the timestamp out of a body whose row is not marked and, when it empties the
finalizers of a marked row, repeats it; a row is marked while it has finalizers; and the row that
an update goes on to remove is the one it wrote. -/
def Gracefully (t : ResourceTable V) (j : Job V) : Prop :=
  match j.pc with
  | .write (.update o) => ∀ x ∈ t.liveAt j.key (o.resourceVersion.getD 0),
      (o.deletionTimestamp.isSome = true → x.deletionTimestamp.isSome = true) ∧
      (x.deletionTimestamp.isSome = true → o.finalizers = [] → o.deletionTimestamp.isSome = true)
  | .write (.mark o _) => o.finalizers ≠ []
  | .finalize _ => ∀ x ∈ t.live j.key, ∃ c ∈ j.changes.getLast?, c.after.id = x.id
  | _ => True

instance (t : ResourceTable V) (j : Job V) : Decidable (j.Gracefully t) := by
  unfold Gracefully
  split <;> infer_instance

theorem Gracefully.update {t : ResourceTable V} {j : Job V} {o : Object V} {x : Resource V}
    (h : j.Gracefully t) (hpc : j.pc = .write (.update o))
    (hx : t.liveAt j.key (Write.update o).rv = some x) :
    (o.deletionTimestamp.isSome = true → x.deletionTimestamp.isSome = true) ∧
      (x.deletionTimestamp.isSome = true → o.finalizers = [] →
        o.deletionTimestamp.isSome = true) := by
  unfold Gracefully at h
  rw [hpc] at h
  exact h x hx

end Job

namespace Registry

/-- Every statement goes gracefully, and no removal after an update fails. -/
def CompletesDeletions (s : Registry V) : Action V → Prop
  | .perform i => ∀ j ∈ s.jobs.get? i, j.Gracefully s.table
  | .fail i _ => ∀ j ∈ s.jobs.get? i, j.finalizing = false
  | _ => True

instance (s : Registry V) (a : Action V) : Decidable (s.CompletesDeletions a) :=
  match a with
  | .start _ _ _ _ => inferInstanceAs (Decidable True)
  | .perform i => inferInstanceAs (Decidable (∀ j ∈ s.jobs.get? i, j.Gracefully s.table))
  | .fail i _ => inferInstanceAs (Decidable (∀ j ∈ s.jobs.get? i, j.finalizing = false))
  | .tick => inferInstanceAs (Decidable True)

/-- A deletion request has read the row. -/
def Targeted (s : Registry V) (id : ℕ) : Prop :=
  ∃ p ∈ s.jobs, p.2.request.isDelete = true ∧ ∃ x ∈ p.2.reads, x.id = id

def Idle (s : Registry V) : Prop := ∀ p ∈ s.jobs, ∃ r, p.2.pc = .finished r

/-- With no request in flight no live row is marked and without finalizers; a marked row, and a
row that an update has removed, was the target of a deletion. -/
structure GracefulDeletion (s : Registry V) : Prop where
  completed : s.Idle → ∀ x ∈ s.table.rows, x.deletedAt = none →
    x.deletionTimestamp.isSome = true → x.finalizers ≠ []
  marked : ∀ x ∈ s.table.rows, x.deletionTimestamp.isSome = true → s.Targeted x.id
  finalized : ∀ p ∈ s.jobs, p.2.request.isDelete = false → ∀ c ∈ p.2.changes,
    c.after.deletedAt.isSome = true → s.Targeted c.after.id

/-- The invariant: a marked row without finalizers is about to be removed by the update that
emptied them. -/
structure Deleting (s : Registry V) : Prop where
  pending : ∀ x ∈ s.table.rows, x.deletedAt = none → x.deletionTimestamp.isSome = true →
    x.finalizers = [] → ∃ p ∈ s.jobs, p.2.finalizing = true ∧ p.2.key = x.key
  marked : ∀ x ∈ s.table.rows, x.deletionTimestamp.isSome = true → s.Targeted x.id
  finalizing : ∀ p ∈ s.jobs, p.2.finalizing = true → ∀ c ∈ p.2.changes.getLast?,
    s.Targeted c.after.id
  finalized : ∀ p ∈ s.jobs, p.2.request.isDelete = false → ∀ c ∈ p.2.changes,
    c.after.deletedAt.isSome = true → s.Targeted c.after.id

theorem Deleting.gracefulDeletion {s : Registry V} (h : s.Deleting) : s.GracefulDeletion where
  completed := by
    intro hidle x hx hd ht hf
    obtain ⟨p, hp, hfin, -⟩ := h.pending x hx hd ht hf
    obtain ⟨r, hr⟩ := hidle p hp
    simp [Job.finalizing, hr] at hfin
  marked := h.marked
  finalized := h.finalized

/-- A target stays a target when a job performs a statement. -/
theorem Targeted.put {s : Registry V} {t : ResourceTable V} {i id : ℕ} {j j' : Job V}
    (hs : s.Inv) (hj : s.jobs.get? i = some j) (hreq : j'.request = j.request)
    (hreads : ∀ x ∈ j.reads, x ∈ j'.reads) (h : s.Targeted id) :
    (⟨t, s.jobs.put i j'⟩ : Registry V).Targeted id := by
  obtain ⟨⟨k, jk⟩, hp, hd, x, hx, hid⟩ := h
  by_cases hk : k = i
  · subst hk
    obtain rfl := Slots.eq_of_mem hs.nodup hp (Slots.mem_of_get? hj)
    exact ⟨(k, j'), Slots.mem_put_self hp, hreq ▸ hd, x, hreads x hx, hid⟩
  · exact ⟨(k, jk), Slots.mem_put_ne hp hk, hd, x, hx, hid⟩

/-- The marking of a row is done by a deletion that has read this very version. -/
theorem mark_targets {s : Registry V} (hs : s.Inv) {i : ℕ} {j : Job V} (hj : (i, j) ∈ s.jobs) {o : Object V}
    {n : ℕ} {x : Resource V} (hpc : j.pc = .write (.mark o n))
    (hx : s.table.liveAt j.key (Write.mark o n).rv = some x) : s.Targeted x.id := by
  have hh := hs.holds _ hj
  rw [hpc] at hh
  obtain ⟨hdel, y, hy, rfl, -, -, -⟩ := hh
  obtain rfl : x = y := (hs.reads _ hj y hy).liveAt_eq hx
  exact ⟨(i, j), hj, hdel, x, hy, rfl⟩

variable [DecidableEq V] {merge : V → V → V} {s s' : Registry V} {a : Action V}

/-- After the update that empties the finalizers of a marked row, the job is about to remove it. -/
theorem perform_finalizing {t t' : ResourceTable V} {j j' : Job V} {o : Object V} {x : Resource V}
    (hpc : j.pc = .write (.update o)) (hrv : o.resourceVersion.getD 0 ≠ 0)
    (hx : t.liveAt j.key (o.resourceVersion.getD 0) = some x)
    (hd : o.deletionTimestamp.isSome = true) (hf : o.finalizers = [])
    (h : j.perform merge t = some (t', j')) : j'.finalizing = true := by
  have hrv' : (Write.update o).rv ≠ 0 := hrv
  have hx' : t.liveAt j.key (Write.update o).rv = some x := hx
  have hperf : j.perform merge t = some (j.compareAndSwap t (.update o)) := by
    simp only [Job.perform, hpc]
  rw [hperf, Option.some.injEq, Job.compareAndSwap, if_neg hrv'] at h
  simp only [hx', Prod.mk.injEq] at h
  rw [← h.2]
  simp [Job.finalizing, afterWrite, hd, hf]

theorem written_targeted (hs : s.Inv) (hdel : s.Deleting) {i : ℕ} {j : Job V}
    (hj : s.jobs.get? i = some j) (hok : j.Gracefully s.table) {w : Write V} {x : Resource V}
    (hpc : j.pc = .write w) (hx : s.table.liveAt j.key w.rv = some x)
    (ht : (w.apply s.table x).deletionTimestamp.isSome = true) : s.Targeted x.id := by
  have hmem := (ResourceTable.live_some (ResourceTable.liveAt_some hx).1).1
  cases w with
  | update o =>
    apply hdel.marked x hmem
    have ht' : (o.deletionTimestamp.or x.deletionTimestamp).isSome = true := ht
    by_cases ho : o.deletionTimestamp.isSome = true
    · exact (hok.update hpc hx).1 ho
    · rw [Option.isSome_or] at ht'
      simpa [ho] using ht'
  | updateStatus o => exact hdel.marked x hmem ht
  | mark o n => exact mark_targets hs (Slots.mem_of_get? hj) hpc hx

/-- A row that is marked and has lost its finalizers is about to be removed after the step. -/
theorem pending_perform (hs : s.Inv) (hdel : s.Deleting) {i : ℕ} {j j' : Job V}
    {t : ResourceTable V} (hj : s.jobs.get? i = some j) (hok : j.Gracefully s.table)
    (hp : j.perform merge s.table = some (t, j')) {x : Resource V} (hx : x ∈ t.rows)
    (hd : x.deletedAt = none) (ht : x.deletionTimestamp.isSome = true) (hf : x.finalizers = []) :
    ∃ p ∈ s.jobs.put i j', p.2.finalizing = true ∧ p.2.key = x.key := by
  have hjm := Slots.mem_of_get? hj
  obtain ⟨cs, he, -, hsame, -, -⟩ := Job.perform_effect hp
  -- a job that was about to remove the row still is, unless it is the one that performs
  have hkeep : ∀ y ∈ s.table.rows, y.deletedAt = none → y.deletionTimestamp.isSome = true →
      y.finalizers = [] → y.key = x.key → j.finalizing = false →
      ∃ p ∈ s.jobs.put i j', p.2.finalizing = true ∧ p.2.key = x.key := by
    intro y hy hyd hyt hyf hyk hno
    obtain ⟨⟨k, jk⟩, hk, hfin, hkey⟩ := hdel.pending y hy hyd hyt hyf
    have hki : k ≠ i := by
      rintro rfl
      obtain rfl := Slots.eq_of_mem hs.nodup hk hjm
      rw [hno] at hfin
      cases hfin
    exact ⟨(k, jk), Slots.mem_put_ne hk hki, hfin, hkey.trans hyk⟩
  cases he with
  | quiet hfree =>
    obtain ⟨⟨k, jk⟩, hk, hfin, hkey⟩ := hdel.pending x hx hd ht hf
    by_cases hki : k = i
    · -- the row is there, so its removal is not quiet
      subst hki
      obtain rfl := Slots.eq_of_mem hs.nodup hk hjm
      have hlive : s.table.live jk.key = some x := hkey ▸ hs.table.live_eq hx hd
      rw [hfree (Job.removes_of_finalizing hfin)] at hlive
      cases hlive
    · exact ⟨(k, jk), Slots.mem_put_ne hk hki, hfin, hkey⟩
  | @insert c o attempt _ hpc hc =>
    obtain ⟨-, rfl⟩ := ResourceTable.create_some hc
    rcases List.mem_append.mp hx with hx | hx
    · exact hkeep x hx hd ht hf rfl (by simp [Job.finalizing, hpc])
    · obtain rfl := List.mem_singleton.mp hx
      cases ht
  | @write w y hpc hrv hy =>
    have hno : j.finalizing = false := by simp [Job.finalizing, hpc]
    obtain ⟨hym, hyk, hyd⟩ := ResourceTable.live_some (ResourceTable.liveAt_some hy).1
    rcases ResourceTable.mem_store hx with rfl | ⟨hx, -⟩
    · cases w with
      | update o =>
        have ho : o.deletionTimestamp.isSome = true := by
          by_contra hnone
          have ht' : (o.deletionTimestamp.or y.deletionTimestamp).isSome = true := ht
          rw [Option.isSome_or] at ht'
          exact hnone ((hok.update hpc hy).2 (by simpa [hnone] using ht') hf)
        have hfin := perform_finalizing hpc hrv hy ho hf hp
        exact ⟨(i, j'), Slots.mem_put_self hjm, hfin, hsame.key.trans hyk.symm⟩
      | updateStatus o => exact hkeep y hym hyd ht hf rfl hno
      | mark o n =>
        have hne : o.finalizers ≠ [] := by simpa only [Job.Gracefully, hpc] using hok
        exact absurd hf hne
    · exact hkeep x hx hd ht hf rfl hno
  | @remove y hr hy =>
    rcases ResourceTable.mem_store hx with rfl | ⟨hx, hne⟩
    · cases hd
    · obtain ⟨⟨k, jk⟩, hk, hfin, hkey⟩ := hdel.pending x hx hd ht hf
      by_cases hki : k = i
      · subst hki
        obtain rfl := Slots.eq_of_mem hs.nodup hk hjm
        have hlive : s.table.live jk.key = some x := hkey ▸ hs.table.live_eq hx hd
        rw [hlive] at hy
        obtain rfl := Option.some.inj hy
        exact absurd rfl hne
      · exact ⟨(k, jk), Slots.mem_put_ne hk hki, hfin, hkey⟩

theorem marked_perform (hs : s.Inv) (hdel : s.Deleting) {i : ℕ} {j j' : Job V}
    {t : ResourceTable V} (hj : s.jobs.get? i = some j) (hok : j.Gracefully s.table)
    (hp : j.perform merge s.table = some (t, j')) {x : Resource V} (hx : x ∈ t.rows)
    (ht : x.deletionTimestamp.isSome = true) : s.Targeted x.id := by
  obtain ⟨cs, he, -, -, -, -⟩ := Job.perform_effect hp
  rcases he.mem_rows hx with hold | ⟨c, o, attempt, -, -, rfl⟩ | ⟨w, y, hpc, hy, rfl⟩ |
    ⟨y, -, hy, rfl⟩
  · exact hdel.marked x hold ht
  · cases ht
  · rw [(w.apply_of s.table y).1]
    exact written_targeted hs hdel hj hok hpc hy ht
  · exact hdel.marked y (ResourceTable.live_some hy).1 ht

/-- A row that a request other than a deletion removes is the one its update wrote. -/
theorem finalized_effect (hs : s.Inv) (hdel : s.Deleting) {i : ℕ} {j : Job V}
    {t : ResourceTable V} {cs : List (Change V)} (hj : s.jobs.get? i = some j)
    (hok : j.Gracefully s.table) (he : Job.Effect s.table j t cs)
    (hreq : j.request.isDelete = false) {c : Change V} (hc : c ∈ cs)
    (hd : c.after.deletedAt.isSome = true) : s.Targeted c.after.id := by
  have hjm := Slots.mem_of_get? hj
  cases he with
  | quiet => cases hc
  | insert => cases hc
  | @write w x hpc _ hx =>
    obtain rfl := List.mem_singleton.mp hc
    have hdel := (w.apply_of s.table x).2.2.2.2
    have hlive := (ResourceTable.live_some (ResourceTable.liveAt_some hx).1).2.2
    simp [hdel, hlive] at hd
  | @remove x hr hx =>
    obtain rfl := List.mem_singleton.mp hc
    cases hpc : j.pc with
    | finalize o =>
      have hg : ∃ c ∈ j.changes.getLast?, c.after.id = x.id := by
        unfold Job.Gracefully at hok
        rw [hpc] at hok
        exact hok x hx
      obtain ⟨c, hc, hid⟩ := hg
      have htarget := hdel.finalizing _ hjm (by simp [Job.finalizing, hpc]) c hc
      exact hid ▸ htarget
    | remove o =>
      have hh := hs.holds _ hjm
      rw [hpc] at hh
      rw [hh.1] at hreq
      cases hreq
    | _ => simp [Job.removes, Pc.removes, hpc] at hr

theorem Deleting.perform (hs : s.Inv) (hdel : s.Deleting) {i : ℕ} {j j' : Job V}
    {t : ResourceTable V} (hj : s.jobs.get? i = some j) (hok : j.Gracefully s.table)
    (hp : j.perform merge s.table = some (t, j')) : Deleting ⟨t, s.jobs.put i j'⟩ := by
  have hjm := Slots.mem_of_get? hj
  obtain ⟨cs, he, hcs, hsame, -, hreads⟩ := Job.perform_effect hp
  have hput : ∀ {id}, s.Targeted id → (⟨t, s.jobs.put i j'⟩ : Registry V).Targeted id :=
    fun h => h.put hs hj hsame.request hreads
  refine ⟨?_, ?_, ?_, ?_⟩
  · intro x hx hd ht hf
    exact pending_perform hs hdel hj hok hp hx hd ht hf
  · intro x hx ht
    exact hput (marked_perform hs hdel hj hok hp hx ht)
  · rintro ⟨k, jk⟩ hk hfin c hc
    rcases Slots.mem_put hk with ⟨rfl, rfl⟩ | ⟨-, hk⟩
    · rcases Job.perform_removes hp (Job.removes_of_finalizing hfin) with
        ⟨x, -, -, -, -, hpc⟩ | ⟨o, x, hpc, hx, -, -, ho, -, hch⟩
      · simp [Job.finalizing, hpc] at hfin
      · rw [hch, List.getLast?_concat] at hc
        obtain rfl := Option.some.inj hc
        have ht : ((Write.update o).apply s.table x).deletionTimestamp.isSome = true := by
          simp [Write.apply, ResourceTable.updated, Option.isSome_or, ho]
        have htarget : s.Targeted x.id := written_targeted hs hdel hj hok hpc hx ht
        exact hput htarget
    · exact hput (hdel.finalizing _ hk hfin c hc)
  · rintro ⟨k, jk⟩ hk hreq c hc hd
    rcases Slots.mem_put hk with ⟨rfl, rfl⟩ | ⟨-, hk⟩
    · have hreq' : j.request.isDelete = false := hsame.request ▸ hreq
      rw [hcs] at hc
      rcases List.mem_append.mp hc with hc | hc
      · exact hput (hdel.finalized _ hjm hreq' c hc hd)
      · exact hput (finalized_effect hs hdel hj hok he hreq' hc hd)
    · exact hput (hdel.finalized _ hk hreq c hc hd)

omit [DecidableEq V] in
theorem Deleting.fail (hs : s.Inv) (hdel : s.Deleting) {i : ℕ} {text : String} {j j' : Job V}
    (hj : s.jobs.get? i = some j) (hno : j.finalizing = false)
    (hf : j.fail merge s.table.clock text = some j') :
    Deleting { s with jobs := s.jobs.put i j' } := by
  have hjm := Slots.mem_of_get? hj
  obtain ⟨hsame, hch, hr⟩ := Job.fail_same hf
  have hput : ∀ {id}, s.Targeted id →
      (⟨s.table, s.jobs.put i j'⟩ : Registry V).Targeted id :=
    fun h => h.put hs hj hsame.request (fun x hx => hr ▸ hx)
  refine ⟨?_, ?_, ?_, ?_⟩
  · intro x hx hd ht hfin
    obtain ⟨⟨k, jk⟩, hk, hkf, hkey⟩ := hdel.pending x hx hd ht hfin
    have hki : k ≠ i := by
      rintro rfl
      obtain rfl := Slots.eq_of_mem hs.nodup hk hjm
      rw [hno] at hkf
      cases hkf
    exact ⟨(k, jk), Slots.mem_put_ne hk hki, hkf, hkey⟩
  · intro x hx ht
    exact hput (hdel.marked x hx ht)
  · rintro ⟨k, jk⟩ hk hfin c hc
    rcases Slots.mem_put hk with ⟨rfl, rfl⟩ | ⟨-, hk⟩
    · have hrem := Job.fail_removes hf
      rw [Job.removes_of_finalizing hfin] at hrem
      cases hrem
    · exact hput (hdel.finalizing _ hk hfin c hc)
  · rintro ⟨k, jk⟩ hk hreq c hc hd
    rcases Slots.mem_put hk with ⟨rfl, rfl⟩ | ⟨-, hk⟩
    · exact hput (hdel.finalized _ hjm (hsame.request ▸ hreq) c (hch ▸ hc) hd)
    · exact hput (hdel.finalized _ hk hreq c hc hd)

omit [DecidableEq V] in
theorem Deleting.start (hdel : s.Deleting) (i : ℕ) (config : ResourceConfig) (ns : String)
    (request : Request V) :
    Deleting { s with jobs := (i, .start s.table.clock config ns request) :: s.jobs } := by
  have hcons : ∀ {id}, s.Targeted id → (⟨s.table,
      (i, .start s.table.clock config ns request) :: s.jobs⟩ : Registry V).Targeted id := by
    rintro id ⟨p, hp, h⟩
    exact ⟨p, List.mem_cons_of_mem _ hp, h⟩
  have hnew : (Job.start s.table.clock config ns request).finalizing ≠ true := by
    intro hfin
    have hr := Job.removes_of_finalizing hfin
    rw [Job.removes, Job.start_removes] at hr
    cases hr
  refine ⟨?_, ?_, ?_, ?_⟩
  · intro x hx hd ht hf
    obtain ⟨p, hp, h⟩ := hdel.pending x hx hd ht hf
    exact ⟨p, List.mem_cons_of_mem _ hp, h⟩
  · intro x hx ht
    exact hcons (hdel.marked x hx ht)
  · intro p hp hfin c hc
    rcases List.mem_cons.mp hp with rfl | hp
    · exact absurd hfin hnew
    · exact hcons (hdel.finalizing p hp hfin c hc)
  · intro p hp hreq c hc hd
    rcases List.mem_cons.mp hp with rfl | hp
    · cases hc
    · exact hcons (hdel.finalized p hp hreq c hc hd)

theorem Deleting.step (hs : s.Inv) (hdel : s.Deleting) (hok : s.CompletesDeletions a)
    (h : step merge s a = some s') : s'.Deleting := by
  rcases step_cases h with ⟨i, config, ns, request, -, -, rfl⟩ | ⟨i, j, t, j', rfl, hj, hp, rfl⟩ |
    ⟨i, text, j, j', rfl, hj, hf, rfl⟩ | ⟨-, rfl⟩
  · exact hdel.start i config ns request
  · exact hdel.perform hs hj (hok j hj) hp
  · exact hdel.fail hs hj (hok j hj) hf
  · exact ⟨hdel.pending, hdel.marked, hdel.finalizing, hdel.finalized⟩

/-- A marked row loses its last finalizer through a body that leaves the timestamp out. -/
def strandingRun : List (Action Unit) :=
  request 0 (post "u" (agentBody none none ["f"])) 2 ++ request 1 (delete none) 2 ++
    request 2 (put (agentBody (some 2) none [])) 3

def idle (s : Registry Unit) : Bool :=
  s.jobs.all fun p => match p.2.pc with
    | .finished _ => true
    | _ => false

theorem idle_iff (s : Registry Unit) : s.idle = true ↔ s.Idle := by
  have hpc : ∀ pc : Pc Unit,
      (match pc with | .finished _ => true | _ => false) = true ↔ ∃ r, pc = .finished r := by
    intro pc
    cases pc <;> simp
  simp only [idle, Idle, List.all_eq_true, hpc]

end Registry
end Ark
