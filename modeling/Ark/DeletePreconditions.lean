import Ark.Finalizers

/-!
# Deletions with preconditions

The preconditions are compared with the first read. Marking names the version of that read, so it
is atomic with the comparison; the removal of a row without finalizers goes by name only.
-/

namespace Ark

variable {V : Type*}

/-- The row has the UID and the version that the preconditions name. -/
def Preconditions.Meets (pc : Preconditions) (x : Resource V) : Prop :=
  (∀ uid ∈ pc.uid, x.uid = uid) ∧ ∀ rv ∈ pc.resourceVersion, x.resourceVersion = rv

theorem Preconditions.versionMismatch_none {pc : Preconditions} {x : Resource V}
    (h : mismatch.versionMismatch pc x.reconstructObject = none) :
    ∀ rv ∈ pc.resourceVersion, x.resourceVersion = rv := by
  intro rv hrv
  have hrv' : pc.resourceVersion = some rv := hrv
  simp only [mismatch.versionMismatch, hrv'] at h
  by_contra hne
  have hne' : some rv ≠ x.reconstructObject.resourceVersion := by
    intro heq
    exact hne (Option.some.inj heq).symm
  simp [hne'] at h

theorem Preconditions.meets_of_mismatch {pc : Preconditions} {x : Resource V}
    (h : pc.mismatch x.reconstructObject = none) : pc.Meets x := by
  unfold mismatch at h
  split at h
  next uid huid =>
    by_cases hne : uid ≠ x.reconstructObject.uid
    · rw [if_pos hne] at h
      cases h
    · rw [if_neg hne] at h
      refine ⟨?_, versionMismatch_none h⟩
      intro u hu
      have : uid = u := Option.some.inj (huid.symm.trans hu)
      exact this ▸ (not_not.mp hne).symm
  next hnone =>
    refine ⟨?_, versionMismatch_none h⟩
    intro u hu
    rw [hnone] at hu
    cases hu

namespace Job

/-- Where a deletion with preconditions stands: it has changed nothing until it is answered, and a
positive answer means that it has changed the row or found it marked already. -/
def Answers (p : Preconditions) (j : Job V) : Prop :=
  match j.pc with
  | .deleteRead | .write (.mark _ _) | .missed (.mark _ _) | .remove _ | .finished (.error _) =>
    j.changes = []
  | .finished (.ok (o, _)) =>
    j.changes ≠ [] ∨
      ∃ x ∈ j.reads, o = x.reconstructObject ∧ p.Meets x ∧ x.deletionTimestamp.isSome = true
  | _ => False

/-- The next statement gives the row under `key` another UID than `p` names, or a new version
where `p` names one. -/
def disturbs (t : ResourceTable V) (j : Job V) (p : Preconditions) : Bool :=
  match j.pc with
  | .create _ o _ =>
    (t.live j.target).isNone && (p.uid.any (fun uid => uid != o.uid) || p.resourceVersion.isSome)
  | .write w => (t.liveAt j.target w.rv).isSome && p.resourceVersion.isSome
  | _ => false

theorem beginMark_answers {p : Preconditions} {j : Job V} {x : Resource V} {n : ℕ}
    (hc : j.changes = []) (hx : x ∈ j.reads) (hm : p.Meets x)
    (hpc : j.pc = beginMark x.reconstructObject n) : j.Answers p := by
  unfold beginMark at hpc
  split at hpc
  next hd =>
    unfold Answers
    rw [hpc]
    exact .inr ⟨x, hx, rfl, hm, hd⟩
  next =>
    unfold Answers
    rw [hpc]
    exact hc

theorem afterDeleteRead_answers {p : Preconditions} {j : Job V} {name : String}
    {d : Object V → Option String} {r : Except BackendError (Object V)} (hc : j.changes = [])
    (hr : ∀ o, r = .ok o → ∃ x ∈ j.reads, o = x.reconstructObject)
    (hpc : j.pc = afterDeleteRead name d (some p) r) : j.Answers p := by
  unfold afterDeleteRead at hpc
  split at hpc
  next =>
    unfold Answers
    rw [hpc]
    exact hc
  next o =>
    obtain ⟨x, hx, rfl⟩ := hr o rfl
    split at hpc
    next =>
      unfold Answers
      rw [hpc]
      exact hc
    next =>
      split at hpc
      next =>
        unfold Answers
        rw [hpc]
        exact hc
      next hm =>
        by_cases hf : x.reconstructObject.finalizers ≠ []
        · rw [if_pos hf] at hpc
          exact beginMark_answers hc hx (Preconditions.meets_of_mismatch hm) hpc
        · rw [if_neg hf] at hpc
          unfold Answers
          rw [hpc]
          exact hc

/-- A deletion with preconditions does not retry its marking. -/
theorem afterWrite_mark_error {config : ResourceConfig} {request : Request V} {now n : ℕ}
    {o : Object V} {p : Preconditions} {err : BackendError}
    (hreq : request.preconditions = some p) :
    afterWrite config request now (.mark o n) (.error err) =
      .finished (.error (handleUpdateError config "delete" request.name err)) := by
  simp [afterWrite, hreq, markAttempts]

theorem perform_answers [DecidableEq V] {merge : V → V → V} {t t' : ResourceTable V}
    {j j' : Job V} {p : Preconditions} (hreq : j.request.preconditions = some p)
    (hj : j.Answers p) (h : j.perform merge t = some (t', j')) : j'.Answers p := by
  obtain ⟨config, ns, request, pc, reads, changes⟩ := j
  cases request with
  | delete name d pre =>
    obtain rfl : pre = some p := hreq
    have hreq' : (Request.delete name d (some p)).preconditions = some p := rfl
    cases pc with
    | deleteRead =>
      obtain ⟨-, rfl⟩ := Prod.mk.inj (Option.some.inj h)
      exact afterDeleteRead_answers hj (get_reads merge t ⟨_, _, _, _, _, _⟩) rfl
    | write w =>
      cases w with
      | mark o n =>
        obtain rfl := congrArg Prod.snd (Option.some.inj h)
        unfold compareAndSwap
        split
        next =>
          rw [afterWrite_mark_error hreq']
          exact hj
        next =>
          split
          · exact hj
          · simp [Answers, afterWrite]
      | _ => cases hj
    | missed w =>
      cases w with
      | mark o n =>
        obtain ⟨-, rfl⟩ := Prod.mk.inj (Option.some.inj h)
        rw [afterWrite_mark_error hreq']
        exact hj
      | _ => cases hj
    | remove o =>
      obtain rfl := congrArg Prod.snd (Option.some.inj h)
      unfold softDelete
      split
      · exact hj
      · simp [Answers, removed]
    | finished => cases h
    | _ => cases hj
  | _ => cases hreq

theorem fail_answers {merge : V → V → V} {now : ℕ} {text : String} {j j' : Job V}
    {p : Preconditions} (hreq : j.request.preconditions = some p) (hj : j.Answers p)
    (h : j.fail merge now text = some j') : j'.Answers p := by
  obtain ⟨config, ns, request, pc, reads, changes⟩ := j
  cases request with
  | delete name d pre =>
    obtain rfl : pre = some p := hreq
    have hreq' : (Request.delete name d (some p)).preconditions = some p := rfl
    cases pc with
    | deleteRead =>
      obtain rfl := Option.some.inj h
      exact hj
    | write w =>
      cases w with
      | mark o n =>
        obtain rfl := Option.some.inj h
        rw [afterWrite_mark_error hreq']
        exact hj
      | _ => cases hj
    | missed w =>
      cases w with
      | mark o n =>
        obtain rfl := Option.some.inj h
        rw [afterWrite_mark_error hreq']
        exact hj
      | _ => cases hj
    | remove o =>
      obtain rfl := Option.some.inj h
      exact hj
    | finished => cases h
    | _ => cases hj
  | _ => cases hreq

end Job

namespace Registry

/-- Nothing that the preconditions of a deletion name changes between its read of a row without
finalizers and the removal of that row. -/
def KeepsPreconditions (s : Registry V) : Action V → Prop
  | .perform i => ∀ j ∈ s.jobs.get? i, ∀ q ∈ s.jobs, q.2.removes = true → q.2.key = j.target →
      ∀ p ∈ q.2.request.preconditions, j.disturbs s.table p = false
  | _ => True

instance (s : Registry V) (a : Action V) : Decidable (s.KeepsPreconditions a) :=
  match a with
  | .start _ _ _ _ => inferInstanceAs (Decidable True)
  | .perform i => inferInstanceAs (Decidable (∀ j ∈ s.jobs.get? i, ∀ q ∈ s.jobs,
      q.2.removes = true → q.2.key = j.target → ∀ p ∈ q.2.request.preconditions,
      j.disturbs s.table p = false))
  | .fail _ _ => inferInstanceAs (Decidable True)
  | .tick => inferInstanceAs (Decidable True)

/-- A deletion with preconditions replaces only versions that meet them; when it fails it has
changed nothing, and when it succeeds without a change the row was marked already. -/
structure PreconditionsAtomic (s : Registry V) : Prop where
  changes : ∀ q ∈ s.jobs, ∀ p ∈ q.2.request.preconditions, ∀ c ∈ q.2.changes, p.Meets c.before
  refused : ∀ q ∈ s.jobs, ∀ p ∈ q.2.request.preconditions, ∀ e,
    q.2.pc = .finished (.error e) → q.2.changes = []
  granted : ∀ q ∈ s.jobs, ∀ p ∈ q.2.request.preconditions, ∀ o flag,
    q.2.pc = .finished (.ok (o, flag)) → q.2.changes ≠ [] ∨
      ∃ x ∈ q.2.reads, o = x.reconstructObject ∧ p.Meets x ∧ x.deletionTimestamp.isSome = true

structure PreconditionsInv (s : Registry V) : Prop where
  changes : ∀ q ∈ s.jobs, ∀ p ∈ q.2.request.preconditions, ∀ c ∈ q.2.changes, p.Meets c.before
  answers : ∀ q ∈ s.jobs, ∀ p ∈ q.2.request.preconditions, q.2.Answers p
  removal : ∀ q ∈ s.jobs, q.2.removes = true → ∀ p ∈ q.2.request.preconditions,
    ∀ x, s.table.live q.2.key = some x → p.Meets x

theorem PreconditionsInv.atomic {s : Registry V} (h : s.PreconditionsInv) :
    s.PreconditionsAtomic where
  changes := h.changes
  refused := by
    intro q hq p hp e hpc
    have ha := h.answers q hq p hp
    unfold Job.Answers at ha
    rw [hpc] at ha
    exact ha
  granted := by
    intro q hq p hp o flag hpc
    have ha := h.answers q hq p hp
    unfold Job.Answers at ha
    rw [hpc] at ha
    exact ha

variable [DecidableEq V] {merge : V → V → V} {s s' : Registry V} {a : Action V}

/-- An effect of another request leaves the row that a deletion is about to remove as its
preconditions want it. -/
theorem meets_effect (hs : s.Inv) (hinv : s.PreconditionsInv) {i : ℕ} {j : Job V}
    {t : ResourceTable V} {cs : List (Change V)} (hj : s.jobs.get? i = some j)
    (he : Job.Effect s.table j t cs) (hok : s.KeepsPreconditions (.perform i))
    {q : ℕ × Job V} (hq : q ∈ s.jobs) (hr : q.2.removes = true) {p : Preconditions}
    (hp : p ∈ q.2.request.preconditions) {x : Resource V} (hx : t.live q.2.key = some x) :
    p.Meets x := by
  obtain ⟨hmem, hkey, hd⟩ := ResourceTable.live_some hx
  rcases he.mem_rows hmem with hold | ⟨c, o, attempt, hpc, hc, rfl⟩ | ⟨w, y, hpc, hy, rfl⟩ |
    ⟨y, -, -, rfl⟩
  · apply hinv.removal q hq hr p hp
    rw [← hkey]
    exact hs.table.live_eq hold hd
  · have htarget : j.target = q.2.key := by
      simpa [Job.target, hpc, ResourceTable.newRow] using hkey
    have hfree := (ResourceTable.create_some hc).1
    have hno := hok j hj q hq hr htarget.symm p hp
    have htarget' : j.target = ⟨j.config.kind, o.ns, o.name⟩ := by simp [Job.target, hpc]
    simp only [Job.disturbs, hpc, htarget', hfree, Option.isNone_none, Bool.true_and,
      Bool.or_eq_false_iff] at hno
    refine ⟨?_, ?_⟩
    · intro uid huid
      have huid' : p.uid = some uid := huid
      have heq : uid = o.uid := by simpa [huid'] using hno.1
      exact heq.symm
    · intro rv hrv
      have hrv' : p.resourceVersion = some rv := hrv
      simp [hrv'] at hno
  · obtain ⟨-, hykey, hyuid, -, -⟩ := w.apply_of s.table y
    have hlive := (ResourceTable.liveAt_some hy).1
    have hjkey : j.key = q.2.key := (ResourceTable.live_some hlive).2.1.symm.trans (hykey ▸ hkey)
    have htarget : j.target = j.key := by simp [Job.target, hpc]
    have hno := hok j hj q hq hr (hjkey.symm.trans htarget.symm) p hp
    simp only [Job.disturbs, hpc, htarget, hy, Option.isSome_some, Bool.true_and] at hno
    have hmeets := hinv.removal q hq hr p hp y (hjkey ▸ hlive)
    refine ⟨?_, ?_⟩
    · intro uid huid
      rw [hyuid]
      exact hmeets.1 uid huid
    · intro rv hrv
      have hrv' : p.resourceVersion = some rv := hrv
      simp [hrv'] at hno
  · cases hd

/-- The version that the deletion itself replaces meets its preconditions. -/
theorem own_change_meets (hs : s.Inv) (hinv : s.PreconditionsInv) {i : ℕ} {j : Job V}
    {t : ResourceTable V} {cs : List (Change V)} (hj : (i, j) ∈ s.jobs)
    (he : Job.Effect s.table j t cs) {p : Preconditions} (hp : p ∈ j.request.preconditions)
    {c : Change V} (hc : c ∈ cs) : p.Meets c.before := by
  cases he with
  | quiet => cases hc
  | insert => cases hc
  | @write w x hpc _ hx =>
    obtain rfl := List.mem_singleton.mp hc
    have ha := hinv.answers _ hj p hp
    unfold Job.Answers at ha
    rw [hpc] at ha
    cases w with
    | mark o n =>
      have hh := hs.holds _ hj
      rw [hpc] at hh
      obtain ⟨-, y, hy, rfl, -, -, hm⟩ := hh
      obtain rfl : x = y := (hs.reads _ hj y hy).liveAt_eq hx
      have hp' : j.request.preconditions = some p := hp
      rw [hp'] at hm
      exact Preconditions.meets_of_mismatch hm
    | _ => cases ha
  | @remove x hr hx =>
    obtain rfl := List.mem_singleton.mp hc
    exact hinv.removal _ hj hr p hp x hx

theorem PreconditionsInv.perform (hs : s.Inv) (hinv : s.PreconditionsInv) {i : ℕ} {j j' : Job V}
    {t : ResourceTable V} (hj : s.jobs.get? i = some j) (hok : s.KeepsPreconditions (.perform i))
    (hperf : j.perform merge s.table = some (t, j')) :
    PreconditionsInv ⟨t, s.jobs.put i j'⟩ := by
  have hjm := Slots.mem_of_get? hj
  obtain ⟨cs, he, hcs, hsame, -, -⟩ := Job.perform_effect hperf
  refine ⟨?_, ?_, ?_⟩
  · rintro ⟨k, jk⟩ hk p hp c hc
    rcases Slots.mem_put hk with ⟨rfl, rfl⟩ | ⟨-, hk⟩
    · have hp' : p ∈ j.request.preconditions := hsame.request ▸ hp
      rw [hcs] at hc
      rcases List.mem_append.mp hc with hc | hc
      · exact hinv.changes _ hjm p hp' c hc
      · exact own_change_meets hs hinv hjm he hp' hc
    · exact hinv.changes _ hk p hp c hc
  · rintro ⟨k, jk⟩ hk p hp
    rcases Slots.mem_put hk with ⟨rfl, rfl⟩ | ⟨-, hk⟩
    · have hp' : p ∈ j.request.preconditions := hsame.request ▸ hp
      exact Job.perform_answers hp' (hinv.answers _ hjm p hp') hperf
    · exact hinv.answers _ hk p hp
  · rintro ⟨k, jk⟩ hk hr p hp x hx
    rcases Slots.mem_put hk with ⟨rfl, rfl⟩ | ⟨-, hk⟩
    · have hp' : p ∈ j.request.preconditions := hsame.request ▸ hp
      have ha := hinv.answers _ hjm p hp'
      unfold Job.Answers at ha
      rcases Job.perform_removes hperf hr with ⟨y, hy, -, rfl, hm, -⟩ | ⟨o, y, hpc, -⟩
      · rw [hsame.key, hy] at hx
        obtain rfl := Option.some.inj hx
        have hp'' : j.request.preconditions = some p := hp'
        rw [hp''] at hm
        exact Preconditions.meets_of_mismatch hm
      · rw [hpc] at ha
        cases ha
    · exact meets_effect hs hinv hj he hok hk hr hp hx

omit [DecidableEq V] in
theorem PreconditionsInv.fail (hinv : s.PreconditionsInv) {i : ℕ} {text : String} {j j' : Job V}
    (hj : s.jobs.get? i = some j) (hf : j.fail merge s.table.clock text = some j') :
    PreconditionsInv { s with jobs := s.jobs.put i j' } := by
  have hjm := Slots.mem_of_get? hj
  obtain ⟨hsame, hch, -⟩ := Job.fail_same hf
  refine ⟨?_, ?_, ?_⟩
  · rintro ⟨k, jk⟩ hk p hp c hc
    rcases Slots.mem_put hk with ⟨rfl, rfl⟩ | ⟨-, hk⟩
    · exact hinv.changes _ hjm p (hsame.request ▸ hp) c (hch ▸ hc)
    · exact hinv.changes _ hk p hp c hc
  · rintro ⟨k, jk⟩ hk p hp
    rcases Slots.mem_put hk with ⟨rfl, rfl⟩ | ⟨-, hk⟩
    · have hp' : p ∈ j.request.preconditions := hsame.request ▸ hp
      exact Job.fail_answers hp' (hinv.answers _ hjm p hp') hf
    · exact hinv.answers _ hk p hp
  · rintro ⟨k, jk⟩ hk hr p hp x hx
    rcases Slots.mem_put hk with ⟨rfl, rfl⟩ | ⟨-, hk⟩
    · rw [Job.fail_removes hf] at hr
      cases hr
    · exact hinv.removal _ hk hr p hp x hx

omit [DecidableEq V] in
theorem PreconditionsInv.start (hinv : s.PreconditionsInv) (i : ℕ) (config : ResourceConfig)
    (ns : String) (request : Request V) :
    PreconditionsInv { s with jobs := (i, .start s.table.clock config ns request) :: s.jobs } := by
  refine ⟨?_, ?_, ?_⟩
  · intro q hq p hp c hc
    rcases List.mem_cons.mp hq with rfl | hq
    · cases hc
    · exact hinv.changes q hq p hp c hc
  · intro q hq p hp
    rcases List.mem_cons.mp hq with rfl | hq
    · cases request with
      | delete => rfl
      | _ => cases hp
    · exact hinv.answers q hq p hp
  · intro q hq hr p hp x hx
    rcases List.mem_cons.mp hq with rfl | hq
    · rw [Job.removes, Job.start_removes] at hr
      cases hr
    · exact hinv.removal q hq hr p hp x hx

theorem PreconditionsInv.step (hs : s.Inv) (hinv : s.PreconditionsInv)
    (hok : s.KeepsPreconditions a) (h : step merge s a = some s') : s'.PreconditionsInv := by
  rcases step_cases h with ⟨i, config, ns, request, -, -, rfl⟩ | ⟨i, j, t, j', rfl, hj, hp, rfl⟩ |
    ⟨i, text, j, j', -, hj, hf, rfl⟩ | ⟨-, rfl⟩
  · exact hinv.start i config ns request
  · exact hinv.perform hs hj hok hp
  · exact hinv.fail hj hf
  · exact ⟨hinv.changes, hinv.answers, hinv.removal⟩

/-- In every run in which nothing touches what the preconditions of a pending removal name, the
preconditions are atomic with the deletion. -/
theorem preconditions_atomic (h : (machine merge).Reachable KeepsPreconditions s) :
    s.PreconditionsAtomic := by
  apply PreconditionsInv.atomic
  refine h.invariant_of (fun s hs => reachable_inv hs) ?_ ?_
  · rintro s rfl
    constructor <;> simp [empty]
  · intro s a t hs hinv hok hstep
    exact hinv.step hs hok hstep

/-- An update lands between the comparison and the removal. -/
def preconditionRace : List (Action Unit) :=
  request 0 (post "u" (agentBody none none [])) 2 ++
    request 1 (delete (some ⟨some "u", some 1⟩)) 1 ++
    request 2 (put (agentBody (some 1) none [])) 3 ++ [.perform 1]

theorem removed_against_precondition :
    ¬ ∀ s, agents.Reachable Machine.always s → s.PreconditionsAtomic := by
  intro h
  obtain ⟨s, hs, hp⟩ : ∃ s, agents.Reachable Machine.always s ∧
      (s.jobs.any fun q => decide (q.2.request.preconditions = some ⟨some "u", some 1⟩) &&
        q.2.changes.any fun c => c.before.resourceVersion != 1) = true :=
    Machine.exists_reachable (b := fun _ _ => true) rfl (fun _ _ _ => trivial)
      (l := preconditionRace) (by decide)
  obtain ⟨q, hq, hb⟩ := List.any_eq_true.mp hp
  simp only [Bool.and_eq_true, decide_eq_true_eq, List.any_eq_true, bne_iff_ne] at hb
  obtain ⟨hreq, c, hc, hne⟩ := hb
  exact hne (((h s hs).changes q hq _ hreq c hc).2 1 rfl)

/-- The same deletion when no update intervenes. -/
theorem preconditions_atomic_serial : ∃ s, agents.Reachable KeepsPreconditions s ∧
    (s.jobs.any fun q => q.2.request.preconditions.isSome && !q.2.changes.isEmpty) = true ∧
      s.PreconditionsAtomic := by
  obtain ⟨s, hs, hp⟩ : ∃ s, agents.Reachable KeepsPreconditions s ∧
      (s.jobs.any fun q => q.2.request.preconditions.isSome && !q.2.changes.isEmpty) = true :=
    Machine.exists_reachable (b := fun s a => decide (s.KeepsPreconditions a)) rfl
      (fun _ _ => of_decide_eq_true)
      (l := request 0 (post "u" (agentBody none none [])) 2 ++
        request 1 (delete (some ⟨some "u", some 1⟩)) 2) (by decide)
  exact ⟨s, hs, hp, preconditions_atomic hs⟩

end Registry
end Ark
