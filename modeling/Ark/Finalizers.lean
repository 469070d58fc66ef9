import Ark.RegistryInvariant

/-!
# Finalizers and the removal of a row

`Delete` by name does not look at the finalizers. A job that is about to remove a row has decided
so on a version without finalizers; what the row carries when the statement runs is up to the
writers in between.
-/

namespace Ark

variable {V : Type*}

namespace Job

/-- The row that the next statement writes, by key. -/
def target (j : Job V) : ResourceKey :=
  match j.pc with
  | .create _ o _ => ⟨j.config.kind, o.ns, o.name⟩
  | _ => j.key

/-- The next statement succeeds and stores an object with finalizers. -/
def storesFinalizers (t : ResourceTable V) (j : Job V) : Bool :=
  match j.pc with
  | .create _ o _ => decide (o.finalizers ≠ []) && (t.live j.target).isNone
  | .write (.update o) =>
    decide (o.finalizers ≠ []) && (t.liveAt j.target (o.resourceVersion.getD 0)).isSome
  | _ => false

end Job

namespace Registry

/-- No object with finalizers is stored under the key of a row that another request, having seen
no finalizers, is about to remove. -/
def KeepsRemovalsClear (s : Registry V) : Action V → Prop
  | .perform i => ∀ j ∈ s.jobs.get? i, j.storesFinalizers s.table = true →
      ∀ p ∈ s.jobs, p.2.removes = true → p.2.key ≠ j.target
  | _ => True

instance (s : Registry V) (a : Action V) : Decidable (s.KeepsRemovalsClear a) :=
  match a with
  | .start _ _ _ _ => inferInstanceAs (Decidable True)
  | .perform i => inferInstanceAs (Decidable (∀ j ∈ s.jobs.get? i,
      j.storesFinalizers s.table = true → ∀ p ∈ s.jobs, p.2.removes = true → p.2.key ≠ j.target))
  | .fail _ _ => inferInstanceAs (Decidable True)
  | .tick => inferInstanceAs (Decidable True)

/-- Rows are removed only while their finalizers list is empty: the column of a tombstone is the
one its row had when `deleted_at` was set. -/
def FinalizersBlockRemoval (s : Registry V) : Prop :=
  ∀ x ∈ s.table.rows, x.deletedAt.isSome = true → x.finalizers = []

/-- Rows that are about to be removed carry no finalizers. -/
def RemovalsClear (s : Registry V) : Prop :=
  ∀ p ∈ s.jobs, p.2.removes = true → ∀ x, s.table.live p.2.key = some x → x.finalizers = []

variable [DecidableEq V] {merge : V → V → V} {s s' : Registry V} {a : Action V}

/-- The version that a statement writes has finalizers only if the statement stores them or the
version it replaces has them. -/
theorem write_finalizers (hs : s.Inv) {i : ℕ} {j : Job V} (hj : (i, j) ∈ s.jobs) {w : Write V}
    {x : Resource V} (hpc : j.pc = .write w) (hx : s.table.liveAt j.key w.rv = some x)
    (hst : j.storesFinalizers s.table = false) :
    (w.apply s.table x).finalizers = [] ∨ (w.apply s.table x).finalizers = x.finalizers := by
  cases w with
  | update o =>
    left
    have hkey : j.target = j.key := by simp [Job.target, hpc]
    by_contra hne
    have hne' : o.finalizers ≠ [] := hne
    have hx' : s.table.liveAt j.key (o.resourceVersion.getD 0) = some x := hx
    simp [Job.storesFinalizers, hpc, hkey, hx', hne'] at hst
  | updateStatus o =>
    right
    rfl
  | mark o n =>
    right
    have hh := hs.holds _ hj
    rw [hpc] at hh
    obtain ⟨-, y, hy, rfl, -, -, -⟩ := hh
    have hv := hs.reads _ hj y hy
    obtain rfl : x = y := hv.liveAt_eq hx
    rfl

/-- The row under a key that is about to be removed stays without finalizers. -/
theorem removalsClear_effect (hs : s.Inv) (hclear : s.RemovalsClear) {i : ℕ} {j : Job V}
    {t : ResourceTable V} {cs : List (Change V)} (hj : s.jobs.get? i = some j)
    (he : Job.Effect s.table j t cs) (hok : s.KeepsRemovalsClear (.perform i)) {p : ℕ × Job V}
    (hp : p ∈ s.jobs) (hr : p.2.removes = true) {x : Resource V} (hx : t.live p.2.key = some x) :
    x.finalizers = [] := by
  obtain ⟨hmem, hkey, hd⟩ := ResourceTable.live_some hx
  have hjm := Slots.mem_of_get? hj
  rcases he.mem_rows hmem with hold | ⟨c, o, attempt, hpc, hc, rfl⟩ | ⟨w, y, hpc, hy, rfl⟩ |
    ⟨y, -, -, rfl⟩
  · apply hclear p hp hr
    rw [← hkey]
    exact hs.table.live_eq hold hd
  · have htarget : j.target = p.2.key := by
      simpa [Job.target, hpc, ResourceTable.newRow] using hkey
    by_contra hne
    have hfree := (ResourceTable.create_some hc).1
    have hst : j.storesFinalizers s.table = true := by
      have hne' : o.finalizers ≠ [] := hne
      simp only [Job.storesFinalizers, hpc, Job.target, hfree]
      simp [hne']
    exact hok j hj hst p hp hr htarget.symm
  · obtain ⟨-, hykey, -⟩ := w.apply_of s.table y
    have hlive := (ResourceTable.liveAt_some hy).1
    have hjkey : j.key = p.2.key := (ResourceTable.live_some hlive).2.1.symm.trans (hykey ▸ hkey)
    cases hst : j.storesFinalizers s.table with
    | true =>
      have htarget : j.target = p.2.key := by simpa [Job.target, hpc] using hjkey
      exact absurd htarget.symm (hok j hj hst p hp hr)
    | false =>
      rcases write_finalizers hs hjm hpc hy hst with hf | hf
      · exact hf
      · rw [hf]
        exact hclear p hp hr y (hjkey ▸ hlive)
  · cases hd

theorem removalsClear_step (hs : s.Inv) (hclear : s.RemovalsClear)
    (hok : s.KeepsRemovalsClear a) (h : step merge s a = some s') : s'.RemovalsClear := by
  rcases step_cases h with ⟨i, config, ns, request, -, -, rfl⟩ | ⟨i, j, t, j', rfl, hj, hp, rfl⟩ |
    ⟨i, text, j, j', -, hj, hf, rfl⟩ | ⟨-, rfl⟩
  · intro p hp hr x hx
    rcases List.mem_cons.mp hp with rfl | hp
    · rw [Job.removes, Job.start_removes] at hr
      cases hr
    · exact hclear p hp hr x hx
  · obtain ⟨cs, he, -, hsame, -, -⟩ := Job.perform_effect hp
    rintro ⟨k, jk⟩ hk hr x hx
    rcases Slots.mem_put hk with ⟨rfl, rfl⟩ | ⟨-, hk⟩
    · -- the job has come to its own removal
      rcases Job.perform_removes hp hr with ⟨y, hy, hf, rfl, -⟩ |
        ⟨o, y, hpc, hy, rfl, hf, -, -⟩
      · rw [hsame.key, hy] at hx
        exact Option.some.inj hx ▸ hf
      · obtain ⟨hmem, hkey, hd⟩ := ResourceTable.live_some hx
        rcases ResourceTable.mem_store hmem with rfl | ⟨hold, hid⟩
        · exact hf
        · have hlive := (ResourceTable.liveAt_some hy).1
          have hxy : s.table.live j.key = some x := by
            rw [← hsame.key, ← hkey]
            exact hs.table.live_eq hold hd
          rw [hlive] at hxy
          obtain rfl := Option.some.inj hxy
          exact absurd rfl hid
    · exact removalsClear_effect hs hclear hj he hok hk hr hx
  · rintro ⟨k, jk⟩ hk hr x hx
    rcases Slots.mem_put hk with ⟨rfl, rfl⟩ | ⟨-, hk⟩
    · have hno := Job.fail_removes hf
      simp [hno] at hr
    · exact hclear _ hk hr x hx
  · exact hclear

theorem finalizersBlockRemoval_step (hclear : s.RemovalsClear) (hfin : s.FinalizersBlockRemoval)
    (h : step merge s a = some s') : s'.FinalizersBlockRemoval := by
  rcases step_cases h with ⟨i, config, ns, request, -, -, rfl⟩ | ⟨i, j, t, j', -, hj, hp, rfl⟩ |
    ⟨i, text, j, j', -, -, -, rfl⟩ | ⟨-, rfl⟩
  · exact hfin
  · obtain ⟨cs, he, -, -, -, -⟩ := Job.perform_effect hp
    intro x hx hd
    rcases he.mem_rows hx with hold | ⟨c, o, attempt, -, -, rfl⟩ | ⟨w, y, -, hy, rfl⟩ |
      ⟨y, hr, hy, rfl⟩
    · exact hfin x hold hd
    · cases hd
    · obtain ⟨-, -, -, -, hdel⟩ := w.apply_of s.table y
      rw [hdel, (ResourceTable.live_some (ResourceTable.liveAt_some hy).1).2.2] at hd
      cases hd
    · exact hclear (i, j) (Slots.mem_of_get? hj) hr y hy
  · exact hfin
  · exact hfin

/-- In every run in which no finalizers are stored over a removal already decided, a row is
removed only with an empty finalizers list. -/
theorem finalizers_block_removal (h : (machine merge).Reachable KeepsRemovalsClear s) :
    s.FinalizersBlockRemoval := by
  have hclear : ∀ s, (machine merge).Reachable KeepsRemovalsClear s → s.RemovalsClear := by
    intro s hs
    refine hs.invariant_of (fun s hs => reachable_inv hs) ?_ ?_
    · rintro s rfl
      intro p hp
      cases hp
    · intro s a t hinv hc hok hstep
      exact removalsClear_step hinv hc hok hstep
  refine h.invariant_of hclear ?_ ?_
  · rintro s rfl
    intro x hx
    cases hx
  · intro s a t hc hf _ hstep
    exact finalizersBlockRemoval_step hc hf hstep

/-! ### A race -/

def agentConfig : ResourceConfig := ⟨"Agent", "agent"⟩

/-- A creation that admits everything. -/
def plainCreation (uuid : String) : Creation Unit :=
  ⟨fun o => .ok (o.annotations, o.spec), uuid, fun _ => "generated"⟩

def agentBody (resourceVersion deletionTimestamp : Option ℕ) (finalizers : List String) :
    Object Unit where
  name := "a"
  generateName := ""
  ns := "default"
  uid := ""
  resourceVersion := resourceVersion
  generation := 0
  creationTimestamp := none
  deletionTimestamp := deletionTimestamp
  labels := []
  annotations := []
  finalizers := finalizers
  ownerReferences := []
  spec := ()
  status := ()

/-- A `PUT` of the body, which admission accepts. -/
def put (body : Object Unit) : Request Unit :=
  .update "a" (fun _ => .ok body) (fun o _ => .ok (o.annotations, o.spec)) false (plainCreation "")

def post (uuid : String) (body : Object Unit) : Request Unit := .create body (plainCreation uuid)

def delete (preconditions : Option Preconditions) : Request Unit :=
  .delete "a" (fun _ => none) preconditions

/-- The actions of request `i` up to its `n`-th statement. -/
def request (i : ℕ) (r : Request Unit) (n : ℕ) : List (Action Unit) :=
  .start i agentConfig "default" r :: List.replicate n (.perform i)

/-- A finalizer is added between the read of a deletion and its removal by name. -/
def finalizerRace : List (Action Unit) :=
  request 0 (post "u" (agentBody none none [])) 2 ++ request 1 (delete none) 1 ++
    request 2 (put (agentBody (some 1) none ["f"])) 3 ++ [.perform 1]

/-- The registry of objects without documents. -/
def agents : Machine (Registry Unit) (Action Unit) := machine fun _ new => new

theorem removed_with_finalizers :
    ¬ ∀ s, agents.Reachable Machine.always s → s.FinalizersBlockRemoval := by
  intro h
  obtain ⟨s, hs, hp⟩ : ∃ s, agents.Reachable Machine.always s ∧
      (s.table.rows.any fun x => x.deletedAt.isSome && !x.finalizers.isEmpty) = true :=
    Machine.exists_reachable (b := fun _ _ => true) rfl (fun _ _ _ => trivial)
      (l := finalizerRace) (by decide)
  obtain ⟨x, hx, hb⟩ := List.any_eq_true.mp hp
  simp only [Bool.and_eq_true, Bool.not_eq_true', List.isEmpty_eq_false_iff] at hb
  exact hb.2 (h s hs x hx hb.1)

/-- The same requests one after the other. -/
def finalizerSerial : List (Action Unit) :=
  request 0 (post "u" (agentBody none none [])) 2 ++
    request 1 (put (agentBody (some 1) none ["f"])) 3 ++ request 2 (delete none) 2 ++
    request 3 (put (agentBody (some 3) (some 0) [])) 3

theorem finalizers_block_removal_serial : ∃ s, agents.Reachable KeepsRemovalsClear s ∧
    (s.table.rows.any fun x => x.deletedAt.isSome) = true ∧ s.FinalizersBlockRemoval := by
  obtain ⟨s, hs, hp⟩ : ∃ s, agents.Reachable KeepsRemovalsClear s ∧
      (s.table.rows.any fun x => x.deletedAt.isSome) = true :=
    Machine.exists_reachable (b := fun s a => decide (s.KeepsRemovalsClear a)) rfl
      (fun _ _ => of_decide_eq_true) (l := finalizerSerial) (by decide)
  exact ⟨s, hs, hp, finalizers_block_removal hs⟩

end Registry
end Ark
