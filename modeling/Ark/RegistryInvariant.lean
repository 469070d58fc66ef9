import Ark.Registry

/-!
# What a step of a registry job does

`Effect` lists the ways in which a statement changes the table. The table stays well formed, and
every version that a read has returned keeps its number for itself, so a write that names that
number finds exactly the version read.
-/

namespace Ark

variable {V : Type*}

/-! ### The continuations -/

/-- The next statement removes the row by name. -/
def Pc.removes : Pc V → Bool
  | .finalize _ | .remove _ => true
  | _ => false

/-- The job is neither about to remove a row nor in `markForDeletion`. -/
def Pc.plain : Pc V → Bool
  | .write (.mark _ _) | .missed (.mark _ _) | .refresh _ | .finalize _ | .remove _ => false
  | _ => true

theorem Pc.removes_of_plain {pc : Pc V} (h : pc.plain = true) : pc.removes = false := by
  cases pc with
  | finalize => cases h
  | remove => cases h
  | _ => rfl

theorem admitCreate_plain (c : Creation V) (o : Object V) (attempt : Option ℕ) :
    (admitCreate c o attempt).plain = true := by
  unfold admitCreate
  split <;> rfl

theorem createAttempt_plain (c : Creation V) (o : Object V) (attempt : ℕ) :
    (createAttempt c o attempt).plain = true := by
  unfold createAttempt
  split
  · exact admitCreate_plain _ _ _
  · rfl

theorem beginCreate_plain (ns : String) (now : ℕ) (c : Creation V) (o : Object V) :
    (beginCreate ns now c o).plain = true := by
  simp only [beginCreate]
  split
  · exact createAttempt_plain _ _ _
  · exact admitCreate_plain _ _ _

theorem afterCreate_plain (config : ResourceConfig) (c : Creation V) (o : Object V)
    (attempt : Option ℕ) (r : Except BackendError Unit) :
    (afterCreate config c o attempt r).plain = true := by
  unfold afterCreate
  split
  · rfl
  · split
    · rfl
    · exact createAttempt_plain _ _ _
  · rfl

theorem finish_plain (name : String) (flag : Bool) (r : Except BackendError (Object V)) :
    (finish name flag r).plain = true := by
  unfold finish
  split <;> rfl

theorem afterUpdateRead_plain (ns : String) (now : ℕ) (name : String)
    (u : Option (Object V) → Except String (Object V))
    (a : Object V → Object V → Except String (Labels × V)) (force : Bool) (c : Creation V)
    (r : Except BackendError (Object V)) :
    (afterUpdateRead ns now name u a force c r).plain = true := by
  unfold afterUpdateRead
  split
  · split
    · split
      · rfl
      · exact beginCreate_plain _ _ _ _
    · rfl
  · split
    · rfl
    · simp only
      split <;> rfl

theorem afterStatusRead_plain (merge : V → V → V) (name : String)
    (u : Option (Object V) → Except String (Object V)) (r : Except BackendError (Object V)) :
    (afterStatusRead merge name u r).plain = true := by
  unfold afterStatusRead
  split
  · rfl
  · split <;> rfl

theorem beginMark_removes (o : Object V) (attempt : ℕ) : (beginMark o attempt).removes = false := by
  unfold beginMark
  split <;> rfl

theorem afterRefresh_removes (config : ResourceConfig) (name : String)
    (d : Object V → Option String) (attempt : ℕ) (r : Except BackendError (Object V)) :
    (afterRefresh config name d attempt r).removes = false := by
  unfold afterRefresh
  split
  · rfl
  · rfl
  · split
    · rfl
    · exact beginMark_removes _ _

/-- Only an update that succeeded, carried a deletion timestamp and left no finalizers goes on to
remove the row. -/
theorem afterWrite_removes {config : ResourceConfig} {request : Request V} {now : ℕ} {w : Write V}
    {r : Except BackendError Unit} (h : (afterWrite config request now w r).removes = true) :
    ∃ o, w = .update o ∧ r = .ok () ∧ o.deletionTimestamp.isSome = true ∧ o.finalizers = [] ∧
      afterWrite config request now w r = .finalize o := by
  unfold afterWrite at h ⊢
  split at h
  next o =>
    by_cases hc : o.deletionTimestamp.isSome = true ∧ o.finalizers = []
    · exact ⟨o, rfl, rfl, hc.1, hc.2, if_pos hc⟩
    · rw [if_neg hc] at h
      cases h
  next => cases h
  next => cases h
  next => cases h
  next => cases h
  next => split at h <;> cases h

/-- Only the first read of a deletion, of an object without finalizers, goes on to remove it. -/
theorem afterDeleteRead_removes {name : String} {d : Object V → Option String}
    {pc : Option Preconditions} {r : Except BackendError (Object V)}
    (h : (afterDeleteRead name d pc r).removes = true) :
    ∃ o, r = .ok o ∧ o.finalizers = [] ∧ pc.bind (·.mismatch o) = none ∧
      afterDeleteRead name d pc r = .remove o := by
  unfold afterDeleteRead at h ⊢
  split at h
  next => cases h
  next o =>
    split at h
    next => cases h
    next hd =>
      split at h
      next => cases h
      next hm =>
        by_cases hf : o.finalizers ≠ []
        · rw [if_pos hf, beginMark_removes] at h
          cases h
        · exact ⟨o, rfl, not_not.mp hf, hm, by simp [hf]⟩

namespace Job

/-- The job is about to remove the row under its key. -/
def removes (j : Job V) : Bool := j.pc.removes

theorem afterRead_removes {merge : V → V → V} {now : ℕ} {j : Job V}
    {r : Except BackendError (Object V)} (h : (j.afterRead merge now r).removes = true) :
    ∃ o, r = .ok o ∧ o.finalizers = [] ∧ j.pc = .deleteRead ∧
      j.request.preconditions.bind (·.mismatch o) = none ∧
      j.afterRead merge now r = .remove o := by
  obtain ⟨config, ns, request, pc, reads, changes⟩ := j
  simp only [afterRead] at h ⊢
  split at h
  next => simp [Pc.removes_of_plain (afterUpdateRead_plain _ _ _ _ _ _ _ _)] at h
  next => simp [Pc.removes_of_plain (afterStatusRead_plain _ _ _ _)] at h
  next =>
    obtain ⟨o, hr, hf, hm, heq⟩ := afterDeleteRead_removes h
    exact ⟨o, hr, hf, rfl, hm, heq⟩
  next => simp [afterRefresh_removes] at h
  next => simp [Pc.removes_of_plain (finish_plain _ _ _)] at h

/-! ### Effects -/

/-- What one statement of the job does to the table, with the versions it replaces. -/
inductive Effect [DecidableEq V] (t : ResourceTable V) (j : Job V) :
    ResourceTable V → List (Change V) → Prop
  | quiet (hfree : j.removes = true → t.live j.key = none) : Effect t j t []
  | insert {c : Creation V} {o : Object V} {attempt : Option ℕ} {t' : ResourceTable V}
      (hpc : j.pc = .create c o attempt) (h : t.create ⟨j.config.kind, o.ns, o.name⟩ o = some t') :
      Effect t j t' []
  | write {w : Write V} {x : Resource V} (hpc : j.pc = .write w) (hrv : w.rv ≠ 0)
      (hx : t.liveAt j.key w.rv = some x) :
      Effect t j (t.store (w.apply t x)) [⟨x, w.apply t x⟩]
  | remove {x : Resource V} (hpc : j.removes = true) (hx : t.live j.key = some x) :
      Effect t j (t.store (t.softDeleted x)) [⟨x, t.softDeleted x⟩]

/-- The two jobs are the same request. -/
structure Same (j j' : Job V) : Prop where
  config : j'.config = j.config
  ns : j'.ns = j.ns
  request : j'.request = j.request

theorem Same.key {j j' : Job V} (h : j.Same j') : j'.key = j.key := by
  simp only [Job.key, h.config, h.ns, h.request]

theorem softDelete_effect [DecidableEq V] {t t' : ResourceTable V} {j j' : Job V} {o : Object V}
    {flag : Bool} (hpc : j.removes = true) (h : j.softDelete t o flag = (t', j')) :
    ∃ cs, Effect t j t' cs ∧ j'.changes = j.changes ++ cs ∧ j'.reads = j.reads ∧ j.Same j' := by
  unfold softDelete at h
  split at h
  next hnone =>
    obtain ⟨rfl, rfl⟩ := Prod.mk.inj h
    exact ⟨[], .quiet fun _ => hnone, by simp, rfl, rfl, rfl, rfl⟩
  next x hx =>
    obtain ⟨rfl, rfl⟩ := Prod.mk.inj h
    exact ⟨_, .remove hpc hx, rfl, rfl, rfl, rfl, rfl⟩

theorem compareAndSwap_effect [DecidableEq V] {t t' : ResourceTable V} {j j' : Job V}
    {w : Write V} (hpc : j.pc = .write w) (h : j.compareAndSwap t w = (t', j')) :
    ∃ cs, Effect t j t' cs ∧ j'.changes = j.changes ++ cs ∧ j'.reads = j.reads ∧ j.Same j' := by
  have hno : j.removes = true → t.live j.key = none := by simp [removes, hpc, Pc.removes]
  unfold compareAndSwap at h
  split at h
  next =>
    obtain ⟨rfl, rfl⟩ := Prod.mk.inj h
    exact ⟨[], .quiet hno, by simp, rfl, rfl, rfl, rfl⟩
  next hrv =>
    split at h
    next =>
      obtain ⟨rfl, rfl⟩ := Prod.mk.inj h
      exact ⟨[], .quiet hno, by simp, rfl, rfl, rfl, rfl⟩
    next x hx =>
      obtain ⟨rfl, rfl⟩ := Prod.mk.inj h
      exact ⟨_, .write hpc hrv hx, rfl, rfl, rfl, rfl, rfl⟩

theorem insert_effect [DecidableEq V] {t t' : ResourceTable V} {j j' : Job V} {c : Creation V}
    {o : Object V} {attempt : Option ℕ} (hpc : j.pc = .create c o attempt)
    (h : j.insert t c o attempt = (t', j')) :
    ∃ cs, Effect t j t' cs ∧ j'.changes = j.changes ++ cs ∧ j'.reads = j.reads ∧ j.Same j' := by
  have hno : j.removes = true → t.live j.key = none := by simp [removes, hpc, Pc.removes]
  unfold Job.insert at h
  split at h
  next =>
    obtain ⟨rfl, rfl⟩ := Prod.mk.inj h
    exact ⟨[], .quiet hno, by simp, rfl, rfl, rfl, rfl⟩
  next t'' ht =>
    obtain ⟨rfl, rfl⟩ := Prod.mk.inj h
    exact ⟨[], .insert hpc ht, by simp, rfl, rfl, rfl, rfl⟩

/-- A statement has one of the four effects, and a read returns the live version. -/
theorem perform_effect [DecidableEq V] {merge : V → V → V} {t t' : ResourceTable V}
    {j j' : Job V} (h : j.perform merge t = some (t', j')) :
    ∃ cs, Effect t j t' cs ∧ j'.changes = j.changes ++ cs ∧ j.Same j' ∧
      (∀ x ∈ j'.reads, x ∈ j.reads ∨ t.live j.key = some x) ∧ ∀ x ∈ j.reads, x ∈ j'.reads := by
  have hread : ∀ {t'' : ResourceTable V} {j'' : Job V},
      (∃ cs, Effect t j t'' cs ∧ j''.changes = j.changes ++ cs ∧ j''.reads = j.reads ∧
        j.Same j'') →
      ∃ cs, Effect t j t'' cs ∧ j''.changes = j.changes ++ cs ∧ j.Same j'' ∧
        (∀ x ∈ j''.reads, x ∈ j.reads ∨ t.live j.key = some x) ∧ ∀ x ∈ j.reads, x ∈ j''.reads := by
    rintro t'' j'' ⟨cs, he, hc, hr, hs⟩
    refine ⟨cs, he, hc, hs, ?_, ?_⟩
    · intro x hx
      exact .inl (hr ▸ hx)
    · intro x hx
      rw [hr]
      exact hx
  have hselect : j.removes = false →
      ∃ cs, Effect t j t cs ∧ (j.read merge t).changes = j.changes ++ cs ∧
        j.Same (j.read merge t) ∧
        (∀ x ∈ (j.read merge t).reads, x ∈ j.reads ∨ t.live j.key = some x) ∧
        ∀ x ∈ j.reads, x ∈ (j.read merge t).reads := by
    intro hno
    refine ⟨[], .quiet (by simp [hno]), by simp [read], ⟨rfl, rfl, rfl⟩, ?_, ?_⟩
    · intro x hx
      simpa [read, eq_comm] using hx
    · intro x hx
      exact List.mem_append_left _ hx
  unfold perform at h
  split at h
  next hpc => exact hread (insert_effect hpc (Option.some.inj h))
  next hpc =>
    obtain ⟨rfl, rfl⟩ := Prod.mk.inj (Option.some.inj h)
    have hno : j.removes = true → t.live j.key = none := by simp [removes, hpc, Pc.removes]
    exact hread ⟨[], .quiet hno, by simp, rfl, rfl, rfl, rfl⟩
  iterate 6
    next hpc =>
      obtain ⟨rfl, rfl⟩ := Prod.mk.inj (Option.some.inj h)
      exact hselect (by simp [removes, hpc, Pc.removes])
  next hpc => exact hread (compareAndSwap_effect hpc (Option.some.inj h))
  next hpc =>
    obtain ⟨rfl, rfl⟩ := Prod.mk.inj (Option.some.inj h)
    have hno : j.removes = true → t.live j.key = none := by simp [removes, hpc, Pc.removes]
    exact hread ⟨[], .quiet hno, by simp, rfl, rfl, rfl, rfl⟩
  next hpc =>
    exact hread (softDelete_effect (by simp [removes, hpc, Pc.removes]) (Option.some.inj h))
  next hpc =>
    exact hread (softDelete_effect (by simp [removes, hpc, Pc.removes]) (Option.some.inj h))
  next => cases h

theorem start_removes (now : ℕ) (config : ResourceConfig) (ns : String) (request : Request V) :
    (start now config ns request).pc.removes = false := by
  cases request with
  | create => exact Pc.removes_of_plain (beginCreate_plain _ _ _ _)
  | _ => rfl

theorem fail_same {merge : V → V → V} {now : ℕ} {text : String} {j j' : Job V}
    (h : j.fail merge now text = some j') :
    j.Same j' ∧ j'.changes = j.changes ∧ j'.reads = j.reads := by
  unfold fail at h
  split at h
  all_goals first
    | cases h; done
    | obtain rfl := Option.some.inj h; exact ⟨⟨rfl, rfl, rfl⟩, rfl, rfl⟩

end Job

/-! ### Where a deletion stands -/

def Request.isDelete : Request V → Bool
  | .delete _ _ _ => true
  | _ => false

/-- The object that a deletion carries is a version it has read: an unmarked one, with finalizers
on the first attempt, while marking, and one without finalizers while removing. -/
def Holds (request : Request V) (reads : List (Resource V)) : Pc V → Prop
  | .write (.mark o n) | .missed (.mark o n) =>
    request.isDelete = true ∧
      ∃ x ∈ reads, o = x.reconstructObject ∧ x.deletionTimestamp = none ∧
        (n = 0 → x.finalizers ≠ []) ∧ request.preconditions.bind (·.mismatch o) = none
  | .refresh n => n ≠ 0 ∧ request.preconditions = none
  | .remove o =>
    request.isDelete = true ∧
      ∃ x ∈ reads, o = x.reconstructObject ∧ x.finalizers = [] ∧
        request.preconditions.bind (·.mismatch o) = none
  | _ => True

theorem holds_of_plain {request : Request V} {reads : List (Resource V)} {pc : Pc V}
    (h : pc.plain = true) : Holds request reads pc := by
  cases pc with
  | write w =>
    cases w with
    | mark => cases h
    | _ => trivial
  | missed w =>
    cases w with
    | mark => cases h
    | _ => trivial
  | refresh => cases h
  | remove => cases h
  | _ => trivial

theorem Holds.mono {request : Request V} {reads reads' : List (Resource V)} {pc : Pc V}
    (h : Holds request reads pc) (hsub : ∀ x ∈ reads, x ∈ reads') : Holds request reads' pc := by
  cases pc with
  | write w =>
    cases w with
    | mark o n =>
      obtain ⟨hd, x, hx, hr⟩ := h
      exact ⟨hd, x, hsub x hx, hr⟩
    | _ => trivial
  | missed w =>
    cases w with
    | mark o n =>
      obtain ⟨hd, x, hx, hr⟩ := h
      exact ⟨hd, x, hsub x hx, hr⟩
    | _ => trivial
  | refresh => exact h
  | remove o =>
    obtain ⟨hd, x, hx, hr⟩ := h
    exact ⟨hd, x, hsub x hx, hr⟩
  | _ => trivial

theorem beginMark_holds {request : Request V} {reads : List (Resource V)} {x : Resource V} {n : ℕ}
    (hd : request.isDelete = true) (hx : x ∈ reads) (hf : n = 0 → x.finalizers ≠ [])
    (hp : request.preconditions.bind (·.mismatch x.reconstructObject) = none) :
    Holds request reads (beginMark x.reconstructObject n) := by
  unfold beginMark
  split
  · trivial
  next hnone =>
    have hnone' : x.deletionTimestamp = none := by
      simpa [Resource.reconstructObject] using hnone
    exact ⟨hd, x, hx, rfl, hnone', hf, hp⟩

theorem afterDeleteRead_holds {request : Request V} {reads : List (Resource V)} {name : String}
    {d : Object V → Option String} {r : Except BackendError (Object V)}
    (hd : request.isDelete = true)
    (hr : ∀ o, r = .ok o → ∃ x ∈ reads, o = x.reconstructObject) :
    Holds request reads (afterDeleteRead name d request.preconditions r) := by
  unfold afterDeleteRead
  split
  · trivial
  next o =>
    obtain ⟨x, hx, rfl⟩ := hr o rfl
    split
    · trivial
    · split
      · trivial
      next hm =>
        by_cases hf : x.reconstructObject.finalizers ≠ []
        · rw [if_pos hf]
          exact beginMark_holds hd hx (fun _ => hf) hm
        · rw [if_neg hf]
          exact ⟨hd, x, hx, rfl, not_not.mp hf, hm⟩

theorem afterRefresh_holds {request : Request V} {reads : List (Resource V)}
    {config : ResourceConfig} {name : String} {d : Object V → Option String} {n : ℕ}
    {r : Except BackendError (Object V)} (hd : request.isDelete = true) (hn : n ≠ 0)
    (hp : request.preconditions = none)
    (hr : ∀ o, r = .ok o → ∃ x ∈ reads, o = x.reconstructObject) :
    Holds request reads (afterRefresh config name d n r) := by
  unfold afterRefresh
  split
  · trivial
  · trivial
  next o =>
    obtain ⟨x, hx, rfl⟩ := hr o rfl
    split
    · trivial
    · exact beginMark_holds hd hx (fun h => absurd h hn) (by simp [hp])

/-- The retry of `markForDeletion` is only reached without preconditions. -/
theorem afterWrite_holds {request : Request V} {reads : List (Resource V)}
    {config : ResourceConfig} {now : ℕ} {w : Write V} {r : Except BackendError Unit} :
    Holds request reads (afterWrite config request now w r) := by
  unfold afterWrite
  split
  · split <;> trivial
  · trivial
  · trivial
  · trivial
  · trivial
  next o n err =>
    split
    next hc =>
      refine ⟨Nat.succ_ne_zero n, ?_⟩
      cases hp : request.preconditions with
      | none => rfl
      | some p =>
        simp [hp, markAttempts] at hc
    next => trivial

namespace Job

theorem get_reads (merge : V → V → V) (t : ResourceTable V) (j : Job V) (o : Object V)
    (h : t.get j.key = .ok o) : ∃ x ∈ (j.read merge t).reads, o = x.reconstructObject := by
  unfold ResourceTable.get at h
  split at h
  next => cases h
  next x hx =>
    obtain rfl := Except.ok.inj h
    exact ⟨x, by simp [read, hx], rfl⟩

theorem afterRead_holds {merge : V → V → V} {now : ℕ} {j : Job V} {reads : List (Resource V)}
    {r : Except BackendError (Object V)} (hj : Holds j.request reads j.pc)
    (hr : ∀ o, r = .ok o → ∃ x ∈ reads, o = x.reconstructObject) :
    Holds j.request reads (j.afterRead merge now r) := by
  obtain ⟨config, ns, request, pc, reads', changes⟩ := j
  simp only [afterRead]
  split
  next => exact holds_of_plain (afterUpdateRead_plain _ _ _ _ _ _ _ _)
  next => exact holds_of_plain (afterStatusRead_plain _ _ _ _)
  next => exact afterDeleteRead_holds rfl hr
  next => exact afterRefresh_holds rfl hj.1 hj.2 hr
  next => exact holds_of_plain (finish_plain _ _ _)

/-- Where a deletion stands is kept by its own statements. -/
theorem perform_holds [DecidableEq V] {merge : V → V → V} {t t' : ResourceTable V} {j j' : Job V}
    (hj : Holds j.request j.reads j.pc) (h : j.perform merge t = some (t', j')) :
    Holds j'.request j'.reads j'.pc := by
  have hselect : Holds (j.read merge t).request (j.read merge t).reads (j.read merge t).pc :=
    afterRead_holds (hj.mono fun x hx => List.mem_append_left _ hx) (get_reads merge t j)
  unfold perform at h
  split at h
  next c o attempt =>
    obtain rfl := congrArg Prod.snd (Option.some.inj h)
    unfold Job.insert
    split
    all_goals
      apply holds_of_plain
      dsimp only
      exact afterCreate_plain _ _ _ _ _
  next =>
    obtain ⟨-, rfl⟩ := Prod.mk.inj (Option.some.inj h)
    exact holds_of_plain (finish_plain _ _ _)
  iterate 6
    next =>
      obtain ⟨-, rfl⟩ := Prod.mk.inj (Option.some.inj h)
      exact hselect
  next w hpc =>
    obtain rfl := congrArg Prod.snd (Option.some.inj h)
    unfold compareAndSwap
    split
    · exact afterWrite_holds
    · split
      · rw [hpc] at hj
        cases w with
        | mark o n => exact hj
        | _ => trivial
      · exact afterWrite_holds
  next =>
    obtain ⟨-, rfl⟩ := Prod.mk.inj (Option.some.inj h)
    exact afterWrite_holds
  next o hpc =>
    obtain rfl := congrArg Prod.snd (Option.some.inj h)
    unfold softDelete
    split <;> trivial
  next o hpc =>
    obtain rfl := congrArg Prod.snd (Option.some.inj h)
    unfold softDelete
    split <;> trivial
  next => cases h

theorem fail_holds {merge : V → V → V} {now : ℕ} {text : String} {j j' : Job V}
    (hj : Holds j.request j.reads j.pc) (h : j.fail merge now text = some j') :
    Holds j'.request j'.reads j'.pc := by
  unfold fail at h
  split at h
  next =>
    obtain rfl := Option.some.inj h
    apply holds_of_plain
    dsimp only
    exact afterCreate_plain _ _ _ _ _
  next =>
    obtain rfl := Option.some.inj h
    apply holds_of_plain
    dsimp only
    exact finish_plain _ _ _
  iterate 6
    next =>
      obtain rfl := Option.some.inj h
      exact afterRead_holds hj (fun o ho => by cases ho)
  next =>
    obtain rfl := Option.some.inj h
    exact afterWrite_holds
  next =>
    obtain rfl := Option.some.inj h
    exact afterWrite_holds
  next =>
    obtain rfl := Option.some.inj h
    trivial
  next =>
    obtain rfl := Option.some.inj h
    trivial
  next => cases h

/-! ### Jobs about to remove a row -/

/-- A job comes to the removal of a row by the first read of a deletion, or by its own update. -/
theorem perform_removes [DecidableEq V] {merge : V → V → V} {t t' : ResourceTable V}
    {j j' : Job V} (h : j.perform merge t = some (t', j')) (hr : j'.removes = true) :
    (∃ x, t.live j.key = some x ∧ x.finalizers = [] ∧ t' = t ∧
      j.request.preconditions.bind (·.mismatch x.reconstructObject) = none ∧
      j'.pc = .remove x.reconstructObject) ∨
    ∃ o x, j.pc = .write (.update o) ∧ t.liveAt j.key (Write.update o).rv = some x ∧
      t' = t.store (t.updated x o) ∧ o.finalizers = [] ∧ o.deletionTimestamp.isSome = true ∧
      j'.pc = .finalize o ∧ j'.changes = j.changes ++ [⟨x, t.updated x o⟩] := by
  have hselect : (j.read merge t).removes = true →
      ∃ x, t.live j.key = some x ∧ x.finalizers = [] ∧ t = t ∧
        j.request.preconditions.bind (·.mismatch x.reconstructObject) = none ∧
        (j.read merge t).pc = .remove x.reconstructObject := by
    intro hrm
    obtain ⟨o, ho, hf, -, hm, hpc'⟩ := afterRead_removes hrm
    unfold ResourceTable.get at ho
    split at ho
    next => cases ho
    next x hx =>
      obtain rfl := Except.ok.inj ho
      exact ⟨x, hx, hf, rfl, hm, hpc'⟩
  have hplain : ∀ {pc : Pc V}, pc.plain = true → pc.removes ≠ true := by
    intro pc hp
    rw [Pc.removes_of_plain hp]
    exact Bool.false_ne_true
  unfold perform at h
  split at h
  next c o attempt =>
    obtain rfl := congrArg Prod.snd (Option.some.inj h)
    unfold Job.insert at hr
    split at hr
    all_goals
      apply absurd hr
      apply hplain
      dsimp only
      exact afterCreate_plain _ _ _ _ _
  next =>
    obtain ⟨-, rfl⟩ := Prod.mk.inj (Option.some.inj h)
    apply absurd hr
    apply hplain
    dsimp only
    exact finish_plain _ _ _
  iterate 6
    next =>
      obtain ⟨rfl, rfl⟩ := Prod.mk.inj (Option.some.inj h)
      exact .inl (hselect hr)
  next w hpc =>
    have hcas := Option.some.inj h
    unfold compareAndSwap at hcas
    split at hcas
    next =>
      obtain ⟨rfl, rfl⟩ := Prod.mk.inj hcas
      obtain ⟨o, -, hok, -⟩ := afterWrite_removes hr
      cases hok
    next =>
      split at hcas
      next =>
        obtain ⟨rfl, rfl⟩ := Prod.mk.inj hcas
        cases hr
      next x hx =>
        obtain ⟨rfl, rfl⟩ := Prod.mk.inj hcas
        obtain ⟨o, rfl, -, hd, hf, hpc'⟩ := afterWrite_removes hr
        exact .inr ⟨o, x, hpc, hx, rfl, hf, hd, hpc', rfl⟩
  next =>
    obtain ⟨-, rfl⟩ := Prod.mk.inj (Option.some.inj h)
    obtain ⟨o, -, hok, -⟩ := afterWrite_removes hr
    cases hok
  next =>
    obtain rfl := congrArg Prod.snd (Option.some.inj h)
    unfold softDelete at hr
    split at hr <;> cases hr
  next =>
    obtain rfl := congrArg Prod.snd (Option.some.inj h)
    unfold softDelete at hr
    split at hr <;> cases hr
  next => cases h

theorem fail_removes {merge : V → V → V} {now : ℕ} {text : String} {j j' : Job V}
    (h : j.fail merge now text = some j') : j'.removes = false := by
  have hread : ∀ e, (j.afterRead merge now (.error e)).removes = false := by
    intro e
    cases hr : (j.afterRead merge now (.error e)).removes with
    | false => rfl
    | true =>
      obtain ⟨o, ho, -⟩ := afterRead_removes hr
      cases ho
  have hwrite : ∀ w e, (afterWrite j.config j.request now w (.error e)).removes = false := by
    intro w e
    cases hr : (afterWrite j.config j.request now w (.error e)).removes with
    | false => rfl
    | true =>
      obtain ⟨o, -, ho, -⟩ := afterWrite_removes hr
      cases ho
  unfold fail at h
  split at h
  next =>
    obtain rfl := Option.some.inj h
    apply Pc.removes_of_plain
    dsimp only
    exact afterCreate_plain _ _ _ _ _
  next =>
    obtain rfl := Option.some.inj h
    apply Pc.removes_of_plain
    dsimp only
    exact finish_plain _ _ _
  iterate 6
    next =>
      obtain rfl := Option.some.inj h
      exact hread _
  next =>
    obtain rfl := Option.some.inj h
    exact hwrite _ _
  next =>
    obtain rfl := Option.some.inj h
    exact hwrite _ _
  next =>
    obtain rfl := Option.some.inj h
    rfl
  next =>
    obtain rfl := Option.some.inj h
    rfl
  next => cases h

end Job
/-! ### Steps of the registry -/

namespace ResourceTable

variable {t t' : ResourceTable V} {x : Resource V}

@[simp] theorem tick_live (t : ResourceTable V) (n : ℕ) (key : ResourceKey) :
    ({ t with clock := n } : ResourceTable V).live key = t.live key := rfl

theorem WellFormed.tick (ht : t.WellFormed) (n : ℕ) :
    ({ t with clock := n } : ResourceTable V).WellFormed :=
  ⟨ht.id_lt, ht.id_inj, ht.rv_pos, ht.rv_le, ht.rv_inj, ht.live_inj⟩

end ResourceTable

theorem Write.apply_of [DecidableEq V] (t : ResourceTable V) (x : Resource V) (w : Write V) :
    (w.apply t x).id = x.id ∧ (w.apply t x).key = x.key ∧ (w.apply t x).uid = x.uid ∧
      (w.apply t x).resourceVersion = t.seq + 1 ∧ (w.apply t x).deletedAt = x.deletedAt := by
  cases w <;> exact ⟨rfl, rfl, rfl, rfl, rfl⟩

namespace Job

variable [DecidableEq V] {t t' : ResourceTable V} {j : Job V} {cs : List (Change V)}

theorem Effect.wellFormed (ht : t.WellFormed) (h : Effect t j t' cs) : t'.WellFormed := by
  cases h with
  | quiet => exact ht
  | insert _ h => exact ht.create h
  | @write w x _ _ hx =>
    obtain ⟨hmem, -, hd⟩ := ResourceTable.live_some (ResourceTable.liveAt_some hx).1
    obtain ⟨hid, hkey, -, hrv, -⟩ := w.apply_of t x
    exact ht.store hmem hd hid hkey hrv
  | remove _ hx =>
    obtain ⟨hmem, -, hd⟩ := ResourceTable.live_some hx
    exact ht.store hmem hd rfl rfl rfl

theorem Effect.version {x : Resource V} (hx : t.Version x) (h : Effect t j t' cs) :
    t'.Version x := by
  cases h with
  | quiet => exact hx
  | insert _ h => exact hx.create h
  | @write w y _ _ _ => exact hx.store (w.apply_of t y).2.2.2.1
  | remove _ _ => exact hx.store rfl

/-- A row after the effect is a row from before, the inserted one, or a new version. -/
theorem Effect.mem_rows {y : Resource V} (h : Effect t j t' cs) (hy : y ∈ t'.rows) :
    y ∈ t.rows ∨
    (∃ c o attempt, j.pc = .create c o attempt ∧
      t.create ⟨j.config.kind, o.ns, o.name⟩ o = some t' ∧
      y = t.newRow ⟨j.config.kind, o.ns, o.name⟩ o) ∨
    (∃ w x, j.pc = .write w ∧ t.liveAt j.key w.rv = some x ∧ y = w.apply t x) ∨
    ∃ x, j.removes = true ∧ t.live j.key = some x ∧ y = t.softDeleted x := by
  cases h with
  | quiet => exact .inl hy
  | @insert c o attempt _ hpc h =>
    obtain ⟨-, rfl⟩ := ResourceTable.create_some h
    rcases List.mem_append.mp hy with hy | hy
    · exact .inl hy
    · exact .inr (.inl ⟨c, o, attempt, hpc, h, List.mem_singleton.mp hy⟩)
  | @write w x hpc _ hx =>
    rcases ResourceTable.mem_store hy with rfl | ⟨hy, -⟩
    · exact .inr (.inr (.inl ⟨w, x, hpc, hx, rfl⟩))
    · exact .inl hy
  | @remove x hpc hx =>
    rcases ResourceTable.mem_store hy with rfl | ⟨hy, -⟩
    · exact .inr (.inr (.inr ⟨x, hpc, hx, rfl⟩))
    · exact .inl hy

end Job

namespace Registry

/-- The table is well formed, the reads of a job are versions, and a deletion holds its reads. -/
structure Inv (s : Registry V) : Prop where
  table : s.table.WellFormed
  nodup : (Slots.keys s.jobs).Nodup
  reads : ∀ p ∈ s.jobs, ∀ x ∈ p.2.reads, s.table.Version x
  holds : ∀ p ∈ s.jobs, Holds p.2.request p.2.reads p.2.pc

theorem start_holds (now : ℕ) (config : ResourceConfig) (ns : String) (request : Request V) :
    Holds request [] (Job.start now config ns request).pc := by
  cases request with
  | create => exact holds_of_plain (beginCreate_plain _ _ _ _)
  | _ => trivial

theorem Inv.init : (empty : Registry V).Inv where
  table := ResourceTable.wellFormed_empty
  nodup := List.nodup_nil
  reads := by simp [empty]
  holds := by simp [empty]

variable [DecidableEq V] {merge : V → V → V} {s s' : Registry V} {a : Action V}

theorem step_cases (h : step merge s a = some s') :
    (∃ i config ns request, a = .start i config ns request ∧ s.jobs.free i = true ∧
      s' = { s with jobs := (i, .start s.table.clock config ns request) :: s.jobs }) ∨
    (∃ i j t j', a = .perform i ∧ s.jobs.get? i = some j ∧ j.perform merge s.table = some (t, j') ∧
      s' = ⟨t, s.jobs.put i j'⟩) ∨
    (∃ i text j j', a = .fail i text ∧ s.jobs.get? i = some j ∧
      j.fail merge s.table.clock text = some j' ∧ s' = { s with jobs := s.jobs.put i j' }) ∨
    (a = .tick ∧ s' = { s with table := { s.table with clock := s.table.clock + 1 } }) := by
  cases a with
  | start i config ns request =>
    simp only [step, Option.ite_none_right_eq_some, Option.some.injEq] at h
    exact .inl ⟨i, config, ns, request, rfl, h.1, h.2.symm⟩
  | perform i =>
    simp only [step, Option.bind_eq_bind, Option.bind_eq_some_iff, Option.some.injEq] at h
    obtain ⟨j, hj, ⟨t, j'⟩, hp, rfl⟩ := h
    exact .inr (.inl ⟨i, j, t, j', rfl, hj, hp, rfl⟩)
  | fail i text =>
    simp only [step, Option.bind_eq_bind, Option.bind_eq_some_iff, Option.some.injEq] at h
    obtain ⟨j, hj, j', hf, rfl⟩ := h
    exact .inr (.inr (.inl ⟨i, text, j, j', rfl, hj, hf, rfl⟩))
  | tick =>
    obtain rfl := Option.some.inj h
    exact .inr (.inr (.inr ⟨rfl, rfl⟩))

theorem Inv.step (hs : s.Inv) (h : step merge s a = some s') : s'.Inv := by
  rcases step_cases h with ⟨i, config, ns, request, -, hfree, rfl⟩ | ⟨i, j, t, j', -, hj, hp, rfl⟩ |
    ⟨i, text, j, j', -, hj, hf, rfl⟩ | ⟨-, rfl⟩
  · refine ⟨hs.table, Slots.nodup_cons_free hfree hs.nodup, ?_, ?_⟩
    · intro p hp x hx
      rcases List.mem_cons.mp hp with rfl | hp
      · cases hx
      · exact hs.reads p hp x hx
    · intro p hp
      rcases List.mem_cons.mp hp with rfl | hp
      · exact start_holds _ _ _ _
      · exact hs.holds p hp
  · have hmem := Slots.mem_of_get? hj
    obtain ⟨cs, he, -, -, hreads, -⟩ := Job.perform_effect hp
    refine ⟨he.wellFormed hs.table, (Slots.keys_put s.jobs i j').symm ▸ hs.nodup, ?_, ?_⟩
    · rintro ⟨k, jk⟩ hk x hx
      apply he.version
      rcases Slots.mem_put hk with ⟨rfl, rfl⟩ | ⟨-, hk⟩
      · rcases hreads x hx with hx | hx
        · exact hs.reads _ hmem x hx
        · exact hs.table.version (ResourceTable.live_some hx).1
      · exact hs.reads _ hk x hx
    · rintro ⟨k, jk⟩ hk
      rcases Slots.mem_put hk with ⟨rfl, rfl⟩ | ⟨-, hk⟩
      · exact Job.perform_holds (hs.holds _ hmem) hp
      · exact hs.holds _ hk
  · have hmem := Slots.mem_of_get? hj
    obtain ⟨-, -, hr⟩ := Job.fail_same hf
    refine ⟨hs.table, (Slots.keys_put s.jobs i j').symm ▸ hs.nodup, ?_, ?_⟩
    · rintro ⟨k, jk⟩ hk x hx
      rcases Slots.mem_put hk with ⟨rfl, rfl⟩ | ⟨-, hk⟩
      · exact hs.reads _ hmem x (hr ▸ hx)
      · exact hs.reads _ hk x hx
    · rintro ⟨k, jk⟩ hk
      rcases Slots.mem_put hk with ⟨rfl, rfl⟩ | ⟨-, hk⟩
      · exact Job.fail_holds (hs.holds _ hmem) hf
      · exact hs.holds _ hk
  · refine ⟨hs.table.tick _, hs.nodup, ?_, hs.holds⟩
    intro p hp x hx
    exact ⟨(hs.reads p hp x hx).rv_le, (hs.reads p hp x hx).eq_of_rv⟩

theorem reachable_inv {ok : Registry V → Action V → Prop} (h : (machine merge).Reachable ok s) :
    s.Inv := by
  refine h.invariant ?_ ?_
  · rintro s rfl
    exact Inv.init
  · intro s a t hs _ hstep
    exact hs.step hstep

end Registry
end Ark
