import Ark.Finalizers

/-!
# What becomes of a row

Requests run side by side on the REST storage, each statement of theirs at its own time. Whatever they do,
a row stays the row of its object: it keeps what identifies it, its version only grows and stands for one
content, a generation stands for one `spec`, a deletion timestamp is never cleared again, and a deleted row
is final.
-/

namespace Ark

variable {V : Type*}

/-- `y` is what has become of the row `x`. -/
structure Evolves (x y : Resource V) : Prop where
  id : y.id = x.id
  key : y.key = x.key
  uid : y.uid = x.uid
  createdAt : y.createdAt = x.createdAt
  version : x.resourceVersion ≤ y.resourceVersion
  content : y.resourceVersion = x.resourceVersion → y = x
  generation : x.generation ≤ y.generation
  spec : y.generation = x.generation → y.spec = x.spec
  marked : x.deletionTimestamp.isSome = true → y.deletionTimestamp.isSome = true
  final : x.deletedAt.isSome = true → y = x

namespace Evolves

variable {x y z : Resource V}

theorem refl (x : Resource V) : Evolves x x :=
  ⟨rfl, rfl, rfl, rfl, le_rfl, fun _ => rfl, le_rfl, fun _ => rfl, fun h => h, fun _ => rfl⟩

theorem trans (h : Evolves x y) (h' : Evolves y z) : Evolves x z where
  id := h'.id.trans h.id
  key := h'.key.trans h.key
  uid := h'.uid.trans h.uid
  createdAt := h'.createdAt.trans h.createdAt
  version := h.version.trans h'.version
  content heq := by
    have hxy := h.version
    have hyz := h'.version
    obtain rfl := h'.content (by omega)
    exact h.content heq
  generation := h.generation.trans h'.generation
  spec heq := by
    have hxy := h.generation
    have hyz := h'.generation
    rw [h'.spec (by omega), h.spec (by omega)]
  marked hx := h'.marked (h.marked hx)
  final hx := by
    obtain rfl := h.final hx
    exact h'.final hx

end Evolves

section Writes

variable {t : ResourceTable V} {x : Resource V}

theorem evolves_updated [DecidableEq V] (hrv : x.resourceVersion ≤ t.seq) (hlive : x.deletedAt = none) (o : Object V) :
    Evolves x (t.updated x o) where
  id := rfl
  key := rfl
  uid := rfl
  createdAt := rfl
  version := Nat.le_succ_of_le hrv
  content h := by
    have hnew : (t.updated x o).resourceVersion = t.seq + 1 := rfl
    omega
  generation := by
    unfold ResourceTable.updated
    dsimp only
    split_ifs
    · exact Nat.le_succ _
    · exact Nat.le_refl _
  spec h := by
    unfold ResourceTable.updated at h ⊢
    dsimp only at h ⊢
    by_contra hspec
    rw [if_pos (Or.inl fun heq => hspec heq.symm)] at h
    omega
  marked h := by
    change (o.deletionTimestamp.or x.deletionTimestamp).isSome = true
    rw [Option.isSome_or, h, Bool.or_true]
  final h := by
    rw [hlive] at h
    cases h

theorem evolves_apply [DecidableEq V] (hrv : x.resourceVersion ≤ t.seq) (hlive : x.deletedAt = none) (w : Write V) :
    Evolves x (w.apply t x) := by
  cases w with
  | update o => exact evolves_updated hrv hlive o
  | mark o _ => exact evolves_updated hrv hlive _
  | updateStatus o =>
    have hnew : (t.statusUpdated x o).resourceVersion = t.seq + 1 := rfl
    exact
      { id := rfl
        key := rfl
        uid := rfl
        createdAt := rfl
        version := Nat.le_succ_of_le hrv
        content := fun h => absurd (hnew.symm.trans h) (by omega)
        generation := le_rfl
        spec := fun _ => rfl
        marked := fun h => h
        final := fun h => by rw [hlive] at h; cases h }

theorem evolves_softDeleted (hrv : x.resourceVersion ≤ t.seq) (hlive : x.deletedAt = none) :
    Evolves x (t.softDeleted x) where
  id := rfl
  key := rfl
  uid := rfl
  createdAt := rfl
  version := Nat.le_succ_of_le hrv
  content h := by
    have hnew : (t.softDeleted x).resourceVersion = t.seq + 1 := rfl
    omega
  generation := le_rfl
  spec _ := rfl
  marked h := h
  final h := by
    rw [hlive] at h
    cases h

/-- A new version of a row takes the place of the old one and leaves the others. -/
theorem exists_evolves_store {t : ResourceTable V} {x x' y : Resource V} (ht : t.WellFormed)
    (hx : x ∈ t.rows) (h : Evolves x x') (hy : y ∈ t.rows) : ∃ z ∈ (t.store x').rows, Evolves y z := by
  by_cases hid : y.id = x'.id
  · obtain rfl := ht.id_inj y hy x hx (hid.trans h.id)
    exact ⟨x', ResourceTable.store_mem_self hy hid, h⟩
  · exact ⟨y, ResourceTable.store_mem hy hid, .refl y⟩

end Writes

namespace Registry

variable [DecidableEq V] {merge : V → V → V}

theorem exists_evolves_effect {t t' : ResourceTable V} {j : Job V} {cs : List (Change V)}
    (ht : t.WellFormed) (h : Job.Effect t j t' cs) {y : Resource V} (hy : y ∈ t.rows) :
    ∃ z ∈ t'.rows, Evolves y z := by
  cases h with
  | quiet => exact ⟨y, hy, .refl y⟩
  | insert _ h =>
    obtain ⟨-, rfl⟩ := ResourceTable.create_some h
    exact ⟨y, List.mem_append_left _ hy, .refl y⟩
  | @write w x _ _ hx =>
    obtain ⟨hmem, -, hlive⟩ := ResourceTable.live_some (ResourceTable.liveAt_some hx).1
    exact exists_evolves_store ht hmem (evolves_apply (ht.rv_le x hmem) hlive w) hy
  | @remove x _ hx =>
    obtain ⟨hmem, -, hlive⟩ := ResourceTable.live_some hx
    exact exists_evolves_store ht hmem (evolves_softDeleted (ht.rv_le x hmem) hlive) hy

theorem exists_evolves_step {s s' : Registry V} {a : Action V} (hs : s.Inv)
    (h : step merge s a = some s') {y : Resource V} (hy : y ∈ s.table.rows) :
    ∃ z ∈ s'.table.rows, Evolves y z := by
  rcases step_cases h with ⟨i, config, ns, request, -, -, rfl⟩ | ⟨i, j, t, j', -, -, hp, rfl⟩ |
    ⟨i, text, j, j', -, -, -, rfl⟩ | ⟨-, rfl⟩
  · exact ⟨y, hy, .refl y⟩
  · obtain ⟨cs, he, -⟩ := Job.perform_effect hp
    exact exists_evolves_effect hs.table he hy
  · exact ⟨y, hy, .refl y⟩
  · exact ⟨y, hy, .refl y⟩

theorem version_step {s s' : Registry V} {a : Action V} (h : step merge s a = some s') {x : Resource V}
    (hx : s.table.Version x) : s'.table.Version x := by
  rcases step_cases h with ⟨i, config, ns, request, -, -, rfl⟩ | ⟨i, j, t, j', -, -, hp, rfl⟩ |
    ⟨i, text, j, j', -, -, -, rfl⟩ | ⟨-, rfl⟩
  · exact hx
  · obtain ⟨cs, he, -⟩ := Job.perform_effect hp
    exact he.version hx
  · exact hx
  · exact ⟨hx.rv_le, hx.eq_of_rv⟩

/-- The registry after an agent was created, and after its status was written. -/
def agentCreated : Registry Unit :=
  (agents.execWhile (fun _ _ => true) empty (request 0 (post "u" (agentBody none none [])) 2)).getD empty

def agentWritten : Registry Unit :=
  (agents.execWhile (fun _ _ => true) agentCreated
    (request 1 (put (agentBody (some 1) (some 0) ["f"])) 3)).getD empty

end Registry
end Ark
