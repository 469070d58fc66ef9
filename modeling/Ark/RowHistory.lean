import Ark.Registry

/-!
# What the calls on a row leave behind

The successful calls of `Update` and `UpdateStatus` on one row, from its creation on, with other requests
in between. `COALESCE` keeps the stored deletion timestamp only where the new object has none: an object
that carries another one replaces it.
-/

namespace Ark

namespace ResourceTable

/-- A call of the backend. -/
inductive Call (V : Type*)
  | update (o : Object V)
  | updateStatus (o : Object V)

def Call.write {V : Type*} : Call V → Write V
  | .update o => .update o
  | .updateStatus o => .updateStatus o

/-- A call that has replaced the version `before` of the row by `after`. -/
structure Done (V : Type*) where
  call : Call V
  before : Resource V
  after : Resource V

variable {V : Type*} [DecidableEq V]

/-- The successful calls on the row that `key` names; other requests leave it as it is. -/
inductive Calls (key : ResourceKey) (t : ResourceTable V) : List (Done V) → ResourceTable V → Prop
  | refl : Calls key t [] t
  | other {l : List (Done V)} {t₁ t₂ : ResourceTable V} : Calls key t l t₁ → t₂.WellFormed →
    t₂.live key = t₁.live key → t₁.seq ≤ t₂.seq → Calls key t l t₂
  | call {l : List (Done V)} {t₁ : ResourceTable V} {x : Resource V} (c : Call V) : Calls key t l t₁ →
    c.write.rv ≠ 0 → t₁.liveAt key c.write.rv = some x →
    Calls key t (l ++ [⟨c, x, c.write.apply t₁ x⟩]) (t₁.store (c.write.apply t₁ x))

/-- The call changes the spec, or is the first one that sets the deletion timestamp. -/
def Done.bumps (c : Done V) : Bool :=
  match c.call with
  | .update o => decide (c.before.spec ≠ o.spec ∨
      (o.deletionTimestamp.isSome ∧ c.before.deletionTimestamp = none))
  | .updateStatus _ => false

/-- A deletion timestamp of `x` is one of `y`. -/
def Keeps (x y : Resource V) : Prop :=
  ∀ ts, x.deletionTimestamp = some ts → y.deletionTimestamp = some ts

/-- What is said of the versions that the calls leave behind. -/
structure Exact (key : ResourceKey) (l : List (Done V)) (t : ResourceTable V) : Prop where
  set_once : (l.map (·.after)).Pairwise Keeps
  generation : ∀ x, t.live key = some x → x.generation = 1 + l.countP Done.bumps
  increases : ∀ c ∈ l, c.before.resourceVersion < c.after.resourceVersion

/-- An update of a marked row carries no deletion timestamp, or the stored one. -/
def Done.Resends (c : Done V) : Prop :=
  ∀ o, c.call = .update o → ∀ ts ts', c.before.deletionTimestamp = some ts →
    o.deletionTimestamp = some ts' → ts' = ts

/-! ### One call -/

/-- The statement of the call ran on some table. -/
def Done.Applied (c : Done V) : Prop :=
  ∃ t : ResourceTable V, c.before.resourceVersion ≤ t.seq ∧ c.after = c.call.write.apply t c.before

namespace Done

variable {c : Done V}

theorem increases (h : c.Applied) :
    c.before.resourceVersion < c.after.resourceVersion := by
  obtain ⟨t, hle, hafter⟩ := h
  have hrv : c.after.resourceVersion = t.seq + 1 := by
    rw [hafter]
    cases c.call with
    | update o => rfl
    | updateStatus o => rfl
  omega

theorem generation_eq (h : c.Applied) :
    c.after.generation = c.before.generation + if c.bumps then 1 else 0 := by
  obtain ⟨t, -, hafter⟩ := h
  rw [hafter, bumps]
  cases c.call with
  | update o =>
    change (if c.before.spec ≠ o.spec ∨ (o.deletionTimestamp.isSome ∧ c.before.deletionTimestamp.isNone)
      then c.before.generation + 1 else c.before.generation) = _
    simp only [Option.isNone_iff_eq_none, decide_eq_true_eq]
    split
    next => rfl
    next => rfl
  | updateStatus o => rfl

theorem keeps_iff (h : c.Applied) : Keeps c.before c.after ↔ c.Resends := by
  obtain ⟨t, -, hafter⟩ := h
  rw [Keeps, Resends, hafter]
  cases hcall : c.call with
  | update o =>
    have hts : (Call.write (.update o)).apply t c.before = t.updated c.before o := rfl
    rw [hts]
    constructor
    · intro hkeeps o' ho ts ts' hbefore ho'
      obtain rfl := Call.update.inj ho
      have hafter := hkeeps ts hbefore
      change o.deletionTimestamp.or c.before.deletionTimestamp = some ts at hafter
      rw [ho', Option.some_or] at hafter
      exact Option.some.inj hafter
    · intro hresends ts hbefore
      change o.deletionTimestamp.or c.before.deletionTimestamp = some ts
      cases ho : o.deletionTimestamp with
      | none => rw [Option.none_or, hbefore]
      | some ts' => rw [hresends o rfl ts ts' hbefore ho, Option.some_or]
  | updateStatus o =>
    refine iff_of_true (fun ts hts => hts) ?_
    intro o' ho
    cases ho

end Done

/-! ### Runs of calls -/

/-- The calls of a run in order, the first one on the version `x`. -/
def Chained (x : Resource V) : List (Done V) → Prop
  | [] => True
  | c :: l => c.before = x ∧ c.Applied ∧ Chained c.after l

/-- The version that the calls leave behind. -/
def last (x : Resource V) (l : List (Done V)) : Resource V := l.foldl (fun _ c => c.after) x

theorem Chained.concat {x : Resource V} {l : List (Done V)} {c : Done V} (h : Chained x l)
    (hbefore : c.before = last x l) (hc : c.Applied) : Chained x (l ++ [c]) := by
  induction l generalizing x with
  | nil => exact ⟨hbefore, hc, trivial⟩
  | cons d l ih => exact ⟨h.1, h.2.1, ih h.2.2 hbefore⟩

theorem Chained.applied {x : Resource V} {l : List (Done V)} (h : Chained x l) : ∀ c ∈ l, c.Applied := by
  induction l generalizing x with
  | nil => exact fun c hc => absurd hc List.not_mem_nil
  | cons d l ih =>
    intro c hc
    obtain rfl | hc := List.mem_cons.mp hc
    · exact h.2.1
    · exact ih h.2.2 c hc

theorem Chained.generation {x : Resource V} {l : List (Done V)} (h : Chained x l) :
    (last x l).generation = x.generation + l.countP Done.bumps := by
  induction l generalizing x with
  | nil => rfl
  | cons c l ih =>
    obtain ⟨rfl, hc, hl⟩ := h
    have hlast : last c.before (c :: l) = last c.after l := rfl
    rw [hlast, ih hl, Done.generation_eq hc, List.countP_cons]
    omega

theorem Chained.keeps_iff {x : Resource V} {l : List (Done V)} (h : Chained x l) :
    (x :: l.map (·.after)).Pairwise Keeps ↔ ∀ c ∈ l, c.Resends := by
  induction l generalizing x with
  | nil => simp
  | cons c l ih =>
    obtain ⟨rfl, hc, hl⟩ := h
    rw [List.map_cons, List.pairwise_cons, ih hl, List.forall_mem_cons, List.forall_mem_cons,
      Done.keeps_iff hc]
    constructor
    · rintro ⟨⟨hresends, -⟩, hrest⟩
      exact ⟨hresends, hrest⟩
    · rintro ⟨hresends, hrest⟩
      refine ⟨⟨hresends, fun y hy ts hts => ?_⟩, hrest⟩
      have hafter := (Done.keeps_iff hc).mpr hresends ts hts
      exact (List.pairwise_cons.mp ((ih hl).mpr hrest)).1 y hy ts hafter

/-- The calls form a chain, and the row is the last version of it. -/
theorem Calls.chained {key : ResourceKey} {t t' : ResourceTable V} {l : List (Done V)} {x : Resource V}
    (h : Calls key t l t') (ht : t.WellFormed) (hx : t.live key = some x) :
    t'.WellFormed ∧ t'.live key = some (last x l) ∧ Chained x l := by
  induction h with
  | refl => exact ⟨ht, hx, trivial⟩
  | other _ hwf hlive _ ih =>
    obtain ⟨-, hlast, hchained⟩ := ih
    exact ⟨hwf, hlive.trans hlast, hchained⟩
  | @call l t₁ y c _ _ hy ih =>
    obtain ⟨hwf, hlast, hchained⟩ := ih
    obtain ⟨hlive, -⟩ := liveAt_some hy
    obtain rfl := Option.some.inj (hlast.symm.trans hlive)
    obtain ⟨hmem, hkey, hdeleted⟩ := live_some hlive
    have hshape : (c.write.apply t₁ (last x l)).id = (last x l).id ∧
        (c.write.apply t₁ (last x l)).key = (last x l).key ∧
        (c.write.apply t₁ (last x l)).deletedAt = (last x l).deletedAt ∧
        (c.write.apply t₁ (last x l)).resourceVersion = t₁.seq + 1 := by
      cases c with
      | update o => exact ⟨rfl, rfl, rfl, rfl⟩
      | updateStatus o => exact ⟨rfl, rfl, rfl, rfl⟩
    obtain ⟨hid, hkey', hdeleted', hrv⟩ := hshape
    have hwf' := hwf.store hmem hdeleted hid hkey' hrv
    have hlive' := hwf'.live_eq (store_mem_self hmem hid.symm) (hdeleted'.trans hdeleted)
    rw [hkey', hkey] at hlive'
    refine ⟨hwf', ?_, hchained.concat rfl ⟨t₁, hwf.rv_le _ hmem, rfl⟩⟩
    rw [hlive', last, last, List.foldl_append]
    rfl

/-- From its creation on a row's generation and versions are exact, and its deletion timestamp is set once
exactly if no update of the marked row carries another one. -/
theorem calls_exact {key : ResourceKey} {t₀ t t' : ResourceTable V} {o : Object V} {l : List (Done V)}
    (ht₀ : t₀.WellFormed) (hcreate : t₀.create key o = some t) (h : Calls key t l t') :
    Exact key l t' ↔ ∀ c ∈ l, c.Resends := by
  obtain ⟨-, rfl⟩ := create_some hcreate
  have ht := ht₀.create hcreate
  have hnew : (t₀.newRow key o) ∈ t₀.rows ++ [t₀.newRow key o] := by
    exact List.mem_append_right _ List.mem_cons_self
  have hx := ht.live_eq hnew rfl
  obtain ⟨-, hlast, hchained⟩ := h.chained ht hx
  rw [← hchained.keeps_iff]
  constructor
  · intro hexact
    refine List.pairwise_cons.mpr ⟨fun y _ ts hts => ?_, hexact.set_once⟩
    cases hts
  · intro hkeeps
    refine ⟨(List.pairwise_cons.mp hkeeps).2, ?_, fun c hc => Done.increases (hchained.applied c hc)⟩
    intro y hy
    obtain rfl := Option.some.inj (hlast.symm.trans hy)
    exact hchained.generation

/-! ### Marked twice -/

def agentKey : ResourceKey := ⟨"Agent", "default", "a"⟩

/-- What a client sends that has read version `rv`. -/
def sent (rv : ℕ) (ts : Option ℕ) : Object Unit :=
  ⟨"a", "", "default", "u", some rv, 1, none, ts, [], [], ["f"], [], (), ()⟩

def table (row : Resource Unit) (seq : ℕ) : ResourceTable Unit := ⟨seq, 1, 0, [row]⟩

/-- Version `rv` of the agent. -/
def agent (rv generation : ℕ) (ts : Option ℕ) : Resource Unit :=
  ⟨0, agentKey, "u", rv, generation, [], [], ["f"], [], (), (), 0, ts, none⟩

/-- The agent is created, marked, and written again with a timestamp. -/
def marking (ts : ℕ) : List (Done Unit) :=
  [⟨.update (sent 1 (some 10)), agent 1 1 none, agent 2 2 (some 10)⟩,
    ⟨.update (sent 2 (some ts)), agent 2 2 (some 10), agent 3 2 (some ts)⟩]

theorem create_agent : empty.create agentKey (sent 0 none) = some (table (agent 1 1 none) 1) := rfl

theorem calls_marking (ts : ℕ) :
    Calls agentKey (table (agent 1 1 none) 1) (marking ts) (table (agent 3 2 (some ts)) 3) :=
  .call (.update (sent 2 (some ts))) (.call (.update (sent 1 (some 10))) .refl (by decide) rfl)
    (Nat.succ_ne_zero 1) rfl

theorem calls_exact_marking : Exact agentKey (marking 10) (table (agent 3 2 (some 10)) 3) := by
  refine (calls_exact wellFormed_empty create_agent (calls_marking 10)).mpr ?_
  rintro c hc o ho ts ts' hts hts'
  obtain rfl | hc := List.mem_cons.mp hc
  · cases hts
  · obtain rfl := List.mem_singleton.mp hc
    obtain rfl := Call.update.inj ho
    exact Option.some.inj (hts'.symm.trans hts)

/-- A second timestamp replaces the first. -/
theorem deletion_timestamp_replaced : ¬ ∀ (key : ResourceKey) (t₀ t t' : ResourceTable Unit)
    (o : Object Unit) (l : List (Done Unit)), t₀.WellFormed → t₀.create key o = some t →
    Calls key t l t' → Exact key l t' := by
  intro hall
  have hexact := hall _ _ _ _ _ _ wellFormed_empty create_agent (calls_marking 20)
  have honce := (List.pairwise_cons.mp hexact.set_once).1 _ List.mem_cons_self 10 rfl
  exact absurd (Option.some.inj honce) (by decide)

end ResourceTable
end Ark
