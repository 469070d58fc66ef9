import Mathlib.Data.List.Infix

/-!
# Bounded computations that leave a trace

A traced computation acts on a world, emits events and ends with a value or an error. It may be run
within a bound, and is then still running when the bound is used up. The rules below follow one
computation, or two of them side by side, through a sequence: what every event and every value
satisfies; that a larger bound only extends the trace; and that one computation does what the other
does until the other first emits an event of some kind, where it fails. The latter two are
congruences, so what compares two programs part by part serves both.
-/

namespace Ark

inductive Ending (ε α : Type)
  | running
  | ok (value : α)
  | failed (err : ε)
  deriving DecidableEq, Repr

structure TracedResult (W E ε α : Type) where
  ending : Ending ε α
  world : W
  trace : List E
  deriving DecidableEq, Repr

def Traced (W E ε α : Type) : Type := W → TracedResult W E ε α

namespace Traced

variable {W E ε ε' α β : Type}

protected def pure (value : α) : Traced W E ε α := fun w => ⟨.ok value, w, []⟩

protected def bind (m : Traced W E ε α) (f : α → Traced W E ε β) : Traced W E ε β := fun w =>
  match m w with
  | ⟨.running, w, trace⟩ => ⟨.running, w, trace⟩
  | ⟨.failed err, w, trace⟩ => ⟨.failed err, w, trace⟩
  | ⟨.ok value, w, trace⟩ =>
    let r := f value w
    ⟨r.ending, r.world, trace ++ r.trace⟩

instance : Monad (Traced W E ε) where
  pure := Traced.pure
  bind := Traced.bind

/-- The bound is used up. -/
def unfinished : Traced W E ε α := fun w => ⟨.running, w, []⟩

def fail (err : ε) : Traced W E ε α := fun w => ⟨.failed err, w, []⟩

def emit (e : E) : Traced W E ε Unit := fun w => ⟨.ok (), w, [e]⟩

def observe (f : W → α) : Traced W E ε α := fun w => ⟨.ok (f w), w, []⟩

def mapError (f : ε → ε') (m : Traced W E ε α) : Traced W E ε' α := fun w =>
  match m w with
  | ⟨.running, w, trace⟩ => ⟨.running, w, trace⟩
  | ⟨.failed err, w, trace⟩ => ⟨.failed (f err), w, trace⟩
  | ⟨.ok value, w, trace⟩ => ⟨.ok value, w, trace⟩

variable {m m' : Traced W E ε α} {f f' : α → Traced W E ε β} {w : W}

theorem bind_running (h : (m w).ending = .running) :
    (m >>= f) w = ⟨.running, (m w).world, (m w).trace⟩ := by
  change Traced.bind m f w = _
  unfold Traced.bind
  split <;> simp_all

theorem bind_failed {err : ε} (h : (m w).ending = .failed err) :
    (m >>= f) w = ⟨.failed err, (m w).world, (m w).trace⟩ := by
  change Traced.bind m f w = _
  unfold Traced.bind
  split <;> simp_all

theorem bind_ok {value : α} (h : (m w).ending = .ok value) :
    (m >>= f) w = ⟨(f value (m w).world).ending, (f value (m w).world).world,
      (m w).trace ++ (f value (m w).world).trace⟩ := by
  change Traced.bind m f w = _
  unfold Traced.bind
  split <;> simp_all

theorem mapError_trace (g : ε → ε') : (mapError g m w).trace = (m w).trace := by
  unfold mapError
  split <;> simp_all

theorem mapError_ok {g : ε → ε'} {value : α} :
    (mapError g m w).ending = .ok value ↔ (m w).ending = .ok value := by
  unfold mapError
  split <;> simp_all

theorem mapError_running {g : ε → ε'} :
    (mapError g m w).ending = .running ↔ (m w).ending = .running := by
  unfold mapError
  split <;> simp_all

theorem mapError_failed {g : ε → ε'} {err : ε} (h : (m w).ending = .failed err) :
    (mapError g m w).ending = .failed (g err) := by
  unfold mapError
  split <;> simp_all

/-! ### What holds of every event and of the ending -/

/-- From every world, each event satisfies `P`, the value `Q` and the error `Z`. -/
structure Ensures (m : Traced W E ε α) (P : E → Prop) (Q : α → Prop) (Z : ε → Prop) : Prop where
  events : ∀ w, ∀ e ∈ (m w).trace, P e
  value : ∀ w v, (m w).ending = .ok v → Q v
  err : ∀ w e, (m w).ending = .failed e → Z e

variable {P : E → Prop} {Q Q' : α → Prop} {R : β → Prop} {Z : ε → Prop} {Z' : ε' → Prop}

theorem Ensures.weaken (h : m.Ensures P Q Z) (hQ : ∀ v, Q v → Q' v) : m.Ensures P Q' Z :=
  ⟨h.events, fun w v hv => hQ v (h.value w v hv), h.err⟩

theorem ensures_pure {v : α} (h : Q v) : (pure v : Traced W E ε α).Ensures P Q Z := by
  constructor
  · intro w e he
    cases he
  · intro w u hu
    cases hu
    exact h
  · intro w e he
    cases he

theorem ensures_fail {err : ε} (h : Z err) : (fail err : Traced W E ε α).Ensures P Q Z := by
  constructor
  · intro w e he
    cases he
  · intro w v hv
    cases hv
  · intro w e he
    cases he
    exact h

theorem ensures_unfinished : (unfinished : Traced W E ε α).Ensures P Q Z := by
  constructor
  · intro w e he
    cases he
  · intro w v hv
    cases hv
  · intro w e he
    cases he

theorem ensures_emit {e : E} (h : P e) :
    (emit e : Traced W E ε Unit).Ensures P (fun _ => True) Z := by
  constructor
  · intro w e' he
    rw [List.mem_singleton.mp he]
    exact h
  · intro w v hv
    trivial
  · intro w e' he
    cases he

theorem ensures_observe (g : W → α) :
    (observe g : Traced W E ε α).Ensures P (fun _ => True) Z := by
  constructor
  · intro w e he
    cases he
  · intro w v hv
    trivial
  · intro w e he
    cases he

theorem Ensures.mapError (h : m.Ensures P Q Z) {g : ε → ε'} (hg : ∀ e, Z e → Z' (g e)) :
    (mapError g m).Ensures P Q Z' := by
  constructor
  · intro w e he
    rw [mapError_trace] at he
    exact h.events w e he
  · intro w v hv
    exact h.value w v (mapError_ok.mp hv)
  · intro w e he
    cases hm : (m w).ending with
    | running =>
      rw [mapError_running.mpr hm] at he
      cases he
    | ok v =>
      rw [mapError_ok.mpr hm] at he
      cases he
    | failed e' =>
      rw [mapError_failed hm] at he
      cases he
      exact hg e' (h.err w e' hm)

theorem Ensures.bind (h : m.Ensures P Q Z) (hf : ∀ v, Q v → (f v).Ensures P R Z) :
    (m >>= f).Ensures P R Z := by
  constructor
  · intro w e he
    cases hm : (m w).ending with
    | running =>
      rw [bind_running hm] at he
      exact h.events w e he
    | failed err =>
      rw [bind_failed hm] at he
      exact h.events w e he
    | ok v =>
      rw [bind_ok hm] at he
      cases List.mem_append.mp he with
      | inl hfirst => exact h.events w e hfirst
      | inr hsecond => exact (hf v (h.value w v hm)).events _ e hsecond
  · intro w u hu
    cases hm : (m w).ending with
    | running =>
      rw [bind_running hm] at hu
      cases hu
    | failed err =>
      rw [bind_failed hm] at hu
      cases hu
    | ok v =>
      rw [bind_ok hm] at hu
      exact (hf v (h.value w v hm)).value _ u hu
  · intro w e he
    cases hm : (m w).ending with
    | running =>
      rw [bind_running hm] at he
      cases he
    | failed err =>
      rw [bind_failed hm] at he
      obtain rfl := Ending.failed.inj he
      exact h.err w err hm
    | ok v =>
      rw [bind_ok hm] at he
      exact (hf v (h.value w v hm)).err _ e he

/-! ### Comparing two computations -/

/-- A relation between computations that sequences and changed errors respect, and in which the
single steps are related to themselves, except for the emission of loud events. -/
structure Congruence (loud : E → Bool)
    (R : ∀ {α : Type}, Traced W E ε α → Traced W E ε α → Prop) : Prop where
  pure : ∀ {α : Type} (v : α), R (pure v) (pure v)
  fail : ∀ {α : Type} (err : ε), R (fail err : Traced W E ε α) (fail err)
  observe : ∀ {α : Type} (g : W → α), R (observe g) (observe g)
  emit : ∀ e, loud e = false → R (emit e) (emit e)
  bind : ∀ {α β : Type} {m m' : Traced W E ε α} {f f' : α → Traced W E ε β},
    R m m' → (∀ v, R (f v) (f' v)) → R (m >>= f) (m' >>= f')
  mapError : ∀ {α : Type} {m m' : Traced W E ε α} (g : ε → ε), R m m' →
    R (mapError g m) (mapError g m')

/-! ### Larger bounds -/

/-- `m'` does what `m` does, or `m` is still running and `m'` goes on from there, as far as the
events that pass `p` show. -/
def ExtendedBy (p : E → Bool) (m m' : Traced W E ε α) : Prop := ∀ w, m w = m' w ∨
  (m w).ending = .running ∧ (m w).trace.filter p <+: (m' w).trace.filter p

variable {p : E → Bool}

theorem ExtendedBy.refl (m : Traced W E ε α) : m.ExtendedBy p m := fun _ => .inl rfl

theorem ExtendedBy.trans {m'' : Traced W E ε α} (h : m.ExtendedBy p m')
    (h' : m'.ExtendedBy p m'') : m.ExtendedBy p m'' := by
  intro w
  cases h w with
  | inl heq =>
    rw [heq]
    exact h' w
  | inr hrun =>
    cases h' w with
    | inl heq' =>
      rw [← heq']
      exact .inr hrun
    | inr hrun' => exact .inr ⟨hrun.1, hrun.2.trans hrun'.2⟩

theorem extendedBy_unfinished (m : Traced W E ε α) : unfinished.ExtendedBy p m :=
  fun _ => .inr ⟨rfl, List.nil_prefix⟩

theorem ExtendedBy.mapError (h : m.ExtendedBy p m') (g : ε → ε') :
    (mapError g m).ExtendedBy p (mapError g m') := by
  intro w
  cases h w with
  | inl heq =>
    left
    unfold Traced.mapError
    rw [heq]
  | inr hrun =>
    right
    rw [mapError_running, mapError_trace, mapError_trace]
    exact hrun

theorem ExtendedBy.bind (h : m.ExtendedBy p m') (hf : ∀ v, (f v).ExtendedBy p (f' v)) :
    (m >>= f).ExtendedBy p (m' >>= f') := by
  intro w
  cases h w with
  | inl heq =>
    cases hm : (m w).ending with
    | running =>
      left
      rw [bind_running hm, bind_running (heq ▸ hm), heq]
    | failed err =>
      left
      rw [bind_failed hm, bind_failed (heq ▸ hm), heq]
    | ok v =>
      rw [bind_ok hm, bind_ok (heq ▸ hm), ← heq]
      cases hf v (m w).world with
      | inl hsame =>
        left
        rw [hsame]
      | inr hrun =>
        right
        refine ⟨hrun.1, ?_⟩
        rw [List.filter_append, List.filter_append]
        exact (List.prefix_append_right_inj _).mpr hrun.2
  | inr hrun =>
    right
    rw [bind_running hrun.1]
    refine ⟨rfl, hrun.2.trans ?_⟩
    cases hm : (m' w).ending with
    | running =>
      rw [bind_running hm]
    | failed err =>
      rw [bind_failed hm]
    | ok v =>
      rw [bind_ok hm, List.filter_append]
      exact List.prefix_append _ _

theorem extendedBy_congruence (loud p : E → Bool) :
    Congruence (W := W) (ε := ε) loud (ExtendedBy p) where
  pure _ := .refl _
  fail _ := .refl _
  observe _ := .refl _
  emit _ _ := .refl _
  bind := .bind
  mapError g h := h.mapError g

/-! ### Failing at the first event of a kind -/

/-- `m` does what `m'` does if `m'` emits no event of the kind `asks`; otherwise it fails, and shows of
the events that pass `p` those that `m'` emits before the first of the kind. -/
def StopsAt (asks p : E → Bool) (m m' : Traced W E ε α) : Prop := ∀ w,
  (m w = m' w ∧ ∀ e ∈ (m' w).trace, asks e = false) ∨
    (∃ err, (m w).ending = .failed err) ∧ (∃ e ∈ (m' w).trace, asks e = true) ∧
      (m w).trace.filter p = ((m' w).trace.takeWhile fun e => !asks e).filter p

variable {asks : E → Bool}

theorem StopsAt.quiet (h : ∀ w, ∀ e ∈ (m w).trace, asks e = false) : m.StopsAt asks p m :=
  fun w => .inl ⟨rfl, h w⟩

theorem stopsAt_pure (v : α) : (pure v : Traced W E ε α).StopsAt asks p (pure v) :=
  .quiet fun _ _ he => by cases he

theorem stopsAt_fail (err : ε) : (fail err : Traced W E ε α).StopsAt asks p (fail err) :=
  .quiet fun _ _ he => by cases he

theorem stopsAt_unfinished : (unfinished : Traced W E ε α).StopsAt asks p unfinished :=
  .quiet fun _ _ he => by cases he

theorem stopsAt_observe (g : W → α) :
    (observe g : Traced W E ε α).StopsAt asks p (observe g) :=
  .quiet fun _ _ he => by cases he

theorem stopsAt_emit {e : E} (h : asks e = false) :
    (emit e : Traced W E ε Unit).StopsAt asks p (emit e) :=
  .quiet fun _ _ he => by rwa [List.mem_singleton.mp he]

theorem StopsAt.mapError (h : m.StopsAt asks p m') (g : ε → ε') :
    (mapError g m).StopsAt asks p (mapError g m') := by
  intro w
  cases h w with
  | inl hsame =>
    left
    rw [mapError_trace]
    refine ⟨?_, hsame.2⟩
    unfold Traced.mapError
    rw [hsame.1]
  | inr hstop =>
    right
    obtain ⟨⟨err, herr⟩, hasks⟩ := hstop
    rw [mapError_trace, mapError_trace]
    exact ⟨⟨g err, mapError_failed herr⟩, hasks⟩

theorem takeWhile_append_of_quiet {xs ys : List E} (h : ∀ e ∈ xs, asks e = false) :
    ((xs ++ ys).takeWhile fun e => !asks e) = xs ++ ys.takeWhile fun e => !asks e := by
  apply List.takeWhile_append_of_pos
  intro e he
  simp [h e he]

theorem takeWhile_append_of_asks {xs ys : List E} (h : ∃ e ∈ xs, asks e = true) :
    ((xs ++ ys).takeWhile fun e => !asks e) = xs.takeWhile fun e => !asks e := by
  induction xs with
  | nil => simp at h
  | cons x xs ih =>
    cases hx : asks x with
    | true => simp [hx]
    | false =>
      have hrest : ∃ e ∈ xs, asks e = true := by simpa [hx] using h
      simp [hx, ih hrest]

theorem StopsAt.bind (h : m.StopsAt asks p m') (hf : ∀ v, (f v).StopsAt asks p (f' v)) :
    (m >>= f).StopsAt asks p (m' >>= f') := by
  intro w
  cases h w with
  | inl hsame =>
    obtain ⟨heq, hquiet⟩ := hsame
    cases hm : (m w).ending with
    | running =>
      left
      rw [bind_running hm, bind_running (heq ▸ hm), heq]
      exact ⟨rfl, hquiet⟩
    | failed err =>
      left
      rw [bind_failed hm, bind_failed (heq ▸ hm), heq]
      exact ⟨rfl, hquiet⟩
    | ok v =>
      rw [bind_ok hm, bind_ok (heq ▸ hm), ← heq]
      rw [← heq] at hquiet
      cases hf v (m w).world with
      | inl hrest =>
        left
        refine ⟨by rw [hrest.1], ?_⟩
        intro e he
        cases List.mem_append.mp he with
        | inl hfirst => exact hquiet e hfirst
        | inr hsecond => exact hrest.2 e hsecond
      | inr hstop =>
        right
        obtain ⟨herr, ⟨e, he, hasks⟩, htrace⟩ := hstop
        refine ⟨herr, ⟨e, List.mem_append_right _ he, hasks⟩, ?_⟩
        rw [takeWhile_append_of_quiet hquiet, List.filter_append, List.filter_append, htrace]
  | inr hstop =>
    right
    obtain ⟨⟨err, herr⟩, ⟨e, he, hasks⟩, htrace⟩ := hstop
    rw [bind_failed herr]
    refine ⟨⟨err, rfl⟩, ?_⟩
    cases hm : (m' w).ending with
    | running =>
      rw [bind_running hm]
      exact ⟨⟨e, he, hasks⟩, htrace⟩
    | failed err' =>
      rw [bind_failed hm]
      exact ⟨⟨e, he, hasks⟩, htrace⟩
    | ok v =>
      rw [bind_ok hm]
      refine ⟨⟨e, List.mem_append_left _ he, hasks⟩, ?_⟩
      rw [takeWhile_append_of_asks ⟨e, he, hasks⟩, htrace]

theorem stopsAt_congruence (asks p : E → Bool) :
    Congruence (W := W) (ε := ε) asks (StopsAt asks p) where
  pure := stopsAt_pure
  fail := stopsAt_fail
  observe := stopsAt_observe
  emit _ := stopsAt_emit
  bind := .bind
  mapError g h := h.mapError g

end Traced
end Ark
