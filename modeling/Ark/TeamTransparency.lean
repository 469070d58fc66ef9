import Ark.AgentTransparency

/-!
# Approval and the turns of a team

A pause unwinds every team that the member was in, and the resumption resumes the agent that asked and
nothing else: it starts no turn. So granting the approvals gives the turns of the run without approval
settings exactly when none of these starts after the first reply that asks.
-/

namespace Ark

/-- The member turns of a trace, with their inputs. -/
def turns (trace : List TeamEvent) : List TeamEvent := trace.filter TeamEvent.isTurn

/-- The trace before the first reply that asks. -/
def beforeAsked (trace : List TeamEvent) : List TeamEvent :=
  trace.takeWhile fun e => !e.isAsked

/-- No turn starts after a reply that asks. -/
def NoTurnAfterAsked (trace : List TeamEvent) : Prop :=
  ∀ before asked after, trace = before ++ asked :: after → asked.isAsked = true →
    ∀ e ∈ after, e.isTurn = false

/-! ### Traces up to the first reply that asks -/

theorem turns_append (xs ys : List TeamEvent) : turns (xs ++ ys) = turns xs ++ turns ys :=
  List.filter_append _ _

theorem turns_beforeAsked_le (trace : List TeamEvent) :
    turns (beforeAsked trace) <+: turns trace :=
  (List.takeWhile_prefix _).filter _

theorem noTurnAfterAsked_iff (trace : List TeamEvent) :
    NoTurnAfterAsked trace ↔ turns (beforeAsked trace) = turns trace := by
  constructor
  · intro h
    have hsplit : beforeAsked trace ++ trace.dropWhile (fun e => !e.isAsked) = trace :=
      List.takeWhile_append_dropWhile
    cases hdrop : trace.dropWhile (fun e => !e.isAsked) with
    | nil =>
      rw [hdrop, List.append_nil] at hsplit
      rw [hsplit]
    | cons asked after =>
      have hasked : asked.isAsked = true := by
        have hhead := List.head?_dropWhile_not (fun e : TeamEvent => !e.isAsked) trace
        rw [hdrop] at hhead
        simpa using hhead
      rw [hdrop] at hsplit
      have hafter := h _ asked after hsplit.symm hasked
      have hquiet : turns (asked :: after) = [] := by
        apply List.filter_eq_nil_iff.mpr
        intro e he
        cases List.mem_cons.mp he with
        | inl hfirst =>
          rw [hfirst]
          cases asked with
          | asked => simp [TeamEvent.isTurn]
          | turn | agent => cases hasked
        | inr hrest => simp [hafter e hrest]
      calc turns (beforeAsked trace) = turns (beforeAsked trace) ++ turns (asked :: after) := by
            rw [hquiet, List.append_nil]
        _ = turns (beforeAsked trace ++ asked :: after) := (turns_append _ _).symm
        _ = turns trace := by rw [hsplit]
  · intro h before asked after hsplit hasked e he
    have hstop : beforeAsked trace = beforeAsked (before ++ [asked]) := by
      rw [hsplit, show before ++ asked :: after = before ++ [asked] ++ after by simp]
      exact Traced.takeWhile_append_of_asks ⟨asked, by simp, hasked⟩
    have hlength : (turns trace).length ≤ (turns (before ++ [asked])).length := by
      rw [← h, hstop]
      exact (turns_beforeAsked_le _).length_le
    rw [hsplit, show before ++ asked :: after = before ++ [asked] ++ after by simp, turns_append,
      List.length_append] at hlength
    have hnil : turns after = [] := List.length_eq_zero_iff.mp (by omega)
    simpa using List.filter_eq_nil_iff.mp hnil e he

theorem turns_beforeAsked_marks (trace : List TeamEvent) :
    turns (beforeAsked trace) = turns (beforeAsked (trace.filter TeamEvent.isMark)) := by
  induction trace with
  | nil => rfl
  | cons e trace ih =>
    unfold turns beforeAsked at ih ⊢
    cases hasked : e.isAsked with
    | true => simp [TeamEvent.isMark, hasked]
    | false =>
      cases hturn : e.isTurn with
      | true => simp [TeamEvent.isMark, hasked, hturn, ih]
      | false => simp [TeamEvent.isMark, hasked, hturn, ih]

/-- A trace that goes on from another one has the same turns before its first reply that asks, if the
other has such a reply. -/
theorem turns_beforeAsked_mono {xs ys : List TeamEvent}
    (h : xs.filter TeamEvent.isMark <+: ys.filter TeamEvent.isMark) :
    turns (beforeAsked xs) <+: turns (beforeAsked ys) ∧
      ((∃ e ∈ xs, e.isAsked = true) → turns (beforeAsked ys) = turns (beforeAsked xs)) := by
  rw [turns_beforeAsked_marks xs, turns_beforeAsked_marks ys]
  obtain ⟨rest, hrest⟩ := h
  rw [← hrest]
  by_cases hasked : ∃ e ∈ xs.filter TeamEvent.isMark, e.isAsked = true
  · have hstop : beforeAsked (xs.filter TeamEvent.isMark ++ rest) =
        beforeAsked (xs.filter TeamEvent.isMark) := Traced.takeWhile_append_of_asks hasked
    rw [hstop]
    exact ⟨List.prefix_rfl, fun _ => rfl⟩
  · have hquiet : ∀ e ∈ xs.filter TeamEvent.isMark, e.isAsked = false := by
      intro e he
      by_contra hne
      exact hasked ⟨e, he, by simpa using hne⟩
    have hgo : beforeAsked (xs.filter TeamEvent.isMark ++ rest) =
        xs.filter TeamEvent.isMark ++ beforeAsked rest := Traced.takeWhile_append_of_quiet hquiet
    refine ⟨?_, ?_⟩
    · rw [hgo, turns_append]
      exact ((List.takeWhile_prefix _).filter _).trans (List.prefix_append _ _)
    · rintro ⟨e, he, hasks⟩
      exact absurd ⟨e, List.mem_filter.mpr ⟨he, by simp [TeamEvent.isMark, hasks]⟩, hasks⟩ hasked

theorem beforeAsked_of_quiet {trace : List TeamEvent} (h : ∀ e ∈ trace, e.isAsked = false) :
    beforeAsked trace = trace := by
  have hall := @Traced.takeWhile_append_of_quiet _ _ _ [] h
  rwa [List.append_nil, List.takeWhile_nil, List.append_nil] at hall

/-! ### A query with its approvals granted -/

namespace HandlerEnv

variable {W : Type} (H : HandlerEnv W) (s : ExecutionState) (w : W) (memory : List Message)
variable {n m : ℕ}

/-- A resumption starts no turn. -/
theorem turns_resume (memory : Except String (List Message)) (request : ApprovalRequest)
    (decision : Decision) : turns (H.resume n w s memory request decision).trace = [] := by
  unfold resume
  split
  next => rfl
  next =>
    dsimp only
    split
    next => rfl
    next A _ => exact Agent.filter_agent A.name _ _ fun _ => rfl

theorem turns_granted (k : ℕ) (d : Dispatch W) :
    turns (H.granted n s k memory d) = turns d.trace := by
  induction k generalizing memory d with
  | zero => rfl
  | succ k ih =>
    unfold granted
    split
    next request _ => rw [turns_append, ih, turns_resume, List.append_nil]
    next => rfl

/-- Granting the approvals gives the turns before the first reply that asks. -/
theorem turns_approvedRun :
    turns (H.approvedRun s w memory n) = turns (beforeAsked (H.plainRun s w memory n)) := by
  rw [approvedRun, turns_granted]
  cases Member.execute_stopsAt n H.toTeamEnv s.target (.user s.input) memory w with
  | inl hsame =>
    obtain ⟨heq, hquiet⟩ := hsame
    rw [@beforeAsked_of_quiet (H.plainRun s w memory n) hquiet]
    exact congrArg (fun r => turns r.trace) heq
  | inr hstop => exact hstop.2.2

theorem plainRun_marks (h : n ≤ m) : (H.plainRun s w memory n).filter TeamEvent.isMark <+:
    (H.plainRun s w memory m).filter TeamEvent.isMark := by
  cases Member.execute_extendedBy h false H.toTeamEnv s.target (.user s.input) memory w with
  | inl hsame =>
    rw [show H.plainRun s w memory n = H.plainRun s w memory m from
      congrArg TracedResult.trace hsame]
  | inr hrun => exact hrun.2

theorem turns_sameRun_iff :
    SameRun (fun n => turns (H.approvedRun s w memory n))
        (fun n => turns (H.plainRun s w memory n)) ↔
      ∀ n, turns (beforeAsked (H.plainRun s w memory n)) = turns (H.plainRun s w memory n) := by
  have hmarks := fun {n m} => H.plainRun_marks s w memory (n := n) (m := m)
  simp only [turns_approvedRun]
  constructor
  · rintro ⟨-, hcovered⟩ n
    obtain ⟨m, hm⟩ := hcovered n
    have hfirst := turns_beforeAsked_le (H.plainRun s w memory n)
    by_cases hasked : ∃ e ∈ H.plainRun s w memory n, e.isAsked = true
    · -- the first reply that asks is the same within every larger bound
      have hbound : turns (beforeAsked (H.plainRun s w memory m)) <+:
          turns (beforeAsked (H.plainRun s w memory n)) := by
        cases Nat.le_total m n with
        | inl hle => exact (turns_beforeAsked_mono (hmarks hle)).1
        | inr hge =>
          rw [(turns_beforeAsked_mono (hmarks hge)).2 hasked]
      exact hfirst.eq_of_length_le (hm.trans hbound).length_le
    · apply congrArg
      apply beforeAsked_of_quiet
      intro e he
      by_contra hne
      exact hasked ⟨e, he, by simpa using hne⟩
  · intro h
    simp only [h]
    exact ⟨fun n => ⟨n, List.prefix_rfl⟩, fun n => ⟨n, List.prefix_rfl⟩⟩

def cleaningTeam : Member :=
  .team { name := "team", «namespace» := "default", strategy := "sequential" } (.error "no selector")
    [.agent cleaner "", .agent reporter ""]

end HandlerEnv
end Ark
