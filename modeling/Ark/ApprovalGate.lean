import Ark.AgentLoop

/-!
# Approval gating

`MakeAgent` keys the approval settings by an entry's `name`, the registry keys its executors by the
name that `CreatePartialToolDefinition` leaves, which is the non-empty `partial.name`. The gate of
`executeToolCalls` therefore covers an executor exactly when the name it answers to is also the
`name` of an entry that asks for approval.
-/

namespace Ark

/-- The call was answered by an executor whose entry asks for approval. -/
def Event.isProtected : Event → Bool
  | .executed _ (some r) => r.entry.approvalRequired
  | _ => false

/-- No executor that asks for approval has been invoked so far. -/
def Progress.Guarded {W : Type} (p : Progress W) : Prop := ∀ e ∈ p.trace, e.isProtected = false

namespace Agent

variable {W : Type} {A : Agent} {env : Env W} {p : Progress W} {calls : List ToolCall}

/-- Calls to `name` are answered by an executor whose entry asks for approval. -/
def protects (A : Agent) (name : String) : Bool :=
  (A.tools.executors name).any (·.entry.approvalRequired)

/-- Every name that is answered by an executor that asks for approval is known to the gate. -/
def Gated (A : Agent) : Prop := ∀ name, A.protects name → (A.requiresApproval name).isSome

/-- What approval gating promises of an agent, whatever its surroundings: no run invokes an executor
that asks for approval, and a reply that calls one is given up before any of its calls has run, with
an error that lists every such call. -/
structure ApprovalGating (A : Agent) : Prop where
  never_invoked : ∀ (W : Type) (env : Env W) (rounds : ℕ) (w : W) (userInput : Message)
    (history : List Message), (A.executeAgent env rounds w userInput history).2.Guarded
  never_invoked_resumed : ∀ (W : Type) (env : Env W) (rounds : ℕ) (w : W) (calls : List ToolCall)
    (results : List ToolResult) (memory : Except String (List Message)) (input : List Message),
    (A.resumeFromApproval env rounds w calls results memory input).2.Guarded
  given_up : ∀ (W : Type) (env : Env W) (calls : List ToolCall) (p : Progress W),
    (∃ call ∈ calls, A.protects call.name) →
      ∃ e, A.executeToolCalls env calls p = (some (.approvalRequired e), p) ∧
        ∀ call ∈ calls, A.protects call.name → call ∈ e.toolCalls

/-! ### The gate -/

theorem executeToolCalls_of_gated_call (env : Env W) (p : Progress W)
    (h : ∃ call ∈ calls, (A.requiresApproval call.name).isSome) :
    ∃ e, A.executeToolCalls env calls p = (some (.approvalRequired e), p) ∧
      e.toolCalls = calls.filter fun call => (A.requiresApproval call.name).isSome := by
  have hsome : (calls.findSome? fun call => A.requiresApproval call.name).isSome := by
    obtain ⟨call, hmem, hcall⟩ := h
    exact List.findSome?_isSome_iff.mpr ⟨call, hmem, hcall⟩
  obtain ⟨config, hconfig⟩ := Option.isSome_iff_exists.mp hsome
  unfold executeToolCalls
  rw [hconfig]
  exact ⟨_, rfl, rfl⟩

theorem executeToolCalls_of_ungated (h : ∀ call ∈ calls, A.requiresApproval call.name = none) :
    A.executeToolCalls env calls p = A.runToolCalls env calls p := by
  unfold executeToolCalls
  rw [List.findSome?_eq_none_iff.mpr h]

/-! ### What a step does to the trace -/

theorem executeTool_trace (call : ToolCall) :
    (A.executeTool env call p).2.trace =
      p.trace ++ [.executed call (A.tools.executors call.name)] := by
  unfold executeTool
  cases hr : A.tools.executors call.name <;> rfl

theorem executeToolCall_trace (call : ToolCall) :
    (A.executeToolCall env call p).2.trace =
      p.trace ++ [.executed call (A.tools.executors call.name)] :=
  executeTool_trace call

theorem executeModelCall_trace :
    (A.executeModelCall env p).2.trace =
      p.trace ++ [.sent (p.agentMessages.map (withoutOwnAgentName A.name))] := by
  unfold executeModelCall
  rcases hchat : env.chat p.world (p.agentMessages.map (withoutOwnAgentName A.name)) with
    ⟨_ | _ | _, world⟩ <;> simp only [hchat]

theorem executeToolCall_guarded (hp : p.Guarded) {call : ToolCall}
    (hcall : A.protects call.name = false) : (A.executeToolCall env call p).2.Guarded := by
  intro e he
  rw [executeToolCall_trace, List.mem_append, List.mem_singleton] at he
  cases he with
  | inl hmem => exact hp e hmem
  | inr heq =>
    rw [heq]
    unfold protects at hcall
    cases hr : A.tools.executors call.name with
    | none => rfl
    | some r => simpa [hr, Event.isProtected] using hcall

theorem executeModelCall_guarded (hp : p.Guarded) : (A.executeModelCall env p).2.Guarded := by
  intro e he
  rw [executeModelCall_trace, List.mem_append, List.mem_singleton] at he
  cases he with
  | inl hmem => exact hp e hmem
  | inr heq =>
    rw [heq]
    rfl

theorem runToolCalls_guarded (hcalls : ∀ call ∈ calls, A.protects call.name = false)
    (hp : p.Guarded) : (A.runToolCalls env calls p).2.Guarded := by
  induction calls generalizing p with
  | nil => exact hp
  | cons call calls ih =>
    have hstep : (A.executeToolCall env call p).2.Guarded :=
      executeToolCall_guarded hp (hcalls call List.mem_cons_self)
    unfold runToolCalls
    split
    next => exact hp
    next =>
      split
      next q heq =>
        rw [heq] at hstep
        apply ih
        · intro c hc
          exact hcalls c (List.mem_cons_of_mem _ hc)
        · exact hstep
      next q heq =>
        rw [heq] at hstep
        exact hstep

theorem executeToolCalls_guarded (h : A.Gated) (hp : p.Guarded) :
    (A.executeToolCalls env calls p).2.Guarded := by
  by_cases hgate : ∃ call ∈ calls, (A.requiresApproval call.name).isSome
  · obtain ⟨e, he, -⟩ := executeToolCalls_of_gated_call env p hgate
    rw [he]
    exact hp
  · have hnone : ∀ call ∈ calls, A.requiresApproval call.name = none := by
      intro call hmem
      by_contra hne
      exact hgate ⟨call, hmem, Option.isSome_iff_ne_none.mpr hne⟩
    rw [executeToolCalls_of_ungated hnone]
    apply runToolCalls_guarded _ hp
    intro call hmem
    by_contra hprot
    have hsome := h call.name (by simpa using hprot)
    rw [hnone call hmem] at hsome
    cases hsome

theorem agenticLoop_guarded (h : A.Gated) {onToolError : ExecError → List Message → List Message}
    {rounds : ℕ} (hp : p.Guarded) : (A.agenticLoop env onToolError rounds p).2.Guarded := by
  induction rounds generalizing p with
  | zero => exact hp
  | succ rounds ih =>
    have hmodel : (A.executeModelCall env p).2.Guarded := executeModelCall_guarded hp
    unfold agenticLoop
    split
    next => exact hp
    next =>
      split
      next e q heq =>
        rw [heq] at hmodel
        exact hmodel
      next choice q heq =>
        rw [heq] at hmodel
        have htools : (A.executeToolCalls env choice.toolCalls
            (q.say (A.processAssistantMessage choice))).2.Guarded := executeToolCalls_guarded h hmodel
        split
        next => exact hmodel
        next =>
          dsimp only
          split
          next e r hr =>
            rw [hr] at htools
            exact htools
          next r hr =>
            rw [hr] at htools
            exact ih htools

/-! ### Gated agents -/

theorem guarded_nil (w : W) (agentMessages newMessages : List Message) :
    (Progress.mk w agentMessages newMessages []).Guarded := by
  intro e he
  cases he

theorem executeAgent_guarded (h : A.Gated) (rounds : ℕ) (w : W) (userInput : Message)
    (history : List Message) : (A.executeAgent env rounds w userInput history).2.Guarded := by
  unfold executeAgent executeLocally
  split
  next => split <;> exact guarded_nil _ _ _
  next =>
    split
    next => exact guarded_nil _ _ _
    next =>
      split
      next => exact agenticLoop_guarded h (guarded_nil _ _ _)
      next => exact guarded_nil _ _ _

theorem resumeFromApproval_guarded (h : A.Gated) (rounds : ℕ) (w : W)
    (results : List ToolResult) (memory : Except String (List Message)) (input : List Message) :
    (A.resumeFromApproval env rounds w calls results memory input).2.Guarded := by
  unfold resumeFromApproval
  split
  next =>
    split
    next => exact guarded_nil _ _ _
    next => exact agenticLoop_guarded h (guarded_nil _ _ _)
  next => exact guarded_nil _ _ _

/-- Surroundings in which the model says nothing and every executor fails. -/
def silentEnv : Env Unit where
  queryConversationId := ""
  resolvePrompt := .ok ""
  chat := fun w _ => (.ok [], w)
  engine := fun w _ _ => (.ok [], w)
  run := fun w _ call => (({ id := call.id }, none), w)
  cancelled := fun _ => false

theorem approvalGating_iff_gated : A.ApprovalGating ↔ A.Gated := by
  constructor
  · intro h name hprot
    by_contra hgate
    let call : ToolCall := ⟨"", name, ""⟩
    have hnone : ∀ c ∈ [call], A.requiresApproval c.name = none := by
      intro c hc
      rw [List.mem_singleton.mp hc]
      simpa using hgate
    obtain ⟨e, he, -⟩ := h.given_up Unit silentEnv [call] ⟨(), [], [], []⟩
      ⟨call, List.mem_singleton_self _, hprot⟩
    rw [executeToolCalls_of_ungated hnone] at he
    obtain ⟨r, hr, -⟩ := (Option.any_eq_true _ _).mp hprot
    simp [runToolCalls, silentEnv, executeToolCall, executeTool, call, hr] at he
  · intro h
    constructor
    · intro W env rounds w userInput history
      exact executeAgent_guarded h rounds w userInput history
    · intro W env rounds w calls results memory input
      exact resumeFromApproval_guarded h rounds w results memory input
    · intro W env calls p hex
      obtain ⟨c, hmem, hc⟩ := hex
      obtain ⟨e, he, hlist⟩ := executeToolCalls_of_gated_call env p
        ⟨c, hmem, h c.name hc⟩
      refine ⟨e, he, ?_⟩
      intro call hcall hprot
      rw [hlist, List.mem_filter]
      exact ⟨hcall, h call.name hprot⟩

/-! ### Agents made from a spec -/

theorem approvalMap_cons (m : String → Option ToolApprovalConfig) (t : AgentTool)
    (tools : List AgentTool) : approvalMap m (t :: tools) =
      approvalMap (if t.approvalRequired then Function.update m t.name t.approval else m) tools := by
  rw [approvalMap]
  unfold AgentTool.approvalRequired
  cases t.approval with
  | none => rfl
  | some approval => cases hreq : approval.required <;> simp [hreq]

theorem approvalMap_isSome (tools : List AgentTool) (m : String → Option ToolApprovalConfig)
    (name : String) : (approvalMap m tools name).isSome ↔
      (∃ t ∈ tools, t.approvalRequired ∧ t.name = name) ∨ (m name).isSome := by
  induction tools generalizing m with
  | nil => simp [approvalMap]
  | cons t tools ih =>
    rw [approvalMap_cons, ih]
    by_cases hreq : t.approvalRequired = true
    · have hsome : t.approval.isSome := by
        obtain ⟨approval, happroval, -⟩ := (Option.any_eq_true _ _).mp hreq
        rw [happroval]
        rfl
      by_cases hname : t.name = name
      · subst hname
        simp [hreq, hsome]
      · simp [hreq, hname, Function.update_of_ne (Ne.symm hname)]
    · simp [hreq]

theorem makeAgent_spec {k : K8sClient} {crd : AgentCRD} (h : makeAgent k crd = .ok A) :
    (∀ name, (A.tools.executors name).map (·.entry) = answering crd.tools name) ∧
      A.approvalRequiredTools = approvalMap (fun _ => none) crd.tools := by
  obtain ⟨-, -, h⟩ := bind_eq_ok.mp h
  obtain ⟨tools, htools, h⟩ := bind_eq_ok.mp h
  cases h
  refine ⟨?_, rfl⟩
  intro name
  simpa [ToolRegistry.new] using registerTools_executors htools name

theorem protects_iff {k : K8sClient} {crd : AgentCRD} (h : makeAgent k crd = .ok A)
    (name : String) : A.protects name ↔ ∃ t, answering crd.tools name = some t ∧
      t.approvalRequired := by
  rw [← (makeAgent_spec h).1 name]
  unfold protects
  cases A.tools.executors name <;> simp

theorem requiresApproval_isSome_iff {k : K8sClient} {crd : AgentCRD}
    (h : makeAgent k crd = .ok A) (name : String) : (A.requiresApproval name).isSome ↔
      ∃ t ∈ crd.tools, t.approvalRequired ∧ t.name = name := by
  rw [requiresApproval, (makeAgent_spec h).2, approvalMap_isSome]
  simp

/-- The gate keeps its promise exactly for the specs in which every name answered by an entry that
asks for approval is itself the `name` of an entry that asks for approval. -/
theorem approval_gating_iff {k : K8sClient} {crd : AgentCRD} (h : makeAgent k crd = .ok A) :
    A.ApprovalGating ↔ ∀ name, ∀ t, answering crd.tools name = some t → t.approvalRequired →
      ∃ t' ∈ crd.tools, t'.approvalRequired ∧ t'.name = name := by
  rw [approvalGating_iff_gated]
  constructor
  · intro hgated name t ht hreq
    exact (requiresApproval_isSome_iff h name).mp (hgated name ((protects_iff h name).mpr ⟨t, ht, hreq⟩))
  · intro hspec name hprot
    obtain ⟨t, ht, hreq⟩ := (protects_iff h name).mp hprot
    exact (requiresApproval_isSome_iff h name).mpr (hspec name t ht hreq)

/-! ### A renamed tool -/

/-- An agent that exposes the Tool `delete-record` with a preset parameter and asks for approval. -/
def renamingCRD : AgentCRD where
  name := "operator"
  «namespace» := "default"
  tools := [{
    type := "http"
    name := "delete-staging-record"
    toolPartial := some ⟨"delete-record", [⟨"table", "staging"⟩]⟩
    approval := some ⟨true, some 60000000000, "reject"⟩ }]

def recordTool : Tool where
  name := "delete-record"
  type := "http"
  inputSchema := .object [
    ("properties", .object [("table", "string"), ("id", "string")]),
    ("required", .array [.str "table", .str "id"])]
  http := some "https://records.example"

def recordClient : K8sClient where
  setup := .ok ()
  getTool := fun name => if name = "delete-record" then .ok recordTool else .error "not found"
  getAgent := fun _ => .error "not found"
  getTeam := fun _ => .error "not found"
  mcpClient := fun _ => .error "no server"

/-- The model's first reply calls `delete-record`. -/
def deletingEnv : Env Unit where
  queryConversationId := ""
  resolvePrompt := .ok "You keep the records."
  chat := fun w _ => (.ok [⟨"", [⟨"call-1", "delete-record", "\x7b\"id\": \"7\"\x7d"⟩]⟩], w)
  engine := fun w _ _ => (.ok [], w)
  run := fun w _ call => (({ id := call.id, content := "deleted" }, none), w)
  cancelled := fun _ => false

/-- An accepted spec whose approval-requiring executor runs without approval: it is registered as
`delete-record`, and the gate knows only `delete-staging-record`. -/
theorem renamed_tool_runs_unapproved :
    validateAgent (.ok ()) (.ok ()) renamingCRD.tools = .ok () ∧
      ∃ A, makeAgent recordClient renamingCRD = .ok A ∧ ¬ A.ApprovalGating := by
  refine ⟨by decide, _, rfl, ?_⟩
  intro h
  have hrun := h.never_invoked Unit deletingEnv 1 () (.user "Delete record 7.") []
  revert hrun
  unfold Progress.Guarded
  decide

/-- The same entry without the rename is gated. -/
def plainCRD : AgentCRD where
  name := "operator"
  «namespace» := "default"
  tools := [{
    type := "http"
    name := "delete-record"
    toolPartial := some ⟨"", [⟨"table", "staging"⟩]⟩
    approval := some ⟨true, some 60000000000, "reject"⟩ }]

theorem approval_gating_without_rename :
    ∃ A, makeAgent recordClient plainCRD = .ok A ∧ A.ApprovalGating := by
  have hmake : ∃ A, makeAgent recordClient plainCRD = .ok A := ⟨_, rfl⟩
  obtain ⟨A, hA⟩ := hmake
  refine ⟨A, hA, (approval_gating_iff hA).mpr ?_⟩
  intro name t ht hreq
  have hmem : t ∈ plainCRD.tools := List.mem_reverse.mp (List.mem_of_find?_eq_some ht)
  have hname : t.getToolCRDName = name := by simpa using List.find?_some ht
  refine ⟨t, hmem, hreq, ?_⟩
  rw [← hname]
  rw [plainCRD, List.mem_singleton] at hmem
  rw [hmem]
  rfl

end Agent
end Ark
