import Ark.TaskPoll
import Mathlib.Data.List.Infix

/-!
# Polling a task more or less often

A status that holds nothing takes over what a snapshot of the task says, every later snapshot is
merged into it. A merge adds artifacts and messages at the end of those the status holds, so the
status that polling ends with is that of the last snapshot if and only if all the lists polled on
the way are beginnings of the last ones and what follows them can be told apart by its identifier.
-/

namespace Ark.A2A

/-! ### Merging a longer list -/

section Merge

variable {seen : List String} {x y z : List TaskMessage}

theorem unseen_length_le (seen : List String) (messages : List TaskMessage) :
    (unseen seen messages).length ≤ messages.length := by
  induction messages generalizing seen with
  | nil => exact Nat.le_refl _
  | cons m messages ih =>
    rw [unseen]
    split
    · exact Nat.succ_le_succ (ih _)
    · exact Nat.le_succ_of_le (ih _)

theorem unseen_append (h : ∀ m ∈ x, m.messageID = "" ∨ m.messageID ∈ seen) :
    unseen seen (x ++ z) = unseen seen z := by
  induction x with
  | nil => rfl
  | cons m x ih =>
    rw [List.forall_mem_cons] at h
    rw [List.cons_append, unseen, if_neg fun hm => h.1.elim hm.1 hm.2, ih h.2]

theorem unseen_eq_self : unseen seen z = z ↔
    (∀ m ∈ z, m.messageID ≠ "" ∧ m.messageID ∉ seen) ∧ (z.map (·.messageID)).Nodup := by
  induction z generalizing seen with
  | nil => simp [unseen]
  | cons m z ih =>
    rw [unseen, List.forall_mem_cons, List.map_cons, List.nodup_cons]
    split
    next h =>
      simp only [List.cons.injEq, true_and, ih, List.mem_cons, not_or, List.mem_map, not_exists,
        not_and]
      constructor
      · rintro ⟨hz, hnodup⟩
        exact ⟨⟨h, fun m' hm' => ⟨(hz m' hm').1, (hz m' hm').2.2⟩⟩,
          fun m' hm' => (hz m' hm').2.1, hnodup⟩
      · rintro ⟨⟨-, hz⟩, hm, hnodup⟩
        exact ⟨fun m' hm' => ⟨(hz m' hm').1, hm m' hm', (hz m' hm').2⟩, hnodup⟩
    next h =>
      refine iff_of_false (fun heq => ?_) fun hz => h hz.1.1
      have hlength := unseen_length_le seen z
      rw [heq, List.length_cons] at hlength
      omega

/-- The identifiers of the messages that have one. -/
def messageIDs (messages : List TaskMessage) : List String :=
  (messages.map (·.messageID)).filter (· ≠ "")

theorem mem_messageIDs {m : TaskMessage} (hm : m ∈ x) :
    m.messageID = "" ∨ m.messageID ∈ messageIDs x := by
  by_cases h : m.messageID = ""
  · exact .inl h
  · exact .inr (List.mem_filter.mpr ⟨List.mem_map_of_mem hm, decide_eq_true h⟩)

/-- The messages that follow the first `n` have identifiers. -/
def NamedAfter (n : ℕ) (messages : List TaskMessage) : Prop :=
  ∀ m ∈ messages.drop n, m.messageID ≠ ""

theorem NamedAfter.mono {m n : ℕ} (h : NamedAfter m x) (hmn : m ≤ n) : NamedAfter n x :=
  fun _ hm => h _ (List.drop_subset_drop_left x hmn hm)

theorem NamedAfter.of_begins {n : ℕ} (h : NamedAfter n y) (hxy : x <+: y) : NamedAfter n x := by
  obtain ⟨z, rfl⟩ := hxy
  intro m hm
  refine h m ?_
  rw [List.drop_append]
  exact List.mem_append_left _ hm

theorem messageIDs_sublist (h : x <+: y) : (messageIDs x).Sublist (messageIDs y) := by
  unfold messageIDs
  exact (h.sublist.map _).filter _

/-- Merging a history that continues the stored one yields it if and only if every message that
comes new has an identifier of its own. -/
theorem mergeHistory_eq_right (hnodup : (messageIDs y).Nodup) :
    mergeHistory x y = y ↔ x <+: y ∧ NamedAfter x.length y := by
  constructor
  · intro h
    have hy : y = x ++ unseen (messageIDs x) y := h.symm
    have hbegins : x <+: y := ⟨_, h⟩
    refine ⟨hbegins, ?_⟩
    obtain ⟨z, rfl⟩ := hbegins
    rw [unseen_append fun m => mem_messageIDs, List.append_cancel_left_eq, eq_comm,
      unseen_eq_self] at hy
    rw [NamedAfter, List.drop_left]
    exact fun m hm => (hy.1 m hm).1
  · rintro ⟨⟨z, rfl⟩, hnamed⟩
    rw [NamedAfter, List.drop_left] at hnamed
    have hz : messageIDs z = z.map (·.messageID) := by
      rw [messageIDs, List.filter_eq_self]
      intro id hid
      obtain ⟨m, hm, rfl⟩ := List.mem_map.mp hid
      exact decide_eq_true (hnamed m hm)
    rw [messageIDs, List.map_append, List.filter_append, ← messageIDs, ← messageIDs, hz,
      List.nodup_append] at hnodup
    have hself : unseen (messageIDs x) z = z := unseen_eq_self.mpr
      ⟨fun m hm => ⟨hnamed m hm, fun hx => hnodup.2.2 _ hx _ (List.mem_map_of_mem hm) rfl⟩,
        hnodup.2.1⟩
    change x ++ unseen (messageIDs x) (x ++ z) = x ++ z
    rw [unseen_append fun m => mem_messageIDs, hself]

theorem mergeHistory_of_begins (h : y <+: x) : mergeHistory x y = x :=
  mergeHistory_eq_left fun _ hm => .inr (List.mem_map_of_mem (h.subset hm))

end Merge

section MergeArtifacts

variable {x y : List TaskArtifact}

theorem mergeArtifacts_eq_right (hnodup : (y.map (·.artifactID)).Nodup) :
    mergeArtifacts x y = y ↔ x <+: y := by
  constructor
  · exact fun h => ⟨_, h⟩
  · rintro ⟨z, rfl⟩
    rw [List.map_append, List.nodup_append] at hnodup
    have hx : x.filter (fun a => a.artifactID ∉ x.map (·.artifactID)) = [] :=
      List.filter_eq_nil_iff.mpr fun a ha hnot =>
        of_decide_eq_true hnot (List.mem_map_of_mem ha)
    have hz : z.filter (fun a => a.artifactID ∉ x.map (·.artifactID)) = z :=
      List.filter_eq_self.mpr fun a ha => decide_eq_true fun hmem =>
        hnodup.2.2 _ hmem _ (List.mem_map_of_mem ha) rfl
    rw [mergeArtifacts, List.filter_append, hx, hz, List.nil_append]

theorem mergeArtifacts_of_begins (h : y <+: x) : mergeArtifacts x y = x :=
  mergeArtifacts_eq_left fun _ ha => List.mem_map_of_mem (h.subset ha)

end MergeArtifacts

/-! ### Polled snapshots -/

/-- What the protocol task adds to a status. -/
def ProtocolTask.taskArtifacts (task : ProtocolTask) : List TaskArtifact :=
  convertArtifactsFromProtocol task.artifacts

variable {parse : String → Option Int} {s : TaskStatus} {last T : ProtocolTask}
  {obs S : List ProtocolTask}

def polls (parse : String → Option Int) (s : TaskStatus) (obs : List ProtocolTask) : TaskStatus :=
  obs.foldl (fun s T => updateA2ATaskStatus parse s (some T)) s

/-- What the status records of the task is the same. -/
structure SameTask (s s' : TaskStatus) : Prop where
  artifacts : s.artifacts = s'.artifacts
  history : s.history = s'.history
  protocolState : s.protocolState = s'.protocolState
  phase : s.phase = s'.phase
  contextID : s.contextID = s'.contextID
  protocolMetadata : s.protocolMetadata = s'.protocolMetadata

/-- No artifact and no message stands in the status twice. -/
structure NoneTwice (s : TaskStatus) : Prop where
  artifacts : (s.artifacts.map (·.artifactID)).Nodup
  history : (messageIDs s.history).Nodup

/-- Of the snapshots in `S`, all before `last`, it does not matter which were polled. -/
def PollsAgree (parse : String → Option Int) (s : TaskStatus) (S : List ProtocolTask)
    (last : ProtocolTask) : Prop :=
  ∀ obs, obs.Sublist S →
    SameTask (polls parse s (obs ++ [last])) (polls parse s [last]) ∧
      NoneTwice (polls parse s (obs ++ [last]))

/-- The snapshot holds nothing, or its lists are beginnings of those of the last one, with
identifiers on all messages that come later. -/
def Continued (last T : ProtocolTask) : Prop :=
  (T.taskArtifacts = [] ∧ T.fullHistory = []) ∨
    T.taskArtifacts <+: last.taskArtifacts ∧ T.fullHistory <+: last.fullHistory ∧
      NamedAfter T.fullHistory.length last.fullHistory

/-- The last snapshot repeats no identifier, and it continues all the others. -/
structure Settled (S : List ProtocolTask) (last : ProtocolTask) : Prop where
  artifacts : (last.taskArtifacts.map (·.artifactID)).Nodup
  history : (messageIDs last.fullHistory).Nodup
  continued : ∀ T ∈ S, Continued last T

/-! ### One poll -/

def TaskStatus.Blank (s : TaskStatus) : Prop := s.history = [] ∧ s.artifacts = []

theorem updateA2ATaskStatus_of_blank (parse : String → Option Int) (T : ProtocolTask) (h : s.Blank) :
    (updateA2ATaskStatus parse s (some T)).artifacts = T.taskArtifacts ∧
      (updateA2ATaskStatus parse s (some T)).history = T.fullHistory := by
  rw [updateA2ATaskStatus_eq, h.1, h.2]
  exact ⟨mergeArtifacts_nil _, rfl⟩

theorem updateA2ATaskStatus_of_not_blank (parse : String → Option Int) (T : ProtocolTask)
    (h : ¬ s.Blank) :
    (updateA2ATaskStatus parse s (some T)).artifacts = mergeArtifacts s.artifacts T.taskArtifacts ∧
      (updateA2ATaskStatus parse s (some T)).history = mergeHistory s.history T.fullHistory := by
  have hempty : ¬ (s.history.isEmpty && s.artifacts.isEmpty) = true := by
    rw [Bool.and_eq_true, List.isEmpty_iff, List.isEmpty_iff]
    exact h
  rw [updateA2ATaskStatus_eq]
  exact ⟨rfl, if_neg hempty⟩

/-- A poll always takes over the other fields, whatever the status was. -/
theorem sameTask_update {s s' : TaskStatus} {T : ProtocolTask}
    (hartifacts : (updateA2ATaskStatus parse s (some T)).artifacts =
      (updateA2ATaskStatus parse s' (some T)).artifacts)
    (hhistory : (updateA2ATaskStatus parse s (some T)).history =
      (updateA2ATaskStatus parse s' (some T)).history) :
    SameTask (updateA2ATaskStatus parse s (some T)) (updateA2ATaskStatus parse s' (some T)) := by
  refine ⟨hartifacts, hhistory, ?_, ?_, ?_, ?_⟩ <;>
    rw [updateA2ATaskStatus_eq, updateA2ATaskStatus_eq]

/-- The status has what `last` begins with. -/
structure Behind (last : ProtocolTask) (s : TaskStatus) : Prop where
  artifacts : s.artifacts <+: last.taskArtifacts
  history : s.history <+: last.fullHistory
  named : ¬ s.Blank → NamedAfter s.history.length last.fullHistory

theorem Behind.of_blank (h : s.Blank) : Behind last s where
  artifacts := h.2 ▸ List.nil_prefix
  history := h.1 ▸ List.nil_prefix
  named hnot := absurd h hnot

theorem Behind.update (hlast : Settled S last) (hT : Continued last T) (h : Behind last s) :
    Behind last (updateA2ATaskStatus parse s (some T)) := by
  by_cases hblank : s.Blank
  · obtain ⟨hartifacts, hhistory⟩ := updateA2ATaskStatus_of_blank parse T hblank
    rcases hT with hempty | ⟨htasks, hmessages, hnamed⟩
    · exact .of_blank ⟨hhistory.trans hempty.2, hartifacts.trans hempty.1⟩
    · exact ⟨hartifacts ▸ htasks, hhistory ▸ hmessages, fun _ => hhistory ▸ hnamed⟩
  · obtain ⟨hartifacts, hhistory⟩ :=
      updateA2ATaskStatus_of_not_blank parse T hblank
    have hlists : T.taskArtifacts <+: last.taskArtifacts ∧ T.fullHistory <+: last.fullHistory := by
      rcases hT with ⟨htasks, hmessages⟩ | ⟨htasks, hmessages, -⟩
      · rw [htasks, hmessages]
        exact ⟨List.nil_prefix, List.nil_prefix⟩
      · exact ⟨htasks, hmessages⟩
    have hnamed := h.named hblank
    refine ⟨?_, ?_, fun _ => ?_⟩
    · rw [hartifacts]
      rcases List.prefix_or_prefix_of_prefix h.artifacts hlists.1 with hle | hle
      · have hnodup := hlast.artifacts.sublist (hlists.1.sublist.map (·.artifactID))
        rw [(mergeArtifacts_eq_right hnodup).mpr hle]
        exact hlists.1
      · rw [mergeArtifacts_of_begins hle]
        exact h.artifacts
    · rw [hhistory]
      rcases List.prefix_or_prefix_of_prefix h.history hlists.2 with hle | hle
      · have hnodup := hlast.history.sublist (messageIDs_sublist hlists.2)
        rw [(mergeHistory_eq_right hnodup).mpr ⟨hle, hnamed.of_begins hlists.2⟩]
        exact hlists.2
      · rw [mergeHistory_of_begins hle]
        exact h.history
    · refine hnamed.mono ?_
      rw [hhistory, mergeHistory, List.length_append]
      exact Nat.le_add_right _ _

theorem Behind.polls (hlast : Settled S last) (hobs : ∀ T ∈ obs, Continued last T)
    (h : Behind last s) : Behind last (polls parse s obs) := by
  induction obs generalizing s with
  | nil => exact h
  | cons T obs ih =>
    rw [List.forall_mem_cons] at hobs
    exact ih hobs.2 (h.update hlast hobs.1)

/-- The last poll fills in what is missing. -/
theorem Behind.settle (parse : String → Option Int) (hlast : Settled S last) (h : Behind last s) :
    (updateA2ATaskStatus parse s (some last)).artifacts = last.taskArtifacts ∧
      (updateA2ATaskStatus parse s (some last)).history = last.fullHistory := by
  by_cases hblank : s.Blank
  · exact updateA2ATaskStatus_of_blank parse last hblank
  · obtain ⟨hartifacts, hhistory⟩ :=
      updateA2ATaskStatus_of_not_blank parse last hblank
    rw [hartifacts, hhistory]
    exact ⟨(mergeArtifacts_eq_right hlast.artifacts).mpr h.artifacts,
      (mergeHistory_eq_right hlast.history).mpr ⟨h.history, h.named hblank⟩⟩

/-! ### Any choice of polls -/

theorem polls_append : polls parse s (obs ++ [last]) =
    updateA2ATaskStatus parse (polls parse s obs) (some last) := by
  rw [polls, List.foldl_append]
  rfl

theorem pollsAgree_of_settled (hs : s.Blank) (h : Settled S last) : PollsAgree parse s S last := by
  intro obs hobs
  have hbehind : Behind last (polls parse s obs) :=
    (Behind.of_blank hs).polls h fun T hT => h.continued T (hobs.subset hT)
  obtain ⟨hartifacts, hhistory⟩ := hbehind.settle parse h
  obtain ⟨hartifacts', hhistory'⟩ := updateA2ATaskStatus_of_blank parse last hs
  rw [polls_append]
  refine ⟨sameTask_update (hartifacts.trans hartifacts'.symm) (hhistory.trans hhistory'.symm),
    ?_, ?_⟩
  · rw [hartifacts]
    exact h.artifacts
  · rw [hhistory]
    exact h.history

/-- What polling `T` and then `last` yields tells whether `T` is continued. -/
theorem continued_of_agree (hs : s.Blank)
    (hartifacts : (last.taskArtifacts.map (·.artifactID)).Nodup)
    (hhistory : (messageIDs last.fullHistory).Nodup)
    (h : SameTask (polls parse s ([T] ++ [last])) (polls parse s [last])) : Continued last T := by
  obtain ⟨hlastArtifacts, hlastHistory⟩ :=
    updateA2ATaskStatus_of_blank parse last hs
  obtain ⟨hTartifacts, hThistory⟩ := updateA2ATaskStatus_of_blank parse T hs
  have hsame := h.artifacts
  have hsame' := h.history
  rw [polls_append] at hsame hsame'
  change (updateA2ATaskStatus parse (updateA2ATaskStatus parse s (some T)) (some last)).artifacts =
    (updateA2ATaskStatus parse s (some last)).artifacts at hsame
  change (updateA2ATaskStatus parse (updateA2ATaskStatus parse s (some T)) (some last)).history =
    (updateA2ATaskStatus parse s (some last)).history at hsame'
  by_cases hblank : (updateA2ATaskStatus parse s (some T)).Blank
  · exact .inl ⟨hTartifacts.symm.trans hblank.2, hThistory.symm.trans hblank.1⟩
  · obtain ⟨hmerged, hmerged'⟩ :=
      updateA2ATaskStatus_of_not_blank parse last hblank
    rw [hmerged, hlastArtifacts, hTartifacts, mergeArtifacts_eq_right hartifacts] at hsame
    rw [hmerged', hlastHistory, hThistory, mergeHistory_eq_right hhistory] at hsame'
    exact .inr ⟨hsame, hsame'⟩

/-- A working task with an artifact and the given messages. -/
def reporting (report : String) (messages : List (String × String)) : ProtocolTask where
  id := "task"
  contextID := "context"
  artifacts := [⟨"report", none, none, [.text report], fun _ => none⟩]
  history := messages.map fun m => ⟨m.1, "agent", [.text m.2], fun _ => none⟩
  metadata := fun _ => none
  state := "working"
  message := none
  timestamp := ""

/-- It does not matter how often a task was polled if and only if its snapshots are settled. -/
theorem pollsAgree_iff (hs : s.Blank) : PollsAgree parse s S last ↔ Settled S last := by
  refine ⟨fun h => ?_, pollsAgree_of_settled hs⟩
  obtain ⟨hartifacts, hhistory⟩ := updateA2ATaskStatus_of_blank parse last hs
  obtain ⟨-, halone⟩ := h [] (List.nil_sublist S)
  have hnodup : (last.taskArtifacts.map (·.artifactID)).Nodup := hartifacts ▸ halone.artifacts
  have hnodup' : (messageIDs last.fullHistory).Nodup := hhistory ▸ halone.history
  refine ⟨hnodup, hnodup', fun T hT => ?_⟩
  exact continued_of_agree hs hnodup hnodup' (h [T] (List.singleton_sublist.mpr hT)).1

theorem pollsAgree_named_messages : PollsAgree (fun _ => none) {}
    [reporting "draft" [("1", "a")], reporting "draft" [("1", "a"), ("2", "b")]]
    (reporting "draft" [("1", "a"), ("2", "b"), ("3", "c")]) := by
  refine (pollsAgree_iff ⟨rfl, rfl⟩).mpr ⟨by decide, by decide, ?_⟩
  refine List.forall_mem_cons.mpr ⟨?_, List.forall_mem_singleton.mpr ?_⟩
  · exact .inr ⟨List.prefix_rfl, ⟨_, rfl⟩, List.forall_mem_cons.mpr
      ⟨by decide, List.forall_mem_singleton.mpr (by decide)⟩⟩
  · exact .inr ⟨List.prefix_rfl, ⟨_, rfl⟩, List.forall_mem_singleton.mpr (by decide)⟩

/-! ### Growing tasks -/

/-- A later snapshot of a task whose messages, those of the status among them, are only appended
to, and whose artifacts are added or replaced. -/
structure Grows (T T' : ProtocolTask) : Prop where
  messages : T.history ++ T.message.toList <+: T'.history ++ T'.message.toList
  artifacts : T.artifacts.map (·.artifactID) ⊆ T'.artifacts.map (·.artifactID)

theorem Grows.fullHistory {T T' : ProtocolTask} (h : Grows T T') :
    T.fullHistory <+: T'.fullHistory :=
  (h.messages.filter _).map _

/-- A growing task settles unless an artifact changes, or a message without an identifier comes
after the first snapshot that holds something. -/
theorem settled_iff_of_grows (hgrows : ∀ T ∈ S, Grows T last) : Settled S last ↔
    (last.taskArtifacts.map (·.artifactID)).Nodup ∧ (messageIDs last.fullHistory).Nodup ∧
      ∀ T ∈ S, ¬ (T.taskArtifacts = [] ∧ T.fullHistory = []) →
        T.taskArtifacts <+: last.taskArtifacts ∧
          NamedAfter T.fullHistory.length last.fullHistory := by
  constructor
  · intro h
    refine ⟨h.artifacts, h.history, fun T hT hsome => ?_⟩
    obtain ⟨htasks, -, hnamed⟩ := (h.continued T hT).resolve_left hsome
    exact ⟨htasks, hnamed⟩
  · rintro ⟨hartifacts, hhistory, h⟩
    refine ⟨hartifacts, hhistory, fun T hT => ?_⟩
    by_cases hsome : T.taskArtifacts = [] ∧ T.fullHistory = []
    · exact .inl hsome
    · obtain ⟨htasks, hnamed⟩ := h T hT hsome
      exact .inr ⟨htasks, (hgrows T hT).fullHistory, hnamed⟩

/-- A replaced artifact keeps its first content, and a new message without an identifier is lost. -/
theorem replaced_and_unnamed_lost :
    (Grows (reporting "draft" []) (reporting "final" []) ∧
      ¬ PollsAgree (fun _ => none) {} [reporting "draft" []] (reporting "final" [])) ∧
    Grows (reporting "draft" [("1", "a")]) (reporting "draft" [("1", "a"), ("", "b")]) ∧
      ¬ PollsAgree (fun _ => none) {} [reporting "draft" [("1", "a")]]
        (reporting "draft" [("1", "a"), ("", "b")]) := by
  refine ⟨⟨⟨List.prefix_rfl, List.Subset.refl _⟩, fun h => ?_⟩,
    ⟨⟨_, rfl⟩, List.Subset.refl _⟩, fun h => ?_⟩
  · have hsame := (h _ (List.Sublist.refl _)).1.artifacts
    have htexts := congrArg (List.map fun a => a.parts.map (·.text)) hsame
    exact absurd htexts (by decide)
  · have hsame := (h _ (List.Sublist.refl _)).1.history
    exact absurd (congrArg List.length hsame) (by decide)

end Ark.A2A
