import Ark.SessionBackends
import Mathlib.Order.Bounds.Basic

/-!
# Conversation summaries and the order of creation

A summary takes its start, its name and its type from the first queries of the conversation and its
duration from the last one, in the order in which the record of the session's queries enumerates
them. Names that are array indices come first there, whenever they were created. The summary
follows the order of creation exactly when the first query, the first query with a participant and
the second in which the last one completed do not depend on that.
-/

namespace Ark.Session

open KeyedTable

/-! ### Durations -/

theorem digits_injective {m n : ℕ} (h : Nat.toDigits 10 m = Nat.toDigits 10 n) : m = n := by
  rw [← Nat.ofDigitChars_toDigits (n := m) (by omega : 1 < 10) le_rfl, h,
    Nat.ofDigitChars_toDigits (by omega) le_rfl]

theorem toList_toString_ofNat (n : ℕ) : (toString (n : ℤ)).toList = Nat.toDigits 10 n := by
  rw [Int.toString_eq_repr]
  change n.repr.toList = Nat.toDigits 10 n
  exact Nat.toList_repr

theorem toList_toString_negSucc (n : ℕ) :
    (toString (Int.negSucc n)).toList = '-' :: Nat.toDigits 10 (n + 1) := by
  rw [Int.toString_eq_repr]
  simp [Int.repr]

theorem not_mem_digits {n : ℕ} {c : Char} (hc : c.isDigit = false) : c ∉ Nat.toDigits 10 n := by
  intro h
  have hdigit := Nat.isDigit_of_mem_toDigits (by omega) le_rfl h
  rw [hc] at hdigit
  cases hdigit

theorem toString_injective {a b : ℤ} (h : toString a = toString b) : a = b := by
  replace h := congrArg String.toList h
  cases a with
  | ofNat m =>
    cases b with
    | ofNat n =>
      change (toString (m : ℤ)).toList = (toString (n : ℤ)).toList at h
      rw [toList_toString_ofNat, toList_toString_ofNat] at h
      rw [digits_injective h]
    | negSucc n =>
      change (toString (m : ℤ)).toList = _ at h
      rw [toList_toString_ofNat, toList_toString_negSucc] at h
      exact absurd (h ▸ List.mem_cons_self) (not_mem_digits (c := '-') (by decide))
  | negSucc m =>
    cases b with
    | ofNat n =>
      change _ = (toString (n : ℤ)).toList at h
      rw [toList_toString_ofNat, toList_toString_negSucc] at h
      exact absurd (h ▸ List.mem_cons_self) (not_mem_digits (c := '-') (by decide))
    | negSucc n =>
      rw [toList_toString_negSucc, toList_toString_negSucc, List.cons.injEq] at h
      have hdigits := digits_injective h.2
      rw [show m = n by omega]

theorem not_mem_toString {a : ℤ} {c : Char} (hc : c.isDigit = false) (hminus : c ≠ '-') :
    c ∉ (toString a).toList := by
  cases a with
  | ofNat n =>
    change c ∉ (toString (n : ℤ)).toList
    rw [toList_toString_ofNat]
    exact not_mem_digits hc
  | negSucc n =>
    rw [toList_toString_negSucc, List.mem_cons, not_or]
    exact ⟨hminus, not_mem_digits hc⟩

/-- The whole seconds from one time to another. -/
def wholeSeconds (start stop : ℕ) : ℤ := ((stop : ℤ) - start) / 1000

/-- The text of a number of seconds. -/
def durationText (seconds : ℤ) : String :=
  if 0 < seconds / 60 then
    (toString (seconds / 60) ++ "m ") ++ (toString (seconds % 60) ++ "s")
  else toString seconds ++ "s"

theorem calculateDuration_some (start stop : ℕ) :
    calculateDuration start (some stop) = durationText (wholeSeconds start stop) := rfl

theorem toList_durationText_of_pos {s : ℤ} (h : 0 < s / 60) : (durationText s).toList =
    (toString (s / 60)).toList ++ 'm' :: (' ' :: (toString (s % 60)).toList ++ ['s']) := by
  rw [durationText, if_pos h]
  simp

theorem toList_durationText_of_not_pos {s : ℤ} (h : ¬ 0 < s / 60) :
    (durationText s).toList = (toString s).toList ++ ['s'] := by
  rw [durationText, if_neg h]
  simp

/-- A text below a minute does not have the letter that follows the minutes. -/
theorem mem_durationText {s : ℤ} : 'm' ∈ (durationText s).toList ↔ 0 < s / 60 := by
  have hnot : ∀ a : ℤ, 'm' ∉ (toString a).toList :=
    fun a => not_mem_toString (by decide) (by decide)
  by_cases h : 0 < s / 60
  · simp [toList_durationText_of_pos h, h]
  · rw [toList_durationText_of_not_pos h, List.mem_append]
    simpa [h] using hnot s

theorem durationText_injective {s t : ℤ} (h : durationText s = durationText t) : s = t := by
  have hnot : ∀ a : ℤ, 'm' ∉ (toString a).toList :=
    fun a => not_mem_toString (by decide) (by decide)
  have hlong : 0 < s / 60 ↔ 0 < t / 60 := by rw [← mem_durationText, h, mem_durationText]
  have hlist := congrArg String.toList h
  by_cases hs : 0 < s / 60
  · rw [toList_durationText_of_pos hs, toList_durationText_of_pos (hlong.mp hs)] at hlist
    have hrest : 'm' ∉ ' ' :: (toString (s % 60)).toList ++ ['s'] := by
      simpa using hnot (s % 60)
    obtain ⟨hminutes, -, hseconds⟩ :=
      (List.append_cons_inj_of_notMem (hnot (s / 60)) hrest).mp hlist
    rw [List.cons_append, List.cons_append, List.cons.injEq, List.append_left_inj] at hseconds
    have hminute := toString_injective (String.toList_injective hminutes)
    have hsecond := toString_injective (String.toList_injective hseconds.2)
    omega
  · rw [toList_durationText_of_not_pos hs,
      toList_durationText_of_not_pos fun ht => hs (hlong.mpr ht), List.append_left_inj] at hlist
    exact toString_injective (String.toList_injective hlist)

/-- No text of a number of seconds is the text of a missing completion. -/
theorem durationText_ne_ongoing (s : ℤ) : durationText s ≠ "ongoing" := by
  intro h
  have hlast : (durationText s).toList.getLast? = some 's' := by
    by_cases hs : 0 < s / 60
    · rw [toList_durationText_of_pos hs, ← List.cons_append, ← List.append_assoc,
        List.getLast?_concat]
    · rw [toList_durationText_of_not_pos hs, List.getLast?_concat]
  rw [h] at hlast
  exact absurd hlast (by decide)

/-- Two durations from one start have the same text exactly when they have as many seconds. -/
theorem calculateDuration_eq_iff {start : ℕ} {a b : Option ℕ} :
    calculateDuration start a = calculateDuration start b ↔
      a.map (wholeSeconds start) = b.map (wholeSeconds start) := by
  cases a with
  | none =>
    cases b with
    | none => simp
    | some t =>
      rw [calculateDuration_some]
      simpa [calculateDuration] using (durationText_ne_ongoing _).symm
  | some s =>
    cases b with
    | none =>
      rw [calculateDuration_some]
      simpa [calculateDuration] using durationText_ne_ongoing _
    | some t =>
      rw [calculateDuration_some, calculateDuration_some, Option.map_some, Option.map_some,
        Option.some_inj]
      exact ⟨durationText_injective, congrArg durationText⟩

/-! ### The order of creation -/

/-- `q.team || q.agent || q.tool`, if it is truthy. -/
def QueryEntry.participant (q : QueryEntry) : Option String :=
  nonEmpty (orElse (orElse q.team q.agent) q.tool)

/-- The participant type that the target of a query stands for. -/
def TargetType.participantType : TargetType → ParticipantType
  | .team => .team
  | .tool => .tool
  | _ => .agent

def ofConversation (convId : String) (queries : List QueryEntry) : List QueryEntry :=
  queries.filter fun q => nonEmpty q.conversationId = some convId

def byCreation (queries : List QueryEntry) : List QueryEntry :=
  queries.insertionSort fun q q' => q.createdAt ≤ q'.createdAt

/-- What the summaries of a session's conversations are for. -/
structure FollowsCreation (queries : List QueryEntry) (conversations : List ConversationSummary) :
    Prop where
  once : (conversations.map ConversationSummary.conversationId).Nodup
  conversationId : ∀ convId, convId ∈ conversations.map ConversationSummary.conversationId ↔
    ∃ q ∈ queries, nonEmpty q.conversationId = some convId
  messageCount : ∀ s ∈ conversations,
    s.messageCount = (ofConversation s.conversationId queries).length
  errorCount : ∀ s ∈ conversations,
    s.errorCount = (ofConversation s.conversationId queries).countP isFailed
  startTime : ∀ s ∈ conversations,
    IsLeast {t | ∃ q ∈ ofConversation s.conversationId queries, q.createdAt = t} s.startTime
  duration : ∀ s ∈ conversations,
    ∀ latest ∈ (byCreation (ofConversation s.conversationId queries)).getLast?,
      s.duration = calculateDuration s.startTime latest.completedAt
  name : ∀ s ∈ conversations,
    s.name = ((byCreation (ofConversation s.conversationId queries)).findSome?
      QueryEntry.participant).getD s.conversationId
  participantType : ∀ s ∈ conversations,
    ∀ first ∈ (byCreation (ofConversation s.conversationId queries)).head?,
      s.participantType = first.targetType.participantType

/-- The condition on the record of a session's queries: in each conversation the query that the
record enumerates first was created first, the first query with a participant has the participant of
the first one created with one, and the last query completed in the same second after the start as
the last one created. -/
structure EnumeratedAsCreated (queries : List QueryEntry) : Prop where
  first : ∀ convId, (ofConversation convId (objectValues queries)).head? =
    (byCreation (ofConversation convId queries)).head?
  participant : ∀ convId,
    (ofConversation convId (objectValues queries)).findSome? QueryEntry.participant =
      (byCreation (ofConversation convId queries)).findSome? QueryEntry.participant
  last : ∀ convId, ∀ first ∈ (byCreation (ofConversation convId queries)).head?,
    ((ofConversation convId (objectValues queries)).getLast?.bind (·.completedAt)).map
        (wholeSeconds first.createdAt) =
      ((byCreation (ofConversation convId queries)).getLast?.bind (·.completedAt)).map
        (wholeSeconds first.createdAt)

variable {queries queries' : List QueryEntry} {convId : String}

theorem mem_ofConversation {q : QueryEntry} : q ∈ ofConversation convId queries ↔
    q ∈ queries ∧ nonEmpty q.conversationId = some convId := by
  simp [ofConversation]

theorem perm_byCreation (l : List QueryEntry) : (byCreation l).Perm l := List.perm_insertionSort _ l

theorem ofConversation_perm (h : queries.Perm queries') :
    (ofConversation convId queries).Perm (ofConversation convId queries') := h.filter _

theorem pairwise_byCreation (l : List QueryEntry) :
    (byCreation l).Pairwise fun q q' => q.createdAt ≤ q'.createdAt := by
  have htotal : Std.Total fun q q' : QueryEntry => q.createdAt ≤ q'.createdAt :=
    ⟨fun q q' => le_total q.createdAt q'.createdAt⟩
  have htrans : IsTrans QueryEntry fun q q' => q.createdAt ≤ q'.createdAt :=
    ⟨fun _ _ _ => le_trans⟩
  exact List.pairwise_insertionSort _ l

/-- The enumeration of a conversation has its queries in another order. -/
theorem enumeration_perm (convId : String) (queries : List QueryEntry) :
    (ofConversation convId (objectValues queries)).Perm
      (byCreation (ofConversation convId queries)) :=
  (ofConversation_perm (ownOrder_perm QueryEntry.name queries)).trans (perm_byCreation _).symm

/-- The first query in the order of creation is one of the earliest. -/
theorem isLeast_of_head {l : List QueryEntry} {first : QueryEntry}
    (h : (byCreation l).head? = some first) :
    first ∈ l ∧ IsLeast {t | ∃ q ∈ l, q.createdAt = t} first.createdAt := by
  obtain ⟨rest, hrest⟩ := List.head?_eq_some_iff.mp h
  have hmem : first ∈ l := (perm_byCreation l).mem_iff.mp (hrest ▸ List.mem_cons_self)
  refine ⟨hmem, ⟨first, hmem, rfl⟩, ?_⟩
  rintro t ⟨q, hq, rfl⟩
  have hq' : q ∈ first :: rest := hrest ▸ (perm_byCreation l).mem_iff.mpr hq
  have hsorted := hrest ▸ pairwise_byCreation l
  obtain rfl | hq' := List.mem_cons.mp hq'
  · exact le_rfl
  · exact (List.pairwise_cons.mp hsorted).1 q hq'

/-- A list in the order of creation is the only one when no two times are the same. -/
theorem eq_byCreation (h : queries.Perm queries')
    (hsorted : queries.Pairwise fun q q' => q.createdAt ≤ q'.createdAt)
    (hn : (queries'.map QueryEntry.createdAt).Nodup) : queries = byCreation queries' := by
  have hanti : ∀ q q', q ∈ queries → q' ∈ byCreation queries' →
      q.createdAt ≤ q'.createdAt → q'.createdAt ≤ q.createdAt → q = q' := by
    intro q q' hq hq' hle hle'
    exact List.inj_on_of_nodup_map hn (h.mem_iff.mp hq) ((perm_byCreation queries').mem_iff.mp hq')
      (le_antisymm hle hle')
  exact List.Perm.eq_of_pairwise hanti hsorted (pairwise_byCreation queries')
    (h.trans (perm_byCreation queries').symm)

theorem byCreation_eq_of_perm (h : queries.Perm queries')
    (hn : (queries'.map QueryEntry.createdAt).Nodup) : byCreation queries = byCreation queries' :=
  eq_byCreation ((perm_byCreation queries).trans h) (pairwise_byCreation queries) hn

theorem nodup_ofConversation (hn : (queries.map QueryEntry.createdAt).Nodup) :
    ((ofConversation convId queries).map QueryEntry.createdAt).Nodup :=
  hn.sublist (List.filter_sublist.map QueryEntry.createdAt)

/-! ### The summaries -/

theorem nodup_eraseDups {α : Type*} [DecidableEq α] (l : List α) : l.eraseDups.Nodup := by
  induction h : l.length using Nat.strong_induction_on generalizing l with
  | _ n ih =>
    cases l with
    | nil => exact List.nodup_nil
    | cons a l =>
      rw [List.eraseDups_cons, List.nodup_cons, List.mem_eraseDups]
      refine ⟨by simp, ih _ ?_ _ rfl⟩
      have hle := List.length_filter_le (fun b => !b == a) l
      rw [List.length_cons] at h
      omega

theorem head?_eraseDups {α : Type*} [DecidableEq α] (l : List α) : l.eraseDups.head? = l.head? := by
  cases l with
  | nil => rfl
  | cons a l => rw [List.eraseDups_cons, List.head?_cons, List.head?_cons]

theorem mem_conversationsOf {s : ConversationSummary} : s ∈ conversationsOf queries ↔
    ∃ convId first rest, ofConversation convId (objectValues queries) = first :: rest ∧
      s = summarize convId first rest := by
  simp only [conversationsOf, List.mem_filterMap, List.mem_eraseDups]
  constructor
  · rintro ⟨convId, -, hs⟩
    split at hs
    next => cases hs
    next first rest hcons => exact ⟨convId, first, rest, hcons, (Option.some.inj hs).symm⟩
  · rintro ⟨convId, first, rest, hcons, rfl⟩
    have hfirst : first ∈ ofConversation convId (objectValues queries) :=
      hcons ▸ List.mem_cons_self
    obtain ⟨hmem, hconv⟩ := mem_ofConversation.mp hfirst
    refine ⟨convId, ⟨first, hmem, hconv⟩, ?_⟩
    change ofConversation convId (objectValues queries) = first :: rest at hcons
    unfold ofConversation at hcons
    rw [hcons]

/-- A session has one summary for each text that its queries have for a conversation. -/
theorem map_conversationId_conversationsOf :
    (conversationsOf queries).map ConversationSummary.conversationId =
      ((objectValues queries).filterMap fun q => nonEmpty q.conversationId).eraseDups := by
  rw [conversationsOf, List.map_filterMap]
  refine (List.filterMap_congr ?_).trans List.filterMap_some
  intro convId hconv
  obtain ⟨q, hq, hqconv⟩ := List.mem_filterMap.mp (List.mem_eraseDups.mp hconv)
  have hmem : q ∈ ofConversation convId (objectValues queries) := mem_ofConversation.mpr ⟨hq, hqconv⟩
  split
  next hnil =>
    change ofConversation convId (objectValues queries) = [] at hnil
    rw [hnil] at hmem
    cases hmem
  next => rfl

theorem name_summarize {first : QueryEntry} {rest : List QueryEntry} :
    (summarize convId first rest).name =
      ((first :: rest).findSome? QueryEntry.participant).getD convId := by
  simp only [summarize]
  rw [head?_eraseDups, List.head?_filterMap]
  rfl

theorem participantType_summarize {first : QueryEntry} {rest : List QueryEntry} :
    (summarize convId first rest).participantType = first.targetType.participantType := rfl

theorem duration_summarize {first : QueryEntry} {rest : List QueryEntry} :
    (summarize convId first rest).duration = calculateDuration first.createdAt
      ((first :: rest).getLast?.bind (·.completedAt)) := rfl

/-! ### The condition -/

theorem duration_iff {first latest : QueryEntry} {rest : List QueryEntry}
    (hlatest : (byCreation (ofConversation convId queries)).getLast? = some latest) :
    (summarize convId first rest).duration =
        calculateDuration first.createdAt latest.completedAt ↔
      ((first :: rest).getLast?.bind (·.completedAt)).map (wholeSeconds first.createdAt) =
        ((byCreation (ofConversation convId queries)).getLast?.bind (·.completedAt)).map
          (wholeSeconds first.createdAt) := by
  rw [duration_summarize, calculateDuration_eq_iff, hlatest, Option.bind_some]

section Conversation

variable {first : QueryEntry} {rest : List QueryEntry}
  (hcons : ofConversation convId (objectValues queries) = first :: rest)

include hcons

/-- A conversation that the record enumerates has an earliest and a latest query. -/
theorem exists_created : ∃ earliest latest,
    (byCreation (ofConversation convId queries)).head? = some earliest ∧
      (byCreation (ofConversation convId queries)).getLast? = some latest := by
  have hperm := hcons ▸ enumeration_perm convId queries
  have hne : byCreation (ofConversation convId queries) ≠ [] := by
    intro hnil
    rw [hnil] at hperm
    exact absurd hperm.eq_nil (List.cons_ne_nil first rest)
  exact ⟨_, _, List.head?_eq_some_head hne, List.getLast?_eq_some_getLast hne⟩

/-- The first query starts the conversation exactly when it is the one created first. -/
theorem startTime_iff (hn : (queries.map QueryEntry.createdAt).Nodup) :
    IsLeast {t | ∃ q ∈ ofConversation convId queries, q.createdAt = t} first.createdAt ↔
      (byCreation (ofConversation convId queries)).head? = some first := by
  constructor
  · intro hleast
    obtain ⟨earliest, -, hearliest, -⟩ := exists_created hcons
    obtain ⟨hmem, hleast'⟩ := isLeast_of_head hearliest
    have hfirst : first ∈ objectValues queries :=
      (mem_ofConversation.mp (hcons ▸ List.mem_cons_self)).1
    rw [hearliest, Option.some_inj]
    exact List.inj_on_of_nodup_map hn (mem_ofConversation.mp hmem).1 (mem_ownOrder.mp hfirst)
      (hleast'.unique hleast)
  · intro hhead
    exact (isLeast_of_head hhead).2

/-- Both orders find a participant, or neither does. -/
theorem name_iff : (summarize convId first rest).name =
    ((byCreation (ofConversation convId queries)).findSome? QueryEntry.participant).getD convId ↔
      (first :: rest).findSome? QueryEntry.participant =
        (byCreation (ofConversation convId queries)).findSome? QueryEntry.participant := by
  have hperm := hcons ▸ enumeration_perm convId queries
  have hsome : ((first :: rest).findSome? QueryEntry.participant).isSome =
      ((byCreation (ofConversation convId queries)).findSome? QueryEntry.participant).isSome := by
    rw [List.isSome_findSome?, List.isSome_findSome?]
    exact hperm.any_eq
  rw [name_summarize]
  refine ⟨fun h => ?_, fun h => by rw [h]⟩
  cases ha : (first :: rest).findSome? QueryEntry.participant with
  | none =>
    rw [ha] at hsome
    exact (Option.isNone_iff_eq_none.mp (by simpa using hsome.symm)).symm
  | some a =>
    rw [ha, Option.isSome_some, eq_comm] at hsome
    obtain ⟨b, hb⟩ := Option.isSome_iff_exists.mp hsome
    rw [ha, hb] at h
    rw [hb]
    exact congrArg some h

end Conversation

/-- The summaries that the fold computes follow the order of creation exactly under the condition. -/
theorem followsCreation_iff (hn : (queries.map QueryEntry.createdAt).Nodup) :
    FollowsCreation queries (conversationsOf queries) ↔ EnumeratedAsCreated queries := by
  constructor
  · intro h
    have hsummary : ∀ {convId first rest},
        ofConversation convId (objectValues queries) = first :: rest →
          summarize convId first rest ∈ conversationsOf queries ∧
            (byCreation (ofConversation convId queries)).head? = some first := by
      intro convId first rest hcons
      have hmem := mem_conversationsOf.mpr ⟨convId, first, rest, hcons, rfl⟩
      exact ⟨hmem, (startTime_iff hcons hn).mp (h.startTime _ hmem)⟩
    have hnil : ∀ {convId}, ofConversation convId (objectValues queries) = [] →
        byCreation (ofConversation convId queries) = [] := by
      intro convId hnil
      exact (hnil ▸ enumeration_perm convId queries).nil_eq.symm
    refine ⟨fun convId => ?_, fun convId => ?_, fun convId earliest hearliest => ?_⟩
    · cases hcons : ofConversation convId (objectValues queries) with
      | nil => rw [hnil hcons]
      | cons first rest => rw [(hsummary hcons).2, List.head?_cons]
    · cases hcons : ofConversation convId (objectValues queries) with
      | nil => rw [hnil hcons]
      | cons first rest => exact (name_iff hcons).mp (h.name _ (hsummary hcons).1)
    · cases hcons : ofConversation convId (objectValues queries) with
      | nil =>
        rw [hnil hcons] at hearliest
        cases hearliest
      | cons first rest =>
        obtain ⟨hmem, hfirst⟩ := hsummary hcons
        obtain rfl : first = earliest := Option.some.inj (hfirst.symm.trans hearliest)
        obtain ⟨-, latest, -, hlatest⟩ := exists_created hcons
        exact (duration_iff hlatest).mp (h.duration _ hmem latest hlatest)
  · intro h
    have hfirst : ∀ {convId first rest},
        ofConversation convId (objectValues queries) = first :: rest →
          (byCreation (ofConversation convId queries)).head? = some first := by
      intro convId first rest hcons
      rw [← h.first convId, hcons, List.head?_cons]
    refine ⟨?_, fun convId => ?_, ?_, ?_, ?_, ?_, ?_, ?_⟩
    · rw [map_conversationId_conversationsOf]
      exact nodup_eraseDups _
    · rw [map_conversationId_conversationsOf, List.mem_eraseDups, List.mem_filterMap]
      simp only [objectValues, mem_ownOrder]
    all_goals
      intro s hs
      obtain ⟨convId, first, rest, hcons, rfl⟩ := mem_conversationsOf.mp hs
    · exact (hcons ▸ (enumeration_perm convId queries).trans (perm_byCreation _)).length_eq
    · exact (hcons ▸ (enumeration_perm convId queries).trans (perm_byCreation _)).countP_eq isFailed
    · exact (startTime_iff hcons hn).mpr (hfirst hcons)
    · intro latest hlatest
      refine (duration_iff hlatest).mpr ?_
      rw [← hcons]
      exact h.last convId first (hfirst hcons)
    · exact (name_iff hcons).mpr (hcons ▸ h.participant convId)
    · intro earliest hearliest
      obtain rfl : first = earliest := Option.some.inj ((hfirst hcons).symm.trans hearliest)
      exact participantType_summarize

/-- The summaries of a list of queries do not depend on its order. -/
theorem FollowsCreation.perm {conversations : List ConversationSummary}
    (h : FollowsCreation queries conversations) (hperm : queries.Perm queries')
    (hn : (queries'.map QueryEntry.createdAt).Nodup) : FollowsCreation queries' conversations := by
  have hof : ∀ convId, (ofConversation convId queries).Perm (ofConversation convId queries') :=
    fun convId => ofConversation_perm hperm
  have hcreated : ∀ convId, byCreation (ofConversation convId queries) =
      byCreation (ofConversation convId queries') :=
    fun convId => byCreation_eq_of_perm (hof convId) (nodup_ofConversation hn)
  refine ⟨h.once, fun convId => ?_, fun s hs => ?_, fun s hs => ?_, fun s hs => ?_, fun s hs => ?_,
    fun s hs => ?_, fun s hs => ?_⟩
  · simp only [h.conversationId, hperm.mem_iff]
  · rw [h.messageCount s hs, (hof _).length_eq]
  · rw [h.errorCount s hs, (hof _).countP_eq]
  · simpa only [(hof s.conversationId).mem_iff] using h.startTime s hs
  · rw [← hcreated]
    exact h.duration s hs
  · rw [← hcreated]
    exact h.name s hs
  · rw [← hcreated]
    exact h.participantType s hs

/-- A record that enumerates the queries of each conversation as they were created. -/
theorem enumeratedAsCreated_of_pairwise (hn : (queries.map QueryEntry.createdAt).Nodup)
    (h : ∀ convId, (ofConversation convId (objectValues queries)).Pairwise
      fun q q' => q.createdAt ≤ q'.createdAt) : EnumeratedAsCreated queries := by
  have heq : ∀ convId, ofConversation convId (objectValues queries) =
      byCreation (ofConversation convId queries) := by
    intro convId
    exact eq_byCreation (ofConversation_perm (ownOrder_perm QueryEntry.name queries)) (h convId)
      (nodup_ofConversation hn)
  refine ⟨fun convId => ?_, fun convId => ?_, fun convId first _ => ?_⟩
  all_goals rw [heq convId]

/-- Without array indices among the names the order in which the queries were added decides. -/
theorem enumeratedAsCreated_of_names (hn : (queries.map QueryEntry.createdAt).Nodup)
    (hnames : ∀ q ∈ queries, arrayIndex q.name = none)
    (hadded : queries.Pairwise fun q q' => q.createdAt ≤ q'.createdAt) :
    EnumeratedAsCreated queries := by
  have hvalues : objectValues queries = queries := by
    rw [objectValues, ownOrder, List.filter_eq_nil_iff.mpr, List.filter_eq_self.mpr]
    · rfl
    · intro q hq
      rw [hnames q hq]
      rfl
    · intro q hq
      rw [hnames q hq]
      simp
  refine enumeratedAsCreated_of_pairwise hn fun convId => ?_
  rw [hvalues]
  exact hadded.sublist List.filter_sublist

/-! ### Postgres -/

section Postgres

variable {C : Collation} {t : Tables} {sid : String} {dbNow : ℕ} {entry : SessionEntry}

theorem pairwise_rowLE (rows : List SessionQueryRow) :
    (rows.insertionSort (Stmt.rowLE C · ·)).Pairwise
      fun r r' => r.entry.createdAt ≤ r'.entry.createdAt := by
  have htotal : Std.Total fun r r' : SessionQueryRow => Stmt.rowLE C r r' = true := by
    refine ⟨fun r r' => ?_⟩
    have hid := C.total r.queryId r'.queryId
    obtain hlt | heq | hlt := lt_trichotomy r.entry.createdAt r'.entry.createdAt
    · simp [Stmt.rowLE, hlt]
    · simpa [Stmt.rowLE, heq] using hid
    · simp [Stmt.rowLE, hlt]
  have htrans : IsTrans SessionQueryRow fun r r' => Stmt.rowLE C r r' = true := by
    refine ⟨fun r r' r'' h h' => ?_⟩
    simp only [Stmt.rowLE, Bool.or_eq_true, Bool.and_eq_true, decide_eq_true_eq] at h h' ⊢
    obtain h | ⟨h, hid⟩ := h
    · exact Or.inl (by omega)
    · obtain h' | ⟨h', hid'⟩ := h'
      · exact Or.inl (by omega)
      · exact Or.inr ⟨by omega, C.trans _ _ _ hid hid'⟩
  refine (List.pairwise_insertionSort _ rows).imp ?_
  intro r r' h
  simp only [Stmt.rowLE, Bool.or_eq_true, Bool.and_eq_true, decide_eq_true_eq] at h
  omega

/-- The header of a session has the summaries of its rows in the order of creation. -/
theorem conversations_getSession (ht : TablesSound C t) (hget : getSession t sid dbNow = some entry)
    (hn : (entry.queries.map QueryEntry.createdAt).Nodup) :
    entry.conversations = conversationsOf (byCreation entry.queries) := by
  obtain ⟨header, hheader, rfl⟩ := Option.map_eq_some_iff.mp hget
  replace hheader := (Option.filter_eq_some_iff.mp hheader).1
  have haggregated := ((ht sid).aggregated header hheader).conversations
  rw [conversations_recalculateSessionStatus, recalculateSessionConversations_eq] at haggregated
  have hperm : (entryOf C header (t.queriesOf sid)).queries.Perm
      (rowsToSessionEntry header (t.queriesOf sid)).queries :=
    ((List.perm_insertionSort _ _).map _).filter _
  have hsorted : (entryOf C header (t.queriesOf sid)).queries.Pairwise
      fun q q' => q.createdAt ≤ q'.createdAt := by
    refine List.Pairwise.sublist List.filter_sublist ?_
    rw [List.pairwise_map]
    exact pairwise_rowLE (t.queriesOf sid)
  rw [← eq_byCreation hperm hsorted hn]
  exact haggregated

end Postgres

/-! ### The in-memory storage -/

/-- `loadFromDisk`: parsing the file adds the keys of its records in the order in which they were
written. -/
def Memory.loadFromDisk (file : List SessionEntry) : Memory :=
  let sessions := (ownOrder SessionEntry.sessionId file).map fun s =>
    recalculateSessionStatus { s with queries := objectValues s.queries }
  { sessions := sessions
    queryToSession := sessions.foldl (fun index s =>
      s.queries.foldl (fun index q => put Prod.fst (q.name, s.sessionId) index) index) []
    notified := [] }

/-- A broker with the in-memory storage; `file` has no session before the first save. -/
structure MemoryProcess where
  memory : Memory
  file : List SessionEntry

inductive MemoryAction
  | applyEvent (d : SessionEventData) (now later : ℕ)
  | applyMessage (conversationId queryId : String) (now : ℕ)
  | deleteQuery (queryId : String)
  | delete
  | save
  | restart

def memoryStorage : Machine MemoryProcess MemoryAction where
  init p := p = ⟨Memory.empty, []⟩
  step p a :=
    match a with
    | .applyEvent d now later =>
      (p.memory.applyEvent d now later).map fun m => { p with memory := m }
    | .applyMessage conversationId queryId now =>
      some { p with memory := p.memory.applyMessage conversationId queryId now }
    | .deleteQuery queryId => some { p with memory := (p.memory.deleteQuery queryId).1 }
    | .delete => some ⟨⟨[], [], p.memory.notified⟩, []⟩
    | .save => some { p with file := p.memory.sessions }
    | .restart => some { p with memory := Memory.loadFromDisk p.file }

/-- Every session has the summaries of its queries. -/
def Summarized (sessions : List SessionEntry) : Prop :=
  ∀ s ∈ sessions, s.conversations = conversationsOf s.queries

theorem conversations_recalculated (s : SessionEntry) :
    (recalculateSessionStatus s).conversations =
      conversationsOf (recalculateSessionStatus s).queries := by
  rw [recalculateSessionStatus_eq]

theorem Summarized.put {sessions : List SessionEntry} {s : SessionEntry} (h : Summarized sessions)
    (hs : s.conversations = conversationsOf s.queries) :
    Summarized (put SessionEntry.sessionId s sessions) := by
  intro x hx
  obtain rfl | hx := mem_put hx
  · exact hs
  · exact h x hx

theorem Summarized.session {m : Memory} {sid : String} {s : SessionEntry}
    (h : Summarized m.sessions) (hs : m.session sid = some s) :
    s.conversations = conversationsOf s.queries := h s (mem_of_find hs)

theorem summarized_applyEvent {m m' : Memory} {d : SessionEventData} {now later : ℕ}
    (h : Summarized m.sessions) (ha : m.applyEvent d now later = some m') :
    Summarized m'.sessions := by
  unfold Memory.applyEvent at ha
  split at ha
  next =>
    split_ifs at ha
    · exact Option.some.inj ha ▸ h
    · rw [← Option.some.inj ha]
      exact h.put (conversations_recalculated _)
  next => exact Option.some.inj ha ▸ h

theorem summarized_applyMessage {m : Memory} {conversationId queryId : String} {now : ℕ}
    (h : Summarized m.sessions) :
    Summarized (m.applyMessage conversationId queryId now).sessions := by
  unfold Memory.applyMessage
  split
  next => exact h
  next sid _ =>
    split
    next => exact h
    next s hs =>
      split
      next => exact h
      next e _ =>
        dsimp only
        split
        next =>
          refine h.put ?_
          rw [recalculateSessionConversations_eq]
        next =>
          have hfold := h.session hs
          exact h.put hfold

theorem summarized_deleteQuery {m : Memory} {queryId : String} (h : Summarized m.sessions) :
    Summarized (m.deleteQuery queryId).1.sessions := by
  -- The invariant of the loop over the sessions.
  refine List.foldlRecOn (motive := fun r : Memory × ℕ => Summarized r.1.sessions) _ _ h ?_
  rintro ⟨m, removed⟩ hm s -
  simp only [Memory.deleteQueryFrom]
  split_ifs
  · exact hm
  · exact fun x hx => hm x (mem_remove.mp hx).1
  · exact hm.put (conversations_recalculated _)

/-- Every session in memory and in the file has the summaries of its queries. -/
theorem summarized_of_reachable {p : MemoryProcess}
    (h : memoryStorage.Reachable Machine.always p) :
    Summarized p.memory.sessions ∧ Summarized p.file := by
  refine h.invariant (I := fun p => Summarized p.memory.sessions ∧ Summarized p.file) ?_ ?_
  · rintro p rfl
    exact ⟨fun s hs => absurd hs List.not_mem_nil, fun s hs => absurd hs List.not_mem_nil⟩
  · rintro p a p' ⟨hmemory, hfile⟩ - hstep
    cases a with
    | applyEvent d now later =>
      obtain ⟨m, hm, rfl⟩ := Option.map_eq_some_iff.mp hstep
      exact ⟨summarized_applyEvent hmemory hm, hfile⟩
    | applyMessage conversationId queryId now =>
      obtain rfl := Option.some.inj hstep
      exact ⟨summarized_applyMessage hmemory, hfile⟩
    | deleteQuery queryId =>
      obtain rfl := Option.some.inj hstep
      exact ⟨summarized_deleteQuery hmemory, hfile⟩
    | delete =>
      obtain rfl := Option.some.inj hstep
      exact ⟨fun s hs => absurd hs List.not_mem_nil, fun s hs => absurd hs List.not_mem_nil⟩
    | save =>
      obtain rfl := Option.some.inj hstep
      exact ⟨hmemory, hmemory⟩
    | restart =>
      obtain rfl := Option.some.inj hstep
      refine ⟨fun s hs => ?_, hfile⟩
      obtain ⟨x, -, rfl⟩ := List.mem_map.mp hs
      exact conversations_recalculated _

/-! ### Both backends -/

/-- On both backends the summaries of a session follow the order of creation exactly when its record
of queries, which Postgres fills in the order of creation and memory as the events come, is
enumerated as they were created. -/
theorem conversations_follow_creation_iff (C : Collation) :
    (∀ s, (storage C).Reachable Machine.always s → ∀ sid dbNow entry,
      getSession s.tables sid dbNow = some entry →
        (entry.queries.map QueryEntry.createdAt).Nodup →
          (FollowsCreation entry.queries entry.conversations ↔
            EnumeratedAsCreated (byCreation entry.queries))) ∧
    ∀ p, memoryStorage.Reachable Machine.always p → ∀ sid entry,
      p.memory.session sid = some entry → (entry.queries.map QueryEntry.createdAt).Nodup →
        (FollowsCreation entry.queries entry.conversations ↔ EnumeratedAsCreated entry.queries) := by
  constructor
  · intro s hs sid dbNow entry hget hn
    have hperm := perm_byCreation entry.queries
    have hn' : ((byCreation entry.queries).map QueryEntry.createdAt).Nodup :=
      (hperm.map QueryEntry.createdAt).nodup_iff.mpr hn
    rw [conversations_getSession (sound_of_reachable hs) hget hn, ← followsCreation_iff hn']
    exact ⟨fun h => h.perm hperm.symm hn', fun h => h.perm hperm hn⟩
  · intro p hp sid entry hs hn
    rw [(summarized_of_reachable hp).1.session hs]
    exact followsCreation_iff hn

/-- The start of a query of the conversation `c1`. -/
def startedIn (queryName agent : String) : SessionEventData :=
  ⟨some "s1", some queryName, none, some "c1", some agent, none, none, none, none, none,
    some "QueryExecutionStart"⟩

/-- Two queries, one after the other, on Postgres. -/
def twoQueries (q q' : String) : List (ReadCommitted.Action Operation) :=
  [.call 0 (.applyEvent (startedIn q "planner") (some 1) ⟨10, 10, 3600⟩)] ++
    List.replicate 11 (.advance 0) ++
    [.call 0 (.applyEvent (startedIn q' "writer") (some 2) ⟨20, 20, 3600⟩)] ++
    List.replicate 11 (.advance 0)

/-- The session of the two queries, which were created at different times. -/
def hasQueries (q q' : String) (entry : SessionEntry) : Bool :=
  decide (entry.queries.map QueryEntry.name = [q, q'] ∧
    (entry.queries.map QueryEntry.createdAt).Nodup)

/-- A conversation starts after one of its queries. -/
def startsLate (entry : SessionEntry) : Bool :=
  entry.conversations.any fun s => entry.queries.any fun q =>
    decide (nonEmpty q.conversationId = some s.conversationId ∧ q.createdAt < s.startTime)

theorem not_followsCreation_of_startsLate {entry : SessionEntry} (h : startsLate entry = true) :
    ¬ FollowsCreation entry.queries entry.conversations := by
  intro hfollows
  obtain ⟨s, hs, h⟩ := List.any_eq_true.mp h
  obtain ⟨q, hq, h⟩ := List.any_eq_true.mp h
  obtain ⟨hconv, hlt⟩ := of_decide_eq_true h
  have hle := (hfollows.startTime s hs).2 ⟨q, mem_ofConversation.mpr ⟨hq, hconv⟩, rfl⟩
  omega

/-- The query `10` comes before the query `b` in every record, also when it was created later. -/
theorem digits_first :
    (∃ s, (storage .codePoint).Reachable Machine.always s ∧ ∃ entry,
      getSession s.tables "s1" 20 = some entry ∧ hasQueries "b" "10" entry ∧
        ¬ FollowsCreation entry.queries entry.conversations) ∧
    ∃ p, memoryStorage.Reachable Machine.always p ∧ ∃ entry,
      p.memory.session "s1" = some entry ∧ hasQueries "b" "10" entry ∧
        ¬ FollowsCreation entry.queries entry.conversations := by
  constructor
  · obtain ⟨s, hs, hp⟩ : ∃ s, (storage .codePoint).Reachable Machine.always s ∧
        ((getSession s.tables "s1" 20).any fun entry =>
          hasQueries "b" "10" entry && startsLate entry) = true :=
      Machine.exists_reachable (b := fun _ _ => true) (l := twoQueries "b" "10") rfl
        (fun _ _ _ => trivial) (by decide)
    obtain ⟨entry, hentry, h⟩ := (Option.any_eq_true _ _).mp hp
    obtain ⟨hqueries, hlate⟩ := Bool.and_eq_true_iff.mp h
    exact ⟨s, hs, entry, hentry, hqueries, not_followsCreation_of_startsLate hlate⟩
  · obtain ⟨p, hs, hp⟩ : ∃ p, memoryStorage.Reachable Machine.always p ∧
        ((p.memory.session "s1").any fun entry =>
          hasQueries "b" "10" entry && startsLate entry) = true :=
      Machine.exists_reachable (b := fun _ _ => true)
        (l := [.applyEvent (startedIn "b" "planner") 10 10, .applyEvent (startedIn "10" "writer") 20 20])
        rfl (fun _ _ _ => trivial) (by decide)
    obtain ⟨entry, hentry, h⟩ := (Option.any_eq_true _ _).mp hp
    obtain ⟨hqueries, hlate⟩ := Bool.and_eq_true_iff.mp h
    exact ⟨p, hs, entry, hentry, hqueries, not_followsCreation_of_startsLate hlate⟩

/-- Two queries whose names are no array indices. -/
theorem conversations_follow_creation_letters :
    (∃ s, (storage .codePoint).Reachable Machine.always s ∧ ∃ entry,
      getSession s.tables "s1" 20 = some entry ∧ hasQueries "b" "a" entry ∧
        FollowsCreation entry.queries entry.conversations) ∧
    ∃ p, memoryStorage.Reachable Machine.always p ∧ ∃ entry,
      p.memory.session "s1" = some entry ∧ hasQueries "b" "a" entry ∧
        FollowsCreation entry.queries entry.conversations := by
  have hmain := conversations_follow_creation_iff .codePoint
  have hletters : ∀ {entry}, hasQueries "b" "a" entry = true →
      (entry.queries.map QueryEntry.createdAt).Nodup ∧
        ∀ q ∈ entry.queries, arrayIndex q.name = none := by
    intro entry h
    obtain ⟨hnames, hn⟩ := of_decide_eq_true h
    refine ⟨hn, fun q hq => ?_⟩
    have hname : q.name ∈ ["b", "a"] := hnames ▸ List.mem_map_of_mem hq
    obtain h | h : q.name = "b" ∨ q.name = "a" := by simpa using hname
    · rw [h]
      decide
    · rw [h]
      decide
  constructor
  · obtain ⟨s, hs, hp⟩ : ∃ s, (storage .codePoint).Reachable Machine.always s ∧
        ((getSession s.tables "s1" 20).any (hasQueries "b" "a")) = true :=
      Machine.exists_reachable (b := fun _ _ => true) (l := twoQueries "b" "a") rfl
        (fun _ _ _ => trivial) (by decide)
    obtain ⟨entry, hentry, hqueries⟩ := (Option.any_eq_true _ _).mp hp
    obtain ⟨hn, hnames⟩ := hletters hqueries
    have hperm := perm_byCreation entry.queries
    refine ⟨s, hs, entry, hentry, hqueries, (hmain.1 s hs "s1" 20 entry hentry hn).mpr ?_⟩
    exact enumeratedAsCreated_of_names ((hperm.map QueryEntry.createdAt).nodup_iff.mpr hn)
      (fun q hq => hnames q (hperm.mem_iff.mp hq)) (pairwise_byCreation entry.queries)
  · obtain ⟨p, hs, hp⟩ : ∃ p, memoryStorage.Reachable Machine.always p ∧
        ((p.memory.session "s1").any fun entry => hasQueries "b" "a" entry &&
          decide (entry.queries.Pairwise fun q q' => q.createdAt ≤ q'.createdAt)) = true :=
      Machine.exists_reachable (b := fun _ _ => true)
        (l := [.applyEvent (startedIn "b" "planner") 10 10, .applyEvent (startedIn "a" "writer") 20 20])
        rfl (fun _ _ _ => trivial) (by decide)
    obtain ⟨entry, hentry, h⟩ := (Option.any_eq_true _ _).mp hp
    obtain ⟨hqueries, hadded⟩ := Bool.and_eq_true_iff.mp h
    obtain ⟨hn, hnames⟩ := hletters hqueries
    exact ⟨p, hs, entry, hentry, hqueries, (hmain.2 p hs "s1" entry hentry hn).mpr
      (enumeratedAsCreated_of_names hn hnames (of_decide_eq_true hadded))⟩

end Ark.Session
