import Ark.DescendingPages
import Ark.InMemoryStream
import Ark.Json
import Mathlib.Data.List.Induction
import Mathlib.Data.List.Sort

/-!
# Pages of traces

`TraceBroker` keeps spans in a stream. A page of traces is made of the live spans that match a session,
grouped by trace; the cursor is the first sequence number of a trace among them. That number grows when
the first spans of a trace expire or fall out of the byte budget, so a trace can climb over the cursor
of a reader who has not come to it yet. No trace is read twice, and a reader gets everything that stays
below his cursor.
-/

namespace Ark

/-! ### The broker -/

/-- A value of an attribute, which some exporters send as a bare text. -/
inductive AttributeValue
  | text (value : String)
  | object (stringValue : Option String)
  deriving DecidableEq, Repr

/-- `fields` are the fields that no function of the broker reads. -/
structure OTELSpan where
  traceId : String
  attributes : Option (List (String × Option AttributeValue)) := none
  fields : List (String × Json.Value) := []

def spanMatchesSessionId (span : OTELSpan) (sessionId : String) : Bool :=
  match span.attributes with
  | none => false
  | some attributes =>
    match (attributes.find? fun attr => attr.1 = "ark.session.id").bind Prod.snd with
    | some (.object (some stringValue)) => stringValue = sessionId
    | some (.text value) => value = sessionId
    | _ => false

/-- `now` is the clock, and `maxBytes` the byte budget of the stream. -/
structure TraceBroker where
  stream : InMemoryStream OTELSpan
  now : ℕ
  maxBytes : Option ℕ
  ordered : stream.Ordered

/-- An entry of `traceMap`. -/
structure TraceEntry where
  traceId : String
  firstSeq : ℕ
  spans : List OTELSpan

/-- The trace and its key. -/
def TraceEntry.key (t : TraceEntry) : String × ℕ := (t.traceId, t.firstSeq)

structure Trace where
  traceId : String
  spans : List OTELSpan

inductive TraceAction
  | addSpan (span : OTELSpan)
  | maintain
  | tick (n : ℕ)

namespace TraceBroker

def new (ttlSeconds maxBytes : Option ℕ) : TraceBroker :=
  ⟨.new ttlSeconds, 0, maxBytes, InMemoryStream.ordered_new ttlSeconds⟩

/-- The turns of the loop of `evictOverByteBudget`, from a total on. -/
def evictFrom (size : BrokerItem OTELSpan → ℕ) (maxBytes : ℕ) :
    ℕ → List (BrokerItem OTELSpan) → List (BrokerItem OTELSpan)
  | total, x :: y :: items =>
    if maxBytes < total then evictFrom size maxBytes (total - size x) (y :: items) else x :: y :: items
  | _, items => items

def evictOverByteBudget (size : BrokerItem OTELSpan → ℕ) (maxBytes : Option ℕ)
    (items : List (BrokerItem OTELSpan)) : List (BrokerItem OTELSpan) :=
  match maxBytes with
  | none => items
  | some maxBytes => evictFrom size maxBytes (items.map size).sum items

theorem evictFrom_suffix (size : BrokerItem OTELSpan → ℕ) (maxBytes total : ℕ)
    (items : List (BrokerItem OTELSpan)) : evictFrom size maxBytes total items <:+ items := by
  induction items generalizing total with
  | nil => exact List.suffix_rfl
  | cons x items ih =>
    cases items with
    | nil => exact List.suffix_rfl
    | cons y items =>
      rw [evictFrom]
      split
      · exact (ih _).trans (List.suffix_cons x _)
      · exact List.suffix_rfl

theorem evictOverByteBudget_suffix (size : BrokerItem OTELSpan → ℕ) (maxBytes : Option ℕ)
    (items : List (BrokerItem OTELSpan)) : evictOverByteBudget size maxBytes items <:+ items := by
  cases maxBytes with
  | none => exact List.suffix_rfl
  | some maxBytes => exact evictFrom_suffix size maxBytes _ items

theorem ordered_of_sublist {stream : InMemoryStream OTELSpan} (h : stream.Ordered)
    {items : List (BrokerItem OTELSpan)} (hsub : items.Sublist stream.items) :
    ({ stream with items := items } : InMemoryStream OTELSpan).Ordered where
  increasing := h.increasing.sublist hsub
  below x hx := h.below x (hsub.subset hx)
  positive x hx := h.positive x (hsub.subset hx)
  next_pos := h.next_pos

/-- `maintain`: expired items go first, and then the oldest while the budget is exceeded. -/
def maintained (size : BrokerItem OTELSpan → ℕ) (s : TraceBroker) : List (BrokerItem OTELSpan) :=
  evictOverByteBudget size s.maxBytes (s.stream.maintain s.now).items

theorem maintained_sublist (size : BrokerItem OTELSpan → ℕ) (s : TraceBroker) :
    (maintained size s).Sublist s.stream.items := by
  refine (evictOverByteBudget_suffix size s.maxBytes _).sublist.trans ?_
  unfold InMemoryStream.maintain
  split
  · exact List.Sublist.refl _
  · exact List.filter_sublist

def step (size : BrokerItem OTELSpan → ℕ) (s : TraceBroker) : TraceAction → TraceBroker
  | .addSpan span =>
    { s with
      stream := s.stream.append s.now span none
      ordered := s.ordered.append s.now span none }
  | .maintain =>
    { s with
      stream := { s.stream with items := maintained size s }
      ordered := ordered_of_sublist s.ordered (maintained_sublist size s) }
  | .tick n => { s with now := s.now + n }

def run (size : BrokerItem OTELSpan → ℕ) (s : TraceBroker) (actions : List TraceAction) :
    TraceBroker := actions.foldl (step size) s

/-! ### Pages -/

/-- `allItems`: an empty session identifier is none. -/
def matching (s : TraceBroker) (sessionId : Option String) : List (BrokerItem OTELSpan) :=
  match sessionId with
  | none => s.stream.live s.now
  | some sessionId =>
    if sessionId = "" then s.stream.live s.now
    else (s.stream.live s.now).filter fun item => spanMatchesSessionId item.data sessionId

/-- One turn of the loop that fills `traceMap`. -/
def addToTrace (traces : List TraceEntry) (item : BrokerItem OTELSpan) : List TraceEntry :=
  if traces.any fun t => t.traceId = item.data.traceId then
    traces.map fun t =>
      if t.traceId = item.data.traceId then
        { t with
          spans := t.spans ++ [item.data]
          firstSeq := min t.firstSeq item.sequenceNumber }
      else t
  else traces ++ [⟨item.data.traceId, item.sequenceNumber, [item.data]⟩]

def traceMap (items : List (BrokerItem OTELSpan)) : List TraceEntry := items.foldl addToTrace []

/-- The traces by descending first sequence numbers. -/
def traces (s : TraceBroker) (sessionId : Option String) : List TraceEntry :=
  (traceMap (s.matching sessionId)).insertionSort fun a b => b.firstSeq ≤ a.firstSeq

def paginateTraces (s : TraceBroker) (limit cursor : Option ℕ) (sessionId : Option String) :
    PaginatedList Trace :=
  let limit := limit.getD DEFAULT_LIMIT
  let traces := s.traces sessionId
  let rest := match cursor with
    | none => traces
    | some cursor => traces.filter fun t => t.firstSeq < cursor
  let items := rest.take limit
  let hasMore := decide (limit < rest.length)
  ⟨items.map fun t => ⟨t.traceId, t.spans⟩, traces.length, hasMore,
    if hasMore then items.getLast?.map TraceEntry.firstSeq else none⟩

/-! ### What a reader is to get -/

/-- The first sequence number of a trace among some spans. -/
def firstIn (items : List (BrokerItem OTELSpan)) (traceId : String) : Option ℕ :=
  ((items.filter fun item => item.data.traceId = traceId).map BrokerItem.sequenceNumber).min?

/-- The first sequence number of a trace among the live matching spans. -/
def firstSeq (s : TraceBroker) (sessionId : Option String) (traceId : String) : Option ℕ :=
  firstIn (s.matching sessionId) traceId

/-- The trace has a live matching span. -/
def HasTrace (s : TraceBroker) (sessionId : Option String) (traceId : String) : Prop :=
  ∃ item ∈ s.matching sessionId, item.data.traceId = traceId

instance (s : TraceBroker) (sessionId : Option String) (traceId : String) :
    Decidable (s.HasTrace sessionId traceId) :=
  inferInstanceAs (Decidable (∃ item ∈ s.matching sessionId, _))

/-- The trace has a live matching span below the cursor. -/
def HasBelow (s : TraceBroker) (sessionId : Option String) (cursor : ℕ) (traceId : String) : Prop :=
  ∃ item ∈ s.matching sessionId, item.data.traceId = traceId ∧ item.sequenceNumber < cursor

section Reader

variable (size : BrokerItem OTELSpan → ℕ) (limit : ℕ) (sessionId : Option String)

/-- The pages that a reader gets, each with the broker that it comes from; `rounds` are the actions
between the requests. -/
def readings : Option ℕ → TraceBroker → List (List TraceAction) →
    List (TraceBroker × PaginatedList Trace)
  | cursor, s, [] => [(s, s.paginateTraces (some limit) cursor sessionId)]
  | cursor, s, actions :: rounds =>
    let page := s.paginateTraces (some limit) cursor sessionId
    (s, page) :: readings page.nextCursor (s.run size actions) rounds

/-- The reader goes on until a page says that there is no more. -/
def Followed : Option ℕ → TraceBroker → List (List TraceAction) → Prop
  | cursor, s, [] => (s.paginateTraces (some limit) cursor sessionId).hasMore = false
  | cursor, s, actions :: rounds =>
    let page := s.paginateTraces (some limit) cursor sessionId
    page.hasMore = true ∧ Followed page.nextCursor (s.run size actions) rounds

/-- The identifiers that a reader gets, in the order in which he gets them. -/
def readIds (s : TraceBroker) (rounds : List (List TraceAction)) : List String :=
  (readings size limit sessionId none s rounds).flatMap fun r => r.2.items.map Trace.traceId

/-- The first sequence numbers of the traces that a reader gets, each at its request. -/
def readSeqs (s : TraceBroker) (rounds : List (List TraceAction)) : List (Option ℕ) :=
  (readings size limit sessionId none s rounds).flatMap fun r =>
    r.2.items.map fun trace => r.1.firstSeq sessionId trace.traceId

/-- What is there at the first and at the last request is read once, newest first, and nothing is
read twice. -/
structure Partition (s : TraceBroker) (rounds : List (List TraceAction)) : Prop where
  once : (readIds size limit sessionId s rounds).Nodup
  newest : (readSeqs size limit sessionId s rounds).Pairwise fun a b =>
    ∃ k ∈ a, ∃ k' ∈ b, k' < k
  all : ∀ traceId, s.HasTrace sessionId traceId →
    (s.run size rounds.flatten).HasTrace sessionId traceId →
      traceId ∈ readIds size limit sessionId s rounds

/-- Between two requests, a trace with a live matching span below the next cursor keeps one, unless it
has none at all at the last request. -/
def StaysBelow (last : TraceBroker) : Option ℕ → TraceBroker → List (List TraceAction) → Prop
  | _, _, [] => True
  | cursor, s, actions :: rounds =>
    let page := s.paginateTraces (some limit) cursor sessionId
    (∀ c ∈ page.nextCursor, ∀ traceId, s.HasBelow sessionId c traceId →
      last.HasTrace sessionId traceId → (s.run size actions).HasBelow sessionId c traceId) ∧
    StaysBelow last page.nextCursor (s.run size actions) rounds

end Reader

/-! ### The entries of the map -/

section Entries

variable {items : List (BrokerItem OTELSpan)} {item : BrokerItem OTELSpan} {traceId : String} {k : ℕ}

theorem firstIn_eq_some :
    firstIn items traceId = some k ↔
      (∃ x ∈ items, x.data.traceId = traceId ∧ x.sequenceNumber = k) ∧
        ∀ x ∈ items, x.data.traceId = traceId → k ≤ x.sequenceNumber := by
  simp only [firstIn, List.min?_eq_some_iff, List.mem_map, List.mem_filter, decide_eq_true_eq,
    and_assoc, forall_exists_index, and_imp]
  refine and_congr_right fun _ => ⟨fun h x hx hid => h _ x hx hid rfl, ?_⟩
  rintro h _ x hx hid rfl
  exact h x hx hid

theorem firstIn_eq_none :
    firstIn items traceId = none ↔ ∀ x ∈ items, x.data.traceId ≠ traceId := by
  simp [firstIn, List.min?_eq_none_iff, List.filter_eq_nil_iff]

theorem firstIn_append_other (h : item.data.traceId ≠ traceId) :
    firstIn (items ++ [item]) traceId = firstIn items traceId := by
  rw [firstIn, List.filter_append, List.filter_singleton, decide_eq_false h]
  simp [firstIn]

theorem firstIn_append_self :
    firstIn (items ++ [item]) item.data.traceId =
      some ((firstIn items item.data.traceId).elim item.sequenceNumber
        (min · item.sequenceNumber)) := by
  simp only [firstIn, List.filter_append, List.map_append, List.filter_singleton, decide_true,
    cond_true, List.map_singleton]
  cases (items.filter fun x => x.data.traceId = item.data.traceId).map BrokerItem.sequenceNumber with
  | nil => rfl
  | cons first rest =>
    rw [List.cons_append, List.min?_cons', List.min?_cons', List.foldl_append]
    rfl

/-- A turn of the loop, by the keys of the map. -/
theorem mem_addToTrace {traces : List TraceEntry} :
    (traceId, k) ∈ (addToTrace traces item).map TraceEntry.key ↔
      if item.data.traceId = traceId then
        (∃ k₀, (traceId, k₀) ∈ traces.map TraceEntry.key ∧ k = min k₀ item.sequenceNumber) ∨
          (∀ k₀, (traceId, k₀) ∉ traces.map TraceEntry.key) ∧ k = item.sequenceNumber
      else (traceId, k) ∈ traces.map TraceEntry.key := by
  unfold addToTrace
  by_cases hany : (traces.any fun t => t.traceId = item.data.traceId) = true
  · rw [if_pos hany, List.map_map]
    by_cases hid : item.data.traceId = traceId
    · subst hid
      rw [if_pos rfl]
      obtain ⟨t, ht, hname⟩ := List.any_eq_true.mp hany
      have hname : t.traceId = item.data.traceId := of_decide_eq_true hname
      have hkey : ∀ k₀, (item.data.traceId, k₀) ∈ traces.map TraceEntry.key ↔
          ∃ t ∈ traces, t.traceId = item.data.traceId ∧ t.firstSeq = k₀ := by
        simp [TraceEntry.key]
      constructor
      · intro h
        obtain ⟨t, ht, heq⟩ := List.mem_map.mp h
        simp only [Function.comp_apply, TraceEntry.key] at heq
        split at heq
        next hname =>
          exact .inl ⟨t.firstSeq, (hkey _).mpr ⟨t, ht, hname, rfl⟩, (congrArg Prod.snd heq).symm⟩
        next hname => exact absurd (congrArg Prod.fst heq) hname
      · rintro (⟨k₀, hmem, rfl⟩ | ⟨hnone, _⟩)
        · obtain ⟨t, ht, hname, rfl⟩ := (hkey k₀).mp hmem
          refine List.mem_map.mpr ⟨t, ht, ?_⟩
          simp only [Function.comp_apply, TraceEntry.key, hname, if_true]
        · exact absurd ((hkey _).mpr ⟨t, ht, hname, rfl⟩) (hnone t.firstSeq)
    · rw [if_neg hid]
      refine ⟨fun h => ?_, fun h => ?_⟩
      · obtain ⟨t, ht, heq⟩ := List.mem_map.mp h
        simp only [Function.comp_apply] at heq
        split at heq
        next hname => exact absurd (hname.symm.trans (congrArg Prod.fst heq)) hid
        next => exact List.mem_map.mpr ⟨t, ht, heq⟩
      · obtain ⟨t, ht, heq⟩ := List.mem_map.mp h
        have hname : t.traceId ≠ item.data.traceId := fun h =>
          hid (h.symm.trans (congrArg Prod.fst heq))
        refine List.mem_map.mpr ⟨t, ht, ?_⟩
        simp only [Function.comp_apply, if_neg hname]
        exact heq
  · have hnone : ∀ k₀, (item.data.traceId, k₀) ∉ traces.map TraceEntry.key := by
      intro k₀ h
      obtain ⟨t, ht, heq⟩ := List.mem_map.mp h
      exact hany (List.any_eq_true.mpr ⟨t, ht, decide_eq_true (congrArg Prod.fst heq)⟩)
    rw [if_neg hany, List.map_append, List.mem_append, List.map_singleton, List.mem_singleton]
    by_cases hid : item.data.traceId = traceId
    · subst hid
      rw [if_pos rfl]
      constructor
      · rintro (h | h)
        · exact absurd h (hnone k)
        · exact .inr ⟨hnone, congrArg Prod.snd h⟩
      · rintro (⟨k₀, h, _⟩ | ⟨_, rfl⟩)
        · exact absurd h (hnone k₀)
        · exact .inr rfl
    · rw [if_neg hid, or_iff_left]
      exact fun h => hid (congrArg Prod.fst h).symm

/-- The map holds the first sequence number of every trace. -/
theorem mem_traceMap :
    (traceId, k) ∈ (traceMap items).map TraceEntry.key ↔ firstIn items traceId = some k := by
  induction items using List.reverseRecOn generalizing k with
  | nil => simp [traceMap, firstIn]
  | append_singleton items item ih =>
    have hstep : traceMap (items ++ [item]) = addToTrace (traceMap items) item := by
      rw [traceMap, List.foldl_append]
      rfl
    rw [hstep, mem_addToTrace]
    by_cases hid : item.data.traceId = traceId
    · subst hid
      rw [if_pos rfl, firstIn_append_self]
      simp only [ih]
      cases hfirst : firstIn items item.data.traceId with
      | none => simp [eq_comm]
      | some k₀ => simp [eq_comm]
    · rw [if_neg hid, ih, firstIn_append_other hid]

theorem nodup_addToTrace {traces : List TraceEntry} (h : (traces.map TraceEntry.traceId).Nodup) :
    ((addToTrace traces item).map TraceEntry.traceId).Nodup := by
  unfold addToTrace
  split
  next =>
    have hsame : (traces.map fun t =>
        if t.traceId = item.data.traceId then
          { t with
            spans := t.spans ++ [item.data]
            firstSeq := min t.firstSeq item.sequenceNumber }
        else t).map TraceEntry.traceId = traces.map TraceEntry.traceId := by
      rw [List.map_map]
      refine List.map_congr_left fun t _ => ?_
      simp only [Function.comp_apply]
      split <;> rfl
    rw [hsame]
    exact h
  next hany =>
    rw [List.map_append, List.map_singleton, List.nodup_append]
    refine ⟨h, List.nodup_singleton _, ?_⟩
    rintro name hname other hother rfl
    obtain ⟨t, ht, hname⟩ := List.mem_map.mp hname
    rw [List.mem_singleton.mp hother] at hname
    exact hany (List.any_eq_true.mpr ⟨t, ht, decide_eq_true hname⟩)

theorem nodup_traceMap (items : List (BrokerItem OTELSpan)) :
    ((traceMap items).map TraceEntry.traceId).Nodup := by
  induction items using List.reverseRecOn with
  | nil => exact List.nodup_nil
  | append_singleton items item ih =>
    rw [traceMap, List.foldl_append]
    exact nodup_addToTrace ih

end Entries

/-! ### A broker as a keyed list -/

/-- The traces with their keys, as a page sees them. -/
def snapshot (s : TraceBroker) (sessionId : Option String) : List (String × ℕ) :=
  (s.traces sessionId).map TraceEntry.key

theorem eq_of_sequenceNumber {stream : InMemoryStream OTELSpan}
    (h : stream.Ordered) {x y : BrokerItem OTELSpan} (hx : x ∈ stream.items) (hy : y ∈ stream.items)
    (hseq : x.sequenceNumber = y.sequenceNumber) : x = y := by
  have hnodup : (stream.items.map BrokerItem.sequenceNumber).Nodup :=
    List.pairwise_map.mpr (h.increasing.imp Nat.ne_of_lt)
  exact List.inj_on_of_nodup_map hnodup hx hy hseq

section Snapshot

variable {size : BrokerItem OTELSpan → ℕ} {s : TraceBroker} {sessionId : Option String}
  {traceId : String} {k : ℕ}

theorem mem_snapshot : (traceId, k) ∈ s.snapshot sessionId ↔ s.firstSeq sessionId traceId = some k := by
  have hperm : (s.snapshot sessionId).Perm ((traceMap (s.matching sessionId)).map TraceEntry.key) :=
    (List.perm_insertionSort _ _).map _
  rw [hperm.mem_iff, mem_traceMap, firstSeq]

theorem live_sublist (s : TraceBroker) : (s.stream.live s.now).Sublist s.stream.items := by
  unfold InMemoryStream.live
  split
  · exact List.Sublist.refl _
  · exact List.filter_sublist

theorem matching_sublist (s : TraceBroker) (sessionId : Option String) :
    (s.matching sessionId).Sublist (s.stream.live s.now) := by
  unfold matching
  split
  · exact List.Sublist.refl _
  · split
    · exact List.Sublist.refl _
    · exact List.filter_sublist

theorem mem_stream_of_matching {x : BrokerItem OTELSpan} (h : x ∈ s.matching sessionId) :
    x ∈ s.stream.items := (live_sublist s).subset ((matching_sublist s sessionId).subset h)

theorem keyed_snapshot (s : TraceBroker) (sessionId : Option String) :
    DescendingPages.Keyed (s.snapshot sessionId) := by
  have hperm : (s.traces sessionId).Perm (traceMap (s.matching sessionId)) :=
    List.perm_insertionSort _ _
  have hnodup : ((s.snapshot sessionId).map Prod.fst).Nodup := by
    rw [snapshot, List.map_map]
    exact ((hperm.map TraceEntry.traceId).nodup_iff).mpr (nodup_traceMap _)
  have hsorted : (s.traces sessionId).Pairwise fun a b => b.firstSeq ≤ a.firstSeq :=
    List.pairwise_insertionSort _ _
  have hle : (s.snapshot sessionId).Pairwise fun x y => y.2 ≤ x.2 :=
    List.pairwise_map.mpr hsorted
  have hne : (s.snapshot sessionId).Pairwise fun x y => x.1 ≠ y.1 := List.pairwise_map.mp hnodup
  refine ⟨(hle.and hne).imp_of_mem @fun x y hx hy hxy => ?_, hnodup⟩
  refine lt_of_le_of_ne hxy.1 fun hkey => hxy.2 ?_
  -- one span has the sequence number
  obtain ⟨⟨a, ha, hax, hak⟩, _⟩ := firstIn_eq_some.mp (mem_snapshot.mp hx)
  obtain ⟨⟨b, hb, hby, hbk⟩, _⟩ := firstIn_eq_some.mp (mem_snapshot.mp hy)
  have hspan : a = b := eq_of_sequenceNumber s.ordered (mem_stream_of_matching ha)
    (mem_stream_of_matching hb) (by rw [hak, hbk, hkey])
  rw [← hax, ← hby, hspan]

theorem exists_firstIn {items : List (BrokerItem OTELSpan)} {x : BrokerItem OTELSpan}
    (hx : x ∈ items) : ∃ k ≤ x.sequenceNumber, firstIn items x.data.traceId = some k := by
  cases hfirst : firstIn items x.data.traceId with
  | none => exact absurd rfl (firstIn_eq_none.mp hfirst x hx)
  | some k => exact ⟨k, (firstIn_eq_some.mp hfirst).2 x hx rfl, rfl⟩

theorem hasTrace_iff : s.HasTrace sessionId traceId ↔
    DescendingPages.Has (s.snapshot sessionId) traceId := by
  constructor
  · rintro ⟨x, hx, rfl⟩
    obtain ⟨k, _, hk⟩ := exists_firstIn hx
    exact ⟨k, mem_snapshot.mpr hk⟩
  · rintro ⟨k, hk⟩
    obtain ⟨⟨x, hx, hid, _⟩, _⟩ := firstIn_eq_some.mp (mem_snapshot.mp hk)
    exact ⟨x, hx, hid⟩

theorem hasBelow_iff {c : ℕ} : s.HasBelow sessionId c traceId ↔
    ∃ k < c, (traceId, k) ∈ s.snapshot sessionId := by
  constructor
  · rintro ⟨x, hx, rfl, hlt⟩
    obtain ⟨k, hle, hk⟩ := exists_firstIn hx
    exact ⟨k, hle.trans_lt hlt, mem_snapshot.mpr hk⟩
  · rintro ⟨k, hlt, hk⟩
    obtain ⟨⟨x, hx, hid, rfl⟩, _⟩ := firstIn_eq_some.mp (mem_snapshot.mp hk)
    exact ⟨x, hx, hid, hlt⟩

/-! ### Time passing -/

/-- `s'` is the broker `s` some time later. -/
structure Aged (s s' : TraceBroker) : Prop where
  now_le : s.now ≤ s'.now
  next_le : s.stream.nextSequence ≤ s'.stream.nextSequence
  ttl_eq : s'.stream.ttlMs = s.stream.ttlMs
  old : ∀ x ∈ s'.stream.items, x ∈ s.stream.items ∨ s.stream.nextSequence ≤ x.sequenceNumber

theorem Aged.refl (s : TraceBroker) : Aged s s := ⟨le_rfl, le_rfl, rfl, fun _ => .inl⟩

theorem Aged.trans {s s' s'' : TraceBroker} (h : Aged s s') (h' : Aged s' s'') : Aged s s'' where
  now_le := h.now_le.trans h'.now_le
  next_le := h.next_le.trans h'.next_le
  ttl_eq := h'.ttl_eq.trans h.ttl_eq
  old x hx := by
    rcases h'.old x hx with hx | hx
    · exact h.old x hx
    · exact .inr (h.next_le.trans hx)

theorem aged_step (size : BrokerItem OTELSpan → ℕ) (s : TraceBroker) (a : TraceAction) :
    Aged s (s.step size a) := by
  cases a with
  | addSpan span =>
    refine ⟨le_rfl, Nat.le_succ _, rfl, fun x hx => ?_⟩
    rcases List.mem_append.mp hx with hx | hx
    · exact .inl hx
    · obtain rfl := List.mem_singleton.mp hx
      exact .inr le_rfl
  | maintain =>
    exact ⟨le_rfl, le_rfl, rfl, fun x hx => .inl ((maintained_sublist size s).subset hx)⟩
  | tick n => exact ⟨Nat.le_add_right _ _, le_rfl, rfl, fun x hx => .inl hx⟩

theorem aged_run (size : BrokerItem OTELSpan → ℕ) (s : TraceBroker) (actions : List TraceAction) :
    Aged s (s.run size actions) := by
  induction actions generalizing s with
  | nil => exact .refl s
  | cons a actions ih => exact (aged_step size s a).trans (ih _)

theorem isExpired_mono {x : BrokerItem OTELSpan} {now now' : ℕ} (hle : now ≤ now')
    (h : x.isExpired now = true) : x.isExpired now' = true := by
  unfold BrokerItem.isExpired at h ⊢
  cases hexpires : x.expiresAt with
  | none => simp [hexpires] at h
  | some t =>
    simp only [hexpires, Option.any_some, decide_eq_true_eq] at h ⊢
    exact h.trans hle

/-- An old span that is live later was live before. -/
theorem Aged.live {s' : TraceBroker} (h : Aged s s') {x : BrokerItem OTELSpan}
    (hx : x ∈ s'.stream.live s'.now) (hold : x.sequenceNumber < s.stream.nextSequence) :
    x ∈ s.stream.live s.now := by
  have hmem : x ∈ s.stream.items :=
    (h.old x ((live_sublist s').subset hx)).resolve_right (Nat.not_le.mpr hold)
  unfold InMemoryStream.live at hx ⊢
  rw [h.ttl_eq] at hx
  split
  next => exact hmem
  next hnone =>
    rw [if_neg hnone, List.mem_filter] at hx
    refine List.mem_filter.mpr ⟨hmem, ?_⟩
    rw [Bool.not_eq_true']
    by_contra hexpired
    have hlater := isExpired_mono h.now_le (Bool.not_eq_false _ ▸ hexpired)
    rw [hlater] at hx
    exact absurd hx.2 (by decide)

theorem mem_matching {x : BrokerItem OTELSpan} : x ∈ s.matching sessionId ↔
    x ∈ s.stream.live s.now ∧ ∀ id ∈ sessionId, id = "" ∨ spanMatchesSessionId x.data id = true := by
  unfold matching
  cases sessionId with
  | none => simp
  | some id =>
    by_cases hid : id = ""
    · simp [hid]
    · simp [hid]

theorem Aged.ages {s' : TraceBroker} (h : Aged s s') (sessionId : Option String) :
    DescendingPages.Ages (s.snapshot sessionId) (s'.snapshot sessionId) := by
  intro id k hk
  obtain ⟨⟨x, hx, rfl, rfl⟩, _⟩ := firstIn_eq_some.mp (mem_snapshot.mp hk)
  by_cases hold : x.sequenceNumber < s.stream.nextSequence
  · right
    obtain ⟨hlive, hmatch⟩ := mem_matching.mp hx
    obtain ⟨k, hle, hk⟩ := exists_firstIn (mem_matching.mpr ⟨h.live hlive hold, hmatch⟩)
    exact ⟨k, hle, mem_snapshot.mpr hk⟩
  · left
    rintro ⟨other, k⟩ hother
    obtain ⟨⟨y, hy, _, rfl⟩, _⟩ := firstIn_eq_some.mp (mem_snapshot.mp hother)
    exact (s.ordered.below y (mem_stream_of_matching hy)).trans_le (Nat.not_lt.mp hold)

end Snapshot

/-! ### Readers -/

section Page

variable {size : BrokerItem OTELSpan → ℕ} {s : TraceBroker} {sessionId : Option String} {limit : ℕ}
  {cursor : Option ℕ}

/-- The traces below the cursor, by their keys. -/
theorem below_snapshot (s : TraceBroker) (sessionId : Option String) (cursor : Option ℕ) :
    DescendingPages.below cursor (s.snapshot sessionId) =
      (match cursor with
        | none => s.traces sessionId
        | some cursor => (s.traces sessionId).filter fun t => t.firstSeq < cursor).map
          TraceEntry.key := by
  cases cursor with
  | none => rfl
  | some c =>
    rw [DescendingPages.below, snapshot, List.filter_map]
    rfl

theorem hasMore_iff : (s.paginateTraces (some limit) cursor sessionId).hasMore = true ↔
    DescendingPages.hasMore limit cursor (s.snapshot sessionId) := by
  rw [DescendingPages.hasMore, below_snapshot, List.length_map]
  exact decide_eq_true_iff

theorem nextCursor_eq (hmore : (s.paginateTraces (some limit) cursor sessionId).hasMore = true) :
    (s.paginateTraces (some limit) cursor sessionId).nextCursor =
      DescendingPages.next limit cursor (s.snapshot sessionId) := by
  rw [DescendingPages.next, DescendingPages.page, below_snapshot, ← List.map_take,
    List.getLast?_map, Option.map_map]
  exact if_pos hmore

theorem items_ids : (s.paginateTraces (some limit) cursor sessionId).items.map Trace.traceId =
    (DescendingPages.page limit cursor (s.snapshot sessionId)).map Prod.fst := by
  rw [DescendingPages.page, below_snapshot, ← List.map_take, List.map_map]
  exact List.map_map

theorem items_seqs :
    ((s.paginateTraces (some limit) cursor sessionId).items.map fun trace =>
        s.firstSeq sessionId trace.traceId) =
      (DescendingPages.page limit cursor (s.snapshot sessionId)).map fun x => some x.2 := by
  have hids : ((s.paginateTraces (some limit) cursor sessionId).items.map fun trace =>
      s.firstSeq sessionId trace.traceId) =
      ((s.paginateTraces (some limit) cursor sessionId).items.map Trace.traceId).map
        (s.firstSeq sessionId) := List.map_map.symm
  rw [hids, items_ids, List.map_map]
  exact List.map_congr_left fun x hx => mem_snapshot.mp (DescendingPages.mem_of_mem_page hx).1

end Page

section Reader

variable {size : BrokerItem OTELSpan → ℕ} {sessionId : Option String} {limit : ℕ}

/-- The keyed lists of the later requests. -/
def later (size : BrokerItem OTELSpan → ℕ) (sessionId : Option String) :
    TraceBroker → List (List TraceAction) → List (List (String × ℕ))
  | _, [] => []
  | s, actions :: rounds =>
    (s.run size actions).snapshot sessionId :: later size sessionId (s.run size actions) rounds

theorem exists_of_mem_later {s : TraceBroker} {rounds : List (List TraceAction)}
    {e : List (String × ℕ)} (he : e ∈ later size sessionId s rounds) :
    ∃ s', Aged s s' ∧ e = s'.snapshot sessionId := by
  induction rounds generalizing s with
  | nil => cases he
  | cons actions rounds ih =>
    have haged := aged_run size s actions
    rcases List.mem_cons.mp he with rfl | he
    · exact ⟨_, haged, rfl⟩
    · obtain ⟨s', hs', rfl⟩ := ih he
      exact ⟨s', haged.trans hs', rfl⟩

theorem readable (s : TraceBroker) (rounds : List (List TraceAction)) :
    DescendingPages.Readable (s.snapshot sessionId) (later size sessionId s rounds) := by
  constructor
  · intro e he
    rcases List.mem_cons.mp he with rfl | he
    · exact keyed_snapshot s sessionId
    · obtain ⟨s', _, rfl⟩ := exists_of_mem_later he
      exact keyed_snapshot s' sessionId
  · induction rounds generalizing s with
    | nil => exact List.pairwise_singleton _ _
    | cons actions rounds ih =>
      refine List.pairwise_cons.mpr ⟨fun e he => ?_, ih (s.run size actions)⟩
      obtain ⟨s', hs', rfl⟩ := exists_of_mem_later he
      exact hs'.ages sessionId

theorem followed_iff {cursor : Option ℕ} {s : TraceBroker} {rounds : List (List TraceAction)} :
    Followed size limit sessionId cursor s rounds ↔
      DescendingPages.Complete limit cursor (s.snapshot sessionId)
        (later size sessionId s rounds) := by
  induction rounds generalizing cursor s with
  | nil =>
    rw [later, DescendingPages.Complete, ← hasMore_iff, Followed, Bool.not_eq_true]
  | cons actions rounds ih =>
    rw [later, DescendingPages.Complete, ← hasMore_iff, Followed]
    refine and_congr_right fun hmore => ?_
    rw [← nextCursor_eq hmore]
    exact ih

theorem readings_ids {cursor : Option ℕ} {s : TraceBroker} {rounds : List (List TraceAction)}
    (h : Followed size limit sessionId cursor s rounds) :
    ((readings size limit sessionId cursor s rounds).flatMap fun r => r.2.items.map Trace.traceId) =
      (DescendingPages.pages limit cursor (s.snapshot sessionId)
        (later size sessionId s rounds)).flatten.map Prod.fst := by
  induction rounds generalizing cursor s with
  | nil =>
    rw [later, DescendingPages.pages, List.flatten_singleton, ← items_ids, readings,
      List.flatMap_singleton]
  | cons actions rounds ih =>
    rw [later, DescendingPages.pages, List.flatten_cons, List.map_append, ← items_ids,
      ← nextCursor_eq h.1, ← ih h.2, readings, List.flatMap_cons]

theorem readings_seqs {cursor : Option ℕ} {s : TraceBroker} {rounds : List (List TraceAction)}
    (h : Followed size limit sessionId cursor s rounds) :
    ((readings size limit sessionId cursor s rounds).flatMap fun r =>
        r.2.items.map fun trace => r.1.firstSeq sessionId trace.traceId) =
      (DescendingPages.pages limit cursor (s.snapshot sessionId)
        (later size sessionId s rounds)).flatten.map fun x => some x.2 := by
  induction rounds generalizing cursor s with
  | nil =>
    rw [later, DescendingPages.pages, List.flatten_singleton, ← items_seqs, readings,
      List.flatMap_singleton]
  | cons actions rounds ih =>
    rw [later, DescendingPages.pages, List.flatten_cons, List.map_append, ← items_seqs,
      ← nextCursor_eq h.1, ← ih h.2, readings, List.flatMap_cons]

theorem staysBelow_iff {last : TraceBroker} {cursor : Option ℕ} {s : TraceBroker}
    {rounds : List (List TraceAction)} (h : Followed size limit sessionId cursor s rounds) :
    StaysBelow size limit sessionId last cursor s rounds ↔
      DescendingPages.Stays limit (last.snapshot sessionId) cursor (s.snapshot sessionId)
        (later size sessionId s rounds) := by
  induction rounds generalizing cursor s with
  | nil => exact Iff.rfl
  | cons actions rounds ih =>
    rw [later, DescendingPages.Stays, StaysBelow, ← nextCursor_eq h.1, ih h.2]
    refine and_congr_left fun _ => forall₂_congr fun c hc => ?_
    simp only [hasBelow_iff, hasTrace_iff]
    constructor
    · intro hall id k hk hlt hlast
      exact hall id ⟨k, hlt, hk⟩ hlast
    · rintro hall id ⟨k, hlt, hk⟩ hlast
      exact hall id k hk hlt hlast

/-- A reader who follows the pages to the end gets every trace that was there at the first request and
is there at the last, exactly when each stays below his cursor until he has it. -/
theorem partition_iff_staysBelow (size : BrokerItem OTELSpan → ℕ) (sessionId : Option String)
    (hlimit : 0 < limit) {s : TraceBroker} {rounds : List (List TraceAction)}
    (h : Followed size limit sessionId none s rounds) :
    Partition size limit sessionId s rounds ↔
      StaysBelow size limit sessionId (s.run size rounds.flatten) none s rounds := by
  have hread := @readable size sessionId s rounds
  have hcomplete := followed_iff.mp h
  rw [staysBelow_iff h, ← DescendingPages.readsAll_iff_stays hlimit hread hcomplete]
  have hids : readIds size limit sessionId s rounds = _ := readings_ids h
  constructor
  · intro hpartition id hfirst hlast
    rw [← hids]
    exact hpartition.all id (hasTrace_iff.mpr hfirst) (hasTrace_iff.mpr hlast)
  · intro hall
    constructor
    case once =>
      rw [hids]
      exact DescendingPages.pages_nodup hlimit hread hcomplete
    case newest =>
      rw [readSeqs, readings_seqs h]
      refine List.pairwise_map.mpr ?_
      refine (DescendingPages.pages_descending hlimit hread hcomplete).imp fun hlt => ?_
      exact ⟨_, rfl, _, rfl, hlt⟩
    case all =>
      intro id hfirst hlast
      rw [hids]
      exact hall id (hasTrace_iff.mp hfirst) (hasTrace_iff.mp hlast)

/-- Nothing is ever read twice. -/
theorem readIds_nodup (hlimit : 0 < limit) {s : TraceBroker} {rounds : List (List TraceAction)}
    (h : Followed size limit sessionId none s rounds) :
    (readIds size limit sessionId s rounds).Nodup := by
  rw [readIds, readings_ids h]
  exact DescendingPages.pages_nodup hlimit (readable s rounds) (followed_iff.mp h)

end Reader

/-! ### A trace that is passed over -/

def spanOf (traceId : String) : TraceAction := .addSpan { traceId := traceId }

/-- A broker whose spans live a second; `a` has a span before that of `b` and one behind it. -/
def twoTraces : TraceBroker :=
  (new (some 1) none).run (fun _ => 0) [spanOf "a", .tick 500, spanOf "b", spanOf "a"]

/-- Both readers have a second page; the one behind which time passes gets `b` alone. -/
theorem twoTraces_pages :
    (Followed (fun _ => 0) 1 none none twoTraces [[]] ∧
      Followed (fun _ => 0) 1 none none twoTraces [[.tick 500, .maintain]]) ∧
      (twoTraces.HasTrace none "a" ∧ (twoTraces.run (fun _ => 0) [.tick 500, .maintain]).HasTrace none "a") ∧
      readIds (fun _ => 0) 1 none twoTraces [[.tick 500, .maintain]] = ["b"] := by
  unfold Followed Followed
  decide +kernel

theorem partition_twoTraces : Partition (fun _ => 0) 1 none twoTraces [[]] ↔
    StaysBelow (fun _ => 0) 1 none (twoTraces.run (fun _ => 0) [[]].flatten) none twoTraces [[]] :=
  partition_iff_staysBelow _ none Nat.one_pos twoTraces_pages.1.1

/-- After the first page, which is `b`, the first span of `a` expires, and the reader never gets `a`. -/
theorem expired_span_hides_trace :
    Followed (fun _ => 0) 1 none none twoTraces [[.tick 500, .maintain]] ∧
      ¬ Partition (fun _ => 0) 1 none twoTraces [[.tick 500, .maintain]] := by
  obtain ⟨⟨-, hfollowed⟩, ⟨hfirst, hlast⟩, hids⟩ := twoTraces_pages
  refine ⟨hfollowed, fun h => ?_⟩
  have hmem := h.all "a" hfirst hlast
  rw [hids, List.mem_singleton] at hmem
  simp at hmem

end TraceBroker

end Ark
