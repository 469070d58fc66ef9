import Ark.AgentLoop
import Ark.KeyedTable
import Mathlib.Data.List.Dedup
import Mathlib.Data.List.Induction
import Mathlib.Data.List.Sort

/-!
# Streamed completions

A provider streams a completion as chunks. `ChatCompletionStream` hands each chunk on and accumulates
the completion; when the stream ends it hands on one more chunk with the tool calls.
`streamCompletionAsChunks` turns a finished completion into chunks. The consumer of the chunks folds
them by the rules of the streaming format: it concatenates the contents, groups the fragments of tool
calls by index and concatenates their arguments.
-/

namespace Ark.Completion

open KeyedTable

structure ToolCallFragment where
  index : ℤ
  id : String
  name : String
  arguments : String
  deriving DecidableEq, Repr

structure ChunkChoice where
  index : ℤ
  role : String
  content : String
  toolCalls : List ToolCallFragment
  finishReason : String
  deriving DecidableEq, Repr

structure PromptTokensDetails where
  audioTokens : ℤ
  cachedTokens : ℤ
  deriving DecidableEq, Repr

structure CompletionTokensDetails where
  acceptedPredictionTokens : ℤ
  audioTokens : ℤ
  reasoningTokens : ℤ
  rejectedPredictionTokens : ℤ
  deriving DecidableEq, Repr

structure Usage where
  promptTokens : ℤ
  completionTokens : ℤ
  totalTokens : ℤ
  promptTokensDetails : PromptTokensDetails
  completionTokensDetails : CompletionTokensDetails
  deriving DecidableEq, Repr

def CompletionTokensDetails.zero : CompletionTokensDetails := ⟨0, 0, 0, 0⟩

def Usage.zero : Usage := ⟨0, 0, 0, ⟨0, 0⟩, .zero⟩

structure Chunk where
  id : String
  created : ℤ
  model : String
  choices : List ChunkChoice
  usage : Usage
  deriving DecidableEq, Repr

structure CompletionMessage where
  role : String
  content : String
  toolCalls : List ToolCall
  deriving DecidableEq, Repr

structure CompletionChoice where
  index : ℤ
  message : CompletionMessage
  finishReason : String
  deriving DecidableEq, Repr

structure ChatCompletion where
  id : String
  created : ℤ
  model : String
  choices : List CompletionChoice
  usage : Usage
  deriving DecidableEq, Repr

/-! ### The provider -/

/-- `fullResponse` and `toolCallsMap`. -/
structure Accumulated where
  fullResponse : Option ChatCompletion
  toolCallsMap : List (ℤ × ToolCall)

def Accumulated.init : Accumulated := ⟨none, []⟩

def accumulateToolCall (toolCallsMap : List (ℤ × ToolCall)) (deltaToolCall : ToolCallFragment) :
    List (ℤ × ToolCall) :=
  match find Prod.fst deltaToolCall.index toolCallsMap with
  | some (_, existingCall) =>
    if deltaToolCall.arguments ≠ "" then
      put Prod.fst (deltaToolCall.index,
        { existingCall with arguments := existingCall.arguments ++ deltaToolCall.arguments })
        toolCallsMap
    else toolCallsMap
  | none =>
    put Prod.fst
      (deltaToolCall.index, ⟨deltaToolCall.id, deltaToolCall.name, deltaToolCall.arguments⟩)
      toolCallsMap

/-- What a choice of a chunk adds to the first choice of the response. -/
def accumulateChoice (current : CompletionChoice) (choice : ChunkChoice) : CompletionChoice where
  index := current.index
  message :=
    { current.message with
      role := if choice.role ≠ "" then choice.role else current.message.role
      content :=
        if choice.content ≠ "" then current.message.content ++ choice.content
        else current.message.content }
  finishReason := if choice.finishReason ≠ "" then choice.finishReason else current.finishReason

def accumulateStreamChunk (s : Accumulated) (chunk : Chunk) : Accumulated :=
  let fullResponse := s.fullResponse.getD ⟨chunk.id, chunk.created, chunk.model, [], .zero⟩
  match chunk.choices with
  | [] => { s with fullResponse := some fullResponse }
  | choice :: _ =>
    let current := fullResponse.choices.head?.getD ⟨choice.index, ⟨"", "", []⟩, ""⟩
    { fullResponse := some { fullResponse with
        choices := accumulateChoice current choice :: fullResponse.choices.tail }
      toolCallsMap := choice.toolCalls.foldl accumulateToolCall s.toolCallsMap }

/-- The usage of a chunk, which leaves out `CompletionTokensDetails`. -/
def accumulateUsage (s : Accumulated) (chunk : Chunk) : Accumulated :=
  if 0 < chunk.usage.totalTokens then
    { s with
      fullResponse := s.fullResponse.map fun r =>
        { r with usage := { chunk.usage with completionTokensDetails := .zero } } }
  else s

/-- One round of the loop of `ChatCompletionStream`. -/
def accumulate (s : Accumulated) (chunk : Chunk) : Accumulated :=
  accumulateUsage (accumulateStreamChunk s chunk) chunk

/-- The loop; the chunks handed to `streamFunc`, whose error ends it. -/
def streamLoop (streamFunc : Chunk → Option String) :
    List Chunk → Accumulated → List Chunk × Except String Accumulated
  | [], s => ([], .ok s)
  | chunk :: chunks, s =>
    match streamFunc chunk with
    | some err => ([chunk], .error err)
    | none =>
      let (passed, result) := streamLoop streamFunc chunks (accumulate s chunk)
      (chunk :: passed, result)

/-- The largest `int64`. -/
def maxInt64 : ℤ := 9223372036854775807

def maxIndexOf (toolCallsMap : List (ℤ × ToolCall)) : ℤ :=
  toolCallsMap.foldl (fun m p => max m p.1) (-1)

/-- The calls of the map from index 0 to `maxIndex`. -/
def orderedToolCalls (toolCallsMap : List (ℤ × ToolCall)) : List ToolCall :=
  (List.range (maxIndexOf toolCallsMap + 1).toNat).filterMap fun i : ℕ =>
    (find Prod.fst (i : ℤ) toolCallsMap).map Prod.snd

/-- The fragments of the chunk that `SendFinalToolCallChunk` sends. -/
def finalFragments (toolCalls : List ToolCall) : List ToolCallFragment :=
  toolCalls.zipIdx.map fun p => ⟨p.2, p.1.id, p.1.name, p.1.arguments⟩

def finalToolCallChunk (fullResponse : ChatCompletion) (first : CompletionChoice)
    (toolCalls : List ToolCall) : Chunk where
  id := fullResponse.id
  created := fullResponse.created
  model := fullResponse.model
  choices := [⟨0, "", "", finalFragments toolCalls, first.finishReason⟩]
  usage := .zero

/-- The response with its tool calls, and the chunk that is sent if there are any; nothing if the
loop over the indices does not end, since its `int64` counter never exceeds `maxIndex`. -/
def processToolCalls (s : Accumulated) : Option (Option ChatCompletion × Option Chunk) :=
  match s.fullResponse with
  | none => some (none, none)
  | some fullResponse =>
    match fullResponse.choices with
    | [] => some (some fullResponse, none)
    | first :: rest =>
      if s.toolCallsMap.isEmpty then some (some fullResponse, none)
      else if maxInt64 ≤ maxIndexOf s.toolCallsMap then none
      else
        let toolCalls := orderedToolCalls s.toolCallsMap
        let first := { first with message := { first.message with toolCalls := toolCalls } }
        let fullResponse := { fullResponse with choices := first :: rest }
        some (some fullResponse,
          if toolCalls.isEmpty then none else some (finalToolCallChunk fullResponse first toolCalls))

/-- The chunks handed to `streamFunc` and the result, if the call returns. `streamErr` is the error
that the stream ended with; an error of `streamFunc` for the final chunk is logged only. -/
def ChatCompletionStream (streamFunc : Chunk → Option String) (chunks : List Chunk)
    (streamErr : Option String) : Option (List Chunk × Except String ChatCompletion) :=
  match streamLoop streamFunc chunks .init with
  | (passed, .error err) => some (passed, .error err)
  | (passed, .ok s) =>
    (processToolCalls s).map fun (fullResponse, finalChunk) =>
      (passed ++ finalChunk.toList,
        match streamErr, fullResponse with
        | some err, _ => .error err
        | none, none => .error "streaming completed but no response was accumulated"
        | none, some fullResponse => .ok fullResponse)

/-! ### A finished completion as chunks -/

def roleAssistant : String := "assistant"

/-- The chunks handed to `streamFunc` when it does not fail. -/
def streamCompletionAsChunks (completion : ChatCompletion) : List Chunk :=
  completion.choices.map fun choice =>
    { id := completion.id
      created := completion.created
      model := completion.model
      choices := [⟨choice.index, roleAssistant, choice.message.content, [], choice.finishReason⟩]
      usage := .zero }

/-! ### The consumer -/

/-- The choice that a chunk is about. -/
def choicesOf (chunks : List Chunk) : List ChunkChoice := chunks.filterMap fun c => c.choices.head?

def fragmentsOf (chunks : List Chunk) : List ToolCallFragment :=
  (choicesOf chunks).flatMap ChunkChoice.toolCalls

/-- The fragments of one tool call. -/
def fragmentsAt (fragments : List ToolCallFragment) (i : ℤ) : List ToolCallFragment :=
  fragments.filter (·.index = i)

/-- The indices of the tool calls, in their order. -/
def indicesOf (fragments : List ToolCallFragment) : List ℤ :=
  ((fragments.map (·.index)).dedup).insertionSort (· ≤ ·)

/-- The tool call that the fragments of an index make up. -/
def callOf (fragments : List ToolCallFragment) : ToolCall where
  id := (fragments.head?.map (·.id)).getD ""
  name := (fragments.head?.map (·.name)).getD ""
  arguments := String.join (fragments.map (·.arguments))

/-- The last value that is set. -/
def lastSet (values : List String) : String := ((values.filter (· ≠ "")).getLast?).getD ""

/-- The message that a consumer makes of the chunks. -/
def foldMessage (chunks : List Chunk) : CompletionMessage where
  role := lastSet ((choicesOf chunks).map (·.role))
  content := String.join ((choicesOf chunks).map (·.content))
  toolCalls := (indicesOf (fragmentsOf chunks)).map fun i => callOf (fragmentsAt (fragmentsOf chunks) i)

/-! ### What the loop accumulates -/

variable {chunks : List Chunk} {fragments : List ToolCallFragment} {i : ℤ}

@[simp] theorem streamLoop_of_none (s : Accumulated) :
    streamLoop (fun _ => none) chunks s = (chunks, .ok (chunks.foldl accumulate s)) := by
  induction chunks generalizing s with
  | nil => rfl
  | cons chunk chunks ih => simp [streamLoop, ih]

theorem choicesOf_append (chunk : Chunk) :
    choicesOf (chunks ++ [chunk]) = choicesOf chunks ++ chunk.choices.head?.toList := by
  rw [choicesOf, List.filterMap_append]
  cases h : chunk.choices.head? <;> simp [choicesOf, h]

theorem fragmentsAt_append (d : ToolCallFragment) : fragmentsAt (fragments ++ [d]) i =
    if d.index = i then fragmentsAt fragments i ++ [d] else fragmentsAt fragments i := by
  rw [fragmentsAt, List.filter_append]
  split <;> simp_all [fragmentsAt]

theorem lastSet_append (values : List String) (x : String) :
    lastSet (values ++ [x]) = if x ≠ "" then x else lastSet values := by
  by_cases hx : x = "" <;> simp [lastSet, hx]

/-- The map holds the call of each index. -/
def IsTable (m : List (ℤ × ToolCall)) (fragments : List ToolCallFragment) : Prop :=
  ∀ i, (find Prod.fst i m).map Prod.snd =
    if fragmentsAt fragments i = [] then none else some (callOf (fragmentsAt fragments i))

theorem callOf_append {l : List ToolCallFragment} (h : l ≠ []) (d : ToolCallFragment) :
    callOf (l ++ [d]) = { callOf l with arguments := (callOf l).arguments ++ d.arguments } := by
  obtain ⟨first, rest, rfl⟩ := List.exists_cons_of_ne_nil h
  simp [callOf, String.append_assoc]

/-- A fragment continues the call of its index, or starts it. -/
theorem IsTable.accumulateToolCall {m : List (ℤ × ToolCall)} (h : IsTable m fragments)
    (d : ToolCallFragment) :
    IsTable (Completion.accumulateToolCall m d) (fragments ++ [d]) := by
  intro i
  rw [fragmentsAt_append]
  have hd := h d.index
  by_cases hi : d.index = i
  · subst hi
    rw [if_pos rfl, if_neg (List.append_ne_nil_of_right_ne_nil _ (List.cons_ne_nil d []))]
    by_cases hnil : fragmentsAt fragments d.index = []
    · rw [if_pos hnil, Option.map_eq_none_iff] at hd
      simp [Completion.accumulateToolCall, hd, find_put, hnil, callOf]
    · rw [if_neg hnil] at hd
      obtain ⟨⟨j, call⟩, hfind, hcall⟩ := Option.map_eq_some_iff.mp hd
      obtain rfl : call = _ := hcall
      simp only [Completion.accumulateToolCall, hfind]
      rw [callOf_append hnil]
      split
      next => rw [find_put, if_pos rfl]; rfl
      next harg =>
        rw [hfind, not_not.mp harg]
        simp
  · rw [if_neg hi, ← h i]
    have hne : i ≠ d.index := Ne.symm hi
    simp only [Completion.accumulateToolCall]
    split
    next =>
      split
      next => rw [find_put, if_neg hne]
      next => rfl
    next => rw [find_put, if_neg hne]

theorem IsTable.foldl {m : List (ℤ × ToolCall)} (h : IsTable m fragments)
    (l : List ToolCallFragment) :
    IsTable (l.foldl Completion.accumulateToolCall m) (fragments ++ l) := by
  induction l generalizing m fragments with
  | nil => simpa using h
  | cons d l ih => simpa using ih (h.accumulateToolCall d)

/-- The usage that the last chunk with tokens reports. -/
def usageOf (chunks : List Chunk) : Usage :=
  (((chunks.filter (0 < ·.usage.totalTokens)).getLast?).map fun c =>
    { c.usage with completionTokensDetails := CompletionTokensDetails.zero }).getD .zero

/-- The choice that the choices of the chunks make up. -/
def choiceOf (choices : List ChunkChoice) : Option CompletionChoice :=
  choices.head?.map fun first =>
    { index := first.index
      message :=
        { role := lastSet (choices.map (·.role))
          content := String.join (choices.map (·.content))
          toolCalls := [] }
      finishReason := lastSet (choices.map (·.finishReason)) }

def responseOf (chunks : List Chunk) : Option ChatCompletion :=
  chunks.head?.map fun first =>
    { id := first.id
      created := first.created
      model := first.model
      choices := (choiceOf (choicesOf chunks)).toList
      usage := usageOf chunks }

theorem usageOf_append (chunk : Chunk) : usageOf (chunks ++ [chunk]) =
    if 0 < chunk.usage.totalTokens then { chunk.usage with completionTokensDetails := .zero }
    else usageOf chunks := by
  by_cases h : 0 < chunk.usage.totalTokens <;> simp [usageOf, h]

theorem choiceOf_append (choices : List ChunkChoice) (x : ChunkChoice) :
    choiceOf (choices ++ [x]) =
      some (accumulateChoice ((choiceOf choices).getD ⟨x.index, ⟨"", "", []⟩, ""⟩) x) := by
  cases choices with
  | nil =>
    simp only [choiceOf, accumulateChoice, List.nil_append, List.head?_cons, List.head?_nil,
      Option.map_some, Option.map_none, Option.getD_none, List.map_cons, List.map_nil,
      String.join_cons, String.join_nil, String.append_empty, String.empty_append]
    have hlast : ∀ v : String, lastSet [v] = if v ≠ "" then v else "" := lastSet_append []
    simp only [hlast]
    congr 2
    by_cases h : x.content = "" <;> simp [h]
  | cons first rest =>
    have hlast : ∀ f : ChunkChoice → String, lastSet (((first :: rest) ++ [x]).map f) =
        if f x ≠ "" then f x else lastSet ((first :: rest).map f) := by
      intro f
      rw [List.map_append]
      exact lastSet_append _ _
    simp only [choiceOf, accumulateChoice, hlast]
    simp only [List.cons_append, List.head?_cons, Option.map_some, Option.getD_some, List.map_cons,
      List.map_append, List.map_nil, String.join_cons, String.join_append, String.join_nil,
      String.append_empty]
    congr 2
    by_cases h : x.content = "" <;> simp [h, String.append_assoc]

/-- The response and the map after any chunks. -/
theorem foldl_accumulate (chunks : List Chunk) :
    (chunks.foldl accumulate .init).fullResponse = responseOf chunks ∧
      IsTable (chunks.foldl accumulate .init).toolCallsMap (fragmentsOf chunks) := by
  induction chunks using List.reverseRecOn with
  | nil => exact ⟨rfl, fun i => rfl⟩
  | append_singleton chunks chunk ih =>
    obtain ⟨hresponse, htable⟩ := ih
    set s := chunks.foldl accumulate .init with hs
    rw [List.foldl_append, List.foldl_cons, List.foldl_nil, ← hs]
    -- the response before the chunk, which the first chunk creates
    let first := (chunks ++ [chunk]).head?.getD chunk
    let before : ChatCompletion :=
      ⟨first.id, first.created, first.model, (choiceOf (choicesOf chunks)).toList, usageOf chunks⟩
    have hbefore : s.fullResponse.getD ⟨chunk.id, chunk.created, chunk.model, [], .zero⟩ =
        before := by
      rw [hresponse]
      cases chunks <;> rfl
    have hhead : (chunks ++ [chunk]).head? = some first := by
      cases chunks <;> rfl
    have hmap : (accumulate s chunk).toolCallsMap = (accumulateStreamChunk s chunk).toolCallsMap := by
      unfold accumulate accumulateUsage
      split <;> rfl
    have husage : ∀ r : ChatCompletion, (accumulateStreamChunk s chunk).fullResponse = some r →
        r.usage = usageOf chunks →
        (accumulate s chunk).fullResponse = some { r with usage := usageOf (chunks ++ [chunk]) } := by
      intro r hr hu
      unfold accumulate accumulateUsage
      rw [usageOf_append]
      split
      next => rw [hr]; rfl
      next => rw [hr, ← hu]
    rw [hmap, responseOf, hhead, Option.map_some]
    unfold fragmentsOf
    rw [choicesOf_append]
    cases hc : chunk.choices with
    | nil =>
      have hstep : accumulateStreamChunk s chunk = { s with fullResponse := some before } := by
        simp only [accumulateStreamChunk, hc, hbefore]
      rw [hstep]
      refine ⟨?_, ?_⟩
      · rw [husage before (by rw [hstep]) rfl]
        simp [before]
      · simpa [fragmentsOf] using htable
    | cons choice rest =>
      have hchoices : (choiceOf (choicesOf chunks ++ [choice])).toList =
          accumulateChoice (((choiceOf (choicesOf chunks)).toList.head?).getD
            ⟨choice.index, ⟨"", "", []⟩, ""⟩) choice ::
            (choiceOf (choicesOf chunks)).toList.tail := by
        rw [choiceOf_append]
        cases choiceOf (choicesOf chunks) <;> rfl
      let after : ChatCompletion :=
        { before with choices := (choiceOf (choicesOf chunks ++ [choice])).toList }
      have hstep : accumulateStreamChunk s chunk =
          ⟨some after, choice.toolCalls.foldl accumulateToolCall s.toolCallsMap⟩ := by
        simp only [accumulateStreamChunk, hc, hbefore, after, hchoices, before]
      rw [hstep]
      refine ⟨?_, ?_⟩
      · rw [husage after (by rw [hstep]) rfl]
        rfl
      · simpa [fragmentsOf] using htable.foldl choice.toolCalls

/-! ### Tool calls in index order -/

theorem fragmentsAt_ne_nil : fragmentsAt fragments i ≠ [] ↔ ∃ f ∈ fragments, f.index = i := by
  rw [fragmentsAt, List.ne_nil_iff_exists_cons, ← List.ne_nil_iff_exists_cons, Ne,
    List.filter_eq_nil_iff]
  simp

theorem mem_indicesOf : i ∈ indicesOf fragments ↔ ∃ f ∈ fragments, f.index = i := by
  simp [indicesOf]

theorem nodup_indicesOf : (indicesOf fragments).Nodup :=
  (List.perm_insertionSort _ _).nodup_iff.mpr (List.nodup_dedup _)

/-- A list of integers in ascending order with the members of `indicesOf`. -/
theorem eq_indicesOf {l : List ℤ} (hl : l.Pairwise (· < ·))
    (h : ∀ i, i ∈ l ↔ ∃ f ∈ fragments, f.index = i) : l = indicesOf fragments := by
  have hperm : l.Perm (indicesOf fragments) :=
    (List.perm_ext_iff_of_nodup (hl.imp ne_of_lt) nodup_indicesOf).mpr fun i =>
      (h i).trans mem_indicesOf.symm
  exact hperm.eq_of_pairwise (fun _ _ _ _ => le_antisymm) (hl.imp le_of_lt)
    (List.pairwise_insertionSort _ _)

theorem le_foldl_max {m : List (ℤ × ToolCall)} (k : ℤ) :
    k ≤ m.foldl (fun m p => max m p.1) k ∧
      ∀ p ∈ m, p.1 ≤ m.foldl (fun m p => max m p.1) k := by
  induction m generalizing k with
  | nil => exact ⟨le_rfl, by simp⟩
  | cons x m ih =>
    obtain ⟨hk, hm⟩ := ih (max k x.1)
    refine ⟨(le_max_left k x.1).trans hk, ?_⟩
    intro p hp
    obtain rfl | hp := List.mem_cons.mp hp
    · exact (le_max_right k p.1).trans hk
    · exact hm p hp

/-- The loop up to `maxIndex` lists the calls of the indices. -/
theorem orderedToolCalls_eq {m : List (ℤ × ToolCall)} (h : IsTable m fragments)
    (hn : ∀ f ∈ fragments, 0 ≤ f.index) :
    orderedToolCalls m = (indicesOf fragments).map fun i => callOf (fragmentsAt fragments i) := by
  set n := (maxIndexOf m + 1).toNat with hndef
  have hlookup : ∀ i : ℕ, (find Prod.fst (i : ℤ) m).map Prod.snd =
      if (fragmentsAt fragments i).isEmpty then none else some (callOf (fragmentsAt fragments i)) := by
    intro i
    rw [h i]
    simp
  have hbound : ∀ i : ℕ, fragmentsAt fragments (i : ℤ) ≠ [] → i < n := by
    intro i hi
    have hsome := h i
    rw [if_neg hi] at hsome
    obtain ⟨p, hp, -⟩ := Option.map_eq_some_iff.mp hsome
    have hle : p.1 ≤ maxIndexOf m := (le_foldl_max (-1)).2 p (mem_of_find hp)
    rw [key_of_find hp] at hle
    omega
  have hindices : ((List.range n).filter fun i : ℕ => !(fragmentsAt fragments (i : ℤ)).isEmpty).map
      (Nat.cast : ℕ → ℤ) = indicesOf fragments := by
    apply eq_indicesOf
    · rw [List.pairwise_map]
      exact (List.pairwise_lt_range.sublist List.filter_sublist).imp Int.ofNat_lt.mpr
    · intro j
      rw [← fragmentsAt_ne_nil]
      constructor
      · intro hj
        obtain ⟨k, hk, rfl⟩ := List.mem_map.mp hj
        simpa using (List.mem_filter.mp hk).2
      · intro hj
        obtain ⟨f, hf, rfl⟩ := fragmentsAt_ne_nil.mp hj
        lift f.index to ℕ using hn f hf with k
        refine List.mem_map.mpr ⟨k, List.mem_filter.mpr ⟨List.mem_range.mpr (hbound k hj), ?_⟩, rfl⟩
        simpa using hj
  have hstep : ∀ l : List ℕ, (l.filterMap fun i : ℕ => (find Prod.fst (i : ℤ) m).map Prod.snd) =
      ((l.filter fun i : ℕ => !(fragmentsAt fragments (i : ℤ)).isEmpty).map (Nat.cast : ℕ → ℤ)).map
        fun i => callOf (fragmentsAt fragments i) := by
    intro l
    induction l with
    | nil => rfl
    | cons i l ih =>
      rw [List.filterMap_cons, hlookup i, ih]
      cases hi : (fragmentsAt fragments (i : ℤ)).isEmpty <;> simp [hi]
  rw [orderedToolCalls, hstep, hindices]

/-! ### Fragmentations -/

/-- The values that are set are all `v`. -/
def Sets (values : List String) (v : String) : Prop :=
  (∀ x ∈ values, x = "" ∨ x = v) ∧ (v = "" ∨ v ∈ values)

/-- The fragments of one call, in their order: the first has the id and the name. -/
def FragmentsCall (fragments : List ToolCallFragment) (call : ToolCall) : Prop :=
  ∃ first rest, fragments = first :: rest ∧ first.id = call.id ∧ first.name = call.name ∧
    (∀ f ∈ rest, f.id = "" ∧ f.name = "") ∧
    String.join ((first :: rest).map (·.arguments)) = call.arguments

/-- The provider's chunks are a fragmentation of the completion, whose tool calls have the indices
`indices`. -/
structure Fragments (c : ChatCompletion) (choice : CompletionChoice) (indices : List ℤ)
    (chunks : List Chunk) : Prop where
  envelope : ∀ k ∈ chunks, k.id = c.id ∧ k.created = c.created ∧ k.model = c.model
  choices : c.choices = [choice]
  started : choicesOf chunks ≠ []
  index : ∀ x ∈ choicesOf chunks, x.index = choice.index
  role : Sets ((choicesOf chunks).map (·.role)) choice.message.role
  content : String.join ((choicesOf chunks).map (·.content)) = choice.message.content
  finishReason : Sets ((choicesOf chunks).map (·.finishReason)) choice.finishReason
  usage : (∀ k ∈ chunks, k.usage = c.usage ∨ k.usage = .zero) ∧ ∃ k ∈ chunks, k.usage = c.usage
  sorted : indices.Pairwise (· < ·)
  nonneg : ∀ i ∈ indices, 0 ≤ i
  known : ∀ f ∈ fragmentsOf chunks, f.index ∈ indices
  calls : List.Forall₂ (fun i call => FragmentsCall (fragmentsAt (fragmentsOf chunks) i) call)
    indices choice.message.toolCalls

theorem lastSet_of_sets {values : List String} {v : String} (h : Sets values v) :
    lastSet values = v := by
  induction values using List.reverseRecOn with
  | nil =>
    obtain rfl | hv := h.2
    · rfl
    · cases hv
  | append_singleton values x ih =>
    rw [lastSet_append]
    split
    next hx =>
      obtain hx' | rfl := h.1 x (by simp)
      · exact absurd hx' hx
      · rfl
    next hx =>
      rw [not_not] at hx
      apply ih
      refine ⟨fun y hy => h.1 y (List.mem_append_left _ hy), ?_⟩
      obtain hv | hv := h.2
      · exact .inl hv
      · obtain hv | hv := List.mem_append.mp hv
        · exact .inr hv
        · exact .inl ((List.mem_singleton.mp hv).trans hx)

theorem FragmentsCall.callOf_eq {call : ToolCall} (h : FragmentsCall fragments call) :
    callOf fragments = call := by
  obtain ⟨first, rest, rfl, hid, hname, -, harguments⟩ := h
  simp only [callOf, List.head?_cons, Option.map_some, Option.getD_some, hid, hname, harguments]

/-- The usage without the details that the loop leaves out. -/
theorem usageOf_eq {u : Usage} (h : ∀ k ∈ chunks, k.usage = u ∨ k.usage = .zero)
    (hu : ∃ k ∈ chunks, k.usage = u) :
    usageOf chunks = if 0 < u.totalTokens then { u with completionTokensDetails := .zero }
      else .zero := by
  rw [usageOf]
  have hfilter : ∀ k ∈ chunks.filter (0 < ·.usage.totalTokens),
      k.usage = u ∧ 0 < u.totalTokens := by
    intro k hk
    obtain ⟨hk, hpos⟩ := List.mem_filter.mp hk
    rw [decide_eq_true_eq] at hpos
    obtain hku | hku := h k hk
    · exact ⟨hku, hku ▸ hpos⟩
    · rw [hku] at hpos
      exact absurd hpos (by decide)
  cases hlast : (chunks.filter (0 < ·.usage.totalTokens)).getLast? with
  | none =>
    rw [List.getLast?_eq_none_iff, List.filter_eq_nil_iff] at hlast
    obtain ⟨k, hk, rfl⟩ := hu
    have := hlast k hk
    rw [decide_eq_true_eq] at this
    rw [if_neg this]
    rfl
  | some k =>
    obtain ⟨hku, hpos⟩ := hfilter k (List.mem_of_getLast? hlast)
    rw [if_pos hpos, ← hku]
    rfl

section Fragmentation

variable {c : ChatCompletion} {choice : CompletionChoice} {indices : List ℤ}

theorem Fragments.indicesOf_eq (h : Fragments c choice indices chunks) :
    indicesOf (fragmentsOf chunks) = indices := by
  refine (eq_indicesOf h.sorted ?_).symm
  intro i
  constructor
  · intro hi
    rw [← fragmentsAt_ne_nil]
    obtain ⟨n, hn, rfl⟩ := List.mem_iff_getElem.mp hi
    have hlength := h.calls.length_eq
    obtain ⟨first, rest, hfragments, -⟩ := h.calls.get hn (hlength ▸ hn)
    change fragmentsAt (fragmentsOf chunks) indices[n] = first :: rest at hfragments
    rw [hfragments]
    exact List.cons_ne_nil _ _
  · rintro ⟨f, hf, rfl⟩
    exact h.known f hf

theorem Fragments.toolCalls_eq (h : Fragments c choice indices chunks) :
    ((indicesOf (fragmentsOf chunks)).map fun i => callOf (fragmentsAt (fragmentsOf chunks) i)) =
      choice.message.toolCalls := by
  rw [h.indicesOf_eq]
  have hcalls := h.calls
  generalize choice.message.toolCalls = calls at hcalls ⊢
  clear h
  induction hcalls with
  | nil => rfl
  | cons hcall _ ih => rw [List.map_cons, ih, hcall.callOf_eq]

/-- The consumer of the provider's own chunks gets the message. -/
theorem Fragments.foldMessage_eq (h : Fragments c choice indices chunks) :
    foldMessage chunks = choice.message := by
  rw [foldMessage, lastSet_of_sets h.role, h.content, h.toolCalls_eq]

/-! ### The final chunk -/

/-- The fragment of the final chunk for the call at position `k`. -/
def fragmentOf (k : ℕ) (call : ToolCall) : ToolCallFragment := ⟨k, call.id, call.name, call.arguments⟩

theorem finalFragments_append (calls : List ToolCall) (call : ToolCall) :
    finalFragments (calls ++ [call]) = finalFragments calls ++ [fragmentOf calls.length call] := by
  simp [finalFragments, fragmentOf, List.zipIdx_append]

theorem fragmentsAt_finalFragments (calls : List ToolCall) (k : ℕ) :
    fragmentsAt (finalFragments calls) k = (calls[k]?.map (fragmentOf k)).toList := by
  induction calls using List.reverseRecOn with
  | nil => rfl
  | append_singleton calls call ih =>
    rw [finalFragments_append, fragmentsAt_append, ih]
    obtain hlt | rfl | hgt := lt_trichotomy k calls.length
    · have hne : ((calls.length : ℕ) : ℤ) ≠ k := by omega
      rw [fragmentOf, if_neg hne, List.getElem?_append_left hlt]
    · simp [fragmentOf]
    · have hne : ((calls.length : ℕ) : ℤ) ≠ k := by omega
      rw [fragmentOf, if_neg hne, List.getElem?_eq_none hgt.le,
        List.getElem?_eq_none (by simp only [List.length_append, List.length_singleton]; omega)]

theorem mem_finalFragments {calls : List ToolCall} :
    (∃ f ∈ finalFragments calls, f.index = i) ↔ ∃ k < calls.length, (k : ℤ) = i := by
  induction calls using List.reverseRecOn with
  | nil => simp [finalFragments]
  | append_singleton calls call ih =>
    simp only [finalFragments_append, List.mem_append, List.mem_singleton, or_and_right, exists_or,
      ih, List.length_append, List.length_singleton, Nat.lt_succ_iff_lt_or_eq]
    simp [fragmentOf]

theorem fragmentsAt_append_final (calls : List ToolCall) (k : ℕ) :
    fragmentsAt (fragments ++ finalFragments calls) k =
      fragmentsAt fragments k ++ (calls[k]?.map (fragmentOf k)).toList := by
  rw [← fragmentsAt_finalFragments, fragmentsAt, List.filter_append]
  rfl

/-- The indices of the calls by position. -/
def positions (calls : List ToolCall) : List ℤ := (List.range calls.length).map (Nat.cast : ℕ → ℤ)

theorem mem_positions {calls : List ToolCall} :
    i ∈ positions calls ↔ ∃ k < calls.length, (k : ℤ) = i := by
  simp [positions]

theorem pairwise_positions (calls : List ToolCall) : (positions calls).Pairwise (· < ·) := by
  rw [positions, List.pairwise_map]
  exact List.pairwise_lt_range.imp Int.ofNat_lt.mpr

theorem mem_indicesOf_final {calls : List ToolCall} :
    i ∈ indicesOf (fragments ++ finalFragments calls) ↔
      i ∈ indicesOf fragments ∨ i ∈ positions calls := by
  rw [mem_indicesOf, mem_indicesOf, mem_positions, ← mem_finalFragments]
  simp only [List.mem_append, or_and_right, exists_or]

/-- No call is added if and only if the calls have their positions as indices. -/
theorem Fragments.indicesOf_final (h : Fragments c choice indices chunks) :
    (indicesOf (fragmentsOf chunks ++ finalFragments choice.message.toolCalls)).length =
        choice.message.toolCalls.length ↔
      indices = positions choice.message.toolCalls := by
  set calls := choice.message.toolCalls with hcalls
  set all := indicesOf (fragmentsOf chunks ++ finalFragments calls) with hall
  have hmem : ∀ i, i ∈ all ↔ i ∈ indices ∨ i ∈ positions calls := by
    intro i
    rw [hall, mem_indicesOf_final, h.indicesOf_eq]
  have hlength : indices.length = calls.length := h.calls.length_eq
  have hpositions : (positions calls).length = calls.length := by simp [positions]
  have hnodup : ∀ {l : List ℤ}, l.Pairwise (· < ·) → l.Nodup := fun hl => hl.imp ne_of_lt
  constructor
  · intro hn
    -- both lists of distinct indices are as long as the list that has them all
    have hindices : indices.Perm all :=
      (List.subperm_of_subset (hnodup h.sorted) fun i hi => (hmem i).mpr (.inl hi)).perm_of_length_le
        (by omega)
    have hpos : (positions calls).Perm all :=
      (List.subperm_of_subset (hnodup (pairwise_positions calls))
        fun i hi => (hmem i).mpr (.inr hi)).perm_of_length_le (by omega)
    exact (hindices.trans hpos.symm).eq_of_pairwise (fun _ _ _ _ hab hba => absurd hab hba.asymm)
      h.sorted (pairwise_positions calls)
  · intro heq
    have hperm : all.Perm indices :=
      (List.perm_ext_iff_of_nodup nodup_indicesOf (hnodup h.sorted)).mpr fun i => by
        rw [hmem, ← heq, or_self]
    rw [hperm.length_eq, hlength]

/-- A call whose arguments come twice. -/
def doubled (call : ToolCall) : ToolCall :=
  { call with arguments := call.arguments ++ call.arguments }

theorem doubled_eq_iff {call : ToolCall} : doubled call = call ↔ call.arguments = "" := by
  constructor
  · intro h
    have hlength := congrArg (fun c : ToolCall => c.arguments.length) h
    simp only [doubled, String.length_append] at hlength
    exact String.length_eq_zero_iff.mp (by omega)
  · intro h
    cases call
    obtain rfl : _ = "" := h
    rfl

/-- The final chunk sends the arguments of every call again. -/
theorem Fragments.calls_final (h : Fragments c choice indices chunks)
    (hindices : indices = positions choice.message.toolCalls) :
    ((indicesOf (fragmentsOf chunks ++ finalFragments choice.message.toolCalls)).map fun i =>
      callOf (fragmentsAt (fragmentsOf chunks ++ finalFragments choice.message.toolCalls) i)) =
      choice.message.toolCalls.map doubled := by
  set calls := choice.message.toolCalls with hcalls
  have hall : positions calls = indicesOf (fragmentsOf chunks ++ finalFragments calls) := by
    apply eq_indicesOf (pairwise_positions calls)
    intro i
    rw [← mem_indicesOf, mem_indicesOf_final, h.indicesOf_eq, hindices, or_self]
  rw [← hall, positions, List.map_map]
  apply List.ext_getElem (by simp)
  intro k hk hk'
  have hk : k < calls.length := by simpa using hk
  have hcall := h.calls.get (by rw [h.calls.length_eq]; exact hk) hk
  have hindex : indices.get ⟨k, by rw [h.calls.length_eq]; exact hk⟩ = (k : ℤ) := by
    simp [hindices, positions]
  rw [hindex] at hcall
  have hne : fragmentsAt (fragmentsOf chunks) k ≠ [] := by
    obtain ⟨first, rest, hfragments, -⟩ := hcall
    rw [hfragments]
    exact List.cons_ne_nil _ _
  simp only [List.getElem_map, List.getElem_range, Function.comp]
  rw [fragmentsAt_append_final, List.getElem?_eq_getElem hk, Option.map_some, Option.toList_some,
    callOf_append hne, hcall.callOf_eq]
  rfl

theorem Fragments.foldMessage_final (h : Fragments c choice indices chunks) (r : ChatCompletion)
    (first : CompletionChoice) :
    foldMessage (chunks ++ [finalToolCallChunk r first choice.message.toolCalls]) =
        choice.message ↔
      indices = positions choice.message.toolCalls ∧
        ∀ call ∈ choice.message.toolCalls, call.arguments = "" := by
  have hfragments : fragmentsOf
      (chunks ++ [finalToolCallChunk r first choice.message.toolCalls]) =
        fragmentsOf chunks ++ finalFragments choice.message.toolCalls := by
    rw [fragmentsOf, choicesOf_append, List.flatMap_append]
    simp [finalToolCallChunk, fragmentsOf]
  have hrole : lastSet ((choicesOf
      (chunks ++ [finalToolCallChunk r first choice.message.toolCalls])).map (·.role)) =
        choice.message.role := by
    rw [choicesOf_append, List.map_append]
    simp only [finalToolCallChunk, List.head?_cons, Option.toList_some, List.map_cons, List.map_nil]
    rw [lastSet_append, if_neg (not_not.mpr rfl), lastSet_of_sets h.role]
  have hcontent : String.join ((choicesOf
      (chunks ++ [finalToolCallChunk r first choice.message.toolCalls])).map (·.content)) =
        choice.message.content := by
    rw [choicesOf_append, List.map_append, String.join_append, h.content]
    simp [finalToolCallChunk]
  rw [foldMessage, hrole, hcontent, hfragments]
  have hmessage : ∀ calls, (⟨choice.message.role, choice.message.content, calls⟩ :
      CompletionMessage) = choice.message ↔ calls = choice.message.toolCalls := by
    intro calls
    constructor
    · exact fun heq => congrArg CompletionMessage.toolCalls heq
    · exact fun heq => by rw [heq]
  rw [hmessage]
  constructor
  · intro heq
    have hlength := congrArg List.length heq
    rw [List.length_map, h.indicesOf_final] at hlength
    rw [h.calls_final hlength] at heq
    have hid : choice.message.toolCalls.map doubled = choice.message.toolCalls.map id := by
      rw [heq, List.map_id]
    exact ⟨hlength, fun call hcall => doubled_eq_iff.mp (List.map_inj_left.mp hid call hcall)⟩
  · rintro ⟨hindices, hempty⟩
    rw [h.calls_final hindices]
    conv_rhs => rw [← List.map_id choice.message.toolCalls]
    exact List.map_inj_left.mpr fun call hcall => doubled_eq_iff.mpr (hempty call hcall)

/-! ### What is streamed and what is returned -/

theorem Fragments.response (h : Fragments c choice indices chunks) :
    responseOf chunks = some { c with
      choices := [{ choice with message := { choice.message with toolCalls := [] } }]
      usage := if 0 < c.usage.totalTokens then { c.usage with completionTokensDetails := .zero }
        else .zero } := by
  obtain ⟨x, xs, hx⟩ := List.exists_cons_of_ne_nil h.started
  have hchoice : choiceOf (choicesOf chunks) =
      some { choice with message := { choice.message with toolCalls := [] } } := by
    rw [choiceOf, lastSet_of_sets h.role, h.content, lastSet_of_sets h.finishReason, hx,
      List.head?_cons, Option.map_some, h.index x (by rw [hx]; exact List.mem_cons_self)]
  obtain ⟨first, rest, rfl⟩ : ∃ first rest, chunks = first :: rest := by
    obtain ⟨k, hk, -⟩ := h.usage.2
    exact List.exists_cons_of_ne_nil (List.ne_nil_of_mem hk)
  obtain ⟨hid, hcreated, hmodel⟩ := h.envelope first List.mem_cons_self
  rw [responseOf, List.head?_cons, Option.map_some, hchoice, usageOf_eq h.usage.1 h.usage.2, hid,
    hcreated, hmodel]
  rfl

/-- The keys of the map are the indices. -/
theorem IsTable.keys {m : List (ℤ × ToolCall)} (h : IsTable m fragments) :
    (∃ p ∈ m, p.1 = i) ↔ i ∈ indicesOf fragments := by
  rw [mem_indicesOf, ← fragmentsAt_ne_nil]
  have hi := h i
  constructor
  · rintro ⟨p, hp, rfl⟩ hnil
    rw [if_pos hnil, Option.map_eq_none_iff, find_eq_none] at hi
    exact hi p hp rfl
  · intro hne
    rw [if_neg hne] at hi
    obtain ⟨p, hp, -⟩ := Option.map_eq_some_iff.mp hi
    exact ⟨p, mem_of_find hp, key_of_find hp⟩

theorem le_maxIndexOf {m : List (ℤ × ToolCall)} {k : ℤ} (hk : -1 < k) :
    k ≤ maxIndexOf m ↔ ∃ p ∈ m, k ≤ p.1 := by
  have hgen : ∀ j : ℤ, j < k → (k ≤ m.foldl (fun m p => max m p.1) j ↔ ∃ p ∈ m, k ≤ p.1) := by
    induction m with
    | nil => simp
    | cons p m ih =>
      intro j hj
      by_cases hp : k ≤ p.1
      · exact iff_of_true ((hp.trans (le_max_right j p.1)).trans (le_foldl_max _).1)
          ⟨p, List.mem_cons_self, hp⟩
      · rw [List.foldl_cons, ih _ (max_lt hj (not_le.mp hp))]
        simp [hp]
  exact hgen (-1) hk

theorem Fragments.indices_eq_nil (h : Fragments c choice indices chunks) :
    indices = [] ↔ choice.message.toolCalls = [] := by
  rw [← List.length_eq_zero_iff, h.calls.length_eq, List.length_eq_zero_iff]

/-- What the provider returns: the completion, with the usage it keeps. -/
def returned (c : ChatCompletion) : ChatCompletion :=
  { c with
    usage := if 0 < c.usage.totalTokens then { c.usage with completionTokensDetails := .zero }
      else .zero }

theorem returned_eq_self {c : ChatCompletion} : returned c = c ↔
    c.usage = .zero ∨ 0 < c.usage.totalTokens ∧ c.usage.completionTokensDetails = .zero := by
  obtain ⟨id, created, model, choices, usage⟩ := c
  simp only [returned, ChatCompletion.mk.injEq, true_and]
  constructor
  · intro heq
    split at heq
    next hpos => exact .inr ⟨hpos, by rw [← heq]⟩
    next => exact .inl heq.symm
  · rintro (rfl | ⟨hpos, hdetails⟩)
    · rfl
    · rw [if_pos hpos, ← hdetails]

/-- A fragmentation is passed on, then the final chunk if there are tool calls. -/
theorem Fragments.stream_eq (h : Fragments c choice indices chunks) :
    ChatCompletionStream (fun _ => none) chunks none =
      if ∃ i ∈ indices, maxInt64 ≤ i then none
      else some (chunks ++ if choice.message.toolCalls = [] then []
        else [finalToolCallChunk (returned c) choice choice.message.toolCalls],
        .ok (returned c)) := by
  obtain ⟨hresponse, htable⟩ := foldl_accumulate chunks
  rw [h.response] at hresponse
  have hordered := orderedToolCalls_eq htable fun f hf => h.nonneg _ (h.known f hf)
  rw [h.toolCalls_eq] at hordered
  have hkeys := fun i => htable.keys (i := i)
  simp only [h.indicesOf_eq] at hkeys
  have hchoices : [choice] = c.choices := h.choices.symm
  rw [ChatCompletionStream, streamLoop_of_none]
  simp only [processToolCalls, hresponse, hordered]
  by_cases hempty : (chunks.foldl accumulate .init).toolCallsMap = []
  · have hindices : indices = [] := by
      rw [List.eq_nil_iff_forall_not_mem]
      intro i hi
      obtain ⟨p, hp, -⟩ := (hkeys i).mpr hi
      rw [hempty] at hp
      cases hp
    have hcalls := h.indices_eq_nil.mp hindices
    have hchoice : { choice with message := { choice.message with toolCalls := [] } } = choice := by
      rw [← hcalls]
    simp [hempty, hindices, hcalls, hchoice, returned, hchoices]
  · have hcalls : choice.message.toolCalls ≠ [] := by
      obtain ⟨p, rest, hp⟩ := List.exists_cons_of_ne_nil hempty
      have hindex := (hkeys p.1).mp ⟨p, by rw [hp]; exact List.mem_cons_self, rfl⟩
      rw [Ne, ← h.indices_eq_nil]
      exact List.ne_nil_of_mem hindex
    have hbound : maxInt64 ≤ maxIndexOf (chunks.foldl accumulate .init).toolCallsMap ↔
        ∃ i ∈ indices, maxInt64 ≤ i := by
      rw [le_maxIndexOf (by decide)]
      constructor
      · rintro ⟨p, hp, hle⟩
        exact ⟨p.1, (hkeys p.1).mp ⟨p, hp, rfl⟩, hle⟩
      · rintro ⟨i, hi, hle⟩
        obtain ⟨p, hp, rfl⟩ := (hkeys i).mpr hi
        exact ⟨p, hp, hle⟩
    rw [if_neg (by simpa using hempty)]
    simp only [hbound]
    split
    next => rfl
    next =>
      have hnot : ¬ choice.message.toolCalls.isEmpty := by simpa using hcalls
      simp [hcalls, returned, hchoices]

/-- A completion comes back as it was sent when its usage has no details that the loop drops, and the
chunks make up its message when no tool calls are sent again with other indices or arguments. A
finished completion is streamed without its tool calls. -/
theorem stream_returns_and_folds (h : Fragments c choice indices chunks) :
    ((∃ passed, ChatCompletionStream (fun _ => none) chunks none = some (passed, .ok c) ∧
        foldMessage passed = choice.message) ↔
      (c.usage = .zero ∨
        0 < c.usage.totalTokens ∧ c.usage.completionTokensDetails = .zero) ∧
      (choice.message.toolCalls = [] ∨
        indices = positions choice.message.toolCalls ∧
          (choice.message.toolCalls.length : ℤ) ≤ maxInt64 ∧
          ∀ call ∈ choice.message.toolCalls, call.arguments = "")) ∧
    (foldMessage (streamCompletionAsChunks c) = choice.message ↔
      choice.message.toolCalls = [] ∧ choice.message.role = roleAssistant) := by
  constructor
  · rw [h.stream_eq, ← returned_eq_self]
    split
    next hhuge =>
      obtain ⟨i, hi, hle⟩ := hhuge
      simp only [reduceCtorEq, false_and, exists_false, false_iff]
      rintro ⟨-, hcalls | ⟨hindices, hlength, -⟩⟩
      · rw [h.indices_eq_nil.mpr hcalls] at hi
        cases hi
      · rw [hindices, mem_positions] at hi
        omega
    next hsmall =>
      simp only [Option.some.injEq, Prod.mk.injEq, Except.ok.injEq, and_assoc,
        exists_eq_left', and_congr_right_iff]
      intro _
      split
      next hcalls =>
        rw [List.append_nil]
        exact iff_of_true h.foldMessage_eq (.inl hcalls)
      next hcalls =>
        rw [h.foldMessage_final, or_iff_right hcalls]
        refine and_congr_right fun hindices => ?_
        rw [and_iff_right]
        by_contra hlength
        refine hsmall ⟨maxInt64, ?_, le_rfl⟩
        rw [hindices, mem_positions]
        exact ⟨maxInt64.toNat, by unfold maxInt64 at *; omega, rfl⟩
  · rw [streamCompletionAsChunks, h.choices, foldMessage]
    have hrole : lastSet [roleAssistant] = roleAssistant := rfl
    obtain ⟨index, ⟨role, content, toolCalls⟩, finishReason⟩ := choice
    simp [choicesOf, fragmentsOf, indicesOf, hrole, eq_comm, and_comm]

/-- Two calls, the second of which starts first; the usage comes in a chunk of its own. -/
def twoCalls : List ToolCall := [⟨"call_1", "weather", "\x7b\x7d"⟩, ⟨"call_2", "time", "\x7b\x7d"⟩]

def twoCallsChoice : CompletionChoice := ⟨0, ⟨roleAssistant, "Let me look", twoCalls⟩, "tool_calls"⟩

def twoCallsCompletion : ChatCompletion :=
  ⟨"chatcmpl", 7, "gpt", [twoCallsChoice], ⟨3, 4, 7, ⟨0, 0⟩, .zero⟩⟩

def deltaChunk (role content : String) (toolCalls : List ToolCallFragment) (finishReason : String) :
    Chunk :=
  ⟨"chatcmpl", 7, "gpt", [⟨0, role, content, toolCalls, finishReason⟩], .zero⟩

def twoCallsChunks : List Chunk :=
  [deltaChunk roleAssistant "Let " [] "",
    deltaChunk "" "me look" [⟨2, "call_2", "time", ""⟩, ⟨0, "call_1", "weather", "\x7b"⟩] "",
    deltaChunk "" "" [⟨2, "", "", "\x7b\x7d"⟩, ⟨0, "", "", "\x7d"⟩] "tool_calls",
    ⟨"chatcmpl", 7, "gpt", [], ⟨3, 4, 7, ⟨0, 0⟩, .zero⟩⟩]

theorem fragments_twoCalls : Fragments twoCallsCompletion twoCallsChoice [0, 2] twoCallsChunks where
  envelope := by decide
  choices := rfl
  started := by decide
  index := by decide
  role := by unfold Sets; decide
  content := by decide
  finishReason := by unfold Sets; decide
  usage := by decide
  sorted := by decide
  nonneg := by decide
  known := by decide
  calls := by
    refine .cons ⟨_, _, rfl, rfl, rfl, ?_, ?_⟩ (.cons ⟨_, _, rfl, rfl, rfl, ?_, ?_⟩ .nil) <;> decide

theorem stream_returns_and_folds_twoCalls :
    ¬ ∃ passed, ChatCompletionStream (fun _ => none) twoCallsChunks none =
        some (passed, .ok twoCallsCompletion) ∧ foldMessage passed = twoCallsChoice.message := by
  rw [(stream_returns_and_folds fragments_twoCalls).1]
  decide

/-- The final chunk adds a call at index 1 and doubles the arguments of the call at index 0. -/
theorem stream_not_returned : ¬ ∀ (c : ChatCompletion) (choice : CompletionChoice)
    (indices : List ℤ) (chunks : List Chunk), Fragments c choice indices chunks →
      (∃ passed, ChatCompletionStream (fun _ => none) chunks none = some (passed, .ok c) ∧
        foldMessage passed = choice.message) ∧
      foldMessage (streamCompletionAsChunks c) = choice.message := by
  intro h
  obtain ⟨⟨passed, hstream, hfold⟩, -⟩ := h _ _ _ _ fragments_twoCalls
  have hpassed : (ChatCompletionStream (fun _ => none) twoCallsChunks none).map
      (fun r => (foldMessage r.1).toolCalls.map (·.arguments)) =
        some ["\x7b\x7d\x7b\x7d", "\x7b\x7d", "\x7b\x7d"] := by decide
  rw [hstream, Option.map_some, hfold] at hpassed
  exact absurd hpassed (by decide)

end Fragmentation

end Ark.Completion
