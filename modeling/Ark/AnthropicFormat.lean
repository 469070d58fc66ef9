import Ark.CompletionStream
import Ark.GoJson
import Mathlib.Data.List.Chain
import Mathlib.Data.List.Forall2

/-!
# The Anthropic format

`convertMessagesToAnthropic` makes system blocks and alternating turns of a message list, and
`convertAnthropicResponse` a completion of a response. The blocks of a request have a text and no
other content; what a request says about tool calls is read from the types of its blocks.
-/

namespace Ark.Anthropic

open Completion GoJson

def roleUser : String := "user"
def roleSystem : String := "system"
def roleTool : String := "tool"

/-! ### Requests -/

structure SystemBlock where
  type : String
  text : String
  cacheControl : Option String
  deriving DecidableEq, Repr

structure MessageContent where
  type : String
  text : String
  cacheControl : Option String
  deriving DecidableEq, Repr

/-- The JSON of a turn: a string or an array of blocks. -/
inductive Content
  | text (s : String)
  | blocks (l : List MessageContent)
  deriving DecidableEq, Repr

structure AnthropicMessage where
  role : String
  content : Content
  deriving DecidableEq, Repr

def extractMessageContent : Message → String × String
  | .system content => if content ≠ "" then (content, roleSystem) else ("", "")
  | .user content => if content ≠ "" then (content, roleUser) else ("", "")
  | .assistant _ content _ => if content ≠ "" then (content, roleAssistant) else ("", "")
  | .tool content _ => if content ≠ "" then (content, roleTool) else ("", "")

def assistantMessageName : Message → String
  | .assistant name _ _ => name.getD ""
  | _ => ""

structure CollectedMessage where
  role : String
  text : String
  merged : Bool
  deriving DecidableEq, Repr

def anthropicTurnFor (msg : Message) (content role : String) : CollectedMessage where
  role := if role = roleTool then roleUser else role
  text :=
    if role = roleAssistant ∧ assistantMessageName msg ≠ "" then
      assistantMessageName msg ++ ": " ++ content
    else content
  merged := false

/-- One round of the loop of `mergeConsecutiveRoles`. -/
def mergeTurn (merged : List CollectedMessage) (m : CollectedMessage) : List CollectedMessage :=
  match merged.getLast? with
  | none => merged ++ [m]
  | some last =>
    if last.role = m.role then
      merged.dropLast ++ [{ last with text := last.text ++ "\n\n" ++ m.text, merged := true }]
    else merged ++ [m]

def mergeConsecutiveRoles (collected : List CollectedMessage) : List CollectedMessage :=
  collected.foldl mergeTurn []

/-- One round of the loop of `collectAnthropicTurns`. -/
def collectTurn (s : List CollectedMessage × List SystemBlock) (msg : Message) :
    List CollectedMessage × List SystemBlock :=
  let (content, role) := extractMessageContent msg
  if content = "" then s
  else if role = roleSystem then (s.1, [⟨"text", content, some "ephemeral"⟩])
  else (s.1 ++ [anthropicTurnFor msg content role], s.2)

def collectAnthropicTurns (messages : List Message) :
    List CollectedMessage × List SystemBlock :=
  let (collected, systemBlocks) := messages.foldl collectTurn ([], [])
  (mergeConsecutiveRoles collected, systemBlocks)

/-- The turn that gets the cache breakpoint, if it was not merged. -/
def cacheIndex (collected : List CollectedMessage) : Option ℕ :=
  if 2 ≤ collected.length ∧ (collected[collected.length - 2]?).any (!·.merged) then
    some (collected.length - 2)
  else none

def convertTurn (cached : Bool) (m : CollectedMessage) : AnthropicMessage where
  role := m.role
  content := if cached then .blocks [⟨"text", m.text, some "ephemeral"⟩] else .text m.text

def convertMessagesToAnthropic (messages : List Message) :
    List AnthropicMessage × List SystemBlock :=
  let (collected, systemBlocks) := collectAnthropicTurns messages
  (collected.mapIdx fun i m => convertTurn (cacheIndex collected = some i) m, systemBlocks)

/-! ### Responses -/

structure AnthropicContent where
  text : String
  type : String
  id : String
  name : String
  input : Option Object

structure AnthropicUsage where
  inputTokens : ℤ
  outputTokens : ℤ
  cacheCreationInputTokens : ℤ
  cacheReadInputTokens : ℤ
  deriving DecidableEq, Repr

structure AnthropicResponse where
  content : List AnthropicContent
  id : String
  model : String
  stopReason : String
  usage : AnthropicUsage

/-- The value of an input; a nil map is written as `null`. -/
def inputValue (input : Option Object) : Json.Value := (input.map Object.value).getD .null

def mustMarshalJSON (input : Option Object) : String := marshal (inputValue input)

/-- One round of the loop of `convertAnthropicResponse` over the blocks. -/
def convertBlock (s : String × List ToolCall) (c : AnthropicContent) : String × List ToolCall :=
  if c.type = "text" then (c.text, s.2)
  else if c.type = "tool_use" then (s.1, s.2 ++ [⟨c.id, c.name, mustMarshalJSON c.input⟩])
  else s

def convertAnthropicResponse (response : AnthropicResponse) : ChatCompletion :=
  let (content, toolCalls) := response.content.foldl convertBlock ("", [])
  let finishReason :=
    if response.stopReason = "max_tokens" then "length"
    else if response.stopReason = "tool_use" then "tool_calls"
    else "stop"
  let promptTokens := response.usage.inputTokens + response.usage.cacheCreationInputTokens +
    response.usage.cacheReadInputTokens
  { id := response.id
    created := 0
    model := response.model
    choices := [⟨0, ⟨roleAssistant, content, toolCalls⟩, finishReason⟩]
    usage :=
      { promptTokens := promptTokens
        completionTokens := response.usage.outputTokens
        totalTokens := promptTokens + response.usage.outputTokens
        promptTokensDetails := ⟨0, response.usage.cacheReadInputTokens⟩
        completionTokensDetails := .zero } }

/-! ### What a request says -/

/-- What a block of a request says; the types of the other blocks have no fields for it. -/
inductive Block
  | text (s : String)
  | toolUse (call : ToolCall)
  | toolResult (toolUseID content : String)
  deriving DecidableEq, Repr

def MessageContent.block (c : MessageContent) : Option Block :=
  if c.type = "text" then some (.text c.text) else none

def AnthropicMessage.blocks (m : AnthropicMessage) : List Block :=
  match m.content with
  | .text s => [.text s]
  | .blocks l => l.filterMap MessageContent.block

def Block.text? : Block → Option String
  | .text s => some s
  | _ => none

def Block.toolUse? : Block → Option ToolCall
  | .toolUse call => some call
  | _ => none

def Block.toolResult? : Block → Option String
  | .toolResult id _ => some id
  | _ => none

/-- A text under its role. -/
structure Turn where
  role : String
  text : String
  deriving DecidableEq, Repr

def systemText : Message → Option String
  | .system content => if content = "" then none else some content
  | _ => none

/-- The turn of a message with a text: an agent's reply has its name in front. -/
def turnOf : Message → Option Turn
  | .system _ => none
  | .user content => if content = "" then none else some ⟨roleUser, content⟩
  | .assistant name content _ =>
    if content = "" then none
    else some ⟨roleAssistant,
      if name.getD "" = "" then content else name.getD "" ++ ": " ++ content⟩
  | .tool content _ => if content = "" then none else some ⟨roleUser, content⟩

def toolCallsOf : Message → List ToolCall
  | .assistant _ _ toolCalls => toolCalls
  | _ => []

def toolResultOf : Message → Option String
  | .tool _ toolCallID => some toolCallID
  | _ => none

/-- The message is made of a run of turns of its role, set apart by blank lines. -/
def JoinsTurns (turns : List Turn) (m : AnthropicMessage) : Prop :=
  turns ≠ [] ∧ (∀ t ∈ turns, t.role = m.role) ∧
    m.blocks.filterMap Block.text? = ["\n\n".intercalate (turns.map (·.text))]

/-- The request says everything that the messages say. -/
structure Carries (messages : List Message) (request : List AnthropicMessage × List SystemBlock) :
    Prop where
  system : request.2.map (·.text) = messages.filterMap systemText
  alternates : (request.1.map (·.role)).IsChain (· ≠ ·)
  turns : ∃ runs : List (List Turn), runs.flatten = messages.filterMap turnOf ∧
    List.Forall₂ JoinsTurns runs request.1
  toolUses : (request.1.flatMap AnthropicMessage.blocks).filterMap Block.toolUse? =
    messages.flatMap toolCallsOf
  toolResults : (request.1.flatMap AnthropicMessage.blocks).filterMap Block.toolResult? =
    messages.filterMap toolResultOf

/-- The completion's message says everything that the response says. -/
structure Yields (response : AnthropicResponse) (message : CompletionMessage) : Prop where
  content : message.content =
    String.join ((response.content.filter (·.type = "text")).map (·.text))
  toolCalls : List.Forall₂
    (fun (call : ToolCall) (c : AnthropicContent) => call.id = c.id ∧ call.name = c.name ∧
      unmarshal call.arguments = some (inputValue c.input))
    message.toolCalls (response.content.filter (·.type = "tool_use"))

/-! ### Turns -/

def CollectedMessage.turn (m : CollectedMessage) : Turn := ⟨m.role, m.text⟩

/-- A run of turns merged into one. -/
def Merges (turns : List Turn) (m : CollectedMessage) : Prop :=
  turns ≠ [] ∧ (∀ t ∈ turns, t.role = m.role) ∧ m.text = "\n\n".intercalate (turns.map (·.text))

theorem merges_singleton (m : CollectedMessage) : Merges [m.turn] m :=
  ⟨List.cons_ne_nil _ _, by simp [CollectedMessage.turn],
    by simp [CollectedMessage.turn, String.intercalate_singleton]⟩

theorem Merges.append {turns : List Turn} {last : CollectedMessage} (h : Merges turns last)
    (m : CollectedMessage) (hrole : last.role = m.role) :
    Merges (turns ++ [m.turn])
      { last with text := last.text ++ "\n\n" ++ m.text, merged := true } := by
  obtain ⟨hne, hroles, htext⟩ := h
  refine ⟨by simp, ?_, ?_⟩
  · intro t ht
    obtain ht | ht := List.mem_append.mp ht
    · exact hroles t ht
    · obtain rfl := List.mem_singleton.mp ht
      exact hrole.symm
  · rw [List.map_append, String.intercalate_append_of_ne_nil (by simpa using hne) (by simp)]
    simp [htext, CollectedMessage.turn, String.intercalate_singleton]

/-- The merged turns are the runs of one role. -/
structure Runs (collected merged : List CollectedMessage) : Prop where
  alternates : (merged.map (·.role)).IsChain (· ≠ ·)
  turns : ∃ runs : List (List Turn), runs.flatten = collected.map CollectedMessage.turn ∧
    List.Forall₂ Merges runs merged

theorem forall₂_concat {runs : List (List Turn)} {merged : List CollectedMessage}
    {last : CollectedMessage} (h : List.Forall₂ Merges runs (merged ++ [last])) :
    ∃ runs' run, runs = runs' ++ [run] ∧ List.Forall₂ Merges runs' merged ∧ Merges run last := by
  have htake := List.forall₂_take_append runs merged [last] h
  have hdrop := List.forall₂_drop_append runs merged [last] h
  obtain ⟨run, tail, hrun, htail, heq⟩ := List.forall₂_cons_right_iff.mp hdrop
  obtain rfl := List.forall₂_nil_right_iff.mp htail
  refine ⟨_, run, ?_, htake, hrun⟩
  rw [← heq, List.take_append_drop]

theorem Runs.mergeTurn {collected merged : List CollectedMessage} (h : Runs collected merged)
    (m : CollectedMessage) : Runs (collected ++ [m]) (Anthropic.mergeTurn merged m) := by
  obtain ⟨halternates, runs, hflatten, hruns⟩ := h
  cases merged using List.reverseRecOn with
  | nil =>
    obtain rfl : runs = [] := List.forall₂_nil_right_iff.mp hruns
    obtain rfl : collected = [] := List.map_eq_nil_iff.mp hflatten.symm
    exact ⟨by simp [Anthropic.mergeTurn], [[m.turn]], rfl, .cons (merges_singleton m) .nil⟩
  | append_singleton merged last =>
    rw [Anthropic.mergeTurn, List.getLast?_concat]
    dsimp only
    split
    next hrole =>
      obtain ⟨runs, run, rfl, hruns, hrun⟩ := forall₂_concat hruns
      rw [List.dropLast_concat]
      refine ⟨by simpa using halternates, runs ++ [run ++ [m.turn]], ?_,
        List.rel_append hruns (.cons (hrun.append m hrole) .nil)⟩
      rw [List.map_append, ← hflatten]
      simp
    next hrole =>
      refine ⟨?_, runs ++ [[m.turn]], ?_, List.rel_append hruns (.cons (merges_singleton m) .nil)⟩
      · rw [List.map_append, List.isChain_append]
        refine ⟨halternates, by simp, ?_⟩
        simpa using hrole
      · rw [List.map_append, ← hflatten]
        simp

theorem runs_mergeConsecutiveRoles (collected : List CollectedMessage) :
    Runs collected (mergeConsecutiveRoles collected) := by
  induction collected using List.reverseRecOn with
  | nil => exact ⟨by simp [mergeConsecutiveRoles], [], rfl, .nil⟩
  | append_singleton collected m ih =>
    rw [mergeConsecutiveRoles, List.foldl_append]
    exact ih.mergeTurn m

/-! ### Messages -/

theorem collectTurn_eq (s : List CollectedMessage × List SystemBlock) (msg : Message) :
    (collectTurn s msg).1.map CollectedMessage.turn =
        s.1.map CollectedMessage.turn ++ (turnOf msg).toList ∧
      (collectTurn s msg).2 =
        ((systemText msg).map fun text => [⟨"text", text, some "ephemeral"⟩]).getD s.2 := by
  cases msg with
  | system content =>
    by_cases h : content = "" <;> simp [collectTurn, extractMessageContent, turnOf, systemText, h]
  | user content =>
    by_cases h : content = "" <;>
      simp [collectTurn, extractMessageContent, turnOf, systemText, h, roleUser, roleSystem,
        roleTool, roleAssistant, anthropicTurnFor, CollectedMessage.turn]
  | assistant name content toolCalls =>
    by_cases h : content = ""
    · simp [collectTurn, extractMessageContent, turnOf, systemText, h]
    · by_cases hname : name.getD "" = "" <;>
        simp [collectTurn, extractMessageContent, turnOf, systemText, h, roleSystem, roleTool,
          roleAssistant, anthropicTurnFor, CollectedMessage.turn, assistantMessageName, hname]
  | tool content toolCallID =>
    by_cases h : content = "" <;>
      simp [collectTurn, extractMessageContent, turnOf, systemText, h, roleUser, roleSystem,
        roleTool, roleAssistant, anthropicTurnFor, CollectedMessage.turn]

/-- Every turn is collected, but only the last system text. -/
theorem foldl_collectTurn (messages : List Message) :
    (messages.foldl collectTurn ([], [])).1.map CollectedMessage.turn =
        messages.filterMap turnOf ∧
      (messages.foldl collectTurn ([], [])).2 =
        ((messages.filterMap systemText).getLast?.map fun text =>
          ⟨"text", text, some "ephemeral"⟩).toList := by
  induction messages using List.reverseRecOn with
  | nil => exact ⟨rfl, rfl⟩
  | append_singleton messages msg ih =>
    obtain ⟨hturns, hsystem⟩ := ih
    obtain ⟨hturn, hblock⟩ := collectTurn_eq (messages.foldl collectTurn ([], [])) msg
    rw [List.foldl_append, List.foldl_cons, List.foldl_nil, hturn, hblock, hturns, hsystem,
      List.filterMap_append, List.filterMap_append]
    constructor
    · cases h : turnOf msg <;> simp [h]
    · cases h : systemText msg <;> simp [h]

theorem joinsTurns_convertTurn {turns : List Turn} {m : CollectedMessage} (h : Merges turns m)
    (cached : Bool) : JoinsTurns turns (convertTurn cached m) := by
  obtain ⟨hne, hroles, htext⟩ := h
  refine ⟨hne, hroles, ?_⟩
  rw [← htext]
  cases cached <;> rfl

theorem forall₂_mapIdx {runs : List (List Turn)} {merged : List CollectedMessage}
    (h : List.Forall₂ Merges runs merged) (cached : ℕ → Bool) :
    List.Forall₂ JoinsTurns runs (merged.mapIdx fun i m => convertTurn (cached i) m) := by
  induction h generalizing cached with
  | nil => exact .nil
  | cons hm _ ih =>
    rw [List.mapIdx_cons]
    exact .cons (joinsTurns_convertTurn hm (cached 0)) (ih fun i => cached (i + 1))

theorem map_role_mapIdx (merged : List CollectedMessage) (cached : ℕ → Bool) :
    (merged.mapIdx fun i m => convertTurn (cached i) m).map (·.role) = merged.map (·.role) := by
  induction merged generalizing cached with
  | nil => rfl
  | cons m merged ih =>
    rw [List.mapIdx_cons, List.map_cons, List.map_cons, ih fun i => cached (i + 1)]
    rfl

/-- Every block is a text. -/
theorem blocks_convertTurn (cached : Bool) (m : CollectedMessage) :
    (convertTurn cached m).blocks = [.text m.text] := by
  cases cached <;> rfl

theorem mem_blocks {messages : List Message} {b : Block}
    (h : b ∈ (convertMessagesToAnthropic messages).1.flatMap AnthropicMessage.blocks) :
    ∃ s, b = .text s := by
  obtain ⟨turn, hturn, hb⟩ := List.mem_flatMap.mp h
  obtain ⟨i, hi, rfl⟩ := List.mem_mapIdx.mp hturn
  rw [blocks_convertTurn] at hb
  exact ⟨_, List.mem_singleton.mp hb⟩

theorem filterMap_blocks {β : Type} (f : Block → Option β) (hf : ∀ s, f (.text s) = none)
    (messages : List Message) :
    ((convertMessagesToAnthropic messages).1.flatMap AnthropicMessage.blocks).filterMap f = [] := by
  rw [List.filterMap_eq_nil_iff]
  intro b hb
  obtain ⟨s, rfl⟩ := mem_blocks hb
  exact hf s

/-- The texts of the conversation always get through. -/
theorem convertMessagesToAnthropic_turns (messages : List Message) :
    ((convertMessagesToAnthropic messages).1.map (·.role)).IsChain (· ≠ ·) ∧
      ∃ runs : List (List Turn), runs.flatten = messages.filterMap turnOf ∧
        List.Forall₂ JoinsTurns runs (convertMessagesToAnthropic messages).1 := by
  obtain ⟨halternates, runs, hflatten, hruns⟩ :=
    runs_mergeConsecutiveRoles (messages.foldl collectTurn ([], [])).1
  refine ⟨?_, runs, hflatten.trans (foldl_collectTurn messages).1, forall₂_mapIdx hruns _⟩
  exact (map_role_mapIdx _ _).symm ▸ halternates

theorem convertMessagesToAnthropic_system (messages : List Message) :
    (convertMessagesToAnthropic messages).2.map (·.text) =
      (messages.filterMap systemText).getLast?.toList := by
  change (messages.foldl collectTurn ([], [])).2.map (·.text) = _
  rw [(foldl_collectTurn messages).2]
  cases (messages.filterMap systemText).getLast? <;> rfl

theorem toList_getLast?_eq_self {α : Type} (l : List α) : l.getLast?.toList = l ↔ l.length ≤ 1 := by
  cases l using List.reverseRecOn with
  | nil => simp
  | append_singleton l x =>
    rw [List.getLast?_concat, Option.toList_some, List.self_eq_append_left]
    simp

/-! ### Responses -/

/-- The last text stands, and every call. -/
theorem foldl_convertBlock (blocks : List AnthropicContent) :
    (blocks.foldl convertBlock ("", [])).1 =
        ((blocks.filter (·.type = "text")).map (·.text)).getLast?.getD "" ∧
      (blocks.foldl convertBlock ("", [])).2 = (blocks.filter (·.type = "tool_use")).map
        fun c => ⟨c.id, c.name, mustMarshalJSON c.input⟩ := by
  induction blocks using List.reverseRecOn with
  | nil => exact ⟨rfl, rfl⟩
  | append_singleton blocks c ih =>
    rw [List.foldl_append, List.foldl_cons, List.foldl_nil, convertBlock]
    by_cases htext : c.type = "text"
    · simp [htext, ih.2]
    · by_cases htool : c.type = "tool_use"
      · simp [htool, ih.1, ih.2]
      · simp [htext, htool, ih.1, ih.2]

theorem unmarshal_mustMarshalJSON (input : Option Object) :
    unmarshal (mustMarshalJSON input) = some (inputValue input) := by
  cases input with
  | none => exact @unmarshal_marshal .null (by simp [Json.strings])
  | some o => exact unmarshal_marshal_object o

theorem convertAnthropicResponse_toolCalls (blocks : List AnthropicContent) :
    List.Forall₂ (fun (call : ToolCall) (c : AnthropicContent) => call.id = c.id ∧
        call.name = c.name ∧ unmarshal call.arguments = some (inputValue c.input))
      (blocks.map fun c => ⟨c.id, c.name, mustMarshalJSON c.input⟩) blocks := by
  induction blocks with
  | nil => exact .nil
  | cons c blocks ih => exact .cons ⟨rfl, rfl, unmarshal_mustMarshalJSON c.input⟩ ih

theorem join_eq_empty {l : List String} : String.join l = "" ↔ ∀ s ∈ l, s = "" := by
  induction l with
  | nil => simp
  | cons s l ih => simp [ih]

/-- The last text is all of them if and only if the ones before are empty. -/
theorem getLast_eq_join {l : List String} :
    l.getLast?.getD "" = String.join l ↔ ∀ s ∈ l.dropLast, s = "" := by
  cases l using List.reverseRecOn with
  | nil => simp
  | append_singleton l x =>
    rw [List.getLast?_concat, List.dropLast_concat, Option.getD_some, String.join_append,
      String.join_cons, String.join_nil, String.append_empty, ← join_eq_empty]
    constructor
    · intro h
      have hlength := congrArg String.length h
      rw [String.length_append] at hlength
      exact String.length_eq_zero_iff.mp (by omega)
    · intro h
      rw [h, String.empty_append]

/-! ### What is lost -/

/-- A request carries its messages if and only if there is at most one system text, no tool call and
no tool result. A completion yields its response if and only if no text block but the last one has a
text. -/
theorem converts_losslessly_iff (messages : List Message) (response : AnthropicResponse) :
    (Carries messages (convertMessagesToAnthropic messages) ↔
      (messages.filterMap systemText).length ≤ 1 ∧
        ∀ msg ∈ messages, toolCallsOf msg = [] ∧ toolResultOf msg = none) ∧
    ((∃ choice, (convertAnthropicResponse response).choices = [choice] ∧
        Yields response choice.message) ↔
      ∀ s ∈ ((response.content.filter (·.type = "text")).map (·.text)).dropLast, s = "") := by
  constructor
  · have htoolUses := filterMap_blocks Block.toolUse? (fun _ => rfl) messages
    have htoolResults := filterMap_blocks Block.toolResult? (fun _ => rfl) messages
    obtain ⟨halternates, hturns⟩ := convertMessagesToAnthropic_turns messages
    have hsystem := convertMessagesToAnthropic_system messages
    constructor
    · intro h
      refine ⟨toList_getLast?_eq_self _ |>.mp (hsystem.symm.trans h.system), ?_⟩
      intro msg hmsg
      have huses := htoolUses.symm.trans h.toolUses
      have hresults := htoolResults.symm.trans h.toolResults
      exact ⟨List.flatMap_eq_nil_iff.mp huses.symm msg hmsg,
        List.filterMap_eq_nil_iff.mp hresults.symm msg hmsg⟩
    · rintro ⟨hlength, hnone⟩
      refine ⟨hsystem.trans ((toList_getLast?_eq_self _).mpr hlength), halternates, hturns, ?_, ?_⟩
      · rw [htoolUses, eq_comm, List.flatMap_eq_nil_iff]
        exact fun msg hmsg => (hnone msg hmsg).1
      · rw [htoolResults, eq_comm, List.filterMap_eq_nil_iff]
        exact fun msg hmsg => (hnone msg hmsg).2
  · obtain ⟨hcontent, htoolCalls⟩ := foldl_convertBlock response.content
    rw [← getLast_eq_join, ← hcontent]
    constructor
    · rintro ⟨choice, hchoice, hyields⟩
      obtain rfl := (List.cons.inj hchoice).1
      exact hyields.content
    · intro h
      refine ⟨_, rfl, h, ?_⟩
      dsimp only
      rw [htoolCalls]
      exact convertAnthropicResponse_toolCalls _

/-- Two system texts, a call without a text and its result. -/
def toolTranscript : List Message :=
  [.system "Be brief", .system "Be kind", .user "Weather?",
    .assistant none "" [⟨"call_1", "weather", "\x7b\x7d"⟩], .tool "Sunny" "call_1"]

def twoTexts : AnthropicResponse where
  content := [⟨"First", "text", "", "", none⟩, ⟨"Second", "text", "", "", none⟩]
  id := "msg"
  model := "claude"
  stopReason := "end_turn"
  usage := ⟨1, 2, 0, 0⟩

theorem conversion_loses :
    ¬ Carries toolTranscript (convertMessagesToAnthropic toolTranscript) ∧
      ¬ ∃ choice, (convertAnthropicResponse twoTexts).choices = [choice] ∧
        Yields twoTexts choice.message := by
  constructor
  · intro h
    -- the request has the second system text and no call
    exact absurd h.system (by decide)
  · rintro ⟨choice, hchoice, hyields⟩
    obtain rfl := (List.cons.inj hchoice).1
    exact absurd hyields.content (by decide)

end Ark.Anthropic
