import Ark.TeamShape
import Ark.TokenSecret
import Ark.ToolSync
import Mathlib.Data.Finset.Max

/-!
# Reading the reply of a selector on an engine

A selector that runs on an execution engine has no tools, so its reply is read as text: as the
terminate token, as the name of a candidate, as such a name up to case, or as a text that mentions
candidates. Of the candidates mentioned those that another one's name contains are left out, and one
must remain. So the candidate that is selected contains the names of all others that are mentioned,
wherever they stand in the reply.
-/

namespace Ark

open MCP

/-! ### Letters -/

/-- The simple folding of a character, as far as a text of ASCII characters on the other side shows it.
Two letters outside of ASCII fold to one in it. -/
def foldRune (c : Char) : Char :=
  if 'A' ≤ c ∧ c ≤ 'Z' then Char.ofNat (c.toNat + 32)
  else if c.toNat = 383 then 's'
  else if c.toNat = 8490 then 'k'
  else c

/-- `strings.EqualFold`. -/
def equalFold (s t : List Char) : Bool := s.map foldRune = t.map foldRune

/-- `strings.ToLower`. -/
def toLower (s : List Char) : List Char := s.map toLowerRune

def isASCIISpace (c : Char) : Bool := c = ' ' || c = '\t' || c = '\n' || c = '\r'

def isNameChar (c : Char) : Bool :=
  ('a' ≤ c && c ≤ 'z') || ('A' ≤ c && c ≤ 'Z') || ('0' ≤ c && c ≤ '9') || c = '-'

/-! ### The terminate token -/

def engineTerminateTokenFor (candidateNames : List String) : String :=
  if candidateNames.any fun name => equalFold name.toList engineTerminateToken.toList then
    engineTerminateFallbackToken
  else engineTerminateToken

/-- No character outside of ASCII folds to one of the token, so the slice of its length is one of
characters. -/
def parseEngineTerminate (reply token : String) : Option String :=
  let trimmed := (trimSpace reply).toList
  let rest := trimmed.drop token.toList.length
  if equalFold (trimmed.take token.toList.length) token.toList then
    match rest with
    | [] => some ""
    | c :: _ =>
      if c = ':' || isASCIISpace c then
        some (trimSpace (String.ofList (rest.dropWhile fun c => c = ':' || isASCIISpace c)))
      else none
  else none

/-! ### The names that a reply mentions -/

def endsClean (next : Option Char) : Bool := !next.any isNameChar

/-- An occurrence of `needle` in what is left of the text behind `prev`. -/
def wholeNameFrom (needle : List Char) : Option Char → List Char → Bool
  | _, [] => false
  | prev, c :: t =>
    needle.isPrefixOf (c :: t) && endsClean prev && endsClean ((c :: t).drop needle.length).head? ||
      wholeNameFrom needle (some c) t

/-- The loop goes from one occurrence to the next, and looks at every one of them. -/
def containsWholeName (haystack needle : List Char) : Bool :=
  needle ≠ [] && wholeNameFrom needle none haystack

def mentioned (lowered : List Char) (candidates : List String) : List String :=
  candidates.filter fun candidate => containsWholeName lowered (toLower candidate.toList)

/-- The candidates that no other one of `names` contains. -/
def longest (names : List String) : List String :=
  names.filter fun candidate => !names.any fun other =>
    other ≠ candidate && decide (toLower candidate.toList <:+: toLower other.toList)

/-- The error is the name in the `InvalidAgentError`. -/
def matchSelectedName (response : String) (candidates : List String) : Except String String :=
  let selected := trimSpace response
  if selected ∈ candidates then .ok selected
  else match candidates.find? fun candidate => equalFold candidate.toList selected.toList with
    | some candidate => .ok candidate
    | none => match longest (mentioned (toLower selected.toList) candidates) with
      | [candidate] => .ok candidate
      | _ => .error selected

/-- An environment that reads the replies of engines as the source does. -/
def TeamEnv.reading {W : Type} (env : TeamEnv W) : TeamEnv W :=
  { env with
    parseEngineTerminate := fun reply candidateNames =>
      Ark.parseEngineTerminate reply (engineTerminateTokenFor candidateNames)
    matchSelectedName := Ark.matchSelectedName }

/-! ### What a reply says -/

/-- `reply` is the token, alone or followed by a colon or by white space. -/
def Terminates (token reply : List Char) : Prop :=
  ∃ head rest, reply = head ++ rest ∧ equalFold head token = true ∧
    ∀ c ∈ rest.head?, c = ':' ∨ isASCIISpace c = true

/-- `name` stands in `text` at place `i`, and no character of a name is next to it. -/
def OccursAt (text name : List Char) (i : ℕ) : Prop :=
  ∃ before after, text = before ++ name ++ after ∧ before.length = i ∧
    endsClean before.getLast? = true ∧ endsClean after.head? = true

def Mentions (text name : List Char) : Prop := ∃ i, OccursAt text name i

/-- `name` stands somewhere outside of the occurrences of the other names. -/
def StandsAlone (text : List Char) (names : List String) (name : String) : Prop :=
  ∃ i, OccursAt text name.toList i ∧ ∀ other ∈ names, other ≠ name →
    ∀ j, OccursAt text other.toList j →
      ¬ (j ≤ i ∧ i + name.toList.length ≤ j + other.toList.length)

/-- `text` mentions `name`, and the names of all others that it mentions are contained in it. -/
def Dominates (text : List Char) (names : List String) (name : String) : Prop :=
  name ∈ names ∧ Mentions text name.toList ∧
    ∀ other ∈ names, Mentions text other.toList → other.toList <:+: name.toList

/-- No candidate and no token is all that `reply` says. -/
def IsProse (terminateEnabled : Bool) (names : List String) (reply : String) : Prop :=
  (∀ name ∈ names, equalFold name.toList reply.toList = false) ∧
    ¬ (terminateEnabled = true ∧ Terminates (engineTerminateTokenFor names).toList reply.toList)

/-- `outcome` is the member of the name `name`. -/
def Selects (members : List Member) (outcome : Except SelectionError Member) (name : String) : Prop :=
  ∃ member ∈ members, outcome = .ok member ∧ member.name = name

/-- What the trimmed reply `reply` makes a selection. -/
structure Unmistaken (terminateEnabled : Bool) (members : List Member) (reply : String)
    (outcome : Except SelectionError Member) : Prop where
  exact : reply ∈ members.map Member.name → Selects members outcome reply
  folded : ∀ name ∈ members.map Member.name, equalFold name.toList reply.toList = true →
    Selects members outcome name
  terminated : terminateEnabled = true →
    Terminates (engineTerminateTokenFor (members.map Member.name)).toList reply.toList →
      ∃ response, outcome = .error (.terminate response)
  prose : IsProse terminateEnabled (members.map Member.name) reply →
    ∀ name, Dominates (toLower reply.toList) (members.map Member.name) name →
      Selects members outcome name ∧
        StandsAlone (toLower reply.toList) (members.map Member.name) name
  invalid : IsProse terminateEnabled (members.map Member.name) reply →
    (¬ ∃ name, Dominates (toLower reply.toList) (members.map Member.name) name) →
      outcome = .error (.invalidAgent reply)
  candidate : ∀ member, outcome = .ok member → member ∈ members

/-! ### Names of resources -/

/-- A character of a name of a resource. -/
def isResourceChar (c : Char) : Bool := isLowerAlphanumeric c || c = '-' || c = '.'

theorem mem_intercalate {c sep : Char} {parts : List (List Char)}
    (h : c ∈ [sep].intercalate parts) : c = sep ∨ ∃ part ∈ parts, c ∈ part := by
  induction parts with
  | nil => cases h
  | cons part parts ih =>
    cases parts with
    | nil =>
      rw [List.intercalate_singleton] at h
      exact .inr ⟨part, List.mem_cons_self, h⟩
    | cons next parts =>
      rw [List.intercalate_cons_cons, List.append_assoc] at h
      rcases List.mem_append.1 h with h | h
      · exact .inr ⟨part, List.mem_cons_self, h⟩
      rcases List.mem_append.1 h with h | h
      · exact .inl (List.mem_singleton.1 h)
      · rcases ih h with h | ⟨other, hother, h⟩
        · exact .inl h
        · exact .inr ⟨other, List.mem_cons_of_mem part hother, h⟩

section Resource

variable {name : String} (h : isSubdomain name = true)

include h

theorem resource_mem {c : Char} (hc : c ∈ name.toList) : isResourceChar c = true := by
  simp only [isSubdomain, Bool.and_eq_true, List.all_eq_true] at h
  have hback : ['.'].intercalate (name.toList.splitOn '.') = name.toList :=
    List.intercalate_splitOn '.'
  rw [← hback] at hc
  rcases mem_intercalate hc with rfl | ⟨part, hpart, hmem⟩
  · rfl
  · rw [isResourceChar, (h.2 part hpart).1.1 c hmem, Bool.true_or]

theorem resource_ne_nil : name.toList ≠ [] := by
  intro hnil
  rw [isSubdomain, hnil] at h
  simp at h

end Resource

theorem resourceChar_table : ∀ n < 128, isResourceChar (Char.ofNat n) = true →
    foldRune (Char.ofNat n) = Char.ofNat n ∧ toLowerRune (Char.ofNat n) = Char.ofNat n ∧
      Char.ofNat n ≠ ':' ∧ Char.ofNat n ≠ '_' ∧ isASCIISpace (Char.ofNat n) = false := by
  decide +kernel

theorem resourceChar_spec {c : Char} (h : isResourceChar c = true) :
    foldRune c = c ∧ toLowerRune c = c ∧ c ≠ ':' ∧ c ≠ '_' ∧ isASCIISpace c = false := by
  have hlt : c.toNat < 128 := by
    have h' := h
    simp only [isResourceChar, isLowerAlphanumeric, Bool.or_eq_true, Bool.and_eq_true,
      decide_eq_true_eq] at h'
    rcases h' with ((⟨_, hle⟩ | ⟨_, hle⟩) | rfl) | rfl
    · exact lt_of_le_of_lt (show c.toNat ≤ 122 from hle) (by omega)
    · exact lt_of_le_of_lt (show c.toNat ≤ 57 from hle) (by omega)
    · decide
    · decide
  have htable := resourceChar_table c.toNat hlt
  rw [Char.ofNat_toNat] at htable
  exact htable h

section Resource

variable {name : String} (h : isSubdomain name = true)

include h

theorem map_foldRune : name.toList.map foldRune = name.toList := by
  conv_rhs => rw [← List.map_id name.toList]
  exact List.map_congr_left fun c hc => (resourceChar_spec (resource_mem h hc)).1

theorem toLower_resource : toLower name.toList = name.toList := by
  conv_rhs => rw [← List.map_id name.toList]
  exact List.map_congr_left fun c hc => (resourceChar_spec (resource_mem h hc)).2.1

/-- Only one name is a reply up to case. -/
theorem eq_of_equalFold {other : String} (h' : isSubdomain other = true) {reply : List Char}
    (hname : equalFold name.toList reply = true) (hother : equalFold other.toList reply = true) :
    name = other := by
  have hn : name.toList.map foldRune = reply.map foldRune := of_decide_eq_true hname
  have ho : other.toList.map foldRune = reply.map foldRune := of_decide_eq_true hother
  rw [map_foldRune h] at hn
  rw [map_foldRune h'] at ho
  exact String.toList_inj.1 (hn.trans ho.symm)

/-- A reply that is a name up to case holds no separator. -/
theorem separator_notMem {reply : List Char} (hfold : equalFold name.toList reply = true) {c : Char}
    (hc : c ∈ reply) : ¬ (c = ':' ∨ isASCIISpace c = true) := by
  intro hsep
  have hmap : name.toList.map foldRune = reply.map foldRune := of_decide_eq_true hfold
  rw [map_foldRune h] at hmap
  have hself : foldRune c = c := by
    rcases hsep with rfl | hspace
    · decide
    · simp only [isASCIISpace, Bool.or_eq_true, decide_eq_true_eq] at hspace
      rcases hspace with ((rfl | rfl) | rfl) | rfl <;> decide
  have hmem : c ∈ name.toList := by
    rw [hmap]
    exact List.mem_map.2 ⟨c, hc, hself⟩
  obtain ⟨_, _, hcolon, _, hspace⟩ := resourceChar_spec (resource_mem h hmem)
  rcases hsep with hsep | hsep
  · exact hcolon hsep
  · rw [hspace] at hsep
    cases hsep

end Resource

/-! ### The token -/

theorem parseEngineTerminate_isSome {reply token : String} :
    (parseEngineTerminate reply token).isSome = true ↔
      Terminates token.toList (trimSpace reply).toList := by
  unfold parseEngineTerminate Terminates
  dsimp only
  constructor
  · intro h
    split at h
    next hfold =>
      refine ⟨_, _, (List.take_append_drop _ _).symm, hfold, fun c hc => ?_⟩
      cases hrest : (trimSpace reply).toList.drop token.toList.length with
      | nil =>
        rw [hrest] at hc
        cases hc
      | cons d rest =>
        rw [hrest] at hc h
        obtain rfl : d = c := Option.some.inj hc
        by_contra hsep
        have hbool : ¬ (decide (d = ':') || isASCIISpace d) = true := by simpa using hsep
        dsimp only at h
        rw [if_neg hbool] at h
        cases h
    next => cases h
  · rintro ⟨head, rest, hsplit, hfold, hsep⟩
    have hmap : head.map foldRune = token.toList.map foldRune := of_decide_eq_true hfold
    have hlen : head.length = token.toList.length := by
      rw [← List.length_map foldRune, hmap, List.length_map]
    rw [hsplit, ← hlen, List.take_left, List.drop_left, if_pos hfold]
    cases rest with
    | nil => rfl
    | cons c rest =>
      have hbool : (decide (c = ':') || isASCIISpace c) = true := by simpa using hsep c rfl
      dsimp only
      rw [if_pos hbool]
      rfl

/-- The token is no name of a candidate, even up to case. -/
theorem not_terminates_of_equalFold {names : List String} (hnames : ∀ n ∈ names, isSubdomain n = true)
    {name : String} (hname : name ∈ names) {reply : List Char}
    (hfold : equalFold name.toList reply = true) :
    ¬ Terminates (engineTerminateTokenFor names).toList reply := by
  rintro ⟨head, rest, rfl, hhead, hrest⟩
  have hmap : name.toList.map foldRune = (head ++ rest).map foldRune := of_decide_eq_true hfold
  have hheadmap : head.map foldRune = (engineTerminateTokenFor names).toList.map foldRune :=
    of_decide_eq_true hhead
  have hnil : rest = [] := by
    cases rest with
    | nil => rfl
    | cons c rest =>
      exact absurd (hrest c rfl) (separator_notMem (hnames name hname) hfold (by simp))
  rw [hnil, List.append_nil, hheadmap] at hmap
  unfold engineTerminateTokenFor at hmap
  split at hmap
  next =>
    -- the fallback holds a character that no name holds
    rw [map_foldRune (hnames name hname)] at hmap
    have hmem : '_' ∈ name.toList := by
      rw [hmap]
      decide
    exact (resourceChar_spec (resource_mem (hnames name hname) hmem)).2.2.2.1 rfl
  next hnone =>
    refine hnone (List.any_eq_true.2 ⟨name, hname, ?_⟩)
    exact decide_eq_true hmap

/-! ### Mentions -/

theorem wholeNameFrom_iff {needle : List Char} (hne : needle ≠ []) {prev : Option Char}
    {text : List Char} :
    wholeNameFrom needle prev text = true ↔
      ∃ before after, text = before ++ needle ++ after ∧
        endsClean (before.getLast?.or prev) = true ∧ endsClean after.head? = true := by
  induction text generalizing prev with
  | nil =>
    refine ⟨fun h => absurd h Bool.false_ne_true, ?_⟩
    rintro ⟨before, after, h, _⟩
    exact absurd (List.append_eq_nil_iff.1 (List.append_eq_nil_iff.1 h.symm).1).2 hne
  | cons c text ih =>
    rw [wholeNameFrom, Bool.or_eq_true, Bool.and_eq_true, Bool.and_eq_true, ih]
    constructor
    · rintro (⟨⟨hp, hprev⟩, hnext⟩ | ⟨before, after, rfl, hbefore, hafter⟩)
      · obtain ⟨after, hafter⟩ := List.isPrefixOf_iff_prefix.1 hp
        rw [← hafter, List.drop_left] at hnext
        exact ⟨[], after, hafter.symm, hprev, hnext⟩
      · refine ⟨c :: before, after, rfl, ?_, hafter⟩
        rw [List.getLast?_cons, Option.some_or]
        cases hlast : before.getLast? with
        | none =>
          rw [hlast] at hbefore
          exact hbefore
        | some d =>
          rw [hlast] at hbefore
          exact hbefore
    · rintro ⟨before, after, hsplit, hbefore, hafter⟩
      cases before with
      | nil =>
        left
        rw [List.nil_append] at hsplit
        rw [hsplit, List.drop_left]
        exact ⟨⟨List.isPrefixOf_iff_prefix.2 (List.prefix_append needle after), hbefore⟩, hafter⟩
      | cons d before =>
        right
        obtain ⟨rfl, hrest⟩ := List.cons.inj hsplit
        refine ⟨before, after, hrest, ?_, hafter⟩
        rw [List.getLast?_cons, Option.some_or] at hbefore
        cases hlast : before.getLast? with
        | none =>
          rw [hlast] at hbefore
          exact hbefore
        | some d =>
          rw [hlast] at hbefore
          exact hbefore

theorem containsWholeName_iff {text name : List Char} (hne : name ≠ []) :
    containsWholeName text name = true ↔ Mentions text name := by
  rw [containsWholeName, Bool.and_eq_true, wholeNameFrom_iff hne]
  constructor
  · rintro ⟨_, before, after, hsplit, hbefore, hafter⟩
    rw [Option.or_none] at hbefore
    exact ⟨_, before, after, hsplit, rfl, hbefore, hafter⟩
  · rintro ⟨_, before, after, hsplit, _, hbefore, hafter⟩
    refine ⟨decide_eq_true hne, before, after, hsplit, ?_, hafter⟩
    rwa [Option.or_none]

section Mentioned

variable {names : List String} (hnames : ∀ n ∈ names, isSubdomain n = true)

include hnames

theorem mem_mentioned {text : List Char} {name : String} :
    name ∈ mentioned text names ↔ name ∈ names ∧ Mentions text name.toList := by
  rw [mentioned, List.mem_filter]
  refine and_congr_right fun hname => ?_
  rw [toLower_resource (hnames name hname),
    containsWholeName_iff (resource_ne_nil (hnames name hname))]

theorem mem_longest {name : String} :
    name ∈ longest names ↔
      name ∈ names ∧ ∀ other ∈ names, other ≠ name → ¬ name.toList <:+: other.toList := by
  rw [longest, List.mem_filter]
  refine and_congr_right fun hname => ?_
  simp only [Bool.not_eq_true', List.any_eq_false, Bool.and_eq_true, decide_eq_true_eq, not_and]
  refine forall₂_congr fun other hother => ?_
  rw [toLower_resource (hnames name hname), toLower_resource (hnames other hother)]

/-- A name lies in one that no other contains. -/
theorem exists_longest {name : String} (hname : name ∈ names) :
    ∃ c ∈ longest names, name.toList <:+: c.toList := by
  obtain ⟨c, hc, hmax⟩ := Finset.exists_max_image
    (names.toFinset.filter fun c => name.toList <:+: c.toList) (fun c => c.toList.length)
    ⟨name, by simp [hname]⟩
  rw [Finset.mem_filter, List.mem_toFinset] at hc
  refine ⟨c, (mem_longest hnames).2 ⟨hc.1, fun other hother hne hwithin => hne ?_⟩, hc.2⟩
  have hlen := hmax other
    (Finset.mem_filter.2 ⟨List.mem_toFinset.2 hother, hc.2.trans hwithin⟩)
  exact String.toList_inj.1 (hwithin.eq_of_length (le_antisymm hwithin.length_le hlen)).symm

/-- One name remains exactly when it contains all others. -/
theorem longest_eq_singleton_iff (hnodup : names.Nodup) {c : String} :
    longest names = [c] ↔ c ∈ names ∧ ∀ other ∈ names, other.toList <:+: c.toList := by
  constructor
  · intro h
    have hc : c ∈ longest names := h ▸ List.mem_singleton_self c
    refine ⟨((mem_longest hnames).1 hc).1, fun other hother => ?_⟩
    obtain ⟨d, hd, hwithin⟩ := exists_longest hnames hother
    rw [h, List.mem_singleton] at hd
    rwa [hd] at hwithin
  · rintro ⟨hc, hall⟩
    have hmem : ∀ d, d ∈ longest names ↔ d ∈ [c] := by
      intro d
      rw [mem_longest hnames, List.mem_singleton]
      constructor
      · rintro ⟨hd, hmax⟩
        by_contra hne
        exact hmax c hc (Ne.symm hne) (hall d hd)
      · rintro rfl
        refine ⟨hc, fun other hother hne hwithin => hne ?_⟩
        have hlen := (hall other hother).length_le
        exact String.toList_inj.1 (hwithin.eq_of_length (le_antisymm hwithin.length_le hlen)).symm
    have hperm : (longest names).Perm [c] :=
      (List.perm_ext_iff_of_nodup (hnodup.filter _) (List.nodup_singleton c)).2 hmem
    exact List.perm_singleton.1 hperm

theorem longest_mentioned_iff (hnodup : names.Nodup) {text : List Char} {c : String} :
    longest (mentioned text names) = [c] ↔ Dominates text names c := by
  have hsub : ∀ n ∈ mentioned text names, isSubdomain n = true := fun n hn =>
    hnames n (List.mem_of_mem_filter hn)
  rw [longest_eq_singleton_iff hsub (hnodup.filter _), mem_mentioned hnames, Dominates, and_assoc]
  simp only [mem_mentioned hnames, and_imp]

/-! ### The selection -/

theorem matchSelectedName_folded {response : String} {name : String} (hname : name ∈ names)
    (hfold : equalFold name.toList (trimSpace response).toList = true) :
    matchSelectedName response names = .ok name := by
  unfold matchSelectedName
  dsimp only
  split
  next hexact =>
    have hself : equalFold (trimSpace response).toList (trimSpace response).toList = true :=
      decide_eq_true rfl
    rw [eq_of_equalFold (hnames _ hexact) (hnames name hname) hself hfold]
  next =>
    cases hfound : names.find? fun c => equalFold c.toList (trimSpace response).toList with
    | none => exact absurd hfold (List.find?_eq_none.1 hfound name hname)
    | some c =>
      have hc := List.mem_of_find?_eq_some hfound
      have hcfold := List.find?_some hfound
      dsimp only at hcfold ⊢
      rw [eq_of_equalFold (hnames c hc) (hnames name hname) hcfold hfold]

omit hnames in
theorem matchSelectedName_prose {response : String}
    (hprose : ∀ name ∈ names, equalFold name.toList (trimSpace response).toList = false) :
    matchSelectedName response names =
      match longest (mentioned (toLower (trimSpace response).toList) names) with
      | [candidate] => .ok candidate
      | _ => .error (trimSpace response) := by
  have hexact : trimSpace response ∉ names := by
    intro hmem
    have hself : equalFold (trimSpace response).toList (trimSpace response).toList = true :=
      decide_eq_true rfl
    rw [hprose _ hmem] at hself
    cases hself
  have hnone : (names.find? fun c => equalFold c.toList (trimSpace response).toList) = none :=
    List.find?_eq_none.2 fun name hname => by rw [hprose name hname]; decide
  unfold matchSelectedName
  dsimp only
  rw [if_neg hexact, hnone]

omit hnames in
/-- The name that is selected stands outside of the others that are mentioned. -/
theorem Dominates.standsAlone {text : List Char} {name : String} (h : Dominates text names name) :
    StandsAlone text names name := by
  obtain ⟨_, ⟨i, hi⟩, hall⟩ := h
  refine ⟨i, hi, fun other hother hne j hj hinside => hne ?_⟩
  have hwithin := hall other hother ⟨j, hj⟩
  exact String.toList_inj.1 (hwithin.eq_of_length (le_antisymm hwithin.length_le (by omega)))

end Mentioned

theorem selects_of_mem {members : List Member} {name : String}
    (h : name ∈ members.map Member.name) :
    Selects members (TeamSpec.resolveSelectedMember name members) name := by
  unfold TeamSpec.resolveSelectedMember
  cases hfound : members.find? fun m => m.name = name with
  | none =>
    obtain ⟨m, hm, hname⟩ := List.mem_map.1 h
    exact absurd (decide_eq_true hname) (List.find?_eq_none.1 hfound m hm)
  | some m =>
    have hname := List.find?_some hfound
    exact ⟨m, List.mem_of_find?_eq_some hfound, rfl, of_decide_eq_true hname⟩

section Selection

variable {W : Type} (spec : TeamSpec) (env : TeamEnv W) (messages : List Message)
  (members : List Member)

/-- The text that the selector replies. -/
abbrev selectorReply : String := extractLastAssistantMessageContent messages

theorem resolve_terminated (hterminate : spec.terminateEnabled = true)
    (h : Terminates (engineTerminateTokenFor (members.map Member.name)).toList
      (trimSpace (selectorReply messages)).toList) :
    ∃ response, spec.resolveEngineSelection env.reading messages members =
      .error (.terminate response) := by
  obtain ⟨response, hresponse⟩ := Option.isSome_iff_exists.1 (parseEngineTerminate_isSome.2 h)
  refine ⟨if response ≠ "" then [.assistant none response []] else [], ?_⟩
  unfold TeamSpec.resolveEngineSelection
  simp only [TeamEnv.reading, hterminate, if_true, hresponse]

theorem resolve_selecting
    (h : ¬ (spec.terminateEnabled = true ∧
      Terminates (engineTerminateTokenFor (members.map Member.name)).toList
        (trimSpace (selectorReply messages)).toList)) :
    spec.resolveEngineSelection env.reading messages members =
      match matchSelectedName (selectorReply messages) (members.map Member.name) with
      | .ok selectedName => TeamSpec.resolveSelectedMember selectedName members
      | .error selected => .error (.invalidAgent selected) := by
  have hnone : (if spec.terminateEnabled = true then
      parseEngineTerminate (selectorReply messages)
        (engineTerminateTokenFor (members.map Member.name)) else none) = none := by
    split
    next hterminate =>
      rw [← Option.not_isSome_iff_eq_none, parseEngineTerminate_isSome]
      exact fun hterminates => h ⟨hterminate, hterminates⟩
    next => rfl
  unfold TeamSpec.resolveEngineSelection
  simp only [TeamEnv.reading]
  split
  next response hresponse => cases hnone.symm.trans hresponse
  next => rfl

variable {members}

/-- Every reply is read as what it says. -/
theorem resolveEngineSelection_unmistaken
    (hnames : ∀ n ∈ members.map Member.name, isSubdomain n = true)
    (hnodup : (members.map Member.name).Nodup) :
    Unmistaken spec.terminateEnabled members (trimSpace (selectorReply messages))
      (spec.resolveEngineSelection env.reading messages members) := by
  have hfolded : ∀ name ∈ members.map Member.name,
      equalFold name.toList (trimSpace (selectorReply messages)).toList = true →
        Selects members (spec.resolveEngineSelection env.reading messages members) name := by
    intro name hname hfold
    rw [resolve_selecting spec env messages members fun h =>
      not_terminates_of_equalFold hnames hname hfold h.2,
      matchSelectedName_folded hnames hname hfold]
    exact selects_of_mem hname
  have hprose : IsProse spec.terminateEnabled (members.map Member.name)
      (trimSpace (selectorReply messages)) →
        spec.resolveEngineSelection env.reading messages members =
          match longest (mentioned (toLower (trimSpace (selectorReply messages)).toList)
            (members.map Member.name)) with
          | [candidate] => TeamSpec.resolveSelectedMember candidate members
          | _ => .error (.invalidAgent (trimSpace (selectorReply messages))) := by
    rintro ⟨hfold, hterminate⟩
    rw [resolve_selecting spec env messages members hterminate, matchSelectedName_prose hfold]
    generalize longest _ = remaining
    rcases remaining with _ | ⟨c, _ | ⟨d, others⟩⟩ <;> rfl
  constructor
  case exact => exact fun h => hfolded _ h (decide_eq_true rfl)
  case folded => exact hfolded
  case terminated => exact resolve_terminated spec env messages members
  case prose =>
    intro h name hname
    refine ⟨?_, hname.standsAlone⟩
    rw [hprose h, (longest_mentioned_iff hnames hnodup).2 hname]
    exact selects_of_mem hname.1
  case invalid =>
    intro h hnone
    rw [hprose h]
    split
    next c hc => exact absurd ⟨c, (longest_mentioned_iff hnames hnodup).1 hc⟩ hnone
    next => rfl
  case candidate =>
    intro member h
    unfold TeamSpec.resolveEngineSelection at h
    dsimp only at h
    split at h
    next => cases h
    next =>
      split at h
      next =>
        unfold TeamSpec.resolveSelectedMember at h
        split at h
        next found hfound =>
          obtain rfl := Except.ok.inj h
          exact List.mem_of_find?_eq_some hfound
        next => cases h
      next => cases h

end Selection

/-! ### A name that contains another one -/

def agentMembers : List Member :=
  ["agent", "agent-a"].map fun name => .agent (engineAgent name) ""

def agentTeam : TeamSpec := { name := "team", «namespace» := "default", strategy := "selector" }

def agentReply : List Message := [.assistant none "agent or agent-a" []]

theorem unmistaken_agentReply :
    Unmistaken agentTeam.terminateEnabled agentMembers (trimSpace (selectorReply agentReply))
      (agentTeam.resolveEngineSelection (firstMemberRun []).env.reading agentReply agentMembers) :=
  resolveEngineSelection_unmistaken agentTeam (firstMemberRun []).env agentReply (by decide +kernel)
    (by decide +kernel)

/-- Two names stand apart in the reply, and one of them is selected. -/
theorem selects_containing_name :
    IsProse agentTeam.terminateEnabled (agentMembers.map Member.name)
        (trimSpace (selectorReply agentReply)) ∧
      StandsAlone "agent or agent-a".toList (agentMembers.map Member.name) "agent" ∧
      StandsAlone "agent or agent-a".toList (agentMembers.map Member.name) "agent-a" ∧
      Selects agentMembers
        (agentTeam.resolveEngineSelection (firstMemberRun []).env.reading agentReply agentMembers)
        "agent-a" := by
  have hnames : ∀ name ∈ agentMembers.map Member.name, name = "agent" ∨ name = "agent-a" := by
    simp [agentMembers, Member.name, engineAgent]
  refine ⟨⟨by decide +kernel, fun h => absurd h.1 (by decide)⟩,
    ⟨0, ⟨[], " or agent-a".toList, by decide, rfl, by decide, by decide⟩, ?_⟩,
    ⟨9, ⟨"agent or ".toList, [], by decide, rfl, by decide, by decide⟩, ?_⟩, ?_⟩
  · rintro other hother hne j ⟨before, after, hsplit, hj, _, _⟩ ⟨hj0, _⟩
    obtain rfl : before = [] := List.length_eq_zero_iff.1 (by omega)
    obtain rfl := (hnames other hother).resolve_left hne
    have hprefix : "agent-a".toList <+: "agent or agent-a".toList := ⟨after, hsplit.symm⟩
    exact absurd hprefix (by decide)
  · rintro other hother hne j _ ⟨hj, hlen⟩
    obtain rfl := (hnames other hother).resolve_right hne
    have h5 : "agent".toList.length = 5 := rfl
    have h7 : "agent-a".toList.length = 7 := rfl
    omega
  · have hmatch : matchSelectedName (selectorReply agentReply) (agentMembers.map Member.name) =
        .ok "agent-a" := by decide +kernel
    rw [resolve_selecting agentTeam _ agentReply agentMembers fun h => absurd h.1 (by decide), hmatch]
    exact selects_of_mem (by decide +kernel)

end Ark
