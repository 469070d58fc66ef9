import Ark.PercentQuote
import Ark.ServiceProxy
import Ark.SvgSanitize

/-!
# The addresses of the broker

A request for the broker is rejected or goes to the segments of its path, each quoted, below the address of
the broker. Whatever the path and the parameters are, the broker reads its own segments and then those of
the path; only a single dot among them is lost on the way, as HTTP clients drop dot segments.
-/

namespace Ark.BrokerUrls

open GoBytes GoUrl UriSegments KeyedTable ServiceProxy

structure HTTPException where
  statusCode : ℕ
  detail : String
  deriving DecidableEq

/-! ### Paths -/

def validatePathSegment (segment : Segment) (paramName : String) : Except HTTPException Segment :=
  if ['.', '.'] <:+: segment then
    .error ⟨400, "Invalid " ++ paramName ++ ": path traversal not allowed (contains '..')"⟩
  else if '/' ∈ segment ∨ '\\' ∈ segment then
    .error ⟨400, "Invalid " ++ paramName ++ ": path separators not allowed"⟩
  else if segment.all Svg.isSpace then
    .error ⟨400, "Invalid " ++ paramName ++ ": cannot be empty"⟩
  else .ok segment

/-- `strip("/")`. -/
def stripSlash (s : Text) : Text := rstripSlash (s.dropWhile (· == '/'))

def buildSafeUrl (baseUrl : Text) (pathSegments : List Segment) : Text :=
  let base := rstripSlash baseUrl
  let encodedSegments := (pathSegments.filter (· ≠ [])).map fun segment => quote (stripSlash segment)
  if encodedSegments = [] then base else base ++ '/' :: join encodedSegments

def segmentsOf (path : Text) : List Segment := (path.splitOn '/').filter (· ≠ [])

/-- The loop of `validate_and_build_url`. -/
def validateSegments : List Segment → Except HTTPException Unit
  | [] => .ok ()
  | segment :: rest => do
    let _ ← validatePathSegment segment "path"
    validateSegments rest

def validateAndBuildUrl (baseUrl : Text) (path : Option Text) : Except HTTPException Text :=
  match path with
  | none | some [] => .ok baseUrl
  | some (c :: path) => do
    validateSegments (segmentsOf (c :: path))
    .ok (buildSafeUrl baseUrl (segmentsOf (c :: path)))

/-! ### Requests -/

/-- `urlencode`. -/
def urlencode (params : List (String × Text)) : Text :=
  ['&'].intercalate (params.map fun p => queryEscape (utf8 p.1.toList) ++ '=' :: queryEscape (utf8 p.2))

def getMemoryServiceAddress (lastResolvedAddress : Text) : Option Text :=
  if lastResolvedAddress = [] then none else some (rstripSlash lastResolvedAddress)

/-- What becomes of a request: an answer of its own, or a request to the broker. -/
inductive Outcome
  | answer (status : ℕ) (message type : String)
  | rejected (e : HTTPException)
  | fetch (url : Text)
  | stream (url : Text)

def Outcome.url : Outcome → Option Text
  | .fetch url | .stream url => some url
  | _ => none

/-- The parameters of the request to the broker. -/
def queryParams (watch : Bool) (params : List (String × Option Text)) : List (String × Text) :=
  let given := params.filterMap fun p => p.2.map (p.1, ·)
  if watch then put Prod.fst ("watch", "true".toList) given else given

def withQuery (url : Text) (params : List (String × Text)) : Text :=
  if params = [] then url else url ++ '?' :: urlencode params

def proxyBrokerRequest (brokerUrl : Option Text) (memory : String) (path : Text) (watch : Bool)
    (params : List (String × Option Text)) : Outcome :=
  match brokerUrl with
  | none | some [] => .answer 503 ("Memory service '" ++ memory ++ "' not available") "service_unavailable"
  | some (c :: brokerUrl) =>
    match validateAndBuildUrl (c :: brokerUrl) (some path) with
    | .error e => .rejected e
    | .ok safeUrl =>
      let url := withQuery safeUrl (queryParams watch params)
      if watch then .stream url else .fetch url

/-! ### What the broker reads -/

/-- The address of a broker: its host, the segments that the host serves it under, and the slashes that
the address happens to end with. -/
structure Address where
  host : Text
  segments : List Segment
  slashes : ℕ
  host_ne : host ≠ []
  host_slash : host.getLast? ≠ some '/'
  host_query : '?' ∉ host
  plain : ∀ s ∈ segments, Plain s ∧ s ≠ []

def Address.base (address : Address) : Text :=
  address.host ++ address.segments.flatMap fun s => '/' :: s

def Address.text (address : Address) : Text :=
  address.base ++ List.replicate address.slashes '/'

/-- The segments of a request behind the host and its slash. -/
def Address.reads (address : Address) (url : Text) : List Bytes :=
  received popping ((pathOf (url.drop address.host.length)).drop 1)

/-- The fields of the query, as a form is read. -/
def fields (url : Text) : List (Option Bytes × Option Bytes) :=
  ((((url.dropWhile (· != '?')).drop 1).splitOn '&').filter (· ≠ [])).map fun field =>
    (unescape .queryComponent (field.takeWhile (· != '=')),
      unescape .queryComponent ((field.dropWhile (· != '=')).drop 1))

/-- The segments that a path names. -/
def named (path : Text) : List Segment := (segmentsOf path).filter (· ≠ ['.'])

/-- What is read where these segments are addressed: the root where there are none. -/
def addressed (segments : List Segment) : List Bytes :=
  if segments = [] then [[]] else segments.map utf8

/-- A segment that is not let through. -/
def Refused (s : Segment) : Prop := ['.', '.'] <:+: s ∨ '\\' ∈ s ∨ s.all Svg.isSpace = true

/-! ### Validation -/

theorem validatePathSegment_ok_iff {segment : Segment} {paramName : String} :
    (∃ s, validatePathSegment segment paramName = .ok s) ↔ '/' ∉ segment ∧ ¬Refused segment := by
  unfold validatePathSegment Refused
  split_ifs with hdots hslash hblank
  · simp [hdots]
  · rcases hslash with h | h <;> simp [h]
  · simp [hblank]
  · rw [not_or] at hslash
    simp [hdots, hslash.1, hslash.2, hblank]

theorem validateSegments_ok_iff {segments : List Segment} (h : ∀ s ∈ segments, '/' ∉ s) :
    validateSegments segments = .ok () ↔ ∀ s ∈ segments, ¬Refused s := by
  induction segments with
  | nil => simp [validateSegments]
  | cons s rest ih =>
    obtain ⟨hs, hrest⟩ := List.forall_mem_cons.mp h
    have hiff := @validatePathSegment_ok_iff s "path"
    rw [List.forall_mem_cons, ← ih hrest]
    rw [validateSegments]
    cases hv : validatePathSegment s "path" with
    | ok t =>
      have hok := hiff.mp ⟨t, hv⟩
      exact ⟨fun hrest => ⟨hok.2, hrest⟩, fun hrest => hrest.2⟩
    | error e =>
      refine ⟨(nomatch ·), fun hok => ?_⟩
      obtain ⟨t, ht⟩ := hiff.mpr ⟨hs, hok.1⟩
      rw [hv] at ht
      cases ht

theorem slash_not_mem_segmentsOf {path : Text} : ∀ s ∈ segmentsOf path, '/' ∉ s :=
  fun _ hs => not_mem_of_mem_splitOn (List.mem_of_mem_filter hs)

theorem validateSegments_cases (segments : List Segment) :
    validateSegments segments = .ok () ∨ ∃ e, validateSegments segments = .error e := by
  cases h : validateSegments segments with
  | ok u => exact .inl rfl
  | error e => exact .inr ⟨e, rfl⟩

theorem segmentsOf_nil : segmentsOf [] = [] := rfl

theorem validateAndBuildUrl_cases (baseUrl path : Text) :
    (∃ s ∈ segmentsOf path, Refused s) ∧ (∃ e, validateAndBuildUrl baseUrl (some path) = .error e) ∨
      (∀ s ∈ segmentsOf path, ¬Refused s) ∧ validateAndBuildUrl baseUrl (some path) =
        .ok (if path = [] then baseUrl else buildSafeUrl baseUrl (segmentsOf path)) := by
  cases path with
  | nil => exact .inr ⟨fun s hs => absurd hs List.not_mem_nil, rfl⟩
  | cons c path =>
    have hiff := validateSegments_ok_iff (@slash_not_mem_segmentsOf (c :: path))
    rcases validateSegments_cases (segmentsOf (c :: path)) with hok | ⟨e, he⟩
    · refine .inr ⟨hiff.mp hok, ?_⟩
      rw [if_neg (List.cons_ne_nil _ _), validateAndBuildUrl, hok]
      rfl
    · refine .inl ⟨?_, e, ?_⟩
      · by_contra hall
        push Not at hall
        rw [hiff.mpr hall] at he
        cases he
      · rw [validateAndBuildUrl, he]
        rfl

/-! ### Addresses -/

theorem rstripSlash_append (s : Text) (n : ℕ) (h : s.getLast? ≠ some '/') :
    rstripSlash (s ++ List.replicate n '/') = s := by
  unfold rstripSlash
  rw [List.reverse_append, List.reverse_replicate]
  have hdrop (t : Text) (ht : t.head? ≠ some '/') :
      (List.replicate n '/' ++ t).dropWhile (· == '/') = t := by
    induction n with
    | zero =>
      cases t with
      | nil => rfl
      | cons c t =>
        have hc : (c == '/') = false := by simpa using ht
        simp [hc]
    | succ n ih => simpa [List.replicate_succ] using ih
  rw [hdrop _ (by rwa [List.head?_reverse]), List.reverse_reverse]

theorem Address.base_getLast? (address : Address) : address.base.getLast? ≠ some '/' := by
  unfold Address.base
  rcases List.eq_nil_or_concat address.segments with h | ⟨init, s, h⟩
  · rw [h, List.flatMap_nil, List.append_nil]
    exact address.host_slash
  · have hs : s ∈ address.segments := by rw [h, List.concat_eq_append]; simp
    obtain ⟨hplain, hne⟩ := address.plain s hs
    rw [h, List.concat_eq_append, List.flatMap_append, List.flatMap_singleton, ← List.append_assoc,
      List.getLast?_append, List.getLast?_cons, Option.some_or]
    intro hlast
    have hmem : '/' ∈ s := by
      cases hl : s.getLast? with
      | none => exact absurd (List.getLast?_eq_none_iff.mp hl) hne
      | some c =>
        rw [hl, Option.getD_some] at hlast
        obtain rfl := Option.some.inj hlast
        exact List.mem_of_getLast? hl
    exact hplain.slash hmem

theorem Address.rstripSlash_text (address : Address) : rstripSlash address.text = address.base :=
  rstripSlash_append _ _ address.base_getLast?

theorem Address.rstripSlash_base (address : Address) : rstripSlash address.base = address.base := by
  have h := rstripSlash_append address.base 0 address.base_getLast?
  rwa [List.replicate_zero, List.append_nil] at h

theorem Address.base_ne (address : Address) : address.base ≠ [] := by
  unfold Address.base
  simp [address.host_ne]

theorem Address.text_ne (address : Address) : address.text ≠ [] := by
  unfold Address.text
  simp [address.base_ne]

theorem join_cons_append (s : Segment) (l : List Segment) :
    join (s :: l) = s ++ l.flatMap fun s => '/' :: s := by
  induction l generalizing s with
  | nil => simp [join]
  | cons t l ih =>
    have h : join (s :: t :: l) = s ++ ['/'] ++ join (t :: l) := List.intercalate_cons_cons
    rw [h, ih, List.flatMap_cons]
    simp

/-- The text behind the host and its slash. -/
theorem flatMap_slash (l : List Segment) : (l.flatMap fun s => '/' :: s).drop 1 = join l := by
  cases l with
  | nil => rfl
  | cons s l =>
    rw [join_cons_append, List.flatMap_cons]
    rfl

theorem stripSlash_eq_self {s : Segment} (h : '/' ∉ s) : stripSlash s = s := by
  have hdrop : s.dropWhile (· == '/') = s := by
    rw [List.dropWhile_eq_self_iff]
    intro hpos
    have hne : s[0] ≠ '/' := fun heq => h (heq ▸ List.getElem_mem hpos)
    simpa using hne
  have hlast : s.getLast? ≠ some '/' := fun hl => h (List.mem_of_getLast? hl)
  unfold stripSlash
  rw [hdrop]
  have hstrip := rstripSlash_append s 0 hlast
  rwa [List.replicate_zero, List.append_nil] at hstrip

/-- The address with the quoted segments of the path below it. -/
theorem buildSafeUrl_eq (address : Address) {segments : List Segment}
    (h : ∀ s ∈ segments, '/' ∉ s ∧ s ≠ []) : buildSafeUrl address.base segments =
      address.host ++ (address.segments ++ segments.map quote).flatMap fun s => '/' :: s := by
  have hfilter : segments.filter (· ≠ []) = segments :=
    List.filter_eq_self.mpr fun s hs => by simpa using (h s hs).2
  have hmap : (segments.map fun s => quote (stripSlash s)) = segments.map quote :=
    List.map_congr_left fun s hs => by rw [stripSlash_eq_self (h s hs).1]
  unfold buildSafeUrl
  rw [hfilter, hmap, address.rstripSlash_base, List.flatMap_append, ← List.append_assoc]
  dsimp only
  change (if _ then _ else _) = address.base ++ _
  cases hq : segments.map quote with
  | nil => simp
  | cons q l =>
    rw [if_neg (List.cons_ne_nil _ _), join_cons_append, List.flatMap_cons]
    rfl

theorem segmentsOf_mem {path : Text} : ∀ s ∈ segmentsOf path, '/' ∉ s ∧ s ≠ [] := by
  intro s hs
  exact ⟨slash_not_mem_segmentsOf s hs, by simpa using (List.mem_filter.mp hs).2⟩

/-- The address that a path that is let through goes to. -/
theorem safeUrl_eq (address : Address) (path : Text) :
    (if path = [] then address.base else buildSafeUrl address.base (segmentsOf path)) =
      address.host ++ (address.segments ++ (segmentsOf path).map quote).flatMap fun s => '/' :: s := by
  split_ifs with h
  · rw [h, segmentsOf_nil, List.map_nil, List.append_nil]
    rfl
  · exact buildSafeUrl_eq address segmentsOf_mem

/-! ### Reading -/

theorem whole_segments (address : Address) (path : Text) :
    ∀ s ∈ address.segments ++ (segmentsOf path).map quote, Whole s := by
  intro s hs
  rcases List.mem_append.mp hs with hs | hs
  · exact (address.plain s hs).1.whole
  · obtain ⟨t, -, rfl⟩ := List.mem_map.mp hs
    exact whole_quote t

theorem removeDots_segments (address : Address) {path : Text} (h : ∀ s ∈ segmentsOf path, ¬Refused s) :
    popping.remove (address.segments ++ (segmentsOf path).map quote) =
      address.segments ++ (named path).map quote := by
  have hdouble : ∀ s ∈ address.segments ++ (segmentsOf path).map quote, s ≠ ['.', '.'] := by
    intro s hs
    rcases List.mem_append.mp hs with hs | hs
    · exact fun hdots => (address.plain s hs).1.dot (.inr hdots)
    · obtain ⟨t, ht, rfl⟩ := List.mem_map.mp hs
      intro hdots
      rw [← quote_dots.2] at hdots
      exact h t ht (.inl (quote_injective hdots ▸ List.infix_rfl))
  have hkeep : address.segments.filter (· ≠ ['.']) = address.segments := by
    refine List.filter_eq_self.mpr fun s hs => ?_
    have hdot := (address.plain s hs).1.dot
    simpa using fun heq => hdot (.inl heq)
  have hquoted : ((segmentsOf path).map quote).filter (· ≠ ['.']) = (named path).map quote := by
    rw [List.filter_map]
    refine congrArg (List.map quote) (List.filter_congr fun s _ => ?_)
    have hiff : quote s = ['.'] ↔ s = ['.'] := by
      rw [← quote_dots.1, quote_injective.eq_iff, quote_dots.1]
    simp [hiff]
  change removeDots [] _ = _
  rw [removeDots_of_single [] _ hdouble, List.filter_append, hkeep, hquoted]
  rfl

theorem decoded_segments (address : Address) (l : List Segment) :
    ((address.segments ++ l.map quote).map utf8).map percentDecode = (address.segments ++ l).map utf8 := by
  rw [List.map_map, List.map_append, List.map_append, List.map_map]
  have hown : address.segments.map (percentDecode ∘ utf8) = address.segments.map utf8 :=
    List.map_congr_left fun s hs => (address.plain s hs).1.escape
  have hquoted : l.map ((percentDecode ∘ utf8) ∘ quote) = l.map utf8 :=
    List.map_congr_left fun s _ => percentDecode_quote s
  rw [hown, hquoted]

theorem received_segments (address : Address) {path : Text} (h : ∀ s ∈ segmentsOf path, ¬Refused s) :
    received popping (join (address.segments ++ (segmentsOf path).map quote)) =
      addressed (address.segments ++ named path) := by
  by_cases hnil : address.segments ++ (segmentsOf path).map quote = []
  · obtain ⟨hown, hpath⟩ := List.append_eq_nil_iff.mp hnil
    have hnamed : named path = [] := by
      unfold named
      rw [List.map_eq_nil_iff.mp hpath, List.filter_nil]
    rw [hnil, hown, hnamed]
    rfl
  · rw [received_join hnil (whole_segments address path), DotRemoval.kept, removeDots_segments address h]
    unfold addressed
    by_cases hempty : address.segments ++ named path = []
    · obtain ⟨hown, hnamed⟩ := List.append_eq_nil_iff.mp hempty
      rw [hown, hnamed]
      rfl
    · have hquoted : address.segments ++ (named path).map quote ≠ [] := by simpa using hempty
      rw [if_neg hquoted, if_neg hempty, decoded_segments]

/-- The part of the address behind the host. -/
def pathText (address : Address) (path : Text) : Text :=
  (address.segments ++ (segmentsOf path).map quote).flatMap fun s => '/' :: s

theorem not_mem_pathText {c : Char} (hc : c ≠ '/') (address : Address) {path : Text}
    (h : ∀ s ∈ address.segments ++ (segmentsOf path).map quote, c ∉ s) : c ∉ pathText address path := by
  intro hmem
  obtain ⟨s, hs, hcs⟩ := List.mem_flatMap.mp hmem
  rcases List.mem_cons.mp hcs with rfl | hcs
  · exact hc rfl
  · exact h s hs hcs

theorem pathOf_withQuery (address : Address) (path : Text) (params : List (String × Text)) :
    pathOf (withQuery (pathText address path) params) = pathText address path := by
  have hwhole := whole_segments address path
  have hquery := not_mem_pathText (by decide) address fun s hs => (hwhole s hs).query
  have hfragment := not_mem_pathText (by decide) address fun s hs => (hwhole s hs).fragment
  unfold withQuery
  split_ifs
  · exact pathOf_eq_self_iff.mpr ⟨hquery, hfragment⟩
  · exact pathOf_append_query ⟨hquery, hfragment⟩ _

theorem withQuery_append (url rest : Text) (params : List (String × Text)) :
    withQuery (url ++ rest) params = url ++ withQuery rest params := by
  unfold withQuery
  split_ifs
  · rfl
  · exact List.append_assoc _ _ _

theorem reads_withQuery (address : Address) {path : Text} (h : ∀ s ∈ segmentsOf path, ¬Refused s)
    (params : List (String × Text)) :
    address.reads (withQuery (address.host ++ pathText address path) params) =
      addressed (address.segments ++ named path) := by
  unfold Address.reads
  rw [withQuery_append, List.drop_left, pathOf_withQuery, pathText, flatMap_slash, received_segments address h]

/-! ### Queries -/

/-- A parameter as it is written. -/
def field (p : String × Text) : Text := queryEscape (utf8 p.1.toList) ++ '=' :: queryEscape (utf8 p.2)

theorem read_field (p : String × Text) :
    (unescape .queryComponent ((field p).takeWhile (· != '=')),
      unescape .queryComponent (((field p).dropWhile (· != '=')).drop 1)) =
      (some (utf8 p.1.toList), some (utf8 p.2)) := by
  have hname : ∀ c ∈ queryEscape (utf8 p.1.toList), (c != '=') = true := by
    intro c hc
    have hne : c ≠ '=' := by
      rintro rfl
      exact not_mem_queryEscape (by decide) (by decide) (by decide) _ hc
    simpa using hne
  have htake : (field p).takeWhile (· != '=') = queryEscape (utf8 p.1.toList) := by
    rw [field, List.takeWhile_append_of_pos hname]
    simp
  have hdrop : ((field p).dropWhile (· != '=')).drop 1 = queryEscape (utf8 p.2) := by
    rw [field, List.dropWhile_append_of_pos hname]
    simp
  rw [htake, hdrop, unescape_queryEscape_eq_iff.mpr (.inl rfl), unescape_queryEscape_eq_iff.mpr (.inl rfl)]

theorem amp_not_mem_field (p : String × Text) : '&' ∉ field p := by
  intro h
  rcases List.mem_append.mp h with h | h
  · exact not_mem_queryEscape (by decide) (by decide) (by decide) _ h
  · rcases List.mem_cons.mp h with h | h
    · exact absurd h (by decide)
    · exact not_mem_queryEscape (by decide) (by decide) (by decide) _ h

theorem field_ne (p : String × Text) : field p ≠ [] := by
  unfold field
  simp

theorem fields_withQuery {url : Text} (h : '?' ∉ url) (params : List (String × Text)) :
    fields (withQuery url params) = params.map fun p => (some (utf8 p.1.toList), some (utf8 p.2)) := by
  have hurl : ∀ c ∈ url, (c != '?') = true := by
    intro c hc
    have hne : c ≠ '?' := fun heq => h (heq ▸ hc)
    simpa using hne
  unfold fields withQuery
  split_ifs with hnil
  · rw [List.dropWhile_eq_nil_iff.mpr hurl, hnil]
    rfl
  · have hquery : (url ++ '?' :: urlencode params).dropWhile (· != '?') = '?' :: urlencode params := by
      rw [List.dropWhile_append_of_pos hurl]
      simp
    have hsplit : (urlencode params).splitOn '&' = params.map field := by
      refine List.splitOn_intercalate '&' (fun f hf => ?_) (by simpa using hnil)
      obtain ⟨p, -, rfl⟩ := List.mem_map.mp hf
      exact amp_not_mem_field p
    have hall : (params.map field).filter (· ≠ []) = params.map field := by
      refine List.filter_eq_self.mpr fun f hf => ?_
      obtain ⟨p, -, rfl⟩ := List.mem_map.mp hf
      simpa using field_ne p
    rw [hquery, List.drop_one, List.tail_cons, hsplit, hall, List.map_map]
    exact List.map_congr_left fun p _ => read_field p

/-! ### Requests -/

theorem getMemoryServiceAddress_text (address : Address) :
    getMemoryServiceAddress address.text = some address.base := by
  unfold getMemoryServiceAddress
  rw [if_neg address.text_ne, address.rstripSlash_text]

theorem proxyBrokerRequest_eq (address : Address) (memory : String) (path : Text) (watch : Bool)
    (params : List (String × Option Text)) :
    proxyBrokerRequest (getMemoryServiceAddress address.text) memory path watch params =
      match validateAndBuildUrl address.base (some path) with
      | .error e => .rejected e
      | .ok safeUrl =>
        if watch then .stream (withQuery safeUrl (queryParams watch params))
        else .fetch (withQuery safeUrl (queryParams watch params)) := by
  rw [getMemoryServiceAddress_text]
  cases hbase : address.base with
  | nil => exact absurd hbase address.base_ne
  | cons c base => rfl

/-- The broker of a namespace. -/
def arkBroker : Address where
  host := "http://ark-broker".toList
  segments := []
  slashes := 1
  host_ne := by decide
  host_slash := by decide
  host_query := by decide
  plain := fun _ hs => absurd hs List.not_mem_nil

example : (proxyBrokerRequest (getMemoryServiceAddress arkBroker.text) "default" "/traces/a b?".toList true
    [("limit", none), ("session", some "x&y".toList)]).url =
      some "http://ark-broker/traces/a%20b%3F?session=x%26y&watch=true".toList := by decide +kernel

end Ark.BrokerUrls
