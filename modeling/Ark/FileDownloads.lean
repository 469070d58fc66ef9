import Ark.PercentQuote
import Ark.ServiceAnswers
import Ark.SvgDocuments

/-!
# Downloads of files

What a file gateway answers to a download is a file that somebody uploaded. It is returned for saving: the
name in the last segment of the path cannot get out of its header, the headers say how long the body is
that is sent, no type is left that a browser runs, and a document that is or looks like SVG is sanitized.
-/

namespace Ark.FileGateway

open GoBytes KeyedTable RoseHeap UriSegments ServiceProxy Svg

/-! ### Names -/

def downloadSuffix : Text := "/download".toList

def unsafeFilenameChar (c : Char) : Bool := c.toNat < 32 || c.toNat == 127 || c == '"' || c == '\\'

/-- `strip`. -/
def strip (t : Text) : Text := (t.dropWhile isSpace).rdropWhile isSpace

def asciiFallback (name : Text) : Text :=
  let fallback := strip ((name.map fun c => if unsafeFilenameChar c then '_' else c).filter fun c =>
    c.toNat < 128)
  if fallback = [] then "download".toList else fallback

def dispositionStart : Text := "attachment; filename=\"".toList

def dispositionMiddle : Text := "\"; filename*=UTF-8''".toList

/-- The name under which a file is saved. -/
def savedName (filename : Option Text) : Text :=
  if filename.getD [] = [] then "download".toList else filename.getD []

def contentDisposition (filename : Option Text) : Text :=
  let name := savedName filename
  dispositionStart ++ asciiFallback name ++ dispositionMiddle ++ quote name

def filenameFromDownloadPath (path : Text) : Option Text :=
  let trimmed := rstripSlash path
  if downloadSuffix.isSuffixOf trimmed then
    let filePath := trimmed.take (trimmed.length - downloadSuffix.length)
    some (unquote (filePath.rtakeWhile (· != '/')))
  else none

/-! ### SVG -/

/-- What an incremental parser meets first. -/
inductive FirstStart
  | start (tag : Text)
  | nothing
  | parseError
  | refused

/-- The parsers and the writer of a library. -/
structure Xml extends ElementTree where
  firstStart : Bytes → FirstStart

variable (L : Lowercase) (xml : Xml)

def isSvgFilename (filename : Option Text) : Bool :=
  filename.any fun name => ".svg".toList.isSuffixOf (L.lower name)

def baseType (contentType : Text) : Text :=
  L.lower (strip (contentType.takeWhile (· != ';')))

def isSvgContentType (contentType : Option Text) : Bool :=
  contentType.any fun contentType => contentType != [] &&
    ["image/svg+xml".toList, "application/svg+xml".toList].contains (baseType L contentType)

/-- White space of `bytes.lstrip`. -/
def isByteSpace (b : UInt8) : Bool := (9 ≤ b && b ≤ 13) || b == 32

def lowerByte (b : UInt8) : UInt8 := if 65 ≤ b && b ≤ 90 then b + 32 else b

def looksLikeSvg (content : Bytes) : Bool :=
  if content = [] then false
  else
    let head := (content.take 4096).dropWhile isByteSpace
    if head.head? != some 60 || !decide ([115, 118, 103] <:+: (head.take 512).map lowerByte) then false
    else
      match xml.firstStart content with
      | .start tag => localName L tag == "svg".toList
      | .nothing | .parseError => false
      | .refused => true

def isSvgPayload (filename contentType : Option Text) (content : Bytes) : Bool :=
  if isSvgFilename L filename || isSvgContentType L contentType then true else looksLikeSvg L xml content

def sanitizeSvgIfNeeded (filename contentType : Option Text) (content : Bytes) :
    Option (Except String Bytes) :=
  if !isSvgPayload L xml filename contentType content then some (.ok content)
  else sanitizeSvg L xml.toElementTree content

/-! ### Headers -/

def activeContentTypes : List Text :=
  ["text/html", "application/xhtml+xml", "text/xml", "application/xml"].map String.toList

def svgDownloadCsp : Text :=
  "default-src 'none'; script-src 'none'; object-src 'none'; frame-src 'none'".toList

def lowerName (name : String) : String := String.ofList (name.toList.map Char.toLower)

/-- `get("content-type") or get("Content-Type")`. -/
def contentTypeOf (headers : TextFields) : Option Text :=
  match (find Prod.fst "content-type" headers).map Prod.snd with
  | none | some [] => (find Prod.fst "Content-Type" headers).map Prod.snd
  | some contentType => some contentType

def neutralizeType (contentType : Option Text) : Bool :=
  activeContentTypes.contains (baseType L (contentType.getD []))

def droppedHeaders (contentType : Option Text) : List String :=
  ["content-length", "content-disposition"] ++
    if neutralizeType L contentType then ["content-type"] else []

/-- The headers that are kept, and the type in the place of an active one. -/
def keptHeaders (headers : TextFields) : TextFields :=
  let contentType := contentTypeOf headers
  let kept := headers.filter fun h => !(droppedHeaders L contentType).contains (lowerName h.1)
  if neutralizeType L contentType then
    put Prod.fst ("content-type", "application/octet-stream".toList) kept
  else kept

/-- The headers of a download with a body of this length. -/
def securedHeaders (headers : TextFields) (filename : Option Text) (isSvg : Bool) (length : ℕ) :
    TextFields :=
  let named := put Prod.fst ("Content-Disposition", contentDisposition filename) (keptHeaders L headers)
  let sniffed := put Prod.fst ("X-Content-Type-Options", "nosniff".toList) named
  let measured := put Prod.fst ("Content-Length", decimal length) sniffed
  if isSvg then put Prod.fst ("Content-Security-Policy", svgDownloadCsp) measured else measured

/-- The error is the detail of an answer with status 400. -/
def secureFileGatewayDownload (content : Bytes) (headers : TextFields) (downloadPath : Text) :
    Option (Except String (Bytes × TextFields)) :=
  let filename := filenameFromDownloadPath downloadPath
  let contentType := contentTypeOf headers
  let isSvg := isSvgPayload L xml filename contentType content
  (if isSvg then sanitizeSvgIfNeeded L xml filename contentType content else some (.ok content)).map
    fun sanitized => sanitized.map fun content =>
      (content, securedHeaders L headers filename isSvg content.length)

/-- The controls of the proxy for downloads, with any for uploads. A response writes the names of its
headers in lower case. -/
def fileGateway (sanitizeUpload : Bytes → Option Text → Option Bytes) : ServiceProxy.FileGateway where
  sanitizeUpload := sanitizeUpload
  secureDownload content headers path :=
    (secureFileGatewayDownload L xml content headers path).bind fun secured =>
      secured.toOption.map fun s => (s.1, s.2.map fun h => (lowerName h.1, h.2))

/-! ### What a browser reads -/

/-- The two names of an attachment. -/
def readDisposition (value : Text) : Option (Text × Text) :=
  if dispositionStart.isPrefixOf value then
    let rest := value.drop dispositionStart.length
    let fallback := rest.takeWhile (· != '"')
    let rest := rest.dropWhile (· != '"')
    if dispositionMiddle.isPrefixOf rest then
      some (fallback, unquote (rest.drop dispositionMiddle.length))
    else none
  else none

/-- A character that stands for itself in quotes. -/
def Printable (c : Char) : Prop := 32 ≤ c.toNat ∧ c.toNat < 127 ∧ c ≠ '"' ∧ c ≠ '\\'

instance (c : Char) : Decidable (Printable c) := inferInstanceAs (Decidable (_ ∧ _))

/-- The values of a header as texts. -/
def texts (returned : Returned) (name : String) : List Text := (values returned.fields name).map latin1

/-- What is returned for the body that a gateway answered with. -/
structure Secured (path : Text) (contentType : Option Text) (entity : Bytes) (returned : Returned) :
    Prop where
  disposition : ∃ value fallback, texts returned "content-disposition" = [value] ∧
    readDisposition value = some (fallback, savedName (filenameFromDownloadPath path)) ∧
      fallback ≠ [] ∧ ∀ c ∈ fallback, Printable c
  length : texts returned "content-length" = [decimal returned.body.length]
  nosniff : "nosniff".toList ∈ texts returned "x-content-type-options"
  inert : ∀ value ∈ texts returned "content-type", baseType L value ∉ activeContentTypes
  plain : isSvgPayload L xml (filenameFromDownloadPath path) contentType entity = false →
    returned.body = entity
  policy : isSvgPayload L xml (filenameFromDownloadPath path) contentType entity = true →
    svgDownloadCsp ∈ texts returned "content-security-policy"
  sanitized : isSvgPayload L xml (filenameFromDownloadPath path) contentType entity = true →
    returned.body ≠ [] → ∃ root, xml.fromstring returned.body = .ok root ∧ ∀ e ∈ root.values, Harmless e

/-! ### Dispositions -/

theorem mem_strip {c : Char} {t : Text} (h : c ∈ strip t) : c ∈ t :=
  (List.dropWhile_sublist isSpace).subset ((List.rdropWhile_prefix isSpace _).subset h)

theorem printable_asciiFallback {name : Text} : ∀ c ∈ asciiFallback name, Printable c := by
  have hdownload : ("download".toList.all fun c => decide (Printable c)) = true := by decide
  intro c hc
  unfold asciiFallback at hc
  dsimp only at hc
  split_ifs at hc
  · exact of_decide_eq_true (List.all_eq_true.mp hdownload c hc)
  · obtain ⟨hmap, hascii⟩ := List.mem_filter.mp (mem_strip hc)
    obtain ⟨d, -, rfl⟩ := List.mem_map.mp hmap
    split_ifs at hascii ⊢ with hunsafe
    · decide
    · unfold unsafeFilenameChar at hunsafe
      simp only [Bool.or_eq_true, decide_eq_true_eq, beq_iff_eq, not_or] at hunsafe hascii
      exact ⟨by omega, by omega, hunsafe.1.2, hunsafe.2⟩

theorem asciiFallback_ne (name : Text) : asciiFallback name ≠ [] := by
  unfold asciiFallback
  dsimp only
  split_ifs with h
  · decide
  · exact h

theorem readDisposition_contentDisposition (filename : Option Text) :
    readDisposition (contentDisposition filename) =
      some (asciiFallback (savedName filename), savedName filename) := by
  have hquote : ∀ c ∈ asciiFallback (savedName filename), (c != '"') = true := by
    intro c hc
    have hne := (printable_asciiFallback c hc).2.2.1
    simpa using hne
  have hmiddle : dispositionMiddle = '"' :: "; filename*=UTF-8''".toList := rfl
  unfold readDisposition contentDisposition
  dsimp only
  rw [List.append_assoc, List.append_assoc, if_pos (by simp), List.drop_left,
    List.takeWhile_append_of_pos hquote, List.dropWhile_append_of_pos hquote]
  have hstart : (dispositionMiddle ++ quote (savedName filename)).dropWhile (· != '"') =
      dispositionMiddle ++ quote (savedName filename) := by
    rw [hmiddle]
    simp
  have htaken : (dispositionMiddle ++ quote (savedName filename)).takeWhile (· != '"') = [] := by
    rw [hmiddle]
    simp
  rw [hstart, htaken, List.append_nil, if_pos (by simp), List.drop_left, unquote_quote]

/-! ### Headers -/

/-- The fields of a name in any case. -/
def under (name : String) (headers : TextFields) : TextFields :=
  headers.filter fun h => lowerName h.1 = name

theorem under_put_of_ne {name : String} {h : String × Text} (hname : lowerName h.1 ≠ name)
    (headers : TextFields) : under name (put Prod.fst h headers) = under name headers := by
  unfold under
  rw [filter_put fun x y hxy => by rw [hxy], if_neg (by simpa using hname)]

theorem under_put_of_nil {name : String} {h : String × Text} (hname : lowerName h.1 = name)
    {headers : TextFields} (hnil : under name headers = []) :
    under name (put Prod.fst h headers) = [h] := by
  unfold under at hnil ⊢
  rw [filter_put fun x y hxy => by rw [hxy], if_pos (by simpa using hname), hnil]
  rfl

theorem mem_under_put {name : String} {h : String × Text} (hname : lowerName h.1 = name)
    (headers : TextFields) : h ∈ under name (put Prod.fst h headers) :=
  List.mem_filter.mpr ⟨mem_put_self, by simpa using hname⟩

theorem lowerNames : lowerName "content-type" = "content-type" ∧
    lowerName "Content-Disposition" = "content-disposition" ∧
    lowerName "X-Content-Type-Options" = "x-content-type-options" ∧
    lowerName "Content-Length" = "content-length" ∧
    lowerName "Content-Security-Policy" = "content-security-policy" := by decide

variable {L xml}

section Secured

variable (headers : TextFields) (filename : Option Text) (isSvg : Bool) (length : ℕ)

/-- A header that is dropped is not kept, unless it is the type. -/
theorem under_keptHeaders {name : String} (hname : name ≠ "content-type")
    (h : (droppedHeaders L (contentTypeOf headers)).contains name = true) :
    under name (keptHeaders L headers) = [] := by
  have hkept : under name (headers.filter fun h =>
      !(droppedHeaders L (contentTypeOf headers)).contains (lowerName h.1)) = [] := by
    unfold under
    rw [List.filter_filter, List.filter_eq_nil_iff]
    intro x _ hx
    rw [Bool.and_eq_true, decide_eq_true_eq] at hx
    rw [hx.1, h] at hx
    exact absurd hx.2 (by decide)
  unfold keptHeaders
  dsimp only
  split_ifs
  · rw [under_put_of_ne, hkept]
    rw [lowerNames.1]
    exact hname.symm
  · exact hkept

theorem under_policy {name : String} (hname : name ≠ "content-security-policy") :
    under name (securedHeaders L headers filename isSvg length) =
      under name (put Prod.fst ("Content-Length", decimal length)
        (put Prod.fst ("X-Content-Type-Options", "nosniff".toList)
          (put Prod.fst ("Content-Disposition", contentDisposition filename)
            (keptHeaders L headers)))) := by
  unfold securedHeaders
  dsimp only
  split_ifs
  · rw [under_put_of_ne]
    rw [lowerNames.2.2.2.2]
    exact hname.symm
  · rfl

theorem under_disposition :
    under "content-disposition" (securedHeaders L headers filename isSvg length) =
      [("Content-Disposition", contentDisposition filename)] := by
  obtain ⟨-, hdisposition, hsniff, hlength, -⟩ := lowerNames
  have hdropped : (droppedHeaders L (contentTypeOf headers)).contains "content-disposition" = true := by
    simp [droppedHeaders]
  rw [under_policy _ _ _ _ (by decide), under_put_of_ne (by rw [hlength]; decide),
    under_put_of_ne (by rw [hsniff]; decide)]
  exact under_put_of_nil hdisposition (under_keptHeaders headers (by decide) hdropped)

theorem under_length : under "content-length" (securedHeaders L headers filename isSvg length) =
    [("Content-Length", decimal length)] := by
  obtain ⟨-, hdisposition, hsniff, hlength, -⟩ := lowerNames
  have hdropped : (droppedHeaders L (contentTypeOf headers)).contains "content-length" = true := by
    simp [droppedHeaders]
  rw [under_policy _ _ _ _ (by decide)]
  apply under_put_of_nil hlength
  rw [under_put_of_ne (by rw [hsniff]; decide), under_put_of_ne (by rw [hdisposition]; decide)]
  exact under_keptHeaders headers (by decide) hdropped

theorem mem_under_nosniff : ("X-Content-Type-Options", "nosniff".toList) ∈
    under "x-content-type-options" (securedHeaders L headers filename isSvg length) := by
  obtain ⟨-, -, hsniff, hlength, -⟩ := lowerNames
  rw [under_policy _ _ _ _ (by decide), under_put_of_ne (by rw [hlength]; decide)]
  exact mem_under_put hsniff _

theorem mem_under_policy : ("Content-Security-Policy", svgDownloadCsp) ∈
    under "content-security-policy" (securedHeaders L headers filename true length) :=
  mem_under_put lowerNames.2.2.2.2 _

theorem baseType_nil : baseType L [] = [] := L.lower_ascii [] fun _ hc => absurd hc List.not_mem_nil

theorem contentTypeOf_of_mem (hnodup : (headers.map Prod.fst).Nodup) {value : Text}
    (h : ("content-type", value) ∈ headers) (hne : value ≠ []) : contentTypeOf headers = some value := by
  have hfind := find_of_mem hnodup h
  unfold contentTypeOf
  rw [hfind]
  cases value with
  | nil => exact absurd rfl hne
  | cons c value => rfl

/-- The type that is left is no active one. -/
theorem inert_of_mem_under (hnodup : (headers.map Prod.fst).Nodup)
    (hlower : ∀ h ∈ headers, lowerName h.1 = h.1) {h : String × Text}
    (hmem : h ∈ under "content-type" (securedHeaders L headers filename isSvg length)) :
    baseType L h.2 ∉ activeContentTypes := by
  obtain ⟨htype, hdisposition, hsniff, hlength, -⟩ := lowerNames
  rw [under_policy _ _ _ _ (by decide), under_put_of_ne (by rw [hlength]; decide),
    under_put_of_ne (by rw [hsniff]; decide), under_put_of_ne (by rw [hdisposition]; decide)] at hmem
  unfold keptHeaders at hmem
  dsimp only at hmem
  split_ifs at hmem with hneutralize
  · have hdropped : (droppedHeaders L (contentTypeOf headers)).contains "content-type" = true := by
      simp [droppedHeaders, hneutralize]
    rw [under_put_of_nil htype] at hmem
    · obtain rfl := List.mem_singleton.mp hmem
      have hascii : ("application/octet-stream".toList.all fun c => decide (c.toNat < 128)) = true := by
        decide
      have hbase : baseType L "application/octet-stream".toList = "application/octet-stream".toList := by
        unfold baseType
        have hstrip : strip ("application/octet-stream".toList.takeWhile (· != ';')) =
          "application/octet-stream".toList := by decide
        rw [hstrip, L.lower_ascii _ fun c hc => of_decide_eq_true (List.all_eq_true.mp hascii c hc)]
        decide
      rw [hbase]
      decide
    · unfold under
      rw [List.filter_filter, List.filter_eq_nil_iff]
      intro x _ hx
      rw [Bool.and_eq_true, decide_eq_true_eq] at hx
      rw [hx.1, hdropped] at hx
      exact absurd hx.2 (by decide)
  · obtain ⟨hkept, hname⟩ := List.mem_filter.mp hmem
    obtain ⟨hin, -⟩ := List.mem_filter.mp hkept
    rw [decide_eq_true_eq, hlower h hin] at hname
    by_cases hne : h.2 = []
    · rw [hne, baseType_nil]
      decide
    · have hcontent := contentTypeOf_of_mem headers hnodup (by rw [← hname]; exact hin) hne
      intro hactive
      apply hneutralize
      unfold neutralizeType
      rw [hcontent]
      simpa using hactive

end Secured

/-! ### Bodies -/

/-- A document is rejected, or what is left of it is written. -/
theorem sanitizeSvg_cases {et : ElementTree} {content : Bytes} (hne : content ≠ []) :
    (∃ e, sanitizeSvg L et content = some (.error e)) ∨ ∃ root, et.fromstring content = .ok root ∧
      isDangerous L root.value = false ∧
        sanitizeSvg L et content = some (.ok (et.tostring (root.prune (isKept L) (cleaned L)))) := by
  unfold sanitizeSvg
  rw [if_neg hne]
  cases hparse : et.fromstring content with
  | error e => exact .inl ⟨_, rfl⟩
  | ok root =>
    dsimp only
    cases hroot : isDangerous L root.value with
    | true => exact .inl ⟨_, rfl⟩
    | false =>
      obtain ⟨heap, hwalk, hread⟩ := @walk_load _ (isKept L) (cleaned L) isKept_cleaned
        cleaned_cleaned root (max maxSvgDepth root.height) (Nat.le_max_right _ _)
      rw [if_neg Bool.false_ne_true, sanitizeElement_eq]
      rcases walk_of_limit_le (Nat.le_max_left maxSvgDepth root.height) hwalk with hwalk | hwalk
      · rw [hwalk]
        exact .inl ⟨_, rfl⟩
      · rw [hwalk]
        refine .inr ⟨root, rfl, hroot, ?_⟩
        rw [← hread]
        rfl

theorem harmless_of_sanitizeSvg {et : ElementTree} {content out : Bytes}
    (h : sanitizeSvg L et content = some (.ok out)) (hout : out ≠ []) :
    ∃ root, et.fromstring out = .ok root ∧ ∀ e ∈ root.values, Harmless e := by
  by_cases hne : content = []
  · unfold sanitizeSvg at h
    rw [if_pos hne, hne] at h
    exact absurd (Except.ok.inj (Option.some.inj h)).symm hout
  · rcases @sanitizeSvg_cases L et content hne with ⟨e, he⟩ | ⟨root, hparse, hroot, hsanitize⟩
    · rw [he] at h
      cases h
    · rw [hsanitize] at h
      obtain rfl := Except.ok.inj (Option.some.inj h)
      exact ⟨_, et.round_trip content root _ hparse (partOf_prune root),
        fun e he => harmless_of_mem_prune hroot he⟩

/-- The body and the headers of a download. -/
theorem secureDownload_cases {content : Bytes} {headers : TextFields} {path : Text}
    {upload : Bytes → Option Text → Option Bytes} {secured : Bytes × TextFields}
    (h : (fileGateway L xml upload).secureDownload content headers path = some secured) :
    ∃ isSvg, isSvg = isSvgPayload L xml (filenameFromDownloadPath path) (contentTypeOf headers) content ∧
      secured.2 = (securedHeaders L headers (filenameFromDownloadPath path) isSvg secured.1.length).map
        (fun h => (lowerName h.1, h.2)) ∧
      (isSvg = false → secured.1 = content) ∧
      (isSvg = true → sanitizeSvg L xml.toElementTree content = some (.ok secured.1)) := by
  obtain ⟨outcome, hsecure, hmap⟩ := Option.bind_eq_some_iff.mp h
  obtain ⟨s, hs, rfl⟩ := Option.map_eq_some_iff.mp hmap
  unfold secureFileGatewayDownload at hsecure
  dsimp only at hsecure
  obtain ⟨sanitized, hsanitized, rfl⟩ := Option.map_eq_some_iff.mp hsecure
  cases sanitized with
  | error e => cases hs
  | ok out =>
    obtain rfl := Option.some.inj hs
    refine ⟨_, rfl, rfl, fun hsvg => ?_, fun hsvg => ?_⟩
    · rw [hsvg, if_neg Bool.false_ne_true] at hsanitized
      exact (Except.ok.inj (Option.some.inj hsanitized)).symm
    · rw [hsvg, if_pos rfl] at hsanitized
      unfold sanitizeSvgIfNeeded at hsanitized
      rwa [hsvg, if_neg (by decide)] at hsanitized

/-! ### Answers -/

section Texts

variable {content : Bytes} {status : ℕ} {headers : TextFields} {returned : Returned}

theorem texts_response (h : response content status headers = some returned) {name : String}
    (hname : name ≠ "content-length" ∨ (headers.filter fun h => h.1 = name) ≠ []) :
    texts returned name = (headers.filter fun h => h.1 = name).map Prod.snd := by
  obtain ⟨fields, rfl, rfl⟩ := response_eq_some_iff.mp h
  have hfilter : ((fields.map fun f => (f.1, latin1 f.2)).filter fun h => h.1 = name).map Prod.snd =
      (values fields name).map latin1 := by
    unfold values
    rw [List.filter_map, List.map_map, List.map_map]
    rfl
  have hno : ¬(name = "content-length" ∧ values fields name = [] ∧ isBodiless status = false) := by
    rintro ⟨heq, hnil, -⟩
    rcases hname with hname | hname
    · exact hname heq
    · apply hname
      rw [← List.map_eq_nil_iff (f := Prod.snd), hfilter, hnil]
      rfl
  unfold texts
  dsimp only
  rw [values_withLength, if_neg hno, hfilter]

theorem filter_lowerName (headers : TextFields) (name : String) :
    ((headers.map fun h => (lowerName h.1, h.2)).filter fun h => h.1 = name).map Prod.snd =
      (under name headers).map Prod.snd := by
  unfold under
  rw [List.filter_map, List.map_map]
  rfl

end Texts

theorem lowerName_headerItems {text : Bytes → Text} {fields : Fields}
    (h : ∀ f ∈ fields, lowerName f.1 = f.1) : ∀ x ∈ headerItems text fields, lowerName x.1 = x.1 := by
  intro x hx
  have hfind := find_of_mem nodup_headerItems hx
  rw [find_headerItems] at hfind
  split_ifs at hfind with hnil
  obtain ⟨v, hv⟩ := List.exists_mem_of_ne_nil _ hnil
  exact h (x.1, v) (mem_values.mp hv)

theorem secured_of_response {content : Bytes} {headers : TextFields} {path : Text} {status : ℕ}
    {upload : Bytes → Option Text → Option Bytes} {secured : Bytes × TextFields} {returned : Returned}
    (hnodup : (headers.map Prod.fst).Nodup) (hlower : ∀ h ∈ headers, lowerName h.1 = h.1)
    (hsecured : (fileGateway L xml upload).secureDownload content headers path = some secured)
    (hresponse : response secured.1 status secured.2 = some returned) :
    Secured L xml path (contentTypeOf headers) content returned := by
  obtain ⟨isSvg, hsvg, hheaders, hplain, hsanitize⟩ := secureDownload_cases hsecured
  have hbody : returned.body = secured.1 := by
    obtain ⟨fields, -, rfl⟩ := response_eq_some_iff.mp hresponse
    rfl
  rw [hheaders] at hresponse
  set written := securedHeaders L headers (filenameFromDownloadPath path) isSvg secured.1.length
    with hwritten
  have htexts {name : String} (hname : name ≠ "content-length" ∨ under name written ≠ []) :
      texts returned name = (under name written).map Prod.snd := by
    rw [← filter_lowerName]
    refine texts_response hresponse (hname.imp_right fun hne hnil => hne ?_)
    have hfilter := filter_lowerName written name
    rw [hnil, List.map_nil] at hfilter
    exact List.map_eq_nil_iff.mp hfilter.symm
  exact
    { disposition := by
        refine ⟨_, _, ?_, readDisposition_contentDisposition _, asciiFallback_ne _,
          printable_asciiFallback⟩
        rw [htexts (.inl (by decide)), hwritten, under_disposition]
        rfl
      length := by
        have hlength := @under_length L headers (filenameFromDownloadPath path) isSvg
          secured.1.length
        rw [← hwritten] at hlength
        rw [htexts (.inr (by rw [hlength]; exact List.cons_ne_nil _ _)), hlength, hbody]
        rfl
      nosniff := by
        rw [htexts (.inl (by decide))]
        exact List.mem_map_of_mem (mem_under_nosniff _ _ _ _)
      inert := by
        rw [htexts (.inl (by decide))]
        intro value hvalue
        obtain ⟨x, hx, rfl⟩ := List.mem_map.mp hvalue
        exact inert_of_mem_under _ _ _ _ hnodup hlower hx
      plain := fun hno => by rw [hbody, hplain (hsvg.trans hno)]
      policy := fun hyes => by
        rw [htexts (.inl (by decide)), hwritten, hsvg.trans hyes]
        exact List.mem_map_of_mem (mem_under_policy _ _ _)
      sanitized := fun hyes hne => by
        rw [hbody] at hne ⊢
        exact harmless_of_sanitizeSvg (hsanitize (hsvg.trans hyes)) hne }

def gateway : Service where
  serverName := "file-gateway-api"
  «namespace» := "default"

/-- A download of a file whose name has a quote. -/
def pageDownload : ServiceProxy.Request where
  method := .get
  segments := ["files".toList, "a\".html".toList, "download".toList]
  nonempty := List.cons_ne_nil _ _
  queryParams := []
  headers := []
  body := []

/-- A page, as it was uploaded. -/
def page : Answer identityOnly where
  status := 200
  fields := [("content-type", utf8 "text/html; charset=utf-8".toList)]
  sent := [60, 112, 62]
  entity := [60, 112, 62]
  bodiless h := absurd h (by decide)
  encoded _ := rfl
  length _ v hv := absurd hv List.not_mem_nil
  length_once := by decide

def fewParsers : Xml where
  toElementTree := fewDocuments
  firstStart _ := .nothing

end Ark.FileGateway
