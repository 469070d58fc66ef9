import Ark.ServiceProxy

/-!
# Answers of a service

The headers of an answer are read as texts, joined by name and encoded again. A header comes back as it was
where it is ASCII, or where the headers of the answer were read byte by byte; the entity comes back where
the headers that describe its encoding and its length are also true of it decoded.
-/

namespace Ark.ServiceProxy

open GoBytes KeyedTable UriSegments

/-! ### Texts of headers -/

theorem mapM_eq_some_iff {α β : Type*} {f : α → Option β} {g : β → α}
    (h : ∀ a b, f a = some b ↔ a = g b) {l : List α} {m : List β} : l.mapM f = some m ↔ l = m.map g := by
  induction l generalizing m with
  | nil =>
    rw [List.mapM_nil, eq_comm (a := []), List.map_eq_nil_iff]
    exact ⟨fun h => (Option.some.inj h).symm, fun h => congrArg some h.symm⟩
  | cons a l ih =>
    rw [List.mapM_cons]
    constructor
    · intro hm
      obtain ⟨b, hb, hm⟩ := Option.bind_eq_some_iff.mp hm
      obtain ⟨bs, hbs, hm⟩ := Option.bind_eq_some_iff.mp hm
      obtain rfl := Option.some.inj hm
      rw [List.map_cons, ← (h a b).mp hb, ← ih.mp hbs]
    · intro hm
      cases m with
      | nil => cases hm
      | cons b bs =>
        obtain ⟨ha, hl⟩ := List.cons.inj hm
        rw [(h a b).mpr ha, ih.mpr hl]
        rfl

theorem encodeLatin1_eq_some_iff {t : Text} {b : Bytes} : encodeLatin1 t = some b ↔ t = latin1 b := by
  refine mapM_eq_some_iff fun c x => ?_
  have hx : x.toNat < 256 := x.toNat_lt
  have hchar : (Char.ofNat x.toNat).toNat = x.toNat := by
    rw [Char.ofNat, dif_pos (Or.inl (by omega))]
    rfl
  constructor
  · intro h
    split_ifs at h with hc
    rw [← Option.some.inj h, UInt8.toNat_ofNat_of_lt' hc, Char.ofNat_toNat]
  · rintro rfl
    rw [hchar, if_pos hx, UInt8.ofNat_toNat]

theorem latin1_injective : Function.Injective latin1 := by
  intro b b' h
  have hb := encodeLatin1_eq_some_iff.mpr (rfl : latin1 b = latin1 b)
  rw [h, encodeLatin1_eq_some_iff.mpr rfl] at hb
  exact (Option.some.inj hb).symm

theorem length_latin1 (b : Bytes) : (latin1 b).length = b.length := List.length_map _

theorem latin1_combined (vs : List Bytes) :
    latin1 (combined vs) = ", ".toList.intercalate (vs.map latin1) :=
  map_intercalate _ _ vs

theorem utf8_cons (c : Char) (t : Text) : utf8 (c :: t) = String.utf8EncodeChar c ++ utf8 t :=
  List.flatMap_cons

/-- A character is one ASCII byte or has more than one byte, the first of which is not ASCII. -/
theorem utf8EncodeChar_cases (c : Char) :
    (c.toNat < 128 ∧ String.utf8EncodeChar c = [UInt8.ofNat c.toNat]) ∨
      (1 < (String.utf8EncodeChar c).length ∧ ∃ x ∈ String.utf8EncodeChar c, ¬x < 128) := by
  have hc : c.toNat = c.val.toNat := rfl
  have hlead {n : ℕ} (hn : 128 ≤ n % 256) : ¬UInt8.ofNat n < 128 := by
    rw [UInt8.lt_iff_toNat_lt, UInt8.toNat_ofNat']
    exact Nat.not_lt.mpr hn
  unfold String.utf8EncodeChar
  dsimp only
  rw [hc]
  split_ifs with h1 h2 h3
  · exact Or.inl ⟨by omega, rfl⟩
  all_goals
    refine Or.inr ⟨by simp, _, List.mem_cons_self, hlead ?_⟩
    omega

/-- A text that is as long as its encoding is ASCII, and is read from it byte by byte. -/
theorem ascii_of_length {t : Text} (h : (utf8 t).length ≤ t.length) :
    Ascii (utf8 t) := by
  induction t with
  | nil => exact fun x hx => absurd hx List.not_mem_nil
  | cons c t ih =>
    have hle := length_le_utf8 t
    rw [utf8_cons, List.length_append, List.length_cons] at h
    rcases utf8EncodeChar_cases c with ⟨hc, hone⟩ | ⟨hlong, -⟩
    · rw [utf8_cons, hone]
      rw [hone, List.length_singleton] at h
      intro x hx
      rcases List.mem_cons.mp hx with rfl | hx
      · rw [UInt8.lt_iff_toNat_lt, UInt8.toNat_ofNat']
        exact Nat.lt_of_le_of_lt (Nat.mod_le _ _) hc
      · exact ih (by omega) x hx
    · omega

theorem latin1_utf8 {t : Text} (h : Ascii (utf8 t)) : latin1 (utf8 t) = t := by
  induction t with
  | nil => rfl
  | cons c t ih =>
    rw [utf8_cons] at h ⊢
    obtain ⟨hc, ht⟩ := List.forall_mem_append.mp h
    rcases utf8EncodeChar_cases c with ⟨hlt, hone⟩ | ⟨-, x, hx, hnot⟩
    · have hread : Char.ofNat (UInt8.ofNat c.toNat).toNat = c := by
        rw [UInt8.toNat_ofNat', Nat.mod_eq_of_lt (by omega), Char.ofNat_toNat]
      have ih := ih ht
      unfold latin1 at ih ⊢
      rw [hone, List.singleton_append, List.map_cons, ih, hread]
    · exact absurd (hc x hx) hnot

/-! ### Joined headers -/

section Items

variable {text : Bytes → Text} {name : String} {fields : Fields}

theorem values_append (fields fields' : Fields) :
    values (fields ++ fields') name = values fields name ++ values fields' name := by
  unfold values
  rw [List.filter_append, List.map_append]

theorem values_singleton (f : String × Bytes) :
    values [f] name = if f.1 = name then [f.2] else [] := by
  unfold values
  by_cases h : f.1 = name <;> simp [h]

theorem mem_values {v : Bytes} : v ∈ values fields name ↔ (name, v) ∈ fields := by
  unfold values
  simp

theorem headerItems_append (f : String × Bytes) :
    headerItems text (fields ++ [f]) =
      match find Prod.fst f.1 (headerItems text fields) with
      | some (_, t) => put Prod.fst (f.1, t ++ ", ".toList ++ text f.2) (headerItems text fields)
      | none => put Prod.fst (f.1, text f.2) (headerItems text fields) := by
  unfold headerItems
  rw [List.foldl_append]
  rfl

theorem nodup_headerItems : ((headerItems text fields).map Prod.fst).Nodup := by
  induction fields using List.reverseRecOn with
  | nil => exact List.nodup_nil
  | append_singleton fields f ih =>
    rw [headerItems_append]
    cases find Prod.fst f.1 (headerItems text fields) with
    | none => exact nodup_put ih
    | some item => exact nodup_put ih

/-- An item joins the values of its name. -/
theorem find_headerItems : find Prod.fst name (headerItems text fields) =
    if values fields name = [] then none
    else some (name, ", ".toList.intercalate ((values fields name).map text)) := by
  induction fields using List.reverseRecOn with
  | nil => rfl
  | append_singleton fields f ih =>
    rw [headerItems_append, values_append, values_singleton]
    by_cases hname : f.1 = name
    · rw [if_pos hname, hname]
      rw [if_neg (List.append_ne_nil_of_right_ne_nil _ (List.cons_ne_nil _ _)), List.map_append,
        List.map_singleton]
      by_cases hnil : values fields name = []
      · rw [if_pos hnil] at ih
        rw [ih, hnil]
        have hput := @find_put_self _ _ _ Prod.fst (name, text f.2) (headerItems text fields)
        rw [hput]
        simp
      · rw [if_neg hnil] at ih
        rw [ih, intercalate_concat _ _ (by simpa using hnil)]
        exact @find_put_self _ _ _ Prod.fst (name, _) (headerItems text fields)
    · rw [if_neg hname, List.append_nil, ← ih]
      have hne : name ≠ f.1 := fun h => hname h.symm
      cases find Prod.fst f.1 (headerItems text fields) with
      | none => exact find_put_of_ne hne
      | some item => exact find_put_of_ne hne

/-- Where names are not repeated, a name has the value that is found under it. -/
theorem values_of_nodup (h : (fields.map Prod.fst).Nodup) :
    values fields name = ((find Prod.fst name fields).map Prod.snd).toList := by
  cases hfind : find Prod.fst name fields with
  | none =>
    have hne := find_eq_none.mp hfind
    apply List.eq_nil_iff_forall_not_mem.mpr
    exact fun v hv => hne _ (mem_values.mp hv) rfl
  | some f =>
    obtain rfl := key_of_find hfind
    have hmem := mem_of_find hfind
    clear hfind
    induction fields with
    | nil => cases hmem
    | cons g fields ih =>
      obtain ⟨hg, hnodup⟩ := List.nodup_cons.mp h
      have happ := @values_append f.1 [g] fields
      rw [List.singleton_append, values_singleton] at happ
      rw [happ]
      rcases List.mem_cons.mp hmem with rfl | hmem
      · have hnil : values fields f.1 = [] := by
          apply List.eq_nil_iff_forall_not_mem.mpr
          exact fun v hv => hg (List.mem_map.mpr ⟨(f.1, v), mem_values.mp hv, rfl⟩)
        rw [if_pos rfl, hnil]
        rfl
      · have hne : g.1 ≠ f.1 := fun heq => hg (heq ▸ List.mem_map_of_mem hmem)
        rw [if_neg hne, List.nil_append]
        exact ih hnodup hmem

end Items

/-! ### Returned answers -/

section Returned

variable {codings : Codings} {client : HttpClient} {answer : Answer codings} {returned : Returned}

/-- The headers that are returned, as texts. -/
def returnedItems (client : HttpClient) (fields : Fields) : TextFields :=
  (headerItems (client.headerText fields) fields).filter fun h => h.1 ∉ hopByHopHeaders

theorem response_eq_some_iff {content : Bytes} {status : ℕ} {headers : TextFields} :
    response content status headers = some returned ↔ ∃ fields : Fields,
      headers = fields.map (fun f => (f.1, latin1 f.2)) ∧
        returned =
          { status := status
            fields := withLength content status fields
            body := content } := by
  have hencode (h : String × Text) (f : String × Bytes) :
      ((encodeLatin1 h.2).map fun b => (h.1, b)) = some f ↔ h = (f.1, latin1 f.2) := by
    rw [Option.map_eq_some_iff]
    constructor
    · rintro ⟨b, hb, rfl⟩
      rw [← encodeLatin1_eq_some_iff.mp hb]
    · rintro rfl
      exact ⟨f.2, encodeLatin1_eq_some_iff.mpr rfl, rfl⟩
  unfold response
  rw [Option.map_eq_some_iff]
  constructor
  · rintro ⟨fields, hfields, rfl⟩
    exact ⟨fields, (mapM_eq_some_iff hencode).mp hfields, rfl⟩
  · rintro ⟨fields, hfields, rfl⟩
    exact ⟨fields, (mapM_eq_some_iff hencode).mpr hfields, rfl⟩

/-- The value of an end-to-end header is the join of its values, as far as the text goes. -/
theorem values_of_items {name : String} (hname : endToEnd name) {fields : Fields}
    (h : returnedItems client answer.fields = fields.map (fun f => (f.1, latin1 f.2))) :
    (values answer.fields name = [] → values fields name = []) ∧
      (values answer.fields name ≠ [] → ∃ b, values fields name = [b] ∧
        latin1 b = ", ".toList.intercalate ((values answer.fields name).map
          (client.headerText answer.fields))) := by
  have hnodup : (fields.map Prod.fst).Nodup := by
    have hnames : (returnedItems client answer.fields).map Prod.fst = fields.map Prod.fst := by
      rw [h, List.map_map]
      rfl
    rw [← hnames]
    exact (List.filter_sublist.map Prod.fst).nodup nodup_headerItems
  have hfind : find Prod.fst name (returnedItems client answer.fields) =
      (find Prod.fst name fields).map fun f => (f.1, latin1 f.2) := by
    rw [h]
    exact find_map fun f _ => Iff.rfl
  have hitems : find Prod.fst name (returnedItems client answer.fields) =
      find Prod.fst name (headerItems (client.headerText answer.fields) answer.fields) := by
    unfold returnedItems
    rw [find_filter_key fun k => decide (k ∉ hopByHopHeaders),
      if_pos (decide_eq_true (p := name ∉ hopByHopHeaders) hname)]
  rw [hitems, find_headerItems] at hfind
  rw [values_of_nodup hnodup]
  constructor
  · intro hnil
    rw [if_pos hnil] at hfind
    rw [Option.map_eq_none_iff.mp hfind.symm]
    rfl
  · intro hne
    rw [if_neg hne] at hfind
    obtain ⟨f, hf, heq⟩ := Option.map_eq_some_iff.mp hfind.symm
    rw [hf]
    exact ⟨f.2, rfl, (Prod.mk.inj heq).2⟩

/-- The header that a response adds. -/
theorem values_withLength {name : String} {fields : Fields} {content : Bytes} {status : ℕ} :
    values (withLength content status fields) name =
      if name = "content-length" ∧ values fields name = [] ∧ isBodiless status = false then
        [(decimal content.length).map fun c => UInt8.ofNat c.toNat]
      else values fields name := by
  unfold withLength
  by_cases hname : name = "content-length"
  · subst hname
    by_cases hadd : values fields "content-length" = [] ∧ isBodiless status = false
    · rw [if_pos (by simp [hadd]), if_pos ⟨rfl, hadd⟩, values_append, hadd.1, values_singleton,
        if_pos rfl]
      rfl
    · have hno : ¬("content-length" = "content-length" ∧ values fields "content-length" = [] ∧
          isBodiless status = false) := fun h => hadd h.2
      rw [if_neg (by simpa using hadd), if_neg hno]
  · have hno : ¬(name = "content-length" ∧ values fields name = [] ∧ isBodiless status = false) :=
      fun h => hname h.1
    rw [if_neg hno]
    split_ifs
    · rw [values_append, values_singleton, if_neg (Ne.symm hname), List.append_nil]
    · rfl

/-- What is there already is left. -/
theorem values_withLength_of_ne_nil {name : String} {fields : Fields} {content : Bytes} {status : ℕ}
    (h : values fields name ≠ []) :
    values (withLength content status fields) name = values fields name := by
  rw [values_withLength, if_neg fun hadd => h hadd.2.1]

theorem readLength_decimal (n : ℕ) : readLength ((decimal n).map fun c => UInt8.ofNat c.toNat) = n := by
  have hdigits : latin1 ((decimal n).map fun c => UInt8.ofNat c.toNat) = decimal n := by
    unfold latin1 decimal
    rw [List.map_map]
    conv_rhs => rw [← List.map_id (Nat.toDigits 10 n)]
    apply List.map_congr_left
    intro c hc
    have hlt : c.toNat < 256 := by
      have hdigit := Char.isDigit_iff_toNat.mp (Nat.isDigit_of_mem_toDigits (by decide) (by decide) hc)
      have hnine : '9'.toNat = 57 := rfl
      omega
    change Char.ofNat (UInt8.ofNat c.toNat).toNat = c
    rw [UInt8.toNat_ofNat_of_lt' hlt, Char.ofNat_toNat]
  unfold readLength
  rw [hdigits]
  exact Nat.ofDigitChars_ten_toDigits

/-- The values of end-to-end headers come back joined. -/
def Joined (answer : Answer codings) (fields : Fields) : Prop :=
  ∀ name, endToEnd name → values answer.fields name ≠ [] →
    values fields name = [combined (values answer.fields name)]

/-- A body that is read by the joined headers is the entity. -/
theorem obtained_iff (hstatus : returned.status = answer.status) (hbody : returned.body = answer.entity)
    (hjoined : Joined answer returned.fields)
    (hlength : values answer.fields "content-length" = [] → isBodiless answer.status = false →
      ∀ v ∈ values returned.fields "content-length", readLength v = answer.entity.length)
    (hencoding : values answer.fields "content-encoding" = [] →
      values returned.fields "content-encoding" = []) :
    returned.obtained codings = some answer.entity ↔
      (isBodiless answer.status = false → values answer.fields "content-encoding" ≠ [] →
        codings.read (values answer.fields "content-encoding") answer.entity = some answer.entity ∧
          (values answer.fields "content-length" ≠ [] → answer.sent.length = answer.entity.length)) := by
  unfold Returned.obtained
  rw [hstatus, hbody]
  cases hbodiless : isBodiless answer.status with
  | true => simp [answer.bodiless hbodiless]
  | false =>
    rw [if_neg Bool.false_ne_true]
    have hread : codings.read (values returned.fields "content-encoding") answer.entity =
        codings.read (values answer.fields "content-encoding") answer.entity := by
      by_cases hnil : values answer.fields "content-encoding" = []
      · rw [hnil, hencoding hnil]
      · rw [hjoined _ (by unfold endToEnd; decide) hnil]
        unfold Codings.read
        rw [if_neg (List.cons_ne_nil _ _), if_neg hnil]
        unfold combined
        rw [List.intercalate_singleton]
    have hframed : ((values returned.fields "content-length").all fun v =>
        readLength v == answer.entity.length) = true ↔
          (values answer.fields "content-length" ≠ [] → answer.sent.length = answer.entity.length) := by
      rw [List.all_eq_true]
      simp only [beq_iff_eq]
      cases hvalues : values answer.fields "content-length" with
      | nil => exact iff_of_true (hlength hvalues hbodiless) fun h => absurd rfl h
      | cons v vs =>
        have honce := answer.length_once
        have hlen := answer.length hbodiless v (hvalues ▸ List.mem_cons_self)
        rw [hvalues] at honce
        obtain rfl : vs = [] := List.length_eq_zero_iff.mp (by simpa using honce)
        have hback := hjoined _ (by unfold endToEnd; decide) (hvalues ▸ List.cons_ne_nil v [])
        rw [hvalues] at hback
        rw [hback]
        unfold combined
        rw [List.intercalate_singleton]
        simp [hlen]
    rw [hread]
    by_cases hnil : values answer.fields "content-encoding" = []
    · have hentity := answer.encoded hbodiless
      rw [hnil] at hentity ⊢
      have hsent : answer.sent = answer.entity := Option.some.inj hentity
      rw [if_pos (hframed.mpr fun _ => congrArg List.length hsent)]
      exact iff_of_true rfl fun _ h => absurd rfl h
    · by_cases hlen : values answer.fields "content-length" ≠ [] →
          answer.sent.length = answer.entity.length
      · rw [if_pos (hframed.mpr hlen)]
        exact ⟨fun h _ _ => ⟨h, hlen⟩, fun h => (h rfl hnil).1⟩
      · rw [if_neg fun h => hlen (hframed.mp h)]
        exact iff_of_false (fun h => nomatch h) fun h => hlen (h rfl hnil).2

/-- Where every header is UTF-8, a header beyond ASCII does not come back; in any other case all do. -/
theorem headerText_ascii {f : String × Bytes} (hf : f ∈ answer.fields)
    (hascii : AllUtf8 answer.fields → Ascii f.2) :
    client.headerText answer.fields f.2 = latin1 f.2 := by
  by_cases hall : AllUtf8 answer.fields
  · obtain ⟨t, ht⟩ := hall f hf
    have ht' := hascii hall
    rw [ht] at ht' ⊢
    rw [client.headerText_utf8 _ t hall, latin1_utf8 ht']
  · exact client.headerText_latin1 _ _ hall

/-- A joined header that comes back was ASCII, unless the headers were read byte by byte. -/
theorem ascii_of_joined {vs : List Bytes} (hne : vs ≠ []) (hall : AllUtf8 answer.fields)
    (hvs : ∀ v ∈ vs, ValidUtf8 v)
    (h : latin1 (combined vs) = ", ".toList.intercalate (vs.map (client.headerText answer.fields))) :
    ∀ v ∈ vs, Ascii v := by
  have htext : ∀ v ∈ vs, (client.headerText answer.fields v).length ≤ (id v).length := by
    intro v hv
    obtain ⟨t, rfl⟩ := hvs v hv
    rw [client.headerText_utf8 _ t hall]
    exact length_le_utf8 t
  have hsep : ", ".toList.length = 2 := rfl
  have hbytes : weight 2 vs = (combined vs).length + 2 := weight_intercalate [44, 32] hne
  have htexts := weight_intercalate ", ".toList
    (l := vs.map (client.headerText answer.fields)) (by simpa using hne)
  rw [← h, length_latin1, hsep] at htexts
  intro v hv
  have hlength := length_eq_of_weight (k := 2) htext (by rw [List.map_id]; omega) v hv
  obtain ⟨t, rfl⟩ := hvs v hv
  rw [client.headerText_utf8 _ t hall] at hlength
  exact ascii_of_length (Nat.le_of_eq hlength.symm)

/-- All the end-to-end headers of an answer come back joined exactly where they pass through a text. -/
theorem joined_iff {fields : Fields}
    (h : returnedItems client answer.fields = fields.map (fun f => (f.1, latin1 f.2))) :
    Joined answer fields ↔
      (AllUtf8 answer.fields → ∀ f ∈ answer.fields, endToEnd f.1 → Ascii f.2) := by
  constructor
  · intro hjoined hall f hf hname
    have hmem : f.2 ∈ values answer.fields f.1 := mem_values.mpr hf
    obtain ⟨b, hb, htext⟩ := (values_of_items hname h).2 (List.ne_nil_of_mem hmem)
    rw [hjoined _ hname (List.ne_nil_of_mem hmem)] at hb
    obtain rfl := List.singleton_inj.mp hb
    exact ascii_of_joined (List.ne_nil_of_mem hmem) hall
      (fun v hv => hall _ (mem_values.mp hv)) htext _ hmem
  · intro hascii name hname hne
    obtain ⟨b, hb, htext⟩ := (values_of_items hname h).2 hne
    have hlatin1 : ∀ v ∈ values answer.fields name, client.headerText answer.fields v = latin1 v :=
      fun v hv => headerText_ascii (mem_values.mp hv) fun hall => hascii hall _ (mem_values.mp hv) hname
    rw [List.map_congr_left hlatin1, ← latin1_combined] at htext
    rw [hb, latin1_injective htext]

/-- Where they pass through a text, they can be encoded again. -/
theorem exists_fields (hascii : AllUtf8 answer.fields → ∀ f ∈ answer.fields, endToEnd f.1 → Ascii f.2) :
    ∃ fields : Fields, returnedItems client answer.fields = fields.map (fun f => (f.1, latin1 f.2)) := by
  refine ⟨(returnedItems client answer.fields).map fun h =>
    (h.1, combined (values answer.fields h.1)), ?_⟩
  rw [List.map_map]
  conv_lhs => rw [← List.map_id (returnedItems client answer.fields)]
  apply List.map_congr_left
  intro item hitem
  obtain ⟨hitem, hname⟩ := List.mem_filter.mp hitem
  have hfind := find_of_mem nodup_headerItems hitem
  rw [find_headerItems] at hfind
  split_ifs at hfind
  have htext : ∀ v ∈ values answer.fields item.1, client.headerText answer.fields v = latin1 v :=
    fun v hv => headerText_ascii (mem_values.mp hv) fun hall =>
      hascii hall _ (mem_values.mp hv) (of_decide_eq_true (p := item.1 ∉ hopByHopHeaders) hname)
  rw [List.map_congr_left htext, ← latin1_combined] at hfind
  exact (Option.some.inj hfind).symm

theorem view_of_joined {fields : Fields} (hjoined : Joined answer fields)
    (hcookies : (values answer.fields "set-cookie").length ≤ 1) {name : String} (hname : endToEnd name)
    (hne : values answer.fields name ≠ []) {content : Bytes} {status : ℕ} :
    view (withLength content status fields) name = view answer.fields name := by
  have hback := hjoined name hname hne
  unfold view
  rw [values_withLength_of_ne_nil (hback ▸ List.cons_ne_nil _ _), hback]
  by_cases hcookie : name = "set-cookie"
  · subst hcookie
    rw [if_pos rfl, if_pos rfl]
    cases hvalues : values answer.fields "set-cookie" with
    | nil => exact absurd hvalues hne
    | cons v vs =>
      rw [hvalues] at hcookies
      obtain rfl : vs = [] := List.length_eq_zero_iff.mp (by simpa using hcookies)
      unfold combined
      rw [List.intercalate_singleton]
  · rw [if_neg hcookie, if_neg hcookie, if_neg (List.cons_ne_nil _ _), if_neg hne]
    unfold combined
    rw [List.intercalate_singleton]

section

variable {fields : Fields}
  (hitems : returnedItems client answer.fields = fields.map (fun f => (f.1, latin1 f.2)))
include hitems

/-- The entity comes back exactly where it may be read by the headers. -/
theorem entity_iff (hjoined : Joined answer fields) :
    Returned.obtained codings
        { status := answer.status
          fields := withLength answer.entity answer.status fields
          body := answer.entity } = some answer.entity ↔
      (isBodiless answer.status = false → values answer.fields "content-encoding" ≠ [] →
        codings.read (values answer.fields "content-encoding") answer.entity = some answer.entity ∧
          (values answer.fields "content-length" ≠ [] → answer.sent.length = answer.entity.length)) := by
  refine obtained_iff rfl rfl ?_ ?_ ?_
  · intro name hname hne
    have hback := hjoined name hname hne
    exact (values_withLength_of_ne_nil (hback ▸ List.cons_ne_nil _ _)).trans hback
  · intro hnil hbodiless v hv
    have hfields := (values_of_items (by unfold endToEnd; decide) hitems).1 hnil
    rw [values_withLength, if_pos ⟨rfl, hfields, hbodiless⟩] at hv
    rw [List.mem_singleton.mp hv, readLength_decimal]
  · intro hnil
    rw [values_withLength, if_neg fun h => absurd h.1 (by decide)]
    exact (values_of_items (by unfold endToEnd; decide) hitems).1 hnil

/-- Where a client sees a header as before, its values were joined, and those of a cookie were one. -/
theorem joined_of_view {name : String} (hname : endToEnd name) (hne : values answer.fields name ≠ [])
    {content : Bytes} {status : ℕ}
    (hview : view (withLength content status fields) name = view answer.fields name) :
    values fields name = [combined (values answer.fields name)] ∧
      (name = "set-cookie" → (values answer.fields name).length = 1) := by
  obtain ⟨b, hb, -⟩ := (values_of_items hname hitems).2 hne
  unfold view at hview
  rw [values_withLength_of_ne_nil (hb ▸ List.cons_ne_nil _ _), hb] at hview
  by_cases hcookie : name = "set-cookie"
  · rw [if_pos hcookie, if_pos hcookie] at hview
    rw [hb, ← hview]
    unfold combined
    rw [List.intercalate_singleton]
    exact ⟨rfl, fun _ => rfl⟩
  · rw [if_neg hcookie, if_neg hcookie, if_neg (List.cons_ne_nil _ _), if_neg hne] at hview
    unfold combined at hview ⊢
    rw [List.intercalate_singleton] at hview
    rw [hb, hview]
    exact ⟨rfl, fun h => absurd h hcookie⟩

end

/-- An answer is returned as it is exactly where it is plain. -/
theorem returned_iff {gateway : FileGateway} {service : Service} {request : Request}
    (hdownload : isFileGatewayDownload service.serverName request.method request.path = false) :
    (∃ returned, proxyResponse client gateway service request answer = some returned ∧
      answer.ReturnedAs returned) ↔ answer.Plain := by
  unfold proxyResponse
  rw [hdownload, Bool.and_false, if_neg Bool.false_ne_true]
  change (∃ returned, response answer.entity answer.status (returnedItems client answer.fields) =
    some returned ∧ answer.ReturnedAs returned) ↔ answer.Plain
  simp only [response_eq_some_iff]
  constructor
  · rintro ⟨returned, ⟨fields, hitems, rfl⟩, hreturned⟩
    have hback {name : String} (hname : endToEnd name) (hne : values answer.fields name ≠ []) :=
      joined_of_view hitems hname hne (hreturned.headers name hname hne)
    have hjoined : Joined answer fields := fun name hname hne => (hback hname hne).1
    refine ⟨(entity_iff hitems hjoined).mp hreturned.entity, ?_, (joined_iff hitems).mp hjoined⟩
    by_cases hnil : values answer.fields "set-cookie" = []
    · rw [hnil]
      exact Nat.zero_le 1
    · exact Nat.le_of_eq ((hback (by unfold endToEnd; decide) hnil).2 rfl)
  · intro h
    obtain ⟨fields, hitems⟩ := @exists_fields _ client _ h.ascii
    have hjoined := (joined_iff hitems).mpr h.ascii
    exact ⟨_, ⟨fields, hitems, rfl⟩, (entity_iff hitems hjoined).mpr h.coding,
      fun name hname hne => view_of_joined hjoined h.cookies hname hne⟩

end Returned

/-- The proxy is transparent to exactly the plain requests and answers. -/
theorem proxy_transparent_iff {codings : Codings} (client : HttpClient) (gateway : FileGateway)
    (service : Service) (request : Request) (answer : Answer codings)
    (hupload : isFileGatewayUpload service.serverName request.method request.path = false)
    (hdownload : isFileGatewayDownload service.serverName request.method request.path = false) :
    Transparent client gateway service request answer ↔
      request.Plain client service ∧ answer.Plain := by
  unfold Transparent
  rw [forwarded_iff hupload, returned_iff hdownload]

/-! ### A client -/

def decodeUtf8 (b : Bytes) : Option Text := b.toByteArray.utf8Decode?.map Array.toList

theorem decodeUtf8_utf8 (t : Text) : decodeUtf8 (utf8 t) = some t := by
  have hbytes : (utf8 t).toByteArray = t.utf8Encode := rfl
  unfold decodeUtf8
  rw [hbytes, List.utf8Decode?_utf8Encode]
  rfl

theorem isSome_decodeUtf8_iff {b : Bytes} : (decodeUtf8 b).isSome = true ↔ ValidUtf8 b := by
  constructor
  · intro h
    unfold decodeUtf8 at h
    rw [Option.isSome_map, ByteArray.isSome_utf8Decode?_iff] at h
    obtain ⟨t, ht⟩ := h
    exact ⟨t, List.toByteArray_inj.mp ht⟩
  · rintro ⟨t, rfl⟩
    rw [decodeUtf8_utf8]
    rfl

/-- The text of a header among others. -/
def readHeader (fields : Fields) (b : Bytes) : Text :=
  if fields.all fun f => (decodeUtf8 f.2).isSome then (decodeUtf8 b).getD [] else latin1 b

theorem allUtf8_iff {fields : Fields} :
    (fields.all fun f => (decodeUtf8 f.2).isSome) = true ↔ AllUtf8 fields := by
  rw [List.all_eq_true]
  exact forall₂_congr fun f _ => isSome_decodeUtf8_iff

/-- A client that takes every address, and no other query than its parameters. -/
def plainClient : HttpClient where
  accepts _ := true
  dots := popping
  query _ params := params.getD []
  query_params _ _ _ := rfl
  query_none _ _ := rfl
  headerText := readHeader
  headerText_utf8 fields t h := by
    unfold readHeader
    rw [if_pos (allUtf8_iff.mpr h), decodeUtf8_utf8]
    rfl
  headerText_latin1 fields b h := by
    unfold readHeader
    rw [if_neg fun hall => h (allUtf8_iff.mp hall)]

def openGateway : FileGateway where
  sanitizeUpload body _ := some body
  secureDownload content headers _ := some (content, headers)

def catalog : Service where
  serverName := "catalog"
  «namespace» := "default"

/-- Bodies that are only sent unencoded. -/
def identityOnly : Codings where
  decode encoding body := if encoding = utf8 "identity".toList then some body else none

def listed (params : Params) : Request where
  method := .get
  segments := ["v1".toList, "p q".toList]
  nonempty := List.cons_ne_nil _ _
  queryParams := params
  headers := [("accept", "*/*".toList), ("host", "ark".toList)]
  body := []

def counted : Answer identityOnly where
  status := 200
  fields := [("content-length", [50]), ("vary", [97]), ("vary", [98]), ("connection", [99])]
  sent := [104, 105]
  entity := [104, 105]
  bodiless h := absurd h (by decide)
  encoded _ := rfl
  length _ v hv := by
    obtain rfl := List.mem_singleton.mp hv
    rfl
  length_once := by decide

theorem plain_listed (params : Params) : ∀ s ∈ (listed params).segments, UriSegments.Plain s := by
  intro s hs
  rcases List.mem_cons.mp hs with rfl | hs
  · exact ⟨by decide, by decide, by decide, by unfold IsDot; decide, by decide⟩
  · obtain rfl := List.mem_singleton.mp hs
    exact ⟨by decide, by decide, by decide, by unfold IsDot; decide, by decide⟩

theorem ascii_counted : ∀ f ∈ counted.fields, Ascii f.2 := by
  have hall : (counted.fields.all fun f => f.2.all fun x => decide (x < 128)) = true := by decide
  intro f hf x hx
  exact of_decide_eq_true (List.all_eq_true.mp (List.all_eq_true.mp hall f hf) x hx)

theorem proxy_transparent_iff_listed :
    isFileGatewayUpload catalog.serverName (listed [("a", "1"), ("b", "2")]).method
        (listed [("a", "1"), ("b", "2")]).path = false ∧
      isFileGatewayDownload catalog.serverName (listed [("a", "1"), ("b", "2")]).method
          (listed [("a", "1"), ("b", "2")]).path = false ∧
        Transparent plainClient openGateway catalog (listed [("a", "1"), ("b", "2")]) counted :=
  ⟨by decide, by decide,
    (proxy_transparent_iff plainClient openGateway catalog (listed [("a", "1"), ("b", "2")]) counted
      (by decide) (by decide)).mpr
      ⟨⟨rfl, plain_listed _, by decide⟩,
        ⟨fun _ h => absurd rfl h, by decide, fun _ f hf _ => ascii_counted f hf⟩⟩⟩

/-- A repeated parameter is forwarded once. -/
theorem repeated_param_dropped :
    ∃ sent, proxyServerPath plainClient openGateway catalog (listed [("a", "1"), ("a", "2")]) = some sent ∧
      sent.params = [("a", "2")] ∧
        ¬Transparent plainClient openGateway catalog (listed [("a", "1"), ("a", "2")]) counted := by
  refine ⟨_, rfl, rfl, ?_⟩
  rintro ⟨⟨sent, hsome, hsent⟩, -⟩
  obtain rfl := Option.some.inj hsome
  exact absurd hsent.params (by decide)

end Ark.ServiceProxy
