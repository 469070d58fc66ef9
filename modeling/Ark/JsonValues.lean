import Ark.GoJson

/-!
# JSON values

The value of a document: of the members of an object with one key the last counts, their order does
not, and a number counts as the number that it denotes. `canonical` writes a document as `json.Marshal`
writes what was read from it, `SameValue` compares two documents by their values.
-/

namespace GoJson

open Json

/-! ### The order of the keys -/

theorem before_irrefl (k : Text) : before k k = false := by
  induction k with
  | nil => rfl
  | cons c k ih =>
    have hc : ¬ Nat.blt c c = true := by
      rw [Nat.blt_eq]
      exact Nat.lt_irrefl c
    rw [before, Bool.eq_false_iff.mpr hc, ih, Bool.and_false, Bool.or_false]

theorem before_trans {a b c : Text} (hab : before a b = true) (hbc : before b c = true) :
    before a c = true := by
  induction a generalizing b c with
  | nil =>
    cases c with
    | nil => cases b <;> exact hbc
    | cons => rfl
  | cons x a ih =>
    cases b with
    | nil => cases hab
    | cons y b =>
      cases c with
      | nil => cases hbc
      | cons z c =>
        simp only [before, Bool.or_eq_true, Nat.blt_eq, Bool.and_eq_true, beq_iff_eq] at hab hbc ⊢
        rcases hab with hxy | ⟨rfl, hab⟩
        · rcases hbc with hyz | ⟨rfl, -⟩
          · exact .inl (Nat.lt_trans hxy hyz)
          · exact .inl hxy
        · rcases hbc with hyz | ⟨rfl, hbc⟩
          · exact .inl hyz
          · exact .inr ⟨rfl, ih hab hbc⟩

theorem before_total {a b : Text} (hne : a ≠ b) (h : before a b = false) : before b a = true := by
  induction a generalizing b with
  | nil =>
    cases b with
    | nil => exact absurd rfl hne
    | cons => cases h
  | cons x a ih =>
    cases b with
    | nil => rfl
    | cons y b =>
      simp only [before, Bool.or_eq_false_iff, Bool.and_eq_false_iff, Bool.or_eq_true, Nat.blt_eq,
        Bool.and_eq_true, beq_iff_eq] at h ⊢
      obtain ⟨hlt, hrest⟩ := h
      have hle : ¬ x < y := fun hxy => by rw [Nat.blt_eq.mpr hxy] at hlt; cases hlt
      by_cases hxy : x = y
      · subst hxy
        refine .inr ⟨rfl, ih (fun hab => hne (congrArg _ hab)) ?_⟩
        exact hrest.resolve_left (by simp)
      · exact .inl (by omega)

/-- The keys stand in the order in which they are written, each once. -/
def Ordered (fields : List (Text × Value)) : Prop :=
  (fields.map Prod.fst).Pairwise fun k k' => before k k' = true

theorem assign_last {k : Text} {v : Value} {fields : List (Text × Value)}
    (h : ∀ f ∈ fields, before f.1 k = true) : assign k v fields = fields ++ [(k, v)] := by
  induction fields with
  | nil => rfl
  | cons f fields ih =>
    rw [List.forall_mem_cons] at h
    have hne : f.1 ≠ k := by
      intro heq
      rw [heq, before_irrefl] at h
      exact Bool.false_ne_true h.1
    have hnot : ¬ before k f.1 = true := by
      intro hkf
      have hkk := before_trans hkf h.1
      rw [before_irrefl] at hkk
      cases hkk
    rw [assign, if_neg hne, if_neg hnot, ih h.2, List.cons_append]

theorem before_assign {k k' : Text} {v : Value} {fields : List (Text × Value)}
    (hk : before k' k = true) (h : ∀ f ∈ fields, before k' f.1 = true) :
    ∀ f ∈ assign k v fields, before k' f.1 = true := by
  induction fields with
  | nil => exact List.forall_mem_singleton.mpr hk
  | cons f fields ih =>
    rw [List.forall_mem_cons] at h
    rw [assign]
    split
    · exact List.forall_mem_cons.mpr ⟨hk, h.2⟩
    · split
      · exact List.forall_mem_cons.mpr ⟨hk, List.forall_mem_cons.mpr h⟩
      · exact List.forall_mem_cons.mpr ⟨h.1, ih h.2⟩

theorem ordered_cons {f : Text × Value} {fields : List (Text × Value)} :
    Ordered (f :: fields) ↔ (∀ g ∈ fields, before f.1 g.1 = true) ∧ Ordered fields := by
  rw [Ordered, List.map_cons, List.pairwise_cons, List.forall_mem_map, Ordered]

theorem Ordered.assign {k : Text} {v : Value} {fields : List (Text × Value)}
    (h : Ordered fields) : Ordered (assign k v fields) := by
  induction fields with
  | nil => exact List.pairwise_singleton _ _
  | cons f fields ih =>
    obtain ⟨hf, hfields⟩ := ordered_cons.mp h
    rw [GoJson.assign]
    split
    next heq => exact ordered_cons.mpr ⟨heq ▸ hf, hfields⟩
    next hne =>
      split
      next hbefore =>
        refine ordered_cons.mpr ⟨List.forall_mem_cons.mpr ⟨hbefore, fun g hg => ?_⟩, h⟩
        exact before_trans hbefore (hf g hg)
      next hbefore =>
        refine ordered_cons.mpr ⟨?_, ih hfields⟩
        exact before_assign (before_total (Ne.symm hne) (Bool.eq_false_iff.mpr hbefore)) hf

theorem Ordered.decodeFields {float64 : Numeral → Numeral} {fields m : List (Text × Value)}
    (h : Ordered m) : Ordered (decodeFields float64 fields m) := by
  induction fields generalizing m with
  | nil => exact h
  | cons f fields ih => exact ih h.assign

/-! ### Canonical documents -/

/-- The document that is written of what was read, with every numeral as it stands. -/
def canonical (v : Value) : Value := decode (fun n => n) v

theorem mem_assign {k : Text} {v : Value} {fields : List (Text × Value)} {f : Text × Value}
    (h : f ∈ assign k v fields) : f = (k, v) ∨ f ∈ fields := by
  induction fields with
  | nil => exact .inl (List.mem_singleton.mp h)
  | cons g fields ih =>
    rw [assign] at h
    split at h
    · exact (List.mem_cons.mp h).imp_right (List.mem_cons_of_mem g)
    · split at h
      · exact List.mem_cons.mp h
      · rcases List.mem_cons.mp h with rfl | h
        · exact .inr List.mem_cons_self
        · exact (ih h).imp_right (List.mem_cons_of_mem g)

theorem mem_decodeFields {float64 : Numeral → Numeral} {fields m : List (Text × Value)}
    {g : Text × Value} (h : g ∈ decodeFields float64 fields m) :
    g ∈ m ∨ ∃ f ∈ fields, g = decodeField float64 f := by
  induction fields generalizing m with
  | nil => exact .inl h
  | cons f fields ih =>
    rcases ih h with hg | ⟨f', hf', rfl⟩
    · rcases mem_assign hg with rfl | hg
      · exact .inr ⟨f, List.mem_cons_self, rfl⟩
      · exact .inl hg
    · exact .inr ⟨f', List.mem_cons_of_mem f hf', rfl⟩

/-- Fields that stand in order and are canonical themselves are read as they are. -/
theorem decodeFields_of_ordered {fields m : List (Text × Value)} (hordered : Ordered (m ++ fields))
    (hfields : ∀ f ∈ fields, decodeField (fun n => n) f = f) :
    decodeFields (fun n => n) fields m = m ++ fields := by
  induction fields generalizing m with
  | nil => exact (List.append_nil m).symm
  | cons f fields ih =>
    rw [List.forall_mem_cons] at hfields
    have hlast : ∀ g ∈ m, before g.1 f.1 = true := by
      intro g hg
      rw [Ordered, List.map_append, List.pairwise_append] at hordered
      exact hordered.2.2 g.1 (List.mem_map_of_mem hg) f.1 (List.mem_map_of_mem List.mem_cons_self)
    rw [decodeFields, hfields.1, assign_last hlast, ih ?_ hfields.2, List.append_assoc,
      List.singleton_append]
    rw [List.append_assoc, List.singleton_append]
    exact hordered

theorem decodeItems_eq (float64 : Numeral → Numeral) (items : List Value) :
    decodeItems float64 items = items.map (decode float64) := by
  induction items with
  | nil => rfl
  | cons v items ih => rw [decodeItems, ih, List.map_cons]

theorem runes_runes (t : Text) : runes (runes t) = runes t := runes_of_valid (isValidChar_runes t)

/-- A canonical document is read as it is. -/
theorem canonical_canonical (v : Value) : canonical (canonical v) = canonical v := by
  induction v using Value.induction with
  | null | bool | num => rfl
  | str s => exact congrArg Value.str (runes_runes s)
  | arr items ih =>
    simp only [canonical, decode, decodeItems_eq, List.map_map, Value.arr.injEq]
    exact List.map_congr_left ih
  | obj fields ih =>
    refine congrArg Value.obj (decodeFields_of_ordered (m := []) ?_ ?_)
    · exact Ordered.decodeFields List.Pairwise.nil
    · intro g hg
      rcases mem_decodeFields hg with hg | ⟨⟨k, v⟩, hf, rfl⟩
      · cases hg
      · exact Prod.ext (runes_runes k) (ih (k, v) hf)

/-! ### Numbers -/

mutual

/-- The document with something else in the place of each numeral. -/
def substNum (h : Numeral → Value) : Value → Value
  | .null => .null
  | .bool b => .bool b
  | .num n => h n
  | .str s => .str s
  | .arr items => .arr (substItems h items)
  | .obj fields => .obj (substFields h fields)

def substItems (h : Numeral → Value) : List Value → List Value
  | [] => []
  | v :: items => substNum h v :: substItems h items

def substField (h : Numeral → Value) : Text × Value → Text × Value
  | (k, v) => (k, substNum h v)

def substFields (h : Numeral → Value) : List (Text × Value) → List (Text × Value)
  | [] => []
  | f :: fields => substField h f :: substFields h fields

end

theorem substItems_eq (h : Numeral → Value) (items : List Value) :
    substItems h items = items.map (substNum h) := by
  induction items with
  | nil => rfl
  | cons v items ih => rw [substItems, ih, List.map_cons]

theorem substFields_eq (h : Numeral → Value) (fields : List (Text × Value)) :
    substFields h fields = fields.map (substField h) := by
  induction fields with
  | nil => rfl
  | cons f fields ih => rw [substFields, ih, List.map_cons]

theorem assign_subst (h : Numeral → Value) (k : Text) (v : Value) (fields : List (Text × Value)) :
    assign k (substNum h v) (substFields h fields) = substFields h (assign k v fields) := by
  induction fields with
  | nil => rfl
  | cons f fields ih =>
    obtain ⟨k', v'⟩ := f
    rw [substFields, substField, assign, assign]
    split
    · rfl
    · split
      · rfl
      · rw [ih, substFields, substField]

theorem decodeFields_subst {h : Numeral → Value} {fields m : List (Text × Value)}
    (ih : ∀ f ∈ fields, canonical (substNum h f.2) = substNum h (canonical f.2)) :
    decodeFields (fun n => n) (substFields h fields) (substFields h m) =
      substFields h (decodeFields (fun n => n) fields m) := by
  induction fields generalizing m with
  | nil => rfl
  | cons f fields ih' =>
    rw [List.forall_mem_cons] at ih
    obtain ⟨k, v⟩ := f
    have hv : decode (fun n => n) (substNum h v) = substNum h (decode (fun n => n) v) := ih.1
    rw [substFields, substField, decodeFields, decodeFields, decodeField, decodeField, hv,
      assign_subst, ih' ih.2]

theorem canonical_subst {h : Numeral → Value} (hnum : ∀ n, canonical (h n) = h n) (v : Value) :
    canonical (substNum h v) = substNum h (canonical v) := by
  induction v using Value.induction with
  | null | bool | str => rfl
  | num n => exact hnum n
  | arr items ih =>
    simp only [canonical, substNum, substItems_eq, decode, decodeItems_eq, List.map_map,
      Value.arr.injEq]
    exact List.map_congr_left ih
  | obj fields ih => exact congrArg Value.obj (decodeFields_subst (m := []) ih)

/-! ### Equal values -/

/-- The documents stand for the same JSON value. -/
def SameValue (v w : Value) : Prop := Same (canonical v) (canonical w)

theorem SameValue.refl (v : Value) : SameValue v v := ⟨rfl, rfl⟩

theorem SameValue.symm {v w : Value} (h : SameValue v w) : SameValue w v := ⟨h.1.symm, h.2.symm⟩

theorem SameValue.trans {u v w : Value} (h : SameValue u v) (h' : SameValue v w) :
    SameValue u w := ⟨h.1.trans h'.1, h.2.trans h'.2⟩

theorem sameValue_canonical (v : Value) : SameValue (canonical v) v := by
  rw [SameValue, canonical_canonical]
  exact ⟨rfl, rfl⟩

/-- The numeral that stands in the place of another one. -/
def numeralFor (h : Numeral → Value) (n : Numeral) : Numeral :=
  match h n with
  | .num m => m
  | _ => n

theorem forall_numeralsOfItems {items : List Value} {P : Numeral → Prop} :
    (∀ n ∈ numeralsOfItems items, P n) ↔ ∀ v ∈ items, ∀ n ∈ numerals v, P n := by
  induction items with
  | nil => simp [numeralsOfItems]
  | cons v items ih => rw [numeralsOfItems, List.forall_mem_append, ih, List.forall_mem_cons]

theorem forall_numeralsOfFields {fields : List (Text × Value)} {P : Numeral → Prop} :
    (∀ n ∈ numeralsOfFields fields, P n) ↔ ∀ f ∈ fields, ∀ n ∈ numerals f.2, P n := by
  induction fields with
  | nil => simp [numeralsOfFields]
  | cons f fields ih => rw [numeralsOfFields, List.forall_mem_append, ih, List.forall_mem_cons,
      numeralsOfField]

/-- A document of the same form has a numeral in every place of one. -/
theorem exists_num_of_mapNum {h : Numeral → Value} {g : Numeral → Numeral} {v : Value}
    (heq : mapNum g (substNum h v) = mapNum g v) : ∀ n ∈ numerals v, ∃ m, h n = .num m := by
  induction v using Value.induction with
  | null | bool | str => exact fun n hn => absurd hn List.not_mem_nil
  | num n =>
    intro n' hn'
    obtain rfl := List.mem_singleton.mp hn'
    rw [substNum] at heq
    cases hn : h n' with
    | num m => exact ⟨m, rfl⟩
    | _ => rw [hn] at heq; cases heq
  | arr items ih =>
    rw [numerals, forall_numeralsOfItems]
    simp only [substNum, substItems_eq, mapNum, mapNumItems_eq, List.map_map, Value.arr.injEq,
      List.map_inj_left] at heq
    exact fun v hv => ih v hv (heq v hv)
  | obj fields ih =>
    rw [numerals, forall_numeralsOfFields]
    simp only [substNum, substFields_eq, mapNum, mapNumFields_eq, List.map_map, Value.obj.injEq,
      List.map_inj_left] at heq
    rintro ⟨k, v⟩ hf
    exact ih (k, v) hf (congrArg Prod.snd (heq (k, v) hf))

theorem substNum_eq_mapNum {h : Numeral → Value} {v : Value}
    (hnum : ∀ n ∈ numerals v, ∃ m, h n = .num m) : substNum h v = mapNum (numeralFor h) v := by
  induction v using Value.induction with
  | null | bool | str => rfl
  | num n =>
    obtain ⟨m, hm⟩ := hnum n (List.mem_singleton_self n)
    rw [substNum, mapNum, numeralFor, hm]
  | arr items ih =>
    rw [numerals, forall_numeralsOfItems] at hnum
    rw [substNum, substItems_eq, mapNum, mapNumItems_eq, Value.arr.injEq]
    exact List.map_congr_left fun v hv => ih v hv (hnum v hv)
  | obj fields ih =>
    rw [numerals, forall_numeralsOfFields] at hnum
    rw [substNum, substFields_eq, mapNum, mapNumFields_eq, Value.obj.injEq]
    apply List.map_congr_left
    rintro ⟨k, v⟩ hf
    exact Prod.ext rfl (ih (k, v) hf (hnum (k, v) hf))

/-- Replacing the numerals keeps the value if and only if each is replaced by one of the same number. -/
theorem same_substNum_iff {h : Numeral → Value} {v : Value} : Same (substNum h v) v ↔
    ∀ n ∈ numerals v, ∃ m, h n = .num m ∧ number m.1 = number n.1 := by
  constructor
  · intro hsame
    have hnum := exists_num_of_mapNum hsame.1
    rw [substNum_eq_mapNum hnum, same_mapNum_iff] at hsame
    intro n hn
    obtain ⟨m, hm⟩ := hnum n hn
    have hvalue := hsame n hn
    rw [numeralFor, hm] at hvalue
    exact ⟨m, hm, hvalue⟩
  · intro hall
    have hnum : ∀ n ∈ numerals v, ∃ m, h n = .num m := by
      intro n hn
      obtain ⟨m, hm, -⟩ := hall n hn
      exact ⟨m, hm⟩
    rw [substNum_eq_mapNum hnum, same_mapNum_iff]
    intro n hn
    obtain ⟨m, hm, hvalue⟩ := hall n hn
    rw [numeralFor, hm]
    exact hvalue

theorem forall_numerals_of_same {v w : Value} {P : Rat → Prop} (h : Same v w) :
    (∀ n ∈ numerals v, P (number n.1)) ↔ ∀ n ∈ numerals w, P (number n.1) := by
  rw [← List.forall_mem_map (f := fun n : Numeral => number n.1), h.2, List.forall_mem_map]

/-! ### Reading into an `interface{}` -/

/-- What is written of a numeral after it was read: a number out of range stays nil. -/
def rewritten (float64 : Rat → Option Numeral) (n : Numeral) : Value :=
  (float64 (number n.1)).elim .null .num

/-- What `json.Marshal` writes of the `interface{}` that `json.Unmarshal` has filled, also when it reports a
number that is out of range. -/
def reread (float64 : Rat → Option Numeral) (v : Value) : Value :=
  substNum (rewritten float64) (canonical v)

/-- A number is written as one that is the same. -/
def Kept (float64 : Rat → Option Numeral) (q : Rat) : Prop :=
  ∃ m, float64 q = some m ∧ number m.1 = q

theorem canonical_rewritten (float64 : Rat → Option Numeral) (n : Numeral) :
    canonical (rewritten float64 n) = rewritten float64 n := by
  unfold rewritten
  cases float64 (number n.1) <;> rfl

/-- A document with the value of `v` is read and written with the value of `v` if and only if the numbers in
`v` are kept. -/
theorem sameValue_reread_iff {float64 : Rat → Option Numeral} {v w : Value} (hw : SameValue w v) :
    SameValue (reread float64 w) v ↔ ∀ n ∈ numerals (canonical v), Kept float64 (number n.1) := by
  have hsame : SameValue (reread float64 w) v ↔ SameValue (reread float64 w) w :=
    ⟨fun h => h.trans hw.symm, fun h => h.trans hw⟩
  rw [hsame, SameValue, reread, canonical_subst (canonical_rewritten float64), canonical_canonical,
    same_substNum_iff, ← forall_numerals_of_same hw]
  refine forall₂_congr fun n _ => ?_
  unfold rewritten Kept
  cases float64 (number n.1) with
  | none => simp
  | some m => simp

end GoJson
