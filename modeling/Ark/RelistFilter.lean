import Ark.Watcher

/-!
# The text of a watcher's relist

`buildRelistQuery` composes a `WHERE` clause with numbered placeholders and, beside it, the list of
values bound to them. Here the clause keeps its placeholders and is evaluated under the bound
values in three-valued logic, and compared with `matchesWatcher`. The parsers of apimachinery are
parameters: they return the requirements of a selector or an error text.
-/

namespace Ark

open Selector (Operator Requirement sqlAnd sqlOr sqlAnd_eq_true)

/-! ### Parsing the selectors -/

/-- A requirement of a `fields.Selector`. -/
structure FieldRequirement where
  operator : Operator
  field : String
  value : String
  deriving DecidableEq, Repr

/-- The causes of `storage.ErrInvalidRequest` met while parsing selectors. -/
inductive InvalidRequest
  | labelSelector (selector error : String)
  | fieldSelector (selector error : String)
  | unsupportedField (field : String)
  | unsupportedOperator (operator : Operator)
  deriving DecidableEq, Repr

def supportedFieldColumns (field : String) : Option FieldColumn :=
  if field = "metadata.name" then some .name
  else if field = "metadata.namespace" then some .namespace
  else none

def supportedFieldOps : Operator → Option FieldOp
  | .equals | .doubleEquals => some .eq
  | .notEquals => some .ne
  | _ => none

/-- The loop body of `parseFieldSelector`. -/
def FieldRequirement.predicate (req : FieldRequirement) : Except InvalidRequest FieldPredicate :=
  match supportedFieldColumns req.field with
  | none => .error (.unsupportedField req.field)
  | some column =>
    match supportedFieldOps req.operator with
    | none => .error (.unsupportedOperator req.operator)
    | some op => .ok ⟨column, op, req.value⟩

section Parsers

variable (parseLabels : String → Except String (List Requirement))
  (parseFields : String → Except String (List FieldRequirement))

def parseFieldSelector (selector : String) : Except InvalidRequest (List FieldPredicate) :=
  if selector = "" then .ok []
  else match parseFields selector with
    | .error e => .error (.fieldSelector selector e)
    | .ok reqs => reqs.mapM (·.predicate)

/-- The nil selector is the empty list. -/
def parseLabelSelector (selector : String) : Except InvalidRequest (List Requirement) :=
  if selector = "" then .ok []
  else match parseLabels selector with
    | .error e => .error (.labelSelector selector e)
    | .ok sel => .ok sel

/-- The filters `Watch` gives its watcher. -/
def watchFilter (kind ns labelSelector fieldSelector : String) :
    Except InvalidRequest WatchFilter :=
  match parseLabelSelector parseLabels labelSelector with
  | .error e => .error e
  | .ok labelSel =>
    match parseFieldSelector parseFields fieldSelector with
    | .error e => .error e
    | .ok fieldPreds => .ok ⟨kind, ns, labelSel, fieldPreds⟩

end Parsers

/-! ### Conditions with placeholders -/

/-- A value bound to a placeholder. -/
inductive SqlArg
  | int (n : Nat)
  | text (s : String)
  | textArray (vs : List String)
  deriving DecidableEq, Repr

/-- A condition of the `WHERE` clause; the numbers are those of its placeholders. -/
inductive SqlCond
  | kindEq (p : Nat)
  | resourceVersionGt (p : Nat)
  | namespaceEq (p : Nat)
  | labelEq (key p : Nat)
  | labelNullOrNe (key p : Nat)
  | labelEqAny (key p : Nat)
  | labelNullOrNeAll (key p : Nat)
  | labelNotNull (key : Nat)
  | labelNull (key : Nat)
  | field (column : FieldColumn) (op : FieldOp) (p : Nat)
  deriving DecidableEq, Repr

def FieldColumn.text : FieldColumn → String
  | .name => "name"
  | .namespace => "namespace"

def FieldOp.text : FieldOp → String
  | .eq => "="
  | .ne => "<>"

/-- The text of a condition, less the `AND` that joins it. -/
def SqlCond.text : SqlCond → String
  | .kindEq p => s!"kind = ${p}"
  | .resourceVersionGt p => s!"resource_version > ${p}"
  | .namespaceEq p => s!"namespace = ${p}"
  | .labelEq k p => s!"labels->>${k} = ${p}"
  | .labelNullOrNe k p => s!"(labels->>${k} IS NULL OR labels->>${k} <> ${p})"
  | .labelEqAny k p => s!"labels->>${k} = ANY(${p}::text[])"
  | .labelNullOrNeAll k p => s!"(labels->>${k} IS NULL OR labels->>${k} <> ALL(${p}::text[]))"
  | .labelNotNull k => s!"labels->>${k} IS NOT NULL"
  | .labelNull k => s!"labels->>${k} IS NULL"
  | .field column op p => s!"{column.text} {op.text} ${p}"

/-- The value of placeholder `$p`. -/
def boundArg (args : List SqlArg) (p : Nat) : Option SqlArg := if p = 0 then none else args[p - 1]?

def intArg (args : List SqlArg) (p : Nat) : Option Nat :=
  match boundArg args p with
  | some (.int n) => some n
  | _ => none

def textArg (args : List SqlArg) (p : Nat) : Option String :=
  match boundArg args p with
  | some (.text s) => some s
  | _ => none

def textArrayArg (args : List SqlArg) (p : Nat) : Option (List String) :=
  match boundArg args p with
  | some (.textArray vs) => some vs
  | _ => none

/-- SQL `x = ANY(vs)`. -/
def sqlEqAny (x : Option String) (vs : List String) : Option Bool :=
  if vs = [] then some false else x.map (vs.contains ·)

/-- SQL `x <> ALL(vs)`. -/
def sqlNeAll (x : Option String) (vs : List String) : Option Bool :=
  if vs = [] then some true else x.map (!vs.contains ·)

/-- The truth value of a condition on a row, `some none` for NULL; `none` when a placeholder has no
value of the type the condition asks for. -/
def SqlCond.eval (args : List SqlArg) (x : Row) : SqlCond → Option (Option Bool)
  | .kindEq p => do return some (x.kind == (← textArg args p))
  | .resourceVersionGt p => do return some (decide ((← intArg args p) < x.rv))
  | .namespaceEq p => do return some (x.ns == (← textArg args p))
  | .labelEq k p => do
    let label := x.labels.lookup (← textArg args k)
    let v ← textArg args p
    return label.map (· == v)
  | .labelNullOrNe k p => do
    let label := x.labels.lookup (← textArg args k)
    let v ← textArg args p
    return sqlOr label.isNone (label.map (· != v))
  | .labelEqAny k p => do
    let label := x.labels.lookup (← textArg args k)
    return sqlEqAny label (← textArrayArg args p)
  | .labelNullOrNeAll k p => do
    let label := x.labels.lookup (← textArg args k)
    return sqlOr label.isNone (sqlNeAll label (← textArrayArg args p))
  | .labelNotNull k => do return some (x.labels.lookup (← textArg args k)).isSome
  | .labelNull k => do return some (x.labels.lookup (← textArg args k)).isNone
  | .field column op p => do
    let v ← textArg args p
    return some (FieldPredicate.holds ⟨column, op, v⟩ x.name x.ns)

/-- Conditions joined by `AND`. -/
def evalAll (args : List SqlArg) (x : Row) : List SqlCond → Option (Option Bool)
  | [] => some (some true)
  | c :: cs => do return sqlAnd (← c.eval args x) (← evalAll args x cs)

/-! ### Composing the statement -/

/-- What `buildRelistQuery` has appended after `kind = $1 AND resource_version > $2`, and the bound
values. -/
structure RelistQuery where
  filters : List SqlCond
  args : List SqlArg
  deriving DecidableEq, Repr

namespace RelistQuery

def push (q : RelistQuery) (c : SqlCond) (vs : List SqlArg) : RelistQuery :=
  ⟨q.filters ++ [c], q.args ++ vs⟩

/-- The loop body of `labelSelectorSQL`; `none` is its panic. -/
def pushRequirement (q : RelistQuery) (r : Requirement) : Option RelistQuery :=
  let p := q.args.length + 1
  match r.operator, r.values with
  | .equals, v :: _ | .doubleEquals, v :: _ =>
    some (q.push (.labelEq p (p + 1)) [.text r.key, .text v])
  | .notEquals, v :: _ => some (q.push (.labelNullOrNe p (p + 1)) [.text r.key, .text v])
  | .in, vs => some (q.push (.labelEqAny p (p + 1)) [.text r.key, .textArray vs])
  | .notIn, vs => some (q.push (.labelNullOrNeAll p (p + 1)) [.text r.key, .textArray vs])
  | .exists, _ => some (q.push (.labelNotNull p) [.text r.key])
  | .doesNotExist, _ => some (q.push (.labelNull p) [.text r.key])
  | _, _ => none

def labelSelectorSQL (q : RelistQuery) (sel : List Requirement) : Option RelistQuery :=
  sel.foldlM pushRequirement q

def pushField (q : RelistQuery × Nat) (p : FieldPredicate) : RelistQuery × Nat :=
  (q.1.push (.field p.column p.op q.2) [.text p.value], q.2 + 1)

def conds (q : RelistQuery) : List SqlCond := .kindEq 1 :: .resourceVersionGt 2 :: q.filters

end RelistQuery

def PostgresWatcher.buildRelistQuery (w : PostgresWatcher) : Option RelistQuery := do
  let q : RelistQuery := ⟨[], [.text w.filter.kind, .int w.queryFromRV]⟩
  let argIndex := 3
  let (q, argIndex) := if w.filter.ns != "" then
      (q.push (.namespaceEq argIndex) [.text w.filter.ns], argIndex + 1)
    else (q, argIndex)
  let (q, argIndex) ← if w.filter.labelSel.isEmpty then some (q, argIndex)
    else (q.labelSelectorSQL w.filter.labelSel).map fun q => (q, q.args.length + 1)
  return (w.filter.fieldPreds.foldl RelistQuery.pushField (q, argIndex)).1

/-! ### Evaluating the statement -/

section Eval

variable {args vs : List SqlArg} {x : Row}

theorem boundArg_append {p : Nat} {v : SqlArg} (h : boundArg args p = some v) :
    boundArg (args ++ vs) p = some v := by
  unfold boundArg at h ⊢
  split at h
  next => cases h
  next hp =>
    rw [if_neg hp]
    obtain ⟨hlt, _⟩ := List.getElem?_eq_some_iff.mp h
    rwa [List.getElem?_append_left hlt]

theorem textArg_append {p : Nat} {s : String} (h : textArg args p = some s) :
    textArg (args ++ vs) p = some s := by
  unfold textArg at h
  split at h
  next t ht =>
    obtain rfl := Option.some.inj h
    simp [textArg, boundArg_append ht]
  next => cases h

theorem intArg_append {p n : Nat} (h : intArg args p = some n) :
    intArg (args ++ vs) p = some n := by
  unfold intArg at h
  split at h
  next t ht =>
    obtain rfl := Option.some.inj h
    simp [intArg, boundArg_append ht]
  next => cases h

theorem textArrayArg_append {p : Nat} {l : List String} (h : textArrayArg args p = some l) :
    textArrayArg (args ++ vs) p = some l := by
  unfold textArrayArg at h
  split at h
  next t ht =>
    obtain rfl := Option.some.inj h
    simp [textArrayArg, boundArg_append ht]
  next => cases h

/-- Binding further values does not change a condition whose placeholders are bound. -/
theorem SqlCond.eval_append {c : SqlCond} {t : Option Bool} (h : c.eval args x = some t) :
    c.eval (args ++ vs) x = some t := by
  cases c with
  | resourceVersionGt p =>
    simp only [SqlCond.eval, Option.bind_eq_bind, Option.bind_eq_some_iff] at h ⊢
    obtain ⟨n, hn, ht⟩ := h
    exact ⟨n, intArg_append hn, ht⟩
  | kindEq p | namespaceEq p | labelNotNull p | labelNull p | field column op p =>
    simp only [SqlCond.eval, Option.bind_eq_bind, Option.bind_eq_some_iff] at h ⊢
    obtain ⟨s, hs, ht⟩ := h
    exact ⟨s, textArg_append hs, ht⟩
  | labelEq k p | labelNullOrNe k p =>
    simp only [SqlCond.eval, Option.bind_eq_bind, Option.bind_eq_some_iff] at h ⊢
    obtain ⟨s, hs, v, hv, ht⟩ := h
    exact ⟨s, textArg_append hs, v, textArg_append hv, ht⟩
  | labelEqAny k p | labelNullOrNeAll k p =>
    simp only [SqlCond.eval, Option.bind_eq_bind, Option.bind_eq_some_iff] at h ⊢
    obtain ⟨s, hs, v, hv, ht⟩ := h
    exact ⟨s, textArg_append hs, v, textArrayArg_append hv, ht⟩

theorem evalAll_append {cs : List SqlCond} {t : Option Bool} (h : evalAll args x cs = some t) :
    evalAll (args ++ vs) x cs = some t := by
  induction cs generalizing t with
  | nil => exact h
  | cons c cs ih =>
    simp only [evalAll, Option.bind_eq_bind, Option.bind_eq_some_iff] at h ⊢
    obtain ⟨a, ha, b, hb, ht⟩ := h
    exact ⟨a, SqlCond.eval_append ha, b, ih hb, ht⟩

theorem evalAll_concat {cs : List SqlCond} {c : SqlCond} {t u : Option Bool}
    (hcs : evalAll args x cs = some t) (hc : c.eval args x = some u) :
    ∃ r, evalAll args x (cs ++ [c]) = some r ∧
      (r = some true ↔ t = some true ∧ u = some true) := by
  induction cs generalizing t with
  | nil =>
    obtain rfl : some true = t := by simpa [evalAll] using hcs
    exact ⟨sqlAnd u (some true), by simp [evalAll, hc], by simp [sqlAnd_eq_true]⟩
  | cons d cs ih =>
    simp only [evalAll, Option.bind_eq_bind, Option.bind_eq_some_iff] at hcs
    obtain ⟨a, ha, b, hb, ht⟩ := hcs
    obtain rfl := Option.some.inj ht
    obtain ⟨r, hr, hiff⟩ := ih hb
    refine ⟨sqlAnd a r, by simp [evalAll, ha, hr], ?_⟩
    rw [sqlAnd_eq_true, sqlAnd_eq_true, hiff, and_assoc]

theorem textArg_first {s : String} : textArg (args ++ .text s :: vs) (args.length + 1) = some s := by
  simp [textArg, boundArg]

theorem textArg_second {v : SqlArg} {s : String} :
    textArg (args ++ v :: .text s :: vs) (args.length + 1 + 1) = some s := by
  simp [textArg, boundArg]

theorem textArrayArg_second {v : SqlArg} {l : List String} :
    textArrayArg (args ++ v :: .textArray l :: vs) (args.length + 1 + 1) = some l := by
  simp [textArrayArg, boundArg]

end Eval

namespace RelistQuery

/-- Every placeholder of `base` and of the filters is bound, and together they are true on exactly
the rows `P` holds of. -/
def Selects (base : List SqlCond) (q : RelistQuery) (P : Row → Prop) : Prop :=
  ∀ x, ∃ t, evalAll q.args x (base ++ q.filters) = some t ∧ (t = some true ↔ P x)

variable {base : List SqlCond} {q q' : RelistQuery} {P Q : Row → Prop}

theorem Selects.push {c : SqlCond} {vs : List SqlArg} (hq : Selects base q P)
    (hc : ∀ x, ∃ t, c.eval (q.args ++ vs) x = some t ∧ (t = some true ↔ Q x)) :
    Selects base (q.push c vs) fun x => P x ∧ Q x := by
  intro x
  obtain ⟨t, ht, hP⟩ := hq x
  obtain ⟨u, hu, hQ⟩ := hc x
  obtain ⟨r, hr, hiff⟩ := evalAll_concat (evalAll_append ht) hu
  rw [List.append_assoc] at hr
  exact ⟨r, hr, by rw [hiff, hP, hQ]⟩

theorem Selects.congr (hq : Selects base q P) (h : ∀ x, P x ↔ Q x) : Selects base q Q := by
  intro x
  obtain ⟨t, ht, hP⟩ := hq x
  exact ⟨t, ht, hP.trans (h x)⟩

/-- With its placeholders bound, the condition of a requirement is the clause of that requirement. -/
theorem pushRequirement_of_sql {r : Requirement} {cl : Selector.Clause} (h : r.sql = some cl)
    (q : RelistQuery) : ∃ c vs, q.pushRequirement r = some (q.push c vs) ∧
      ∀ x, c.eval (q.args ++ vs) x = some (cl.eval x.labels) := by
  obtain ⟨key, op, values, valid⟩ := r
  cases op with
  | equals | doubleEquals | notEquals =>
    obtain ⟨v, rfl⟩ := valid
    obtain rfl := Option.some.inj h
    refine ⟨_, _, rfl, fun x => ?_⟩
    simp [SqlCond.eval, textArg_first, textArg_second, Selector.Clause.eval]
  | «in» | notIn =>
    have hne : values ≠ [] := valid
    obtain rfl := Option.some.inj h
    refine ⟨_, _, rfl, fun x => ?_⟩
    simp [SqlCond.eval, textArg_first, textArrayArg_second, Selector.Clause.eval, sqlEqAny, sqlNeAll,
      hne]
  | «exists» | doesNotExist =>
    obtain rfl := Option.some.inj h
    refine ⟨_, _, rfl, fun x => ?_⟩
    simp [SqlCond.eval, textArg_first, Selector.Clause.eval]
  | greaterThan | lessThan => simp [Requirement.sql] at h

theorem sql_eq_none_iff {r : Requirement} :
    r.sql = none ↔ r.operator = .greaterThan ∨ r.operator = .lessThan := by
  obtain ⟨key, op, values, valid⟩ := r
  cases op with
  | equals | doubleEquals | notEquals =>
    obtain ⟨v, rfl⟩ := valid
    simp [Requirement.sql]
  | «in» | notIn | «exists» | doesNotExist | greaterThan | lessThan => simp [Requirement.sql]

theorem pushRequirement_panics {r : Requirement} (h : r.sql = none) (q : RelistQuery) :
    q.pushRequirement r = none := by
  rcases sql_eq_none_iff.mp h with hop | hop <;> simp [pushRequirement, hop]

/-- The label clauses select the rows whose labels the selector matches. -/
theorem labelSelectorSQL_selects {sel : List Requirement} (hsel : ∀ r ∈ sel, r.sql ≠ none)
    (hq : Selects base q P) : ∃ q', q.labelSelectorSQL sel = some q' ∧
      Selects base q' fun x => P x ∧ Selector.matches sel x.labels = true := by
  induction sel generalizing q P with
  | nil => exact ⟨q, rfl, hq.congr fun x => by simp [Selector.matches]⟩
  | cons r sel ih =>
    obtain ⟨cl, hcl⟩ := Option.ne_none_iff_exists'.mp (hsel r List.mem_cons_self)
    obtain ⟨c, vs, hpush, heval⟩ := pushRequirement_of_sql hcl q
    have hnext : Selects base (q.push c vs) fun x => P x ∧ r.matches x.labels = true :=
      hq.push fun x => ⟨_, heval x, Requirement.sql_eval hcl x.labels⟩
    obtain ⟨q', hq', hsel'⟩ := ih (fun r' hr' => hsel r' (List.mem_cons_of_mem r hr')) hnext
    refine ⟨q', ?_, hsel'.congr fun x => ?_⟩
    · simpa [labelSelectorSQL, hpush] using hq'
    · simp [Selector.matches, and_assoc]

theorem labelSelectorSQL_panics {sel : List Requirement} (h : ∃ r ∈ sel, r.sql = none)
    (q : RelistQuery) : q.labelSelectorSQL sel = none := by
  induction sel generalizing q with
  | nil => simp at h
  | cons r sel ih =>
    cases hr : q.pushRequirement r with
    | none => simp [labelSelectorSQL, hr]
    | some q' =>
      have hsql : r.sql ≠ none := fun hn => by simp [pushRequirement_panics hn q] at hr
      obtain ⟨r', hmem, hr'⟩ := h
      rcases List.mem_cons.mp hmem with rfl | hmem
      · exact absurd hr' hsql
      · simpa [labelSelectorSQL, hr] using ih ⟨r', hmem, hr'⟩ q'

/-- The field clauses are numbered from the argument index, which is one past the bound values. -/
theorem pushFields_selects (preds : List FieldPredicate) (hq : Selects base q P) :
    Selects base (preds.foldl pushField (q, q.args.length + 1)).1 fun x =>
      P x ∧ preds.all (·.holds x.name x.ns) = true := by
  induction preds generalizing q P with
  | nil => exact hq.congr fun x => by simp
  | cons p preds ih =>
    have hnext : Selects base (pushField (q, q.args.length + 1) p).1 fun x =>
        P x ∧ p.holds x.name x.ns = true :=
      hq.push fun x => ⟨_, by simp only [SqlCond.eval, textArg_first]; rfl, by simp⟩
    have hlen : (pushField (q, q.args.length + 1) p).2
        = (pushField (q, q.args.length + 1) p).1.args.length + 1 := by
      simp [pushField, push]
    have hrest := ih hnext
    rw [← hlen] at hrest
    exact hrest.congr fun x => by simp [and_assoc]

end RelistQuery

namespace PostgresWatcher

/-- The relist statement is composed, its placeholders are bound, and its filters are true on
exactly the rows `matchesWatcher` accepts. -/
def FiltersAgree (w : PostgresWatcher) : Prop :=
  ∃ q, w.buildRelistQuery = some q ∧ q.Selects [] fun x => w.filter.matchesWatcher x = true

/-- The statement before any filter. -/
def relistBase (w : PostgresWatcher) : RelistQuery :=
  ⟨[], [.text w.filter.kind, .int w.queryFromRV]⟩

variable {w : PostgresWatcher} {base : List SqlCond} {P : Row → Prop}

theorem namespaceClause_selects (h : w.relistBase.Selects base P) :
    (w.relistBase.push (.namespaceEq 3) [.text w.filter.ns]).Selects base fun x =>
      P x ∧ x.ns = w.filter.ns :=
  h.push fun x => ⟨some (x.ns == w.filter.ns), rfl, by simp⟩

theorem buildRelistQuery_selects (h : w.relistBase.Selects base P)
    (hsql : ∀ r ∈ w.filter.labelSel, r.sql ≠ none) :
    ∃ q, w.buildRelistQuery = some q ∧
      q.Selects base fun x => P x ∧ w.filter.matchesWatcher x = true := by
  let q₁ := if w.filter.ns != "" then
      w.relistBase.push (.namespaceEq 3) [.text w.filter.ns] else w.relistBase
  have h₁ : q₁.Selects base fun x => P x ∧ (w.filter.ns = "" ∨ w.filter.ns = x.ns) := by
    by_cases hns : w.filter.ns = ""
    · simp only [q₁, hns, bne_self_eq_false, Bool.false_eq_true, if_false]
      exact h.congr fun x => by simp
    · have hbne : (w.filter.ns != "") = true := by simpa using hns
      simp only [q₁, hbne, if_true]
      exact (namespaceClause_selects h).congr fun x => by simp [hns, eq_comm]
  obtain ⟨q₂, hq₂, h₂⟩ := RelistQuery.labelSelectorSQL_selects hsql h₁
  have hargs : (if w.filter.ns != "" then
        (w.relistBase.push (.namespaceEq 3) [.text w.filter.ns], 4)
      else (w.relistBase, 3)) = (q₁, q₁.args.length + 1) := by
    by_cases hns : w.filter.ns = "" <;> simp [q₁, relistBase, hns, RelistQuery.push]
  have hbuild : w.buildRelistQuery
      = some (w.filter.fieldPreds.foldl RelistQuery.pushField (q₂, q₂.args.length + 1)).1 := by
    unfold relistBase at hargs
    cases hsel : w.filter.labelSel with
    | nil =>
      obtain rfl : q₁ = q₂ := by simpa [hsel, RelistQuery.labelSelectorSQL] using hq₂
      simp only [buildRelistQuery, hsel, List.isEmpty_nil, if_true]
      rw [hargs]
      rfl
    | cons r sel =>
      rw [hsel] at hq₂
      simp only [buildRelistQuery, hsel, List.isEmpty_cons, Bool.false_eq_true, if_false]
      rw [hargs, hq₂]
      rfl
  refine ⟨_, hbuild, (RelistQuery.pushFields_selects w.filter.fieldPreds h₂).congr fun x => ?_⟩
  simp [WatchFilter.matchesWatcher, and_assoc]

theorem buildRelistQuery_panics (h : ∃ r ∈ w.filter.labelSel, r.sql = none) :
    w.buildRelistQuery = none := by
  have hne : w.filter.labelSel.isEmpty = false := by
    obtain ⟨r, hr, _⟩ := h
    cases hsel : w.filter.labelSel with
    | nil => simp [hsel] at hr
    | cons r' sel => rfl
  simp [buildRelistQuery, hne, RelistQuery.labelSelectorSQL_panics h]

/-- The whole clause is true on the rows of the condition that the watch model's relist uses. -/
theorem buildRelistQuery_refines {sel : Row → Bool}
    (hsel : w.filter.buildRelistQuery w.queryFromRV = some sel) :
    ∃ q, w.buildRelistQuery = some q ∧
      ∀ x, evalAll q.args x q.conds = some (some true) ↔ sel x = true := by
  have hsql : ∀ r ∈ w.filter.labelSel, r.sql ≠ none := by
    obtain ⟨cs, hcs, _⟩ := Option.map_eq_some_iff.mp hsel
    intro r hr hnone
    exact Selector.labelSelectorSQL_ne_none hcs r hr hnone
  have hbase : w.relistBase.Selects [.kindEq 1, .resourceVersionGt 2] fun x =>
      x.kind = w.filter.kind ∧ w.queryFromRV < x.rv := by
    intro x
    refine ⟨sqlAnd (some (x.kind == w.filter.kind))
      (sqlAnd (some (decide (w.queryFromRV < x.rv))) (some true)), rfl, ?_⟩
    simp [sqlAnd_eq_true]
  obtain ⟨q, hq, hselects⟩ := buildRelistQuery_selects hbase hsql
  refine ⟨q, hq, fun x => ?_⟩
  obtain ⟨t, ht, hiff⟩ := hselects x
  have hconds : evalAll q.args x q.conds = some t := ht
  rw [hconds, Option.some.injEq, hiff, WatchFilter.buildRelistQuery_iff hsel x, WatchFilter.wants]
  grind

/-- For every filter the parsers accept, the relist statement and `matchesWatcher` are the same
predicate exactly when no label requirement compares with `>` or `<`. -/
theorem relist_filters_agree_iff (parseLabels : String → Except String (List Requirement))
    (parseFields : String → Except String (List FieldRequirement))
    {kind ns labelSelector fieldSelector : String} {w : PostgresWatcher}
    (h : watchFilter parseLabels parseFields kind ns labelSelector fieldSelector = .ok w.filter) :
    w.FiltersAgree ↔ (labelSelector = "" ∨ ∀ sel, parseLabels labelSelector = .ok sel →
      ∀ r ∈ sel, r.operator ≠ .greaterThan ∧ r.operator ≠ .lessThan) := by
  have hops : (labelSelector = "" ∨ ∀ sel, parseLabels labelSelector = .ok sel →
      ∀ r ∈ sel, r.operator ≠ .greaterThan ∧ r.operator ≠ .lessThan) ↔
      ∀ r ∈ w.filter.labelSel, r.sql ≠ none := by
    simp only [ne_eq, RelistQuery.sql_eq_none_iff, not_or]
    by_cases hempty : labelSelector = ""
    · have hnil : w.filter.labelSel = [] := by
        simp [watchFilter, parseLabelSelector, hempty] at h
        grind
      simp [hempty, hnil]
    · cases hp : parseLabels labelSelector with
      | error e => simp [watchFilter, parseLabelSelector, hempty, hp] at h
      | ok sel =>
        have hsel : w.filter.labelSel = sel := by
          simp [watchFilter, parseLabelSelector, hempty, hp] at h
          grind
        simp [hempty, hsel]
  rw [hops]
  constructor
  · rintro ⟨q, hq, _⟩ r hr hnone
    simp [buildRelistQuery_panics ⟨r, hr, hnone⟩] at hq
  · intro hsql
    have hbase : w.relistBase.Selects [] fun _ => True := fun x => ⟨some true, rfl, by simp⟩
    obtain ⟨q, hq, hsel⟩ := buildRelistQuery_selects hbase hsql
    exact ⟨q, hq, hsel.congr fun x => by simp⟩

/-- `replicas>1` parses and composing its clause panics. -/
theorem relist_order_comparison_panics :
    ∃ (parseLabels : String → Except String (List Requirement)) (f : WatchFilter),
      parseLabels "replicas>1" = .ok [⟨"replicas", .greaterThan, ["1"], ⟨"1", rfl, by decide⟩⟩] ∧
      watchFilter parseLabels (fun _ => .ok []) "Agent" "default" "replicas>1" "" = .ok f ∧
      (new f 0).buildRelistQuery = none ∧ ¬ (new f 0).FiltersAgree := by
  refine ⟨fun s => if s = "replicas>1" then
      .ok [⟨"replicas", .greaterThan, ["1"], ⟨"1", rfl, by decide⟩⟩] else .error s,
    ⟨"Agent", "default", [⟨"replicas", .greaterThan, ["1"], ⟨"1", rfl, by decide⟩⟩], []⟩,
    rfl, rfl, rfl, ?_⟩
  rintro ⟨q, hq, _⟩
  cases hq

/-- The requirements of `app!=api,tier`. -/
def tierRequirements : List Requirement :=
  [⟨"app", .notEquals, ["api"], ⟨"api", rfl⟩⟩, ⟨"tier", .exists, [], rfl⟩]

theorem relist_filters_agree_tier :
    (new ⟨"Agent", "default", tierRequirements, [⟨.name, .ne, "a"⟩]⟩ 0).FiltersAgree := by
  have hparse : watchFilter
      (fun s => if s = "app!=api,tier" then .ok tierRequirements else .error s)
      (fun s => if s = "metadata.name!=a" then .ok [⟨.notEquals, "metadata.name", "a"⟩] else .error s)
      "Agent" "default" "app!=api,tier" "metadata.name!=a"
      = .ok (new ⟨"Agent", "default", tierRequirements, [⟨.name, .ne, "a"⟩]⟩ 0).filter := rfl
  apply (relist_filters_agree_iff _ _ hparse).mpr
  apply Or.inr
  intro sel hsel
  obtain rfl : tierRequirements = sel := Except.ok.inj hsel
  decide

end PostgresWatcher

example : SqlCond.text (.labelNullOrNe 5 6) = "(labels->>$5 IS NULL OR labels->>$5 <> $6)" := by
  decide

end Ark
