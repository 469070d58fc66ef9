import Mathlib.Algebra.Order.Ring.Nat
import Mathlib.Data.List.Basic

/-!
# Label selectors and field predicates

A watcher's filters are applied twice: in memory, by the apimachinery label matcher and
`matchesWatcher`, and in SQL, by the clauses that `labelSelectorSQL` composes. SQL conditions are
three-valued, with `none` for NULL.
-/

namespace Ark

abbrev Labels := List (String × String)

/-- Base-10 digits, most significant first. -/
def parseDigits (acc : Nat) : List Char → Option Nat
  | [] => some acc
  | c :: cs => if c.isDigit then parseDigits (acc * 10 + (c.toNat - '0'.toNat)) cs else none

/-- `strconv.ParseUint(s, 10, 63)`. -/
def parseUint63 (s : String) : Option Nat :=
  match s.toList with
  | [] => none
  | cs => (parseDigits 0 cs).filter (· < 2 ^ 63)

/-- `strconv.ParseInt(s, 10, 64)`. -/
def parseInt64 (s : String) : Option Int :=
  match s.toList with
  | [] => none
  | ['-'] => none
  | ['+'] => none
  | '-' :: cs => (parseDigits 0 cs).bind fun n => if n ≤ 2 ^ 63 then some (-(n : Int)) else none
  | '+' :: cs => (parseDigits 0 cs).bind fun n => if n < 2 ^ 63 then some (n : Int) else none
  | cs => (parseDigits 0 cs).bind fun n => if n < 2 ^ 63 then some (n : Int) else none

namespace Selector

/-- `selection.Operator`. -/
inductive Operator
  | doesNotExist
  | equals
  | doubleEquals
  | «in»
  | notEquals
  | notIn
  | «exists»
  | greaterThan
  | lessThan
  deriving DecidableEq, Repr

/-- The value counts `labels.NewRequirement` insists on. -/
def Operator.accepts : Operator → List String → Prop
  | .in, vs | .notIn, vs => vs ≠ []
  | .equals, vs | .doubleEquals, vs | .notEquals, vs => ∃ v, vs = [v]
  | .exists, vs | .doesNotExist, vs => vs = []
  | .greaterThan, vs | .lessThan, vs => ∃ v, vs = [v] ∧ (parseInt64 v).isSome

/-- A requirement as `labels.Parse` returns it. -/
structure Requirement where
  key : String
  operator : Operator
  values : List String
  valid : operator.accepts values
  deriving DecidableEq

/-- `Requirement.Matches` of apimachinery. -/
def Requirement.matches (r : Requirement) (ls : Labels) : Bool :=
  match r.operator, ls.lookup r.key with
  | .in, some v | .equals, some v | .doubleEquals, some v => r.values.contains v
  | .in, none | .equals, none | .doubleEquals, none => false
  | .notIn, some v | .notEquals, some v => !r.values.contains v
  | .notIn, none | .notEquals, none => true
  | .exists, v => v.isSome
  | .doesNotExist, v => v.isNone
  | .greaterThan, some v | .lessThan, some v =>
    match parseInt64 v, r.values.head?.bind parseInt64 with
    | some a, some b => if r.operator = .greaterThan then decide (b < a) else decide (a < b)
    | _, _ => false
  | .greaterThan, none | .lessThan, none => false

/-- `Selector.Matches`: every requirement holds. -/
def «matches» (sel : List Requirement) (ls : Labels) : Bool := sel.all (·.matches ls)

/-- One clause of the text `labelSelectorSQL` emits, with its bound values. -/
inductive Clause
  | eq (key value : String)
  | isNullOrNe (key value : String)
  | eqAny (key : String) (values : List String)
  | isNullOrNeAll (key : String) (values : List String)
  | isNotNull (key : String)
  | isNull (key : String)
  deriving DecidableEq, Repr

/-- SQL `OR` of a condition that is never NULL with one that may be. -/
def sqlOr (a : Bool) (b : Option Bool) : Option Bool := if a then some true else b

def sqlAnd : Option Bool → Option Bool → Option Bool
  | some false, _ | _, some false => some false
  | some true, b => b
  | none, _ => none

def Clause.eval (ls : Labels) : Clause → Option Bool
  | .eq k v => (ls.lookup k).map (· == v)
  | .isNullOrNe k v => sqlOr (ls.lookup k).isNone ((ls.lookup k).map (· != v))
  | .eqAny k vs => (ls.lookup k).map (vs.contains ·)
  | .isNullOrNeAll k vs => sqlOr (ls.lookup k).isNone ((ls.lookup k).map (!vs.contains ·))
  | .isNotNull k => some (ls.lookup k).isSome
  | .isNull k => some (ls.lookup k).isNone

/-- The case of `labelSelectorSQL` for one requirement; `none` is its panic on an operator it does
not handle. -/
def Requirement.sql (r : Requirement) : Option Clause :=
  match r.operator, r.values with
  | .equals, v :: _ | .doubleEquals, v :: _ => some (.eq r.key v)
  | .notEquals, v :: _ => some (.isNullOrNe r.key v)
  | .in, vs => some (.eqAny r.key vs)
  | .notIn, vs => some (.isNullOrNeAll r.key vs)
  | .exists, _ => some (.isNotNull r.key)
  | .doesNotExist, _ => some (.isNull r.key)
  | _, _ => none

def labelSelectorSQL (sel : List Requirement) : Option (List Clause) := sel.mapM Requirement.sql

theorem labelSelectorSQL_ne_none {sel : List Requirement} {cs : List Clause}
    (h : labelSelectorSQL sel = some cs) : ∀ r ∈ sel, r.sql ≠ none := by
  induction sel generalizing cs with
  | nil => simp
  | cons r sel ih =>
    simp only [labelSelectorSQL, List.mapM_cons, Option.pure_def, Option.bind_eq_bind,
      Option.bind_eq_some_iff, Option.some.injEq] at h
    obtain ⟨c, hc, cs', hcs', _⟩ := h
    intro r' hr'
    rcases List.mem_cons.mp hr' with rfl | hr'
    · simp [hc]
    · exact ih hcs' r' hr'

/-- The truth value of clauses joined by `AND`. -/
def sqlWhere (cs : List Clause) (ls : Labels) : Option Bool :=
  cs.foldr (fun c acc => sqlAnd (c.eval ls) acc) (some true)

theorem sqlAnd_eq_true {a b : Option Bool} :
    sqlAnd a b = some true ↔ a = some true ∧ b = some true := by
  rcases a with _ | _ | _ <;> rcases b with _ | _ | _ <;> simp [sqlAnd]

theorem sqlWhere_cons {c : Clause} {cs : List Clause} {ls : Labels} :
    sqlWhere (c :: cs) ls = some true ↔ c.eval ls = some true ∧ sqlWhere cs ls = some true :=
  sqlAnd_eq_true

/-- A clause is true exactly on the labels its requirement matches. -/
theorem Requirement.sql_eval {r : Requirement} {c : Clause} (h : r.sql = some c) (ls : Labels) :
    c.eval ls = some true ↔ r.matches ls = true := by
  obtain ⟨key, op, values, valid⟩ := r
  cases op with
  | equals | doubleEquals | notEquals =>
    obtain ⟨v, rfl⟩ := valid
    obtain rfl := Option.some.inj h
    cases hl : ls.lookup key <;>
      simp [Clause.eval, Requirement.matches, hl, sqlOr]
  | «in» | notIn | «exists» | doesNotExist =>
    obtain rfl := Option.some.inj h
    cases hl : ls.lookup key <;> simp [Clause.eval, Requirement.matches, hl, sqlOr]
  | greaterThan | lessThan => simp [Requirement.sql] at h

/-- The SQL text selects exactly the labels the selector matches. -/
theorem labelSelectorSQL_where {sel : List Requirement} {cs : List Clause}
    (h : labelSelectorSQL sel = some cs) (ls : Labels) :
    sqlWhere cs ls = some true ↔ Selector.matches sel ls = true := by
  induction sel generalizing cs with
  | nil =>
    obtain rfl : cs = [] := by simpa [labelSelectorSQL] using h.symm
    simp [sqlWhere, Selector.matches]
  | cons r sel ih =>
    simp only [labelSelectorSQL, List.mapM_cons, Option.pure_def, Option.bind_eq_bind,
      Option.bind_eq_some_iff, Option.some.injEq] at h
    obtain ⟨c, hc, cs', hcs', rfl⟩ := h
    rw [sqlWhere_cons, Requirement.sql_eval hc, ih hcs']
    simp [Selector.matches]

end Selector

/-- A column of `supportedFieldColumns`. -/
inductive FieldColumn
  | name
  | «namespace»
  deriving DecidableEq, Repr

/-- An operator of `supportedFieldOps`. -/
inductive FieldOp
  | eq
  | ne
  deriving DecidableEq, Repr

structure FieldPredicate where
  column : FieldColumn
  op : FieldOp
  value : String
  deriving DecidableEq, Repr

def FieldPredicate.holds (p : FieldPredicate) (name ns : String) : Bool :=
  let v := match p.column with
    | .name => name
    | .namespace => ns
  match p.op with
  | .eq => v == p.value
  | .ne => v != p.value

end Ark
