import Mathlib.Algebra.Order.Ring.Nat
import Mathlib.Data.List.Pairwise

/-!
# The broker's in-memory stream

An append-only list of items. Each item takes the next sequence number and, when the stream or the
call sets a time to live, the time at which it expires. Times are in milliseconds; the byte budget
and the file the items are saved to are left out.
-/

namespace Ark

structure BrokerItem (α : Type*) where
  sequenceNumber : Nat
  timestamp : Nat
  expiresAt : Option Nat
  data : α
  deriving DecidableEq, Repr

structure InMemoryStream (α : Type*) where
  items : List (BrokerItem α)
  nextSequence : Nat
  ttlMs : Option Nat

/-- `ttlSeconds && ttlSeconds > 0 ? ttlSeconds * 1000 : otherwise`. -/
def ttlMsOr (ttlSeconds otherwise : Option Nat) : Option Nat :=
  match ttlSeconds with
  | some (s + 1) => some ((s + 1) * 1000)
  | some 0 | none => otherwise

def DEFAULT_LIMIT : Nat := 100

/-- `PaginatedList`. -/
structure PaginatedList (ι : Type*) where
  items : List ι
  total : Nat
  hasMore : Bool
  nextCursor : Option Nat
  deriving DecidableEq, Repr

namespace InMemoryStream

variable {α : Type*}

/-- The constructor. -/
def new (ttlSeconds : Option Nat) : InMemoryStream α := ⟨[], 1, ttlMsOr ttlSeconds none⟩

/-- The item `append` builds. -/
def newItem (s : InMemoryStream α) (now : Nat) (data : α) (ttlSeconds : Option Nat) :
    BrokerItem α :=
  ⟨s.nextSequence, now, (ttlMsOr ttlSeconds s.ttlMs).map (now + ·), data⟩

def append (s : InMemoryStream α) (now : Nat) (data : α) (ttlSeconds : Option Nat) :
    InMemoryStream α :=
  { s with
    items := s.items ++ [s.newItem now data ttlSeconds]
    nextSequence := s.nextSequence + 1 }

end InMemoryStream

def BrokerItem.isExpired {α : Type*} (item : BrokerItem α) (now : Nat) : Bool :=
  item.expiresAt.any (· ≤ now)

namespace InMemoryStream

variable {α : Type*}

def live (s : InMemoryStream α) (now : Nat) : List (BrokerItem α) :=
  if s.ttlMs.isNone then s.items else s.items.filter (!·.isExpired now)

def filter (s : InMemoryStream α) (now : Nat) (predicate : BrokerItem α → Bool) :
    List (BrokerItem α) := (s.live now).filter predicate

/-- `evictExpired`; with no byte budget it is all that `maintain` does. -/
def maintain (s : InMemoryStream α) (now : Nat) : InMemoryStream α :=
  if s.ttlMs.isNone then s else { s with items := s.items.filter (!·.isExpired now) }

def delete (s : InMemoryStream α) (predicate : Option (BrokerItem α → Bool)) :
    InMemoryStream α :=
  match predicate with
  | some p => { s with items := s.items.filter (!p ·) }
  | none => { s with items := [], nextSequence := 1 }

/-- The page of `items` after `cursor`. -/
def page (items : List (BrokerItem α)) (limit cursor : Option Nat) :
    PaginatedList (BrokerItem α) :=
  let limit := limit.getD DEFAULT_LIMIT
  let filtered := match cursor with
    | some c => items.filter fun (item : BrokerItem α) => decide (c < item.sequenceNumber)
    | none => items
  let page := filtered.take limit
  let hasMore := decide (limit < filtered.length)
  ⟨page, items.length, hasMore,
    if hasMore then page.getLast?.map BrokerItem.sequenceNumber else none⟩

def paginate (s : InMemoryStream α) (now : Nat) (limit cursor : Option Nat)
    (predicate : Option (BrokerItem α → Bool)) : PaginatedList (BrokerItem α) :=
  page (match predicate with
    | some p => (s.live now).filter p
    | none => s.live now) limit cursor

def getCurrentSequence (s : InMemoryStream α) : Nat := s.nextSequence - 1

/-- Sequence numbers increase along the list and are below the next one. -/
structure Ordered (s : InMemoryStream α) : Prop where
  increasing : s.items.Pairwise fun x y => x.sequenceNumber < y.sequenceNumber
  below : ∀ x ∈ s.items, x.sequenceNumber < s.nextSequence
  positive : ∀ x ∈ s.items, 0 < x.sequenceNumber
  next_pos : 0 < s.nextSequence

variable {s : InMemoryStream α}

theorem ordered_new (ttlSeconds : Option Nat) : (new ttlSeconds : InMemoryStream α).Ordered :=
  ⟨List.Pairwise.nil, by simp [new], by simp [new], by simp [new]⟩

theorem Ordered.append (h : s.Ordered) (now : Nat) (data : α) (ttlSeconds : Option Nat) :
    (s.append now data ttlSeconds).Ordered where
  increasing := by
    apply List.pairwise_append.mpr
    refine ⟨h.increasing, by simp, fun x hx y hy => ?_⟩
    obtain rfl := List.mem_singleton.mp hy
    exact h.below x hx
  below x hx := by
    rcases List.mem_append.mp hx with hold | hnew
    · exact Nat.lt_succ_of_lt (h.below x hold)
    · obtain rfl := List.mem_singleton.mp hnew
      exact Nat.lt_succ_self _
  positive x hx := by
    rcases List.mem_append.mp hx with hold | hnew
    · exact h.positive x hold
    · obtain rfl := List.mem_singleton.mp hnew
      exact h.next_pos
  next_pos := Nat.succ_pos _

end InMemoryStream

end Ark
