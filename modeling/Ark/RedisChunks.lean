import Ark.QueryStream

/-!
# Chunk ordinals over Redis

`RedisChunkStream` keeps one Redis stream for each query. Redis runs each command, and the
transaction that appends, in one step; commands of different clients interleave. An ordinal is not
stored: it is the length of the stream at some later command, or an index into what a command
returned. One query's stream is modelled, with any number of publishers, readers and subscriptions.
-/

namespace Ark

namespace RedisChunkStream

variable {χ : Type*}

/-- A stream entry; `ms` is the time its id carries. -/
structure Entry (χ : Type*) where
  id : Nat
  ms : Nat
  data : CompletionChunkData χ

/-- A reported item. Its data is the whole entry, of which the code passes on `data` only. -/
abbrev Reported (χ : Type*) := BrokerItem (Entry χ)

def entryToItem (e : Entry χ) (ordinal : Nat) : Reported χ := ⟨ordinal, e.ms, none, e⟩

/-- The items of an `XRANGE` reply. -/
def numbered (entries : List (Entry χ)) : List (Reported χ) :=
  entries.mapIdx fun i e => entryToItem e (i + 1)

/-- The id of the last entry, `0-0` without one. -/
def lastIdOf (entries : List (Entry χ)) : Nat := (entries.getLast?.map (·.id)).getD 0

inductive SubscriptionPc
  | xrevrange
  | xlen
  | xread
  | closed
  deriving DecidableEq, Repr

/-- One run of `startXreadLoop`. `delivered` lists what the callback was given, and `startedAt` is
the length of the stream at its `XREVRANGE`; the code keeps neither. -/
structure Subscription (χ : Type*) where
  pc : SubscriptionPc
  lastId : Nat
  baseOrdinal : Nat
  ordinalCounter : Nat
  startedAt : Option Nat
  delivered : List (Reported χ)

namespace Subscription

def start : Subscription χ := ⟨.xrevrange, 0, 0, 0, none, []⟩

/-- The body of the loop over an `XREAD` reply. -/
def deliverOne (sub : Subscription χ) (e : Entry χ) : Subscription χ :=
  { sub with
    lastId := e.id
    ordinalCounter := sub.ordinalCounter + 1
    delivered := sub.delivered ++ [entryToItem e (sub.baseOrdinal + (sub.ordinalCounter + 1))] }

/-- `XREAD COUNT 100` after `lastId`. -/
def xreadReply (sub : Subscription χ) (stream : List (Entry χ)) : List (Entry χ) :=
  (stream.filter fun e => decide (sub.lastId < e.id)).take 100

/-- A reply is processed; `abortAfter` tells after how many entries the subscription was aborted. -/
def xread (sub : Subscription χ) (stream : List (Entry χ)) (abortAfter : Option Nat) :
    Subscription χ :=
  match abortAfter with
  | none => (sub.xreadReply stream).foldl deliverOne sub
  | some n => { ((sub.xreadReply stream).take n).foldl deliverOne sub with pc := .closed }

end Subscription

/-- The stream of one query and its clients. `appending` holds the entries whose transaction ran and
whose publisher has yet to send `XLEN`; `returned`, `pages` and `snapshots` record what
`appendItem`, `paginate` and `getByQuery` returned. -/
structure System (χ : Type*) where
  queryId : String
  stream : List (Entry χ)
  appending : List (Entry χ)
  returned : List (Reported χ)
  pages : List (Reported χ)
  snapshots : List (List (Reported χ))
  subscriptions : List (Subscription χ)

inductive Action (χ : Type*)
  | appendChunk (ms gap : Nat) (chunk : ChunkValue χ)
  | completeQuery (ms gap : Nat)
  | appendXlen (i : Nat)
  | getByQuery
  | paginate (limit cursor : Option Nat)
  | subscribe
  | xrevrange (i : Nat)
  | subscribeXlen (i : Nat)
  | xread (i : Nat) (abortAfter : Option Nat)
  | xreadError (i : Nat)
  | abort (i : Nat)

namespace System

def start (queryId : String) : System χ := ⟨queryId, [], [], [], [], [], []⟩

/-- The transaction of `appendItem`; Redis picks an id above the last one. -/
def exec (s : System χ) (ms gap : Nat) (data : CompletionChunkData χ) : System χ :=
  let e : Entry χ := ⟨lastIdOf s.stream + 1 + gap, ms, data⟩
  { s with stream := s.stream ++ [e], appending := s.appending ++ [e] }

/-- Replace the `i`-th subscription if it is at one of the program points `pcs`. -/
def updateSubscription (s : System χ) (i : Nat) (pcs : List SubscriptionPc)
    (f : Subscription χ → Subscription χ) : Option (System χ) :=
  match s.subscriptions[i]? with
  | some sub => if sub.pc ∈ pcs then some { s with subscriptions := s.subscriptions.set i (f sub) }
    else none
  | none => none

def step (s : System χ) : Action χ → Option (System χ)
  | .appendChunk ms gap chunk => some (s.exec ms gap ⟨s.queryId, chunk, false⟩)
  | .completeQuery ms gap => some (s.exec ms gap ⟨s.queryId, .text "[DONE]", true⟩)
  | .appendXlen i => s.appending[i]?.map fun e =>
    { s with
      appending := s.appending.eraseIdx i
      returned := s.returned ++ [entryToItem e s.stream.length] }
  | .getByQuery => some { s with snapshots := s.snapshots ++ [numbered s.stream] }
  | .paginate limit cursor =>
    some { s with pages := s.pages ++ (InMemoryStream.page (numbered s.stream) limit cursor).items }
  | .subscribe => some { s with subscriptions := s.subscriptions ++ [.start] }
  | .xrevrange i => s.updateSubscription i [.xrevrange] fun sub =>
    { sub with pc := .xlen, lastId := lastIdOf s.stream, startedAt := some s.stream.length }
  | .subscribeXlen i => s.updateSubscription i [.xlen] fun sub =>
    { sub with pc := .xread, baseOrdinal := s.stream.length }
  | .xread i abortAfter => s.updateSubscription i [.xread] (·.xread s.stream abortAfter)
  | .xreadError i => s.updateSubscription i [.xread] ({ · with pc := .closed })
  | .abort i => s.updateSubscription i [.xrevrange, .xlen, .xread] ({ · with pc := .closed })

def machine (χ : Type*) : Machine (System χ) (Action χ) where
  init s := ∃ queryId, s = start queryId
  step := step

/-- No publisher waits for its `XLEN`, and no subscription is between `XREVRANGE` and `XLEN`. -/
def noneCounting (s : System χ) : Bool :=
  s.appending.isEmpty && s.subscriptions.all fun sub => sub.pc != .xlen

/-- Nothing is appended while a length is about to be read. -/
def countsUndisturbed (s : System χ) : Action χ → Bool
  | .appendChunk .. | .completeQuery .. => s.noneCounting
  | _ => true

/-- The item's number is the 1-based position of its entry in the stream. -/
def AtPosition (s : System χ) (r : Reported χ) : Prop :=
  0 < r.sequenceNumber ∧ s.stream[r.sequenceNumber - 1]? = some r.data

/-- Every reported item, on whichever path. -/
def reports (s : System χ) : List (Reported χ) :=
  s.returned ++ s.pages ++ s.snapshots.flatten ++ s.subscriptions.flatMap (·.delivered)

/-- `maxReplayedSeq` of `replayChunks` after replaying the items. -/
def maxReplayedSeq (m : Int) : List (Reported χ) → Int
  | [] => m
  | r :: rest =>
    if r.data.data.complete then m
    else match r.data.data.chunk with
      | .object _ => maxReplayedSeq (max m r.sequenceNumber) rest
      | .text _ => maxReplayedSeq m rest

/-- What the readers of the ordinals rely on. -/
structure OrdinalsAgree (s : System χ) : Prop where
  /-- Every path gives an entry its position. -/
  position : ∀ r ∈ s.reports, s.AtPosition r
  distinct : (s.stream.map (·.id)).Nodup
  /-- A subscription delivers what was appended after it started, in order, and all of it once no
  entry is left to read. -/
  once : ∀ sub ∈ s.subscriptions, ∀ start, sub.startedAt = some start →
    sub.delivered.map (·.data) <+: s.stream.drop start ∧
      (sub.pc = .xread → (∀ e ∈ s.stream, e.id ≤ sub.lastId) →
        sub.delivered.map (·.data) = s.stream.drop start)
  /-- The filter of the flush drops exactly the replayed chunks. -/
  filtered : ∀ snapshot ∈ s.snapshots, (∀ r ∈ snapshot, r.data.data.complete = false) →
    ∀ sub ∈ s.subscriptions, ∀ r ∈ sub.delivered, (∃ c, r.data.data.chunk = .object c) →
      ((r.sequenceNumber : Int) ≤ maxReplayedSeq (-1) snapshot ↔
        r.data ∈ snapshot.map (·.data))

end System

/-! ### Ids and positions -/

variable {l : List (Entry χ)} {e : Entry χ}

/-- Ids are positive and increase along the stream. -/
structure Increasing (l : List (Entry χ)) : Prop where
  pairwise : l.Pairwise fun a b => a.id < b.id
  positive : ∀ e ∈ l, 0 < e.id

theorem Increasing.le_lastIdOf (h : Increasing l) (he : e ∈ l) : e.id ≤ lastIdOf l := by
  rcases List.eq_nil_or_concat l with rfl | ⟨init, last, rfl⟩
  · cases he
  · have hlast : lastIdOf (init ++ [last]) = last.id := by simp [lastIdOf]
    rw [List.concat_eq_append] at he h ⊢
    rw [hlast]
    rcases List.mem_append.mp he with hinit | hsingle
    · have hlt := (List.pairwise_append.mp h.pairwise).2.2 e hinit last (List.mem_singleton.mpr rfl)
      omega
    · rw [List.mem_singleton.mp hsingle]

theorem lastIdOf_lt {b : Nat} (h : ∀ e ∈ l, e.id < b) (hb : 0 < b) : lastIdOf l < b := by
  unfold lastIdOf
  cases hl : l.getLast? with
  | none => simpa using hb
  | some last => simpa using h last (List.mem_of_getLast? hl)

theorem Increasing.append (h : Increasing l) (he : lastIdOf l < e.id) : Increasing (l ++ [e]) where
  pairwise := by
    apply List.pairwise_append.mpr
    refine ⟨h.pairwise, by simp, fun a ha b hb => ?_⟩
    obtain rfl := List.mem_singleton.mp hb
    exact (h.le_lastIdOf ha).trans_lt he
  positive a ha := by
    rcases List.mem_append.mp ha with hold | hnew
    · exact h.positive a hold
    · obtain rfl := List.mem_singleton.mp hnew
      omega

theorem Increasing.nodup (h : Increasing l) : (l.map (·.id)).Nodup := by
  apply List.pairwise_map.mpr
  exact h.pairwise.imp fun hab => Nat.ne_of_lt hab

/-- `XREAD` after the id of the `n`-th entry returns what follows it. -/
theorem Increasing.filter_lastIdOf (h : Increasing l) (n : Nat) :
    l.filter (fun e => decide (lastIdOf (l.take n) < e.id)) = l.drop n := by
  have hsplit := List.take_append_drop n l
  have hpw := h.pairwise
  rw [← hsplit] at hpw
  obtain ⟨htake, _, hcross⟩ := List.pairwise_append.mp hpw
  have hinc : Increasing (l.take n) := ⟨htake, fun e he => h.positive e (List.mem_of_mem_take he)⟩
  have hfront : (l.take n).filter (fun e => decide (lastIdOf (l.take n) < e.id)) = [] := by
    apply List.filter_eq_nil_iff.mpr
    intro e he
    have hle := hinc.le_lastIdOf he
    simp only [decide_eq_true_eq]
    omega
  have hback : (l.drop n).filter (fun e => decide (lastIdOf (l.take n) < e.id)) = l.drop n := by
    apply List.filter_eq_self.mpr
    intro e he
    apply decide_eq_true
    exact lastIdOf_lt (fun a ha => hcross a ha e he) (h.positive e (List.mem_of_mem_drop he))
  calc l.filter (fun e => decide (lastIdOf (l.take n) < e.id))
      = (l.take n ++ l.drop n).filter (fun e => decide (lastIdOf (l.take n) < e.id)) := by
        rw [hsplit]
    _ = l.drop n := by rw [List.filter_append, hfront, hback, List.nil_append]

theorem mem_numbered {r : Reported χ} : r ∈ numbered l ↔ ∃ (i : Nat) (e : Entry χ),
    l[i]? = some e ∧ r = entryToItem e (i + 1) := by
  unfold numbered
  rw [List.mem_mapIdx]
  constructor
  · rintro ⟨i, hi, rfl⟩
    exact ⟨i, l[i], List.getElem?_eq_getElem hi, rfl⟩
  · rintro ⟨i, e, he, rfl⟩
    obtain ⟨hi, rfl⟩ := List.getElem?_eq_some_iff.mp he
    exact ⟨i, hi, rfl⟩

/-! ### One subscription -/

/-- The subscription has started at length `start` and delivered the next `k` entries. -/
structure Reading (l : List (Entry χ)) (sub : Subscription χ) (start k : Nat) : Prop where
  startedAt : sub.startedAt = some start
  bound : start + k ≤ l.length
  base : sub.baseOrdinal = start
  counter : sub.ordinalCounter = k
  lastId : sub.lastId = lastIdOf (l.take (start + k))
  delivered : sub.delivered = ((l.drop start).take k).mapIdx fun i e => entryToItem e (start + i + 1)

variable {sub : Subscription χ} {start k : Nat}

theorem Reading.append (h : Reading l sub start k) : Reading (l ++ [e]) sub start k where
  startedAt := h.startedAt
  bound := by
    have hb := h.bound
    simp only [List.length_append, List.length_singleton]
    omega
  base := h.base
  counter := h.counter
  lastId := by rw [List.take_append_of_le_length h.bound]; exact h.lastId
  delivered := by
    have hb := h.bound
    rw [List.drop_append_of_le_length (by omega), List.take_append_of_le_length (by simp; omega)]
    exact h.delivered

theorem Reading.deliverOne (h : Reading l sub start k) (he : l[start + k]? = some e) :
    Reading l (sub.deliverOne e) start (k + 1) where
  startedAt := h.startedAt
  bound := by
    obtain ⟨hlt, _⟩ := List.getElem?_eq_some_iff.mp he
    omega
  base := h.base
  counter := by simp [Subscription.deliverOne, h.counter]
  lastId := by
    have htake : l.take (start + (k + 1)) = l.take (start + k) ++ [e] := by
      rw [← Nat.add_assoc, List.take_add_one, he, Option.toList_some]
    rw [htake]
    simp [Subscription.deliverOne, lastIdOf]
  delivered := by
    have hb := h.bound
    have hnext : (l.drop start)[k]? = some e := by rw [List.getElem?_drop]; exact he
    have hlen : ((l.drop start).take k).length = k := by
      rw [List.length_take, List.length_drop]
      omega
    rw [List.take_add_one, hnext, Option.toList_some, List.mapIdx_concat, hlen, ← h.delivered]
    simp [Subscription.deliverOne, h.base, h.counter, Nat.add_assoc]

/-- A batch read from where the subscription stands keeps it in step with the stream. -/
theorem Reading.deliver (h : Reading l sub start k) (n : Nat) :
    ∃ k', Reading l (((l.drop (start + k)).take n).foldl Subscription.deliverOne sub) start k' := by
  induction n generalizing sub k with
  | zero => exact ⟨k, h⟩
  | succ n ih =>
    cases he : l[start + k]? with
    | none =>
      have hlen := List.getElem?_eq_none_iff.mp he
      rw [List.drop_eq_nil_of_le hlen]
      exact ⟨k, h⟩
    | some e =>
      obtain ⟨hlt, rfl⟩ := List.getElem?_eq_some_iff.mp he
      rw [List.drop_eq_getElem_cons hlt, List.take_succ_cons, List.foldl_cons]
      exact ih (h.deliverOne he)

theorem deliver_pc (entries : List (Entry χ)) (sub : Subscription χ) :
    (entries.foldl Subscription.deliverOne sub).pc = sub.pc := by
  induction entries generalizing sub with
  | nil => rfl
  | cons e entries ih => exact ih (sub.deliverOne e)

/-- The reply to `XREAD` is the next part of the stream. -/
theorem Reading.xreadReply (h : Reading l sub start k) (hl : Increasing l) :
    sub.xreadReply l = (l.drop (start + k)).take 100 := by
  rw [Subscription.xreadReply, h.lastId, hl.filter_lastIdOf]

/-- What holds of a subscription at each of its program points. -/
def SubscriptionInv (l : List (Entry χ)) (sub : Subscription χ) : Prop :=
  match sub.pc with
  | .xrevrange => sub = .start
  | .xlen => sub = ⟨.xlen, lastIdOf l, 0, 0, some l.length, []⟩
  | .xread => ∃ start k, Reading l sub start k
  | .closed => sub.delivered = [] ∨ ∃ start k, Reading l sub start k

theorem SubscriptionInv.append (h : SubscriptionInv l sub) (hpc : sub.pc ≠ .xlen) :
    SubscriptionInv (l ++ [e]) sub := by
  unfold SubscriptionInv at h ⊢
  cases hp : sub.pc with
  | xrevrange =>
    rw [hp] at h
    exact h
  | xlen => exact absurd hp hpc
  | xread =>
    rw [hp] at h
    obtain ⟨start, k, hr⟩ := h
    exact ⟨start, k, hr.append⟩
  | closed =>
    rw [hp] at h
    exact h.imp_right fun ⟨start, k, hr⟩ => ⟨start, k, hr.append⟩

theorem SubscriptionInv.closed (h : SubscriptionInv l sub) :
    SubscriptionInv l { sub with pc := .closed } := by
  unfold SubscriptionInv at h ⊢
  cases hp : sub.pc with
  | xrevrange =>
    rw [hp] at h
    exact Or.inl (by rw [h]; rfl)
  | xlen =>
    rw [hp] at h
    exact Or.inl (by rw [h])
  | xread =>
    rw [hp] at h
    obtain ⟨start, k, hr⟩ := h
    exact Or.inr ⟨start, k, hr.1, hr.2, hr.3, hr.4, hr.5, hr.6⟩
  | closed =>
    rw [hp] at h
    exact h.imp_right fun ⟨start, k, hr⟩ => ⟨start, k, hr.1, hr.2, hr.3, hr.4, hr.5, hr.6⟩

theorem SubscriptionInv.xread (h : SubscriptionInv l sub) (hl : Increasing l)
    (hpc : sub.pc = .xread) (abortAfter : Option Nat) :
    SubscriptionInv l (sub.xread l abortAfter) := by
  unfold SubscriptionInv at h
  rw [hpc] at h
  obtain ⟨start, k, hr⟩ := h
  cases abortAfter with
  | none =>
    have hpc' : (sub.xread l none).pc = .xread := (deliver_pc _ _).trans hpc
    obtain ⟨k', hk'⟩ := hr.deliver 100
    rw [← hr.xreadReply hl] at hk'
    unfold SubscriptionInv
    rw [hpc']
    exact ⟨start, k', hk'⟩
  | some n =>
    obtain ⟨k', hk'⟩ := hr.deliver (min n 100)
    rw [← List.take_take, ← hr.xreadReply hl] at hk'
    exact Or.inr ⟨start, k', hk'.1, hk'.2, hk'.3, hk'.4, hk'.5, hk'.6⟩

theorem Reading.delivered_data (h : Reading l sub start k) :
    sub.delivered.map (·.data) = (l.drop start).take k := by
  rw [h.delivered]
  apply List.ext_getElem?
  intro i
  simp [List.getElem?_mapIdx, entryToItem, Function.comp_def]

theorem SubscriptionInv.delivered (h : SubscriptionInv l sub) :
    sub.delivered = [] ∨ ∃ start k, Reading l sub start k := by
  unfold SubscriptionInv at h
  cases hp : sub.pc with
  | xrevrange =>
    rw [hp] at h
    exact Or.inl (by rw [h]; rfl)
  | xlen =>
    rw [hp] at h
    exact Or.inl (by rw [h])
  | xread =>
    rw [hp] at h
    exact Or.inr h
  | closed =>
    rw [hp] at h
    exact h

/-! ### All clients of the stream -/

namespace System

structure Inv (s : System χ) : Prop where
  increasing : Increasing s.stream
  appending : s.appending = [] ∨ ∃ e, s.appending = [e] ∧ s.stream.getLast? = some e
  returned : ∀ r ∈ s.returned, s.AtPosition r
  pages : ∀ r ∈ s.pages, s.AtPosition r
  snapshots : ∀ snapshot ∈ s.snapshots, ∃ n ≤ s.stream.length,
    snapshot = numbered (s.stream.take n)
  subscriptions : ∀ sub ∈ s.subscriptions, SubscriptionInv s.stream sub

variable {s t : System χ}

theorem AtPosition.append {r : Reported χ} (h : s.AtPosition r) (ht : t.stream = s.stream ++ [e]) :
    t.AtPosition r := by
  refine ⟨h.1, ?_⟩
  obtain ⟨hlt, _⟩ := List.getElem?_eq_some_iff.mp h.2
  rw [ht, List.getElem?_append_left hlt]
  exact h.2

theorem atPosition_of_mem_numbered {r : Reported χ} {n : Nat}
    (h : r ∈ numbered (s.stream.take n)) : s.AtPosition r := by
  obtain ⟨i, e, he, rfl⟩ := mem_numbered.mp h
  refine ⟨Nat.succ_pos i, ?_⟩
  rw [List.getElem?_take] at he
  split at he
  next => exact he
  next => cases he

theorem atPosition_of_reading {r : Reported χ} (h : Reading s.stream sub start k)
    (hr : r ∈ sub.delivered) : s.AtPosition r := by
  rw [h.delivered, List.mem_mapIdx] at hr
  obtain ⟨i, hi, rfl⟩ := hr
  refine ⟨Nat.succ_pos _, ?_⟩
  have hget := List.getElem?_eq_getElem hi
  have hik : i < k := by
    rw [List.length_take] at hi
    omega
  rw [List.getElem?_take_of_lt hik, List.getElem?_drop] at hget
  simp [entryToItem, hget]

theorem mem_of_mem_page {α : Type*} {items : List (BrokerItem α)} {limit cursor : Option Nat}
    {r : BrokerItem α} (h : r ∈ (InMemoryStream.page items limit cursor).items) : r ∈ items := by
  unfold InMemoryStream.page at h
  have hmem := List.mem_of_mem_take h
  split at hmem
  next => exact List.mem_of_mem_filter hmem
  next => exact hmem

theorem Inv.exec (h : s.Inv) (hcount : s.noneCounting = true) (ms gap : Nat)
    (data : CompletionChunkData χ) : (s.exec ms gap data).Inv := by
  simp only [noneCounting, Bool.and_eq_true, List.isEmpty_iff, List.all_eq_true, bne_iff_ne] at hcount
  obtain ⟨hnone, hsubs⟩ := hcount
  let e : Entry χ := ⟨lastIdOf s.stream + 1 + gap, ms, data⟩
  have hstream : (s.exec ms gap data).stream = s.stream ++ [e] := rfl
  constructor
  · rw [hstream]
    apply h.increasing.append
    simp only [e]
    omega
  · refine Or.inr ⟨e, ?_, by rw [hstream, List.getLast?_concat]⟩
    simp [System.exec, hnone, e]
  · exact fun r hr => (h.returned r hr).append hstream
  · exact fun r hr => (h.pages r hr).append hstream
  · intro snapshot hs
    obtain ⟨n, hn, hsnap⟩ := h.snapshots snapshot hs
    refine ⟨n, by rw [hstream, List.length_append]; omega, ?_⟩
    rw [hstream, List.take_append_of_le_length hn]
    exact hsnap
  · exact fun sub hsub => (h.subscriptions sub hsub).append (hsubs sub hsub)

theorem Inv.appendXlen (h : s.Inv) {i : Nat} (he : s.appending[i]? = some e) :
    ({ s with
      appending := s.appending.eraseIdx i
      returned := s.returned ++ [entryToItem e s.stream.length] } : System χ).Inv := by
  rcases h.appending with hnone | ⟨e', hone, hlast⟩
  · simp [hnone] at he
  · have hi : i = 0 ∧ e' = e := by
      rw [hone] at he
      cases i with
      | zero => exact ⟨rfl, by simpa using he⟩
      | succ i => simp at he
    obtain ⟨rfl, rfl⟩ := hi
    refine ⟨h.increasing, Or.inl (by simp [hone]), ?_, h.pages, h.snapshots, h.subscriptions⟩
    intro r hr
    rcases List.mem_append.mp hr with hold | hnew
    · exact h.returned r hold
    · obtain rfl := List.mem_singleton.mp hnew
      rw [List.getLast?_eq_getElem?] at hlast
      obtain ⟨hlt, _⟩ := List.getElem?_eq_some_iff.mp hlast
      exact ⟨by simp only [entryToItem]; omega, hlast⟩

theorem Inv.updateSubscription (h : s.Inv) {i : Nat} {pcs : List SubscriptionPc}
    {f : Subscription χ → Subscription χ}
    (hf : ∀ sub, sub.pc ∈ pcs → SubscriptionInv s.stream sub → SubscriptionInv s.stream (f sub))
    (hs : s.updateSubscription i pcs f = some t) : t.Inv := by
  unfold System.updateSubscription at hs
  split at hs
  next sub hsub =>
    obtain ⟨hpc, rfl⟩ := Option.ite_none_right_eq_some.mp hs |>.imp_right Option.some.inj
    have hmem := List.mem_of_getElem? hsub
    refine ⟨h.increasing, h.appending, h.returned, h.pages, h.snapshots, fun sub' hsub' => ?_⟩
    rcases List.mem_or_eq_of_mem_set hsub' with hold | rfl
    · exact h.subscriptions sub' hold
    · exact hf sub hpc (h.subscriptions sub hmem)
  next => cases hs

theorem Inv.step {a : Action χ} (h : s.Inv) (hok : s.countsUndisturbed a = true)
    (hs : s.step a = some t) : t.Inv := by
  cases a with
  | appendChunk ms gap chunk =>
    obtain rfl := Option.some.inj hs
    exact h.exec hok ms gap _
  | completeQuery ms gap =>
    obtain rfl := Option.some.inj hs
    exact h.exec hok ms gap _
  | appendXlen i =>
    obtain ⟨e, he, rfl⟩ := Option.map_eq_some_iff.mp hs
    exact h.appendXlen he
  | getByQuery =>
    obtain rfl := Option.some.inj hs
    refine ⟨h.increasing, h.appending, h.returned, h.pages, ?_, h.subscriptions⟩
    intro snapshot hsnap
    rcases List.mem_append.mp hsnap with hold | hnew
    · exact h.snapshots snapshot hold
    · refine ⟨s.stream.length, le_rfl, ?_⟩
      rw [List.take_length]
      exact List.mem_singleton.mp hnew
  | paginate limit cursor =>
    obtain rfl := Option.some.inj hs
    refine ⟨h.increasing, h.appending, h.returned, ?_, h.snapshots, h.subscriptions⟩
    intro r hr
    rcases List.mem_append.mp hr with hold | hnew
    · exact h.pages r hold
    · apply atPosition_of_mem_numbered (n := s.stream.length)
      rw [List.take_length]
      exact mem_of_mem_page hnew
  | subscribe =>
    obtain rfl := Option.some.inj hs
    refine ⟨h.increasing, h.appending, h.returned, h.pages, h.snapshots, ?_⟩
    intro sub hsub
    rcases List.mem_append.mp hsub with hold | hnew
    · exact h.subscriptions sub hold
    · obtain rfl := List.mem_singleton.mp hnew
      rfl
  | xrevrange i =>
    apply h.updateSubscription _ hs
    intro sub hpc hsub
    have hp : sub.pc = .xrevrange := by simpa using hpc
    unfold SubscriptionInv at hsub ⊢
    rw [hp] at hsub
    rw [hsub]
    rfl
  | subscribeXlen i =>
    apply h.updateSubscription _ hs
    intro sub hpc hsub
    have hp : sub.pc = .xlen := by simpa using hpc
    unfold SubscriptionInv at hsub ⊢
    rw [hp] at hsub
    rw [hsub]
    exact ⟨s.stream.length, 0, rfl, le_rfl, rfl, rfl, by simp, by simp⟩
  | xread i abortAfter =>
    apply h.updateSubscription _ hs
    intro sub hpc hsub
    exact hsub.xread h.increasing (by simpa using hpc) abortAfter
  | xreadError i | abort i =>
    apply h.updateSubscription _ hs
    intro sub _ hsub
    exact hsub.closed

theorem Inv.once (h : s.Inv) (hsub : sub ∈ s.subscriptions) (hstart : sub.startedAt = some start) :
    sub.delivered.map (·.data) <+: s.stream.drop start ∧
      (sub.pc = .xread → (∀ e ∈ s.stream, e.id ≤ sub.lastId) →
        sub.delivered.map (·.data) = s.stream.drop start) := by
  have hinv := h.subscriptions sub hsub
  constructor
  · rcases hinv.delivered with hnone | ⟨start', k, hr⟩
    · rw [hnone]
      exact List.nil_prefix
    · obtain rfl := Option.some.inj (hr.startedAt.symm.trans hstart)
      rw [hr.delivered_data]
      exact List.take_prefix k _
  · intro hpc hlast
    unfold SubscriptionInv at hinv
    rw [hpc] at hinv
    obtain ⟨start', k, hr⟩ := hinv
    obtain rfl := Option.some.inj (hr.startedAt.symm.trans hstart)
    have hempty : s.stream.drop (start' + k) = [] := by
      rw [← h.increasing.filter_lastIdOf, ← hr.lastId]
      apply List.filter_eq_nil_iff.mpr
      intro e he
      simpa using hlast e he
    have hall : (s.stream.drop start').length ≤ k := by
      have hlen := List.drop_eq_nil_iff.mp hempty
      rw [List.length_drop]
      omega
    rw [hr.delivered_data, List.take_of_length_le hall]

theorem maxReplayedSeq_le {items : List (Reported χ)} {m n : Int} (hm : m ≤ n)
    (hl : ∀ r ∈ items, (r.sequenceNumber : Int) ≤ n) : maxReplayedSeq m items ≤ n := by
  induction items generalizing m with
  | nil => exact hm
  | cons r items ih =>
    have hr := hl r List.mem_cons_self
    have hrest : ∀ x ∈ items, (x.sequenceNumber : Int) ≤ n :=
      fun x hx => hl x (List.mem_cons_of_mem r hx)
    unfold maxReplayedSeq
    split
    · exact hm
    · split
      · exact ih (by omega) hrest
      · exact ih hm hrest

theorem le_maxReplayedSeq {items : List (Reported χ)} {m : Int}
    (hl : ∀ r ∈ items, r.data.data.complete = false) : m ≤ maxReplayedSeq m items ∧
      ∀ r ∈ items, (∃ c, r.data.data.chunk = .object c) →
        (r.sequenceNumber : Int) ≤ maxReplayedSeq m items := by
  induction items generalizing m with
  | nil => exact ⟨le_rfl, by simp⟩
  | cons r items ih =>
    have hrest : ∀ x ∈ items, x.data.data.complete = false :=
      fun x hx => hl x (List.mem_cons_of_mem r hx)
    simp only [maxReplayedSeq, hl r List.mem_cons_self, Bool.false_eq_true, if_false]
    cases hchunk : r.data.data.chunk with
    | object c =>
      obtain ⟨hle, hmem⟩ := ih (m := max m r.sequenceNumber) hrest
      dsimp only
      refine ⟨by omega, fun x hx hobj => ?_⟩
      rcases List.mem_cons.mp hx with rfl | hx
      · omega
      · exact hmem x hx hobj
    | text t =>
      obtain ⟨hle, hmem⟩ := ih (m := m) hrest
      refine ⟨hle, fun x hx hobj => ?_⟩
      rcases List.mem_cons.mp hx with rfl | hx
      · obtain ⟨c, hc⟩ := hobj
        simp [hchunk] at hc
      · exact hmem x hx hobj

/-- A delivered chunk is at or below `maxReplayedSeq` exactly when the replay had it. -/
theorem filter_drops_replayed (h : Increasing s.stream) {n : Nat} {r : Reported χ}
    (hr : s.AtPosition r) (hobj : ∃ c, r.data.data.chunk = .object c)
    (hcomplete : ∀ x ∈ numbered (s.stream.take n), x.data.data.complete = false) :
    (r.sequenceNumber : Int) ≤ maxReplayedSeq (-1) (numbered (s.stream.take n)) ↔
      r.data ∈ (numbered (s.stream.take n)).map (·.data) := by
  obtain ⟨hpos, hget⟩ := hr
  constructor
  · intro hle
    have hmax : maxReplayedSeq (-1) (numbered (s.stream.take n)) ≤ (n : Int) := by
      apply maxReplayedSeq_le (by omega)
      intro x hx
      obtain ⟨i, e, he, rfl⟩ := mem_numbered.mp hx
      obtain ⟨hlt, _⟩ := List.getElem?_eq_some_iff.mp he
      have hi : i < n := (List.length_take ▸ hlt).trans_le (Nat.min_le_left _ _)
      simp only [entryToItem]
      omega
    have hlt : r.sequenceNumber - 1 < n := by omega
    apply List.mem_map.mpr
    refine ⟨entryToItem r.data (r.sequenceNumber - 1 + 1), ?_, rfl⟩
    apply mem_numbered.mpr
    exact ⟨r.sequenceNumber - 1, r.data, by rw [List.getElem?_take_of_lt hlt]; exact hget, rfl⟩
  · intro hmem
    obtain ⟨x, hx, hdata⟩ := List.mem_map.mp hmem
    have hle := (le_maxReplayedSeq (m := -1) hcomplete).2 x hx (by rw [hdata]; exact hobj)
    obtain ⟨hxpos, hxget⟩ := atPosition_of_mem_numbered hx
    have hsame : x.sequenceNumber - 1 = r.sequenceNumber - 1 := by
      have hinj := h.nodup
      have hxid : (s.stream.map (·.id))[x.sequenceNumber - 1]? = some r.data.id := by
        rw [List.getElem?_map, hxget, hdata]
        rfl
      have hrid : (s.stream.map (·.id))[r.sequenceNumber - 1]? = some r.data.id := by
        rw [List.getElem?_map, hget]
        rfl
      obtain ⟨hlt, _⟩ := List.getElem?_eq_some_iff.mp hxid
      exact (List.getElem?_inj hlt hinj).mp (hxid.trans hrid.symm)
    omega

theorem Inv.ordinalsAgree (h : s.Inv) : s.OrdinalsAgree := by
  have hdelivered : ∀ sub ∈ s.subscriptions, ∀ r ∈ sub.delivered, s.AtPosition r := by
    intro sub hsub r hr
    rcases (h.subscriptions sub hsub).delivered with hnone | ⟨start, k, hread⟩
    · simp [hnone] at hr
    · exact atPosition_of_reading hread hr
  constructor
  · intro r hr
    simp only [reports, List.mem_append, List.mem_flatten, List.mem_flatMap] at hr
    rcases hr with ((hr | hr) | ⟨snapshot, hsnap, hr⟩) | ⟨sub, hsub, hr⟩
    · exact h.returned r hr
    · exact h.pages r hr
    · obtain ⟨n, _, rfl⟩ := h.snapshots snapshot hsnap
      exact atPosition_of_mem_numbered hr
    · exact hdelivered sub hsub r hr
  · exact h.increasing.nodup
  · intro sub hsub start hstart
    exact h.once hsub hstart
  · intro snapshot hsnap hcomplete sub hsub r hr hobj
    obtain ⟨n, _, rfl⟩ := h.snapshots snapshot hsnap
    exact filter_drops_replayed h.increasing (hdelivered sub hsub r hr) hobj hcomplete

/-- While no append falls between a command and the `XLEN` that counts for it, every path numbers
an entry alike and subscriptions deliver each entry once. -/
theorem chunk_ordinals_agree
    (h : (machine χ).Reachable (fun s a => s.countsUndisturbed a = true) s) : s.OrdinalsAgree := by
  have hinv : s.Inv := by
    apply h.invariant
    · rintro s ⟨queryId, rfl⟩
      exact ⟨⟨List.Pairwise.nil, by simp [System.start]⟩, Or.inl rfl, by simp [System.start],
        by simp [System.start], by simp [System.start], by simp [System.start]⟩
    · intro s a t hinv hok hs
      exact hinv.step hok hs
  exact hinv.ordinalsAgree

/-- Some reported item carries a number at which the stream has another chunk. -/
def misnumbered (s : System String) : Bool :=
  s.reports.any fun r =>
    (s.stream[r.sequenceNumber - 1]?.map (·.data.chunk)) != some r.data.data.chunk

theorem not_ordinalsAgree {s : System String} (h : s.misnumbered = true) : ¬ s.OrdinalsAgree := by
  intro hagree
  obtain ⟨r, hr, hne⟩ := List.any_eq_true.mp h
  have hget := (hagree.position r hr).2
  simp [hget] at hne

/-- The chunks and numbers of some reported items. -/
def ordinals (items : List (Reported String)) : List (ChunkValue String × Nat) :=
  items.map fun r => (r.data.data.chunk, r.sequenceNumber)

/-- Two publishers append before the first one counts, and it is given the second one's ordinal; an
entry appended between `XREVRANGE` and `XLEN` is counted and delivered. -/
theorem chunk_ordinals_shift :
    (∃ s, (machine String).Reachable Machine.always s ∧ ¬ s.OrdinalsAgree ∧
      ordinals s.returned = [(.object "a", 2)]) ∧
    ∃ s, (machine String).Reachable Machine.always s ∧ ¬ s.OrdinalsAgree ∧
      ordinals (s.subscriptions.flatMap (·.delivered)) = [(.object "a", 2)] := by
  constructor
  · obtain ⟨s, hs, hp⟩ : ∃ s, (machine String).Reachable Machine.always s ∧
        (s.misnumbered && decide (ordinals s.returned = [(.object "a", 2)])) = true :=
      Machine.exists_reachable (b := fun _ _ => true) ⟨"q", rfl⟩ (fun _ _ _ => trivial)
        (l := [.appendChunk 1 0 (.object "a"), .appendChunk 1 0 (.object "b"), .appendXlen 0])
        (by decide)
    obtain ⟨hmis, hret⟩ := Bool.and_eq_true_iff.mp hp
    exact ⟨s, hs, not_ordinalsAgree hmis, of_decide_eq_true hret⟩
  · obtain ⟨s, hs, hp⟩ : ∃ s, (machine String).Reachable Machine.always s ∧
        (s.misnumbered && decide (ordinals (s.subscriptions.flatMap (·.delivered))
          = [(.object "a", 2)])) = true :=
      Machine.exists_reachable (b := fun _ _ => true) ⟨"q", rfl⟩ (fun _ _ _ => trivial)
        (l := [.subscribe, .xrevrange 0, .appendChunk 1 0 (.object "a"), .subscribeXlen 0,
          .xread 0 none]) (by decide)
    obtain ⟨hmis, hret⟩ := Bool.and_eq_true_iff.mp hp
    exact ⟨s, hs, not_ordinalsAgree hmis, of_decide_eq_true hret⟩

/-- A chunk before the subscription, one after it, and a read. -/
theorem chunk_ordinals_agree_two : ∃ s : System String, s.OrdinalsAgree ∧
    ordinals s.returned = [(.object "a", 1), (.object "b", 2)] ∧
    ordinals (s.subscriptions.flatMap (·.delivered)) = [(.object "b", 2)] := by
  obtain ⟨s, hs, hp⟩ : ∃ s, (machine String).Reachable
      (fun s a => s.countsUndisturbed a = true) s ∧
      (decide (ordinals s.returned = [(.object "a", 1), (.object "b", 2)]) &&
        decide (ordinals (s.subscriptions.flatMap (·.delivered)) = [(.object "b", 2)])) = true :=
    Machine.exists_reachable (b := countsUndisturbed) ⟨"q", rfl⟩ (fun _ _ h => h)
      (l := [.appendChunk 1 0 (.object "a"), .appendXlen 0, .subscribe, .xrevrange 0,
        .subscribeXlen 0, .getByQuery, .appendChunk 2 3 (.object "b"), .xread 0 none,
        .appendXlen 0]) (by decide)
  simp only [Bool.and_eq_true, decide_eq_true_eq] at hp
  exact ⟨s, chunk_ordinals_agree hs, hp⟩

end System

end RedisChunkStream

end Ark
