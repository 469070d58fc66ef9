import Ark.Slots
import Ark.Watcher

/-!
# The shared broadcaster of a kind

`kindBroadcaster.run` reads the current maximum version once, then relists the kind below its
cursor whenever it is woken and offers every row it has not fanned out yet to its subscribers. A
broadcaster holds the state of the watchers that subscribed to it; those not stopped are its
subscribers.
-/

namespace Ark

/-- `start` comes before the cursor is primed. A scan keeps the rows still to be read, the highest
version read so far and the number of versions committed when its query ran. -/
inductive BroadcasterPc
  | start
  | relist
  | scanning (rows : List Row) (maxRV : Nat) (asOf : Nat)
  | idle
  deriving DecidableEq, Repr

/-- `kindBroadcaster`. `covered` is the number of versions that were committed when the query of
the last completed relist ran; the code does not keep it. -/
structure KindBroadcaster where
  kind : String
  lastSeenRV : Nat
  seenRVs : SeenVersions String
  watchers : Slots PostgresWatcher
  done : Bool
  consecutiveFailures : Nat
  pc : BroadcasterPc
  covered : Nat

namespace KindBroadcaster

def new (kind : String) : KindBroadcaster := ⟨kind, 0, .empty, [], false, 0, .start, 0⟩

def subscribe (b : KindBroadcaster) (wid : Nat) (w : PostgresWatcher) : KindBroadcaster :=
  { b with watchers := (wid, w) :: b.watchers }

/-- The rows `broadcasterRelistQuery` selects. -/
def relistQuery (b : KindBroadcaster) (x : Row) : Bool :=
  x.kind == b.kind && decide (b.lastSeenRV - relistLookbackRVs < x.rv)

def fanout (b : KindBroadcaster) (x : Row) : KindBroadcaster :=
  { b with watchers := b.watchers.map fun p => (p.1, p.2.offer x) }

/-- One row of the relist: fanned out unless it was seen before or does not decode. -/
def relistRow (b : KindBroadcaster) (x : Row) : KindBroadcaster :=
  if b.seenRVs.skips x.uid x.rv then b
  else
    let b := { b with seenRVs := b.seenRVs.mark x.uid x.rv }
    if x.decodable then b.fanout x else b

/-- The relist read every row: `advanceRV`, then `pruneSeen`. -/
def relistDone (b : KindBroadcaster) (maxRV asOf : Nat) : KindBroadcaster :=
  let rv := max b.lastSeenRV maxRV
  { b with
    lastSeenRV := rv
    seenRVs := b.seenRVs.prune (rv - seenWindow)
    consecutiveFailures := 0
    pc := .idle
    covered := asOf }

def onRelistFailure (b : KindBroadcaster) : KindBroadcaster :=
  { b with consecutiveFailures := b.consecutiveFailures + 1, pc := .idle }

/-- `Stop` and the `unsubscribe` it calls: the last subscriber closes `done`. -/
def stop (b : KindBroadcaster) (wid : Nat) (w : PostgresWatcher) : KindBroadcaster :=
  let watchers := b.watchers.put wid { w with pc := .stopped }
  { b with watchers, done := b.done || watchers.all (·.2.pc == .stopped) }

/-- `wake` is a nudge or a tick of the relist ticker; `prime` says whether `currentMaxRV` could
read the maximum. -/
inductive Action
  | prime (ok : Bool)
  | wake
  | relistQuery
  | relistRow
  | relistDone
  | relistError
  | stop (wid : Nat)
  | watcher (wid : Nat) (a : PostgresWatcher.Action)
  deriving DecidableEq, Repr

def step (db : Database) (cachedRV : Nat) (b : KindBroadcaster) (a : Action) :
    Option KindBroadcaster :=
  match a, b.pc with
  | .prime ok, .start =>
    some { b with lastSeenRV := if ok then db.maxResourceVersion else 0, pc := .relist }
  | .wake, .idle => some { b with pc := .relist }
  | .relistQuery, .relist =>
    some { b with pc := .scanning (db.select b.relistQuery) b.lastSeenRV db.log.length }
  | .relistRow, .scanning (x :: xs) maxRV asOf =>
    some { b.relistRow x with pc := .scanning xs (max maxRV x.rv) asOf }
  | .relistDone, .scanning [] maxRV asOf => some (b.relistDone maxRV asOf)
  | .relistError, .relist | .relistError, .scanning .. => some b.onRelistFailure
  | .stop wid, _ => do
    let w ← b.watchers.get? wid
    if w.pc = .stopped then none else some (b.stop wid w)
  | .watcher wid a, _ => do
    let w ← b.watchers.get? wid
    let w' ← w.step db cachedRV a
    some { b with watchers := b.watchers.put wid w' }
  | _, _ => none

/-- The outcomes of a step, one for each branch of the code it runs. -/
inductive Effect (db : Database) (cachedRV : Nat) (b : KindBroadcaster) :
    Action → KindBroadcaster → Prop
  | prime {ok : Bool} (hpc : b.pc = .start) :
      Effect db cachedRV b (.prime ok)
        { b with lastSeenRV := if ok then db.maxResourceVersion else 0, pc := .relist }
  | wake (hpc : b.pc = .idle) : Effect db cachedRV b .wake { b with pc := .relist }
  | relistQuery (hpc : b.pc = .relist) :
      Effect db cachedRV b .relistQuery
        { b with pc := .scanning (db.select b.relistQuery) b.lastSeenRV db.log.length }
  | rowPassed {x : Row} {xs : List Row} {maxRV asOf : Nat}
      (hpc : b.pc = .scanning (x :: xs) maxRV asOf) (hskip : b.seenRVs.skips x.uid x.rv = true) :
      Effect db cachedRV b .relistRow { b with pc := .scanning xs (max maxRV x.rv) asOf }
  | rowMarked {x : Row} {xs : List Row} {maxRV asOf : Nat}
      (hpc : b.pc = .scanning (x :: xs) maxRV asOf) (hskip : b.seenRVs.skips x.uid x.rv = false)
      (hdec : x.decodable = false) :
      Effect db cachedRV b .relistRow
        { b with
          seenRVs := b.seenRVs.mark x.uid x.rv
          pc := .scanning xs (max maxRV x.rv) asOf }
  | rowFannedOut {x : Row} {xs : List Row} {maxRV asOf : Nat}
      (hpc : b.pc = .scanning (x :: xs) maxRV asOf) (hskip : b.seenRVs.skips x.uid x.rv = false)
      (hdec : x.decodable = true) :
      Effect db cachedRV b .relistRow
        { b with
          seenRVs := b.seenRVs.mark x.uid x.rv
          watchers := b.watchers.map fun p => (p.1, p.2.offer x)
          pc := .scanning xs (max maxRV x.rv) asOf }
  | relistDone {maxRV asOf : Nat} (hpc : b.pc = .scanning [] maxRV asOf) :
      Effect db cachedRV b .relistDone (b.relistDone maxRV asOf)
  | relistError (hpc : b.pc = .relist ∨ ∃ rows maxRV asOf, b.pc = .scanning rows maxRV asOf) :
      Effect db cachedRV b .relistError b.onRelistFailure
  | stop {wid : Nat} {w : PostgresWatcher} (hw : b.watchers.get? wid = some w)
      (hpc : w.pc ≠ .stopped) : Effect db cachedRV b (.stop wid) (b.stop wid w)
  | watcher {wid : Nat} {w w' : PostgresWatcher} {a : PostgresWatcher.Action}
      (hw : b.watchers.get? wid = some w) (hs : w.step db cachedRV a = some w') :
      Effect db cachedRV b (.watcher wid a) { b with watchers := b.watchers.put wid w' }

theorem step_effect {db : Database} {cachedRV : Nat} {b b' : KindBroadcaster} {a : Action}
    (h : b.step db cachedRV a = some b') : Effect db cachedRV b a b' := by
  unfold step at h
  split at h
  next ok hpc =>
    obtain rfl := Option.some.inj h
    exact .prime hpc
  next hpc =>
    obtain rfl := Option.some.inj h
    exact .wake hpc
  next hpc =>
    obtain rfl := Option.some.inj h
    exact .relistQuery hpc
  next x xs maxRV asOf hpc =>
    obtain rfl := Option.some.inj h
    unfold relistRow
    split
    next hskip => exact .rowPassed hpc hskip
    next hskip =>
      rw [Bool.not_eq_true] at hskip
      cases hdec : x.decodable with
      | true => exact .rowFannedOut hpc hskip hdec
      | false => exact .rowMarked hpc hskip hdec
  next maxRV asOf hpc =>
    obtain rfl := Option.some.inj h
    exact .relistDone hpc
  next hpc =>
    obtain rfl := Option.some.inj h
    exact .relistError (.inl hpc)
  next rows maxRV asOf hpc =>
    obtain rfl := Option.some.inj h
    exact .relistError (.inr ⟨rows, maxRV, asOf, hpc⟩)
  next wid =>
    obtain ⟨w, hw, h⟩ := Option.bind_eq_some_iff.mp h
    split at h
    next => cases h
    next hpc =>
      obtain rfl := Option.some.inj h
      exact .stop hw hpc
  next wid a =>
    obtain ⟨w, hw, h⟩ := Option.bind_eq_some_iff.mp h
    obtain ⟨w', hs, h⟩ := Option.bind_eq_some_iff.mp h
    obtain rfl := Option.some.inj h
    exact .watcher hw hs
  next => cases h

end KindBroadcaster
end Ark
