import Ark.Database
import Ark.SeenVersions

/-!
# One watch stream

`postgresWatcher.run` interleaves its own filtered relists with rows the kind's broadcaster put in
`inputCh`. Each value of `WatcherPc` is a point where other goroutines may act in between. Once
`Stop` was called nothing reads the stream any more, so a stopped watcher takes no further step.
-/

namespace Ark

/-- How far below its cursor a relist re-reads. -/
def relistLookbackRVs : Nat := 500

theorem relistLookbackRVs_pos : 0 < relistLookbackRVs := by decide

/-- How far below its cursor a reader remembers what it has seen. -/
def seenWindow : Nat := 5000

inductive EventType
  | added
  | modified
  | deleted
  deriving DecidableEq, Repr

/-- An event sent on `outCh`; a change carries the row its object was reconstructed from. -/
inductive WatchEvent
  | change (type : EventType) (row : Row)
  | bookmark (rv : Nat) (initialEventsEnd : Bool)
  deriving DecidableEq, Repr

/-- The filters a watch is opened with; an empty `labelSel` is the nil selector. -/
structure WatchFilter where
  kind : String
  ns : String
  labelSel : List Selector.Requirement
  fieldPreds : List FieldPredicate
  deriving DecidableEq

/-- `matchesWatcher`, the in-memory filter of the fan-out. -/
def WatchFilter.matchesWatcher (f : WatchFilter) (x : Row) : Bool :=
  (f.ns == "" || f.ns == x.ns) && Selector.matches f.labelSel x.labels &&
    f.fieldPreds.all (·.holds x.name x.ns)

/-- The condition of `buildRelistQuery`; `none` when composing the label clauses panics. -/
def WatchFilter.buildRelistQuery (f : WatchFilter) (queryFromRV : Nat) : Option (Row → Bool) :=
  (Selector.labelSelectorSQL f.labelSel).map fun clauses x =>
    x.kind == f.kind && decide (queryFromRV < x.rv) && (f.ns == "" || x.ns == f.ns) &&
      (Selector.sqlWhere clauses x.labels == some true) && f.fieldPreds.all (·.holds x.name x.ns)

/-- The row belongs to the stream: it is of the kind and passes the filters. -/
def WatchFilter.wants (f : WatchFilter) (x : Row) : Prop :=
  x.kind = f.kind ∧ f.matchesWatcher x = true

instance (f : WatchFilter) (x : Row) : Decidable (f.wants x) :=
  inferInstanceAs (Decidable (_ ∧ _))

/-- Both filter paths select the same rows. -/
theorem WatchFilter.buildRelistQuery_iff {f : WatchFilter} {fromRV : Nat} {q : Row → Bool}
    (h : f.buildRelistQuery fromRV = some q) (x : Row) :
    q x = true ↔ f.wants x ∧ fromRV < x.rv := by
  obtain ⟨cs, hcs, rfl⟩ := Option.map_eq_some_iff.mp h
  have hsql := Selector.labelSelectorSQL_where hcs x.labels
  simp only [wants, matchesWatcher, Bool.and_eq_true, beq_iff_eq, decide_eq_true_eq, Bool.or_eq_true,
    hsql]
  constructor
  · rintro ⟨⟨⟨⟨hk, hrv⟩, hns⟩, hl⟩, hf⟩
    exact ⟨⟨hk, ⟨hns.imp_right Eq.symm, hl⟩, hf⟩, hrv⟩
  · rintro ⟨⟨hk, ⟨hns, hl⟩, hf⟩, hrv⟩
    exact ⟨⟨⟨⟨hk, hrv⟩, hns.imp_right Eq.symm⟩, hl⟩, hf⟩

/-- The call of `recoverIfBehind` in `run`: after a bookmark tick or after a row. -/
inductive Recovery
  | tick
  | row
  deriving DecidableEq, Repr

/-- The call of `relist`: the initial one, or the catch-up of `recoverIfBehind`. -/
inductive Cause
  | initial
  | catchUp (r : Recovery)
  deriving DecidableEq, Repr

inductive WatcherPc
  | relist (cause : Cause)
  | scanning (cause : Cause) (rows : List Row)
  | bookmark
  | select
  | forwarding (row : Row)
  | recover (r : Recovery)
  | stopped
  deriving DecidableEq, Repr

/-- Where `run` continues after the relist. -/
def Cause.next : Cause → WatcherPc
  | .initial | .catchUp .tick => .bookmark
  | .catchUp .row => .select

theorem Cause.next_ne (cause : Cause) :
    (∀ x, cause.next ≠ .forwarding x) ∧ ∀ c rows, cause.next ≠ .scanning c rows := by
  rcases cause with _ | _ | _ <;> simp [Cause.next]

/-- `postgresWatcher`. `outCh` lists everything sent and `received` counts what the client has
taken. `initialRelist` records how the initial relist ended and `relistFailed` whether the last
relist failed; the code keeps neither. -/
structure PostgresWatcher where
  filter : WatchFilter
  startRV : Nat
  lastSeenRV : Nat
  seenRVs : SeenVersions String
  behind : Bool
  initialListDone : Bool
  inputCh : List Row
  outCh : List WatchEvent
  received : Nat
  pc : WatcherPc
  initialRelist : Option Bool
  relistFailed : Bool

namespace PostgresWatcher

/-- The watcher `Watch` builds. -/
def new (filter : WatchFilter) (startRV : Nat) : PostgresWatcher :=
  ⟨filter, startRV, startRV, .empty, false, false, [], [], 0, .relist .initial, none, false⟩

def inputCap : Nat := 256

def outCap : Nat := 100

/-- A send on `outCh` does not block. -/
def hasRoom (w : PostgresWatcher) : Bool := decide (w.outCh.length - w.received < outCap)

def resumeFloor (w : PostgresWatcher) : Nat := w.startRV - relistLookbackRVs

def queryFromRV (w : PostgresWatcher) : Nat := max (w.lastSeenRV - relistLookbackRVs) w.resumeFloor

def resumeEventType (w : PostgresWatcher) (rv : Nat) (deleted uidNew : Bool) : EventType :=
  if deleted then .deleted
  else if rv ≤ w.startRV then .modified
  else if uidNew then .added
  else .modified

def hasSeenUID (w : PostgresWatcher) (uid : String) : Bool := (w.seenRVs uid).isSome

/-- Record the row, advance the cursor and send its event. -/
def emit (w : PostgresWatcher) (x : Row) : PostgresWatcher :=
  { w with
    seenRVs := w.seenRVs.mark x.uid x.rv
    lastSeenRV := max w.lastSeenRV x.rv
    outCh := w.outCh ++ [.change (w.resumeEventType x.rv x.deleted (!w.hasSeenUID x.uid)) x] }

/-- `emitRow`; `none` while the send blocks. -/
def emitRow (w : PostgresWatcher) (x : Row) : Option PostgresWatcher :=
  if w.seenRVs.skips x.uid x.rv then some w
  else if !x.decodable then some { w with seenRVs := w.seenRVs.mark x.uid x.rv }
  else if w.hasRoom then some (w.emit x)
  else none

/-- `forwardRow`; `none` while the send blocks. -/
def forwardRow (w : PostgresWatcher) (x : Row) : Option PostgresWatcher :=
  if x.rv ≤ w.resumeFloor then some w
  else if w.seenRVs.skips x.uid x.rv then some w
  else if w.hasRoom then some (w.emit x)
  else none

def pruneSeen (w : PostgresWatcher) : PostgresWatcher :=
  { w with seenRVs := w.seenRVs.prune (w.lastSeenRV - seenWindow) }

/-- How a relist ends, for the two fields that record it. -/
def recordRelist (w : PostgresWatcher) (cause : Cause) (ok : Bool) : PostgresWatcher :=
  { w with
    initialRelist := if cause = .initial then some ok else w.initialRelist
    relistFailed := !ok }

/-- `relist` returned nil. -/
def relistDone (w : PostgresWatcher) (cause : Cause) : PostgresWatcher :=
  { w.pruneSeen.recordRelist cause true with pc := cause.next }

/-- `relist` returned an error: its caller arms `behind`. -/
def relistError (w : PostgresWatcher) (cause : Cause) : PostgresWatcher :=
  { w.recordRelist cause false with behind := true, pc := cause.next }

/-- The version `sendBookmark` advertises; 0 means that it sends nothing. -/
def bookmarkRV (w : PostgresWatcher) (cachedRV : Nat) : Nat := max cachedRV w.lastSeenRV

/-- `sendBookmark`: never blocks, drops the bookmark when `outCh` is full. -/
def sendBookmark (w : PostgresWatcher) (cachedRV : Nat) : PostgresWatcher :=
  let rv := w.bookmarkRV cachedRV
  { w with
    initialListDone := w.initialListDone || rv != 0
    outCh := if rv != 0 && w.hasRoom then w.outCh ++ [.bookmark rv (!w.initialListDone)]
      else w.outCh }

/-- `recoverIfBehind` up to its relist. -/
def recoverIfBehind (w : PostgresWatcher) (r : Recovery) : PostgresWatcher :=
  if w.behind then { w with behind := false, pc := .relist (.catchUp r) }
  else { w with pc := (Cause.catchUp r).next }

/-- The broadcaster's non-blocking send of one row. -/
def offer (x : Row) (w : PostgresWatcher) : PostgresWatcher :=
  if w.pc = .stopped || !w.filter.matchesWatcher x then w
  else if w.inputCh.length < inputCap then { w with inputCh := w.inputCh ++ [x] }
  else { w with behind := true }

inductive Action
  | relistQuery
  | relistError
  | relistRow
  | relistDone
  | sendBookmark
  | tick
  | receive
  | forwardRow
  | recoverIfBehind
  | consume
  deriving DecidableEq, Repr

def step (db : Database) (cachedRV : Nat) (w : PostgresWatcher) (a : Action) :
    Option PostgresWatcher :=
  match a, w.pc with
  | .relistQuery, .relist cause =>
    (w.filter.buildRelistQuery w.queryFromRV).map fun q =>
      { w with pc := .scanning cause (db.select q) }
  | .relistError, .relist cause | .relistError, .scanning cause _ => some (w.relistError cause)
  | .relistRow, .scanning cause (x :: xs) =>
    (w.emitRow x).map fun w => { w with pc := .scanning cause xs }
  | .relistDone, .scanning cause [] => some (w.relistDone cause)
  | .sendBookmark, .bookmark => some { w.sendBookmark cachedRV with pc := .select }
  | .tick, .select => some { w with pc := .recover .tick }
  | .receive, .select =>
    match w.inputCh with
    | x :: rest => some { w with inputCh := rest, pc := .forwarding x }
    | [] => none
  | .forwardRow, .forwarding x => (w.forwardRow x).map fun w => { w with pc := .recover .row }
  | .recoverIfBehind, .recover r => some (w.recoverIfBehind r)
  | .consume, _ => if w.received < w.outCh.length then some { w with received := w.received + 1 }
    else none
  | _, _ => none

/-- The outcomes of a step, one for each branch of the code it runs. -/
inductive Effect (db : Database) (cachedRV : Nat) (w : PostgresWatcher) :
    Action → PostgresWatcher → Prop
  | relistQuery {cause : Cause} {q : Row → Bool} (hpc : w.pc = .relist cause)
      (hq : w.filter.buildRelistQuery w.queryFromRV = some q) :
      Effect db cachedRV w .relistQuery { w with pc := .scanning cause (db.select q) }
  | queryError {cause : Cause} (hpc : w.pc = .relist cause) :
      Effect db cachedRV w .relistError (w.relistError cause)
  | scanError {cause : Cause} {rows : List Row} (hpc : w.pc = .scanning cause rows) :
      Effect db cachedRV w .relistError (w.relistError cause)
  | rowSkipped {cause : Cause} {x : Row} {xs : List Row} (hpc : w.pc = .scanning cause (x :: xs))
      (hskip : w.seenRVs.skips x.uid x.rv = true) :
      Effect db cachedRV w .relistRow { w with pc := .scanning cause xs }
  | rowUndecodable {cause : Cause} {x : Row} {xs : List Row}
      (hpc : w.pc = .scanning cause (x :: xs)) (hskip : w.seenRVs.skips x.uid x.rv = false)
      (hdec : x.decodable = false) :
      Effect db cachedRV w .relistRow
        { w with seenRVs := w.seenRVs.mark x.uid x.rv, pc := .scanning cause xs }
  | rowEmitted {cause : Cause} {x : Row} {xs : List Row} (hpc : w.pc = .scanning cause (x :: xs))
      (hskip : w.seenRVs.skips x.uid x.rv = false) (hdec : x.decodable = true)
      (hroom : w.hasRoom = true) :
      Effect db cachedRV w .relistRow { w.emit x with pc := .scanning cause xs }
  | relistDone {cause : Cause} (hpc : w.pc = .scanning cause []) :
      Effect db cachedRV w .relistDone (w.relistDone cause)
  | sendBookmark (hpc : w.pc = .bookmark) :
      Effect db cachedRV w .sendBookmark { w.sendBookmark cachedRV with pc := .select }
  | tick (hpc : w.pc = .select) : Effect db cachedRV w .tick { w with pc := .recover .tick }
  | receive {x : Row} {rest : List Row} (hpc : w.pc = .select) (hin : w.inputCh = x :: rest) :
      Effect db cachedRV w .receive { w with inputCh := rest, pc := .forwarding x }
  | forwardSkipped {x : Row} (hpc : w.pc = .forwarding x)
      (hskip : x.rv ≤ w.resumeFloor ∨ w.seenRVs.skips x.uid x.rv = true) :
      Effect db cachedRV w .forwardRow { w with pc := .recover .row }
  | forwardEmitted {x : Row} (hpc : w.pc = .forwarding x) (hfloor : w.resumeFloor < x.rv)
      (hskip : w.seenRVs.skips x.uid x.rv = false) (hroom : w.hasRoom = true) :
      Effect db cachedRV w .forwardRow { w.emit x with pc := .recover .row }
  | recover {r : Recovery} (hpc : w.pc = .recover r) (hb : w.behind = true) :
      Effect db cachedRV w .recoverIfBehind { w with behind := false, pc := .relist (.catchUp r) }
  | caughtUp {r : Recovery} (hpc : w.pc = .recover r) (hb : w.behind = false) :
      Effect db cachedRV w .recoverIfBehind { w with pc := (Cause.catchUp r).next }
  | consume (hlt : w.received < w.outCh.length) :
      Effect db cachedRV w .consume { w with received := w.received + 1 }

theorem step_effect {db : Database} {cachedRV : Nat} {w w' : PostgresWatcher} {a : Action}
    (h : w.step db cachedRV a = some w') : Effect db cachedRV w a w' := by
  unfold step at h
  split at h
  next cause hpc =>
    obtain ⟨q, hq, rfl⟩ := Option.map_eq_some_iff.mp h
    exact .relistQuery hpc hq
  next cause hpc =>
    obtain rfl := Option.some.inj h
    exact .queryError hpc
  next cause rows hpc =>
    obtain rfl := Option.some.inj h
    exact .scanError hpc
  next cause x xs hpc =>
    obtain ⟨v, hv, rfl⟩ := Option.map_eq_some_iff.mp h
    unfold emitRow at hv
    split at hv
    next hskip =>
      obtain rfl := Option.some.inj hv
      exact .rowSkipped hpc hskip
    next hskip =>
      rw [Bool.not_eq_true] at hskip
      split at hv
      next hdec =>
        obtain rfl := Option.some.inj hv
        exact .rowUndecodable hpc hskip (by simpa using hdec)
      next hdec =>
        obtain ⟨hroom, rfl⟩ := Option.ite_none_right_eq_some.mp hv |>.imp_right Option.some.inj
        exact .rowEmitted hpc hskip (by simpa using hdec) hroom
  next cause hpc =>
    obtain rfl := Option.some.inj h
    exact .relistDone hpc
  next hpc =>
    obtain rfl := Option.some.inj h
    exact .sendBookmark hpc
  next hpc =>
    obtain rfl := Option.some.inj h
    exact .tick hpc
  next hpc =>
    split at h
    next x rest hin =>
      obtain rfl := Option.some.inj h
      exact .receive hpc hin
    next => cases h
  next x hpc =>
    obtain ⟨v, hv, rfl⟩ := Option.map_eq_some_iff.mp h
    unfold forwardRow at hv
    split at hv
    next hfloor =>
      obtain rfl := Option.some.inj hv
      exact .forwardSkipped hpc (.inl hfloor)
    next hfloor =>
      split at hv
      next hskip =>
        obtain rfl := Option.some.inj hv
        exact .forwardSkipped hpc (.inr hskip)
      next hskip =>
        obtain ⟨hroom, rfl⟩ := Option.ite_none_right_eq_some.mp hv |>.imp_right Option.some.inj
        exact .forwardEmitted hpc (by omega) (by simpa using hskip) hroom
  next r hpc =>
    obtain rfl := Option.some.inj h
    unfold recoverIfBehind
    split
    next hb => exact .recover hpc hb
    next hb => exact .caughtUp hpc (by simpa using hb)
  next =>
    obtain ⟨hlt, rfl⟩ := Option.ite_none_right_eq_some.mp h |>.imp_right Option.some.inj
    exact .consume hlt
  next => cases h

end PostgresWatcher
end Ark
