import Ark.Machine
import Mathlib.Algebra.Order.Ring.Nat

/-!
# The WAL consumer

One replication connection of the PostgreSQL backend. `streamWAL` receives a message, handles it and
may report a position to the server, which it also does when asked by a keepalive and when nothing
arrives in time. A log records the changes that arrived, with the broadcaster each one nudged, and
the positions reported. LSNs are 64-bit; times are in milliseconds.
-/

namespace Ark

/-- `pglogrepl.TupleDataType`. -/
inductive TupleDataType
  | null
  | toast
  | text
  | binary
  deriving DecidableEq, Repr

structure TupleColumn where
  dataType : TupleDataType
  data : String
  deriving DecidableEq, Repr

/-- A Relation message: the relation's id and its column names. -/
structure RelationMessage where
  relationID : Nat
  columns : List String
  deriving DecidableEq, Repr

/-- An inserted or updated row of the resources table. `kind` is the kind the row has in the
database; the message carries the relation's id and the tuple only. -/
structure RowChange where
  kind : String
  relationID : Nat
  tuple : Option (List TupleColumn)
  deriving DecidableEq, Repr

/-- What `pglogrepl.Parse` returns. -/
inductive LogicalMessage
  | relation (m : RelationMessage)
  | insert (c : RowChange)
  | update (c : RowChange)
  | delete
  | other
  deriving DecidableEq, Repr

/-- What `ReceiveMessage` returns; `none` stands for data that does not parse. -/
inductive BackendMessage
  | errorResponse
  | notCopyData
  | keepalive (serverWALEnd : Nat) (replyRequested : Bool)
  | badKeepalive
  | xLogData (walStart len : Nat) (data : Option LogicalMessage)
  | badXLogData
  | otherCopyData
  deriving DecidableEq, Repr

def walStandbyTimeout : Nat := 10000

def walKeepaliveInterval : Nat := 5000

structure WalStreamState where
  relations : Nat → Option RelationMessage
  lastWriteLSN : Nat
  serverWALEnd : Nat
  lastStatusUpdate : Nat

/-- `newWALStreamState` at time `now`. -/
def newWALStreamState (resumeLSN now : Nat) : WalStreamState :=
  ⟨fun _ => none, resumeLSN, 0, now⟩

def WalStreamState.ackLSN (s : WalStreamState) : Nat := max s.lastWriteLSN s.serverWALEnd

/-- The end of the data of an XLogData message, in 64-bit arithmetic. -/
def lsnAdd (walStart len : Nat) : Nat := (walStart + len) % 2 ^ 64

/-! ### From a tuple to its kind -/

/-- The loop of `nudgeFromTuple` with the kind and namespace found so far. -/
def scanTuple : List String → List TupleColumn → String × String → String × String
  | name :: names, col :: cols, (kind, ns) =>
    if col.dataType ≠ .text then scanTuple names cols (kind, ns)
    else
      let kind := if name = "kind" then col.data else kind
      let ns := if name = "namespace" then col.data else ns
      if kind ≠ "" ∧ ns ≠ "" then (kind, ns) else scanTuple names cols (kind, ns)
  | _, _, found => found

/-- `nudgeFromTuple`: the kind whose broadcaster it asks to be nudged. -/
def nudgeFromTuple (relations : Nat → Option RelationMessage) (c : RowChange) : Option String :=
  match c.tuple, relations c.relationID with
  | some cols, some rel =>
    let kind := (scanTuple rel.columns cols ("", "")).1
    if kind ≠ "" then some kind else none
  | _, _ => none

/-- The tuple carries the row's kind, as a text. -/
def RowChange.carriesKind (c : RowChange) (rel : RelationMessage) : Bool :=
  c.kind != "" && c.tuple.any fun cols => decide (("kind", ⟨.text, c.kind⟩) ∈ rel.columns.zip cols)

theorem scanTuple_of_not_mem {names : List String} {cols : List TupleColumn} {kind ns : String}
    (h : "kind" ∉ names) : (scanTuple names cols (kind, ns)).1 = kind := by
  induction names generalizing cols ns with
  | nil => rfl
  | cons name names ih =>
    have hname : name ≠ "kind" := fun he => h (he ▸ List.mem_cons_self)
    have hrest : "kind" ∉ names := fun hm => h (List.mem_cons_of_mem name hm)
    cases cols with
    | nil => rfl
    | cons col cols =>
      simp only [scanTuple, if_neg hname]
      generalize (if name = "namespace" then col.data else ns) = ns'
      by_cases htext : col.dataType ≠ .text
      · rw [if_pos htext]
        exact ih hrest
      · rw [if_neg htext]
        split
        next => rfl
        next => exact ih hrest

/-- Wherever the kind column stands, the loop finds it. -/
theorem scanTuple_kind {names : List String} {cols : List TupleColumn} {kind ns : String}
    (hnames : names.Nodup) (hmem : ("kind", TupleColumn.mk .text kind) ∈ names.zip cols) :
    (scanTuple names cols ("", ns)).1 = kind := by
  induction names generalizing cols ns with
  | nil => simp at hmem
  | cons name names ih =>
    cases cols with
    | nil => simp at hmem
    | cons col cols =>
      obtain ⟨hname, hrest⟩ := List.nodup_cons.mp hnames
      rw [List.zip_cons_cons] at hmem
      by_cases hk : name = "kind"
      · have hcol : col = ⟨.text, kind⟩ := by
          rcases List.mem_cons.mp hmem with heq | htail
          · exact (Prod.mk.inj heq).2.symm
          · exact absurd (List.of_mem_zip htail).1 (hk ▸ hname)
        subst hcol hk
        simp only [scanTuple, ne_eq, not_true_eq_false, if_false, if_true]
        generalize (if "kind" = "namespace" then kind else ns) = ns'
        split
        next => rfl
        next => exact scanTuple_of_not_mem hname
      · have htail : ("kind", TupleColumn.mk .text kind) ∈ names.zip cols := by
          rcases List.mem_cons.mp hmem with heq | htail
          · exact absurd (Prod.mk.inj heq).1.symm hk
          · exact htail
        simp only [scanTuple, if_neg hk, ne_eq, not_true_eq_false, false_and, if_false]
        split
        · exact ih hrest htail
        · exact ih hrest htail

theorem nudgeFromTuple_eq_kind {relations : Nat → Option RelationMessage} {c : RowChange}
    {rel : RelationMessage} (hrel : relations c.relationID = some rel)
    (hcols : rel.columns.Nodup) (h : c.carriesKind rel = true) :
    nudgeFromTuple relations c = some c.kind := by
  obtain ⟨hne, htuple⟩ := Bool.and_eq_true_iff.mp h
  obtain ⟨cols, hcols', hmem⟩ := (Option.any_eq_true _ _).mp htuple
  rw [bne_iff_ne] at hne
  rw [decide_eq_true_eq] at hmem
  have hscan : (scanTuple rel.columns cols ("", "")).1 = c.kind := scanTuple_kind hcols hmem
  simp [nudgeFromTuple, hcols', hrel, hscan, hne]

/-! ### One connection -/

/-- An entry of the log: a change of the resources table, with its position, its row's kind, whether
a broadcaster of that kind existed and which one was nudged; or a reported position. -/
inductive WalEvent
  | change (walStart : Nat) (kind : String) (existed : Bool) (nudged : Option String)
  | reported (lsn : Nat)
  deriving DecidableEq, Repr

inductive WalPc
  | receive
  | afterMessage
  | closed
  deriving DecidableEq, Repr

/-- The stream and its surroundings. `broadcasters` lists the kinds that have one, `dataEnd` is the
end of the data the server has sent, and `log` is newest first; the code keeps neither of the
last two. -/
structure WalStream where
  resumeLSN : Nat
  state : WalStreamState
  now : Nat
  broadcasters : List String
  pc : WalPc
  dataEnd : Nat
  log : List WalEvent

namespace WalStream

def start (resumeLSN now : Nat) (broadcasters : List String) : WalStream :=
  ⟨resumeLSN, newWALStreamState resumeLSN now, now, broadcasters, .receive, resumeLSN, []⟩

/-- `sendStandbyStatus` and what its callers do after it: a failed send ends the stream. -/
def sendStandbyStatus (w : WalStream) (sent : Bool) : WalStream :=
  if sent then { w with
    state := { w.state with lastStatusUpdate := w.now }
    log := .reported w.state.ackLSN :: w.log }
  else { w with pc := .closed }

def nudgeKind (w : WalStream) (kind : String) : Option String :=
  if kind ∈ w.broadcasters then some kind else none

/-- An Insert or Update message: its kind is nudged in place. -/
def change (w : WalStream) (walStart : Nat) (c : RowChange) : WalStream :=
  let existed := decide (c.kind ∈ w.broadcasters)
  let nudged := (nudgeFromTuple w.state.relations c).bind w.nudgeKind
  { w with log := .change walStart c.kind existed nudged :: w.log }

def cacheRelation (w : WalStream) (m : RelationMessage) : WalStream :=
  { w with state := { w.state with relations := Function.update w.state.relations m.relationID m } }

def processWALData (w : WalStream) (walStart : Nat) : Option LogicalMessage → WalStream
  | some (.relation m) => w.cacheRelation m
  | some (.insert c) | some (.update c) => w.change walStart c
  | some .delete | some .other | none => w

/-- The XLogData case of `handleWALMessage` after `processWALData`. -/
def wrote (w : WalStream) (walStart len : Nat) : WalStream :=
  { w with
    state := { w.state with lastWriteLSN := lsnAdd walStart len }
    dataEnd := max w.dataEnd (lsnAdd walStart len) }

def keepalive (w : WalStream) (serverWALEnd : Nat) : WalStream :=
  { w with state := { w.state with serverWALEnd } }

def handleWALMessage (w : WalStream) (m : BackendMessage) (sent : Bool) : WalStream :=
  match m with
  | .errorResponse => { w with pc := .closed }
  | .keepalive serverWALEnd replyRequested =>
    let w := w.keepalive serverWALEnd
    if replyRequested then w.sendStandbyStatus sent else w
  | .xLogData walStart len data => (w.processWALData walStart data).wrote walStart len
  | .notCopyData | .badKeepalive | .badXLogData | .otherCopyData => w

/-- The end of an iteration of `streamWAL`. -/
def periodicStatus (w : WalStream) (sent : Bool) : WalStream :=
  if w.now - w.state.lastStatusUpdate > walKeepaliveInterval then w.sendStandbyStatus sent else w

inductive Action
  | tick (d : Nat)
  | setBroadcasters (kinds : List String)
  | receive (m : BackendMessage) (sent : Bool)
  | timeout (sent : Bool)
  | receiveError
  | cancelled
  | periodicStatus (sent : Bool)
  deriving DecidableEq, Repr

/-- Continue at `pc` unless the stream was closed. -/
def goto (w : WalStream) (pc : WalPc) : WalStream :=
  if w.pc = .closed then w else { w with pc }

def step (w : WalStream) (a : Action) : Option WalStream :=
  match a, w.pc with
  | .tick d, _ => some { w with now := w.now + d }
  | .setBroadcasters kinds, _ => some { w with broadcasters := kinds }
  | .receive m sent, .receive => some ((w.handleWALMessage m sent).goto .afterMessage)
  | .timeout sent, .receive => some (w.sendStandbyStatus sent)
  | .receiveError, .receive | .cancelled, .receive => some { w with pc := .closed }
  | .periodicStatus sent, .afterMessage => some ((w.periodicStatus sent).goto .receive)
  | _, _ => none

def machine : Machine WalStream Action where
  init w := ∃ resumeLSN now broadcasters, w = start resumeLSN now broadcasters
  step := step

/-- What the server keeps to: a Relation message, with distinct column names, comes before the first
tuple of its relation, and a keepalive's position is not beyond the data sent. -/
def serverPromise (w : WalStream) : Action → Bool
  | .receive (.keepalive serverWALEnd _) _ => decide (serverWALEnd ≤ w.dataEnd)
  | .receive (.xLogData _ _ (some (.insert c))) _
  | .receive (.xLogData _ _ (some (.update c))) _ =>
    match w.state.relations c.relationID with
    | some rel => decide rel.columns.Nodup
    | none => false
  | _ => true

/-- No acknowledgement lies at or above a change that comes after it or was not nudged, and they
grow from the resume point. -/
def AcksDelivered (resumeLSN : Nat) : List WalEvent → Prop
  | [] => True
  | .reported lsn :: older => AcksDelivered resumeLSN older ∧ resumeLSN ≤ lsn ∧
      (∀ l, .reported l ∈ older → l ≤ lsn) ∧
      ∀ walStart kind nudged, .change walStart kind true nudged ∈ older → walStart ≤ lsn →
        nudged = some kind
  | .change walStart _ _ _ :: older => AcksDelivered resumeLSN older ∧
      ∀ lsn, .reported lsn ∈ older → lsn < walStart

/-- A change of the table arrives above every reported position and carries its kind. -/
def changeAbove (w : WalStream) (walStart : Nat) (c : RowChange) : Bool :=
  w.log.all (fun
    | .reported lsn => decide (lsn < walStart)
    | .change .. => true) &&
  (w.state.relations c.relationID).all c.carriesKind

/-- The message does not move the acknowledged position back, and a change arrives above it. -/
def inOrder (w : WalStream) : Action → Bool
  | .receive (.keepalive serverWALEnd _) _ =>
    decide (w.state.ackLSN ≤ max w.state.lastWriteLSN serverWALEnd)
  | .receive (.xLogData walStart len data) _ =>
    decide (w.state.ackLSN ≤ max (lsnAdd walStart len) w.state.serverWALEnd) &&
    match data with
    | some (.insert c) | some (.update c) => w.changeAbove walStart c
    | _ => true
  | _ => true

/-! ### What is acknowledged has been delivered -/

structure Inv (w : WalStream) : Prop where
  acks : AcksDelivered w.resumeLSN w.log
  reported_le : ∀ lsn, .reported lsn ∈ w.log → lsn ≤ w.state.ackLSN
  resume_le : w.resumeLSN ≤ w.state.ackLSN
  nudged : ∀ walStart kind nudged, .change walStart kind true nudged ∈ w.log → nudged = some kind

variable {w : WalStream}

/-- A state that differs only where the invariant does not look. -/
theorem Inv.congr (h : w.Inv) {v : WalStream} (hr : v.resumeLSN = w.resumeLSN) (hl : v.log = w.log)
    (ha : w.state.ackLSN ≤ v.state.ackLSN) : v.Inv where
  acks := by rw [hr, hl]; exact h.acks
  reported_le lsn hlsn := (h.reported_le lsn (hl ▸ hlsn)).trans ha
  resume_le := by rw [hr]; exact h.resume_le.trans ha
  nudged := by rw [hl]; exact h.nudged

theorem Inv.goto (h : w.Inv) (pc : WalPc) : (w.goto pc).Inv := by
  unfold WalStream.goto
  split
  · exact h
  · exact h.congr rfl rfl le_rfl

theorem Inv.sendStandbyStatus (h : w.Inv) (sent : Bool) : (w.sendStandbyStatus sent).Inv := by
  unfold WalStream.sendStandbyStatus
  cases sent with
  | false => exact h.congr rfl rfl le_rfl
  | true =>
    simp only [if_true]
    constructor
    · exact ⟨h.acks, h.resume_le, h.reported_le,
        fun walStart kind nudged hm _ => h.nudged walStart kind nudged hm⟩
    · intro lsn hlsn
      rcases List.mem_cons.mp hlsn with heq | hold
      · exact (WalEvent.reported.inj heq).le
      · exact h.reported_le lsn hold
    · exact h.resume_le
    · intro walStart kind nudged hm
      rcases List.mem_cons.mp hm with heq | hold
      · cases heq
      · exact h.nudged walStart kind nudged hold

theorem Inv.change (h : w.Inv) {walStart : Nat} {c : RowChange} {rel : RelationMessage}
    (hrel : w.state.relations c.relationID = some rel) (hcols : rel.columns.Nodup)
    (habove : w.changeAbove walStart c = true) : (w.change walStart c).Inv := by
  obtain ⟨hlog, hcarries⟩ := Bool.and_eq_true_iff.mp habove
  have hnudge : nudgeFromTuple w.state.relations c = some c.kind := by
    apply nudgeFromTuple_eq_kind hrel hcols
    simpa [hrel] using hcarries
  constructor
  · refine ⟨h.acks, fun lsn hlsn => ?_⟩
    simpa using List.all_eq_true.mp hlog _ hlsn
  · intro lsn hlsn
    rcases List.mem_cons.mp hlsn with heq | hold
    · cases heq
    · exact h.reported_le lsn hold
  · exact h.resume_le
  · intro ws kind nudged hm
    rcases List.mem_cons.mp hm with heq | hold
    · simp only [WalEvent.change.injEq, hnudge, Option.bind_some] at heq
      obtain ⟨_, rfl, hex, rfl⟩ := heq
      have hmem : c.kind ∈ w.broadcasters := of_decide_eq_true hex.symm
      simp [nudgeKind, hmem]
    · exact h.nudged ws kind nudged hold

theorem Inv.processWALData (h : w.Inv) {walStart len : Nat} {data : Option LogicalMessage}
    {sent : Bool} (hp : w.serverPromise (.receive (.xLogData walStart len data) sent) = true)
    (ho : w.inOrder (.receive (.xLogData walStart len data) sent) = true) :
    (w.processWALData walStart data).Inv := by
  match data with
  | none | some .delete | some .other => exact h
  | some (.relation m) => exact h.congr rfl rfl le_rfl
  | some (.insert c) | some (.update c) =>
    have habove : w.changeAbove walStart c = true := (Bool.and_eq_true_iff.mp ho).2
    simp only [serverPromise] at hp
    split at hp
    next rel hrel => exact h.change hrel (of_decide_eq_true hp) habove
    next => cases hp

theorem processWALData_ackLSN (w : WalStream) (walStart : Nat) (data : Option LogicalMessage) :
    (w.processWALData walStart data).state.serverWALEnd = w.state.serverWALEnd ∧
      (w.processWALData walStart data).state.ackLSN = w.state.ackLSN := by
  match data with
  | none | some .delete | some .other | some (.relation _) | some (.insert _) | some (.update _) =>
    exact ⟨rfl, rfl⟩

theorem Inv.handleWALMessage (h : w.Inv) {m : BackendMessage} {sent : Bool}
    (hp : w.serverPromise (.receive m sent) = true) (ho : w.inOrder (.receive m sent) = true) :
    (w.handleWALMessage m sent).Inv := by
  cases m with
  | errorResponse => exact h.congr rfl rfl le_rfl
  | notCopyData | badKeepalive | badXLogData | otherCopyData => exact h
  | keepalive serverWALEnd replyRequested =>
    have hkeep : (w.keepalive serverWALEnd).Inv := h.congr rfl rfl (of_decide_eq_true ho)
    cases replyRequested with
    | false => exact hkeep
    | true => exact hkeep.sendStandbyStatus sent
  | xLogData walStart len data =>
    obtain ⟨hend, hack⟩ := processWALData_ackLSN w walStart data
    have hle : (w.processWALData walStart data).state.ackLSN
        ≤ ((w.processWALData walStart data).wrote walStart len).state.ackLSN := by
      rw [hack]
      have hle := of_decide_eq_true (Bool.and_eq_true_iff.mp ho).1
      simpa [wrote, WalStreamState.ackLSN, hend] using hle
    exact (h.processWALData hp ho).congr rfl rfl hle

theorem Inv.step {a : Action} {v : WalStream} (h : w.Inv) (hp : w.serverPromise a = true)
    (ho : w.inOrder a = true) (hs : w.step a = some v) : v.Inv := by
  unfold WalStream.step at hs
  split at hs
  next =>
    obtain rfl := Option.some.inj hs
    exact h.congr rfl rfl le_rfl
  next =>
    obtain rfl := Option.some.inj hs
    exact h.congr rfl rfl le_rfl
  next m sent _ =>
    obtain rfl := Option.some.inj hs
    exact (h.handleWALMessage hp ho).goto _
  next sent _ =>
    obtain rfl := Option.some.inj hs
    exact h.sendStandbyStatus sent
  next =>
    obtain rfl := Option.some.inj hs
    exact h.congr rfl rfl le_rfl
  next =>
    obtain rfl := Option.some.inj hs
    exact h.congr rfl rfl le_rfl
  next sent _ =>
    obtain rfl := Option.some.inj hs
    unfold WalStream.periodicStatus
    split
    · exact (h.sendStandbyStatus sent).goto _
    · exact h.goto _
  next => cases hs

/-- The Relation message of the resources table, and an insert of an Agent. -/
def resourcesRelation : LogicalMessage := .relation ⟨7, ["name", "kind"]⟩

def agentInsert : LogicalMessage := .insert ⟨"Agent", 7, some [⟨.text, "a"⟩, ⟨.text, "Agent"⟩]⟩

end WalStream

end Ark
