import Ark.Mirrors

/-!
# Paginated lists

The first page of a list selects the live rows of the table, newest first, and takes a snapshot of
the transactions that have committed. A continue token carries the snapshot and the version of the
last object, and later pages select the rows below that version whose last writer the snapshot
sees. A row that is written again between two pages is not seen any more.
-/

namespace Ark

/-- `pg_current_snapshot()`, as the versions whose transactions have committed. -/
abbrev Snapshot := List Nat

/-- `pg_visible_in_snapshot(xmin, s)`: the transaction that wrote the row is in the snapshot. -/
def Snapshot.visible (s : Snapshot) (x : Row) : Bool := s.contains x.rv

namespace Database

def currentSnapshot (db : Database) : Snapshot := db.log.map (·.rv)

/-- `SELECT … WHERE p ORDER BY resource_version DESC`. -/
def selectDesc (db : Database) (p : Row → Bool) : List Row :=
  (db.rows.filter p).insertionSort (·.rv ≥ ·.rv)

end Database

/-- `listContinueToken`; the first page has no snapshot and no cursor. -/
structure ListContinueToken where
  snapshot : Option Snapshot
  cursor : Nat
  headRV : Nat
  deriving DecidableEq, Repr

def ListContinueToken.first : ListContinueToken := ⟨none, 0, 0⟩

/-- The kind, the namespace and the selectors of a list, as a watch has them, and its limit. -/
structure ListOptions where
  filter : WatchFilter
  limit : Nat

structure ListPage where
  items : List Row
  continueToken : Option ListContinueToken
  listRV : Nat
  deriving DecidableEq, Repr

/-- The objects a list asks for. -/
def ListOptions.asks (opts : ListOptions) (x : Row) : Prop :=
  opts.filter.wants x ∧ x.deleted = false

namespace PostgreSQLBackend

/-- The condition of `buildListQuery`; `none` when composing the label clauses panics. -/
def buildListQuery (opts : ListOptions) (contTok : ListContinueToken) : Option (Row → Bool) :=
  let f := opts.filter
  (Selector.labelSelectorSQL f.labelSel).map fun clauses x =>
    x.kind == f.kind && !x.deleted && (f.ns == "" || x.ns == f.ns) &&
      (Selector.sqlWhere clauses x.labels == some true) &&
      f.fieldPreds.all (·.holds x.name x.ns) &&
      (contTok.cursor == 0 || decide (x.rv < contTok.cursor)) &&
      contTok.snapshot.all (·.visible x)

/-- The `LIMIT` of the query: one row more than the page holds. -/
def limitRows (limit : Nat) (rows : List Row) : List Row :=
  if 0 < limit then rows.take (limit + 1) else rows

/-- `scanListRows` passes over rows that cannot be reconstructed. -/
def scanListRows (rows : List Row) : List Row := rows.filter (·.decodable)

/-- The snapshot a page works with: the token's, or the one the first page's query returned beside
its rows, or that of a second query when there was no row. -/
def pageSnapshot (contTok : ListContinueToken) (rows : List Row) (db db' : Database) : Snapshot :=
  match contTok.snapshot with
  | some s => s
  | none => if rows.isEmpty then db'.currentSnapshot else db.currentSnapshot

def headResourceVersion (db : Database) (cachedPurgeFloor : Nat) (s : Snapshot) : Nat :=
  max (Database.maxRV (db.rows.filter s.visible)) cachedPurgeFloor

/-- The list version is taken from the store at page 1 and from the token after it. -/
def pageListRV (contTok : ListContinueToken) (db : Database) (cachedPurgeFloor : Nat)
    (s : Snapshot) : Nat :=
  if contTok.headRV = 0 then headResourceVersion db cachedPurgeFloor s else contTok.headRV

/-- `List`: its query runs in `db`, the query for a snapshot in `db₁` and `headResourceVersion` in
`db₂`. -/
def list (db db₁ db₂ : Database) (cachedPurgeFloor : Nat) (opts : ListOptions)
    (contTok : ListContinueToken) : Option ListPage := do
  let p ← buildListQuery opts contTok
  let rows := limitRows opts.limit (db.selectDesc p)
  let objects := scanListRows rows
  let snapshot := pageSnapshot contTok rows db db₁
  let listRV := pageListRV contTok db₂ cachedPurgeFloor snapshot
  if 0 < opts.limit ∧ opts.limit < objects.length then
    let items := objects.take opts.limit
    some ⟨items, some ⟨some snapshot, (items.getLast?.map (·.rv)).getD 0, listRV⟩, listRV⟩
  else some ⟨objects, none, listRV⟩

/-! ### One page -/

variable {db db₁ db₂ : Database} {cachedPurgeFloor : Nat} {opts : ListOptions}
  {contTok tok : ListContinueToken} {page : ListPage} {p : Row → Bool} {x : Row}

/-- The query selects what is asked for, below the cursor and seen by the snapshot. -/
theorem buildListQuery_iff (h : buildListQuery opts contTok = some p) (x : Row) :
    p x = true ↔ opts.asks x ∧ (contTok.cursor = 0 ∨ x.rv < contTok.cursor) ∧
      ∀ s, contTok.snapshot = some s → s.visible x = true := by
  obtain ⟨cs, hcs, rfl⟩ := Option.map_eq_some_iff.mp h
  have hsql := Selector.labelSelectorSQL_where hcs x.labels
  have hsnap : contTok.snapshot.all (·.visible x) = true ↔
      ∀ s, contTok.snapshot = some s → s.visible x = true := by
    cases contTok.snapshot <;> simp
  simp only [ListOptions.asks, WatchFilter.wants, WatchFilter.matchesWatcher, Bool.and_eq_true,
    beq_iff_eq, decide_eq_true_eq, Bool.or_eq_true, Bool.not_eq_true', hsql, hsnap]
  constructor
  · rintro ⟨⟨⟨⟨⟨⟨hk, hlive⟩, hns⟩, hl⟩, hf⟩, hcur⟩, hs⟩
    exact ⟨⟨⟨hk, ⟨hns.imp_right Eq.symm, hl⟩, hf⟩, hlive⟩, hcur, hs⟩
  · rintro ⟨⟨⟨hk, ⟨hns, hl⟩, hf⟩, hlive⟩, hcur, hs⟩
    exact ⟨⟨⟨⟨⟨⟨hk, hlive⟩, hns.imp_right Eq.symm⟩, hl⟩, hf⟩, hcur⟩, hs⟩

theorem limitRows_eq_nil {limit : Nat} {rows : List Row} : limitRows limit rows = [] ↔ rows = [] := by
  unfold limitRows
  split <;> simp

theorem mem_selectDesc : x ∈ db.selectDesc p ↔ x ∈ db.rows ∧ p x = true := by
  simp [Database.selectDesc, List.mem_insertionSort]

/-- Versions descend strictly in a table that holds one row for each object. -/
theorem selectDesc_sorted (hdb : db.WellFormed) (hrows : (db.rows.map (·.uid)).Nodup) :
    (db.selectDesc p).Pairwise fun x y => y.rv < x.rv ∧ x.uid ≠ y.uid := by
  have hle : (db.selectDesc p).Pairwise fun x y => y.rv ≤ x.rv :=
    List.pairwise_insertionSort (fun x y : Row => x.rv ≥ y.rv) (db.rows.filter p)
  have hne : (db.selectDesc p).Pairwise fun x y => x.uid ≠ y.uid := by
    have hfilter : ((db.rows.filter p).map (·.uid)).Nodup :=
      (List.filter_sublist.map _).nodup hrows
    have hperm : ((db.selectDesc p).map (·.uid)).Perm ((db.rows.filter p).map (·.uid)) :=
      (List.perm_insertionSort _ _).map _
    exact List.pairwise_map.mp (hperm.nodup_iff.mpr hfilter)
  refine (hle.and hne).imp_of_mem ?_
  rintro x y hx hy ⟨hle, hne⟩
  refine ⟨lt_of_le_of_ne hle ?_, hne⟩
  intro heq
  have hx := hdb.rows_log x (mem_selectDesc.mp hx).1
  have hy := hdb.rows_log y (mem_selectDesc.mp hy).1
  exact hne (congrArg Row.uid (hdb.log_inj hx hy heq.symm))

/-- How a page comes out: what its query selected, the objects kept of it, and the token. -/
structure PageOf (db db₁ db₂ : Database) (cachedPurgeFloor : Nat) (opts : ListOptions)
    (contTok : ListContinueToken) (page : ListPage) (p : Row → Bool) (s : Snapshot) : Prop where
  query : buildListQuery opts contTok = some p
  snapshot : s = pageSnapshot contTok (limitRows opts.limit (db.selectDesc p)) db db₁
  listRV : page.listRV = pageListRV contTok db₂ cachedPurgeFloor s
  sublist : page.items.Sublist (db.selectDesc p)
  token : ∀ tok, page.continueToken = some tok → 0 < opts.limit ∧
    ∃ last, page.items.getLast? = some last ∧ tok = ⟨some s, last.rv, page.listRV⟩
  decodable : ∀ x ∈ page.items, x.decodable = true
  /-- When all selected rows decode, the page is the whole selection or its `limit` newest. -/
  whole : (∀ x ∈ db.selectDesc p, x.decodable = true) →
    page.items = db.selectDesc p ∨
      page.items = (db.selectDesc p).take opts.limit ∧ page.continueToken ≠ none

theorem pageOf_of_list (h : list db db₁ db₂ cachedPurgeFloor opts contTok = some page) :
    ∃ p s, PageOf db db₁ db₂ cachedPurgeFloor opts contTok page p s := by
  obtain ⟨p, hp, h⟩ := Option.bind_eq_some_iff.mp h
  refine ⟨p, pageSnapshot contTok (limitRows opts.limit (db.selectDesc p)) db db₁, ?_⟩
  have hlimit : (limitRows opts.limit (db.selectDesc p)).Sublist (db.selectDesc p) := by
    unfold limitRows
    split
    · exact List.take_sublist _ _
    · exact List.Sublist.refl _
  have hscan : (scanListRows (limitRows opts.limit (db.selectDesc p))).Sublist (db.selectDesc p) :=
    List.filter_sublist.trans hlimit
  have hdec : ∀ x ∈ scanListRows (limitRows opts.limit (db.selectDesc p)), x.decodable = true :=
    fun x hx => (List.mem_filter.mp hx).2
  have hall : (∀ x ∈ db.selectDesc p, x.decodable = true) →
      scanListRows (limitRows opts.limit (db.selectDesc p)) =
        limitRows opts.limit (db.selectDesc p) :=
    fun hall => List.filter_eq_self.mpr fun x hx => hall x (hlimit.subset hx)
  dsimp only at h
  split at h
  next hmore =>
    obtain rfl := Option.some.inj h
    refine ⟨hp, rfl, rfl, (List.take_sublist _ _).trans hscan, ?_, ?_, ?_⟩
    · intro tok htok
      obtain rfl := Option.some.inj htok
      have hne : (scanListRows (limitRows opts.limit (db.selectDesc p))).take opts.limit ≠ [] := by
        rw [ne_eq, List.take_eq_nil_iff]
        rintro (h0 | hnil)
        · omega
        · simp [hnil] at hmore
      refine ⟨hmore.1, _, List.getLast?_eq_some_getLast hne, ?_⟩
      simp [List.getLast?_eq_some_getLast hne]
    · exact fun x hx => hdec x (List.mem_of_mem_take hx)
    · intro hall'
      right
      refine ⟨?_, by simp⟩
      simp only
      rw [hall hall', limitRows, if_pos hmore.1, List.take_take]
      congr 1
      omega
  next hmore =>
    obtain rfl := Option.some.inj h
    refine ⟨hp, rfl, rfl, hscan, (fun tok htok => by cases htok), hdec, ?_⟩
    intro hall'
    left
    simp only
    rw [hall hall'] at hmore ⊢
    unfold limitRows at hmore ⊢
    split
    next hpos =>
      rw [if_pos hpos] at hmore
      apply List.take_of_length_le
      have hlen := List.length_take (i := opts.limit + 1) (l := db.selectDesc p)
      omega
    next => rfl

/-- A call returns a page unless composing the label clauses panics. -/
theorem list_isSome_iff : (list db db₁ db₂ cachedPurgeFloor opts contTok).isSome = true ↔
    (Selector.labelSelectorSQL opts.filter.labelSel).isSome = true := by
  have hquery : (buildListQuery opts contTok).isSome =
      (Selector.labelSelectorSQL opts.filter.labelSel).isSome := Option.isSome_map
  rw [← hquery, list]
  cases buildListQuery opts contTok with
  | none => simp
  | some p =>
    simp only [Option.bind_eq_bind, Option.bind_some]
    split <;> simp

theorem PageOf.sorted {cachedPurgeFloor : Nat} {s : Snapshot} (hdb : db.WellFormed)
    (hrows : (db.rows.map (·.uid)).Nodup)
    (h : PageOf db db₁ db₂ cachedPurgeFloor opts contTok page p s) :
    page.items.Pairwise fun x y => y.rv < x.rv :=
  ((selectDesc_sorted hdb hrows).imp And.left).sublist h.sublist

theorem PageOf.mem {s : Snapshot} (h : PageOf db db₁ db₂ cachedPurgeFloor opts contTok page p s)
    (hx : x ∈ page.items) : x ∈ db.rows ∧ p x = true :=
  mem_selectDesc.mp (h.sublist.subset hx)

/-- The cursor of the next page is the lowest version of this one. -/
theorem PageOf.cursor_le {s : Snapshot} (hdb : db.WellFormed)
    (hrows : (db.rows.map (·.uid)).Nodup)
    (h : PageOf db db₁ db₂ cachedPurgeFloor opts contTok page p s)
    (htok : page.continueToken = some tok) : ∀ x ∈ page.items, tok.cursor ≤ x.rv := by
  obtain ⟨-, last, hlast, rfl⟩ := h.token tok htok
  obtain ⟨init, hinit⟩ := List.getLast?_eq_some_iff.mp hlast
  have hsorted := h.sorted hdb hrows
  rw [hinit, List.pairwise_append] at hsorted
  intro x hx
  rw [hinit] at hx
  rcases List.mem_append.mp hx with hx | hx
  · exact (hsorted.2.2 x hx last List.mem_cons_self).le
  · rw [List.mem_singleton.mp hx]

/-- When everything selected decodes, what a page leaves out is below the cursor of its token. -/
theorem PageOf.left_out {s : Snapshot} (hdb : db.WellFormed)
    (hrows : (db.rows.map (·.uid)).Nodup)
    (h : PageOf db db₁ db₂ cachedPurgeFloor opts contTok page p s)
    (hdec : ∀ x ∈ db.rows, p x = true → x.decodable = true) (hx : x ∈ db.rows) (hp : p x = true)
    (hout : x ∉ page.items) : ∃ tok, page.continueToken = some tok ∧ x.rv < tok.cursor := by
  have hsel := mem_selectDesc.mpr ⟨hx, hp⟩
  rcases h.whole fun y hy => hdec y (mem_selectDesc.mp hy).1 (mem_selectDesc.mp hy).2 with
    hitems | ⟨hitems, hmore⟩
  · exact absurd (hitems ▸ hsel) hout
  · obtain ⟨tok, htok⟩ := Option.ne_none_iff_exists'.mp hmore
    refine ⟨tok, htok, ?_⟩
    obtain ⟨-, last, hlast, rfl⟩ := h.token tok htok
    have hlast := List.mem_of_getLast? hlast
    have hsorted := selectDesc_sorted (p := p) hdb hrows
    rw [← List.take_append_drop opts.limit (db.selectDesc p), List.pairwise_append] at hsorted
    rw [← List.take_append_drop opts.limit (db.selectDesc p), ← hitems] at hsel
    have hdrop := (List.mem_append.mp hsel).resolve_left hout
    rw [← hitems] at hsorted
    exact (hsorted.2.2 last hlast x hdrop).1

end PostgreSQLBackend

/-! ### Following continue tokens -/

/-- One call of `List`: the clusters its statements ran in and the page it returned. -/
structure PageRead where
  select : Cluster
  snapshot : Cluster
  head : Cluster
  page : ListPage

namespace Cluster

/-- A replica serves the call after `c`. -/
def Served (ok : Cluster → Action → Prop) (opts : ListOptions) (tok : ListContinueToken)
    (c : Cluster) (read : PageRead) : Prop :=
  machine.Run ok c read.select ∧ machine.Run ok read.select read.snapshot ∧
    machine.Run ok read.snapshot read.head ∧
    ∃ r p, (r, p) ∈ read.head.replicas ∧
      PostgreSQLBackend.list read.select.db read.snapshot.db read.head.db p.cachedPurgeFloor opts
        tok = some read.page

/-- A client follows the continue tokens while the cluster runs, to the last page or less far. -/
inductive Listing (ok : Cluster → Action → Prop) (opts : ListOptions) :
    ListContinueToken → Cluster → List PageRead → Prop
  | stop {tok : ListContinueToken} {c : Cluster} : Listing ok opts tok c []
  | next {tok tok' : ListContinueToken} {c : Cluster} {read : PageRead} {rest : List PageRead}
      (hs : Served ok opts tok c read) (htok : read.page.continueToken = some tok')
      (hrest : Listing ok opts tok' read.head rest) : Listing ok opts tok c (read :: rest)
  | last {tok : ListContinueToken} {c : Cluster} {read : PageRead}
      (hs : Served ok opts tok c read) (htok : read.page.continueToken = none) :
      Listing ok opts tok c [read]

def items (reads : List PageRead) : List Row := reads.flatMap (·.page.items)

/-- The last page had no continue token. -/
def Complete (reads : List PageRead) : Prop :=
  ∃ read, reads.getLast? = some read ∧ read.page.continueToken = none

variable {ok : Cluster → Action → Prop} {opts : ListOptions} {tok : ListContinueToken}
  {c c' : Cluster} {read : PageRead} {reads rest : List PageRead} {s : Snapshot} {x : Row}

/-- The table holds one row for each object. -/
def OneRow (c : Cluster) : Prop := c.db.WellFormed ∧ (c.db.rows.map (·.uid)).Nodup

theorem OneRow.step {a : Action} (h : c.OneRow) (hs : c.step a = some c') : c'.OneRow := by
  obtain ⟨hdb, hrows⟩ := h
  refine ⟨step_wellFormed hdb hs, ?_⟩
  rcases step_db hs with ⟨d, -, hd⟩ | ⟨-, he⟩ | he
  · rcases Database.step_cases hd with
      ⟨x, -, he⟩ | ⟨x, -, -, he⟩ | ⟨x, -, he⟩ | ⟨seq, clock, -, he⟩
    · exact he ▸ hrows
    · rw [he]
      have hfilter := (List.filter_sublist (p := fun y : Row => y.uid != x.uid)).map (·.uid) |>.nodup hrows
      refine List.nodup_cons.mpr ⟨?_, hfilter⟩
      intro hmem
      obtain ⟨y, hy, hu⟩ := List.mem_map.mp hmem
      simp [hu] at hy
    · exact he ▸ hrows
    · exact he ▸ hrows
  · rw [he]
    unfold Database.purgeExpired
    dsimp only
    split
    · exact (List.filter_sublist.map _).nodup hrows
    · exact hrows
  · exact he ▸ hrows

theorem OneRow.run (h : c.OneRow) (hrun : machine.Run ok c c') : c'.OneRow :=
  hrun.preserves (fun _ _ _ hI _ hs => hI.step hs) h

theorem oneRow_of_reachable (h : machine.Reachable ok c) : c.OneRow :=
  h.invariant (by rintro _ rfl; exact ⟨Database.empty_wellFormed, List.nodup_nil⟩)
    fun _ _ _ hI _ hs => hI.step hs

/-- A version that a snapshot of an earlier table sees was in that table. -/
theorem mem_of_visible (hc : c.OneRow) (hrun : machine.Run ok c c')
    (hs : ∀ v ∈ s, ∃ y ∈ c.db.log, y.rv = v) (hx : x ∈ c'.db.rows) (hv : s.visible x = true) :
    x ∈ c.db.rows := by
  obtain ⟨hlog, hrows⟩ := rows_kept hc.1 hrun
  obtain ⟨y, hy, hrv⟩ := hs x.rv (by simpa [Snapshot.visible] using hv)
  have hdb' := (hc.run hrun).1
  obtain rfl := hdb'.log_inj (hlog y hy) (hdb'.rows_log x hx) hrv
  exact hrows y hx hy

/-- The version was replaced before the page that would have returned it. -/
def Rewritten (x : Row) : List PageRead → Prop
  | [] => False
  | read :: rest => x ∉ read.select.db.rows ∨ (x ∉ read.page.items ∧ Rewritten x rest)

/-- A page in the middle of a list: its token carries the snapshot of an earlier table. -/
structure Follows (s : Snapshot) (c : Cluster) (tok : ListContinueToken) : Prop where
  snapshot : tok.snapshot = some s
  committed : ∀ v ∈ s, ∃ y ∈ c.db.log, y.rv = v

theorem Follows.run (h : Follows s c tok) (hc : c.OneRow) (hrun : machine.Run ok c c') :
    Follows s c' tok where
  snapshot := h.snapshot
  committed v hv := by
    obtain ⟨y, hy, hrv⟩ := h.committed v hv
    exact ⟨y, (rows_kept hc.1 hrun).1 y hy, hrv⟩

/-- The facts about a served page that lists are put together from. -/
theorem Served.page (hc : c.OneRow) (h : Served ok opts tok c read) :
    read.select.OneRow ∧ read.head.OneRow ∧ machine.Run ok c read.select ∧
      machine.Run ok read.select read.head ∧ ∃ floor p s,
        (∃ r q, (r, q) ∈ read.head.replicas ∧ q.cachedPurgeFloor = floor) ∧
        PostgreSQLBackend.PageOf read.select.db read.snapshot.db read.head.db floor opts tok
          read.page p s := by
  obtain ⟨h₁, h₂, h₃, r, q, hq, hpage⟩ := h
  obtain ⟨p, s, hp⟩ := PostgreSQLBackend.pageOf_of_list hpage
  have hsel := hc.run h₁
  exact ⟨hsel, hsel.run (h₂.trans h₃), h₁, h₂.trans h₃, _, p, s, ⟨r, q, hq, rfl⟩, hp⟩

/-- What a page returns. -/
theorem Served.item (hc : c.OneRow) (h : Served ok opts tok c read) (hx : x ∈ read.page.items) :
    x ∈ read.select.db.rows ∧ opts.asks x ∧ x.decodable = true ∧
      (tok.cursor = 0 ∨ x.rv < tok.cursor) ∧ ∀ s, tok.snapshot = some s → s.visible x = true := by
  obtain ⟨-, -, -, -, floor, p, s, -, hp⟩ := h.page hc
  obtain ⟨hrow, hsel⟩ := hp.mem hx
  obtain ⟨hasks, hcur, hsnap⟩ := (PostgreSQLBackend.buildListQuery_iff hp.query x).mp hsel
  exact ⟨hrow, hasks, hp.decodable x hx, hcur, hsnap⟩

/-- The token of a page: the snapshot of the page, or of its table if it is the first one. -/
theorem Served.token {tok' : ListContinueToken} (hc : c.OneRow) (h : Served ok opts tok c read)
    (htok : read.page.continueToken = some tok') :
    read.page.items ≠ [] ∧ 0 < tok'.cursor ∧ (∀ x ∈ read.page.items, tok'.cursor ≤ x.rv) ∧
      tok'.headRV = read.page.listRV ∧
      tok'.snapshot = some (tok.snapshot.getD read.select.db.currentSnapshot) := by
  obtain ⟨hsel, -, -, -, floor, p, s, -, hp⟩ := h.page hc
  have hle := hp.cursor_le hsel.1 hsel.2 htok
  obtain ⟨hlim, last, hlast, rfl⟩ := hp.token tok' htok
  have hmem := List.mem_of_getLast? hlast
  refine ⟨List.ne_nil_of_mem hmem, hsel.1.rows_pos (hp.mem hmem).1, hle, rfl, ?_⟩
  have hne : PostgreSQLBackend.limitRows opts.limit (read.select.db.selectDesc p) ≠ [] := by
    rw [ne_eq, PostgreSQLBackend.limitRows_eq_nil]
    exact List.ne_nil_of_mem (hp.sublist.subset hmem)
  have hs := hp.snapshot
  unfold PostgreSQLBackend.pageSnapshot at hs
  cases hsnap : tok.snapshot with
  | some s' =>
    rw [hsnap] at hs
    exact congrArg some hs
  | none =>
    rw [hsnap] at hs
    have hs : s = read.select.db.currentSnapshot := by
      simpa [hne] using hs
    exact congrArg some hs

theorem Follows.next {tok' : ListContinueToken} (hc : c.OneRow) (hf : Follows s c tok)
    (h : Served ok opts tok c read) (htok : read.page.continueToken = some tok') :
    Follows s read.head tok' := by
  obtain ⟨-, -, h₁, h₂, -⟩ := h.page hc
  refine ⟨?_, (hf.run hc (h₁.trans h₂)).committed⟩
  rw [(h.token hc htok).2.2.2.2, hf.snapshot]
  rfl

theorem follows_first {tok' : ListContinueToken} (hc : c.OneRow)
    (h : Served ok opts .first c read) (htok : read.page.continueToken = some tok') :
    Follows read.select.db.currentSnapshot read.head tok' := by
  obtain ⟨hsel, -, -, h₂, -⟩ := h.page hc
  refine ⟨(h.token hc htok).2.2.2.2, ?_⟩
  intro v hv
  obtain ⟨y, hy, rfl⟩ := List.mem_map.mp hv
  exact ⟨y, (rows_kept hsel.1 h₂).1 y hy, rfl⟩

/-- The pages after the first: their objects come from the table the first token was taken in, in
descending order below the cursor. -/
theorem Listing.later (h : Listing ok opts tok c reads) (hc : c.OneRow) (hf : Follows s c tok)
    (hcur : 0 < tok.cursor) :
    (items reads).Pairwise (fun x y => y.rv < x.rv) ∧ ∀ x ∈ items reads,
      x ∈ c.db.rows ∧ x.rv < tok.cursor ∧ s.visible x = true ∧ opts.asks x ∧
        x.decodable = true := by
  induction h with
  | stop => simp [items]
  | @next tok tok' c read rest hs htok hrest ih =>
    obtain ⟨hsel, hhead, h₁, h₂, floor, p, s', -, hp⟩ := hs.page hc
    obtain ⟨-, hcur', hle, -, -⟩ := hs.token hc htok
    obtain ⟨hsorted, hitems⟩ := ih hhead (hf.next hc hs htok) hcur'
    have hlt : tok'.cursor < tok.cursor := by
      obtain ⟨-, last, hlast, rfl⟩ := hp.token tok' htok
      obtain ⟨-, -, -, hcl, -⟩ := hs.item hc (List.mem_of_getLast? hlast)
      exact hcl.resolve_left hcur.ne'
    refine ⟨?_, ?_⟩
    · rw [items, List.flatMap_cons, List.pairwise_append]
      refine ⟨hp.sorted hsel.1 hsel.2, hsorted, ?_⟩
      intro x hx y hy
      exact (hitems y hy).2.1.trans_le (hle x hx)
    · intro x hx
      rcases List.mem_append.mp hx with hx | hx
      · obtain ⟨hrow, hasks, hdec, hcl, hsnap⟩ := hs.item hc hx
        have hvis := hsnap s hf.snapshot
        exact ⟨mem_of_visible hc h₁ hf.committed hrow hvis, hcl.resolve_left hcur.ne', hvis, hasks,
          hdec⟩
      · obtain ⟨hrow, hcl, hvis, hasks, hdec⟩ := hitems x hx
        exact ⟨mem_of_visible hc (h₁.trans h₂) hf.committed hrow hvis, hcl.trans hlt, hvis, hasks,
          hdec⟩
  | @last tok c read hs htok =>
    obtain ⟨hsel, hhead, h₁, h₂, floor, p, s', -, hp⟩ := hs.page hc
    have heq : items [read] = read.page.items := by simp [items]
    rw [heq]
    refine ⟨hp.sorted hsel.1 hsel.2, ?_⟩
    intro x hx
    obtain ⟨hrow, hasks, hdec, hcl, hsnap⟩ := hs.item hc hx
    have hvis := hsnap s hf.snapshot
    exact ⟨mem_of_visible hc h₁ hf.committed hrow hvis, hcl.resolve_left hcur.ne', hvis, hasks,
      hdec⟩

/-- The objects of a list are rows of the table its first page read, in descending order. -/
theorem Listing.sound (h : Listing ok opts .first c (read :: rest)) (hc : c.OneRow) :
    (items (read :: rest)).Pairwise (fun x y => y.rv < x.rv) ∧
      ∀ x ∈ items (read :: rest),
        x ∈ read.select.db.rows ∧ opts.asks x ∧ x.decodable = true := by
  cases h with
  | @next _ tok' _ _ _ hs htok hrest =>
    obtain ⟨hsel, hhead, h₁, h₂, floor, p, s', -, hp⟩ := hs.page hc
    obtain ⟨-, hcur, hle, -, -⟩ := hs.token hc htok
    have hf := follows_first hc hs htok
    obtain ⟨hsorted, hitems⟩ := hrest.later hhead hf hcur
    refine ⟨?_, ?_⟩
    · rw [items, List.flatMap_cons, List.pairwise_append]
      refine ⟨hp.sorted hsel.1 hsel.2, hsorted, ?_⟩
      intro x hx y hy
      exact (hitems y hy).2.1.trans_le (hle x hx)
    · intro x hx
      rcases List.mem_append.mp hx with hx | hx
      · obtain ⟨hrow, hasks, hdec, -⟩ := hs.item hc hx
        exact ⟨hrow, hasks, hdec⟩
      · obtain ⟨hrow, -, hvis, hasks, hdec⟩ := hitems x hx
        refine ⟨mem_of_visible hsel h₂ ?_ hrow hvis, hasks, hdec⟩
        intro v hv
        exact List.mem_map.mp hv
  | last hs htok =>
    obtain ⟨hsel, -, -, -, floor, p, s', -, hp⟩ := hs.page hc
    have heq : items [read] = read.page.items := by simp [items]
    rw [heq]
    refine ⟨hp.sorted hsel.1 hsel.2, ?_⟩
    intro x hx
    obtain ⟨hrow, hasks, hdec, -⟩ := hs.item hc hx
    exact ⟨hrow, hasks, hdec⟩

/-- No object is returned twice. -/
theorem Listing.uid_nodup (h : Listing ok opts .first c (read :: rest)) (hc : c.OneRow) :
    ((items (read :: rest)).map (·.uid)).Nodup := by
  obtain ⟨hsorted, hitems⟩ := h.sound hc
  have hsel : read.select.OneRow := by
    cases h with
    | next hs => exact (hs.page hc).1
    | last hs => exact (hs.page hc).1
  refine List.pairwise_map.mpr (hsorted.imp_of_mem ?_)
  intro x y hx hy hlt hu
  have heq := hsel.1.rows_inj (hitems x hx).1 (hitems y hy).1 hu.symm
  rw [heq] at hlt
  exact lt_irrefl _ hlt

/-- Every page but the last returns an object. -/
theorem Listing.length_le (h : Listing ok opts tok c reads) (hc : c.OneRow) :
    reads.length ≤ (items reads).length + 1 := by
  induction h with
  | stop => simp
  | @next tok tok' c read rest hs htok hrest ih =>
    obtain ⟨-, hhead, -⟩ := hs.page hc
    have hne := List.length_pos_iff.mpr (hs.token hc htok).1
    have hrec := ih hhead
    rw [items, List.flatMap_cons, List.length_append, List.length_cons]
    unfold items at hrec
    omega
  | last => simp

/-- Every page reports the version its token carries. -/
theorem Listing.listRV_eq (h : Listing ok opts tok c reads) (hc : c.OneRow)
    (hrv : tok.headRV ≠ 0) : ∀ r ∈ reads, r.page.listRV = tok.headRV := by
  have hpage : ∀ {tok : ListContinueToken} {c read}, c.OneRow → Served ok opts tok c read →
      tok.headRV ≠ 0 → read.page.listRV = tok.headRV := by
    intro tok c read hc hs hrv
    obtain ⟨-, -, -, -, floor, p, s, -, hp⟩ := hs.page hc
    rw [hp.listRV, PostgreSQLBackend.pageListRV, if_neg hrv]
  induction h with
  | stop => simp
  | @next tok tok' c read rest hs htok hrest ih =>
    obtain ⟨-, hhead, -⟩ := hs.page hc
    obtain ⟨-, -, -, hhead', -⟩ := hs.token hc htok
    have heq := hpage hc hs hrv
    intro r hr
    rcases List.mem_cons.mp hr with rfl | hr
    · exact heq
    · rw [ih hhead (by rw [hhead', heq]; exact hrv) r hr, hhead', heq]
  | last hs htok =>
    intro r hr
    rw [List.mem_singleton.mp hr]
    exact hpage hc hs hrv

/-- When everything asked for decodes, what a page leaves out is left to the next ones. -/
theorem Served.left_out (hc : c.OneRow) (h : Served ok opts tok c read)
    (hdec : ∀ y ∈ read.select.db.rows, opts.asks y → y.decodable = true)
    (hasks : opts.asks x) (hcur : tok.cursor = 0 ∨ x.rv < tok.cursor)
    (hvis : ∀ s, tok.snapshot = some s → s.visible x = true) (hx : x ∈ read.select.db.rows)
    (hout : x ∉ read.page.items) :
    ∃ tok', read.page.continueToken = some tok' ∧ x.rv < tok'.cursor := by
  obtain ⟨hsel, -, -, -, floor, p, s, -, hp⟩ := h.page hc
  have hiff := PostgreSQLBackend.buildListQuery_iff hp.query
  exact hp.left_out hsel.1 hsel.2 (fun y hy hpy => hdec y hy ((hiff y).mp hpy).1) hx
    ((hiff x).mpr ⟨hasks, hcur, hvis⟩) hout

theorem Complete.tail {tok' : ListContinueToken} (h : Complete (read :: rest))
    (htok : read.page.continueToken = some tok') : Complete rest := by
  obtain ⟨r, hr, hnone⟩ := h
  cases rest with
  | nil =>
    obtain rfl : read = r := by simpa using hr
    rw [htok] at hnone
    cases hnone
  | cons r' rest => exact ⟨r, by simpa using hr, hnone⟩

/-- The pages after the first return everything asked for below the cursor that the snapshot sees,
unless it is rewritten before its page. -/
theorem Listing.complete_later (h : Listing ok opts tok c reads) (hc : c.OneRow)
    (hf : Follows s c tok) (hlast : Complete reads)
    (hdec : ∀ r ∈ reads, ∀ y ∈ r.select.db.rows, opts.asks y → y.decodable = true)
    (hasks : opts.asks x) (hvis : s.visible x = true) (hcur : x.rv < tok.cursor)
    (hkept : ¬ Rewritten x reads) : x ∈ items reads := by
  have hsnap : ∀ {c tok}, Follows s c tok → ∀ s', tok.snapshot = some s' → s'.visible x = true := by
    intro c tok hf s' hs'
    rw [hf.snapshot] at hs'
    exact Option.some.inj hs' ▸ hvis
  induction h with
  | stop =>
    obtain ⟨r, hr, -⟩ := hlast
    cases hr
  | @next tok tok' c read rest hs htok hrest ih =>
    obtain ⟨-, hhead, -⟩ := hs.page hc
    simp only [Rewritten, not_or, not_and, not_not] at hkept
    by_cases hin : x ∈ read.page.items
    · exact List.mem_append_left _ hin
    obtain ⟨tok'', htok'', hlt⟩ := hs.left_out hc (hdec read List.mem_cons_self) hasks (.inr hcur)
      (hsnap hf) hkept.1 hin
    obtain rfl : tok' = tok'' := Option.some.inj (htok.symm.trans htok'')
    exact List.mem_append_right _ (ih hhead (hf.next hc hs htok) (hlast.tail htok)
      (fun r hr => hdec r (List.mem_cons_of_mem _ hr)) hlt (hkept.2 hin))
  | @last tok c read hs htok =>
    simp only [Rewritten, not_or, not_and, not_not] at hkept
    by_cases hin : x ∈ read.page.items
    · simpa [items] using hin
    obtain ⟨tok', htok', -⟩ := hs.left_out hc (hdec read List.mem_cons_self) hasks (.inr hcur)
      (hsnap hf) hkept.1 hin
    rw [htok] at htok'
    cases htok'

/-- A complete list returns every row of its first table that is asked for, unless it is rewritten
before its page. -/
theorem Listing.complete (h : Listing ok opts .first c (read :: rest)) (hc : c.OneRow)
    (hlast : Complete (read :: rest))
    (hdec : ∀ r ∈ read :: rest, ∀ y ∈ r.select.db.rows, opts.asks y → y.decodable = true)
    (hx : x ∈ read.select.db.rows) (hasks : opts.asks x)
    (hkept : ¬ Rewritten x (read :: rest)) : x ∈ items (read :: rest) := by
  simp only [Rewritten, not_or, not_and, not_not] at hkept
  by_cases hin : x ∈ read.page.items
  · exact List.mem_append_left _ hin
  have hsnap : ∀ s, ListContinueToken.first.snapshot = some s → s.visible x = true :=
    fun s hs => by cases hs
  cases h with
  | @next _ tok' _ _ _ hs htok hrest =>
    obtain ⟨hsel, hhead, -⟩ := hs.page hc
    obtain ⟨tok'', htok'', hlt⟩ := hs.left_out hc (hdec read List.mem_cons_self) hasks (.inl rfl)
      hsnap hx hin
    obtain rfl : tok' = tok'' := Option.some.inj (htok.symm.trans htok'')
    have hvis : read.select.db.currentSnapshot.visible x = true := by
      simp only [Snapshot.visible, Database.currentSnapshot, List.contains_iff_mem, List.mem_map]
      exact ⟨x, hsel.1.rows_log x hx, rfl⟩
    exact List.mem_append_right _ (hrest.complete_later hhead (follows_first hc hs htok)
      (hlast.tail htok) (fun r hr => hdec r (List.mem_cons_of_mem _ hr)) hasks hvis hlt
      (hkept.2 hin))
  | last hs htok =>
    obtain ⟨tok', htok', -⟩ := hs.left_out hc (hdec read List.mem_cons_self) hasks (.inl rfl)
      hsnap hx hin
    rw [htok] at htok'
    cases htok'

/-- A version that a later page returns was in the table at every page before it. -/
theorem Listing.not_rewritten_later (h : Listing ok opts tok c reads) (hc : c.OneRow)
    (hf : Follows s c tok) (hcur : 0 < tok.cursor) (hx : x ∈ items reads) :
    ¬ Rewritten x reads := by
  induction h with
  | stop => exact id
  | @next tok tok' c read rest hs htok hrest ih =>
    obtain ⟨hsel, hhead, h₁, h₂, -⟩ := hs.page hc
    simp only [Rewritten, not_or, not_and, not_not]
    rcases List.mem_append.mp hx with hin | hlater
    · exact ⟨(hs.item hc hin).1, fun hout => absurd hin hout⟩
    · have hcur' := (hs.token hc htok).2.1
      have hf' := hf.next hc hs htok
      obtain ⟨hrow, -, hvis, -⟩ := (hrest.later hhead hf' hcur').2 x hlater
      exact ⟨mem_of_visible hsel h₂ (hf.run hc h₁).committed hrow hvis,
        fun _ => ih hhead hf' hcur' hlater⟩
  | @last tok c read hs htok =>
    have hin : x ∈ read.page.items := by simpa [items] using hx
    simp only [Rewritten, not_or, not_and, not_not]
    exact ⟨(hs.item hc hin).1, fun hout => absurd hin hout⟩

theorem Listing.not_rewritten (h : Listing ok opts .first c (read :: rest)) (hc : c.OneRow)
    (hx : x ∈ items (read :: rest)) : ¬ Rewritten x (read :: rest) := by
  have hrow := ((h.sound hc).2 x hx).1
  simp only [Rewritten, not_or, not_and, not_not]
  refine ⟨hrow, fun hout => ?_⟩
  have hlater : x ∈ items rest := (List.mem_append.mp hx).resolve_left hout
  cases h with
  | next hs htok hrest =>
    obtain ⟨-, hhead, -⟩ := hs.page hc
    exact hrest.not_rewritten_later hhead (follows_first hc hs htok) (hs.token hc htok).2.1 hlater
  | last hs htok => cases hlater

/-- The list version of a first page with more pages to come is positive when no transaction
committed inside its call. -/
theorem Listing.listRV_pos {tok' : ListContinueToken} (hc : c.OneRow)
    (h : Served ok opts .first c read) (htok : read.page.continueToken = some tok')
    (hone : read.select.db = read.head.db) : read.page.listRV ≠ 0 := by
  obtain ⟨hne, -, -, -, hsnap⟩ := h.token hc htok
  obtain ⟨hsel, -, -, -, floor, p, s, -, hp⟩ := h.page hc
  obtain ⟨x, hx⟩ := List.exists_mem_of_ne_nil _ hne
  obtain ⟨hrow, -⟩ := h.item hc hx
  obtain ⟨-, last, -, rfl⟩ := hp.token tok' htok
  obtain rfl : s = read.select.db.currentSnapshot := Option.some.inj hsnap
  have hvis : x ∈ read.head.db.rows.filter read.select.db.currentSnapshot.visible := by
    refine List.mem_filter.mpr ⟨hone ▸ hrow, ?_⟩
    simp only [Snapshot.visible, Database.currentSnapshot, List.contains_iff_mem, List.mem_map]
    exact ⟨x, hsel.1.rows_log x hrow, rfl⟩
  have hle := Database.le_maxRV hvis
  have hpos := hsel.1.rows_pos hrow
  have hrv : read.page.listRV = max (Database.maxRV (read.head.db.rows.filter
      read.select.db.currentSnapshot.visible)) floor := hp.listRV
  omega

/-- Whatever commits while a client follows the tokens of a list: it reaches the end, no object is
returned twice, every object is one the first table held and was asked for, a complete list leaves
out exactly those of them that are written again before their page, and all pages report one list
version unless page 1 found its whole table rewritten. -/
theorem paginated_list (h : machine.Reachable Machine.always c)
    (hlist : Listing Machine.always opts .first c (read :: rest)) :
    (read :: rest).length ≤ read.select.db.rows.length + 1 ∧
      ((items (read :: rest)).map (·.uid)).Nodup ∧
      (∀ x ∈ items (read :: rest), x ∈ read.select.db.rows ∧ opts.asks x) ∧
      (Complete (read :: rest) →
        (∀ r ∈ read :: rest, ∀ y ∈ r.select.db.rows, opts.asks y → y.decodable = true) →
        ∀ x ∈ read.select.db.rows, opts.asks x →
          (x ∈ items (read :: rest) ↔ ¬ Rewritten x (read :: rest))) ∧
      (read.select.db = read.head.db ∨ read.page.listRV ≠ 0 →
        ∀ r ∈ read :: rest, r.page.listRV = read.page.listRV) := by
  have hc := oneRow_of_reachable h
  obtain ⟨-, hitems⟩ := hlist.sound hc
  have huid := hlist.uid_nodup hc
  refine ⟨?_, huid, fun x hx => ⟨(hitems x hx).1, (hitems x hx).2.1⟩, ?_, ?_⟩
  · have hsub : (items (read :: rest)).Subperm read.select.db.rows :=
      List.subperm_of_subset huid.of_map fun x hx => (hitems x hx).1
    exact (hlist.length_le hc).trans (Nat.add_le_add_right hsub.length_le 1)
  · intro hlast hdec x hx hasks
    exact ⟨hlist.not_rewritten hc, hlist.complete hc hlast hdec hx hasks⟩
  · intro hone r hr
    rcases List.mem_cons.mp hr with rfl | hr
    · rfl
    cases hlist with
    | next hs htok hrest =>
      have hrv : read.page.listRV ≠ 0 := by
        rcases hone with hone | hrv
        · exact Listing.listRV_pos hc hs htok hone
        · exact hrv
      have hhead := (hs.token hc htok).2.2.2.1
      rw [hrest.listRV_eq (hs.page hc).2.1 (by rw [hhead]; exact hrv) r hr, hhead]
    | last hs htok => cases hr

/-! ### Concrete lists -/

/-- List all queries, one to a page. -/
def oneByOne : ListOptions := ⟨allQueries, 1⟩

/-- Two queries, on one replica. -/
def twoQueries : Cluster :=
  ⟨⟨2, 0, [query 2 "b", query 1 "a"], [], 0, [query 1 "a", query 2 "b"], []⟩, [(0, .new)]⟩

/-- A third query has been created. -/
def queryCreated : Cluster :=
  ⟨⟨3, 0, [query 3 "c", query 2 "b", query 1 "a"], [], 0, [query 1 "a", query 2 "b", query 3 "c"],
    []⟩, [(0, .new)]⟩

/-- The first query has been updated. -/
def queryUpdated : Cluster :=
  ⟨⟨3, 0, [query 3 "a", query 2 "b"], [], 0, [query 1 "a", query 2 "b", query 3 "a"], []⟩,
    [(0, .new)]⟩

theorem reachable_twoQueries : machine.Reachable Machine.always twoQueries :=
  ⟨_, rfl, Machine.run_of_execWhile (b := fun _ _ => true) (fun _ _ _ => trivial)
    (l := .new 0 :: (createQuery 1 "a" ++ createQuery 2 "b")) rfl⟩

/-- The call of replica 0 whose statements all ran in `c`. -/
def readAt (c : Cluster) (page : ListPage) : PageRead := ⟨c, c, c, page⟩

theorem served_readAt {page : ListPage} (hrun : machine.Run ok c c')
    (hr : (0, .new) ∈ c'.replicas)
    (hpage : PostgreSQLBackend.list c'.db c'.db c'.db 0 opts tok = some page) :
    Served ok opts tok c (readAt c' page) :=
  ⟨hrun, .refl, .refl, 0, .new, hr, hpage⟩

def firstQueries : ListPage := ⟨[query 2 "b"], some ⟨some [1, 2], 2, 2⟩, 2⟩

theorem served_firstQueries : Served Machine.always oneByOne .first twoQueries
    (readAt twoQueries firstQueries) :=
  served_readAt .refl List.mem_cons_self (by decide)

/-- A query created between the pages is not returned, and the older one is. -/
theorem paginated_list_under_create : ∃ reads, Listing Machine.always oneByOne .first twoQueries
      reads ∧ Complete reads ∧ items reads = [query 2 "b", query 1 "a"] ∧
      ((items reads).map (·.uid)).Nodup := by
  have hrun : machine.Run Machine.always twoQueries queryCreated :=
    Machine.run_of_execWhile (b := fun _ _ => true) (fun _ _ _ => trivial)
      (l := createQuery 3 "c") rfl
  have hlist : Listing Machine.always oneByOne .first twoQueries
      [readAt twoQueries firstQueries, readAt queryCreated ⟨[query 1 "a"], none, 2⟩] :=
    .next served_firstQueries rfl
      (.last (served_readAt hrun List.mem_cons_self (by decide)) rfl)
  exact ⟨_, hlist, ⟨_, rfl, rfl⟩, rfl, (paginated_list reachable_twoQueries hlist).2.1⟩

/-- A query updated between the pages is returned by neither, though it stays live. -/
theorem updated_object_left_out :
    ¬ ∀ c opts read rest, machine.Reachable Machine.always c → 0 < opts.limit →
      Listing Machine.always opts .first c (read :: rest) → Complete (read :: rest) →
      (∀ r ∈ read :: rest, r.select.db = r.head.db) →
      ∀ x ∈ read.select.db.rows, opts.asks x →
        (∀ r ∈ read :: rest, ∃ y ∈ r.select.db.rows, y.uid = x.uid ∧ opts.asks y ∧
          y.decodable = true) →
        ∃ y ∈ items (read :: rest), y.uid = x.uid := by
  intro hall
  have hrun : machine.Run Machine.always twoQueries queryUpdated :=
    Machine.run_of_execWhile (b := fun _ _ => true) (fun _ _ _ => trivial)
      (l := [.database (.update "Query" "default" "a" 1 [] true), .database (.commit 3)]) rfl
  have hlist : Listing Machine.always oneByOne .first twoQueries
      [readAt twoQueries firstQueries, readAt queryUpdated ⟨[], none, 2⟩] :=
    .next served_firstQueries rfl
      (.last (served_readAt hrun List.mem_cons_self (by decide)) rfl)
  have hasks : oneByOne.asks (query 1 "a") := ⟨by decide, rfl⟩
  obtain ⟨y, hy, hu⟩ := hall _ _ _ _ reachable_twoQueries Nat.one_pos hlist ⟨_, rfl, rfl⟩
    (by simp [readAt]) (query 1 "a") (by decide) hasks (by
      intro r hr
      rcases List.mem_cons.mp hr with rfl | hr
      · exact ⟨query 1 "a", by decide, rfl, hasks, rfl⟩
      · rw [List.mem_singleton.mp hr]
        exact ⟨query 3 "a", by decide, rfl, ⟨by decide, rfl⟩, rfl⟩)
  obtain rfl : y = query 2 "b" := List.mem_singleton.mp hy
  exact absurd hu (by decide)

end Cluster
end Ark
