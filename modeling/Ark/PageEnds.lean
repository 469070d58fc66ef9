import Ark.Pagination
import Ark.PagedScan

/-!
# Where a paginated list ends

A list over a table that nobody writes to. Its pages are those of a reader that passes over the rows that
cannot be reconstructed: such a row in the window of a page makes that page the last one, also where rows
are left behind it.
-/

namespace Ark

namespace PostgreSQLBackend

/-- The pages from a token on, up to an empty token. The first page has the cursor 0, and a legacy integer
token nothing but its cursor; `floors` are the purge floors of the replicas that serve the pages. -/
def followTokens (db : Database) (opts : ListOptions) :
    ℕ → (ℕ → ℕ) → ListContinueToken → Option (List ListPage)
  | 0, _, _ => none
  | fuel + 1, floors, contTok => do
    let page ← list db db db (floors 0) opts contTok
    match page.continueToken with
    | none => some [page]
    | some next => (followTokens db opts fuel (fun i => floors (i + 1)) next).map (page :: ·)

/-- Exactly the decodable rows below a cursor that a list asks for, newest first. -/
def ListsAll (db : Database) (opts : ListOptions) (cursor : ℕ) (items : List Row) : Prop :=
  items.Pairwise (fun x y => y.rv < x.rv) ∧ ∀ x, x ∈ items ↔
    x ∈ db.rows ∧ opts.asks x ∧ (cursor = 0 ∨ x.rv < cursor) ∧ x.decodable = true

section

variable {db : Database} {opts : ListOptions} {contTok : ListContinueToken} {p : Row → Bool}

/-- Rows that descend strictly are known by their members. -/
theorem eq_of_descends {xs ys : List Row} (hxs : xs.Pairwise fun x y => y.rv < x.rv)
    (hys : ys.Pairwise fun x y => y.rv < x.rv) (h : ∀ x, x ∈ xs ↔ x ∈ ys) : xs = ys := by
  have hnodup {zs : List Row} (hzs : zs.Pairwise fun x y => y.rv < x.rv) : zs.Nodup := by
    refine hzs.imp ?_
    rintro x y hlt rfl
    exact lt_irrefl _ hlt
  have hperm : xs.Perm ys := (List.perm_ext_iff_of_nodup (hnodup hxs) (hnodup hys)).mpr h
  exact hperm.eq_of_pairwise (fun x y _ _ hlt hgt => absurd hlt hgt.asymm) hxs hys

theorem selectDesc_descends (hdb : db.WellFormed) (hrows : (db.rows.map (·.uid)).Nodup)
    (p : Row → Bool) : (db.selectDesc p).Pairwise fun x y => y.rv < x.rv :=
  (selectDesc_sorted hdb hrows).imp And.left

/-- A token of a list over this table. -/
def Unchanged (db : Database) (contTok : ListContinueToken) : Prop :=
  ∀ s, contTok.snapshot = some s → s = db.currentSnapshot

theorem visible_of_mem (hdb : db.WellFormed) {x : Row} (hx : x ∈ db.rows) :
    db.currentSnapshot.visible x = true := by
  simp only [Snapshot.visible, Database.currentSnapshot, List.contains_iff_mem, List.mem_map]
  exact ⟨x, hdb.rows_log x hx, rfl⟩

theorem mem_selectDesc_query (hdb : db.WellFormed) (hunchanged : Unchanged db contTok)
    (hp : buildListQuery opts contTok = some p) (x : Row) : x ∈ db.selectDesc p ↔
      x ∈ db.rows ∧ opts.asks x ∧ (contTok.cursor = 0 ∨ x.rv < contTok.cursor) := by
  rw [mem_selectDesc, buildListQuery_iff hp]
  constructor
  · rintro ⟨hx, hasks, hcursor, -⟩
    exact ⟨hx, hasks, hcursor⟩
  · rintro ⟨hx, hasks, hcursor⟩
    exact ⟨hx, hasks, hcursor, fun s hs => hunchanged s hs ▸ visible_of_mem hdb hx⟩

/-- The next page selects what the pages before it have left. -/
theorem selectDesc_next (hdb : db.WellFormed) (hrows : (db.rows.map (·.uid)).Nodup)
    (hunchanged : Unchanged db contTok) (hp : buildListQuery opts contTok = some p) (listRV : ℕ)
    {limit : ℕ} {last : Row} (hlast : ((db.selectDesc p).take limit).getLast? = some last) :
    ∃ p', buildListQuery opts ⟨some db.currentSnapshot, last.rv, listRV⟩ = some p' ∧
      db.selectDesc p' = (db.selectDesc p).drop limit := by
  obtain ⟨clauses, hclauses, -⟩ := Option.map_eq_some_iff.mp hp
  have hp' : ∃ p', buildListQuery opts ⟨some db.currentSnapshot, last.rv, listRV⟩ = some p' := by
    rw [buildListQuery]
    dsimp only
    rw [hclauses, Option.map_some]
    exact ⟨_, rfl⟩
  obtain ⟨p', hp'⟩ := hp'
  refine ⟨p', hp', ?_⟩
  have hmem := mem_selectDesc_query hdb hunchanged hp
  have hdescends := selectDesc_descends hdb hrows p
  have hunchanged' : Unchanged db ⟨some db.currentSnapshot, last.rv, listRV⟩ :=
    fun s hs => (Option.some.inj hs).symm
  have hlast_mem : last ∈ (db.selectDesc p).take limit := List.mem_of_getLast? hlast
  have hlast_row := (hmem last).mp (List.mem_of_mem_take hlast_mem)
  have hpos := hdb.rows_pos hlast_row.1
  have hsplit := hdescends
  rw [← List.take_append_drop limit (db.selectDesc p), List.pairwise_append] at hsplit
  apply eq_of_descends (selectDesc_descends hdb hrows p') hsplit.2.1
  intro x
  rw [mem_selectDesc_query hdb hunchanged' hp' x]
  constructor
  · rintro ⟨hx, hasks, hcursor⟩
    have hlt : x.rv < last.rv := hcursor.resolve_left (Nat.ne_of_gt hpos)
    have hbelow : contTok.cursor = 0 ∨ x.rv < contTok.cursor :=
      hlast_row.2.2.imp id fun hle => hlt.trans hle
    have hselected := (hmem x).mpr ⟨hx, hasks, hbelow⟩
    rw [← List.take_append_drop limit (db.selectDesc p)] at hselected
    refine (List.mem_append.mp hselected).resolve_left fun htake => ?_
    -- The last row of the page is the lowest of it.
    obtain ⟨init, hinit⟩ := List.getLast?_eq_some_iff.mp hlast
    have hsorted := hsplit.1
    rw [hinit, List.pairwise_append] at hsorted
    rw [hinit] at htake
    obtain hin | hin := List.mem_append.mp htake
    · exact lt_asymm hlt (hsorted.2.2 x hin last List.mem_cons_self)
    · rw [List.mem_singleton.mp hin] at hlt
      exact lt_irrefl _ hlt
  · intro hx
    have hrow := (hmem x).mp (List.mem_of_mem_drop hx)
    exact ⟨hrow.1, hrow.2.1, .inr (hsplit.2.2 last hlast_mem x hx)⟩

/-- The kept rows of the page that a query selects. -/
def pageItems (db : Database) (opts : ListOptions) (p : Row → Bool) : List Row :=
  PagedScan.window opts.limit (·.decodable) (db.selectDesc p)

theorem list_eq (hlimit : 0 < opts.limit) (hunchanged : Unchanged db contTok)
    (hp : buildListQuery opts contTok = some p) (floor : ℕ) : ∃ listRV,
      (opts.limit < (pageItems db opts p).length → list db db db floor opts contTok = some
        ⟨(pageItems db opts p).take opts.limit, some ⟨some db.currentSnapshot,
          (((pageItems db opts p).take opts.limit).getLast?.map (·.rv)).getD 0, listRV⟩, listRV⟩) ∧
      (¬ opts.limit < (pageItems db opts p).length →
        list db db db floor opts contTok = some ⟨pageItems db opts p, none, listRV⟩) := by
  have hrows : limitRows opts.limit (db.selectDesc p) = (db.selectDesc p).take (opts.limit + 1) :=
    if_pos hlimit
  have hsnapshot {rows : List Row} : pageSnapshot contTok rows db db = db.currentSnapshot := by
    rw [pageSnapshot]
    split
    next s hs => exact hunchanged s hs
    next => exact ite_self _
  have hitems : scanListRows ((db.selectDesc p).take (opts.limit + 1)) = pageItems db opts p := rfl
  refine ⟨pageListRV contTok db floor db.currentSnapshot, ?_⟩
  rw [list, hp]
  dsimp only [Option.bind_eq_bind, Option.bind_some]
  rw [hrows, hsnapshot, hitems]
  exact ⟨fun hmore => if_pos ⟨hlimit, hmore⟩, fun hlast => if_neg fun hmore => hlast hmore.2⟩

/-- The pages of a list are those of a reader of the rows that its query selects. -/
theorem followTokens_items (hdb : db.WellFormed) (hrows : (db.rows.map (·.uid)).Nodup)
    (hlimit : 0 < opts.limit) (hunchanged : Unchanged db contTok)
    (hp : buildListQuery opts contTok = some p) (fuel : ℕ) (floors : ℕ → ℕ) :
    (followTokens db opts fuel floors contTok).map (List.map (·.items)) =
      PagedScan.pages opts.limit (·.decodable) fuel (db.selectDesc p) := by
  induction fuel generalizing contTok p floors with
  | zero => rfl
  | succ fuel ih =>
    obtain ⟨listRV, hmore, hlast⟩ := list_eq hlimit hunchanged hp (floors 0)
    have hitems : PagedScan.window opts.limit (·.decodable) (db.selectDesc p) = pageItems db opts p := rfl
    rw [followTokens, PagedScan.pages, hitems]
    by_cases hfull : opts.limit < (pageItems db opts p).length
    · have htake : (pageItems db opts p).take opts.limit = (db.selectDesc p).take opts.limit :=
        PagedScan.take_window hfull
      obtain ⟨hlong, -⟩ := PagedScan.lt_length_window.mp hfull
      have hne : (db.selectDesc p).take opts.limit ≠ [] := by
        intro hnil
        have hlength := congrArg List.length hnil
        rw [List.length_take, List.length_nil] at hlength
        omega
      obtain ⟨last, hlast⟩ : ∃ last, ((db.selectDesc p).take opts.limit).getLast? = some last :=
        ⟨_, List.getLast?_eq_some_getLast hne⟩
      obtain ⟨p', hp', hnext⟩ := selectDesc_next hdb hrows hunchanged hp listRV hlast
      have hunchanged' : Unchanged db ⟨some db.currentSnapshot, last.rv, listRV⟩ :=
        fun s hs => (Option.some.inj hs).symm
      have hrest := ih hunchanged' hp' fun i => floors (i + 1)
      rw [hnext] at hrest
      have hpage := hmore hfull
      rw [htake, hlast, Option.map_some, Option.getD_some] at hpage
      rw [hpage, if_pos hfull, htake, ← hrest, Option.bind_eq_bind, Option.bind_some, Option.map_map,
        Option.map_map]
      rfl
    · rw [hlast hfull, if_neg hfull]
      rfl

theorem listsAll_iff (hdb : db.WellFormed) (hrows : (db.rows.map (·.uid)).Nodup)
    (hunchanged : Unchanged db contTok) (hp : buildListQuery opts contTok = some p) (items : List Row) :
    ListsAll db opts contTok.cursor items ↔ items = (db.selectDesc p).filter (·.decodable) := by
  have hmem (x : Row) : x ∈ (db.selectDesc p).filter (·.decodable) ↔
      x ∈ db.rows ∧ opts.asks x ∧ (contTok.cursor = 0 ∨ x.rv < contTok.cursor) ∧ x.decodable = true := by
    rw [List.mem_filter, mem_selectDesc_query hdb hunchanged hp x, and_assoc, and_assoc]
  have hdescends := (selectDesc_descends hdb hrows p).sublist (List.filter_sublist (p := (·.decodable)))
  constructor
  · rintro ⟨hsorted, hitems⟩
    exact eq_of_descends hsorted hdescends fun x => (hitems x).trans (hmem x).symm
  · rintro rfl
    exact ⟨hdescends, hmem⟩

/-- The reader of an unchanged table reaches its end where no decodable row is behind the window of the first
undecodable one. -/
theorem pages_reach_end (hdb : db.WellFormed) (hrows : (db.rows.map (·.uid)).Nodup)
    (hlimit : 0 < opts.limit) (cursor : ℕ) (floors : ℕ → ℕ) :
    (∃ pages, followTokens db opts (db.rows.length + 1) floors ⟨none, cursor, 0⟩ = some pages ∧
        ListsAll db opts cursor (pages.flatMap (·.items))) ↔
      ∃ p, buildListQuery opts ⟨none, cursor, 0⟩ = some p ∧
        PagedScan.Ends opts.limit (·.decodable) (db.selectDesc p) := by
  have hunchanged : Unchanged db ⟨none, cursor, 0⟩ := by
    intro s hs
    cases hs
  have hpages {p : Row → Bool} (hp : buildListQuery opts ⟨none, cursor, 0⟩ = some p)
      {pages : List ListPage}
      (h : followTokens db opts (db.rows.length + 1) floors ⟨none, cursor, 0⟩ = some pages) :
      ListsAll db opts cursor (pages.flatMap (·.items)) ↔
        PagedScan.Ends opts.limit (·.decodable) (db.selectDesc p) := by
    have hitems := followTokens_items hdb hrows hlimit hunchanged hp (db.rows.length + 1) floors
    rw [h, Option.map_some] at hitems
    rw [← PagedScan.flatten_pages hlimit hitems.symm, List.flatMap_def]
    exact listsAll_iff hdb hrows hunchanged hp _
  constructor
  · rintro ⟨pages, hfollow, hall⟩
    obtain ⟨page, hlist, -⟩ := Option.bind_eq_some_iff.mp hfollow
    obtain ⟨p, hp, -⟩ := Option.bind_eq_some_iff.mp hlist
    exact ⟨p, hp, (hpages hp hfollow).mp hall⟩
  · rintro ⟨p, hp, hends⟩
    have hlength : (db.selectDesc p).length < db.rows.length + 1 := by
      have hfilter := List.length_filter_le p db.rows
      rw [Database.selectDesc, List.length_insertionSort]
      omega
    obtain ⟨ps, hps⟩ := @PagedScan.exists_pages _ opts.limit (·.decodable) _ hlimit _ hlength
    rw [← followTokens_items hdb hrows hlimit hunchanged hp _ floors] at hps
    obtain ⟨pages, hfollow, -⟩ := Option.map_eq_some_iff.mp hps
    exact ⟨pages, hfollow, (hpages hp hfollow).mpr hends⟩

end

/-- The newest query cannot be reconstructed. -/
def brokenQuery : Row := { Cluster.query 3 "c" with decodable := false }

def threeQueries : Cluster :=
  ⟨⟨3, 0, [brokenQuery, Cluster.query 2 "b", Cluster.query 1 "a"], [], 0,
    [Cluster.query 1 "a", Cluster.query 2 "b", brokenQuery], []⟩, [(0, .new)]⟩

theorem reachable_threeQueries : Cluster.machine.Reachable Machine.always threeQueries :=
  ⟨_, rfl, Machine.run_of_execWhile (b := fun _ _ => true) (fun _ _ _ => trivial)
    (l := .new 0 :: (Cluster.createQuery 1 "a" ++ Cluster.createQuery 2 "b" ++
      [.database (.create "Query" "default" "c" "c" [] false), .database (.commit 3)])) rfl⟩

/-- Both queries are listed, one to a page. -/
theorem pages_reach_end_twoQueries : ∃ pages,
    followTokens Cluster.twoQueries.db Cluster.oneByOne 3 (fun _ => 0) ⟨none, 0, 0⟩ = some pages ∧
      ListsAll Cluster.twoQueries.db Cluster.oneByOne 0 (pages.flatMap (·.items)) := by
  have hone := Cluster.oneRow_of_reachable Cluster.reachable_twoQueries
  refine (pages_reach_end hone.1 hone.2 Nat.one_pos 0 fun _ => 0).mpr ⟨_, rfl, ?_⟩
  rw [PagedScan.Ends]
  decide

/-- The page of two rows holds one query, and the oldest one is behind it. -/
theorem oldest_query_left_out : ¬ ∀ (c : Cluster) (opts : ListOptions) (floors : ℕ → ℕ),
    Cluster.machine.Reachable Machine.always c → c.db.inflight = [] → 0 < opts.limit →
    opts.filter.labelSel = [] → ∃ fuel pages,
      followTokens c.db opts fuel floors ⟨none, 0, 0⟩ = some pages ∧
        ListsAll c.db opts 0 (pages.flatMap (·.items)) := by
  intro hall
  obtain ⟨fuel, pages, hpages, -, hitems⟩ := hall threeQueries Cluster.oneByOne (fun _ => 0)
    reachable_threeQueries rfl Nat.one_pos rfl
  have holdest := (hitems (Cluster.query 1 "a")).mpr
    ⟨by decide, ⟨by decide, rfl⟩, .inl rfl, rfl⟩
  cases fuel with
  | zero => cases hpages
  | succ fuel =>
    have hpage : list threeQueries.db threeQueries.db threeQueries.db 0 Cluster.oneByOne ⟨none, 0, 0⟩ =
        some ⟨[Cluster.query 2 "b"], none, 3⟩ := by decide
    rw [followTokens, hpage] at hpages
    obtain rfl := Option.some.inj hpages
    exact absurd holdest (by decide)

end PostgreSQLBackend

end Ark
