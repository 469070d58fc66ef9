import Mathlib.Data.List.Basic

/-!
# Reading a list in pages

A reader takes the rows of a list in windows of one row more than a page holds, and passes over the rows
that it cannot keep. A window with more kept rows than a page holds gives a page, and the reader goes on
behind it; any other window is taken for the last one. So the reader stops at the window of the first row
that it passes over, and has read everything exactly when no row behind that window is kept.
-/

namespace PagedScan

variable {α : Type*} (limit : ℕ) (keep : α → Bool)

/-- The kept rows of the window at the head of a list. -/
def window (rows : List α) : List α := (rows.take (limit + 1)).filter keep

/-- The pages of a list, none when `fuel` does not suffice. -/
def pages : ℕ → List α → Option (List (List α))
  | 0, _ => none
  | fuel + 1, rows =>
    if limit < (window limit keep rows).length then
      (pages fuel (rows.drop limit)).map ((window limit keep rows).take limit :: ·)
    else some [window limit keep rows]

/-- The end of the first window that reaches the row at position `first`. -/
def windowEnd (first : ℕ) : ℕ := ((first - 1) / limit + 1) * limit + 1

/-- No row is kept behind the window of the first one that is not. -/
def Ends (rows : List α) : Prop :=
  ∀ x ∈ rows.drop (windowEnd limit (rows.findIdx fun x => !keep x)), keep x = false

variable {limit keep} {rows : List α}

/-- A window fills a page when it is a whole one and all its rows are kept. -/
theorem lt_length_window : limit < (window limit keep rows).length ↔
    limit < rows.length ∧ ∀ x ∈ rows.take (limit + 1), keep x = true := by
  have hlength : (rows.take (limit + 1)).length = min (limit + 1) rows.length := List.length_take
  have hle : (window limit keep rows).length ≤ (rows.take (limit + 1)).length :=
    List.length_filter_le _ _
  constructor
  · intro hlt
    have heq : (window limit keep rows).length = (rows.take (limit + 1)).length := by omega
    exact ⟨by omega, List.length_filter_eq_length_iff.mp heq⟩
  · rintro ⟨hrows, hkeep⟩
    have hall : window limit keep rows = rows.take (limit + 1) := List.filter_eq_self.mpr hkeep
    rw [hall]
    omega

/-- A page that a window fills is the head of the list. -/
theorem take_window (h : limit < (window limit keep rows).length) :
    (window limit keep rows).take limit = rows.take limit := by
  have hall : window limit keep rows = rows.take (limit + 1) :=
    List.filter_eq_self.mpr (lt_length_window.mp h).2
  rw [hall, List.take_take, Nat.min_eq_left (Nat.le_succ limit)]

theorem exists_pages (hlimit : 0 < limit) {fuel : ℕ} (h : rows.length < fuel) :
    ∃ ps, pages limit keep fuel rows = some ps := by
  induction fuel generalizing rows with
  | zero => omega
  | succ fuel ih =>
    rw [pages]
    split
    next hfull =>
      have hrows := (lt_length_window.mp hfull).1
      have hdrop : (rows.drop limit).length < fuel := by
        rw [List.length_drop]
        omega
      obtain ⟨ps, hps⟩ := ih hdrop
      exact ⟨_, by rw [hps, Option.map_some]⟩
    next => exact ⟨_, rfl⟩

/-! ### Where a page is full -/

theorem findIdx_drop (hkeep : ∀ x ∈ rows.take limit, keep x = true) :
    rows.findIdx (fun x => !keep x) = (rows.take limit).length +
      (rows.drop limit).findIdx fun x => !keep x := by
  have hnone : (rows.take limit).findIdx (fun x => !keep x) = (rows.take limit).length := by
    apply List.findIdx_eq_length_of_false
    intro x hx
    rw [hkeep x hx, Bool.not_true]
  conv_lhs => rw [← List.take_append_drop limit rows]
  rw [List.findIdx_append, hnone, if_neg (Nat.lt_irrefl _), Nat.add_comm]

theorem windowEnd_add (hlimit : 0 < limit) {first : ℕ} (h : 0 < first) :
    windowEnd limit (limit + first) = limit + windowEnd limit first := by
  have hdiv : (limit + first - 1) / limit = (first - 1) / limit + 1 := by
    rw [Nat.add_sub_assoc h, Nat.add_div_left _ hlimit]
  rw [windowEnd, windowEnd, hdiv, Nat.succ_mul ((first - 1) / limit + 1)]
  omega

/-- Behind a full page the reader has as much to read as from there on. -/
theorem ends_drop (hlimit : 0 < limit) (h : limit < (window limit keep rows).length) :
    Ends limit keep rows ↔ Ends limit keep (rows.drop limit) := by
  obtain ⟨hrows, hkeep⟩ := lt_length_window.mp h
  have hsub : ∀ x ∈ rows.take limit, keep x = true := fun x hx =>
    hkeep x (List.take_subset_take_left rows (Nat.le_succ limit) hx)
  have hlength : (rows.take limit).length = limit := by
    rw [List.length_take]
    omega
  have hfirst : 0 < (rows.drop limit).findIdx fun x => !keep x := by
    cases hdrop : rows.drop limit with
    | nil =>
      have hle := List.drop_eq_nil_iff.mp hdrop
      omega
    | cons x rest =>
      have hx : keep x = true := by
        apply hkeep
        have htake : rows.take (limit + 1) = rows.take limit ++ (rows.drop limit).take 1 := List.take_add
        rw [htake, hdrop]
        exact List.mem_append_right _ List.mem_cons_self
      rw [List.findIdx_cons, hx]
      exact Nat.succ_pos _
  rw [Ends, Ends, findIdx_drop hsub, hlength, windowEnd_add hlimit hfirst, List.drop_drop]

/-- Where no page is filled, the window is all that is read. -/
theorem ends_of_not_full (hlimit : 0 < limit) (h : ¬ limit < (window limit keep rows).length) :
    Ends limit keep rows ↔ ∀ x ∈ rows.drop (limit + 1), keep x = false := by
  have hge : limit + 1 ≤ windowEnd limit (rows.findIdx fun x => !keep x) := by
    have hle : limit ≤ ((rows.findIdx (fun x => !keep x) - 1) / limit + 1) * limit :=
      Nat.le_mul_of_pos_left limit (Nat.succ_pos _)
    rw [windowEnd]
    omega
  by_cases hrows : limit < rows.length
  · -- The first row that is passed over is in the window.
    have hexists : ∃ x ∈ rows.take (limit + 1), keep x = false := by
      by_contra hnot
      apply h
      refine lt_length_window.mpr ⟨hrows, fun x hx => ?_⟩
      by_contra hx'
      exact hnot ⟨x, hx, Bool.eq_false_iff.mpr hx'⟩
    have hfirst : rows.findIdx (fun x => !keep x) < limit + 1 := by
      obtain ⟨x, hx, hkeep⟩ := hexists
      have hlt : (rows.take (limit + 1)).findIdx (fun x => !keep x) < (rows.take (limit + 1)).length :=
        List.findIdx_lt_length_of_exists ⟨x, hx, by rw [hkeep, Bool.not_false]⟩
      have hlength : (rows.take (limit + 1)).length ≤ limit + 1 := List.length_take_le _ _
      rw [← List.take_append_drop (limit + 1) rows, List.findIdx_append, if_pos hlt]
      omega
    have hend : windowEnd limit (rows.findIdx fun x => !keep x) = limit + 1 := by
      have hdiv : (rows.findIdx (fun x => !keep x) - 1) / limit = 0 := Nat.div_eq_of_lt (by omega)
      rw [windowEnd, hdiv]
      omega
    rw [Ends, hend]
  · have hnil {n : ℕ} (hn : limit + 1 ≤ n) : rows.drop n = [] := List.drop_eq_nil_iff.mpr (by omega)
    rw [Ends, hnil hge, hnil (Nat.le_refl _)]

/-- The pages hold all kept rows exactly when none is behind the window at which the reader stops. -/
theorem flatten_pages (hlimit : 0 < limit) {fuel : ℕ} {ps : List (List α)}
    (h : pages limit keep fuel rows = some ps) :
    ps.flatten = rows.filter keep ↔ Ends limit keep rows := by
  induction fuel generalizing rows ps with
  | zero => cases h
  | succ fuel ih =>
    rw [pages] at h
    split at h
    next hfull =>
      obtain ⟨rest, hrest, rfl⟩ := Option.map_eq_some_iff.mp h
      have hkeep := (lt_length_window.mp hfull).2
      have hhead : rows.filter keep = rows.take limit ++ (rows.drop limit).filter keep := by
        have hall : (rows.take limit).filter keep = rows.take limit := List.filter_eq_self.mpr fun x hx =>
          hkeep x (List.take_subset_take_left rows (Nat.le_succ limit) hx)
        rw [← hall, ← List.filter_append, List.take_append_drop]
      rw [List.flatten_cons, take_window hfull, hhead, List.append_cancel_left_eq, ih hrest,
        ends_drop hlimit hfull]
    next hlast =>
      obtain rfl := Option.some.inj h
      have hsplit : rows.filter keep = window limit keep rows ++ (rows.drop (limit + 1)).filter keep := by
        rw [window, ← List.filter_append, List.take_append_drop]
      rw [List.flatten_singleton, hsplit, ends_of_not_full hlimit hlast, List.self_eq_append_right,
        List.filter_eq_nil_iff]
      simp only [Bool.not_eq_true]

end PagedScan
