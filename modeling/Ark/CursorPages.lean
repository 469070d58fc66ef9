import Mathlib.Data.List.Sort

/-!
# Reading a collection page by page

A collection is kept in the order of its keys. A page holds the first items after a cursor, tells
whether there are more, and gives the key of its last item as the next cursor. While the collection
grows between the pages, with new keys anywhere, what a reader collects stays in order, and nothing
that was there from the beginning is missing up to the cursor.
-/

namespace CursorPages

variable {ι : Type*} (key : ι → ℕ)

structure Page (ι : Type*) where
  items : List ι
  hasMore : Bool
  nextCursor : Option ℕ
  deriving DecidableEq, Repr

def Page.map {κ : Type*} (f : ι → κ) (page : Page ι) : Page κ :=
  ⟨page.items.map f, page.hasMore, page.nextCursor⟩

abbrev Increasing (l : List ι) : Prop := l.Pairwise fun x y => key x < key y

/-- Without a cursor everything comes after it. -/
def isAfter (cursor : Option ℕ) (x : ι) : Bool := cursor.all fun c => c < key x

def pageOf (limit : ℕ) (cursor : Option ℕ) (l : List ι) : Page ι :=
  let rest := l.filter (isAfter key cursor)
  let items := rest.take limit
  let hasMore := decide (limit < rest.length)
  ⟨items, hasMore, if hasMore then items.getLast?.map key else none⟩

/-- `ORDER BY` the key. -/
def orderBy (l : List ι) : List ι := l.insertionSort fun x y => key x ≤ key y

/-! ### Order -/

variable {key}

theorem mem_orderBy {l : List ι} {x : ι} : x ∈ orderBy key l ↔ x ∈ l :=
  List.mem_insertionSort _

theorem increasing_orderBy {l : List ι} (h : (l.map key).Nodup) :
    Increasing key (orderBy key l) := by
  have hsorted : (orderBy key l).Pairwise fun x y => key x ≤ key y :=
    List.pairwise_insertionSort _ l
  have hperm : (orderBy key l).Perm l := List.perm_insertionSort _ l
  have hnodup : ((orderBy key l).map key).Nodup := (hperm.map key).nodup_iff.mpr h
  have hne : (orderBy key l).Pairwise fun x y => key x ≠ key y := List.pairwise_map.mp hnodup
  exact (hsorted.and hne).imp fun hxy => Nat.lt_of_le_of_ne hxy.1 hxy.2

theorem orderBy_of_increasing {l : List ι} (h : Increasing key l) : orderBy key l = l :=
  List.Pairwise.insertionSort_eq (h.imp Nat.le_of_lt)

theorem Increasing.filter {l : List ι} (h : Increasing key l) (p : ι → Bool) :
    Increasing key (l.filter p) := List.Pairwise.filter p h

theorem Increasing.nodup {l : List ι} (h : Increasing key l) : l.Nodup := by
  refine List.Pairwise.imp ?_ h
  rintro x y hxy rfl
  exact Nat.lt_irrefl _ hxy

/-- There is one way to put items in order. -/
theorem Increasing.ext {l l' : List ι} (h : Increasing key l) (h' : Increasing key l')
    (hmem : ∀ x, x ∈ l ↔ x ∈ l') : l = l' := by
  have hperm : l.Perm l' := (List.perm_ext_iff_of_nodup h.nodup h'.nodup).mpr hmem
  refine hperm.eq_of_pairwise ?_ h h'
  intro x y _ _ hxy hyx
  exact absurd hyx (Nat.lt_asymm hxy)

theorem orderBy_filter {l : List ι} (h : (l.map key).Nodup) (p : ι → Bool) :
    orderBy key (l.filter p) = (orderBy key l).filter p := by
  have hfilter : ((l.filter p).map key).Nodup := (List.filter_sublist.map _).nodup h
  refine (increasing_orderBy hfilter).ext ((increasing_orderBy h).filter p) fun x => ?_
  rw [mem_orderBy, List.mem_filter, List.mem_filter, mem_orderBy]

/-- Items of an increasing list up to the last one of its beginning are in the beginning. -/
theorem mem_take_of_le {l : List ι} (h : Increasing key l) {n : ℕ} {x y : ι} (hx : x ∈ l)
    (hy : y ∈ l.take n) (hxy : key x ≤ key y) : x ∈ l.take n := by
  rw [← List.take_append_drop n l] at h hx
  obtain hx | hx := List.mem_append.mp hx
  · exact hx
  · have hlt := (List.pairwise_append.mp h).2.2 y hy x hx
    omega

/-- The last key of a list is a bound of its keys. -/
theorem le_getLast {l : List ι} (h : Increasing key l) {last : ι} (hlast : l.getLast? = some last)
    {x : ι} (hx : x ∈ l) : key x ≤ key last := by
  obtain ⟨front, rfl⟩ := List.getLast?_eq_some_iff.mp hlast
  obtain hx | hx := List.mem_append.mp hx
  · exact Nat.le_of_lt ((List.pairwise_append.mp h).2.2 x hx last (List.mem_singleton_self last))
  · rw [List.mem_singleton.mp hx]

/-! ### Pages -/

/-- Everything of `base` is in `acc`, which is increasing and holds nothing but items of `seen`. -/
structure Whole (key : ι → ℕ) (base seen acc : List ι) : Prop where
  increasing : Increasing key acc
  sound : ∀ x ∈ acc, x ∈ seen
  complete : ∀ x ∈ base, x ∈ acc

/-- What has been collected up to a cursor. -/
structure Collected (key : ι → ℕ) (base seen : List ι) (cursor : Option ℕ) (acc : List ι) :
    Prop where
  increasing : Increasing key acc
  sound : ∀ x ∈ acc, x ∈ seen
  bounded : ∀ x ∈ acc, isAfter key cursor x = false
  complete : ∀ x ∈ base, isAfter key cursor x = false → x ∈ acc

variable {base seen seen' acc : List ι} {cursor : Option ℕ} {limit : ℕ}

theorem collected_start (base seen : List ι) : Collected key base seen none [] where
  increasing := .nil
  sound := by simp
  bounded := by simp
  complete := by simp [isAfter]

theorem Whole.mono (h : Whole key base seen acc) (hsub : ∀ x ∈ seen, x ∈ seen') :
    Whole key base seen' acc := { h with sound := fun x hx => hsub x (h.sound x hx) }

theorem Collected.mono (h : Collected key base seen cursor acc)
    (hsub : ∀ x ∈ seen, x ∈ seen') : Collected key base seen' cursor acc :=
  { h with sound := fun x hx => hsub x (h.sound x hx) }

theorem lt_of_isAfter {x y : ι} (hx : isAfter key cursor x = false)
    (hy : isAfter key cursor y = true) : key x < key y := by
  cases cursor with
  | none => cases hx
  | some c =>
    simp only [isAfter, Option.all_some, decide_eq_true_eq, decide_eq_false_iff_not] at hx hy
    omega

/-- What follows the cursor can be added at the end. -/
theorem Collected.append (h : Collected key base seen cursor acc) {items : List ι}
    (hitems : Increasing key items) (hafter : ∀ x ∈ items, isAfter key cursor x = true) :
    Increasing key (acc ++ items) :=
  List.pairwise_append.mpr ⟨h.increasing, hitems, fun x hx y hy =>
    lt_of_isAfter (h.bounded x hx) (hafter y hy)⟩

section

variable (h : Collected key base seen cursor acc) (hseen : Increasing key seen)
  (hbase : ∀ x ∈ base, x ∈ seen)
include h hseen hbase

/-- A page that is not the last one brings the reader to a later cursor. -/
theorem Collected.page (hlimit : 0 < limit) (hmore : (pageOf key limit cursor seen).hasMore = true) :
    ∃ c, (pageOf key limit cursor seen).nextCursor = some c ∧ (∀ c₀, cursor = some c₀ → c₀ < c) ∧
      Collected key base seen (some c) (acc ++ (pageOf key limit cursor seen).items) := by
  have hrest : Increasing key (seen.filter (isAfter key cursor)) := hseen.filter _
  have hitems : Increasing key (pageOf key limit cursor seen).items :=
    hrest.sublist (List.take_sublist ..)
  have hmem : ∀ x ∈ (pageOf key limit cursor seen).items,
      x ∈ seen ∧ isAfter key cursor x = true := by
    intro x hx
    exact List.mem_filter.mp (List.mem_of_mem_take hx)
  have hlength : limit < (seen.filter (isAfter key cursor)).length := of_decide_eq_true hmore
  have hne : (pageOf key limit cursor seen).items ≠ [] := by
    apply List.ne_nil_of_length_pos
    rw [pageOf, List.length_take]
    omega
  obtain ⟨last, hlast⟩ : ∃ last, (pageOf key limit cursor seen).items.getLast? = some last :=
    ⟨_, List.getLast?_eq_some_getLast hne⟩
  have hlastmem := List.mem_of_getLast? hlast
  refine ⟨key last, ?_, ?_, ?_⟩
  · have hnext : (pageOf key limit cursor seen).nextCursor =
        if (pageOf key limit cursor seen).hasMore then
          (pageOf key limit cursor seen).items.getLast?.map key else none := rfl
    rw [hnext, if_pos hmore, hlast, Option.map_some]
  · rintro c₀ rfl
    simpa [isAfter] using (hmem last hlastmem).2
  · refine ⟨h.append hitems fun x hx => (hmem x hx).2, ?_, ?_, ?_⟩
    · intro x hx
      obtain hx | hx := List.mem_append.mp hx
      · exact h.sound x hx
      · exact (hmem x hx).1
    · intro x hx
      have hle : key x ≤ key last := by
        obtain hx | hx := List.mem_append.mp hx
        · exact Nat.le_of_lt (lt_of_isAfter (h.bounded x hx) (hmem last hlastmem).2)
        · exact le_getLast hitems hlast hx
      simpa [isAfter] using hle
    · intro x hx hle
      have hle' : key x ≤ key last := by simpa [isAfter] using hle
      rw [List.mem_append]
      cases hafter : isAfter key cursor x with
      | false => exact .inl (h.complete x hx hafter)
      | true =>
        have hrestmem := List.mem_filter.mpr ⟨hbase x hx, hafter⟩
        exact .inr (mem_take_of_le hrest hrestmem hlastmem hle')

/-- With the last page the reader has everything. -/
theorem Collected.lastPage (hmore : (pageOf key limit cursor seen).hasMore = false) :
    Whole key base seen (acc ++ (pageOf key limit cursor seen).items) := by
  have hrest : Increasing key (seen.filter (isAfter key cursor)) := hseen.filter _
  have hlength : (seen.filter (isAfter key cursor)).length ≤ limit := by
    have hnot := of_decide_eq_false hmore
    omega
  have hall : (pageOf key limit cursor seen).items = seen.filter (isAfter key cursor) :=
    List.take_of_length_le hlength
  rw [hall]
  refine ⟨h.append hrest fun x hx => (List.mem_filter.mp hx).2, ?_, ?_⟩
  · intro x hx
    obtain hx | hx := List.mem_append.mp hx
    · exact h.sound x hx
    · exact (List.mem_filter.mp hx).1
  · intro x hx
    rw [List.mem_append]
    cases hafter : isAfter key cursor x with
    | false => exact .inl (h.complete x hx hafter)
    | true => exact .inr (List.mem_filter.mpr ⟨hbase x hx, hafter⟩)

end

end CursorPages
