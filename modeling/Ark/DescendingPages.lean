import Mathlib.Algebra.Order.Ring.Nat
import Mathlib.Data.List.Nodup

/-!
# Pages of a list that changes between requests

A reader asks for the entries of a keyed list in descending order of their keys, a page at a time, each
time below the key of the last entry it has got. Between two requests entries come and go, and keys
change: a new key is the one the entry had or a larger one, or it is larger than all keys there were.
Then no entry is read twice, and the keys that are read descend. An entry that is there at the first
request and at the last is read exactly when its key never climbs over the reader's cursor.
-/

namespace DescendingPages

variable {ι : Type*}

/-- Entries with distinct names, by descending keys. -/
structure Keyed (entries : List (ι × ℕ)) : Prop where
  descending : entries.Pairwise fun x y => y.2 < x.2
  nodup : (entries.map Prod.fst).Nodup

/-- How entries may look at a later request. -/
def Ages (entries later : List (ι × ℕ)) : Prop :=
  ∀ i k', (i, k') ∈ later → (∀ x ∈ entries, x.2 < k') ∨ ∃ k ≤ k', (i, k) ∈ entries

variable (limit : ℕ)

/-- The entries below the cursor. -/
def below (cursor : Option ℕ) (entries : List (ι × ℕ)) : List (ι × ℕ) :=
  match cursor with
  | none => entries
  | some c => entries.filter fun x => x.2 < c

def page (cursor : Option ℕ) (entries : List (ι × ℕ)) : List (ι × ℕ) :=
  (below cursor entries).take limit

def hasMore (cursor : Option ℕ) (entries : List (ι × ℕ)) : Prop :=
  limit < (below cursor entries).length

/-- The key of the last entry of the page. -/
def next (cursor : Option ℕ) (entries : List (ι × ℕ)) : Option ℕ :=
  (page limit cursor entries).getLast?.map Prod.snd

/-- The pages read from the lists `entries`, `later`, … -/
def pages : Option ℕ → List (ι × ℕ) → List (List (ι × ℕ)) → List (List (ι × ℕ))
  | cursor, entries, [] => [page limit cursor entries]
  | cursor, entries, entries' :: later =>
    page limit cursor entries :: pages (next limit cursor entries) entries' later

/-- Every page but the last says that there is more. -/
def Complete : Option ℕ → List (ι × ℕ) → List (List (ι × ℕ)) → Prop
  | cursor, entries, [] => ¬ hasMore limit cursor entries
  | cursor, entries, entries' :: later =>
    hasMore limit cursor entries ∧ Complete (next limit cursor entries) entries' later

/-- `i` is the name of an entry. -/
def Has (entries : List (ι × ℕ)) (i : ι) : Prop := ∃ k, (i, k) ∈ entries

/-- Between two requests, what is below the next cursor stays below it, unless it is gone at the last
request. -/
def Stays (last : List (ι × ℕ)) : Option ℕ → List (ι × ℕ) → List (List (ι × ℕ)) → Prop
  | _, _, [] => True
  | cursor, entries, entries' :: later =>
    (∀ c ∈ next limit cursor entries, ∀ i k, (i, k) ∈ entries → k < c → Has last i →
      ∃ k' < c, (i, k') ∈ entries') ∧
    Stays last (next limit cursor entries) entries' later

variable {limit} {cursor : Option ℕ} {entries : List (ι × ℕ)} {later : List (List (ι × ℕ))}

theorem Keyed.key_eq (h : Keyed entries) {i : ι} {k k' : ℕ} (hk : (i, k) ∈ entries)
    (hk' : (i, k') ∈ entries) : k = k' :=
  congrArg Prod.snd (List.inj_on_of_nodup_map h.nodup hk hk' rfl)

theorem mem_below {x : ι × ℕ} : x ∈ below cursor entries ↔ x ∈ entries ∧ ∀ c ∈ cursor, x.2 < c := by
  cases cursor with
  | none => simp [below]
  | some c => simp [below]

theorem Keyed.below_descending (h : Keyed entries) :
    (below cursor entries).Pairwise fun x y => y.2 < x.2 := by
  cases cursor with
  | none => exact h.descending
  | some c => exact h.descending.filter _

theorem mem_of_mem_page {x : ι × ℕ} (h : x ∈ page limit cursor entries) :
    x ∈ entries ∧ ∀ c ∈ cursor, x.2 < c := mem_below.mp (List.mem_of_mem_take h)

/-- The next cursor is the key of an entry, and no key of the page is below it. -/
theorem Keyed.next_spec (h : Keyed entries) {c : ℕ} (hc : c ∈ next limit cursor entries) :
    (∃ x ∈ page limit cursor entries, x.2 = c) ∧ ∀ x ∈ page limit cursor entries, c ≤ x.2 := by
  obtain ⟨last, hlast, rfl⟩ := Option.map_eq_some_iff.mp hc
  refine ⟨⟨last, List.mem_of_getLast? hlast, rfl⟩, fun x hx => ?_⟩
  have hpairs : (page limit cursor entries).Pairwise fun x y => y.2 < x.2 :=
    h.below_descending.sublist (List.take_sublist _ _)
  obtain ⟨init, hinit⟩ := List.getLast?_eq_some_iff.mp hlast
  rw [hinit] at hx hpairs
  rcases List.mem_append.mp hx with hx | hx
  · exact ((List.pairwise_append.mp hpairs).2.2 x hx last (List.mem_singleton_self last)).le
  · rw [List.mem_singleton.mp hx]

/-- When there is more, the next cursor is there, and what is below it is not on the page. -/
theorem exists_next (hlimit : 0 < limit) (hmore : hasMore limit cursor entries) :
    ∃ c, next limit cursor entries = some c := by
  have hne : page limit cursor entries ≠ [] := by
    intro hnil
    have hlen := congrArg List.length hnil
    rw [page, List.length_take, List.length_nil] at hlen
    unfold hasMore at hmore
    omega
  obtain ⟨last, hlast⟩ := Option.isSome_iff_exists.mp (List.getLast?_isSome.mpr hne)
  exact ⟨last.2, by rw [next, hlast, Option.map_some]⟩

/-- What is not on the page and not above the cursor is below the next one. -/
theorem Keyed.lt_next (h : Keyed entries) {x : ι × ℕ} (hx : x ∈ below cursor entries)
    (hpage : x ∉ page limit cursor entries) {c : ℕ} (hc : c ∈ next limit cursor entries) :
    x.2 < c := by
  obtain ⟨⟨y, hy, rfl⟩, _⟩ := h.next_spec hc
  have hsplit : page limit cursor entries ++ (below cursor entries).drop limit =
      below cursor entries := List.take_append_drop limit _
  have hpairs := @Keyed.below_descending ι cursor entries h
  rw [← hsplit] at hpairs hx
  have hdrop := (List.mem_append.mp hx).resolve_left hpage
  exact (List.pairwise_append.mp hpairs).2.2 y hy x hdrop

theorem Keyed.nodup_page (h : Keyed entries) : ((page limit cursor entries).map Prod.fst).Nodup := by
  have hsub : (page limit cursor entries).Sublist entries := by
    refine (List.take_sublist _ _).trans ?_
    cases cursor with
    | none => exact List.Sublist.refl _
    | some c => exact List.filter_sublist
  exact h.nodup.sublist (hsub.map Prod.fst)

/-! ### What is read -/

theorem exists_of_mem_pages {x : ι × ℕ} (h : x ∈ (pages limit cursor entries later).flatten) :
    ∃ e ∈ entries :: later, x ∈ e := by
  induction later generalizing cursor entries with
  | nil =>
    rw [pages, List.flatten_singleton] at h
    exact ⟨entries, List.mem_cons_self, (mem_of_mem_page h).1⟩
  | cons entries' later ih =>
    rw [pages, List.flatten_cons] at h
    rcases List.mem_append.mp h with h | h
    · exact ⟨entries, List.mem_cons_self, (mem_of_mem_page h).1⟩
    · obtain ⟨e, he, hx⟩ := ih h
      exact ⟨e, List.mem_cons_of_mem entries he, hx⟩

/-- The lists that a reader meets. -/
structure Readable (entries : List (ι × ℕ)) (later : List (List (ι × ℕ))) : Prop where
  keyed : ∀ e ∈ entries :: later, Keyed e
  ages : (entries :: later).Pairwise Ages

theorem Readable.head (h : Readable entries later) : Keyed entries :=
  h.keyed entries List.mem_cons_self

theorem Readable.tail {entries' : List (ι × ℕ)} (h : Readable entries (entries' :: later)) :
    Readable entries' later :=
  ⟨(List.forall_mem_cons.mp h.keyed).2, (List.pairwise_cons.mp h.ages).2⟩

theorem Readable.ages_of_mem (h : Readable entries later) {e : List (ι × ℕ)} (he : e ∈ later) :
    Ages entries e := (List.pairwise_cons.mp h.ages).1 e he

section Reading

variable (hlimit : 0 < limit)

include hlimit

/-- Everything that is read is below the cursor. -/
theorem key_lt_of_mem_pages (hread : Readable entries later)
    (hcomplete : Complete limit cursor entries later) {c : ℕ} (hc : c ∈ cursor) {x : ι × ℕ}
    (hx : x ∈ (pages limit cursor entries later).flatten) : x.2 < c := by
  induction later generalizing cursor entries c with
  | nil =>
    rw [pages, List.flatten_singleton] at hx
    exact (mem_of_mem_page hx).2 c hc
  | cons entries' later ih =>
    rw [pages, List.flatten_cons] at hx
    rcases List.mem_append.mp hx with hx | hx
    · exact (mem_of_mem_page hx).2 c hc
    · obtain ⟨c', hc'⟩ := exists_next hlimit hcomplete.1
      obtain ⟨y, hy, rfl⟩ := (hread.head.next_spec hc').1
      exact (ih hread.tail hcomplete.2 hc' hx).trans ((mem_of_mem_page hy).2 c hc)

/-- The keys that are read descend, across the pages too. -/
theorem pages_descending (hread : Readable entries later)
    (hcomplete : Complete limit cursor entries later) :
    (pages limit cursor entries later).flatten.Pairwise fun x y => y.2 < x.2 := by
  induction later generalizing cursor entries with
  | nil =>
    rw [pages, List.flatten_singleton]
    exact hread.head.below_descending.sublist (List.take_sublist _ _)
  | cons entries' later ih =>
    rw [pages, List.flatten_cons, List.pairwise_append]
    refine ⟨hread.head.below_descending.sublist (List.take_sublist _ _),
      ih hread.tail hcomplete.2, fun x hx y hy => ?_⟩
    obtain ⟨c, hc⟩ := exists_next hlimit hcomplete.1
    have hlt := key_lt_of_mem_pages hlimit hread.tail hcomplete.2 hc hy
    exact hlt.trans_le ((hread.head.next_spec hc).2 x hx)

/-- What is read later was there before, at no larger key. -/
theorem exists_le_of_mem_pages (hread : Readable entries later)
    (hcomplete : Complete limit cursor entries later) {i : ι} {k : ℕ}
    (hx : (i, k) ∈ (pages limit cursor entries later).flatten) : ∃ k' ≤ k, (i, k') ∈ entries := by
  cases later with
  | nil =>
    rw [pages, List.flatten_singleton] at hx
    exact ⟨k, le_rfl, (mem_of_mem_page hx).1⟩
  | cons entries' later =>
    rw [pages, List.flatten_cons] at hx
    rcases List.mem_append.mp hx with hx | hx
    · exact ⟨k, le_rfl, (mem_of_mem_page hx).1⟩
    · obtain ⟨c, hc⟩ := exists_next hlimit hcomplete.1
      obtain ⟨y, hy, hyc⟩ := (hread.head.next_spec hc).1
      have hlt : k < c := key_lt_of_mem_pages hlimit hread.tail hcomplete.2 hc hx
      obtain ⟨e, he, hmem⟩ := exists_of_mem_pages hx
      rcases hread.ages_of_mem he i k hmem with hall | hold
      · have hover := hall y (mem_of_mem_page hy).1
        omega
      · exact hold

/-- What is on a page is not read again. -/
theorem not_read_again {entries' : List (ι × ℕ)} (hread : Readable entries (entries' :: later))
    (hcomplete : Complete limit cursor entries (entries' :: later)) {x y : ι × ℕ}
    (hx : x ∈ page limit cursor entries)
    (hy : y ∈ (pages limit (next limit cursor entries) entries' later).flatten) : x.1 ≠ y.1 := by
  intro hname
  obtain ⟨c, hc⟩ := exists_next hlimit hcomplete.1
  have hlt : y.2 < c := key_lt_of_mem_pages hlimit hread.tail hcomplete.2 hc hy
  have hle : c ≤ x.2 := (hread.head.next_spec hc).2 x hx
  have hxmem := (mem_of_mem_page hx).1
  obtain ⟨e, he, hmem⟩ := exists_of_mem_pages hy
  rcases hread.ages_of_mem he y.1 y.2 hmem with hall | ⟨k, hk, hold⟩
  · have hover := hall x hxmem
    omega
  · rw [← hname] at hold
    have hkey : x.2 = k := hread.head.key_eq hxmem hold
    omega

/-- No name is read twice. -/
theorem pages_nodup (hread : Readable entries later)
    (hcomplete : Complete limit cursor entries later) :
    ((pages limit cursor entries later).flatten.map Prod.fst).Nodup := by
  induction later generalizing cursor entries with
  | nil =>
    rw [pages, List.flatten_singleton]
    exact hread.head.nodup_page
  | cons entries' later ih =>
    rw [pages, List.flatten_cons, List.map_append, List.nodup_append]
    refine ⟨hread.head.nodup_page, ih hread.tail hcomplete.2, ?_⟩
    intro i hi j hj
    obtain ⟨x, hx, rfl⟩ := List.mem_map.mp hi
    obtain ⟨y, hy, rfl⟩ := List.mem_map.mp hj
    exact not_read_again hlimit hread hcomplete hx hy

/-- Below the cursor, what is there at the last request is read. -/
def ReadsAll (limit : ℕ) (cursor : Option ℕ) (entries : List (ι × ℕ))
    (later : List (List (ι × ℕ))) (last : List (ι × ℕ)) : Prop :=
  ∀ i, Has (below cursor entries) i → Has last i →
    i ∈ (pages limit cursor entries later).flatten.map Prod.fst

/-- Everything is read exactly when everything stays below the cursor. -/
theorem readsAll_iff_stays (hread : Readable entries later)
    (hcomplete : Complete limit cursor entries later) (last : List (ι × ℕ)) :
    ReadsAll limit cursor entries later last ↔ Stays limit last cursor entries later := by
  induction later generalizing cursor entries with
  | nil =>
    refine iff_of_true ?_ trivial
    rintro i ⟨k, hk⟩ _
    have hall : page limit cursor entries = below cursor entries :=
      List.take_of_length_le (Nat.not_lt.mp hcomplete)
    rw [pages, List.flatten_singleton, hall]
    exact List.mem_map_of_mem hk
  | cons entries' later ih =>
    obtain ⟨c, hc⟩ := exists_next hlimit hcomplete.1
    have hnext := hread.head.next_spec hc
    obtain ⟨⟨y, hy, rfl⟩, hpage⟩ := hnext
    have hentry := (mem_of_mem_page hy).1
    rw [Stays, ← ih hread.tail hcomplete.2]
    constructor
    · intro hall
      constructor
      · -- what is below the next cursor is read later, so it is still there
        rintro c hc' i k hk hkc hlast
        obtain rfl : y.2 = c := Option.some.inj (hc.symm.trans hc')
        have hbelow : (i, k) ∈ below cursor entries :=
          mem_below.mpr ⟨hk, fun c' hcursor => hkc.trans ((mem_of_mem_page hy).2 c' hcursor)⟩
        obtain ⟨x, hx, rfl⟩ := List.mem_map.mp (hall i ⟨k, hbelow⟩ hlast)
        rw [pages, List.flatten_cons] at hx
        rcases List.mem_append.mp hx with hx | hx
        · have hle := hpage x hx
          have hkey : x.2 = k := hread.head.key_eq (mem_of_mem_page hx).1 hk
          omega
        · have hlt : x.2 < y.2 := key_lt_of_mem_pages hlimit hread.tail hcomplete.2 hc hx
          obtain ⟨k', hk', hmem⟩ := exists_le_of_mem_pages hlimit hread.tail hcomplete.2 hx
          exact ⟨k', by omega, hmem⟩
      · rintro i ⟨k, hk⟩ hlast
        obtain ⟨hk, hkc⟩ := mem_below.mp hk
        have hlt : k < y.2 := hkc y.2 hc
        rcases hread.ages_of_mem List.mem_cons_self i k hk with hover | ⟨k₀, hk₀, hold⟩
        · have := hover y hentry
          omega
        have hbelow : (i, k₀) ∈ below cursor entries :=
          mem_below.mpr ⟨hold, fun c' hcursor =>
            (hk₀.trans_lt hlt).trans ((mem_of_mem_page hy).2 c' hcursor)⟩
        obtain ⟨x, hx, rfl⟩ := List.mem_map.mp (hall i ⟨k₀, hbelow⟩ hlast)
        rw [pages, List.flatten_cons] at hx
        rcases List.mem_append.mp hx with hx | hx
        · have hle := hpage x hx
          have hkey : x.2 = k₀ := hread.head.key_eq (mem_of_mem_page hx).1 hold
          omega
        · exact List.mem_map_of_mem hx
    · rintro ⟨hstays, hrest⟩ i ⟨k, hk⟩ hlast
      rw [pages, List.flatten_cons, List.map_append, List.mem_append]
      by_cases hx : (i, k) ∈ page limit cursor entries
      · exact .inl (List.mem_map_of_mem hx)
      · have hlt : k < y.2 := hread.head.lt_next hk hx hc
        obtain ⟨k', hk', hmem⟩ := hstays y.2 hc i k (mem_below.mp hk).1 hlt hlast
        refine .inr (hrest i ⟨k', mem_below.mpr ⟨hmem, ?_⟩⟩ hlast)
        rintro c' hc'
        obtain rfl : y.2 = c' := Option.some.inj (hc.symm.trans hc')
        exact hk'

end Reading

end DescendingPages
