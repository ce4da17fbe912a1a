-- SUMMARY: Reading a sorted list backwards in pages with a strict key cursor: what the pages hold, and when nothing is lost.
import Mathlib.Data.List.DropRight
import Mathlib.Order.Defs.LinearOrder
import Mathlib.Tactic.Ring.RingNF

/-!
# Paging by key

A list sorted by a key is read newest first: each page is the last `n` elements
strictly below the key at which the previous page begins. The cursor is a key
and not a position, so elements that share a key across a page's edge are
skipped; otherwise the pages make up the list.
-/

namespace Paging

variable {α β : Type} [LinearOrder β] (key : α → β) (n : Nat)

/-- The pages read from `xs`, newest first, up to the empty one. `none` when
the fuel runs out first. -/
def pages : Nat → List α → Option (List (List α))
  | 0, _ => none
  | fuel + 1, xs =>
    match xs.rtake n with
    | [] => some []
    | a :: page => (pages fuel (xs.filter fun x => key x < key a)).map ((a :: page) :: ·)

/-- No two neighbours with one key are in different pages of full length. -/
def Unsplit (xs : List α) : Prop :=
  ∀ k, 0 < k → ∀ older newer, xs.reverse[k * n]? = some older →
    xs.reverse[k * n - 1]? = some newer → key older < key newer

variable {key n}

theorem rdrop_append_rtake (xs : List α) : xs.rdrop n ++ xs.rtake n = xs :=
  List.take_append_drop _ xs

/-- The elements below a page's first key all come before the page. -/
theorem filter_below_page {xs page : List α} {a : α} (hsorted : xs.Pairwise fun x y => key x ≤ key y)
    (hpage : xs.rtake n = a :: page) :
    (xs.filter fun x => key x < key a) = (xs.rdrop n).filter fun x => key x < key a := by
  have hnone : ((a :: page).filter fun x => key x < key a) = [] := by
    rw [List.filter_eq_nil_iff]
    have hsuffix : (a :: page).Pairwise fun x y => key x ≤ key y := by
      rw [← hpage]
      exact hsorted.sublist (List.drop_sublist _ xs)
    intro x hx
    rcases List.mem_cons.mp hx with rfl | hx
    · simp
    · simpa using List.rel_of_pairwise_cons hsuffix hx
  conv_lhs => rw [← rdrop_append_rtake (n := n) xs, List.filter_append, hpage, hnone, List.append_nil]

/-- Reading ends: every page takes at least its first element out. -/
theorem pages_terminates {fuel : Nat} {xs : List α} (h : xs.length < fuel) :
    ∃ ps, pages key n fuel xs = some ps := by
  induction fuel generalizing xs with
  | zero => omega
  | succ fuel ih =>
    rw [pages]
    split
    · exact ⟨[], rfl⟩
    · next a page hpage =>
      have ha : a ∈ xs := by
        have : a ∈ xs.rtake n := hpage ▸ List.mem_cons_self
        exact List.mem_of_mem_drop this
      have hlt : (xs.filter fun x => key x < key a).length < xs.length :=
        List.length_filter_lt_length_iff_exists.mpr ⟨a, ha, by simp⟩
      obtain ⟨ps, hps⟩ := @ih (xs.filter fun x => key x < key a) (by omega)
      exact ⟨_, by rw [hps]; rfl⟩

/-- The pages, oldest first, are part of the list in its order. -/
theorem pages_sublist {fuel : Nat} {xs : List α} {ps : List (List α)}
    (hsorted : xs.Pairwise fun x y => key x ≤ key y) (h : pages key n fuel xs = some ps) :
    ps.reverse.flatten.Sublist xs := by
  induction fuel generalizing xs ps with
  | zero => cases h
  | succ fuel ih =>
    rw [pages] at h
    split at h
    · cases h
      exact List.nil_sublist xs
    · next a page hpage =>
      obtain ⟨ps', hps', rfl⟩ := Option.map_eq_some_iff.mp h
      have hrest := ih (hsorted.sublist List.filter_sublist) hps'
      rw [filter_below_page hsorted hpage] at hrest
      rw [List.reverse_cons, List.flatten_append, List.flatten_singleton, ← hpage]
      conv_rhs => rw [← rdrop_append_rtake (n := n) xs]
      exact (hrest.trans List.filter_sublist).append (.refl _)

theorem length_page {xs : List α} (h : n ≤ xs.length) : (xs.rtake n).length = n := by
  rw [List.rtake, List.length_drop]
  omega

theorem reverse_eq_page_append (xs : List α) : xs.reverse = (xs.rtake n).reverse ++ (xs.rdrop n).reverse := by
  rw [← List.reverse_append, rdrop_append_rtake]

/-- Read from its end, the list goes on past a full page with what comes before it. -/
theorem reverse_past_page {xs : List α} (h : n ≤ xs.length) (j : Nat) :
    xs.reverse[n + j]? = (xs.rdrop n).reverse[j]? := by
  have hlength : (xs.rtake n).reverse.length = n := by rw [List.length_reverse, length_page h]
  rw [reverse_eq_page_append (n := n), List.getElem?_append_right (by omega), hlength,
    Nat.add_sub_cancel_left]

/-- A full page ends with its first element. -/
theorem reverse_page_edge {xs page : List α} {a : α} (h : n ≤ xs.length) (hpage : xs.rtake n = a :: page) :
    xs.reverse[n - 1]? = some a := by
  have hlength := length_page h
  rw [hpage, List.length_cons] at hlength
  have hlast : n - 1 = page.reverse.length := by
    rw [List.length_reverse]
    omega
  rw [reverse_eq_page_append (n := n), hpage, List.getElem?_append_left (by simp; omega),
    List.reverse_cons, hlast, List.getElem?_concat_length]

/-- One page has no edge to another. -/
theorem unsplit_of_length_le {xs : List α} (h : xs.length ≤ n) : Unsplit key n xs := by
  intro k hk older newer hold
  have hle : n ≤ k * n := Nat.le_mul_of_pos_left n hk
  rw [List.getElem?_eq_none (by rw [List.length_reverse]; omega)] at hold
  cases hold

/-- Past the first page, the edges are those of the rest of the list. -/
theorem unsplit_iff (hn : 0 < n) {xs page : List α} {a : α}
    (hsorted : xs.Pairwise fun x y => key x ≤ key y) (hpage : xs.rtake n = a :: page) :
    Unsplit key n xs ↔ (∀ x ∈ xs.rdrop n, key x < key a) ∧ Unsplit key n (xs.rdrop n) := by
  rcases List.eq_nil_or_concat (xs.rdrop n) with hnil | ⟨init, z, hfront⟩
  · have hshort : xs.length ≤ n := by
      have hlength := congrArg List.length hnil
      rw [List.rdrop, List.length_take, List.length_nil] at hlength
      have hxs := congrArg List.length hpage
      rw [List.rtake, List.length_drop, List.length_cons] at hxs
      omega
    rw [hnil]
    exact ⟨fun _ => ⟨by simp, unsplit_of_length_le (Nat.zero_le n)⟩, fun _ => unsplit_of_length_le hshort⟩
  · have hlength : n ≤ xs.length := by
      have hlength := congrArg List.length hfront
      rw [List.rdrop, List.length_take, List.length_concat] at hlength
      omega
    have hedge := reverse_page_edge hlength hpage
    have hrest := reverse_past_page hlength
    have hfirst : (xs.rdrop n).reverse[0]? = some z := by simp [hfront]
    have hle : ∀ x ∈ xs.rdrop n, key x ≤ key z := by
      have hsorted' : (init ++ [z]).Pairwise fun x y => key x ≤ key y := by
        rw [← List.concat_eq_append, ← hfront]
        exact hsorted.sublist (List.take_sublist _ xs)
      intro x hx
      rw [hfront, List.concat_eq_append] at hx
      rcases List.mem_append.mp hx with hx | hx
      · exact (List.pairwise_append.mp hsorted').2.2 x hx z List.mem_cons_self
      · rw [List.mem_singleton.mp hx]
    constructor
    · intro h
      refine ⟨fun x hx => (hle x hx).trans_lt ?_, fun k hk older newer hold hnew => ?_⟩
      · refine h 1 Nat.one_pos z a ?_ ?_
        · rw [Nat.one_mul, ← Nat.add_zero n, hrest, hfirst]
        · rw [Nat.one_mul, hedge]
      · have hpos : 0 < k * n := Nat.mul_pos hk hn
        refine h (k + 1) k.succ_pos older newer ?_ ?_
        · rw [Nat.succ_mul, Nat.add_comm, hrest, hold]
        · rw [Nat.succ_mul, Nat.add_comm, Nat.add_sub_assoc hpos, hrest, hnew]
    · rintro ⟨hbelow, h⟩ k hk older newer hold hnew
      obtain ⟨k, rfl⟩ := Nat.exists_eq_add_of_lt hk
      rw [Nat.zero_add, Nat.succ_mul, Nat.add_comm, hrest] at hold
      rw [Nat.zero_add, Nat.succ_mul, Nat.add_comm] at hnew
      rcases Nat.eq_zero_or_pos k with rfl | hk
      · rw [Nat.zero_mul, hfirst] at hold
        rw [Nat.zero_mul, Nat.add_zero, hedge] at hnew
        cases hold
        cases hnew
        exact hbelow z (by simp [hfront])
      · have hpos : 0 < k * n := Nat.mul_pos hk hn
        rw [Nat.add_sub_assoc hpos, hrest] at hnew
        exact h k hk older newer hold hnew

/-- Nothing is lost exactly when no page's edge splits a key. -/
theorem pages_complete_iff (hn : 0 < n) {fuel : Nat} {xs : List α} {ps : List (List α)}
    (hsorted : xs.Pairwise fun x y => key x ≤ key y) (h : pages key n fuel xs = some ps) :
    ps.reverse.flatten = xs ↔ Unsplit key n xs := by
  induction fuel generalizing xs ps with
  | zero => cases h
  | succ fuel ih =>
    rw [pages] at h
    split at h
    · next hpage =>
      cases h
      have hnil : xs = [] := by
        rw [List.rtake, List.drop_eq_nil_iff] at hpage
        exact List.length_eq_zero_iff.mp (by omega)
      subst hnil
      exact ⟨fun _ k _ older newer h => by simp at h, fun _ => rfl⟩
    · next a page hpage =>
      obtain ⟨ps', hps', rfl⟩ := Option.map_eq_some_iff.mp h
      have hsorted' : (xs.filter fun x => key x < key a).Pairwise fun x y => key x ≤ key y :=
        hsorted.sublist List.filter_sublist
      have hrest := ih hsorted' hps'
      have hsub := pages_sublist hsorted' hps'
      rw [filter_below_page hsorted hpage] at hrest hsub
      have hflatten : ((a :: page) :: ps').reverse.flatten = xs ↔ ps'.reverse.flatten = xs.rdrop n := by
        rw [List.reverse_cons, List.flatten_append, List.flatten_singleton, ← hpage]
        constructor
        · intro heq
          exact List.append_cancel_right (heq.trans (rdrop_append_rtake xs).symm)
        · intro heq
          rw [heq, rdrop_append_rtake]
      rw [hflatten, unsplit_iff hn hsorted hpage]
      constructor
      · intro heq
        have hall := List.filter_sublist.antisymm (heq ▸ hsub)
        rw [hall] at hrest
        exact ⟨by simpa using List.filter_eq_self.mp hall, hrest.mp heq⟩
      · rintro ⟨hbelow, hunsplit⟩
        have hall : ((xs.rdrop n).filter fun x => key x < key a) = xs.rdrop n :=
          List.filter_eq_self.mpr (by simpa using hbelow)
        rw [hall] at hrest
        exact hrest.mpr hunsplit

end Paging
