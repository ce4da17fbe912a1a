-- SUMMARY: The JavaScript built-ins the service rests on: dates, numbers, string trimming, slicing, stable sorting, insertion-ordered maps.
import Mathlib.Data.List.Sort
import Mathlib.Data.List.DropRight
import Mathlib.Data.Rat.Defs
import Mathlib.Data.Rat.Cast.Order

/-!
# JavaScript built-ins

Values and collections of the language itself, with the behaviour its
specification gives them. Nothing here knows about messaging.
-/

namespace Js

-- ---------------------------------------------------------------------------
-- Dates
-- ---------------------------------------------------------------------------

/-- A `Date` object: whole milliseconds since the epoch, or `none` for the
Invalid Date, whose `getTime()` is `NaN`. -/
structure Date where
  time : Option Int
deriving DecidableEq, Repr

/-- The valid `Date` of an instant. -/
def Date.of (t : Int) : Date := ⟨some t⟩

/-- `a.getTime() < b.getTime()`. A comparison with `NaN` is false. -/
def Date.before (a b : Date) : Bool :=
  match a.time, b.time with
  | some x, some y => decide (x < y)
  | _, _ => false

@[simp] theorem Date.before_of (x y : Int) : (Date.of x).before (Date.of y) = decide (x < y) := rfl

-- ---------------------------------------------------------------------------
-- Numbers and slices
-- ---------------------------------------------------------------------------

/-- A `number`. The two zeros are identified: nothing here tells them apart. -/
inductive Number where
  | nan
  | infinity (negative : Bool)
  | finite (q : ℚ)
deriving DecidableEq

/-- Unary minus. -/
def Number.neg : Number → Number
  | .nan => .nan
  | .infinity negative => .infinity (!negative)
  | .finite q => .finite (-q)

/-- `a <= b`, which is false as soon as one of them is `NaN`. -/
def Number.le : Number → Number → Bool
  | .nan, _ | _, .nan => false
  | .infinity true, _ | _, .infinity false => true
  | .infinity false, _ | _, .infinity true => false
  | .finite p, .finite q => decide (p ≤ q)

/-- `Math.max(a, b)`. -/
def Number.max (a b : Number) : Number :=
  if a = .nan ∨ b = .nan then .nan else if a.le b then b else a

/-- `Math.min(a, b)`. -/
def Number.min (a b : Number) : Number :=
  if a = .nan ∨ b = .nan then .nan else if a.le b then a else b

/-- The index at which `slice(start)` begins in an array of length `len`:
`start` truncated towards zero, counted from the end when negative, clamped to
the array. -/
def sliceStart (start : Number) (len : Nat) : Nat :=
  match start with
  | .nan => 0
  | .infinity true => 0
  | .infinity false => len
  | .finite q =>
    let relative := q.num.tdiv q.den
    if relative < 0 then (len + relative).toNat else min relative.toNat len

/-- `xs.slice(start)`. -/
def slice (xs : List α) (start : Number) : List α :=
  xs.drop (sliceStart start xs.length)

theorem slice_sublist (xs : List α) (start : Number) : (slice xs start).Sublist xs :=
  List.drop_sublist _ xs

/-- `xs.slice(-n)` for a positive count is the last `n` elements. -/
theorem slice_neg_count (xs : List α) {n : Nat} (hn : 0 < n) :
    slice xs (Number.neg (.finite n)) = xs.rtake n := by
  have hneg : -(n : Int) < 0 := by omega
  simp only [slice, sliceStart, Number.neg, Rat.num_neg_eq_neg_num, Rat.num_natCast,
    Rat.den_neg_eq_den, Rat.den_natCast, Nat.cast_one, Int.tdiv_one, hneg, if_true,
    List.rtake_eq_reverse_take_reverse]
  rw [List.take_reverse, List.reverse_reverse]
  congr 1
  omega

/-- The last of the last. -/
theorem rtake_rtake (xs : List α) (m n : Nat) : (xs.rtake m).rtake n = xs.rtake (min n m) := by
  simp only [List.rtake, List.drop_drop, List.length_drop]
  congr 1
  omega

-- ---------------------------------------------------------------------------
-- Strings
-- ---------------------------------------------------------------------------

/-- WhiteSpace and LineTerminator code points, as `trim` strips them. -/
def isWhiteSpace (c : Char) : Bool :=
  [0x9, 0xA, 0xB, 0xC, 0xD, 0x20, 0xA0, 0x1680, 0x2000, 0x2001, 0x2002, 0x2003, 0x2004, 0x2005,
    0x2006, 0x2007, 0x2008, 0x2009, 0x200A, 0x2028, 0x2029, 0x202F, 0x205F, 0x3000, 0xFEFF].contains
    c.toNat

/-- `s.trim()`. -/
def trim (s : String) : String :=
  String.ofList ((s.toList.dropWhile isWhiteSpace).rdropWhile isWhiteSpace)

@[simp] theorem trim_empty : trim "" = "" := by decide

-- ---------------------------------------------------------------------------
-- Arrays
-- ---------------------------------------------------------------------------

/-- `xs.sort((a, b) => key(a) - key(b))`, which is stable. -/
def sortBy (key : α → Int) (xs : List α) : List α :=
  xs.insertionSort fun a b => key a ≤ key b

theorem sortBy_perm (key : α → Int) (xs : List α) : (sortBy key xs).Perm xs :=
  List.perm_insertionSort _ xs

@[simp] theorem mem_sortBy {key : α → Int} {xs : List α} {a : α} : a ∈ sortBy key xs ↔ a ∈ xs :=
  (sortBy_perm key xs).mem_iff

theorem sortBy_pairwise (key : α → Int) (xs : List α) :
    (sortBy key xs).Pairwise fun a b => key a ≤ key b := by
  have : Std.Total (fun a b : α => key a ≤ key b) := ⟨fun a b => Int.le_total (key a) (key b)⟩
  have : IsTrans α (fun a b : α => key a ≤ key b) := ⟨fun _ _ _ hab hbc => hab.trans hbc⟩
  exact List.pairwise_insertionSort _ xs

/-- Without ties there is only one sorted order. -/
theorem eq_sortBy {key : α → Int} {xs ys : List α} (hperm : ys.Perm xs) (hkeys : (xs.map key).Nodup)
    (hsorted : ys.Pairwise fun a b => key a ≤ key b) : ys = sortBy key xs := by
  refine @List.Perm.eq_of_pairwise _ (fun a b => key a ≤ key b) _ _ ?_ hsorted (sortBy_pairwise key xs)
    (hperm.trans (sortBy_perm key xs).symm)
  intro a b ha hb hab hba
  exact List.inj_on_of_nodup_map hkeys (hperm.subset ha) (mem_sortBy.mp hb) (le_antisymm hab hba)

/-- A sorted array begins with the elements of a least key. -/
theorem sorted_split {key : α → Int} {xs : List α} (h : xs.Pairwise fun a b => key a ≤ key b) {k : Int}
    (hk : ∀ a ∈ xs, k ≤ key a) :
    xs = (xs.filter fun a => key a = k) ++ xs.filter fun a => key a ≠ k := by
  induction xs with
  | nil => rfl
  | cons a xs ih =>
    obtain ⟨ha, htail⟩ := List.pairwise_cons.mp h
    by_cases hak : key a = k
    · rw [List.filter_cons_of_pos (by simp [hak]), List.filter_cons_of_neg (by simp [hak]),
        List.cons_append]
      exact congrArg (List.cons a) (ih htail fun b hb => hk b (List.mem_cons_of_mem _ hb))
    · have hlt : k < key a := lt_of_le_of_ne (hk a List.mem_cons_self) (Ne.symm hak)
      have hne : ∀ b ∈ a :: xs, key b ≠ k := by
        intro b hb
        rcases List.mem_cons.mp hb with rfl | hb
        · exact hak
        · exact (lt_of_lt_of_le hlt (ha b hb)).ne'
      rw [List.filter_eq_nil_iff.mpr (by simpa using hne), List.nil_append,
        List.filter_eq_self.mpr (by simpa using hne)]

/-- A sorted array is made of the blocks of its keys, in order. -/
theorem sorted_blocks {key : α → Int} {ks : List Int} (hks : ks.Pairwise (· < ·)) {xs : List α}
    (h : xs.Pairwise fun a b => key a ≤ key b) (hcover : ∀ a ∈ xs, key a ∈ ks) :
    xs = ks.flatMap fun k => xs.filter fun a => key a = k := by
  induction ks generalizing xs with
  | nil => exact List.eq_nil_iff_forall_not_mem.mpr fun a ha => by cases hcover a ha
  | cons k ks ih =>
    obtain ⟨hk, hrest⟩ := List.pairwise_cons.mp hks
    have hleast : ∀ a ∈ xs, k ≤ key a := by
      intro a ha
      rcases List.mem_cons.mp (hcover a ha) with hak | hak
      · exact hak.ge
      · exact (hk _ hak).le
    have htail := @ih hrest (xs.filter fun a => key a ≠ k) (h.sublist List.filter_sublist) ?_
    · refine (sorted_split h hleast).trans ?_
      rw [List.flatMap_cons, htail]
      congr 1
      refine List.flatMap_congr fun k' hk' => ?_
      rw [List.filter_filter]
      refine List.filter_congr fun a _ => ?_
      by_cases hak : key a = k'
      · simp [hak, (hk k' hk').ne']
      · simp [hak]
    · intro a ha
      obtain ⟨hmem, hne⟩ := List.mem_filter.mp ha
      exact (List.mem_cons.mp (hcover a hmem)).resolve_left (by simpa using hne)

/-- Only one element has its key. -/
theorem filter_key [DecidableEq κ] {key : α → κ} {xs : List α} (h : (xs.map key).Nodup) {a : α}
    (ha : a ∈ xs) : xs.filter (fun b => key b = key a) = [a] := by
  induction xs with
  | nil => cases ha
  | cons b xs ih =>
    obtain ⟨hb, hxs⟩ := List.nodup_cons.mp h
    rcases List.mem_cons.mp ha with rfl | ha
    · rw [List.filter_cons_of_pos (by simp), List.filter_eq_nil_iff.mpr]
      intro c hc
      simpa using fun hkey : key c = key a => hb (List.mem_map.mpr ⟨c, hc, hkey⟩)
    · rw [List.filter_cons_of_neg, ih hxs ha]
      simpa using fun hkey : key b = key a => hb (List.mem_map.mpr ⟨a, ha, hkey.symm⟩)

/-- Parts that carry the key of their whole are kept with it. -/
theorem filter_flatMap_key {key : α → κ} {part : β → κ} {f : α → List β} {xs : List α}
    (hpart : ∀ a ∈ xs, ∀ b ∈ f a, part b = key a) (p : κ → Bool) :
    (xs.flatMap f).filter (fun b => p (part b)) = (xs.filter fun a => p (key a)).flatMap f := by
  have hown : ∀ a ∈ xs, (f a).filter (fun b => p (part b)) = if p (key a) then f a else [] := by
    intro a ha
    have hsame : (f a).filter (fun b => p (part b)) = (f a).filter fun _ => p (key a) :=
      List.filter_congr fun b hb => by rw [hpart a ha b hb]
    rw [hsame]
    cases p (key a) <;> simp
  rw [List.filter_flatMap, List.flatMap_congr hown]
  clear hown hpart
  induction xs with
  | nil => rfl
  | cons a xs ih =>
    rw [List.flatMap_cons, ih, List.filter_cons]
    split <;> simp

theorem eraseDups_same [DecidableEq κ] {ks : List κ} {k : κ} (h : ∀ a ∈ ks, a = k) (hne : ks ≠ []) :
    ks.eraseDups = [k] := by
  obtain ⟨a, as, rfl⟩ := List.exists_cons_of_ne_nil hne
  have hrest : (as.filter fun b => !b == a) = [] := by
    apply List.filter_eq_nil_iff.mpr
    intro b hb
    rw [h b (List.mem_cons_of_mem _ hb), h a List.mem_cons_self]
    simp
  rw [List.eraseDups_cons, hrest, List.eraseDups_nil, h a List.mem_cons_self]

/-- The keys of the parts, as they first appear, where no whole is without parts. -/
theorem eraseDups_flatMap_key [DecidableEq κ] {key : α → κ} {part : β → κ} {f : α → List β} {xs : List α}
    (hpart : ∀ a ∈ xs, ∀ b ∈ f a, part b = key a) (hne : ∀ a ∈ xs, f a ≠ [])
    (hkeys : (xs.map key).Nodup) : ((xs.flatMap f).map part).eraseDups = xs.map key := by
  induction xs with
  | nil => rfl
  | cons a xs ih =>
    obtain ⟨hfresh, hkeys⟩ := List.nodup_cons.mp hkeys
    have hown : ∀ k ∈ (f a).map part, k = key a := by
      intro k hk
      obtain ⟨b, hb, rfl⟩ := List.mem_map.mp hk
      exact hpart a List.mem_cons_self b hb
    have hother : ((xs.flatMap f).map part).removeAll ((f a).map part) = (xs.flatMap f).map part := by
      apply List.filter_eq_self.mpr
      intro k hk
      obtain ⟨b, hb, rfl⟩ := List.mem_map.mp hk
      obtain ⟨a', ha', hb⟩ := List.mem_flatMap.mp hb
      have hkey := hpart a' (List.mem_cons_of_mem _ ha') b hb
      have hnot : part b ∉ (f a).map part := fun hmem =>
        hfresh (List.mem_map.mpr ⟨a', ha', hkey.symm.trans (hown _ hmem)⟩)
      simpa using hnot
    rw [List.flatMap_cons, List.map_append, List.eraseDups_append, hother,
      eraseDups_same hown (by simpa using hne a List.mem_cons_self),
      ih (fun a' ha' => hpart a' (List.mem_cons_of_mem _ ha'))
        (fun a' ha' => hne a' (List.mem_cons_of_mem _ ha')) hkeys]
    rfl

/-- Finding by a key that no two elements share, in what a filter keeps. -/
theorem find?_filter_of_nodup [DecidableEq κ] {key : α → κ} {xs : List α} (h : (xs.map key).Nodup)
    (p : α → Bool) (k : κ) :
    (xs.filter p).find? (fun a => key a = k) = (xs.find? fun a => key a = k).filter p := by
  have hfind : ∀ {ys : List α} {a : α}, (ys.map key).Nodup →
      (ys.find? (fun a => key a = k) = some a ↔ a ∈ ys ∧ key a = k) := by
    intro ys a hys
    constructor
    · intro hsome
      exact ⟨List.mem_of_find?_eq_some hsome, by simpa using List.find?_some hsome⟩
    · rintro ⟨hmem, rfl⟩
      cases hsome : ys.find? fun b => key b = key a with
      | none => simpa using List.find?_eq_none.mp hsome a hmem
      | some b =>
        have hb : key b = key a := by simpa using List.find?_some hsome
        rw [List.inj_on_of_nodup_map hys (List.mem_of_find?_eq_some hsome) hmem hb]
  apply Option.ext
  intro a
  rw [hfind (h.sublist (List.filter_sublist.map key)), Option.filter_eq_some_iff, hfind h,
    List.mem_filter]
  tauto

/-- Find the first element satisfying `p` and mutate it in place. -/
def mutateFirst (p : α → Bool) (f : α → α) : List α → List α
  | [] => []
  | a :: as => if p a then f a :: as else a :: mutateFirst p f as

theorem mutateFirst_eq_self {p : α → Bool} {f : α → α} {as : List α} (h : ∀ a ∈ as, ¬ p a) :
    mutateFirst p f as = as := by
  induction as with
  | nil => rfl
  | cons a as ih =>
    rw [mutateFirst, if_neg (h a List.mem_cons_self), ih fun b hb => h b (List.mem_cons_of_mem a hb)]

/-- Each element stays, or is the one mutated. -/
theorem forall₂_mutateFirst (p : α → Bool) (f : α → α) (as : List α) :
    List.Forall₂ (fun a b => b = a ∨ p a ∧ b = f a) as (mutateFirst p f as) := by
  induction as with
  | nil => exact .nil
  | cons a as ih =>
    simp only [mutateFirst]
    split
    · next hp => exact .cons (.inr ⟨hp, rfl⟩) (List.forall₂_same.mpr fun _ _ => .inl rfl)
    · exact .cons (.inl rfl) ih

theorem mem_mutateFirst {p : α → Bool} {f : α → α} {as : List α} {b : α}
    (h : b ∈ mutateFirst p f as) : b ∈ as ∨ ∃ a ∈ as, p a ∧ b = f a := by
  induction as with
  | nil => cases h
  | cons a as ih =>
    simp only [mutateFirst] at h
    split at h
    · grind
    · grind

theorem mem_mutateFirst_of_mem {p : α → Bool} {f : α → α} {as : List α} {a : α} (h : a ∈ as) :
    a ∈ mutateFirst p f as ∨ p a ∧ f a ∈ mutateFirst p f as := by
  induction as with
  | nil => cases h
  | cons b as ih =>
    simp only [mutateFirst]
    split <;> grind

/-- Whatever the mutation does not change is the same along the whole array. -/
theorem map_mutateFirst {p : α → Bool} {f : α → α} (g : α → β) (hg : ∀ a, p a → g (f a) = g a)
    (as : List α) : (mutateFirst p f as).map g = as.map g := by
  induction as with
  | nil => rfl
  | cons a as ih =>
    simp only [mutateFirst]
    split
    · next hp => simp [hg a hp]
    · simp [ih]

/-- Mutating the first of the elements with a key is mutating the only one. -/
theorem mutateFirst_eq_map [DecidableEq κ] {key : α → κ} {as : List α} (h : (as.map key).Nodup)
    {k : κ} {f : α → α} :
    mutateFirst (fun a => key a = k) f as = as.map fun a => if key a = k then f a else a := by
  induction as with
  | nil => rfl
  | cons a as ih =>
    obtain ⟨hnot, hnodup⟩ := List.nodup_cons.mp h
    simp only [mutateFirst, decide_eq_true_eq, List.map_cons]
    split
    · next hk =>
      congr 1
      refine ((List.map_congr_left ?_).trans (List.map_id' _)).symm
      intro b hb
      exact if_neg fun hbk : key b = k => hnot (List.mem_map.mpr ⟨b, hb, hbk.trans hk.symm⟩)
    · rw [ih hnodup]

/-- Mutating what a map left, and mapping again. -/
theorem map_mutateFirst_map {p : α → Bool} {f g : α → α} (hp : ∀ a, p (g a) = p a)
    (hg : ∀ a, g (g a) = g a) (hf : ∀ a, g (f (g a)) = g (f a)) (as : List α) :
    (mutateFirst p f (as.map g)).map g = (mutateFirst p f as).map g := by
  induction as with
  | nil => rfl
  | cons a as ih =>
    by_cases ha : p a
    · simp [mutateFirst, hp, ha, hf, Function.comp_def, hg]
    · simp [mutateFirst, hp, ha, hg, ih]

/-- Mutating an element that a filter keeps. -/
theorem filter_mutateFirst {p q : α → Bool} {f : α → α} (hf : ∀ a, q (f a) = q a) {as : List α}
    {a : α} (hfind : as.find? p = some a) (ha : q a = true) :
    (mutateFirst p f as).filter q = mutateFirst p f (as.filter q) := by
  induction as with
  | nil => cases hfind
  | cons b as ih =>
    by_cases hp : p b
    · rw [List.find?_cons_of_pos hp] at hfind
      cases hfind
      simp [mutateFirst, hp, hf, ha]
    · rw [List.find?_cons_of_neg hp] at hfind
      by_cases hq : q b <;> simp [mutateFirst, hp, hq, ih hfind]

/-- Mutating an element that a filter drops. -/
theorem filter_mutateFirst_of_dropped {p q : α → Bool} {f : α → α} (hf : ∀ a, q (f a) = q a)
    {as : List α} {a : α} (hfind : as.find? p = some a) (ha : q a = false) :
    (mutateFirst p f as).filter q = as.filter q := by
  induction as with
  | nil => cases hfind
  | cons b as ih =>
    by_cases hp : p b
    · rw [List.find?_cons_of_pos hp] at hfind
      cases hfind
      simp [mutateFirst, hp, hf, ha]
    · rw [List.find?_cons_of_neg hp] at hfind
      by_cases hq : q b <;> simp [mutateFirst, hp, hq, ih hfind]

theorem find?_mutateFirst {p : α → Bool} {f : α → α} (hf : ∀ a, p a → p (f a)) (as : List α) :
    (mutateFirst p f as).find? p = (as.find? p).map f := by
  induction as with
  | nil => rfl
  | cons a as ih =>
    by_cases hp : p a
    · simp [mutateFirst, hp, hf a hp]
    · simp [mutateFirst, hp, ih]

theorem find?_mutateFirst_of_disjoint {p q : α → Bool} {f : α → α}
    (hdisj : ∀ a, p a → q a = false) (hf : ∀ a, p a → q (f a) = false) (as : List α) :
    (mutateFirst p f as).find? q = as.find? q := by
  induction as with
  | nil => rfl
  | cons a as ih =>
    by_cases hp : p a
    · simp [mutateFirst, hp, hdisj a hp, hf a hp]
    · simp [mutateFirst, hp, List.find?_cons, ih]

end Js
