-- SUMMARY: Fixed-window counters: the answers of one counter to attempts at given instants, and how many it admits in any interval.
import Mathlib.Algebra.Order.Floor.Semiring
import Mathlib.Algebra.Order.Field.Basic

/-!
# Fixed-window counters

A window opens at the first attempt that the current one does not cover, lasts
`width`, and admits its first `limit` attempts: those that fewer than `limit`
attempts of the window came before.

The bound on an interval goes by what a counter can still admit. Every answer
is paid out of that allowance, so that it bounds all later answers together.
-/

namespace FixedWindow

variable {K : Type} [Field K] [LinearOrder K]

/-- A window: when it opened, and the attempts made in it so far. -/
structure Window (K : Type) where
  opened : K
  attempts : Nat

/-- The window that an attempt at `t` falls into, as it stands before it. -/
def windowAt (width : K) (current : Option (Window K)) (t : K) : Window K :=
  match current with
  | none => ⟨t, 0⟩
  | some w => if t < w.opened + width then w else ⟨t, 0⟩

theorem windowAt_covered {width t : K} {w : Window K} (h : t < w.opened + width) :
    windowAt width (some w) t = w := if_pos h

theorem windowAt_over {width t : K} {w : Window K} (h : w.opened + width ≤ t) :
    windowAt width (some w) t = ⟨t, 0⟩ := if_neg (not_lt.mpr h)

/-- One more attempt. -/
def Window.attempt (w : Window K) : Window K := { w with attempts := w.attempts + 1 }

/-- Whether the next attempt is among the first `limit`. -/
def Window.admits (limit : K) (w : Window K) : Bool := decide ((w.attempts : K) < limit)

/-- The current window after attempts at `ts`. -/
def latest (width : K) (current : Option (Window K)) (ts : List K) : Option (Window K) :=
  ts.foldl (fun current t => some (windowAt width current t).attempt) current

/-- Attempts at `ts`, each with its answer. -/
def answered (limit width : K) : Option (Window K) → List K → List (K × Bool)
  | _, [] => []
  | current, t :: ts =>
    let w := windowAt width current t
    (t, w.admits limit) :: answered limit width (some w.attempt) ts

section Answers

variable {limit width : K} {current : Option (Window K)} {ts us : List K} {t : K}

theorem latest_concat :
    latest width current (ts ++ [t]) = some (windowAt width (latest width current ts) t).attempt := by
  rw [latest, List.foldl_append]
  rfl

theorem answered_append : answered limit width current (ts ++ us) =
    answered limit width current ts ++ answered limit width (latest width current ts) us := by
  induction ts generalizing current with
  | nil => rfl
  | cons t ts ih => exact congrArg (List.cons _) ih

theorem answered_concat : answered limit width current (ts ++ [t]) =
    answered limit width current ts ++ [(t, (windowAt width (latest width current ts) t).admits limit)] :=
  answered_append

theorem map_fst_answered : (answered limit width current ts).map Prod.fst = ts := by
  induction ts generalizing current with
  | nil => rfl
  | cons t ts ih => exact congrArg (List.cons t) ih

end Answers

-- ---------------------------------------------------------------------------
-- Intervals
-- ---------------------------------------------------------------------------

/-- An attempt that was admitted at an instant in `[a, b)`. -/
def AdmittedIn (a b : K) (x : K × Bool) : Bool := x.2 && decide (a ≤ x.1 ∧ x.1 < b)

section Intervals

variable [IsStrictOrderedRing K] [FloorSemiring K] {limit width a b t : K}
  {current : Option (Window K)} {ts : List K}

/-- What windows that open in `[a, b)` can admit. -/
def openings (limit width a b : K) : Nat := ⌈limit⌉₊ * ⌈(b - a) / width⌉₊

/-- What can be admitted before `b`, by attempts from `a` on: the rest of the
current window, and the windows after it. -/
def allowance (limit width a b : K) : Option (Window K) → Nat
  | none => openings limit width a b
  | some w =>
    if a < w.opened + width then (⌈limit⌉₊ - w.attempts) + openings limit width (w.opened + width) b
    else openings limit width a b

theorem openings_anti {a' : K} (hwidth : 0 < width) (h : a ≤ a') :
    openings limit width a' b ≤ openings limit width a b := by
  unfold openings
  gcongr

/-- A window that opens at `t` takes its share. -/
theorem openings_open (hwidth : 0 < width) (h : t < b) :
    openings limit width t b = ⌈limit⌉₊ + openings limit width (t + width) b := by
  have hpos : 0 < ⌈(b - t) / width⌉₊ := Nat.ceil_pos.mpr (div_pos (sub_pos.mpr h) hwidth)
  have hshift : (b - (t + width)) / width = (b - t) / width - 1 := by
    rw [← sub_sub, sub_div, div_self hwidth.ne']
  unfold openings
  rw [hshift, Nat.ceil_sub_one, Nat.mul_sub_one]
  exact (Nat.add_sub_cancel' (Nat.le_mul_of_pos_right _ hpos)).symm

omit [IsStrictOrderedRing K] in
/-- An attempt that the current window covers is paid out of what is left in it. -/
theorem allowance_attempt {w : Window K} (h : t < w.opened + width) :
    (w.admits limit).toNat + allowance limit width t b (some w.attempt) =
      (⌈limit⌉₊ - w.attempts) + openings limit width (w.opened + width) b := by
  have hrest : (w.admits limit).toNat + (⌈limit⌉₊ - (w.attempts + 1)) = ⌈limit⌉₊ - w.attempts := by
    unfold Window.admits
    by_cases hlt : (w.attempts : K) < limit
    · have := Nat.lt_ceil.mpr hlt
      rw [decide_eq_true hlt, Bool.toNat_true]
      omega
    · have := Nat.ceil_le.mpr (not_lt.mp hlt)
      rw [decide_eq_false hlt, Bool.toNat_false]
      omega
  have hleft : allowance limit width t b (some w.attempt) =
      (⌈limit⌉₊ - (w.attempts + 1)) + openings limit width (w.opened + width) b := if_pos h
  rw [hleft, ← Nat.add_assoc, hrest]

/-- The answer to any attempt is paid out of the allowance. -/
theorem allowance_step (hwidth : 0 < width) (ha : a ≤ t) (hb : t < b) :
    ((windowAt width current t).admits limit).toNat +
        allowance limit width t b (some (windowAt width current t).attempt) ≤
      allowance limit width a b current := by
  have hfresh : ((⟨t, 0⟩ : Window K).admits limit).toNat +
      allowance limit width t b (some (⟨t, 0⟩ : Window K).attempt) = openings limit width t b := by
    rw [openings_open hwidth hb]
    exact allowance_attempt (lt_add_of_pos_right t hwidth)
  cases current with
  | none => exact hfresh.le.trans (openings_anti hwidth ha)
  | some w =>
    by_cases hcovers : t < w.opened + width
    · rw [windowAt_covered hcovers, allowance_attempt hcovers, allowance, if_pos (ha.trans_lt hcovers)]
    · rw [windowAt_over (not_lt.mp hcovers), hfresh, allowance]
      split
      · exact (openings_anti hwidth (not_lt.mp hcovers)).trans (Nat.le_add_left _ _)
      · exact openings_anti hwidth ha

/-- So the allowance bounds all answers before `b`. -/
theorem countP_answered_le_allowance {lo : K} (hwidth : 0 < width) (hts : ts.Pairwise (· ≤ ·))
    (ha : ∀ t ∈ ts, a ≤ t) : (answered limit width current ts).countP (AdmittedIn lo b) ≤
      allowance limit width a b current := by
  induction ts generalizing a current with
  | nil => exact Nat.zero_le _
  | cons t ts ih =>
    obtain ⟨hfirst, htail⟩ := List.pairwise_cons.mp hts
    by_cases htb : t < b
    · have hhead : (if AdmittedIn lo b (t, (windowAt width current t).admits limit) then 1 else 0) ≤
          ((windowAt width current t).admits limit).toNat := by
        unfold AdmittedIn
        cases (windowAt width current t).admits limit with
        | false => exact le_refl 0
        | true => split <;> simp
      calc (answered limit width current (t :: ts)).countP (AdmittedIn lo b)
          = (answered limit width (some (windowAt width current t).attempt) ts).countP (AdmittedIn lo b) +
              (if AdmittedIn lo b (t, (windowAt width current t).admits limit) then 1 else 0) :=
            List.countP_cons
        _ ≤ allowance limit width t b (some (windowAt width current t).attempt) +
              ((windowAt width current t).admits limit).toNat := Nat.add_le_add (ih htail hfirst) hhead
        _ = ((windowAt width current t).admits limit).toNat +
              allowance limit width t b (some (windowAt width current t).attempt) := Nat.add_comm _ _
        _ ≤ allowance limit width a b current := allowance_step hwidth (ha t List.mem_cons_self) htb
    · have hnone : ∀ x ∈ answered limit width current (t :: ts), ¬ AdmittedIn lo b x := by
        intro x hx
        have hmem := List.mem_map_of_mem (f := Prod.fst) hx
        rw [map_fst_answered] at hmem
        have hlate : b ≤ x.1 := by
          rcases List.mem_cons.mp hmem with heq | hmem
          · exact heq ▸ not_lt.mp htb
          · exact (not_lt.mp htb).trans (hfirst _ hmem)
        simp [AdmittedIn, hlate]
      rw [List.countP_eq_zero.mpr hnone]
      exact Nat.zero_le _

/-- Of an interval, the current window covers the beginning at most. -/
theorem allowance_le (hwidth : 0 < width) :
    allowance limit width a b current ≤ ⌈limit⌉₊ * (⌈(b - a) / width⌉₊ + 1) := by
  rw [Nat.mul_succ]
  have hopen : openings limit width a b ≤ ⌈limit⌉₊ * ⌈(b - a) / width⌉₊ + ⌈limit⌉₊ :=
    Nat.le_add_right _ _
  cases current with
  | none => exact hopen
  | some w =>
    unfold allowance
    dsimp only
    split
    · next hcovers =>
      rw [Nat.add_comm]
      exact Nat.add_le_add (openings_anti hwidth hcovers.le) (Nat.sub_le _ _)
    · exact hopen

/-- A counter admits no more in an interval than the windows that fit into it
could, and one more window. -/
theorem countP_answered_le (hwidth : 0 < width) (hts : ts.Pairwise (· ≤ ·)) :
    (answered limit width current ts).countP (AdmittedIn a b) ≤
      ⌈limit⌉₊ * (⌈(b - a) / width⌉₊ + 1) := by
  induction ts generalizing current with
  | nil => exact Nat.zero_le _
  | cons t ts ih =>
    obtain ⟨hfirst, htail⟩ := List.pairwise_cons.mp hts
    by_cases hta : t < a
    · have hearly : ¬ AdmittedIn a b (t, (windowAt width current t).admits limit) := by
        simp [AdmittedIn, hta]
      have hcons := List.countP_cons_of_neg (p := AdmittedIn a b)
        (l := answered limit width (some (windowAt width current t).attempt) ts) hearly
      exact hcons.trans_le (ih htail)
    · have hall : ∀ x ∈ t :: ts, a ≤ x := by
        intro x hx
        rcases List.mem_cons.mp hx with rfl | hx
        · exact not_lt.mp hta
        · exact (not_lt.mp hta).trans (hfirst x hx)
      exact (countP_answered_le_allowance hwidth hts hall).trans (allowance_le hwidth)

end Intervals

end FixedWindow
