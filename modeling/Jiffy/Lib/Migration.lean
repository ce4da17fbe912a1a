-- SUMMARY: Upgrades of a database: files applied in order, each in a transaction of its own, by runs that may be cut short anywhere.
import Mathlib.Data.Nat.Basic
import Mathlib.Order.Lattice

/-!
# Upgrades

There is no record of the files that were applied: every run begins with the
first one again, and a file that has gone through before does nothing.
-/

namespace Migration

variable {κ ε σ : Type}

/-- What becomes of one query on its way to the database and back. -/
inductive Fate (ε : Type) where
  | fine
  /-- It never runs. -/
  | lost (e : ε)
  /-- It runs, and its answer does not arrive. -/
  | unacknowledged (e : ε)
deriving DecidableEq

/-- One file: whether its client hears that it went through, and the state,
which is the old one if it did not. -/
def attempt (file : σ → Except ε σ) (fate : Fate ε) (s : σ) : Except ε Unit × σ :=
  match fate, file s with
  | .fine, .ok t => (.ok (), t)
  | .fine, .error e => (.error e, s)
  | .lost e, _ => (.error e, s)
  | .unacknowledged e, .ok t => (.error e, t)
  | .unacknowledged e, .error _ => (.error e, s)

structure Progress (κ ε σ : Type) where
  applied : List κ
  failed : Option (κ × ε)
  state : σ

/-- The files in order, up to the first that fails. -/
def upgrade (run : κ → σ → Except ε σ) : List κ → (ℕ → Fate ε) → σ → Progress κ ε σ
  | [], _, s => ⟨[], none, s⟩
  | file :: files, fates, s =>
    match attempt (run file) (fates 0) s with
    | (.error e, t) => ⟨[], some (file, e), t⟩
    | (.ok (), t) =>
      let rest := upgrade run files (fun i => fates (i + 1)) t
      { rest with applied := file :: rest.applied }

-- ---------------------------------------------------------------------------
-- What every file keeps
-- ---------------------------------------------------------------------------

section Keeps

variable {run : κ → σ → Except ε σ} {R : σ → σ → Prop}

theorem attempt_keeps (hrefl : ∀ s, R s s) {file : σ → Except ε σ} {s : σ}
    (hfile : ∀ t, file s = .ok t → R s t) (fate : Fate ε) : R s (attempt file fate s).2 := by
  unfold attempt
  split
  · next t ht => exact hfile t ht
  · exact hrefl s
  · exact hrefl s
  · next t ht => exact hfile t ht
  · exact hrefl s

/-- A run that is cut short anywhere does what a number of its files do. -/
theorem upgrade_keeps (hrefl : ∀ s, R s s) (htrans : ∀ {s t u}, R s t → R t u → R s u)
    (hrun : ∀ file s t, run file s = .ok t → R s t) (files : List κ) (fates : ℕ → Fate ε) (s : σ) :
    R s (upgrade run files fates s).state := by
  induction files generalizing fates s with
  | nil => exact hrefl s
  | cons file files ih =>
    have hfirst := attempt_keeps hrefl (hrun file s) (fates 0)
    unfold upgrade
    split
    · next e t heq =>
      rw [heq] at hfirst
      exact hfirst
    · next t heq =>
      rw [heq] at hfirst
      exact htrans hfirst (ih _ t)

end Keeps

-- ---------------------------------------------------------------------------
-- How far a database has come
-- ---------------------------------------------------------------------------

/-- The levels of a database, by the number of files that went through: the
next file takes it one level up, and the ones before that do nothing. -/
structure Ladder (run : κ → σ → Except ε σ) (files : List κ) (At : ℕ → σ → Prop) : Prop where
  again : ∀ {n : ℕ} {s : σ} {file : κ} {i : ℕ},
    At n s → files[i]? = some file → i < n → run file s = .ok s
  next : ∀ {n : ℕ} {s : σ} {file : κ},
    At n s → files[n]? = some file → ∃ t, run file s = .ok t ∧ At (n + 1) t

/-- The run of the files from the `i`-th on has ended in `p`. -/
structure Climbed (At : ℕ → σ → Prop) (length : ℕ) (todo : List κ) (fates : ℕ → Fate ε) (n : ℕ) (s : σ)
    (p : Progress κ ε σ) (m : ℕ) : Prop where
  up : n ≤ m
  bounded : m ≤ length
  level : At m p.state
  /-- Nothing happens without a new file. -/
  same : m = n → p.state = s
  done : p.failed = none → m = length ∧ p.applied = todo
  fails : p.failed = none ↔ ∀ i < todo.length, fates i = .fine

namespace Ladder

variable {run : κ → σ → Except ε σ} {files : List κ} {At : ℕ → σ → Prop}

theorem run_ok (h : Ladder run files At) {n i : ℕ} {s : σ} {file : κ} (hs : At n s)
    (hfile : files[i]? = some file) (hi : i ≤ n) :
    ∃ t m, run file s = .ok t ∧ At m t ∧ n ≤ m ∧ i < m ∧ m ≤ max n (i + 1) ∧ (m = n → t = s) := by
  rcases Nat.lt_or_eq_of_le hi with hlt | rfl
  · exact ⟨s, n, h.again hs hfile hlt, hs, le_rfl, hlt, le_max_left _ _, fun _ => rfl⟩
  · obtain ⟨t, ht, hlevel⟩ := h.next hs hfile
    exact ⟨t, i + 1, ht, hlevel, i.le_succ, i.lt_succ_self, le_max_right _ _, fun hm => absurd hm (by omega)⟩

/-- A run never takes a database down; it takes it to the top exactly if every
query of it is answered. -/
theorem climbed (h : Ladder run files At) {done todo : List κ} (hfiles : files = done ++ todo)
    {fates : ℕ → Fate ε} {n : ℕ} {s : σ} (hdone : done.length ≤ n) (hn : n ≤ files.length) (hs : At n s) :
    ∃ m, Climbed At files.length todo fates n s (upgrade run todo fates s) m := by
  induction todo generalizing done fates n s with
  | nil =>
    have hlength : files.length = n := by simp at hfiles; subst hfiles; omega
    exact ⟨n, le_rfl, hn, hs, fun _ => rfl, fun _ => ⟨hlength.symm, rfl⟩, by simp [upgrade]⟩
  | cons file todo ih =>
    have hfile : files[done.length]? = some file := by
      rw [hfiles, List.getElem?_append_right le_rfl, Nat.sub_self]
      rfl
    have hin : done.length < files.length := (List.getElem?_eq_some_iff.mp hfile).1
    obtain ⟨t, m, hrun, hlevel, hup, hpast, hm, hsame⟩ := h.run_ok hs hfile hdone
    have hbounded : m ≤ files.length := le_trans hm (max_le hn hin)
    unfold upgrade
    cases hfate : fates 0 with
    | lost e =>
      refine ⟨n, le_rfl, hn, hs, fun _ => rfl, (by cases ·), (by cases ·), fun hfine => ?_⟩
      have := hfine 0 (Nat.succ_pos _)
      rw [hfate] at this
      cases this
    | unacknowledged e =>
      simp only [attempt, hrun]
      refine ⟨m, hup, hbounded, hlevel, hsame, (by cases ·), (by cases ·), fun hfine => ?_⟩
      have := hfine 0 (Nat.succ_pos _)
      rw [hfate] at this
      cases this
    | fine =>
      simp only [attempt, hrun]
      obtain ⟨top, hc⟩ := @ih (done ++ [file]) (by simp [hfiles]) (fun i => fates (i + 1)) m t
        (by rw [List.length_append]; exact hpast) hbounded hlevel
      refine ⟨top, le_trans hup hc.up, hc.bounded, hc.level, fun htop => ?_, fun hnone => ?_, ?_⟩
      · have hmn : m = n := le_antisymm (htop ▸ hc.up) hup
        exact (hc.same (htop.trans hmn.symm)).trans (hsame hmn)
      · exact ⟨(hc.done hnone).1, congrArg (file :: ·) (hc.done hnone).2⟩
      · refine hc.fails.trans ⟨fun hfine i hi => ?_, fun hfine i hi => hfine (i + 1) (Nat.succ_lt_succ hi)⟩
        cases i with
        | zero => exact hfate
        | succ i => exact hfine i (Nat.lt_of_succ_lt_succ hi)

end Ladder

end Migration
