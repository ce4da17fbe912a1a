-- SUMMARY: Rules on what a program asks for in view of what it has asked before: kept on every path, and so by every call of every run.
import Jiffy.Lib.Interleaving
import Jiffy.Lib.Machine
import Jiffy.Lib.Relational
import Mathlib.Data.List.Induction

/-!
# Rules for histories

A rule looks at the history of a call alone: what it may ask for next, what has
to hold whenever it waits, and what holds of its history when it ends. Neither
the state nor other calls matter, so a program that keeps the rules on every
path keeps them in every run, over any adapter that answers as they assume.
-/

namespace Async

variable {P : Interface} {ε α β σ ι Op : Type}

/-- What a program may ask for after a history, and what its history looks like
whenever it waits; with how requests may be answered, and what an answer may
have come to show by the time that it is used. -/
structure Rules (P : Interface) (ε : Type) where
  allows : List (P.Event ε) → P.Req → Prop
  waiting : List (P.Event ε) → Prop
  answers : (r : P.Req) → Except ε (P.Resp r) → Prop
  becomes : (r : P.Req) → P.Resp r → P.Resp r → Prop

/-- What is asked of a result after a history. -/
abbrev Ending (P : Interface) (ε α : Type) : Type := Except ε α → List (P.Event ε) → Prop

/-- The program keeps the rules after the history, and ends as `Q` says. -/
def Proc.Keeps (R : Rules P ε) (Q : Ending P ε α) : Proc P ε α → List (P.Event ε) → Prop
  | .ret a, h => Q (.ok a) h
  | .throw e, h => Q (.error e) h
  | .sync r k, h => R.allows h r ∧ ∀ x, R.answers r x → Keeps R Q (k x) (h ++ [⟨r, x⟩])
  | .await r k, h => R.allows h r ∧ ∀ x, R.answers r x → R.waiting (h ++ [⟨r, x⟩]) ∧
    ∀ y, SameOutcome (R.becomes r) x y → Keeps R Q (k y) (h ++ [⟨r, x⟩])
  | .pause p, h => R.waiting h ∧ Keeps R Q p h

namespace Proc.Keeps

variable {R : Rules P ε} {Q Q' : Ending P ε α}

theorem mono (hQ : ∀ x h, Q x h → Q' x h) {p : Proc P ε α} {h : List (P.Event ε)} (hp : p.Keeps R Q h) :
    p.Keeps R Q' h := by
  induction p generalizing h with
  | ret a => exact hQ _ _ hp
  | throw e => exact hQ _ _ hp
  | sync r k ih => exact ⟨hp.1, fun x hx => ih x (hp.2 x hx)⟩
  | await r k ih => exact ⟨hp.1, fun x hx => ⟨(hp.2 x hx).1, fun y hy => ih y ((hp.2 x hx).2 y hy)⟩⟩
  | pause p ih => exact ⟨hp.1, ih hp.2⟩

/-- A composition: the first part may end with the rest keeping the rules. -/
theorem bind {p : Proc P ε α} {f : α → Proc P ε β} {S : Ending P ε β} {h : List (P.Event ε)}
    (hp : p.Keeps R (fun x h => match x with
      | .ok a => (f a).Keeps R S h
      | .error e => S (.error e) h) h) : (p.bind f).Keeps R S h := by
  induction p generalizing h with
  | ret a => exact hp
  | throw e => exact hp
  | sync r k ih => exact ⟨hp.1, fun x hx => ih x (hp.2 x hx)⟩
  | await r k ih => exact ⟨hp.1, fun x hx => ⟨(hp.2 x hx).1, fun y hy => ih y ((hp.2 x hx).2 y hy)⟩⟩
  | pause p ih => exact ⟨hp.1, ih hp.2⟩

theorem catching {p : Proc P ε α} {f : ε → Proc P ε α} {h : List (P.Event ε)}
    (hp : p.Keeps R (fun x h => match x with
      | .ok a => Q (.ok a) h
      | .error e => (f e).Keeps R Q h) h) : (p.catching f).Keeps R Q h := by
  induction p generalizing h with
  | ret a => exact hp
  | throw e => exact hp
  | sync r k ih => exact ⟨hp.1, fun x hx => ih x (hp.2 x hx)⟩
  | await r k ih => exact ⟨hp.1, fun x hx => ⟨(hp.2 x hx).1, fun y hy => ih y ((hp.2 x hx).2 y hy)⟩⟩
  | pause p ih => exact ⟨hp.1, ih hp.2⟩

theorem settle {p : Proc P ε α} {S : Ending P ε (Except ε α)} {h : List (P.Event ε)}
    (hp : p.Keeps R (fun x h => S (.ok x) h) h) : p.settle.Keeps R S h := by
  refine catching (bind (mono ?_ hp))
  intro x h hx
  cases x <;> exact hx

theorem ofExcept {x : Except ε α} {h : List (P.Event ε)} (hx : Q x h) : (ofExcept x).Keeps R Q h := by
  cases x <;> exact hx

theorem perform {r : P.Req} {Q : Ending P ε (P.Resp r)} {h : List (P.Event ε)} (hr : R.allows h r)
    (hQ : ∀ x, R.answers r x → Q x (h ++ [⟨r, x⟩])) : (Proc.perform r : Proc P ε _).Keeps R Q h :=
  ⟨hr, fun x hx => ofExcept (hQ x hx)⟩

theorem request {r : P.Req} {Q : Ending P ε (P.Resp r)} {h : List (P.Event ε)} (hr : R.allows h r)
    (hwait : ∀ x, R.answers r x → R.waiting (h ++ [⟨r, x⟩]))
    (hQ : ∀ x y, R.answers r x → SameOutcome (R.becomes r) x y → Q y (h ++ [⟨r, x⟩])) :
    (Proc.request r : Proc P ε _).Keeps R Q h :=
  ⟨hr, fun x hx => ⟨hwait x hx, fun y hy => ofExcept (hQ x y hx hy)⟩⟩

/-- `try p finally q`. -/
theorem ensuring {p : Proc P ε α} {q : Proc P ε Unit} {h : List (P.Event ε)}
    (hp : p.Keeps R (fun x h => q.Keeps R (fun y h => Q (y.bind fun _ => x) h) h) h) :
    (p.ensuring q).Keeps R Q h := by
  refine bind (settle (mono (fun x h hq => ?_) hp))
  refine bind (mono (fun y h hy => ?_) hq)
  cases y with
  | error e => exact hy
  | ok u => exact ofExcept hy

/-- An implemented request keeps the rules when its implementation leads to where
the rest of the program does. -/
theorem implement {P' : Interface} {R : Rules P' ε} {Q : Ending P' ε β}
    {impl : (r : P.Req) → Proc P' ε (P.Resp r)} {r : P.Req} {k : Except ε (P.Resp r) → Proc P ε β}
    {h : List (P'.Event ε)} (hp : (impl r).Keeps R (fun x h => ((k x).implement impl).Keeps R Q h) h) :
    ((Proc.await r k).implement impl).Keeps R Q h :=
  bind (settle hp)

/-- A program keeps the rules if all it may ask for is allowed wherever it
stands, and leaves it standing there. -/
theorem of_only {ok : P.Req → Prop} {J : List (P.Event ε) → Prop}
    (hok : ∀ {h r}, J h → ok r → R.allows h r ∧ ∀ x, R.answers r x → J (h ++ [⟨r, x⟩]))
    (hwait : ∀ {h}, J h → R.waiting h) {p : Proc P ε α} (hp : p.Only ok) {h : List (P.Event ε)}
    (hJ : J h) : p.Keeps R (fun _ h => J h) h := by
  induction p generalizing h with
  | ret a => exact hJ
  | throw e => exact hJ
  | sync r k ih =>
    obtain ⟨hallows, hnext⟩ := hok hJ hp.1
    exact ⟨hallows, fun x hx => ih x (hp.2 x) (hnext x hx)⟩
  | await r k ih =>
    obtain ⟨hallows, hnext⟩ := hok hJ hp.1
    exact ⟨hallows, fun x hx => ⟨hwait (hnext x hx), fun y _ => ih y (hp.2 y) (hnext x hx)⟩⟩
  | pause p ih => exact ⟨hwait hJ, ih hp hJ⟩

end Proc.Keeps

-- ---------------------------------------------------------------------------
-- Calls
-- ---------------------------------------------------------------------------

/-- Every request of a history was allowed after what stands before it. -/
def Rules.Lawful (R : Rules P ε) (h : List (P.Event ε)) : Prop :=
  ∀ h₁ e h₂, h = h₁ ++ e :: h₂ → R.allows h₁ e.1

theorem Rules.lawful_nil (R : Rules P ε) : R.Lawful [] := fun h₁ e h₂ heq => by simp at heq

theorem Rules.Lawful.snoc {R : Rules P ε} {h : List (P.Event ε)} (hh : R.Lawful h) {e : P.Event ε}
    (he : R.allows h e.1) : R.Lawful (h ++ [e]) :=
  Machine.forall_splits_concat.mpr ⟨hh, he⟩

theorem Rules.Lawful.before {R : Rules P ε} {h : List (P.Event ε)} {e : P.Event ε} (hh : R.Lawful (h ++ [e])) :
    R.Lawful h ∧ R.allows h e.1 :=
  Machine.forall_splits_concat.mp hh

theorem Rules.Lawful.of_append {R : Rules P ε} {h t : List (P.Event ε)} (hh : R.Lawful (h ++ t)) : R.Lawful h :=
  fun h₁ e h₂ hsplit => hh h₁ e (h₂ ++ t) (by rw [hsplit, List.append_assoc, List.cons_append])

/-- What is allowed after histories of one length alone is asked for once at most. -/
theorem Rules.Lawful.countP_le_one {R : Rules P ε} {p : P.Req → Bool} {k : Nat}
    (hk : ∀ h r, R.allows h r → p r = true → h.length = k) {h : List (P.Event ε)} (hh : R.Lawful h) :
    h.countP (fun e => p e.1) ≤ 1 := by
  induction h using List.reverseRecOn with
  | nil => exact Nat.zero_le 1
  | append_singleton h e ih =>
    obtain ⟨hlawful, hallows⟩ := hh.before
    rw [List.countP_append, List.countP_singleton]
    split
    · next he =>
      have hlength := hk h e.1 hallows he
      have hnone : h.countP (fun e => p e.1) = 0 := by
        refine List.countP_eq_zero.mpr fun e' he' hp => ?_
        obtain ⟨h₁, h₂, rfl⟩ := List.append_of_mem he'
        have hlength' := hk h₁ e'.1 (hlawful h₁ e' h₂ rfl) hp
        rw [List.length_append, List.length_cons, hlength'] at hlength
        omega
      exact Nat.le_of_eq (congrArg (· + 1) hnone)
    · exact ih hlawful

/-- What the rules say of a call: its history is lawful; settled, it ended as
`Q` says; suspended, it waits as it may and goes on by the rules. -/
structure Rules.Covers (R : Rules P ε) (Q : Ending P ε α) (h : List (P.Event ε))
    (status : Status P ε α σ) : Prop where
  lawful : R.Lawful h
  settled : ∀ x, status = .settled x → Q x h
  waiting : ∀ k, status = .suspended k → R.waiting h
  resumes : ∀ k, status = .suspended k → ∀ t, (k t).Keeps R Q h

/-- The adapter answers as the rules assume. -/
structure Rules.Fits (R : Rules P ε) (A : Adapter P ε σ ι) : Prop where
  answers : ∀ i r s, R.answers r (A.perform i r s).1
  becomes : ∀ t r a, R.becomes r a (A.refresh t r a)

namespace System

/-- A turn of a program that keeps the rules. -/
theorem advance_covers {A : Adapter P ε σ ι} {R : Rules P ε} {Q : Ending P ε α} (hfits : R.Fits A)
    {p : Proc P ε α} {h : List (P.Event ε)} (hp : p.Keeps R Q h) (hh : R.Lawful h) (i : ι) (s : σ) :
    R.Covers Q (A.advance i p h s).history (A.advance i p h s).status := by
  induction p generalizing h s with
  | ret a => exact ⟨hh, fun x hx => by cases hx; exact hp, nofun, nofun⟩
  | throw e => exact ⟨hh, fun x hx => by cases hx; exact hp, nofun, nofun⟩
  | sync r k ih => exact ih _ (hp.2 _ (hfits.answers i r s)) (hh.snoc hp.1) _
  | await r k ih =>
    obtain ⟨hwaiting, hnext⟩ := hp.2 _ (hfits.answers i r s)
    refine ⟨hh.snoc hp.1, nofun, fun _ _ => hwaiting, fun k' hk t => ?_⟩
    cases hk
    refine hnext _ ?_
    cases (A.perform i r s).1 with
    | error e => exact .error e
    | ok a => exact .ok (hfits.becomes t r a)
  | pause p ih =>
    refine ⟨hh, nofun, fun _ _ => hp.1, fun k' hk t => ?_⟩
    cases hk
    exact hp.2

/-- What every request that is allowed where a program stands respects, a turn
of it respects. -/
theorem advance_respects {A : Adapter P ε σ ι} {R : Rules P ε} {Q : Ending P ε α} (hfits : R.Fits A)
    {K : List (P.Event ε) → Prop} (hK : ∀ {h e}, K h → K (h ++ [e])) {J : σ → σ → Prop} (hrefl : ∀ s, J s s)
    (htrans : ∀ {s t u}, J s t → J t u → J s u) {i : ι}
    (hJ : ∀ {h r} (s), K h → R.allows h r → J s (A.perform i r s).2) {p : Proc P ε α}
    {h : List (P.Event ε)} (hp : p.Keeps R Q h) (hh : K h) (s : σ) : J s (A.advance i p h s).state := by
  induction p generalizing h s with
  | ret a => exact hrefl s
  | throw e => exact hrefl s
  | sync r k ih => exact htrans (hJ s hh hp.1) (ih _ (hp.2 _ (hfits.answers i r s)) (hK hh) _)
  | await r k ih => exact hJ s hh hp.1
  | pause p ih => exact hrefl s

variable {S : System P ε α σ ι Op} {R : Op → Rules P ε} {Q : Op → Ending P ε α}

/-- The rules cover every call that was made. -/
def AllCovered (R : Op → Rules P ε) (Q : Op → Ending P ε α) (c : Config P ε α σ Op) : Prop :=
  ∀ id op h st, c.calls id = some ⟨op, h, st⟩ → (R op).Covers (Q op) h st

theorem step_covered (hfits : ∀ op, (R op).Fits S.toAdapter)
    (hprog : ∀ op, (S.program op).Keeps (R op) (Q op) []) {c c' : Config P ε α σ Op} {l : Label ι Op}
    (hc : AllCovered R Q c) (h : S.step c l = some c') : AllCovered R Q c' := by
  intro id op hist st hcall
  obtain ⟨τ⟩ := S.step_turn h
  by_cases hid : id = l.id
  · subst hid
    rw [τ.own, Option.some.injEq, Call.mk.injEq] at hcall
    obtain ⟨rfl, rfl, rfl⟩ := hcall
    rcases τ.origin with ⟨-, -, hnil, hp, -⟩ | ⟨-, -, k, hbefore, hp⟩
    · rw [hnil, hp]
      exact advance_covers (hfits τ.op) (hprog τ.op) (Rules.lawful_nil _) _ _
    · have hcovers := hc _ _ _ _ hbefore
      rw [hp]
      exact advance_covers (hfits τ.op) (hcovers.resumes k rfl _) hcovers.lawful _ _
  · exact hc _ _ _ _ ((τ.other hid).symm.trans hcall)

/-- Programs that keep the rules have calls that do, in every run. -/
theorem runs_covered (hfits : ∀ op, (R op).Fits S.toAdapter)
    (hprog : ∀ op, (S.program op).Keeps (R op) (Q op) []) {ls : List (Label ι Op)} {s : σ}
    {c : Config P ε α σ Op} (h : S.runs (.idle s) ls = some c) : AllCovered R Q c := by
  have hstart : AllCovered R Q (Config.idle s : Config P ε α σ Op) := fun _ _ _ _ hcall => by cases hcall
  revert hstart
  generalize Config.idle s = c₀ at h
  induction ls generalizing c₀ with
  | nil => cases h; exact fun hc => hc
  | cons l ls ih =>
    intro hc
    rw [S.runs_cons, Option.bind_eq_some_iff] at h
    obtain ⟨c₁, h₁, h₂⟩ := h
    exact ih c₁ h₂ (step_covered hfits hprog hc h₁)

end System

end Async
