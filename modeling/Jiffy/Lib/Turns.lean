-- SUMMARY: How many turns a call takes before it has settled.
import Jiffy.Lib.Interleaving

/-!
# Turns of a call

A bound on the waits of a program bounds the turns of its calls, whatever the
other calls do in between.
-/

namespace Async

variable {P P' : Interface} {ε α β σ ι Op : Type}

namespace Proc

/-- The program waits at most `n` times, whatever it is answered. -/
def Within : Proc P ε α → Nat → Prop
  | .ret _, _ | .throw _, _ => True
  | .sync _ k, n => ∀ x, Within (k x) n
  | .await _ k, n => 0 < n ∧ ∀ x, Within (k x) (n - 1)
  | .pause p, n => 0 < n ∧ Within p (n - 1)

namespace Within

theorem mono {p : Proc P ε α} {m n : Nat} (hp : p.Within m) (h : m ≤ n) : p.Within n := by
  induction p generalizing m n with
  | ret a => trivial
  | throw e => trivial
  | sync r k ih => exact fun x => ih x (hp x) h
  | await r k ih => exact ⟨Nat.lt_of_lt_of_le hp.1 h, fun x => ih x (hp.2 x) (Nat.sub_le_sub_right h 1)⟩
  | pause p ih => exact ⟨Nat.lt_of_lt_of_le hp.1 h, ih hp.2 (Nat.sub_le_sub_right h 1)⟩

/-- The waits of a composition add up. -/
theorem bind {p : Proc P ε α} {f : α → Proc P ε β} {m n : Nat} (hp : p.Within m)
    (hf : ∀ a, (f a).Within n) : (p.bind f).Within (m + n) := by
  have hless : ∀ {m}, 0 < m → m + n - 1 = m - 1 + n := fun h => by omega
  induction p generalizing m with
  | ret a => exact (hf a).mono (Nat.le_add_left _ _)
  | throw e => trivial
  | sync r k ih => exact fun x => ih x (hp x)
  | await r k ih => exact ⟨Nat.add_pos_left hp.1 _, fun x => hless hp.1 ▸ ih x (hp.2 x)⟩
  | pause p ih => exact ⟨Nat.add_pos_left hp.1 _, hless hp.1 ▸ ih hp.2⟩

theorem settle {p : Proc P ε α} {n : Nat} (hp : p.Within n) : p.settle.Within n := by
  induction p generalizing n with
  | ret a => trivial
  | throw e => trivial
  | sync r k ih => exact fun x => ih x (hp x)
  | await r k ih => exact ⟨hp.1, fun x => ih x (hp.2 x)⟩
  | pause p ih => exact ⟨hp.1, ih hp.2⟩

theorem ofExcept (x : Except ε α) (n : Nat) : (ofExcept x : Proc P ε α).Within n := by
  cases x <;> trivial

theorem of_bind {p : Proc P ε α} {f : α → Proc P ε β} {n : Nat} (h : (p.bind f).Within n) : p.Within n := by
  induction p generalizing n with
  | ret a => trivial
  | throw e => trivial
  | sync r k ih => exact fun x => ih x (h x)
  | await r k ih => exact ⟨h.1, fun x => ih x (h.2 x)⟩
  | pause p ih => exact ⟨h.1, ih h.2⟩

theorem catching {p : Proc P ε α} {f : ε → Proc P ε α} {m n : Nat} (hp : p.Within m)
    (hf : ∀ e, (f e).Within n) : (p.catching f).Within (m + n) := by
  have hless : ∀ {m}, 0 < m → m + n - 1 = m - 1 + n := fun h => by omega
  induction p generalizing m with
  | ret a => trivial
  | throw e => exact (hf e).mono (Nat.le_add_left _ _)
  | sync r k ih => exact fun x => ih x (hp x)
  | await r k ih => exact ⟨Nat.add_pos_left hp.1 _, fun x => hless hp.1 ▸ ih x (hp.2 x)⟩
  | pause p ih => exact ⟨Nat.add_pos_left hp.1 _, hless hp.1 ▸ ih hp.2⟩

theorem request {r : P.Req} {n : Nat} (h : 0 < n) : (Proc.request r : Proc P ε _).Within n :=
  ⟨h, fun x => .ofExcept x _⟩

theorem perform (r : P.Req) (n : Nat) : (Proc.perform r : Proc P ε _).Within n := fun x => .ofExcept x n

/-- An implemented request waits as its implementation does. -/
theorem await {impl : (r : P.Req) → Proc P' ε (P.Resp r)} {r : P.Req}
    {k : Except ε (P.Resp r) → Proc P ε α} {m n : Nat} (hr : (impl r).Within m)
    (hk : ∀ x, ((k x).implement impl).Within n) : ((Proc.await r k).implement impl).Within (m + n) :=
  hr.settle.bind hk

theorem sync {impl : (r : P.Req) → Proc P' ε (P.Resp r)} {r : P.Req}
    {k : Except ε (P.Resp r) → Proc P ε α} {m n : Nat} (hr : (impl r).Within m)
    (hk : ∀ x, ((k x).implement impl).Within n) : ((Proc.sync r k).implement impl).Within (m + n) :=
  hr.settle.bind hk

/-- An implementation that waits where the program does, and nowhere else. -/
theorem implement {impl : (r : P.Req) → Proc P' ε (P.Resp r)} {ok : P.Req → Prop}
    (hsync : ∀ r, ok r → (impl r).Within 0) (hawait : ∀ r, (impl r).Within 1) {p : Proc P ε α} {n : Nat}
    (hspot : p.OnSpot ok) (hp : p.Within n) : (p.implement impl).Within n := by
  induction p generalizing n with
  | ret a => trivial
  | throw e => trivial
  | sync r k ih =>
    refine (sync (hsync r hspot.1) fun x => ih x (hspot.2 x) (hp x)).mono ?_
    exact Nat.le_of_eq (Nat.zero_add n)
  | await r k ih =>
    refine (await (hawait r) fun x => ih x (hspot x) (hp.2 x)).mono ?_
    exact Nat.le_of_eq (Nat.add_sub_cancel' hp.1)
  | pause p ih => exact ⟨hp.1, ih hspot hp.2⟩

end Within

end Proc

namespace System

variable {S : System P ε α σ ι Op} {c c' : Config P ε α σ Op}

/-- Each wait ends a turn. -/
theorem advance_within {A : Adapter P ε σ ι} {p : Proc P ε α} {n : Nat} (hp : p.Within n) {i : ι}
    {h : List (P.Event ε)} {s : σ} {k : σ → Proc P ε α}
    (hk : (A.advance i p h s).status = .suspended k) : 0 < n ∧ ∀ t, (k t).Within (n - 1) := by
  induction p generalizing h s with
  | ret a => cases hk
  | throw e => cases hk
  | sync r k' ih => exact ih _ (hp _) hk
  | await r k' ih => cases hk; exact ⟨hp.1, fun t => hp.2 _⟩
  | pause p ih => cases hk; exact ⟨hp.1, fun t => hp.2⟩

/-- What a settled call settled with stays. -/
theorem step_settled {l : Label ι Op} (h : S.step c l = some c') {id : Nat} {op : Op}
    {hist : List (P.Event ε)} {x : Except ε α} (hcall : c.calls id = some ⟨op, hist, .settled x⟩) :
    c'.calls id = some ⟨op, hist, .settled x⟩ := by
  obtain ⟨τ⟩ := S.step_turn h
  by_cases hid : id = l.id
  · subst hid
    rcases τ.origin with ⟨-, hnone, -⟩ | ⟨-, -, k, hsuspended, -⟩
    · rw [hnone] at hcall
      cases hcall
    · rw [hsuspended] at hcall
      cases hcall
  · exact (τ.other hid).trans hcall

theorem runs_settled {ls : List (Label ι Op)} (h : S.runs c ls = some c') {id : Nat} {op : Op}
    {hist : List (P.Event ε)} {x : Except ε α} (hcall : c.calls id = some ⟨op, hist, .settled x⟩) :
    c'.calls id = some ⟨op, hist, .settled x⟩ := by
  induction ls generalizing c with
  | nil => cases h; exact hcall
  | cons l ls ih =>
    rw [S.runs_cons, Option.bind_eq_some_iff] at h
    obtain ⟨c₁, h₁, h₂⟩ := h
    exact ih h₂ (step_settled h₁ hcall)

/-- The turns of a call. -/
def turns (id : Nat) (ls : List (Label ι Op)) : Nat := ls.countP fun l => l.id = id

/-- A suspended call that waits at most `n` more times has settled after more
than `n` turns. -/
theorem settles {ls : List (Label ι Op)} (h : S.runs c ls = some c') {id : Nat} {op : Op} {n : Nat}
    {hist : List (P.Event ε)} {k : σ → Proc P ε α} (hcall : c.calls id = some ⟨op, hist, .suspended k⟩)
    (hk : ∀ t, (k t).Within n) (hturns : n < turns id ls) : ∃ x, c'.Settled id op x := by
  induction ls generalizing c n hist k with
  | nil => exact absurd hturns (Nat.not_lt_zero n)
  | cons l ls ih =>
    rw [S.runs_cons, Option.bind_eq_some_iff] at h
    obtain ⟨c₁, h₁, h₂⟩ := h
    obtain ⟨τ⟩ := S.step_turn h₁
    by_cases hid : id = l.id
    · subst hid
      have hcount : turns l.id (l :: ls) = turns l.id ls + 1 := by simp [turns]
      have hown := τ.own
      rcases τ.origin with ⟨-, hnone, -⟩ | ⟨-, -, k', hcall', hp⟩
      · rw [hnone] at hcall
        cases hcall
      rw [hcall'] at hcall
      obtain ⟨rfl, rfl, hsame⟩ := Call.mk.inj (Option.some.inj hcall)
      cases hsame
      cases hstatus : (S.advance τ.input τ.program τ.history τ.state).status with
      | settled x =>
        rw [hstatus] at hown
        exact ⟨x, _, runs_settled h₂ hown⟩
      | suspended k'' =>
        obtain ⟨hpos, hk''⟩ := advance_within (hp ▸ hk τ.state) hstatus
        rw [hstatus] at hown
        exact ih h₂ hown hk'' (by omega)
    · have hcount : turns id (l :: ls) = turns id ls := by simp [turns, Ne.symm hid]
      exact ih h₂ ((τ.other hid).trans hcall) hk (hcount ▸ hturns)

/-- The calls in flight wait at most as often as their programs do. -/
theorem runs_within {op : Op} {n : Nat} (hprog : (S.program op).Within n) {ls : List (Label ι Op)}
    (hc : ∀ {id hist k}, c.calls id = some ⟨op, hist, .suspended k⟩ → ∀ t, (k t).Within n)
    (h : S.runs c ls = some c') {id : Nat} {hist : List (P.Event ε)} {k : σ → Proc P ε α}
    (hcall : c'.calls id = some ⟨op, hist, .suspended k⟩) : ∀ t, (k t).Within n := by
  induction ls generalizing c with
  | nil => cases h; exact hc hcall
  | cons l ls ih =>
    rw [S.runs_cons, Option.bind_eq_some_iff] at h
    obtain ⟨c₁, h₁, h₂⟩ := h
    refine ih (fun {id hist k} hcall₁ => ?_) h₂
    obtain ⟨τ⟩ := S.step_turn h₁
    by_cases hid : id = l.id
    · subst hid
      rw [τ.own, Option.some.injEq, Call.mk.injEq] at hcall₁
      obtain ⟨rfl, -, hk⟩ := hcall₁
      have hp : τ.program.Within n := by
        rcases τ.origin with ⟨-, -, -, hp, -⟩ | ⟨-, -, k', hcall', hp⟩
        · exact hp ▸ hprog
        · exact hp ▸ hc hcall' τ.state
      exact fun t => ((advance_within hp hk).2 t).mono (Nat.sub_le n 1)
    · exact hc ((τ.other hid).symm.trans hcall₁)

/-- After `ls`, a call in flight has taken as many turns, and waits at most as
often as is left of `n`. -/
def Spent (n : Nat) (ls : List (Label ι Op)) (c : Config P ε α σ Op) : Prop :=
  (∀ id, c.calls id = none → turns id ls = 0) ∧
    ∀ id op h k, c.calls id = some ⟨op, h, .suspended k⟩ →
      turns id ls ≤ n ∧ ∀ t, (k t).Within (n - turns id ls)

theorem turns_concat_self (ls : List (Label ι Op)) (l : Label ι Op) :
    turns l.id (ls ++ [l]) = turns l.id ls + 1 := by
  simp [turns]

theorem turns_concat_of_ne (ls : List (Label ι Op)) {l : Label ι Op} {id : Nat} (hid : id ≠ l.id) :
    turns id (ls ++ [l]) = turns id ls := by
  simp [turns, Ne.symm hid]

theorem step_spent {n : Nat} (hprog : ∀ op, (S.program op).Within n) {ls : List (Label ι Op)}
    {l : Label ι Op} (hc : Spent n ls c) (h : S.step c l = some c') : Spent n (ls ++ [l]) c' := by
  obtain ⟨τ⟩ := S.step_turn h
  constructor
  · intro id hnone
    have hid : id ≠ l.id := by
      rintro rfl
      rw [τ.own] at hnone
      cases hnone
    rw [turns_concat_of_ne ls hid]
    exact hc.1 id ((τ.other hid).symm.trans hnone)
  · intro id op hist k hcall
    by_cases hid : id = l.id
    · subst hid
      rw [τ.own, Option.some.injEq, Call.mk.injEq] at hcall
      obtain ⟨rfl, -, hk⟩ := hcall
      have hbefore : turns l.id ls ≤ n ∧ τ.program.Within (n - turns l.id ls) := by
        rcases τ.origin with ⟨-, hnew, -, hp, -⟩ | ⟨-, -, k', hcall', hp⟩
        · rw [hc.1 _ hnew, hp]
          exact ⟨Nat.zero_le n, hprog τ.op⟩
        · obtain ⟨hle, hwithin⟩ := hc.2 _ _ _ _ hcall'
          exact ⟨hle, hp ▸ hwithin τ.state⟩
      obtain ⟨hpos, hrest⟩ := advance_within hbefore.2 hk
      rw [turns_concat_self]
      exact ⟨Nat.lt_of_sub_pos hpos, fun t => Nat.sub_sub n _ 1 ▸ hrest t⟩
    · rw [turns_concat_of_ne ls hid]
      exact hc.2 id op hist k ((τ.other hid).symm.trans hcall)

theorem runs_spent {n : Nat} (hprog : ∀ op, (S.program op).Within n) {ls₀ ls : List (Label ι Op)}
    (hc : Spent n ls₀ c) (h : S.runs c ls = some c') : Spent n (ls₀ ++ ls) c' := by
  induction ls generalizing c ls₀ with
  | nil => cases h; exact (List.append_nil ls₀).symm ▸ hc
  | cons l ls ih =>
    rw [S.runs_cons, Option.bind_eq_some_iff] at h
    obtain ⟨c₁, h₁, h₂⟩ := h
    have hrest := ih (step_spent hprog hc h₁) h₂
    rwa [List.append_assoc] at hrest

/-- A call has settled after more turns than its program waits. -/
theorem settled_of_turns {n : Nat} (hprog : ∀ op, (S.program op).Within n) {s : σ} {ls : List (Label ι Op)}
    (h : S.runs (.idle s) ls = some c) {id : Nat} {call : Call P ε α σ Op} (hcall : c.calls id = some call)
    (hturns : n < turns id ls) : ∃ x, call.status = .settled x := by
  obtain ⟨op, hist, status⟩ := call
  cases status with
  | settled x => exact ⟨x, rfl⟩
  | suspended k =>
    have hidle : Spent n ([] : List (Label ι Op)) (Config.idle s : Config P ε α σ Op) :=
      ⟨fun _ _ => rfl, fun _ _ _ _ hcall => by cases hcall⟩
    have hspent := runs_spent hprog hidle h
    exact absurd (hspent.2 _ _ _ _ hcall).1 (Nat.not_le.mpr hturns)

end System

end Async
