-- SUMMARY: Relational triples: two programs run side by side from related states.
import Jiffy.Lib.Proc

/-!
# Relational triples

Two programs, each run to its end on a state of its own. From related states
they come out the same way, with related values and related states again.
-/

namespace Async

variable {P : Interface} {ε σ ι α β γ δ : Type}

/-- Both reject with one error, or both resolve, with values that `Q` relates. -/
inductive SameOutcome (Q : α → β → Prop) : Except ε α → Except ε β → Prop where
  | error (e : ε) : SameOutcome Q (.error e) (.error e)
  | ok {a : α} {b : β} (h : Q a b) : SameOutcome Q (.ok a) (.ok b)

namespace SameOutcome

theorem mono {Q Q' : α → β → Prop} {x : Except ε α} {y : Except ε β} (h : SameOutcome Q x y)
    (hQ : ∀ {a b}, Q a b → Q' a b) : SameOutcome Q' x y := by
  cases h with
  | error e => exact .error e
  | ok h => exact .ok (hQ h)

theorem of_eq {x y : Except ε α} (h : x = y) : SameOutcome (fun a b => a = b) x y := by
  subst h
  cases x with
  | error e => exact .error e
  | ok a => exact .ok rfl

theorem eq {Q : α → α → Prop} {x y : Except ε α} (h : SameOutcome Q x y)
    (hQ : ∀ {a b}, Q a b → a = b) : x = y := by
  cases h with
  | error e => rfl
  | ok h => rw [hQ h]

end SameOutcome

namespace Adapter

variable (A : Adapter P ε σ ι) {R : σ → σ → Prop} {Q : α → β → Prop} {S : γ → δ → Prop}

/-- From states that `R` relates, `p` and `q` end the same way in states that `R`
relates, with values that `Q` relates. -/
def Relates (R : σ → σ → Prop) (Q : α → β → Prop) (p : Proc P ε α) (q : Proc P ε β) : Prop :=
  ∀ i s t, R s t →
    SameOutcome Q (A.run i p s).1 (A.run i q t).1 ∧ R (A.run i p s).2 (A.run i q t).2

variable {A}

theorem relates_ret {a : α} {b : β} (h : Q a b) : A.Relates R Q (.ret a) (.ret b) :=
  fun _ _ _ hR => ⟨.ok h, hR⟩

theorem relates_throw (e : ε) : A.Relates R Q (.throw e) (.throw e) :=
  fun _ _ _ hR => ⟨.error e, hR⟩

theorem relates_await {r q : P.Req} {Q : P.Resp r → P.Resp q → Prop}
    (h : ∀ i s t, R s t → SameOutcome Q (A.perform i r s).1 (A.perform i q t).1 ∧
      R (A.perform i r s).2 (A.perform i q t).2) :
    A.Relates R Q (Proc.request r) (Proc.request q) := by
  intro i s t hR
  obtain ⟨hout, hR'⟩ := h i s t hR
  simp only [Proc.request, run_await]
  revert hout
  generalize (A.perform i r s).1 = x, (A.perform i q t).1 = y
  rintro (e | hQ)
  · exact ⟨.error e, hR'⟩
  · exact ⟨.ok hQ, hR'⟩

theorem relates_sync {r q : P.Req} {Q : P.Resp r → P.Resp q → Prop}
    (h : ∀ i s t, R s t → SameOutcome Q (A.perform i r s).1 (A.perform i q t).1 ∧
      R (A.perform i r s).2 (A.perform i q t).2) :
    A.Relates R Q (Proc.perform r) (Proc.perform q) := by
  intro i s t hR
  obtain ⟨hout, hR'⟩ := h i s t hR
  simp only [Proc.perform, run_sync]
  revert hout
  generalize (A.perform i r s).1 = x, (A.perform i q t).1 = y
  rintro (e | hQ)
  · exact ⟨.error e, hR'⟩
  · exact ⟨.ok hQ, hR'⟩

theorem Relates.mono {Q' : α → β → Prop} {p : Proc P ε α} {q : Proc P ε β}
    (h : A.Relates R Q p q) (hQ : ∀ {a b}, Q a b → Q' a b) : A.Relates R Q' p q := by
  intro i s t hR
  obtain ⟨hout, hR'⟩ := h i s t hR
  exact ⟨hout.mono hQ, hR'⟩

theorem Relates.bind {p : Proc P ε α} {q : Proc P ε β} {f : α → Proc P ε γ} {g : β → Proc P ε δ}
    (h : A.Relates R Q p q) (hfg : ∀ {a b}, Q a b → A.Relates R S (f a) (g b)) :
    A.Relates R S (p.bind f) (q.bind g) := by
  intro i s t hR
  obtain ⟨hout, hR'⟩ := h i s t hR
  rw [run_bind, run_bind]
  cases hp : A.run i p s with
  | mk x s' =>
    cases hq : A.run i q t with
    | mk y t' =>
      rw [hp, hq] at hout hR'
      cases hout with
      | error e => exact ⟨.error e, hR'⟩
      | ok hQ => exact hfg hQ i s' t' hR'

theorem Relates.catching {p : Proc P ε α} {q : Proc P ε β} {f : ε → Proc P ε α}
    {g : ε → Proc P ε β} (h : A.Relates R Q p q) (hfg : ∀ e, A.Relates R Q (f e) (g e)) :
    A.Relates R Q (p.catching f) (q.catching g) := by
  intro i s t hR
  obtain ⟨hout, hR'⟩ := h i s t hR
  rw [run_catching, run_catching]
  cases hp : A.run i p s with
  | mk x s' =>
    cases hq : A.run i q t with
    | mk y t' =>
      rw [hp, hq] at hout hR'
      cases hout with
      | error e => exact hfg e i s' t' hR'
      | ok hQ => exact ⟨.ok hQ, hR'⟩

end Adapter

end Async
