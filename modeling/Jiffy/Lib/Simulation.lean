-- SUMMARY: Two adapters side by side: a program that is answered alike by both comes out alike on both.
import Jiffy.Lib.Proc

/-!
# Simulation

Two programs, each run to its end over an adapter of its own. `Relational`
compares two runs over one adapter; here the adapters may differ in their
states, their errors and the answers they give.
-/

namespace Async

variable {P O : Interface} {ε ε' σ τ ι κ α β γ δ : Type}

/-- Both rejected or both resolved, with related results, in related states. -/
inductive Agree (E : ε → ε' → Prop) (Q : α → β → Prop) (R : σ → τ → Prop) :
    Except ε α × σ → Except ε' β × τ → Prop where
  | error {e : ε} {e' : ε'} {s : σ} {t : τ} (hE : E e e') (hR : R s t) :
    Agree E Q R (.error e, s) (.error e', t)
  | ok {a : α} {b : β} {s : σ} {t : τ} (hQ : Q a b) (hR : R s t) : Agree E Q R (.ok a, s) (.ok b, t)

namespace Agree

variable {E : ε → ε' → Prop} {Q : α → β → Prop} {R R' : σ → τ → Prop} {S : γ → δ → Prop}

theorem mono {Q' : α → β → Prop} (hQ : ∀ {a b}, Q a b → Q' a b) (hR : ∀ {s t}, R s t → R' s t)
    {x : Except ε α × σ} {y : Except ε' β × τ} (h : Agree E Q R x y) : Agree E Q' R' x y := by
  cases h with
  | error hE hs => exact .error hE (hR hs)
  | ok ha hs => exact .ok (hQ ha) (hR hs)

variable {A : Adapter P ε σ ι} {B : Adapter O ε' τ κ} {i : ι} {j : κ} {s : σ} {t : τ}

theorem ret {a : α} {b : β} (hQ : Q a b) (hR : R s t) :
    Agree E Q R (A.run i (.ret a) s) (B.run j (.ret b) t) := .ok hQ hR

theorem throw {e : ε} {e' : ε'} (hE : E e e') (hR : R s t) :
    Agree E Q R (A.run i (.throw e : Proc P ε α) s) (B.run j (.throw e' : Proc O ε' β) t) := .error hE hR

theorem request {r : P.Req} {r' : O.Req} {Q : P.Resp r → O.Resp r' → Prop}
    (h : Agree E Q R (A.perform i r s) (B.perform j r' t)) :
    Agree E Q R (A.run i (Proc.request r) s) (B.run j (Proc.request r') t) := by
  rw [A.run_request, B.run_request]
  exact h

theorem perform {r : P.Req} {r' : O.Req} {Q : P.Resp r → O.Resp r' → Prop}
    (h : Agree E Q R (A.perform i r s) (B.perform j r' t)) :
    Agree E Q R (A.run i (Proc.perform r) s) (B.run j (Proc.perform r') t) := by
  rw [A.run_perform, B.run_perform]
  exact h

/-- A composition: the first parts may leave states that are related more
closely than the rest needs. -/
theorem bind {p : Proc P ε α} {q : Proc O ε' β} {f : α → Proc P ε γ} {g : β → Proc O ε' δ}
    (h : Agree E Q R (A.run i p s) (B.run j q t)) (hR : ∀ {s t}, R s t → R' s t)
    (hfg : ∀ {a b s t}, Q a b → R s t → Agree E S R' (A.run i (f a) s) (B.run j (g b) t)) :
    Agree E S R' (A.run i (p.bind f) s) (B.run j (q.bind g) t) := by
  rw [A.run_bind, B.run_bind]
  cases hp : A.run i p s with
  | mk x s' =>
    cases hq : B.run j q t with
    | mk y t' =>
      rw [hp, hq] at h
      cases h with
      | error hE hs => exact .error hE (hR hs)
      | ok ha hs => exact hfg ha hs

theorem map {f : α → γ} {g : β → δ} {p : Proc P ε α} {q : Proc O ε' β}
    (h : Agree E Q R (A.run i p s) (B.run j q t)) (hfg : ∀ {a b}, Q a b → S (f a) (g b)) :
    Agree E S R (A.run i (p.bind fun a => .ret (f a)) s) (B.run j (q.bind fun b => .ret (g b)) t) :=
  h.bind (fun hR => hR) fun ha hR => .ok (hfg ha) hR

end Agree

end Async
