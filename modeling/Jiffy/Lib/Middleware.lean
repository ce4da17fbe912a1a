-- SUMMARY: Middlewares in a row: each answers a request or passes it on, and an error goes past the rest to one handler.
import Jiffy.Lib.Rules
import Jiffy.Lib.Turns

/-!
# Middlewares

A middleware takes a request as the ones before it left it. It answers, or
passes it on to the next. What it throws goes to the error handler, together
with the request as the middleware got it.
-/

namespace Async

variable {P : Interface} {ε ρ : Type}

/-- `none` where the request has been answered. -/
abbrev Middleware (P : Interface) (ε ρ : Type) : Type := ρ → Proc P ε (Option ρ)

/-- The middlewares in order. -/
def chain (onError : ε → ρ → Proc P ε Unit) : List (Middleware P ε ρ) → ρ → Proc P ε Unit
  | [], _ => .ret ()
  | m :: ms, x => (m x).settle.bind fun
    | .ok (some y) => chain onError ms y
    | .ok none => .ret ()
    | .error e => onError e x

variable {onError : ε → ρ → Proc P ε Unit} {m : Middleware P ε ρ} {ms : List (Middleware P ε ρ)} {x : ρ}

/-- What is left to show where a middleware has ended. -/
def Passed (R : Rules P ε) (Q : Ending P ε Unit) (onError : ε → ρ → Proc P ε Unit)
    (ms : List (Middleware P ε ρ)) (x : ρ) : Ending P ε (Option ρ) := fun r h =>
  match r with
  | .ok (some y) => (chain onError ms y).Keeps R Q h
  | .ok none => Q (.ok ()) h
  | .error e => (onError e x).Keeps R Q h

/-- A chain keeps rules if its first middleware does, and ends with the rest
keeping them. -/
theorem Proc.Keeps.chain_cons {R : Rules P ε} {Q : Ending P ε Unit} {h : List (P.Event ε)}
    (hm : (m x).Keeps R (Passed R Q onError ms x) h) : (chain onError (m :: ms) x).Keeps R Q h := by
  refine bind (settle (mono ?_ hm))
  intro r h hr
  cases r with
  | error e => exact hr
  | ok next =>
    cases next with
    | none => exact hr
    | some y => exact hr

theorem Proc.Within.chain_cons {j n : Nat} (hm : (m x).Within j)
    (hnext : ∀ y, (chain onError ms y).Within n) (herror : ∀ e, (onError e x).Within n) :
    (chain onError (m :: ms) x).Within (j + n) := by
  refine bind hm.settle fun r => ?_
  cases r with
  | error e => exact herror e
  | ok next =>
    cases next with
    | none => trivial
    | some y => exact hnext y

/-- A chain runs its first middleware, then what that leaves to do. -/
theorem Adapter.run_chain_cons {σ ι : Type} (A : Adapter P ε σ ι) (i : ι) (s : σ) :
    A.run i (chain onError (m :: ms) x) s =
      match A.run i (m x) s with
      | (.ok (some y), s') => A.run i (chain onError ms y) s'
      | (.ok none, s') => (.ok (), s')
      | (.error e, s') => A.run i (onError e x) s' := by
  rw [chain, run_bind, run_settle]
  cases A.run i (m x) s with
  | mk r s' =>
    cases r with
    | error e => rfl
    | ok next => cases next <;> rfl

end Async
