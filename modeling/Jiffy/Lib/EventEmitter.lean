-- SUMMARY: The listeners of one event of an `EventEmitter`, which tells functions apart by identity alone.
import Mathlib.Data.List.Basic
import Mathlib.Data.List.Perm.Basic

/-!
# Event emitters

The listeners of one event. A function that was added twice is listed twice,
and nothing tells its two instances apart.
-/

/-- The listeners, in the order they were added. -/
structure EventEmitter (H : Type) where
  listeners : List H
deriving DecidableEq

namespace EventEmitter

variable {H V : Type}

def new : EventEmitter H := ⟨[]⟩

/-- `emitter.on(event, listener)`. -/
def on (emitter : EventEmitter H) (listener : H) : EventEmitter H := ⟨emitter.listeners ++ [listener]⟩

/-- `emitter.off(event, listener)`: of the instances of the listener, if there
are any, the one that was added last goes. -/
def off [DecidableEq H] (emitter : EventEmitter H) (listener : H) : EventEmitter H :=
  ⟨(emitter.listeners.reverse.erase listener).reverse⟩

/-- `emitter.emit(event, value)`: the calls that are made, in order. -/
def emit (emitter : EventEmitter H) (value : V) : List (H × V) :=
  emitter.listeners.map fun listener => (listener, value)

variable [DecidableEq H] {emitter : EventEmitter H} {listener : H}

/-- Up to the order of the rest, it does not matter which instance goes. -/
theorem off_perm : (emitter.off listener).listeners.Perm (emitter.listeners.erase listener) :=
  (List.reverse_perm _).trans ((List.reverse_perm _).erase listener)

/-- Nothing goes exactly when there is no instance. -/
theorem off_eq_self_iff : emitter.off listener = emitter ↔ listener ∉ emitter.listeners := by
  cases emitter with
  | mk listeners =>
    rw [off, EventEmitter.mk.injEq, List.reverse_eq_iff, List.erase_eq_self_iff, List.mem_reverse]

end EventEmitter
