-- SUMMARY: The fixed-window limiter of connection attempts, keyed by source address.
import Jiffy.Lib.OrderedMap
import Mathlib.Algebra.Order.Ring.Rat

/-!
# Connection rate limiter

`src/websocket/connection-rate-limiter.ts`. Its limit, its window and the
instants it is called with are finite numbers, and the difference of two
instants is exact, as it is for whole milliseconds.
-/

namespace Jiffy

structure RateWindow where
  count : Nat
  windowStart : ℚ
deriving DecidableEq, Repr

/-- The windows by key, with the two settings. -/
structure ConnectionRateLimiter where
  limit : ℚ
  windowMs : ℚ
  windows : OrderedMap String RateWindow

namespace ConnectionRateLimiter

def new (limit windowMs : ℚ) : ConnectionRateLimiter := ⟨limit, windowMs, .empty⟩

def allow (limiter : ConnectionRateLimiter) (key : String) (now : ℚ) : Bool × ConnectionRateLimiter :=
  match limiter.windows.get key with
  | none => (true, { limiter with windows := limiter.windows.set key ⟨1, now⟩ })
  | some window =>
    if now - window.windowStart ≥ limiter.windowMs then
      (true, { limiter with windows := limiter.windows.set key ⟨1, now⟩ })
    else if (window.count : ℚ) ≥ limiter.limit then
      (false, limiter)
    else
      (true, { limiter with windows := limiter.windows.set key { window with count := window.count + 1 } })

/-- The loop deletes from the map that it iterates over. -/
def sweep (limiter : ConnectionRateLimiter) (now : ℚ) : ConnectionRateLimiter :=
  { limiter with
    windows := limiter.windows.entries.foldl (fun windows entry =>
      if now - entry.2.windowStart ≥ limiter.windowMs then windows.delete entry.1 else windows)
      limiter.windows }

theorem get_sweep (limiter : ConnectionRateLimiter) (now : ℚ) (key : String) :
    (limiter.sweep now).windows.get key =
      (limiter.windows.get key).filter fun window => now - window.windowStart < limiter.windowMs := by
  have hloop := OrderedMap.get_foldl_entries
    (fun window : RateWindow => decide (now - window.windowStart ≥ limiter.windowMs)) limiter.windows key
  simp only [decide_eq_true_eq] at hloop
  exact hloop.trans (congrFun (congrArg Option.filter (funext fun window => by simp [← not_lt])) _)

end ConnectionRateLimiter

end Jiffy
