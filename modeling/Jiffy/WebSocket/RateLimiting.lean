-- SUMMARY: Runs of the connection limiter: it answers as one fixed-window counter per key, and what it admits in an interval.
import Jiffy.Lib.FixedWindow
import Jiffy.Lib.Machine
import Jiffy.WebSocket.ConnectionRateLimiter
import Mathlib.Data.Rat.Floor

/-!
# Rate limiting

Attempts and sweeps in any order, at instants that never go back. Every key
has a counter of its own, which no sweep touches; the limiter forgets the
window of a key only when the counter would open a new one anyway.
-/

namespace Jiffy

open FixedWindow

namespace ConnectionRateLimiter

/-- A call of the limiter, with its instant. -/
inductive Call where
  | allow (key : String) (now : ℚ)
  | sweep (now : ℚ)

def Call.now : Call → ℚ
  | .allow _ now => now
  | .sweep now => now

/-- The answer to an attempt. A sweep has none. -/
def machine : Machine ConnectionRateLimiter Call (Option Bool) where
  step call limiter :=
    match call with
    | .allow key now =>
      let (answer, limiter) := limiter.allow key now
      some (some answer, limiter)
    | .sweep now => some (none, limiter.sweep now)

abbrev Event := Machine.Event ConnectionRateLimiter Call (Option Bool)

/-- Time never goes back. -/
def InOrder (es : List Event) : Prop := (es.map fun e => e.input.now).Pairwise (· ≤ ·)

/-- The instant of an attempt of `key`. -/
def timeOf (key : String) (e : Event) : Option ℚ :=
  match e.input with
  | .allow k now => if k = key then some now else none
  | .sweep _ => none

theorem timeOf_eq {key : String} {e : Event} {t : ℚ} (h : t ∈ timeOf key e) : t = e.input.now := by
  unfold timeOf at h
  cases hcall : e.input with
  | allow k now =>
    rw [hcall] at h
    exact (Option.ite_some_none_eq_some.mp h).2.symm
  | sweep now =>
    rw [hcall] at h
    cases h

/-- The attempts of `key`. -/
def timesOf (key : String) (es : List Event) : List ℚ := es.filterMap (timeOf key)

/-- The attempts of `key`, each with its answer. -/
def answersOf (key : String) (es : List Event) : List (ℚ × Bool) :=
  es.filterMap fun e => (timeOf key e).bind fun now => e.output.map (Prod.mk now)

-- ---------------------------------------------------------------------------
-- One key
-- ---------------------------------------------------------------------------

/-- The stored window of a key counts what its counter does, up to the limit. -/
structure Tracks (limit : ℚ) (window : RateWindow) (w : Window ℚ) : Prop where
  start : window.windowStart = w.opened
  le : window.count ≤ w.attempts
  counts : (window.count : ℚ) < limit → window.count = w.attempts

/-- What the limiter stores of a key at `now`, against the counter of the key. -/
inductive Follows (limit windowMs now : ℚ) : Option RateWindow → Option (Window ℚ) → Prop where
  | unseen : Follows limit windowMs now none none
  | stored {window : RateWindow} {w : Window ℚ} (tracks : Tracks limit window w) :
    Follows limit windowMs now (some window) (some w)
  | swept {w : Window ℚ} (ended : w.opened + windowMs ≤ now) :
    Follows limit windowMs now none (some w)

section Step

variable {limit windowMs now now' : ℚ} {limiter : ConnectionRateLimiter} {key : String}
  {current : Option (Window ℚ)} {stored : Option RateWindow}

theorem Follows.later (h : Follows limit windowMs now stored current) (hnow : now ≤ now') :
    Follows limit windowMs now' stored current := by
  cases h with
  | unseen => exact .unseen
  | stored tracks => exact .stored tracks
  | swept ended => exact .swept (ended.trans hnow)

/-- A window that is stored anew. -/
theorem tracks_new (limit now : ℚ) : Tracks limit ⟨1, now⟩ (⟨now, 0⟩ : Window ℚ).attempt :=
  ⟨rfl, le_refl 1, fun _ => rfl⟩

theorem allow_opens (h : ∀ window ∈ limiter.windows.get key, limiter.windowMs ≤ now - window.windowStart) :
    limiter.allow key now = (true, { limiter with windows := limiter.windows.set key ⟨1, now⟩ }) := by
  unfold allow
  cases hget : limiter.windows.get key with
  | none => rfl
  | some window => exact if_pos (h window hget)

theorem allow_covered {window : RateWindow} (hget : limiter.windows.get key = some window)
    (h : now - window.windowStart < limiter.windowMs) : limiter.allow key now =
      if (window.count : ℚ) ≥ limiter.limit then (false, limiter)
      else (true, ⟨limiter.limit, limiter.windowMs,
        limiter.windows.set key ⟨window.count + 1, window.windowStart⟩⟩) := by
  unfold allow
  rw [hget]
  exact if_neg (not_le.mpr h)

/-- A window that is not over for the limiter takes in the attempt. -/
theorem Tracks.allow {window : RateWindow} {w : Window ℚ} (h : Tracks limiter.limit window w)
    (hget : limiter.windows.get key = some window) (hcovers : now - window.windowStart < limiter.windowMs) :
    (limiter.allow key now).1 = w.admits limiter.limit ∧
      ∃ window', (limiter.allow key now).2.windows.get key = some window' ∧
        Tracks limiter.limit window' w.attempt := by
  rw [allow_covered hget hcovers]
  by_cases hfull : (window.count : ℚ) ≥ limiter.limit
  · rw [if_pos hfull]
    have hattempts : limiter.limit ≤ (w.attempts : ℚ) := hfull.le.trans (Nat.cast_le.mpr h.le)
    refine ⟨(decide_eq_false (not_lt.mpr hattempts)).symm, window, hget, h.start, ?_, ?_⟩
    · exact h.le.trans (Nat.le_succ _)
    · exact fun hlt => absurd hfull (not_le.mpr hlt)
  · rw [if_neg hfull]
    have hexact := h.counts (not_le.mp hfull)
    refine ⟨?_, _, (OrderedMap.get_set limiter.windows key key _).trans (if_pos rfl), h.start, ?_,
      fun _ => ?_⟩
    · exact (decide_eq_true (hexact ▸ not_le.mp hfull)).symm
    · exact Nat.succ_le_succ h.le
    · exact congrArg (· + 1) hexact

/-- The limiter answers an attempt as the counter does, and goes on following it. -/
theorem Follows.allow (hlimit : 0 < limiter.limit)
    (h : Follows limiter.limit limiter.windowMs now (limiter.windows.get key) current)
    (hnow : now ≤ now') :
    (limiter.allow key now').1 = (windowAt limiter.windowMs current now').admits limiter.limit ∧
      Follows limiter.limit limiter.windowMs now' ((limiter.allow key now').2.windows.get key)
        (some (windowAt limiter.windowMs current now').attempt) := by
  -- where the limiter opens a window, so does the counter
  have hopens (hover : ∀ window ∈ limiter.windows.get key, limiter.windowMs ≤ now' - window.windowStart)
      (hfresh : windowAt limiter.windowMs current now' = ⟨now', 0⟩) :
      (limiter.allow key now').1 = (windowAt limiter.windowMs current now').admits limiter.limit ∧
        Follows limiter.limit limiter.windowMs now' ((limiter.allow key now').2.windows.get key)
          (some (windowAt limiter.windowMs current now').attempt) := by
    rw [allow_opens hover, hfresh, OrderedMap.get_set, if_pos rfl]
    exact ⟨by simpa [Window.admits] using hlimit, .stored (tracks_new _ _)⟩
  generalize hget : limiter.windows.get key = stored at h
  cases h with
  | unseen =>
    apply hopens
    · simp [hget]
    · rfl
  | swept ended =>
    apply hopens
    · simp [hget]
    · exact windowAt_over (ended.trans hnow)
  | @stored window w tracks =>
    by_cases hcovers : now' - window.windowStart < limiter.windowMs
    · obtain ⟨hanswer, window', hget', htracks⟩ := tracks.allow hget hcovers
      rw [windowAt_covered (by rw [← tracks.start]; exact sub_lt_iff_lt_add'.mp hcovers), hget']
      exact ⟨hanswer, .stored htracks⟩
    · apply hopens
      · intro window' hwindow
        rw [hget, Option.mem_some_iff] at hwindow
        exact hwindow ▸ not_lt.mp hcovers
      · apply windowAt_over
        rw [← tracks.start]
        exact le_sub_iff_add_le'.mp (not_lt.mp hcovers)

/-- An attempt leaves the other keys alone. -/
theorem get_allow_of_ne {key' : String} (hne : key' ≠ key) :
    (limiter.allow key now).2.windows.get key' = limiter.windows.get key' := by
  unfold allow
  repeat' split
  all_goals simp [hne]

theorem settings_allow (limiter : ConnectionRateLimiter) (key : String) (now : ℚ) :
    (limiter.allow key now).2.limit = limiter.limit ∧
      (limiter.allow key now).2.windowMs = limiter.windowMs := by
  unfold allow
  repeat' split
  all_goals exact ⟨rfl, rfl⟩

/-- A sweep takes away the windows that are over. -/
theorem Follows.sweep (h : Follows limit limiter.windowMs now (limiter.windows.get key) current)
    (hnow : now ≤ now') :
    Follows limit limiter.windowMs now' ((limiter.sweep now').windows.get key) current := by
  rw [get_sweep]
  generalize hget : limiter.windows.get key = stored at h
  cases h with
  | unseen => exact .unseen
  | swept ended => exact .swept (ended.trans hnow)
  | @stored window w tracks =>
    by_cases hcovers : now' - window.windowStart < limiter.windowMs
    · rw [Option.filter_some_pos (by simpa using hcovers)]
      exact .stored tracks
    · rw [Option.filter_some_neg (by simpa using hcovers)]
      apply Follows.swept
      rw [← tracks.start]
      exact le_sub_iff_add_le'.mp (not_lt.mp hcovers)

/-- And leaves those that are not. -/
theorem Follows.held_after_sweep
    (h : Follows limit limiter.windowMs now (limiter.windows.get key) current) (hnow : now ≤ now') :
    ((limiter.sweep now').windows.get key).isSome ↔
      ∃ w, current = some w ∧ now' - w.opened < limiter.windowMs := by
  rw [get_sweep]
  generalize hget : limiter.windows.get key = stored at h
  cases h with
  | unseen => simp
  | @swept w ended =>
    have hover : ¬ now' - w.opened < limiter.windowMs :=
      not_lt.mpr (le_sub_iff_add_le'.mpr (ended.trans hnow))
    simp [hover]
  | @stored window w tracks =>
    rw [Option.isSome_filter]
    simp [tracks.start]

end Step

-- ---------------------------------------------------------------------------
-- Runs
-- ---------------------------------------------------------------------------

theorem inOrder_append {es es' : List Event} : InOrder (es ++ es') ↔
    InOrder es ∧ InOrder es' ∧ ∀ e ∈ es, ∀ e' ∈ es', e.input.now ≤ e'.input.now := by
  simp only [InOrder, List.pairwise_map, List.pairwise_append]

/-- How the limiter stands with one key after `es`. -/
structure OfKey (key : String) (es : List Event) (limiter : ConnectionRateLimiter) : Prop where
  answers : answersOf key es = answered limiter.limit limiter.windowMs none (timesOf key es)
  follows {now : ℚ} (hnow : ∀ e ∈ es, e.input.now ≤ now) :
    Follows limiter.limit limiter.windowMs now (limiter.windows.get key)
      (latest limiter.windowMs none (timesOf key es))

section Runs

variable {limit windowMs now : ℚ} {es : List Event} {e : Event} {limiter limiter' : ConnectionRateLimiter}
  {key : String} {answer : Bool}

theorem timesOf_skip (h : timeOf key e = none) : timesOf key (es ++ [e]) = timesOf key es := by
  simp [timesOf, h]

theorem answersOf_skip (h : timeOf key e = none) : answersOf key (es ++ [e]) = answersOf key es := by
  simp [answersOf, h]

theorem timesOf_attempt (h : timeOf key e = some now) :
    timesOf key (es ++ [e]) = timesOf key es ++ [now] := by
  simp [timesOf, h]

theorem answersOf_attempt (h : timeOf key e = some now) (ho : e.output = some answer) :
    answersOf key (es ++ [e]) = answersOf key es ++ [(now, answer)] := by
  simp [answersOf, h, ho]

/-- To follow at the last instant is to follow from then on. -/
theorem follows_since {stored : Option RateWindow} {current : Option (Window ℚ)}
    (hnow : ∀ e' ∈ es ++ [e], e'.input.now ≤ now) (h : Follows limit windowMs e.input.now stored current) :
    Follows limit windowMs now stored current :=
  h.later (hnow e (List.mem_append_right _ List.mem_cons_self))

theorem OfKey.sweep (h : OfKey key es limiter) (hnow : ∀ e ∈ es, e.input.now ≤ now) :
    OfKey key (es ++ [⟨limiter, .sweep now, none, limiter.sweep now⟩]) (limiter.sweep now) where
  answers := by
    rw [answersOf_skip rfl, timesOf_skip rfl]
    exact h.answers
  follows := by
    intro now' hnow'
    rw [timesOf_skip rfl]
    exact follows_since hnow' ((h.follows hnow).sweep (le_refl now))

theorem OfKey.allow (hlimit : 0 < limiter.limit) (h : OfKey key es limiter) {k : String}
    (hnow : ∀ e ∈ es, e.input.now ≤ now) :
    OfKey key (es ++ [⟨limiter, .allow k now, some (limiter.allow k now).1, (limiter.allow k now).2⟩])
      (limiter.allow k now).2 := by
  obtain ⟨hlimit', hwindow'⟩ := settings_allow limiter k now
  by_cases hk : k = key
  · subst hk
    have htime : timeOf k ⟨limiter, .allow k now, some (limiter.allow k now).1,
      (limiter.allow k now).2⟩ = some now := if_pos rfl
    obtain ⟨hanswer, hfollows⟩ := (h.follows hnow).allow hlimit (le_refl now)
    constructor
    · rw [answersOf_attempt htime rfl, timesOf_attempt htime, answered_concat, h.answers, hlimit', hwindow',
        hanswer]
    · intro now' hnow'
      rw [timesOf_attempt htime, latest_concat, hlimit', hwindow']
      exact follows_since hnow' hfollows
  · have htime : timeOf key ⟨limiter, .allow k now, some (limiter.allow k now).1,
      (limiter.allow k now).2⟩ = none := if_neg hk
    constructor
    · rw [answersOf_skip htime, timesOf_skip htime, hlimit', hwindow']
      exact h.answers
    · intro now' hnow'
      rw [timesOf_skip htime, get_allow_of_ne (Ne.symm hk), hlimit', hwindow']
      exact follows_since hnow' (h.follows hnow)

/-- The settings stay, and the limiter stands well with every key. -/
structure Answering (limit windowMs : ℚ) (es : List Event) (limiter : ConnectionRateLimiter) : Prop where
  limit_eq : limiter.limit = limit
  windowMs_eq : limiter.windowMs = windowMs
  ofKey (key : String) : OfKey key es limiter

theorem answering_new (limit windowMs : ℚ) : Answering limit windowMs [] (.new limit windowMs) :=
  ⟨rfl, rfl, fun _ => ⟨rfl, fun _ => .unseen⟩⟩

theorem Answering.step {call : Call} {answer : Option Bool} (hlimit : 0 < limit)
    (h : Answering limit windowMs es limiter) (hstep : machine.step call limiter = some (answer, limiter'))
    (hnow : ∀ e ∈ es, e.input.now ≤ call.now) :
    Answering limit windowMs (es ++ [⟨limiter, call, answer, limiter'⟩]) limiter' := by
  obtain ⟨rfl, rfl, hkeys⟩ := h
  cases call with
  | sweep now =>
    cases hstep
    exact ⟨rfl, rfl, fun key => (hkeys key).sweep hnow⟩
  | allow k now =>
    cases hstep
    obtain ⟨hlimit', hwindow'⟩ := settings_allow limiter k now
    exact ⟨hlimit', hwindow', fun key => (hkeys key).allow hlimit hnow⟩

theorem answering (hlimit : 0 < limit) (hrun : machine.Run (.new limit windowMs) es limiter)
    (horder : InOrder es) : Answering limit windowMs es limiter := by
  refine hrun.inv (I := fun es limiter => InOrder es → Answering limit windowMs es limiter)
    (fun _ => answering_new limit windowMs) (fun ih hstep horder => ?_) horder
  obtain ⟨hbefore, -, hnow⟩ := inOrder_append.mp horder
  exact (ih hbefore).step hlimit hstep fun e he => hnow e he _ (List.mem_singleton.mpr rfl)

theorem answersOf_eq (hlimit : 0 < limit) (hrun : machine.Run (.new limit windowMs) es limiter)
    (horder : InOrder es) (key : String) :
    answersOf key es = answered limit windowMs none (timesOf key es) := by
  obtain ⟨rfl, rfl, hkeys⟩ := answering hlimit hrun horder
  exact (hkeys key).answers

/-- The attempts of a key are in order, too. -/
theorem pairwise_timesOf (horder : InOrder es) (key : String) :
    (timesOf key es).Pairwise (· ≤ ·) := by
  apply List.Pairwise.filterMap _ _ (List.pairwise_map.mp horder)
  intro e e' hle t ht t' ht'
  rw [timeOf_eq ht, timeOf_eq ht']
  exact hle

/-- Which keys a sweep leaves in the map. -/
theorem held_after_sweep (hlimit : 0 < limit) (hrun : machine.Run (.new limit windowMs) es limiter)
    (horder : InOrder es) (key : String) : ∀ es₁ e es₂, es = es₁ ++ e :: es₂ →
      ∀ now, e.input = .sweep now → ((e.after.windows.get key).isSome ↔
        ∃ w, latest windowMs none (timesOf key es₁) = some w ∧ now - w.opened < windowMs) := by
  have hprefix := hrun.prefixes (P := fun es₁ e => InOrder (es₁ ++ [e]) → ∀ now, e.input = .sweep now →
      ((e.after.windows.get key).isSome ↔
        ∃ w, latest windowMs none (timesOf key es₁) = some w ∧ now - w.opened < windowMs)) ?_
  · intro es₁ e es₂ hes
    have horder' : InOrder ((es₁ ++ [e]) ++ es₂) := by simpa [hes] using horder
    exact hprefix es₁ e es₂ hes (inOrder_append.mp horder').1
  · intro es₁ limiter call answer limiter' hrun hstep horder now hcall
    obtain rfl : call = .sweep now := hcall
    cases hstep
    obtain ⟨hbefore, -, hnow⟩ := inOrder_append.mp horder
    obtain ⟨-, rfl, hkeys⟩ := answering hlimit hrun hbefore
    have hfollows := (hkeys key).follows fun e he => hnow e he _ (List.mem_singleton.mpr rfl)
    exact hfollows.held_after_sweep (le_refl now)

/-- The limiter answers the attempts of a key as a counter that is fed with them
alone, so that neither sweeps nor other keys change an answer; and a sweep
leaves exactly the keys whose window is not over. -/
theorem runs_fixedWindow (hlimit : 1 ≤ limit) (hrun : machine.Run (.new limit windowMs) es limiter)
    (horder : InOrder es) (key : String) :
    answersOf key es = answered limit windowMs none (timesOf key es) ∧
      (∀ es' limiter', machine.Run (.new limit windowMs) es' limiter' → InOrder es' →
        timesOf key es' = timesOf key es → answersOf key es' = answersOf key es) ∧
      ∀ es₁ e es₂, es = es₁ ++ e :: es₂ → ∀ now, e.input = .sweep now →
        ((e.after.windows.get key).isSome ↔
          ∃ w, latest windowMs none (timesOf key es₁) = some w ∧ now - w.opened < windowMs) := by
  have hpos : 0 < limit := lt_of_lt_of_le zero_lt_one hlimit
  have hanswers := answersOf_eq hpos hrun horder key
  refine ⟨hanswers, fun es' limiter' hrun' horder' htimes => ?_, held_after_sweep hpos hrun horder key⟩
  rw [answersOf_eq hpos hrun' horder' key, htimes, hanswers]

/-- Two attempts in one window, a sweep while it lasts, another key, and a sweep
at the instant the window is over. -/
theorem runs_fixedWindow_swept : ∃ es limiter, machine.Run (.new 1 10) es limiter ∧
    answersOf "a" es = [(0, true), (9, false), (10, true)] ∧
    answersOf "a" es = answered 1 10 none (timesOf "a" es) := by
  have hrun := (Machine.Run.nil (M := machine) (s := .new 1 10))
    |>.snoc (i := .allow "a" 0) rfl
    |>.snoc (i := .sweep 9) rfl
    |>.snoc (i := .allow "b" 9) rfl
    |>.snoc (i := .allow "a" 9) rfl
    |>.snoc (i := .sweep 10) rfl
    |>.snoc (i := .allow "a" 10) rfl
  have hrefines := runs_fixedWindow (le_refl 1) hrun
    (by change ([0, 9, 9, 9, 10, 10] : List ℚ).Pairwise (· ≤ ·); decide +kernel) "a"
  exact ⟨_, _, hrun, by decide +kernel, hrefines.1⟩

/-- A limit that is not whole counts as the next whole one. In an interval, a
key is admitted as often as the windows that fit into it allow, and one more. -/
theorem admitted_le (hlimit : 1 ≤ limit) (hwindow : 0 < windowMs)
    (hrun : machine.Run (.new limit windowMs) es limiter) (horder : InOrder es) (key : String) (t : ℚ) :
    (∀ L, 0 < L → (answersOf key es).countP (AdmittedIn t (t + L)) ≤
        ⌈limit⌉₊ * (⌈L / windowMs⌉₊ + 1)) ∧
      (answersOf key es).countP (AdmittedIn t (t + windowMs)) ≤ 2 * ⌈limit⌉₊ := by
  have hpos : 0 < limit := lt_of_lt_of_le zero_lt_one hlimit
  have hbound (L : ℚ) : (answersOf key es).countP (AdmittedIn t (t + L)) ≤
      ⌈limit⌉₊ * (⌈L / windowMs⌉₊ + 1) := by
    have hadmitted := @countP_answered_le _ _ _ _ _ limit _ t (t + L) none _ hwindow
      (pairwise_timesOf horder key)
    rwa [← answersOf_eq hpos hrun horder key, add_sub_cancel_left] at hadmitted
  refine ⟨fun L _ => hbound L, (hbound windowMs).trans_eq ?_⟩
  rw [div_self hwindow.ne', Nat.ceil_one, Nat.mul_comm]

/-- Three attempts within ten milliseconds that two windows admit. -/
theorem admitted_le_across_windows : ∃ es limiter, machine.Run (.new 2 10) es limiter ∧
    (answersOf "a" es).countP (AdmittedIn 9 (9 + 10)) = 3 ∧
    (answersOf "a" es).countP (AdmittedIn 9 (9 + 10)) ≤ 2 * ⌈(2 : ℚ)⌉₊ := by
  have hrun := (Machine.Run.nil (M := machine) (s := .new 2 10))
    |>.snoc (i := .allow "a" 0) rfl
    |>.snoc (i := .allow "a" 9) rfl
    |>.snoc (i := .sweep 10) rfl
    |>.snoc (i := .allow "a" 10) rfl
    |>.snoc (i := .allow "a" 10) rfl
  have hbound := admitted_le (by norm_num) (by norm_num) hrun
    (by change ([0, 9, 10, 10, 10] : List ℚ).Pairwise (· ≤ ·); decide +kernel) "a" 9
  exact ⟨_, _, hrun, by decide +kernel, hbound.2⟩

/-- A limit of 5/4 lets two attempts into a window, so three into ten milliseconds. -/
theorem admitted_beyond_fraction : ∃ es limiter, machine.Run (.new (5 / 4) 10) es limiter ∧ InOrder es ∧
    (5 / 4 * (⌈(10 / 10 : ℚ)⌉₊ + 1) : ℚ) < (answersOf "a" es).countP (AdmittedIn 9 (9 + 10)) := by
  have hrun := (Machine.Run.nil (M := machine) (s := .new (5 / 4) 10))
    |>.snoc (i := .allow "a" 0) rfl
    |>.snoc (i := .allow "a" 9) rfl
    |>.snoc (i := .allow "a" 10) rfl
    |>.snoc (i := .allow "a" 10) rfl
  have hbound : (5 / 4 * (⌈(10 / 10 : ℚ)⌉₊ + 1) : ℚ) < (3 : ℕ) := by norm_num
  refine ⟨_, _, hrun, ?_, hbound.trans_eq (congrArg Nat.cast ?_)⟩
  · change ([0, 9, 10, 10] : List ℚ).Pairwise (· ≤ ·)
    decide +kernel
  · decide +kernel

end Runs

end ConnectionRateLimiter

end Jiffy
