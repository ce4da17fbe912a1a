-- SUMMARY: Many calls in flight on one state: configurations, the interleaving step, and rely-guarantee rules for what a call does under interference.
import Jiffy.Lib.Proc
import Mathlib.Logic.Function.Basic

/-!
# Interleaved calls

Any number of calls run on one state. A call runs from one await to the next
without interruption; between two of its turns any other calls may take
theirs. A configuration holds the state and, for each call, what it has
performed and where it stands.
-/

namespace Async

variable {P : Interface} {ε α β σ ι Op : Type}

/-- Where a call stands: settled, or waiting to be resumed. Resuming reads
live answers out of the state as it then is. -/
inductive Status (P : Interface) (ε α σ : Type) where
  | settled (res : Except ε α)
  | suspended (resume : σ → Proc P ε α)

def Status.isSettled : Status P ε α σ → Bool
  | .settled _ => true
  | .suspended _ => false

/-- A call that has been made: what was called, the requests it has performed
in order, and where it stands. -/
structure Call (P : Interface) (ε α σ Op : Type) where
  op : Op
  history : List (P.Event ε)
  status : Status P ε α σ

/-- What a turn leaves: the status, the history and the state. -/
structure Outcome (P : Interface) (ε α σ : Type) where
  status : Status P ε α σ
  history : List (P.Event ε)
  state : σ

/-- Run a program up to its next await. -/
def Adapter.advance (A : Adapter P ε σ ι) (i : ι) :
    Proc P ε α → List (P.Event ε) → σ → Outcome P ε α σ
  | .ret a, h, s => ⟨.settled (.ok a), h, s⟩
  | .throw e, h, s => ⟨.settled (.error e), h, s⟩
  | .sync r k, h, s =>
    advance A i (k (A.perform i r s).1) (h ++ [⟨r, (A.perform i r s).1⟩]) (A.perform i r s).2
  | .await r k, h, s =>
    ⟨.suspended fun t => k ((A.perform i r s).1.map (A.refresh t r)),
      h ++ [⟨r, (A.perform i r s).1⟩], (A.perform i r s).2⟩
  | .pause p, h, s => ⟨.suspended fun _ => p, h, s⟩

/-- A component whose calls interleave: the program of each operation, and
which operations the environment may call in a state (with what making the
call takes from it). -/
structure System (P : Interface) (ε α σ ι Op : Type) extends Adapter P ε σ ι where
  program : Op → Proc P ε α
  arrive : Op → σ → Option σ

/-- The state, and the calls made so far under their numbers. -/
structure Config (P : Interface) (ε α σ Op : Type) where
  world : σ
  calls : Nat → Option (Call P ε α σ Op)

/-- One turn: a new call starts, or a suspended one continues. -/
inductive Label (ι Op : Type) where
  | call (id : Nat) (op : Op) (i : ι)
  | resume (id : Nat) (i : ι)

/-- The call whose turn it is. -/
def Label.id : Label ι Op → Nat
  | .call id _ _ => id
  | .resume id _ => id

/-- What the environment supplies to the turn. -/
def Label.input : Label ι Op → ι
  | .call _ _ i => i
  | .resume _ i => i

/-- A call and `n` further turns of it, all with the same input. -/
def Label.turns (id : Nat) (op : Op) (i : ι) (n : Nat) : List (Label ι Op) :=
  .call id op i :: List.replicate n (.resume id i)

namespace Config

/-- Nothing called yet. -/
def idle (s : σ) : Config P ε α σ Op := ⟨s, fun _ => none⟩

/-- Record what a turn of call `id` left. -/
def record (c : Config P ε α σ Op) (id : Nat) (op : Op) (o : Outcome P ε α σ) : Config P ε α σ Op :=
  ⟨o.state, Function.update c.calls id (some ⟨op, o.history, o.status⟩)⟩

/-- Call `id` is an `op` that has settled with `res`. -/
def Settled (c : Config P ε α σ Op) (id : Nat) (op : Op) (res : Except ε α) : Prop :=
  ∃ h, c.calls id = some ⟨op, h, .settled res⟩

/-- Call `id` is an `op` still in flight. -/
def InFlight (c : Config P ε α σ Op) (id : Nat) (op : Op) : Prop :=
  ∃ h k, c.calls id = some ⟨op, h, .suspended k⟩

/-- Call `id` has performed a request, with this answer. -/
def Performed (c : Config P ε α σ Op) (id : Nat) (e : P.Event ε) : Prop :=
  ∃ call, c.calls id = some call ∧ e ∈ call.history

end Config

namespace System

variable (S : System P ε α σ ι Op)

/-- One turn, if the environment may take it. -/
def step (c : Config P ε α σ Op) : Label ι Op → Option (Config P ε α σ Op)
  | .call id op i =>
    if (c.calls id).isNone && S.admissible i c.world then
      (S.arrive op (S.tick i c.world)).map fun s =>
        c.record id op (S.advance i (S.program op) [] s)
    else none
  | .resume id i =>
    match c.calls id with
    | some ⟨op, h, .suspended k⟩ =>
      if S.admissible i c.world then
        some (c.record id op (S.advance i (k (S.tick i c.world)) h (S.tick i c.world)))
      else none
    | _ => none

/-- A sequence of turns. -/
def runs (c : Config P ε α σ Op) (ls : List (Label ι Op)) : Option (Config P ε α σ Op) :=
  ls.foldlM S.step c

@[simp] theorem runs_nil (c : Config P ε α σ Op) : S.runs c [] = some c := rfl

@[simp] theorem runs_cons (c : Config P ε α σ Op) (l : Label ι Op) (ls : List (Label ι Op)) :
    S.runs c (l :: ls) = (S.step c l).bind fun c' => S.runs c' ls := by
  simp [runs, List.foldlM_cons]

theorem runs_append (c : Config P ε α σ Op) (ls ls' : List (Label ι Op)) :
    S.runs c (ls ++ ls') = (S.runs c ls).bind fun c' => S.runs c' ls' := List.foldlM_append

/-- Every turn of the run meets a condition where it is taken. -/
def Along (ok : Config P ε α σ Op → Label ι Op → Prop) : Config P ε α σ Op → List (Label ι Op) → Prop
  | _, [] => True
  | c, l :: ls => ok c l ∧ ∀ {c'}, S.step c l = some c' → Along ok c' ls

theorem along_of_forall {ok : Config P ε α σ Op → Label ι Op → Prop} {ls : List (Label ι Op)}
    (h : ∀ c, ∀ l ∈ ls, ok c l) (c : Config P ε α σ Op) : S.Along ok c ls := by
  induction ls generalizing c with
  | nil => trivial
  | cons l ls ih =>
    exact ⟨h c l List.mem_cons_self, fun _ => ih (fun c l hl => h c l (List.mem_cons_of_mem _ hl)) _⟩

theorem along_cons {ok : Config P ε α σ Op → Label ι Op → Prop} {l : Label ι Op} {ls : List (Label ι Op)}
    {c c' : Config P ε α σ Op} (hstep : S.step c l = some c') :
    S.Along ok c (l :: ls) ↔ ok c l ∧ S.Along ok c' ls := by
  refine and_congr_right fun _ => ⟨fun h => h hstep, fun h c₂ hstep' => ?_⟩
  obtain rfl : c' = c₂ := Option.some.inj (hstep.symm.trans hstep')
  exact h

theorem along_append {ok : Config P ε α σ Op → Label ι Op → Prop} {ls ls' : List (Label ι Op)}
    {c c' : Config P ε α σ Op} (hruns : S.runs c ls = some c') :
    S.Along ok c (ls ++ ls') ↔ S.Along ok c ls ∧ S.Along ok c' ls' := by
  induction ls generalizing c with
  | nil =>
    cases hruns
    exact (true_and _).symm.to_iff
  | cons l ls ih =>
    rw [runs_cons, Option.bind_eq_some_iff] at hruns
    obtain ⟨c₁, hstep, hruns⟩ := hruns
    rw [List.cons_append, S.along_cons hstep, S.along_cons hstep, ih hruns, and_assoc]

/-- What a turn did: the program `p` of call `id` went on in state `s` with
history `h`, either from its start or from where it was suspended. -/
structure Turn (c : Config P ε α σ Op) (l : Label ι Op) (c' : Config P ε α σ Op) where
  op : Op
  input : ι
  program : Proc P ε α
  history : List (P.Event ε)
  state : σ
  admissible : S.admissible input c.world
  result : c' = c.record l.id op (S.advance input program history state)
  origin :
    (l = .call l.id op input ∧ c.calls l.id = none ∧ history = [] ∧ program = S.program op ∧
      S.arrive op (S.tick input c.world) = some state) ∨
    (l = .resume l.id input ∧ state = S.tick input c.world ∧
      ∃ k, c.calls l.id = some ⟨op, history, .suspended k⟩ ∧ program = k state)

theorem Turn.world {S : System P ε α σ ι Op} {c c' : Config P ε α σ Op} {l : Label ι Op}
    (τ : S.Turn c l c') :
    c'.world = (S.advance τ.input τ.program τ.history τ.state).state :=
  congrArg Config.world τ.result

theorem Turn.input_eq {S : System P ε α σ ι Op} {c c' : Config P ε α σ Op} {l : Label ι Op}
    (τ : S.Turn c l c') : l.input = τ.input := by
  rcases τ.origin with ⟨hl, -⟩ | ⟨hl, -⟩ <;> exact congrArg Label.input hl

/-- The call whose turn it was. -/
theorem Turn.own {S : System P ε α σ ι Op} {c c' : Config P ε α σ Op} {l : Label ι Op}
    (τ : S.Turn c l c') :
    c'.calls l.id = some ⟨τ.op, (S.advance τ.input τ.program τ.history τ.state).history,
      (S.advance τ.input τ.program τ.history τ.state).status⟩ :=
  (congrArg (fun x => Config.calls x l.id) τ.result).trans (Function.update_self ..)

/-- Every other call. -/
theorem Turn.other {S : System P ε α σ ι Op} {c c' : Config P ε α σ Op} {l : Label ι Op}
    (τ : S.Turn c l c') {id : Nat} (hid : id ≠ l.id) : c'.calls id = c.calls id :=
  (congrArg (fun x => Config.calls x id) τ.result).trans (Function.update_of_ne hid _ _)

theorem step_turn {c c' : Config P ε α σ Op} {l : Label ι Op} (h : S.step c l = some c') :
    Nonempty (S.Turn c l c') := by
  cases l with
  | call id op i =>
    simp only [step, Bool.and_eq_true, Option.isNone_iff_eq_none] at h
    split at h
    · next hguard =>
      obtain ⟨s, hs, rfl⟩ := Option.map_eq_some_iff.mp h
      exact ⟨⟨op, i, _, _, s, hguard.2, rfl, .inl ⟨rfl, hguard.1, rfl, rfl, hs⟩⟩⟩
    · cases h
  | resume id i =>
    simp only [step] at h
    split at h
    · next op hist k hcall =>
      split at h
      · next hadm =>
        cases h
        exact ⟨⟨op, i, _, hist, _, hadm, rfl, .inr ⟨rfl, rfl, k, hcall, rfl⟩⟩⟩
      · cases h
    · cases h

-- ---------------------------------------------------------------------------
-- Invariants of the state
-- ---------------------------------------------------------------------------

/-- What every request keeps, a turn keeps. -/
theorem advance_inv {A : Adapter P ε σ ι} {I : σ → Prop} {i : ι}
    (hperform : ∀ r s, I s → I (A.perform i r s).2) (p : Proc P ε α) (h : List (P.Event ε)) {s : σ}
    (hs : I s) : I (A.advance i p h s).state := by
  induction p generalizing h s with
  | ret a => exact hs
  | throw e => exact hs
  | sync r k ih => exact ih _ _ (hperform r s hs)
  | await r k ih => exact hperform r s hs
  | pause p ih => exact hs

/-- What ticks, arrivals and requests keep holds in every reachable state. -/
theorem runs_inv {S : System P ε α σ ι Op} {I : σ → Prop} (htick : ∀ i s, I s → I (S.tick i s))
    (harrive : ∀ op s t, S.arrive op s = some t → I s → I t)
    (hperform : ∀ i s₀, S.admissible i s₀ → ∀ r s, I s → I (S.perform i r s).2)
    {c c' : Config P ε α σ Op} {ls : List (Label ι Op)} (h : S.runs c ls = some c') (hc : I c.world) :
    I c'.world := by
  induction ls generalizing c with
  | nil => cases h; exact hc
  | cons l ls ih =>
    rw [S.runs_cons, Option.bind_eq_some_iff] at h
    obtain ⟨c₁, h₁, h₂⟩ := h
    obtain ⟨τ⟩ := S.step_turn h₁
    refine ih h₂ ?_
    rw [τ.world]
    refine advance_inv (hperform τ.input c.world τ.admissible) _ _ ?_
    rcases τ.origin with ⟨-, -, -, -, harr⟩ | ⟨-, hstate, -⟩
    · exact harrive _ _ _ harr (htick _ _ hc)
    · exact hstate ▸ htick _ _ hc

-- ---------------------------------------------------------------------------
-- What calls ask for
-- ---------------------------------------------------------------------------

/-- Where a turn stops, the rest of the program asks for nothing new. -/
theorem advance_only {A : Adapter P ε σ ι} {ok : P.Req → Prop} {p : Proc P ε α} (hp : p.Only ok)
    {i : ι} {h : List (P.Event ε)} {s : σ} {k : σ → Proc P ε α}
    (hk : (A.advance i p h s).status = .suspended k) (t : σ) : (k t).Only ok := by
  induction p generalizing h s with
  | ret a => cases hk
  | throw e => cases hk
  | sync r k' ih => exact ih _ (hp.2 _) hk
  | await r k' ih => cases hk; exact hp.2 _
  | pause p ih => cases hk; exact hp

/-- What every request of a program respects, each turn of it respects. -/
theorem advance_state {A : Adapter P ε σ ι} {ok : P.Req → Prop} {J : σ → σ → Prop}
    (hrefl : ∀ s, J s s) (htrans : ∀ {s t u}, J s t → J t u → J s u) {i : ι}
    (hJ : ∀ {r s}, ok r → J s (A.perform i r s).2) {p : Proc P ε α} (hp : p.Only ok)
    (h : List (P.Event ε)) (s : σ) : J s (A.advance i p h s).state := by
  induction p generalizing h s with
  | ret a => exact hrefl s
  | throw e => exact hrefl s
  | sync r k ih => exact htrans (hJ hp.1) (ih _ (hp.2 _) _ _)
  | await r k ih => exact hJ hp.1
  | pause p ih => exact hrefl s

/-- A turn extends a log by what its requests add to it. -/
theorem advance_log {A : Adapter P ε σ ι} {L : σ → List β} {f : P.Event ε → List β}
    (hlog : ∀ i r s, L (A.perform i r s).2 = L s ++ f ⟨r, (A.perform i r s).1⟩)
    (p : Proc P ε α) (i : ι) (h : List (P.Event ε)) (s : σ) :
    ∃ es, (A.advance i p h s).history = h ++ es ∧
      L (A.advance i p h s).state = L s ++ es.flatMap f := by
  induction p generalizing h s with
  | ret a => exact ⟨[], by simp [Adapter.advance]⟩
  | throw e => exact ⟨[], by simp [Adapter.advance]⟩
  | sync r k ih =>
    obtain ⟨es, hes, hstate⟩ := ih _ (h ++ [⟨r, (A.perform i r s).1⟩]) (A.perform i r s).2
    refine ⟨⟨r, (A.perform i r s).1⟩ :: es, hes.trans (by simp), hstate.trans ?_⟩
    simp [hlog]
  | await r k ih => exact ⟨[⟨r, (A.perform i r s).1⟩], rfl, (hlog i r s).trans (by simp)⟩
  | pause p ih => exact ⟨[], by simp [Adapter.advance]⟩

/-- The calls in flight ask only for what is allowed to their operations. -/
def AsksOnly (ok : Op → P.Req → Prop) (c : Config P ε α σ Op) : Prop :=
  ∀ {id op h k}, c.calls id = some ⟨op, h, .suspended k⟩ → ∀ s, (k s).Only (ok op)

section AsksOnly

variable {S} {ok : Op → P.Req → Prop} {c c' : Config P ε α σ Op} {l : Label ι Op}

theorem Turn.program_only (hprog : ∀ op, (S.program op).Only (ok op)) (hc : AsksOnly ok c)
    (τ : S.Turn c l c') : τ.program.Only (ok τ.op) := by
  rcases τ.origin with ⟨-, -, -, hp, -⟩ | ⟨-, -, k, hcall, hp⟩
  · rw [hp]
    exact hprog τ.op
  · rw [hp]
    exact hc hcall τ.state

theorem Turn.asksOnly (hprog : ∀ op, (S.program op).Only (ok op)) (hc : AsksOnly ok c)
    (τ : S.Turn c l c') : AsksOnly ok c' := by
  intro id op h k hcall
  by_cases hid : id = l.id
  · subst hid
    rw [τ.own, Option.some.injEq, Call.mk.injEq] at hcall
    obtain ⟨rfl, -, hk⟩ := hcall
    exact advance_only (τ.program_only hprog hc) hk
  · exact hc ((τ.other hid).symm.trans hcall)

end AsksOnly

/-- What the turns that meet a condition keep holds after a run of such turns. -/
theorem along_inv {ok : Config P ε α σ Op → Label ι Op → Prop} {I : Config P ε α σ Op → Prop}
    (hstep : ∀ {c l c'}, I c → ok c l → S.step c l = some c' → I c') {ls : List (Label ι Op)}
    {c c' : Config P ε α σ Op} (hls : S.Along ok c ls) (h : S.runs c ls = some c') (hc : I c) : I c' := by
  induction ls generalizing c with
  | nil => cases h; exact hc
  | cons l ls ih =>
    rw [S.runs_cons, Option.bind_eq_some_iff] at h
    obtain ⟨c₁, h₁, h₂⟩ := h
    exact ih (hls.2 h₁) h₂ (hstep hc hls.1 h₁)

/-- A condition that follows from what every turn keeps and from the kinds of
calls made holds along a run that makes no others. -/
theorem along_of_calls {ok : Config P ε α σ Op → Label ι Op → Prop} {I : Config P ε α σ Op → Prop}
    {Kind : Nat → Op → Prop} (hstep : ∀ {c l c'}, I c → S.step c l = some c' → I c')
    (hok : ∀ {c l}, I c → (∀ {id call}, c.calls id = some call → Kind id call.op) → ok c l)
    {ls : List (Label ι Op)} (hls : ∀ l ∈ ls, ∀ id op i, l = .call id op i → Kind id op)
    {c : Config P ε α σ Op} (hI : I c) (hc : ∀ {id call}, c.calls id = some call → Kind id call.op) :
    S.Along ok c ls := by
  induction ls generalizing c with
  | nil => trivial
  | cons l ls ih =>
    refine ⟨hok hI hc, fun {c'} h => ih (fun l hl => hls l (List.mem_cons_of_mem _ hl)) (hstep hI h) ?_⟩
    intro id call hcall
    obtain ⟨τ⟩ := S.step_turn h
    by_cases hid : id = l.id
    · subst hid
      rw [τ.own] at hcall
      cases hcall
      rcases τ.origin with ⟨hl, -⟩ | ⟨-, -, k, hbefore, -⟩
      · exact hls l List.mem_cons_self _ _ _ hl
      · have hkind := hc hbefore
        exact hkind
    · exact hc ((τ.other hid).symm.trans hcall)

/-- A call stays a call of the same operation. -/
theorem step_op {c c' : Config P ε α σ Op} {l : Label ι Op} (h : S.step c l = some c') {id : Nat}
    {call : Call P ε α σ Op} (hcall : c.calls id = some call) :
    ∃ call', c'.calls id = some call' ∧ call'.op = call.op := by
  obtain ⟨τ⟩ := S.step_turn h
  by_cases hid : id = l.id
  · subst hid
    refine ⟨_, τ.own, ?_⟩
    rcases τ.origin with ⟨-, hnone, -⟩ | ⟨-, -, k, hcall', -⟩
    · rw [hnone] at hcall
      cases hcall
    · rw [hcall'] at hcall
      cases hcall
      rfl
  · exact ⟨call, (τ.other hid).trans hcall, rfl⟩

theorem runs_op {ls : List (Label ι Op)} {c c' : Config P ε α σ Op} (h : S.runs c ls = some c')
    {id : Nat} {call : Call P ε α σ Op} (hcall : c.calls id = some call) :
    ∃ call', c'.calls id = some call' ∧ call'.op = call.op := by
  induction ls generalizing c call with
  | nil => cases h; exact ⟨call, hcall, rfl⟩
  | cons l ls ih =>
    rw [S.runs_cons, Option.bind_eq_some_iff] at h
    obtain ⟨c₁, h₁, h₂⟩ := h
    obtain ⟨call₁, hcall₁, hop₁⟩ := S.step_op h₁ hcall
    obtain ⟨call', hcall', hop'⟩ := ih h₂ hcall₁
    exact ⟨call', hcall', hop'.trans hop₁⟩

/-- A run leaves the calls that take no turn in it as they are. -/
theorem runs_calls {ls : List (Label ι Op)} {c c' : Config P ε α σ Op} (h : S.runs c ls = some c')
    {id : Nat} (hid : id ∉ ls.map Label.id) : c'.calls id = c.calls id := by
  induction ls generalizing c with
  | nil => cases h; rfl
  | cons l ls ih =>
    rw [S.runs_cons, Option.bind_eq_some_iff] at h
    obtain ⟨c₁, h₁, h₂⟩ := h
    rw [List.map_cons, List.mem_cons, not_or] at hid
    obtain ⟨τ⟩ := S.step_turn h₁
    exact (ih h₂ hid.2).trans (τ.other hid.1)

/-- The turn of a run in which call `id` performed `e`. -/
structure PerformedIn (c : Config P ε α σ Op) (ls : List (Label ι Op)) (id : Nat) (e : P.Event ε)
    (l : Label ι Op) (before after : Config P ε α σ Op) : Prop where
  split : ∃ pre post, ls = pre ++ l :: post ∧ S.runs c pre = some before
  step : S.step before l = some after
  notYet : ¬ before.Performed id e
  done : after.Performed id e

theorem performedIn_of_runs {ls : List (Label ι Op)} {c c' : Config P ε α σ Op}
    (h : S.runs c ls = some c') {id : Nat} {e : P.Event ε} (hnot : ¬ c.Performed id e)
    (hdone : c'.Performed id e) :
    ∃ l before after, S.PerformedIn c ls id e l before after ∧
      ∃ post, S.runs after post = some c' := by
  induction ls generalizing c with
  | nil => cases h; exact absurd hdone hnot
  | cons l ls ih =>
    rw [S.runs_cons, Option.bind_eq_some_iff] at h
    obtain ⟨c₁, h₁, h₂⟩ := h
    by_cases hc₁ : c₁.Performed id e
    · exact ⟨l, c, c₁, ⟨⟨[], ls, rfl, rfl⟩, h₁, hnot, hc₁⟩, ls, h₂⟩
    · obtain ⟨l', before, after, ⟨⟨pre, post, hls, hpre⟩, hstep, hb, ha⟩, hpost⟩ := ih h₂ hc₁
      refine ⟨l', before, after, ⟨⟨l :: pre, post, by rw [hls]; rfl, ?_⟩, hstep, hb, ha⟩, hpost⟩
      rw [S.runs_cons, h₁]
      exact hpre

end System

-- ---------------------------------------------------------------------------
-- Where calls wait
-- ---------------------------------------------------------------------------

/-- What a program may await after a history, and how it goes on. -/
abbrev Awaiting (P : Interface) (ε α : Type) : Type :=
  List (P.Event ε) → (r : P.Req) → (Except ε (P.Resp r) → Proc P ε α) → Prop

/-- Every await of the program is as `Φ` says, and it does not wait otherwise.
An answer may show something else by the time that it is used. -/
def Proc.AwaitsAll (Φ : Awaiting P ε α) : Proc P ε α → List (P.Event ε) → Prop
  | .ret _, _ | .throw _, _ => True
  | .sync r k, h => ∀ x, AwaitsAll Φ (k x) (h ++ [⟨r, x⟩])
  | .await r k, h => Φ h r k ∧ ∀ x y, AwaitsAll Φ (k y) (h ++ [⟨r, x⟩])
  | .pause _, _ => False

namespace System

/-- A call waits for a request that it made last, and goes on with its answer
as that shows by then. -/
structure WaitsFor (A : Adapter P ε σ ι) (Φ : Awaiting P ε α) (h : List (P.Event ε))
    (resume : σ → Proc P ε α) where
  before : List (P.Event ε)
  request : P.Req
  answer : Except ε (P.Resp request)
  follow : Except ε (P.Resp request) → Proc P ε α
  history : h = before ++ [⟨request, answer⟩]
  resumes : resume = fun t => follow (answer.map (A.refresh t request))
  awaited : Φ before request follow
  rest : ∀ y, (follow y).AwaitsAll Φ h

variable {Φ : Awaiting P ε α}

/-- A turn that stops waits for its last request. -/
theorem advance_waitsFor {A : Adapter P ε σ ι} {p : Proc P ε α} {h : List (P.Event ε)}
    (hp : p.AwaitsAll Φ h) {i : ι} {s : σ} {k : σ → Proc P ε α}
    (hk : (A.advance i p h s).status = .suspended k) :
    Nonempty (WaitsFor A Φ (A.advance i p h s).history k) := by
  induction p generalizing h s with
  | ret a => cases hk
  | throw e => cases hk
  | sync r k' ih => exact ih _ (hp _) hk
  | await r k' ih =>
    cases hk
    exact ⟨h, r, _, k', rfl, rfl, hp.1, hp.2 _⟩
  | pause p ih => cases hp

section Waits

variable {S : System P ε α σ ι Op} {Φ : Op → Awaiting P ε α} {c c' : Config P ε α σ Op} {l : Label ι Op}

/-- The calls in flight wait as their programs do. -/
def Waits (S : System P ε α σ ι Op) (Φ : Op → Awaiting P ε α) (c : Config P ε α σ Op) : Prop :=
  ∀ {id op h k}, c.calls id = some ⟨op, h, .suspended k⟩ → Nonempty (WaitsFor S.toAdapter (Φ op) h k)

/-- The program of a turn awaits only what it may. -/
theorem Turn.awaitsAll (hprog : ∀ op, (S.program op).AwaitsAll (Φ op) []) (hc : Waits S Φ c)
    (τ : S.Turn c l c') : τ.program.AwaitsAll (Φ τ.op) τ.history := by
  rcases τ.origin with ⟨-, -, hhist, hp, -⟩ | ⟨-, -, k, hcall, hp⟩
  · rw [hp, hhist]
    exact hprog τ.op
  · obtain ⟨w⟩ := hc hcall
    rw [hp, w.resumes]
    exact w.rest _

theorem step_waits (hprog : ∀ op, (S.program op).AwaitsAll (Φ op) []) (hc : Waits S Φ c)
    (h : S.step c l = some c') : Waits S Φ c' := by
  intro id op hist k hcall
  obtain ⟨τ⟩ := S.step_turn h
  by_cases hid : id = l.id
  · subst hid
    rw [τ.own, Option.some.injEq, Call.mk.injEq] at hcall
    obtain ⟨rfl, rfl, hk⟩ := hcall
    exact advance_waitsFor (τ.awaitsAll hprog hc) hk
  · exact hc ((τ.other hid).symm.trans hcall)

theorem waits_idle (s : σ) : Waits S Φ (.idle s) := fun hcall => by cases hcall

end Waits

end System

end Async
