-- SUMMARY: Asynchronous programs over an interface of requests: the program type, its monad, and the uninterrupted run of one program.
import Mathlib.Logic.Basic
import Mathlib.Data.List.Basic

/-!
# Asynchronous programs

An `async` function is a tree of requests. A request is either answered on the
spot (`sync`) or awaited (`await`): awaiting hands control back to the event
loop, and the program continues in a later turn. The code between two awaits is
never interrupted.

A program names only the interface it is written against. An `Adapter` says
how the requests act on a state.
-/

namespace Async

/-- What a program can ask for: the requests, and the type of each answer. -/
structure Interface where
  Req : Type
  Resp : Req → Type

/-- A performed request together with how it was answered. -/
abbrev Interface.Event (P : Interface) (ε : Type) : Type := (r : P.Req) × Except ε (P.Resp r)

/-- An asynchronous program returning `α` or rejecting with `ε`. A rejected
request reaches the continuation like any answer, so a program can catch it. -/
inductive Proc (P : Interface) (ε α : Type) where
  | ret (a : α)
  | throw (e : ε)
  /-- A call whose answer is used in the same turn. -/
  | sync (r : P.Req) (k : Except ε (P.Resp r) → Proc P ε α)
  /-- A call whose answer is awaited. -/
  | await (r : P.Req) (k : Except ε (P.Resp r) → Proc P ε α)
  /-- An await that asks for nothing. -/
  | pause (p : Proc P ε α)

namespace Proc

variable {P P' : Interface} {ε α β γ : Type}

/-- Sequential composition. -/
def bind : Proc P ε α → (α → Proc P ε β) → Proc P ε β
  | .ret a, f => f a
  | .throw e, _ => .throw e
  | .sync r k, f => .sync r fun x => (k x).bind f
  | .await r k, f => .await r fun x => (k x).bind f
  | .pause p, f => .pause (p.bind f)

/-- `try p catch (e) { handler(e) }`. -/
def catching : Proc P ε α → (ε → Proc P ε α) → Proc P ε α
  | .ret a, _ => .ret a
  | .throw e, handler => handler e
  | .sync r k, handler => .sync r fun x => (k x).catching handler
  | .await r k, handler => .await r fun x => (k x).catching handler
  | .pause p, handler => .pause (p.catching handler)

instance : Monad (Proc P ε) where
  pure := .ret
  bind := bind

instance : MonadExcept ε (Proc P ε) where
  throw := .throw
  tryCatch := catching

/-- An answer as a program: the value, or the rejection. -/
def ofExcept : Except ε α → Proc P ε α
  | .ok a => .ret a
  | .error e => .throw e

/-- `await request`. -/
@[simp] def request (r : P.Req) : Proc P ε (P.Resp r) := .await r ofExcept

/-- `request`, without awaiting it. -/
@[simp] def perform (r : P.Req) : Proc P ε (P.Resp r) := .sync r ofExcept

/-- Resolve with how `p` settles. -/
def settle (p : Proc P ε α) : Proc P ε (Except ε α) :=
  (p.bind fun a => .ret (.ok a)).catching fun e => .ret (.error e)

/-- `try p finally q`. -/
def ensuring (p : Proc P ε α) (q : Proc P ε Unit) : Proc P ε α :=
  p.settle.bind fun x => q.bind fun _ => ofExcept x

/-- Implement every request of `P` by a program over `P'`. -/
def implement (impl : (r : P.Req) → Proc P' ε (P.Resp r)) : Proc P ε α → Proc P' ε α
  | .ret a => .ret a
  | .throw e => .throw e
  | .sync r k | .await r k => (impl r).settle.bind fun x => (k x).implement impl
  | .pause p => .pause (p.implement impl)

/-- Every request the program can make satisfies `ok`. -/
def Only (ok : P.Req → Prop) : Proc P ε α → Prop
  | .ret _ | .throw _ => True
  | .sync r k | .await r k => ok r ∧ ∀ x, Only ok (k x)
  | .pause p => Only ok p

-- ---------------------------------------------------------------------------
-- Symbolic execution
-- ---------------------------------------------------------------------------

@[simp] theorem pure_eq_ret (a : α) : (pure a : Proc P ε α) = .ret a := rfl
@[simp] theorem throw_eq_throw (e : ε) : (MonadExcept.throw e : Proc P ε α) = .throw e := rfl
@[simp] theorem tryCatch_eq_catching (p : Proc P ε α) (handler : ε → Proc P ε α) :
    tryCatch p handler = p.catching handler := rfl
@[simp] theorem bind_eq_bind (p : Proc P ε α) (f : α → Proc P ε β) : p >>= f = p.bind f := rfl
@[simp] theorem ret_bind (a : α) (f : α → Proc P ε β) : (Proc.ret a).bind f = f a := rfl
@[simp] theorem throw_bind (e : ε) (f : α → Proc P ε β) :
    (Proc.throw e : Proc P ε α).bind f = .throw e := rfl
@[simp] theorem sync_bind (r : P.Req) (k : Except ε (P.Resp r) → Proc P ε α)
    (f : α → Proc P ε β) : (Proc.sync r k).bind f = .sync r fun x => (k x).bind f := rfl
@[simp] theorem await_bind (r : P.Req) (k : Except ε (P.Resp r) → Proc P ε α)
    (f : α → Proc P ε β) : (Proc.await r k).bind f = .await r fun x => (k x).bind f := rfl
@[simp] theorem pause_bind (p : Proc P ε α) (f : α → Proc P ε β) :
    (Proc.pause p).bind f = .pause (p.bind f) := rfl

theorem bind_assoc (p : Proc P ε α) (f : α → Proc P ε β) (g : β → Proc P ε γ) :
    (p.bind f).bind g = p.bind fun a => (f a).bind g := by
  induction p with
  | ret a => rfl
  | throw e => rfl
  | sync r k ih => simp only [sync_bind, ih]
  | await r k ih => simp only [await_bind, ih]
  | pause p ih => simp only [pause_bind, ih]

@[simp] theorem ret_catching (a : α) (f : ε → Proc P ε α) : (Proc.ret a).catching f = .ret a := rfl
@[simp] theorem throw_catching (e : ε) (f : ε → Proc P ε α) :
    (Proc.throw e : Proc P ε α).catching f = f e := rfl
@[simp] theorem sync_catching (r : P.Req) (k : Except ε (P.Resp r) → Proc P ε α)
    (f : ε → Proc P ε α) : (Proc.sync r k).catching f = .sync r fun x => (k x).catching f := rfl
@[simp] theorem await_catching (r : P.Req) (k : Except ε (P.Resp r) → Proc P ε α)
    (f : ε → Proc P ε α) : (Proc.await r k).catching f = .await r fun x => (k x).catching f := rfl
@[simp] theorem pause_catching (p : Proc P ε α) (f : ε → Proc P ε α) :
    (Proc.pause p).catching f = .pause (p.catching f) := rfl

@[simp] theorem ret_implement (impl : (r : P.Req) → Proc P' ε (P.Resp r)) (a : α) :
    (Proc.ret a : Proc P ε α).implement impl = .ret a := rfl
@[simp] theorem throw_implement (impl : (r : P.Req) → Proc P' ε (P.Resp r)) (e : ε) :
    (Proc.throw e : Proc P ε α).implement impl = .throw e := rfl
@[simp] theorem await_implement (impl : (r : P.Req) → Proc P' ε (P.Resp r)) (r : P.Req)
    (k : Except ε (P.Resp r) → Proc P ε α) :
    (Proc.await r k).implement impl = (impl r).settle.bind fun x => (k x).implement impl := rfl
@[simp] theorem sync_implement (impl : (r : P.Req) → Proc P' ε (P.Resp r)) (r : P.Req)
    (k : Except ε (P.Resp r) → Proc P ε α) :
    (Proc.sync r k).implement impl = (impl r).settle.bind fun x => (k x).implement impl := rfl

@[simp] theorem ofExcept_ok (a : α) : (ofExcept (.ok a) : Proc P ε α) = .ret a := rfl
@[simp] theorem ofExcept_error (e : ε) : (ofExcept (.error e) : Proc P ε α) = .throw e := rfl

/-- A composition is implemented part by part. -/
theorem implement_bind (impl : (r : P.Req) → Proc P' ε (P.Resp r)) (p : Proc P ε α) (f : α → Proc P ε β) :
    (p.bind f).implement impl = (p.implement impl).bind fun a => (f a).implement impl := by
  induction p with
  | ret a => rfl
  | throw e => rfl
  | sync r k ih => simp only [sync_bind, sync_implement, bind_assoc, ih]
  | await r k ih => simp only [await_bind, await_implement, bind_assoc, ih]
  | pause p ih => exact congrArg Proc.pause ih

theorem settle_request (r : P.Req) : (request r : Proc P ε _).settle = .await r .ret := by
  unfold settle
  simp only [request, await_bind, await_catching]
  congr 1
  funext x
  cases x <;> rfl

theorem settle_perform (r : P.Req) : (perform r : Proc P ε _).settle = .sync r .ret := by
  unfold settle
  simp only [perform, sync_bind, sync_catching]
  congr 1
  funext x
  cases x <;> rfl

-- ---------------------------------------------------------------------------
-- What a program asks for
-- ---------------------------------------------------------------------------

namespace Only

variable {ok : P.Req → Prop}

theorem mono {ok' : P.Req → Prop} (h : ∀ r, ok r → ok' r) {p : Proc P ε α} (hp : p.Only ok) :
    p.Only ok' := by
  induction p with
  | ret a => trivial
  | throw e => trivial
  | sync r k ih => exact ⟨h r hp.1, fun x => ih x (hp.2 x)⟩
  | await r k ih => exact ⟨h r hp.1, fun x => ih x (hp.2 x)⟩
  | pause p ih => exact ih hp

theorem ofExcept (x : Except ε α) : (ofExcept x : Proc P ε α).Only ok := by
  cases x <;> trivial

theorem request {r : P.Req} (h : ok r) : (Proc.request r : Proc P ε _).Only ok := ⟨h, Only.ofExcept⟩

theorem perform {r : P.Req} (h : ok r) : (Proc.perform r : Proc P ε _).Only ok := ⟨h, Only.ofExcept⟩

theorem bind {p : Proc P ε α} {f : α → Proc P ε β} (hp : p.Only ok) (hf : ∀ a, (f a).Only ok) :
    (p.bind f).Only ok := by
  induction p with
  | ret a => exact hf a
  | throw e => trivial
  | sync r k ih => exact ⟨hp.1, fun x => ih x (hp.2 x)⟩
  | await r k ih => exact ⟨hp.1, fun x => ih x (hp.2 x)⟩
  | pause p ih => exact ih hp

theorem catching {p : Proc P ε α} {f : ε → Proc P ε α} (hp : p.Only ok) (hf : ∀ e, (f e).Only ok) :
    (p.catching f).Only ok := by
  induction p with
  | ret a => trivial
  | throw e => exact hf e
  | sync r k ih => exact ⟨hp.1, fun x => ih x (hp.2 x)⟩
  | await r k ih => exact ⟨hp.1, fun x => ih x (hp.2 x)⟩
  | pause p ih => exact ih hp

theorem settle {p : Proc P ε α} (hp : p.Only ok) : p.settle.Only ok := by
  unfold Proc.settle
  refine catching (bind hp fun a => ?_) fun e => ?_
  · trivial
  · trivial

theorem ensuring {p : Proc P ε α} {q : Proc P ε Unit} (hp : p.Only ok) (hq : q.Only ok) :
    (p.ensuring q).Only ok :=
  hp.settle.bind fun _ => hq.bind fun _ => .ofExcept _

/-- The first part of a composition. -/
theorem of_bind {p : Proc P ε α} {f : α → Proc P ε β} (h : (p.bind f).Only ok) : p.Only ok := by
  induction p with
  | ret a => trivial
  | throw e => trivial
  | sync r k ih => exact ⟨h.1, fun x => ih x (h.2 x)⟩
  | await r k ih => exact ⟨h.1, fun x => ih x (h.2 x)⟩
  | pause p ih => exact ih h

/-- What the implementations of a program's requests ask for. -/
theorem implement {ok' : P'.Req → Prop} {impl : (r : P.Req) → Proc P' ε (P.Resp r)}
    (himpl : ∀ r, ok r → (impl r).Only ok') {p : Proc P ε α} (hp : p.Only ok) :
    (p.implement impl).Only ok' := by
  induction p with
  | ret a => trivial
  | throw e => trivial
  | sync r k ih => exact (himpl r hp.1).settle.bind fun x => ih x (hp.2 x)
  | await r k ih => exact (himpl r hp.1).settle.bind fun x => ih x (hp.2 x)
  | pause p ih => exact ih hp

end Only

/-- Every request that the program uses the answer of in the same turn satisfies
`ok`. -/
def OnSpot (ok : P.Req → Prop) : Proc P ε α → Prop
  | .ret _ | .throw _ => True
  | .sync r k => ok r ∧ ∀ x, OnSpot ok (k x)
  | .await _ k => ∀ x, OnSpot ok (k x)
  | .pause p => OnSpot ok p

namespace OnSpot

variable {ok : P.Req → Prop}

theorem ofExcept (x : Except ε α) : (ofExcept x : Proc P ε α).OnSpot ok := by
  cases x <;> trivial

theorem request (r : P.Req) : (Proc.request r : Proc P ε _).OnSpot ok := OnSpot.ofExcept

theorem perform {r : P.Req} (h : ok r) : (Proc.perform r : Proc P ε _).OnSpot ok :=
  ⟨h, OnSpot.ofExcept⟩

theorem bind {p : Proc P ε α} {f : α → Proc P ε β} (hp : p.OnSpot ok) (hf : ∀ a, (f a).OnSpot ok) :
    (p.bind f).OnSpot ok := by
  induction p with
  | ret a => exact hf a
  | throw e => trivial
  | sync r k ih => exact ⟨hp.1, fun x => ih x (hp.2 x)⟩
  | await r k ih => exact fun x => ih x (hp x)
  | pause p ih => exact ih hp

theorem catching {p : Proc P ε α} {f : ε → Proc P ε α} (hp : p.OnSpot ok)
    (hf : ∀ e, (f e).OnSpot ok) : (p.catching f).OnSpot ok := by
  induction p with
  | ret a => trivial
  | throw e => exact hf e
  | sync r k ih => exact ⟨hp.1, fun x => ih x (hp.2 x)⟩
  | await r k ih => exact fun x => ih x (hp x)
  | pause p ih => exact ih hp

theorem settle {p : Proc P ε α} (hp : p.OnSpot ok) : p.settle.OnSpot ok := by
  unfold Proc.settle
  refine catching (bind hp fun a => ?_) fun e => ?_
  · trivial
  · trivial

theorem ensuring {p : Proc P ε α} {q : Proc P ε Unit} (hp : p.OnSpot ok) (hq : q.OnSpot ok) :
    (p.ensuring q).OnSpot ok :=
  hp.settle.bind fun _ => hq.bind fun _ => .ofExcept _

theorem of_bind {p : Proc P ε α} {f : α → Proc P ε β} (h : (p.bind f).OnSpot ok) : p.OnSpot ok := by
  induction p with
  | ret a => trivial
  | throw e => trivial
  | sync r k ih => exact ⟨h.1, fun x => ih x (h.2 x)⟩
  | await r k ih => exact fun x => ih x (h x)
  | pause p ih => exact ih h

/-- An implemented program asks on the spot what the implementations do. -/
theorem implement {ok : P'.Req → Prop} {impl : (r : P.Req) → Proc P' ε (P.Resp r)}
    (himpl : ∀ r, (impl r).OnSpot ok) (p : Proc P ε α) : (p.implement impl).OnSpot ok := by
  induction p with
  | ret a => trivial
  | throw e => trivial
  | sync r k ih => exact (himpl r).settle.bind ih
  | await r k ih => exact (himpl r).settle.bind ih
  | pause p ih => exact ih

end OnSpot

end Proc

/-- How requests act on a state `σ`. The environment supplies an `ι` to every
turn: what the clock reads, what the random source yields, and the like. -/
structure Adapter (P : Interface) (ε σ ι : Type) where
  /-- Perform one request in one atomic action. -/
  perform : ι → (r : P.Req) → σ → Except ε (P.Resp r) × σ
  /-- Answers can hold references to live objects: what an answer shows when
  it is used, given what it showed when the request was performed. -/
  refresh : σ → (r : P.Req) → P.Resp r → P.Resp r
  /-- Whether the environment may supply this to a turn. -/
  admissible : ι → σ → Bool
  /-- What a turn's input does to the state before the program continues. -/
  tick : ι → σ → σ

namespace Adapter

variable {P P' : Interface} {ε σ ι α β : Type} (A : Adapter P ε σ ι)

/-- Run a program to its end with nobody else touching the state. -/
def run (i : ι) : Proc P ε α → σ → Except ε α × σ
  | .ret a, s => (.ok a, s)
  | .throw e, s => (.error e, s)
  | .sync r k, s | .await r k, s => run i (k (A.perform i r s).1) (A.perform i r s).2
  | .pause p, s => run i p s

@[simp] theorem run_ret (i : ι) (a : α) (s : σ) : A.run i (.ret a) s = (.ok a, s) := rfl
@[simp] theorem run_throw (i : ι) (e : ε) (s : σ) :
    A.run i (.throw e : Proc P ε α) s = (.error e, s) := rfl
@[simp] theorem run_sync (i : ι) (r : P.Req) (k : Except ε (P.Resp r) → Proc P ε α) (s : σ) :
    A.run i (.sync r k) s = A.run i (k (A.perform i r s).1) (A.perform i r s).2 := rfl
@[simp] theorem run_await (i : ι) (r : P.Req) (k : Except ε (P.Resp r) → Proc P ε α) (s : σ) :
    A.run i (.await r k) s = A.run i (k (A.perform i r s).1) (A.perform i r s).2 := rfl
@[simp] theorem run_pause (i : ι) (p : Proc P ε α) (s : σ) :
    A.run i (.pause p) s = A.run i p s := rfl

/-- A composed program runs its first part, then, unless that rejected, the
rest from where it stopped. -/
theorem run_bind (i : ι) (p : Proc P ε α) (f : α → Proc P ε β) (s : σ) :
    A.run i (p.bind f) s =
      match A.run i p s with
      | (.ok a, s') => A.run i (f a) s'
      | (.error e, s') => (.error e, s') := by
  induction p generalizing s with
  | ret a => rfl
  | throw e => rfl
  | sync r k ih => exact ih _ _
  | await r k ih => exact ih _ _
  | pause p ih => exact ih s

theorem run_catching (i : ι) (p : Proc P ε α) (handler : ε → Proc P ε α) (s : σ) :
    A.run i (p.catching handler) s =
      match A.run i p s with
      | (.ok a, s') => (.ok a, s')
      | (.error e, s') => A.run i (handler e) s' := by
  induction p generalizing s with
  | ret a => rfl
  | throw e => rfl
  | sync r k ih => exact ih _ _
  | await r k ih => exact ih _ _
  | pause p ih => exact ih s

theorem run_map (i : ι) (p : Proc P ε α) (f : α → β) (s : σ) :
    A.run i (p.bind fun a => .ret (f a)) s = ((A.run i p s).1.map f, (A.run i p s).2) := by
  rw [run_bind]
  cases A.run i p s with
  | mk x s' => cases x <;> rfl

/-- The adapter for `P` that performs a request by running its
implementation over `P'`. -/
def via (A : Adapter P' ε σ ι) (impl : (r : P.Req) → Proc P' ε (P.Resp r)) : Adapter P ε σ ι where
  perform i r s := A.run i (impl r) s
  refresh _ _ x := x
  admissible := A.admissible
  tick := A.tick

/-- `A`, with an account of what was asked and how it was answered. -/
def logged : Adapter P ε (σ × List (P.Event ε)) ι where
  perform i r s := ((A.perform i r s.1).1, (A.perform i r s.1).2, s.2 ++ [⟨r, (A.perform i r s.1).1⟩])
  refresh s := A.refresh s.1
  admissible i s := A.admissible i s.1
  tick i s := (A.tick i s.1, s.2)

@[simp] theorem logged_perform (i : ι) (r : P.Req) (s : σ) (log : List (P.Event ε)) :
    A.logged.perform i r (s, log) =
      ((A.perform i r s).1, (A.perform i r s).2, log ++ [⟨r, (A.perform i r s).1⟩]) := rfl

/-- The account changes nothing. -/
theorem run_logged (i : ι) (p : Proc P ε α) (s : σ) (log : List (P.Event ε)) :
    A.run i p s = ((A.logged.run i p (s, log)).1, (A.logged.run i p (s, log)).2.1) := by
  induction p generalizing s log with
  | ret a => rfl
  | throw e => rfl
  | sync r k ih => exact ih _ _ _
  | await r k ih => exact ih _ _ _
  | pause p ih => exact ih s log

@[simp] theorem run_ofExcept (i : ι) (x : Except ε α) (s : σ) :
    A.run i (Proc.ofExcept x) s = (x, s) := by
  cases x <;> rfl

theorem run_request (i : ι) (r : P.Req) (s : σ) :
    A.run i (Proc.request r) s = A.perform i r s :=
  A.run_ofExcept i _ _

theorem run_perform (i : ι) (r : P.Req) (s : σ) :
    A.run i (Proc.perform r) s = A.perform i r s :=
  A.run_ofExcept i _ _

/-- A composition that resolves went through both its parts. -/
theorem run_bind_ok {i : ι} {p : Proc P ε α} {f : α → Proc P ε β} {s s' : σ} {b : β}
    (h : A.run i (p.bind f) s = (.ok b, s')) :
    ∃ a t, A.run i p s = (.ok a, t) ∧ A.run i (f a) t = (.ok b, s') := by
  rw [run_bind] at h
  split at h
  · next a t hp => exact ⟨a, t, hp, h⟩
  · cases h

/-- What every request of a program respects, its run respects. -/
theorem run_only {ok : P.Req → Prop} {J : σ → σ → Prop} (hrefl : ∀ s, J s s)
    (htrans : ∀ {s t u}, J s t → J t u → J s u) {i : ι}
    (hJ : ∀ {r s}, ok r → J s (A.perform i r s).2) {p : Proc P ε α} (hp : p.Only ok) (s : σ) :
    J s (A.run i p s).2 := by
  induction p generalizing s with
  | ret a => exact hrefl s
  | throw e => exact hrefl s
  | sync r k ih => exact htrans (hJ hp.1) (ih _ (hp.2 _) _)
  | await r k ih => exact htrans (hJ hp.1) (ih _ (hp.2 _) _)
  | pause p ih => exact ih hp s

theorem run_settle (i : ι) (p : Proc P ε α) (s : σ) :
    A.run i p.settle s = (.ok (A.run i p s).1, (A.run i p s).2) := by
  unfold Proc.settle
  rw [run_catching, run_bind]
  cases A.run i p s with
  | mk x s' => cases x <;> rfl

/-- `finally` runs its part either way. -/
theorem run_ensuring (i : ι) (p : Proc P ε α) (q : Proc P ε Unit) (s : σ) :
    A.run i (p.ensuring q) s =
      match A.run i q (A.run i p s).2 with
      | (.ok _, s') => ((A.run i p s).1, s')
      | (.error e, s') => (.error e, s') := by
  unfold Proc.ensuring
  rw [run_bind, run_settle]
  refine (A.run_bind i q _ _).trans ?_
  cases A.run i q (A.run i p s).2 with
  | mk x s' =>
    cases x with
    | error e => rfl
    | ok u => exact A.run_ofExcept i _ s'

/-- Running the implementation of a program is running the program over the
implemented requests. -/
theorem run_implement (A : Adapter P' ε σ ι) (impl : (r : P.Req) → Proc P' ε (P.Resp r)) (i : ι)
    (p : Proc P ε α) (s : σ) : A.run i (p.implement impl) s = (A.via impl).run i p s := by
  induction p generalizing s with
  | ret a => rfl
  | throw e => rfl
  | sync r k ih => simp only [Proc.implement, run_bind, run_settle]; exact ih _ _
  | await r k ih => simp only [Proc.implement, run_bind, run_settle]; exact ih _ _
  | pause p ih => exact ih s

end Adapter

end Async
