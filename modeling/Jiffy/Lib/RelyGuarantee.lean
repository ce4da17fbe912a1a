-- SUMMARY: Rely-guarantee reasoning about interleaved calls: safe programs, contracts of a system, and what a run preserves.
import Jiffy.Lib.Interleaving

/-!
# Rely-guarantee rules

A call is safe when every request it makes meets its precondition and its
result meets its postcondition, whatever the other calls do between its turns
within the relation it relies on. A contract of a system gives each operation
such a precondition; if requests performed under them stay inside the relation,
then so does every step of every run.
-/

namespace Async

variable {P : Interface} {ε α β σ ι Op : Type}

/-- What a call works under: the invariant of the state, what other calls may
do to the state between two turns, and what must hold when the call makes a
request after a given history. -/
structure Conditions (P : Interface) (ε σ : Type) where
  Inv : σ → Prop
  Rely : σ → σ → Prop
  Pre : List (P.Event ε) → σ → P.Req → Prop

/-- What is asked of a settled call: the input of its last turn, its result,
its history and the state in which it settled. -/
abbrev Postcondition (P : Interface) (ε α σ ι : Type) : Type :=
  ι → Except ε α → List (P.Event ε) → σ → Prop

/-- The program meets `C` and establishes `Q` under interference. -/
def Proc.Safe (A : Adapter P ε σ ι) (C : Conditions P ε σ) (Q : Postcondition P ε α σ ι) :
    Proc P ε α → ι → List (P.Event ε) → σ → Prop
  | .ret a, i, h, s => Q i (.ok a) h s
  | .throw e, i, h, s => Q i (.error e) h s
  | .sync r k, i, h, s =>
    C.Pre h s r ∧ A.admissible i (A.perform i r s).2 ∧
      Safe A C Q (k (A.perform i r s).1) i (h ++ [⟨r, (A.perform i r s).1⟩]) (A.perform i r s).2
  | .await r k, i, h, s =>
    C.Pre h s r ∧ ∀ t i', C.Rely (A.perform i r s).2 t → C.Inv t → A.admissible i' t →
      Safe A C Q (k ((A.perform i r s).1.map (A.refresh t r))) i'
        (h ++ [⟨r, (A.perform i r s).1⟩]) t
  | .pause p, _, h, s => ∀ t i', C.Rely s t → C.Inv t → A.admissible i' t → Safe A C Q p i' h t

/-- A suspended call is safe when it is from every state it may be resumed in. -/
def SafeFrom (A : Adapter P ε σ ι) (C : Conditions P ε σ) (Q : Postcondition P ε α σ ι)
    (resume : σ → Proc P ε α) (h : List (P.Event ε)) (s : σ) : Prop :=
  ∀ t i, C.Rely s t → C.Inv t → A.admissible i t → (resume t).Safe A C Q i h t

namespace Proc.Safe

variable {A : Adapter P ε σ ι} {C : Conditions P ε σ} {Q Q' : Postcondition P ε α σ ι}

theorem mono (hQ : ∀ i x h s, Q i x h s → Q' i x h s) {p : Proc P ε α} {i : ι}
    {h : List (P.Event ε)} {s : σ} (hp : p.Safe A C Q i h s) : p.Safe A C Q' i h s := by
  induction p generalizing i h s with
  | ret a => exact hQ _ _ _ _ hp
  | throw e => exact hQ _ _ _ _ hp
  | sync r k ih => exact ⟨hp.1, hp.2.1, ih _ hp.2.2⟩
  | await r k ih => exact ⟨hp.1, fun t i' hR hI ha => ih _ (hp.2 t i' hR hI ha)⟩
  | pause p ih => exact fun t i' hR hI ha => ih (hp t i' hR hI ha)

/-- Safety of a composition: the first part may establish, as its
postcondition, that the rest is safe. -/
theorem bind {p : Proc P ε α} {f : α → Proc P ε β} {R : Postcondition P ε β σ ι} {i : ι}
    {h : List (P.Event ε)} {s : σ}
    (hp : p.Safe A C (fun i x h s => match x with
      | .ok a => (f a).Safe A C R i h s
      | .error e => R i (.error e) h s) i h s) :
    (p.bind f).Safe A C R i h s := by
  induction p generalizing i h s with
  | ret a => exact hp
  | throw e => exact hp
  | sync r k ih => exact ⟨hp.1, hp.2.1, ih _ hp.2.2⟩
  | await r k ih => exact ⟨hp.1, fun t i' hR hI ha => ih _ (hp.2 t i' hR hI ha)⟩
  | pause p ih => exact fun t i' hR hI ha => ih (hp t i' hR hI ha)

theorem catching {p : Proc P ε α} {f : ε → Proc P ε α} {i : ι} {h : List (P.Event ε)} {s : σ}
    (hp : p.Safe A C (fun i x h s => match x with
      | .ok a => Q i (.ok a) h s
      | .error e => (f e).Safe A C Q i h s) i h s) :
    (p.catching f).Safe A C Q i h s := by
  induction p generalizing i h s with
  | ret a => exact hp
  | throw e => exact hp
  | sync r k ih => exact ⟨hp.1, hp.2.1, ih _ hp.2.2⟩
  | await r k ih => exact ⟨hp.1, fun t i' hR hI ha => ih _ (hp.2 t i' hR hI ha)⟩
  | pause p ih => exact fun t i' hR hI ha => ih (hp t i' hR hI ha)

theorem settle {p : Proc P ε α} {R : Postcondition P ε (Except ε α) σ ι} {i : ι}
    {h : List (P.Event ε)} {s : σ} (hp : p.Safe A C (fun i x h s => R i (.ok x) h s) i h s) :
    p.settle.Safe A C R i h s := by
  refine catching (bind (mono ?_ hp))
  intro i x h s hx
  cases x <;> exact hx

/-- An implemented request is safe when its implementation leads to where the
rest of the program is. -/
theorem implement {P' : Interface} {A : Adapter P' ε σ ι} {C : Conditions P' ε σ}
    {Q : Postcondition P' ε β σ ι} {impl : (r : P.Req) → Proc P' ε (P.Resp r)} {r : P.Req}
    {k : Except ε (P.Resp r) → Proc P ε β} {i : ι} {h : List (P'.Event ε)} {s : σ}
    (hp : (impl r).Safe A C (fun i x h s => ((k x).implement impl).Safe A C Q i h s) i h s) :
    ((Proc.await r k).implement impl).Safe A C Q i h s :=
  bind (settle hp)

/-- A program is safe if all it may ask for is allowed at any time, and what it
asks for on the spot leaves the environment's input admissible. -/
theorem of_only {ok now : P.Req → Prop} (hpre : ∀ {r} h s, ok r → C.Pre h s r)
    (hadm : ∀ {i r s}, now r → A.admissible i s → A.admissible i (A.perform i r s).2)
    {p : Proc P ε α} (hp : p.Only ok) (hnow : p.OnSpot now) {i : ι} {h : List (P.Event ε)} {s : σ}
    (ha : A.admissible i s) : p.Safe A C (fun _ _ _ _ => True) i h s := by
  induction p generalizing i h s with
  | ret a => trivial
  | throw e => trivial
  | sync r k ih =>
    exact ⟨hpre h s hp.1, hadm hnow.1 ha, ih _ (hp.2 _) (hnow.2 _) (hadm hnow.1 ha)⟩
  | await r k ih => exact ⟨hpre h s hp.1, fun t i' _ _ ha' => ih _ (hp.2 _) (hnow _) ha'⟩
  | pause p ih => exact fun t i' _ _ ha' => ih hp hnow ha'

/-- A turn of a safe program ends in a result that meets the postcondition, or
in a suspended call that is again safe. -/
theorem advance {p : Proc P ε α} {i : ι} {h : List (P.Event ε)} {s : σ}
    (hp : p.Safe A C Q i h s) :
    match (A.advance i p h s).status with
    | .settled x => ∃ i', Q i' x (A.advance i p h s).history (A.advance i p h s).state
    | .suspended k => SafeFrom A C Q k (A.advance i p h s).history (A.advance i p h s).state := by
  induction p generalizing i h s with
  | ret a => exact ⟨i, hp⟩
  | throw e => exact ⟨i, hp⟩
  | sync r k ih => exact ih _ hp.2.2
  | await r k ih => exact hp.2
  | pause p ih => exact hp

end Proc.Safe

/-- Call `id` of `op` is on its way to `Q`: safe while suspended, and once
settled it settled in a state that met `Q`. -/
def Tracked (A : Adapter P ε σ ι) (C : Conditions P ε σ) (Q : Postcondition P ε α σ ι)
    (id : Nat) (op : Op) (c : Config P ε α σ Op) : Prop :=
  ∃ h st, c.calls id = some ⟨op, h, st⟩ ∧
    match st with
    | .settled x => ∃ i s, C.Rely s c.world ∧ C.Inv s ∧ Q i x h s
    | .suspended k => SafeFrom A C Q k h c.world

/-- A course of a system: configurations in which something holds, the turns
that are taken there, and what each turn does to the state at most. -/
structure Course (S : System P ε α σ ι Op) where
  Holds : Config P ε α σ Op → Prop
  Permits : Config P ε α σ Op → Label ι Op → Prop
  Inv : σ → Prop
  Rely : σ → σ → Prop
  refl : ∀ s, Rely s s
  trans : ∀ {s t u}, Rely s t → Rely t u → Rely s u
  inv : ∀ {c}, Holds c → Inv c.world
  turn : ∀ {c l c'}, Holds c → Permits c l → (τ : S.Turn c l c') →
    Inv τ.state ∧ S.admissible τ.input τ.state ∧ Rely c.world τ.state ∧ Rely τ.state c'.world
  next : ∀ {c l c'}, Holds c → Permits c l → S.step c l = some c' → Holds c'

namespace Course

variable {S : System P ε α σ ι Op} (C : Course S)

/-- What a call works under, with the preconditions `Pre`. -/
def conditions (Pre : List (P.Event ε) → σ → P.Req → Prop) : Conditions P ε σ := ⟨C.Inv, C.Rely, Pre⟩

theorem step {c c' : Config P ε α σ Op} {l : Label ι Op} (hc : C.Holds c) (hl : C.Permits c l)
    (h : S.step c l = some c') : C.Holds c' ∧ C.Rely c.world c'.world := by
  obtain ⟨τ⟩ := S.step_turn h
  obtain ⟨-, -, h₁, h₂⟩ := C.turn hc hl τ
  exact ⟨C.next hc hl h, C.trans h₁ h₂⟩

theorem runs {ls : List (Label ι Op)} {c c' : Config P ε α σ Op} (hc : C.Holds c)
    (hls : S.Along C.Permits c ls) (h : S.runs c ls = some c') :
    C.Holds c' ∧ C.Rely c.world c'.world := by
  induction ls generalizing c with
  | nil => cases h; exact ⟨hc, C.refl _⟩
  | cons l ls ih =>
    rw [S.runs_cons, Option.bind_eq_some_iff] at h
    obtain ⟨c₁, h₁, h₂⟩ := h
    obtain ⟨hc₁, hR₁⟩ := C.step hc hls.1 h₁
    obtain ⟨hc', hR₂⟩ := ih hc₁ (hls.2 h₁) h₂
    exact ⟨hc', C.trans hR₁ hR₂⟩

variable {Pre : List (P.Event ε) → σ → P.Req → Prop}

/-- A turn of a safe program puts its call on its way. -/
theorem tracked_turn {Q : Postcondition P ε α σ ι} {op : Op} {c c' : Config P ε α σ Op}
    {l : Label ι Op} (hc' : C.Holds c') (τ : S.Turn c l c') (hop : τ.op = op)
    (hp : τ.program.Safe S.toAdapter (C.conditions Pre) Q τ.input τ.history τ.state) :
    Tracked S.toAdapter (C.conditions Pre) Q l.id op c' := by
  subst hop
  refine ⟨_, _, τ.own, ?_⟩
  have hsafe := hp.advance
  have hw := τ.world
  revert hsafe
  cases (S.advance τ.input τ.program τ.history τ.state).status with
  | settled x =>
    rintro ⟨i, hQ⟩
    exact ⟨i, _, C.refl _, C.inv hc', hw ▸ hQ⟩
  | suspended k => exact fun hk => hw ▸ hk

/-- A call that is on its way stays on its way. -/
theorem tracked_step {Q : Postcondition P ε α σ ι} {id : Nat} {op : Op}
    {c c' : Config P ε α σ Op} {l : Label ι Op} (hc : C.Holds c) (hl : C.Permits c l)
    (ht : Tracked S.toAdapter (C.conditions Pre) Q id op c) (h : S.step c l = some c') :
    Tracked S.toAdapter (C.conditions Pre) Q id op c' := by
  obtain ⟨hist, st, hcall, hst⟩ := ht
  obtain ⟨hc', hrely⟩ := C.step hc hl h
  obtain ⟨τ⟩ := S.step_turn h
  by_cases hid : id = l.id
  · subst hid
    obtain ⟨hI, ha, hτ, -⟩ := C.turn hc hl τ
    rcases τ.origin with ⟨-, hnone, -⟩ | ⟨-, -, k, hcall', hprog⟩
    · rw [hnone] at hcall
      cases hcall
    · rw [hcall] at hcall'
      cases hcall'
      exact C.tracked_turn hc' τ rfl (hprog ▸ hst _ _ hτ hI ha)
  · refine ⟨hist, st, (τ.other hid).trans hcall, ?_⟩
    cases st with
    | settled x =>
      obtain ⟨i, s, hRs, hs⟩ := hst
      exact ⟨i, s, C.trans hRs hrely, hs⟩
    | suspended k => exact fun t i hRt => hst t i (C.trans hrely hRt)

/-- A new call is on its way to what its program establishes. -/
theorem tracked_start {Q : Postcondition P ε α σ ι} {op : Op}
    (hprog : ∀ {i s}, C.Inv s → S.admissible i s →
      (S.program op).Safe S.toAdapter (C.conditions Pre) Q i [] s)
    {id : Nat} {i : ι} {c c' : Config P ε α σ Op} (hc : C.Holds c) (hl : C.Permits c (.call id op i))
    (h : S.step c (.call id op i) = some c') :
    Tracked S.toAdapter (C.conditions Pre) Q id op c' := by
  obtain ⟨hc', -⟩ := C.step hc hl h
  obtain ⟨τ⟩ := S.step_turn h
  obtain ⟨hI, ha, -, -⟩ := C.turn hc hl τ
  rcases τ.origin with ⟨hcall, -, hhist, hp, -⟩ | ⟨hcall, -⟩
  · have hop : op = τ.op := (Label.call.inj hcall).2.1
    have hsafe := hprog hI ha
    rw [← hhist, show S.program op = τ.program by rw [hp, ← hop]] at hsafe
    exact C.tracked_turn hc' τ hop.symm hsafe
  · cases hcall

theorem tracked_runs {Q : Postcondition P ε α σ ι} {id : Nat} {op : Op}
    {ls : List (Label ι Op)} {c c' : Config P ε α σ Op} (hc : C.Holds c)
    (hls : S.Along C.Permits c ls) (ht : Tracked S.toAdapter (C.conditions Pre) Q id op c)
    (h : S.runs c ls = some c') : Tracked S.toAdapter (C.conditions Pre) Q id op c' := by
  induction ls generalizing c with
  | nil => cases h; exact ht
  | cons l ls ih =>
    rw [S.runs_cons, Option.bind_eq_some_iff] at h
    obtain ⟨c₁, h₁, h₂⟩ := h
    exact ih (C.step hc hls.1 h₁).1 (hls.2 h₁) (C.tracked_step hc hls.1 ht h₁) h₂

/-- What the program of `op` establishes, a call of `op` that started and
settled on the course has established. -/
theorem follow {Q : Postcondition P ε α σ ι} {op : Op}
    (hprog : ∀ {i s}, C.Inv s → S.admissible i s →
      (S.program op).Safe S.toAdapter (C.conditions Pre) Q i [] s)
    {id : Nat} {x : Except ε α} {hist : List (P.Event ε)} {ls : List (Label ι Op)}
    {c c' : Config P ε α σ Op} (hc : C.Holds c) (hls : S.Along C.Permits c ls)
    (hnew : c.calls id = none) (h : S.runs c ls = some c')
    (hx : c'.calls id = some ⟨op, hist, .settled x⟩) :
    ∃ i s, C.Rely s c'.world ∧ C.Inv s ∧ Q i x hist s := by
  induction ls generalizing c with
  | nil =>
    cases h
    rw [hnew] at hx
    cases hx
  | cons l ls ih =>
    rw [S.runs_cons, Option.bind_eq_some_iff] at h
    obtain ⟨c₁, h₁, h₂⟩ := h
    have hc₁ := (C.step hc hls.1 h₁).1
    by_cases hid : id = l.id
    · subst hid
      cases l with
      | resume id i => simp [System.step, show c.calls id = none from hnew] at h₁
      | call id op' i =>
        have hop : op' = op := by
          obtain ⟨τ⟩ := S.step_turn h₁
          obtain ⟨call, hcall, hop⟩ := S.runs_op h₂ τ.own
          rw [hcall] at hx
          cases hx
          rcases τ.origin with ⟨horigin, -⟩ | ⟨horigin, -⟩
          · exact (Label.call.inj horigin).2.1.trans hop.symm
          · cases horigin
        subst hop
        obtain ⟨hist', st, hcall, hst⟩ :=
          C.tracked_runs hc₁ (hls.2 h₁) (C.tracked_start hprog hc hls.1 h₁) h₂
        rw [show c'.calls id = _ from hx] at hcall
        cases hcall
        exact hst
    · obtain ⟨τ⟩ := S.step_turn h₁
      exact ih hc₁ (hls.2 h₁) ((τ.other hid).trans hnew) h₂

end Course

/-- A contract of a system: an invariant and a transitive relation that every
request performed under its operation's precondition keeps, and programs that
are safe for them. -/
structure Contract (S : System P ε α σ ι Op) where
  Inv : σ → Prop
  Rely : σ → σ → Prop
  Pre : Op → List (P.Event ε) → σ → P.Req → Prop
  refl : ∀ s, Rely s s
  trans : ∀ {s t u}, Rely s t → Rely t u → Rely s u
  tick : ∀ {i s}, Inv s → S.admissible i s →
    Inv (S.tick i s) ∧ Rely s (S.tick i s) ∧ S.admissible i (S.tick i s)
  arrive : ∀ {op i s s'}, Inv s → S.admissible i s → S.arrive op s = some s' →
    Inv s' ∧ Rely s s' ∧ S.admissible i s'
  perform : ∀ {op h i s r}, Inv s → S.admissible i s → Pre op h s r →
    Inv (S.perform i r s).2 ∧ Rely s (S.perform i r s).2
  program : ∀ op {i s}, Inv s → S.admissible i s →
    (S.program op).Safe S.toAdapter ⟨Inv, Rely, Pre op⟩ (fun _ _ _ _ => True) i [] s

namespace Contract

variable {S : System P ε α σ ι Op} (K : Contract S)

/-- What a call of `op` works under. -/
def conditions (op : Op) : Conditions P ε σ := ⟨K.Inv, K.Rely, K.Pre op⟩

/-- The invariant holds and every call in flight is safe. -/
structure Holds (c : Config P ε α σ Op) : Prop where
  inv : K.Inv c.world
  calls : ∀ {id op h k}, c.calls id = some ⟨op, h, .suspended k⟩ →
    SafeFrom S.toAdapter (K.conditions op) (fun _ _ _ _ => True) k h c.world

theorem holds_idle {s : σ} (hs : K.Inv s) : K.Holds (.idle s : Config P ε α σ Op) :=
  ⟨hs, fun h => by cases h⟩

/-- Any relation that requests performed under their preconditions respect is
respected by a whole turn of a safe program, and so is the invariant. -/
theorem advance_rel {op : Op} {J : σ → σ → Prop} (hrefl : ∀ s, J s s)
    (htrans : ∀ {s t u}, J s t → J t u → J s u)
    (hJ : ∀ {i h s r}, K.Inv s → S.admissible i s → K.Pre op h s r → J s (S.perform i r s).2)
    {Q : Postcondition P ε α σ ι} {p : Proc P ε α} {i : ι} {h : List (P.Event ε)} {s : σ}
    (hI : K.Inv s) (ha : S.admissible i s) (hp : p.Safe S.toAdapter (K.conditions op) Q i h s) :
    J s (S.advance i p h s).state ∧ K.Inv (S.advance i p h s).state := by
  induction p generalizing i h s with
  | ret a => exact ⟨hrefl s, hI⟩
  | throw e => exact ⟨hrefl s, hI⟩
  | sync r k ih =>
    obtain ⟨hJ', hI'⟩ := ih _ (K.perform hI ha hp.1).1 hp.2.1 hp.2.2
    exact ⟨htrans (hJ hI ha hp.1) hJ', hI'⟩
  | await r k ih => exact ⟨hJ hI ha hp.1, (K.perform hI ha hp.1).1⟩
  | pause p ih => exact ⟨hrefl s, hI⟩

/-- The requests a turn adds to the history were performed, each under its
precondition after the history up to it, in a state between the turn's first
and last. -/
theorem advance_events {op : Op} {J : σ → σ → Prop} (hrefl : ∀ s, J s s)
    (htrans : ∀ {s t u}, J s t → J t u → J s u)
    (hJ : ∀ {i h s r}, K.Inv s → S.admissible i s → K.Pre op h s r → J s (S.perform i r s).2)
    {Q : Postcondition P ε α σ ι} {p : Proc P ε α} {i : ι} {h : List (P.Event ε)} {s : σ}
    (hI : K.Inv s) (ha : S.admissible i s) (hp : p.Safe S.toAdapter (K.conditions op) Q i h s) :
    ∃ es, (S.advance i p h s).history = h ++ es ∧ ∀ es₁ e es₂, es = es₁ ++ e :: es₂ →
      ∃ s', J s s' ∧ K.Inv s' ∧ S.admissible i s' ∧ K.Pre op (h ++ es₁) s' e.1 ∧
        e.2 = (S.perform i e.1 s').1 ∧ J (S.perform i e.1 s').2 (S.advance i p h s).state := by
  induction p generalizing i h s with
  | ret a => exact ⟨[], (List.append_nil h).symm, fun es₁ e es₂ hes => by simp at hes⟩
  | throw e => exact ⟨[], (List.append_nil h).symm, fun es₁ e es₂ hes => by simp at hes⟩
  | sync r k ih =>
    have hI' := (K.perform hI ha hp.1).1
    obtain ⟨es, hes, hall⟩ := ih _ hI' hp.2.1 hp.2.2
    refine ⟨⟨r, (S.perform i r s).1⟩ :: es, hes.trans (by simp), fun es₁ e es₂ hsplit => ?_⟩
    cases es₁ with
    | nil =>
      cases hsplit
      exact ⟨s, hrefl s, hI, ha, (List.append_nil h).symm ▸ hp.1, rfl,
        (K.advance_rel hrefl htrans hJ hI' hp.2.1 hp.2.2).1⟩
    | cons e₁ es₁ =>
      obtain ⟨rfl, hrest⟩ := List.cons.inj hsplit
      obtain ⟨s', hR, hI', ha', hpre, hrest⟩ := hall es₁ e es₂ hrest
      exact ⟨s', htrans (hJ hI ha hp.1) hR, hI', ha', by simpa using hpre, hrest⟩
  | await r k ih =>
    refine ⟨[⟨r, (S.perform i r s).1⟩], rfl, fun es₁ e es₂ hsplit => ?_⟩
    cases es₁ with
    | nil =>
      cases hsplit
      exact ⟨s, hrefl s, hI, ha, (List.append_nil h).symm ▸ hp.1, rfl, hrefl _⟩
    | cons e₁ es₁ => simp at hsplit
  | pause p ih => exact ⟨[], (List.append_nil h).symm, fun es₁ e es₂ hes => by simp at hes⟩

/-- A request that a turn adds to the history was performed in that turn. -/
theorem advance_performed {op : Op} {J : σ → σ → Prop} (hrefl : ∀ s, J s s)
    (htrans : ∀ {s t u}, J s t → J t u → J s u)
    (hJ : ∀ {i h s r}, K.Inv s → S.admissible i s → K.Pre op h s r → J s (S.perform i r s).2)
    {Q : Postcondition P ε α σ ι} {p : Proc P ε α} {i : ι} {h : List (P.Event ε)} {s : σ}
    (hI : K.Inv s) (ha : S.admissible i s) (hp : p.Safe S.toAdapter (K.conditions op) Q i h s)
    {e : P.Event ε} (he : e ∈ (S.advance i p h s).history) :
    e ∈ h ∨ ∃ h' s', J s s' ∧ K.Inv s' ∧ S.admissible i s' ∧ K.Pre op h' s' e.1 ∧
      e.2 = (S.perform i e.1 s').1 ∧ J (S.perform i e.1 s').2 (S.advance i p h s).state := by
  obtain ⟨es, hes, hall⟩ := K.advance_events hrefl htrans hJ hI ha hp
  rw [hes] at he
  rcases List.mem_append.mp he with he | he
  · exact .inl he
  · obtain ⟨es₁, es₂, hsplit⟩ := List.append_of_mem he
    exact .inr ⟨h ++ es₁, hall es₁ e es₂ hsplit⟩

/-- The program a turn runs is safe where the turn runs it. -/
theorem turn_safe {c c' : Config P ε α σ Op} {l : Label ι Op} (hc : K.Holds c)
    (τ : S.Turn c l c') :
    K.Inv τ.state ∧ K.Rely c.world τ.state ∧ S.admissible τ.input τ.state ∧
      τ.program.Safe S.toAdapter (K.conditions τ.op) (fun _ _ _ _ => True) τ.input τ.history
        τ.state := by
  obtain ⟨hI, hR, ha⟩ := K.tick hc.inv τ.admissible
  rcases τ.origin with ⟨-, -, hh, hp, harr⟩ | ⟨-, hs, k, hcall, hp⟩
  · obtain ⟨hI', hR', ha'⟩ := K.arrive hI ha harr
    refine ⟨hI', K.trans hR hR', ha', ?_⟩
    rw [hh, hp]
    exact K.program τ.op hI' ha'
  · rw [hs] at hp ⊢
    refine ⟨hI, hR, ha, ?_⟩
    rw [hp]
    exact hc.calls hcall _ _ hR hI ha

/-- A turn stays inside the contract's relation. -/
theorem step_rely {c c' : Config P ε α σ Op} {l : Label ι Op} (hc : K.Holds c)
    (h : S.step c l = some c') : K.Rely c.world c'.world := by
  obtain ⟨τ⟩ := S.step_turn h
  obtain ⟨hI, hR, ha, hp⟩ := K.turn_safe hc τ
  rw [τ.world]
  exact K.trans hR (K.advance_rel K.refl K.trans (fun hI ha hp => (K.perform hI ha hp).2) hI ha hp).1

/-- A turn keeps the contract: its own call is safe where it stopped, and every
other call relied on no more than the turn respects. -/
theorem step_holds {c c' : Config P ε α σ Op} {l : Label ι Op} (hc : K.Holds c)
    (h : S.step c l = some c') : K.Holds c' := by
  have hstep := K.step_rely hc h
  obtain ⟨τ⟩ := S.step_turn h
  obtain ⟨hI, hR, ha, hp⟩ := K.turn_safe hc τ
  have hadv := K.advance_rel K.refl K.trans (fun hI ha hp => (K.perform hI ha hp).2) hI ha hp
  refine ⟨by rw [τ.world]; exact hadv.2, ?_⟩
  intro id op hist k hcall
  rw [τ.result] at hcall
  simp only [Config.record, Function.update_apply] at hcall
  split at hcall
  · simp only [Option.some.injEq, Call.mk.injEq] at hcall
    obtain ⟨rfl, rfl, hst⟩ := hcall
    have hsafe := hp.advance
    rw [hst] at hsafe
    rw [τ.world]
    exact hsafe
  · intro t i hRt
    exact hc.calls hcall t i (K.trans hstep hRt)

theorem runs_holds {ls : List (Label ι Op)} {c c' : Config P ε α σ Op} (hc : K.Holds c)
    (h : S.runs c ls = some c') : K.Holds c' ∧ K.Rely c.world c'.world := by
  induction ls generalizing c with
  | nil => cases h; exact ⟨hc, K.refl _⟩
  | cons l ls ih =>
    rw [S.runs_cons, Option.bind_eq_some_iff] at h
    obtain ⟨c₁, h₁, h₂⟩ := h
    obtain ⟨hc', hR⟩ := ih (K.step_holds hc h₁) h₂
    exact ⟨hc', K.trans (K.step_rely hc h₁) hR⟩

/-- A request that a call performed in a turn was performed in its own turn, in
a state that met the precondition. -/
theorem performedIn_turn {J : σ → σ → Prop} (hrefl : ∀ s, J s s)
    (htrans : ∀ {s t u}, J s t → J t u → J s u)
    (hJ : ∀ {op i h s r}, K.Inv s → S.admissible i s → K.Pre op h s r → J s (S.perform i r s).2)
    {c₀ before after : Config P ε α σ Op} {ls : List (Label ι Op)} {id : Nat} {e : P.Event ε}
    {l : Label ι Op} (hb : K.Holds before) (h : S.PerformedIn c₀ ls id e l before after) :
    l.id = id ∧ ∃ (τ : S.Turn before l after) (hist : List (P.Event ε)) (s : σ), J τ.state s ∧
      K.Inv s ∧ S.admissible τ.input s ∧ K.Pre τ.op hist s e.1 ∧
      e.2 = (S.perform τ.input e.1 s).1 ∧ J (S.perform τ.input e.1 s).2 after.world := by
  obtain ⟨τ⟩ := S.step_turn h.step
  obtain ⟨call, hcall, he⟩ := h.done
  have hid : l.id = id := by
    by_contra hne
    rw [τ.other (Ne.symm hne)] at hcall
    exact h.notYet ⟨call, hcall, he⟩
  subst hid
  refine ⟨rfl, τ, ?_⟩
  rw [τ.own] at hcall
  cases hcall
  obtain ⟨hI, -, ha, hp⟩ := K.turn_safe hb τ
  rcases K.advance_performed hrefl htrans hJ hI ha hp he with hmem | ⟨hist, s, hs⟩
  · rcases τ.origin with ⟨-, -, hnil, -⟩ | ⟨-, -, k, hcall, -⟩
    · rw [hnil] at hmem
      cases hmem
    · exact absurd ⟨_, hcall, hmem⟩ h.notYet
  · rw [τ.world]
    exact ⟨hist, s, hs⟩

/-- A regime narrows a contract down for a stretch of a run: only some
operations are in flight or called, so the requests respect a finer relation
and keep a further property of the state. -/
structure Regime where
  Allowed : Op → Prop
  Rely : σ → σ → Prop
  Stable : σ → Prop
  refl : ∀ s, Rely s s
  trans : ∀ {s t u}, Rely s t → Rely t u → Rely s u
  tick : ∀ {i s}, K.Inv s → S.admissible i s → Rely s (S.tick i s)
  arrive : ∀ {op i s s'}, K.Inv s → S.admissible i s → S.arrive op s = some s' → Rely s s'
  perform : ∀ {op h i s r}, Allowed op → K.Inv s → S.admissible i s → K.Pre op h s r →
    Rely s (S.perform i r s).2
  stable : ∀ {s t}, Stable s → K.Inv t → Rely s t → Stable t

/-- The regime in which anything may be called, with a property that the
contract's own relation keeps. -/
def regime (Stable : σ → Prop) (hstable : ∀ {s t}, Stable s → K.Inv t → K.Rely s t → Stable t) :
    K.Regime where
  Allowed _ := True
  Rely := K.Rely
  Stable := Stable
  refl := K.refl
  trans := K.trans
  tick hI ha := (K.tick hI ha).2.1
  arrive hI ha h := (K.arrive hI ha h).2.1
  perform _ hI ha hp := (K.perform hI ha hp).2
  stable := hstable

namespace Regime

variable {K} (R : K.Regime)

/-- What a call of `op` works under. -/
def conditions (op : Op) : Conditions P ε σ :=
  ⟨fun s => K.Inv s ∧ R.Stable s, R.Rely, K.Pre op⟩

/-- The regime is in force. -/
structure InForce (c : Config P ε α σ Op) : Prop where
  holds : K.Holds c
  stable : R.Stable c.world
  allowed : ∀ {id op h k}, c.calls id = some ⟨op, h, .suspended k⟩ → R.Allowed op

/-- The turn calls nothing that the regime excludes. -/
def Permits (l : Label ι Op) : Prop := ∀ id op i, l = .call id op i → R.Allowed op

theorem turn_rely {c c' : Config P ε α σ Op} {l : Label ι Op} (hc : R.InForce c)
    (hl : R.Permits l) (τ : S.Turn c l c') :
    R.Allowed τ.op ∧ R.Rely c.world τ.state ∧ R.Rely τ.state c'.world := by
  have hallowed : R.Allowed τ.op := by
    rcases τ.origin with ⟨hcall, -⟩ | ⟨-, -, k, hcall, -⟩
    · exact hl _ _ _ hcall
    · exact hc.allowed hcall
  obtain ⟨hI, hR, ha, hp⟩ := K.turn_safe hc.holds τ
  obtain ⟨htI, -, hta⟩ := K.tick hc.holds.inv τ.admissible
  have htick : R.Rely c.world (S.tick τ.input c.world) := R.tick hc.holds.inv τ.admissible
  have harrive : R.Rely (S.tick τ.input c.world) τ.state := by
    rcases τ.origin with ⟨-, -, -, -, harr⟩ | ⟨-, hs, -⟩
    · exact R.arrive htI hta harr
    · rw [hs]; exact R.refl _
  refine ⟨hallowed, R.trans htick harrive, ?_⟩
  rw [τ.world]
  exact (K.advance_rel R.refl R.trans (R.perform hallowed) hI ha hp).1

theorem step {c c' : Config P ε α σ Op} {l : Label ι Op} (hc : R.InForce c) (hl : R.Permits l)
    (h : S.step c l = some c') : R.InForce c' ∧ R.Rely c.world c'.world := by
  obtain ⟨τ⟩ := S.step_turn h
  obtain ⟨hallowed, h₁, h₂⟩ := R.turn_rely hc hl τ
  have hrely := R.trans h₁ h₂
  have hholds := K.step_holds hc.holds h
  refine ⟨⟨hholds, R.stable hc.stable hholds.inv hrely, ?_⟩, hrely⟩
  intro id op hist k hcall
  rw [τ.result] at hcall
  simp only [Config.record, Function.update_apply] at hcall
  split at hcall
  · simp only [Option.some.injEq, Call.mk.injEq] at hcall
    exact hcall.1 ▸ hallowed
  · exact hc.allowed hcall

/-- A regime as a course. -/
def course : Course S where
  Holds := R.InForce
  Permits _ := R.Permits
  Inv s := K.Inv s ∧ R.Stable s
  Rely := R.Rely
  refl := R.refl
  trans := R.trans
  inv hc := ⟨hc.holds.inv, hc.stable⟩
  turn hc hl τ := by
    obtain ⟨-, hτ, hrest⟩ := R.turn_rely hc hl τ
    obtain ⟨hI, -, ha, -⟩ := K.turn_safe hc.holds τ
    exact ⟨⟨hI, R.stable hc.stable hI hτ⟩, ha, hτ, hrest⟩
  next hc hl h := (R.step hc hl h).1

theorem runs {ls : List (Label ι Op)} {c c' : Config P ε α σ Op} (hc : R.InForce c)
    (hls : ∀ l ∈ ls, R.Permits l) (h : S.runs c ls = some c') :
    R.InForce c' ∧ R.Rely c.world c'.world :=
  R.course.runs hc (S.along_of_forall (fun _ => hls) c) h

/-- What the program of `op` establishes, a call of `op` that started and
settled within the regime has established. -/
theorem follow {Q : Postcondition P ε α σ ι} {op : Op}
    (hprog : ∀ {i s}, K.Inv s → R.Stable s → S.admissible i s →
      (S.program op).Safe S.toAdapter (R.conditions op) Q i [] s)
    {id : Nat} {x : Except ε α} {hist : List (P.Event ε)} {ls : List (Label ι Op)}
    {c c' : Config P ε α σ Op} (hc : R.InForce c) (hls : ∀ l ∈ ls, R.Permits l)
    (hnew : c.calls id = none) (h : S.runs c ls = some c')
    (hx : c'.calls id = some ⟨op, hist, .settled x⟩) :
    ∃ i s, R.Rely s c'.world ∧ K.Inv s ∧ R.Stable s ∧ Q i x hist s := by
  obtain ⟨i, s, hR, hI, hQ⟩ := R.course.follow (fun hI => hprog hI.1 hI.2) hc
    (S.along_of_forall (fun _ => hls) c) hnew h hx
  exact ⟨i, s, hR, hI.1, hI.2, hQ⟩

end Regime

end Contract

end Async
