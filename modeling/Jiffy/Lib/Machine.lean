-- SUMMARY: Sequential runs of a state machine: invariants over runs, and comparing a run with the one some inputs are erased from.
import Mathlib.Data.List.Forall2

/-!
# Machines

A machine takes one input at a time. A run is the list of its events, each
with the states around it.

The last part compares two runs, the second fed only the inputs of the first
that are kept. It is the unwinding argument for noninterference: a relation
between the states of both runs that kept steps preserve, and that erased steps
cannot break.
-/

variable {σ ι ο : Type}

/-- A state machine. An input may be impossible in a state. -/
structure Machine (σ ι ο : Type) where
  step : ι → σ → Option (ο × σ)

namespace Machine

/-- One step of a run. -/
structure Event (σ ι ο : Type) where
  before : σ
  input : ι
  output : ο
  after : σ

/-- The runs from `s`: what happened, and the state reached. -/
inductive Run (M : Machine σ ι ο) (s : σ) : List (Event σ ι ο) → σ → Prop where
  | nil : Run M s [] s
  | snoc {es : List (Event σ ι ο)} {t t' : σ} {i : ι} {o : ο} (run : Run M s es t)
    (step : M.step i t = some (o, t')) : Run M s (es ++ [⟨t, i, o, t'⟩]) t'

/-- A property of every event after the events before it, event by event. -/
theorem forall_splits_concat {α : Type} {P : List α → α → Prop} {as : List α} {b : α} :
    (∀ as₁ a as₂, as ++ [b] = as₁ ++ a :: as₂ → P as₁ a) ↔
      (∀ as₁ a as₂, as = as₁ ++ a :: as₂ → P as₁ a) ∧ P as b := by
  constructor
  · refine fun h => ⟨fun as₁ a as₂ heq => h as₁ a (as₂ ++ [b]) ?_, h as b [] rfl⟩
    rw [heq, List.append_assoc, List.cons_append]
  · rintro ⟨h, hlast⟩ as₁ a as₂ heq
    rcases List.eq_nil_or_concat as₂ with rfl | ⟨as₂, b', rfl⟩
    · obtain ⟨rfl, hb⟩ := List.append_inj' heq rfl
      cases hb
      exact hlast
    · rw [List.concat_eq_append, ← List.cons_append, ← List.append_assoc] at heq
      obtain ⟨rfl, -⟩ := List.append_inj' heq rfl
      exact h as₁ a as₂ rfl

namespace Run

variable {M : Machine σ ι ο} {s t : σ} {es : List (Event σ ι ο)}

/-- A property of the history and the state that every step extends holds of
every run. -/
theorem inv {I : List (Event σ ι ο) → σ → Prop} (hinit : I [] s)
    (hstep : ∀ {es t i o t'}, I es t → M.step i t = some (o, t') → I (es ++ [⟨t, i, o, t'⟩]) t')
    (h : M.Run s es t) : I es t := by
  induction h with
  | nil => exact hinit
  | snoc _ hs ih => exact hstep ih hs

/-- What every step from a reachable state does, every event of a run did. -/
theorem events {P : Event σ ι ο → Prop}
    (hstep : ∀ {es t i o t'}, M.Run s es t → M.step i t = some (o, t') → P ⟨t, i, o, t'⟩)
    (h : M.Run s es t) : ∀ e ∈ es, P e := by
  induction h with
  | nil => simp
  | snoc hrun hs ih =>
    intro e he
    rcases List.mem_append.mp he with he | he
    · exact ih e he
    · rw [List.mem_singleton] at he
      exact he ▸ hstep hrun hs

/-- What every step from a reachable state does, every event of a run did after
the events before it. -/
theorem prefixes {P : List (Event σ ι ο) → Event σ ι ο → Prop}
    (hstep : ∀ {es t i o t'}, M.Run s es t → M.step i t = some (o, t') → P es ⟨t, i, o, t'⟩)
    (h : M.Run s es t) : ∀ es₁ e es₂, es = es₁ ++ e :: es₂ → P es₁ e := by
  induction h with
  | nil => simp
  | snoc hrun hs ih => exact forall_splits_concat.mpr ⟨ih, hstep hrun hs⟩

/-- The inputs determine the run. -/
theorem deterministic {es' : List (Event σ ι ο)} {t' : σ} (h : M.Run s es t) (h' : M.Run s es' t')
    (hinputs : es.map Event.input = es'.map Event.input) : es = es' ∧ t = t' := by
  induction h generalizing es' t' with
  | nil =>
    cases h' with
    | nil => exact ⟨rfl, rfl⟩
    | snoc _ _ => simp at hinputs
  | snoc _ hs ih =>
    cases h' with
    | nil => simp at hinputs
    | snoc hrun' hs' =>
      simp only [List.map_append, List.map_cons, List.map_nil] at hinputs
      obtain ⟨hinit, hlast⟩ := List.append_inj' hinputs rfl
      obtain ⟨rfl, rfl⟩ := ih hrun' hinit
      cases hlast
      rw [hs] at hs'
      cases hs'
      exact ⟨rfl, rfl⟩

/-- A machine that matches every step of another matches its runs, event for
event. -/
theorem matched {τ κ ο' : Type} {N : Machine τ κ ο'} {R : σ → τ → Prop}
    {Q : Event σ ι ο → Event τ κ ο' → Prop} {P : σ → ι → Prop}
    (hstep : ∀ {s t i o s'}, R s t → P s i → M.step i s = some (o, s') →
      ∃ k o' t', N.step k t = some (o', t') ∧ R s' t' ∧ Q ⟨s, i, o, s'⟩ ⟨t, k, o', t'⟩)
    {s₀ : τ} (hinit : R s s₀) (h : M.Run s es t) (hP : ∀ e ∈ es, P e.before e.input) :
    ∃ es' t', N.Run s₀ es' t' ∧ R t t' ∧ List.Forall₂ Q es es' := by
  induction h with
  | nil => exact ⟨[], s₀, .nil, hinit, .nil⟩
  | snoc _ hs ih =>
    obtain ⟨es', t₁, hrun, hR, hQ⟩ := ih fun e he => hP e (List.mem_append_left _ he)
    obtain ⟨k, o', t₂, hs', hR', hlast⟩ :=
      hstep hR (hP _ (List.mem_append_right _ (List.mem_singleton.mpr rfl))) hs
    exact ⟨_, t₂, hrun.snoc hs', hR', List.rel_append hQ (.cons hlast .nil)⟩

/-- The same for a machine whose inputs are read through `f`, and whose outputs
are equal. -/
theorem simulate {τ κ : Type} {N : Machine τ κ ο} {f : ι → κ} {R : σ → τ → Prop}
    (hstep : ∀ {s t i o s'}, R s t → M.step i s = some (o, s') →
      ∃ t', N.step (f i) t = some (o, t') ∧ R s' t')
    {s₀ : τ} (hinit : R s s₀) (h : M.Run s es t) : ∃ es' t', N.Run s₀ es' t' ∧ R t t' ∧
      es'.map Event.input = es.map (fun e => f e.input) ∧ es'.map Event.output = es.map Event.output := by
  obtain ⟨es', t', hrun, hR, hQ⟩ := h.matched (N := N) (R := R) (P := fun _ _ => True)
    (Q := fun e e' => e'.input = f e.input ∧ e'.output = e.output)
    (fun {s t i o s'} hR _ hs => by
      obtain ⟨t', hs', hR'⟩ := hstep hR hs
      exact ⟨f i, o, t', hs', hR', rfl, rfl⟩) hinit fun _ _ => trivial
  refine ⟨es', t', hrun, hR, ?_, ?_⟩
  · rw [← List.forall₂_eq_eq_eq, List.forall₂_map_left_iff, List.forall₂_map_right_iff]
    exact hQ.flip.imp fun _ _ h => h.1
  · rw [← List.forall₂_eq_eq_eq, List.forall₂_map_left_iff, List.forall₂_map_right_iff]
    exact hQ.flip.imp fun _ _ h => h.2

end Run

-- ---------------------------------------------------------------------------
-- Erasing inputs
-- ---------------------------------------------------------------------------

/-- A relation between the states of a run and of the run without the inputs
that are not kept, with what it says about the outputs. -/
structure Erasure (M : Machine σ ι ο) where
  keep : σ → ι → Bool
  Sim : σ → σ → Prop
  Agree : Event σ ι ο → Event σ ι ο → Prop
  kept : ∀ {s t i o s'}, Sim s t → keep s i = true → M.step i s = some (o, s') →
    ∃ o' t', M.step i t = some (o', t') ∧ Sim s' t' ∧ Agree ⟨s, i, o, s'⟩ ⟨t, i, o', t'⟩
  erased : ∀ {s t i o s'}, Sim s t → keep s i = false → M.step i s = some (o, s') → Sim s' t

namespace Erasure

variable {M : Machine σ ι ο} (E : M.Erasure) {s t s' t' : σ} {es es' : List (Event σ ι ο)}

/-- The events of a run that are kept. -/
def keptOf (es : List (Event σ ι ο)) : List (Event σ ι ο) :=
  es.filter fun e => E.keep e.before e.input

/-- The run without the erased inputs exists, and goes along. -/
theorem run (hsim : E.Sim s t) (h : M.Run s es s') :
    ∃ es' t', M.Run t es' t' ∧ E.Sim s' t' ∧
      List.Forall₂ (fun e e' => e.input = e'.input ∧ E.Agree e e') (E.keptOf es) es' := by
  induction h with
  | nil => exact ⟨[], t, .nil, hsim, .nil⟩
  | @snoc es s₁ s₂ i o _ hs ih =>
    obtain ⟨es', t₁, hrun', hsim', hall⟩ := ih
    cases hkeep : E.keep s₁ i with
    | true =>
      obtain ⟨o', t₂, hs', hsim₂, hagree⟩ := E.kept hsim' hkeep hs
      refine ⟨_, t₂, hrun'.snoc hs', hsim₂, ?_⟩
      rw [keptOf, List.filter_append, List.filter_cons_of_pos (by exact hkeep), List.filter_nil]
      exact List.rel_append hall (.cons ⟨rfl, hagree⟩ .nil)
    | false =>
      refine ⟨es', t₁, hrun', E.erased hsim' hkeep hs, ?_⟩
      rw [keptOf, List.filter_append, List.filter_cons_of_neg (by simp [hkeep]), List.filter_nil,
        List.append_nil]
      exact hall

/-- Any run fed the kept inputs agrees with the first. -/
theorem agree (hsim : E.Sim s t) (h : M.Run s es s') (h' : M.Run t es' t')
    (hinputs : es'.map Event.input = (E.keptOf es).map Event.input) :
    E.Sim s' t' ∧ List.Forall₂ E.Agree (E.keptOf es) es' := by
  obtain ⟨es'', t'', hrun, hsim', hall⟩ := E.run hsim h
  have hmap : (E.keptOf es).map Event.input = es''.map Event.input := by
    rw [← List.forall₂_eq_eq_eq, List.forall₂_map_left_iff, List.forall₂_map_right_iff]
    exact hall.imp fun _ _ he => he.1
  obtain ⟨rfl, rfl⟩ := h'.deterministic hrun (hinputs.trans hmap)
  exact ⟨hsim', hall.imp fun _ _ he => he.2⟩

end Erasure

end Machine
