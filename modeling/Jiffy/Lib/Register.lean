-- SUMMARY: A value in the state that some requests overwrite: after any run it is what was written last.
import Jiffy.Lib.Interleaving

/-!
# Registers

A register is a part of the state that some requests replace and no other
request changes. Whatever calls interleave, it holds what was written last, so
it moves in one direction when the writes do.
-/

namespace Async

variable {P : Interface} {ε α σ ι Op V : Type}

-- ---------------------------------------------------------------------------
-- What a run performs
-- ---------------------------------------------------------------------------

/-- What call `id` has performed. -/
def Config.history (c : Config P ε α σ Op) (id : Nat) : List (P.Event ε) :=
  (c.calls id).elim [] Call.history

/-- The requests that the turns of a run perform, in order. -/
def System.performed (S : System P ε α σ ι Op) :
    Config P ε α σ Op → List (Label ι Op) → List (P.Event ε)
  | _, [] => []
  | c, l :: ls =>
    match S.step c l with
    | none => []
    | some c' => (c'.history l.id).drop (c.history l.id).length ++ S.performed c' ls

theorem System.performed_cons {S : System P ε α σ ι Op} {c c' : Config P ε α σ Op} {l : Label ι Op}
    (h : S.step c l = some c') (ls : List (Label ι Op)) : S.performed c (l :: ls) =
      (c'.history l.id).drop (c.history l.id).length ++ S.performed c' ls := by
  simp only [System.performed, h]

/-- The call of a turn had performed what the turn starts with. -/
theorem System.Turn.history_eq {S : System P ε α σ ι Op} {c c' : Config P ε α σ Op} {l : Label ι Op}
    (τ : S.Turn c l c') : c.history l.id = τ.history := by
  unfold Config.history
  rcases τ.origin with ⟨-, hnone, hhist, -⟩ | ⟨-, -, k, hcall, -⟩
  · rw [hnone, hhist]
    rfl
  · rw [hcall]
    rfl

-- ---------------------------------------------------------------------------
-- Registers
-- ---------------------------------------------------------------------------

/-- A value in the state of `S`, as long as `Inv` holds of it. A turn starts in
a state that its input is admissible in. -/
structure Register (S : System P ε α σ ι Op) (V : Type) where
  Inv : σ → Prop
  value : σ → V
  /-- What an answered request writes, if it writes. -/
  writes : P.Event ε → Option V
  tick : ∀ {i s}, S.admissible i s → Inv s → Inv (S.tick i s) ∧ value (S.tick i s) = value s
  arrive : ∀ {op s t}, S.arrive op s = some t → Inv s → Inv t ∧ value t = value s
  perform : ∀ {i s₀}, S.admissible i s₀ → Inv s₀ → ∀ {r s}, Inv s → Inv (S.perform i r s).2 ∧
    value (S.perform i r s).2 = (writes ⟨r, (S.perform i r s).1⟩).getD (value s)

namespace Register

variable {S : System P ε α σ ι Op} (R : Register S V) {c c' : Config P ε α σ Op}

/-- What a run writes, in order. -/
def written (c : Config P ε α σ Op) (ls : List (Label ι Op)) : List V :=
  (S.performed c ls).filterMap R.writes

theorem getLastD_append (vs vs' : List V) (v : V) :
    (vs ++ vs').getLastD v = vs'.getLastD (vs.getLastD v) := by
  induction vs generalizing v with
  | nil => rfl
  | cons v' vs ih => rw [List.cons_append, List.getLastD_cons, List.getLastD_cons, ih]

/-- A write takes the place of what is there. -/
theorem getLastD_filterMap (e : P.Event ε) (es : List (P.Event ε)) (v : V) :
    ((e :: es).filterMap R.writes).getLastD v = (es.filterMap R.writes).getLastD ((R.writes e).getD v) := by
  rw [List.filterMap_cons]
  cases R.writes e with
  | none => rfl
  | some v' => rw [List.getLastD_cons]; rfl

theorem advance {i : ι} {s₀ : σ} (hadm : S.admissible i s₀) (hs₀ : R.Inv s₀) (p : Proc P ε α)
    (h : List (P.Event ε)) {s : σ} (hs : R.Inv s) : R.Inv (S.advance i p h s).state ∧
      ∃ es, (S.advance i p h s).history = h ++ es ∧
        R.value (S.advance i p h s).state = (es.filterMap R.writes).getLastD (R.value s) := by
  induction p generalizing h s with
  | ret a => exact ⟨hs, [], (List.append_nil h).symm, rfl⟩
  | throw e => exact ⟨hs, [], (List.append_nil h).symm, rfl⟩
  | sync r k ih =>
    obtain ⟨hinv, hvalue⟩ := R.perform hadm hs₀ hs (r := r)
    obtain ⟨hinv', es, hes, hvalue'⟩ := ih _ (h ++ [⟨r, (S.perform i r s).1⟩]) hinv
    refine ⟨hinv', ⟨r, (S.perform i r s).1⟩ :: es, hes.trans (List.append_assoc _ _ _), ?_⟩
    rw [R.getLastD_filterMap, ← hvalue]
    exact hvalue'
  | await r k ih =>
    obtain ⟨hinv, hvalue⟩ := R.perform hadm hs₀ hs (r := r)
    refine ⟨hinv, [⟨r, (S.perform i r s).1⟩], rfl, ?_⟩
    rw [R.getLastD_filterMap]
    exact hvalue
  | pause p ih => exact ⟨hs, [], (List.append_nil h).symm, rfl⟩

theorem step {l : Label ι Op} (h : S.step c l = some c') (hc : R.Inv c.world) : R.Inv c'.world ∧
    R.value c'.world = (((c'.history l.id).drop (c.history l.id).length).filterMap R.writes).getLastD
      (R.value c.world) := by
  obtain ⟨τ⟩ := S.step_turn h
  have hstart : R.Inv τ.state ∧ R.value τ.state = R.value c.world := by
    obtain ⟨hinv, hvalue⟩ := R.tick τ.admissible hc
    rcases τ.origin with ⟨-, -, -, -, harrive⟩ | ⟨-, hstate, -⟩
    · obtain ⟨hinv', hvalue'⟩ := R.arrive harrive hinv
      exact ⟨hinv', hvalue'.trans hvalue⟩
    · rw [hstate]
      exact ⟨hinv, hvalue⟩
  obtain ⟨hinv, es, hes, hvalue⟩ := R.advance τ.admissible hc τ.program τ.history hstart.1
  have hnew : (c'.history l.id).drop (c.history l.id).length = es := by
    unfold Config.history at *
    rw [τ.own, ← Config.history, τ.history_eq]
    simp only [Option.elim_some, hes, List.drop_left]
  rw [τ.world, hnew, ← hstart.2]
  exact ⟨hinv, hvalue⟩

/-- After a run the register holds what was written last. -/
theorem runs {ls : List (Label ι Op)} (h : S.runs c ls = some c') (hc : R.Inv c.world) :
    R.Inv c'.world ∧ R.value c'.world = (R.written c ls).getLastD (R.value c.world) := by
  induction ls generalizing c with
  | nil => cases h; exact ⟨hc, rfl⟩
  | cons l ls ih =>
    rw [S.runs_cons, Option.bind_eq_some_iff] at h
    obtain ⟨c₁, h₁, h₂⟩ := h
    obtain ⟨hinv, hvalue⟩ := R.step h₁ hc
    obtain ⟨hinv', hvalue'⟩ := ih h₂ hinv
    refine ⟨hinv', ?_⟩
    rw [hvalue', hvalue]
    unfold written
    rw [System.performed_cons h₁, List.filterMap_append, getLastD_append]

/-- It moves in one direction if the writes do. -/
theorem runs_moves {Rel : V → V → Prop} (hrefl : ∀ v, Rel v v)
    (htrans : ∀ {u v w}, Rel u v → Rel v w → Rel u w) {ls : List (Label ι Op)}
    (h : S.runs c ls = some c') (hc : R.Inv c.world)
    (hwritten : List.IsChain Rel (R.value c.world :: R.written c ls)) :
    Rel (R.value c.world) (R.value c'.world) := by
  rw [(R.runs h hc).2]
  generalize R.written c ls = vs at hwritten ⊢
  generalize R.value c.world = v at hwritten ⊢
  induction vs generalizing v with
  | nil => exact hrefl v
  | cons v' vs ih =>
    obtain ⟨hfirst, hrest⟩ := List.isChain_cons_cons.mp hwritten
    rw [List.getLastD_cons]
    exact htrans hfirst (ih v' hrest)

end Register

end Async
