-- SUMMARY: Invariants that tie the state to all histories, kept by every request that the rules of its call allow.
import Jiffy.Lib.Journal
import Jiffy.Lib.Rules

/-!
# Chronicles under rules

A `Contract` has chronicles because its programs are safe in every state that
others leave. Rules look at one history alone, and what they allow is enough to
keep an invariant of state and journal where no condition on the state is needed.
-/

namespace Async

variable {P : Interface} {ε α σ ι Op : Type}

theorem Journal.set_set (j : Journal P ε Op) (id : Nat) (op : Op) (h h' : List (P.Event ε)) :
    (j.set id op h).set id op h' = j.set id op h' := Function.update_idem ..

theorem Journal.set_eq (j : Journal P ε Op) {id : Nat} {op : Op} {h : List (P.Event ε)}
    (hj : j id = some (op, h)) : j.set id op h = j := by
  unfold Journal.set
  rw [← hj]
  exact Function.update_eq_self ..

namespace System

/-- An invariant of state and journal that every allowed request keeps. -/
structure Chronicle (S : System P ε α σ ι Op) (R : Op → Rules P ε) (Holds : σ → Journal P ε Op → Prop) :
    Prop where
  tick : ∀ {i s j}, Holds s j → Holds (S.tick i s) j
  arrive : ∀ {op s t j id}, S.arrive op s = some t → j id = none → Holds s j → Holds t (j.set id op [])
  perform : ∀ {id op h i s r j}, j id = some (op, h) → (R op).allows h r → Holds s j →
    Holds (S.perform i r s).2 (j.set id op (h ++ [⟨r, (S.perform i r s).1⟩]))

variable {S : System P ε α σ ι Op} {R : Op → Rules P ε} {Q : Op → Ending P ε α}
  {Holds : σ → Journal P ε Op → Prop}

theorem Chronicle.advance (J : S.Chronicle R Holds) (hfits : ∀ op, (R op).Fits S.toAdapter) {op : Op} {i : ι}
    {p : Proc P ε α} {Q : Ending P ε α} {h : List (P.Event ε)} {s : σ} {j : Journal P ε Op} {id : Nat}
    (hp : p.Keeps (R op) Q h) (hs : Holds s (j.set id op h)) :
    Holds (S.advance i p h s).state (j.set id op (S.advance i p h s).history) := by
  have hnext : ∀ {h r s}, (R op).allows h r → Holds s (j.set id op h) →
      Holds (S.perform i r s).2 (j.set id op (h ++ [⟨r, (S.perform i r s).1⟩])) := by
    intro h r s hallows hs
    have hset := @J.perform id op h i s r _ (j.set_self id op h) hallows hs
    rwa [j.set_set] at hset
  induction p generalizing h s with
  | ret a => exact hs
  | throw e => exact hs
  | sync r k ih => exact ih _ (hp.2 _ ((hfits op).answers i r s)) (hnext hp.1 hs)
  | await r k ih => exact hnext hp.1 hs
  | pause p ih => exact hs

/-- It holds in every run. -/
theorem Chronicle.runs (J : S.Chronicle R Holds) (hfits : ∀ op, (R op).Fits S.toAdapter)
    (hprog : ∀ op, (S.program op).Keeps (R op) (Q op) []) {ls : List (Label ι Op)} {s : σ}
    {c : Config P ε α σ Op} (h : S.runs (.idle s) ls = some c) (hs : Holds s fun _ => none) :
    AllCovered R Q c ∧ Holds c.world c.journal := by
  refine S.along_inv (I := fun c => AllCovered R Q c ∧ Holds c.world c.journal)
    (fun {c l c'} hc (_ : True) hstep => ?_) (S.along_of_forall (fun _ _ _ => trivial) _) h
    ⟨fun _ _ _ _ hcall => (by cases hcall), hs⟩
  obtain ⟨hcovered, hholds⟩ := hc
  refine ⟨step_covered hfits hprog hcovered hstep, ?_⟩
  obtain ⟨τ⟩ := S.step_turn hstep
  rw [τ.result, Config.journal_record]
  show Holds (S.advance τ.input τ.program τ.history τ.state).state _
  have hticked := J.tick (i := τ.input) hholds
  rcases τ.origin with ⟨-, hnew, hnil, hprogram, harrive⟩ | ⟨-, hstate, k, hcall, hprogram⟩
  · rw [hnil, hprogram]
    exact J.advance hfits (hprog τ.op) (J.arrive harrive (Config.journal_eq_none.mpr hnew) hticked)
  · have hcovers := hcovered _ _ _ _ hcall
    rw [hprogram]
    refine J.advance hfits (hcovers.resumes k rfl _) ?_
    rw [hstate, c.journal.set_eq (Config.journal_eq_some.mpr ⟨_, hcall⟩)]
    exact hticked

end System

end Async
