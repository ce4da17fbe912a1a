-- SUMMARY: Invariants that tie the state to what every call has performed, kept request by request.
import Jiffy.Lib.RelyGuarantee

/-!
# Journals

The journal of a configuration holds the history of every call that was made. A
chronicle is an invariant of state and journal together. It is kept by single
requests, so it may say whose request left what in the state.
-/

namespace Async

variable {P : Interface} {ε α σ ι Op β : Type}

-- ---------------------------------------------------------------------------
-- Order in a history
-- ---------------------------------------------------------------------------

/-- `a` stands before some `b`. -/
def Precedes (a b : β) (h : List β) : Prop := ∃ h₁ h₂, h = h₁ ++ b :: h₂ ∧ a ∈ h₁

namespace Precedes

variable {a b : β} {h : List β}

theorem last (ha : a ∈ h) (b : β) : Precedes a b (h ++ [b]) := ⟨h, [], rfl, ha⟩

theorem append (hab : Precedes a b h) (t : List β) : Precedes a b (h ++ t) := by
  obtain ⟨h₁, h₂, rfl, ha⟩ := hab
  exact ⟨h₁, h₂ ++ t, by simp, ha⟩

theorem mem_first (hab : Precedes a b h) : a ∈ h := by
  obtain ⟨h₁, h₂, rfl, ha⟩ := hab
  exact List.mem_append_left _ ha

end Precedes

-- ---------------------------------------------------------------------------
-- Journals
-- ---------------------------------------------------------------------------

/-- The operation and the history of each call. -/
abbrev Journal (P : Interface) (ε Op : Type) : Type := Nat → Option (Op × List (P.Event ε))

/-- The journal after a call's history became `h`. -/
def Journal.set (j : Journal P ε Op) (id : Nat) (op : Op) (h : List (P.Event ε)) : Journal P ε Op :=
  Function.update j id (some (op, h))

@[simp] theorem Journal.set_self (j : Journal P ε Op) (id : Nat) (op : Op) (h : List (P.Event ε)) :
    j.set id op h id = some (op, h) := Function.update_self ..

theorem Journal.set_of_ne (j : Journal P ε Op) {id id' : Nat} (hid : id' ≠ id) (op : Op)
    (h : List (P.Event ε)) : j.set id op h id' = j id' := Function.update_of_ne hid _ _

theorem Journal.set_eq_some {j : Journal P ε Op} {id id' : Nat} {op op' : Op} {h h' : List (P.Event ε)}
    (hset : j.set id op h id' = some (op', h')) :
    (id' = id ∧ op' = op ∧ h' = h) ∨ (id' ≠ id ∧ j id' = some (op', h')) := by
  by_cases hid : id' = id
  · subst hid
    rw [j.set_self] at hset
    cases hset
    exact .inl ⟨rfl, rfl, rfl⟩
  · exact .inr ⟨hid, (j.set_of_ne hid op h).symm.trans hset⟩

def Config.journal (c : Config P ε α σ Op) : Journal P ε Op :=
  fun id => (c.calls id).map fun call => (call.op, call.history)

@[simp] theorem Config.journal_idle (s : σ) : (Config.idle s : Config P ε α σ Op).journal = fun _ => none :=
  rfl

theorem Config.journal_record (c : Config P ε α σ Op) (id : Nat) (op : Op) (o : Outcome P ε α σ) :
    (c.record id op o).journal = c.journal.set id op o.history := by
  funext id'
  unfold journal record Journal.set
  by_cases h : id' = id
  · subst h
    simp
  · simp [Function.update_of_ne h]

theorem Config.journal_eq_some {c : Config P ε α σ Op} {id : Nat} {op : Op} {h : List (P.Event ε)} :
    c.journal id = some (op, h) ↔ ∃ st, c.calls id = some ⟨op, h, st⟩ := by
  simp only [Config.journal, Option.map_eq_some_iff]
  constructor
  · rintro ⟨⟨op', h', st⟩, hcall, heq⟩
    cases heq
    exact ⟨st, hcall⟩
  · rintro ⟨st, hcall⟩
    exact ⟨_, hcall, rfl⟩

theorem Config.journal_eq_none {c : Config P ε α σ Op} {id : Nat} :
    c.journal id = none ↔ c.calls id = none := Option.map_eq_none_iff

/-- Histories only grow. -/
def Journal.Extends (j j' : Journal P ε Op) : Prop :=
  ∀ ⦃id op h⦄, j id = some (op, h) → ∃ t, j' id = some (op, h ++ t)

theorem Journal.extends_set {j : Journal P ε Op} {id : Nat} {op : Op} {h : List (P.Event ε)}
    (hj : j id = some (op, h)) (t : List (P.Event ε)) : j.Extends (j.set id op (h ++ t)) := by
  intro id' op' h' hj'
  by_cases hid : id' = id
  · subst hid
    rw [hj] at hj'
    cases hj'
    exact ⟨t, j.set_self ..⟩
  · exact ⟨[], by rw [j.set_of_ne hid, hj', List.append_nil]⟩

theorem Journal.extends_new {j : Journal P ε Op} {id : Nat} (hj : j id = none) (op : Op) :
    j.Extends (j.set id op []) := by
  intro id' op' h' hj'
  have hid : id' ≠ id := by
    rintro rfl
    rw [hj] at hj'
    cases hj'
  exact ⟨[], by rw [j.set_of_ne hid, hj', List.append_nil]⟩

-- ---------------------------------------------------------------------------
-- Chronicles
-- ---------------------------------------------------------------------------

/-- Both preconditions hold at every request. -/
theorem Proc.Safe.and {A : Adapter P ε σ ι} {Inv : σ → Prop} {Rely : σ → σ → Prop}
    {Pre Pre' : List (P.Event ε) → σ → P.Req → Prop} {Q Q' : Postcondition P ε α σ ι}
    {p : Proc P ε α} {i : ι} {h : List (P.Event ε)} {s : σ}
    (hp : p.Safe A ⟨Inv, Rely, Pre⟩ Q i h s) (hp' : p.Safe A ⟨Inv, Rely, Pre'⟩ Q' i h s) :
    p.Safe A ⟨Inv, Rely, fun h s r => Pre h s r ∧ Pre' h s r⟩ (fun i x h s => Q i x h s ∧ Q' i x h s)
      i h s := by
  induction p generalizing i h s with
  | ret a => exact ⟨hp, hp'⟩
  | throw e => exact ⟨hp, hp'⟩
  | sync r k ih => exact ⟨⟨hp.1, hp'.1⟩, hp.2.1, ih _ hp.2.2 hp'.2.2⟩
  | await r k ih =>
    exact ⟨⟨hp.1, hp'.1⟩, fun t i' hR hI ha => ih _ (hp.2 t i' hR hI ha) (hp'.2 t i' hR hI ha)⟩
  | pause p ih => exact fun t i' hR hI ha => ih (hp t i' hR hI ha) (hp' t i' hR hI ha)

namespace Contract

variable {S : System P ε α σ ι Op} (K : Contract S)

/-- The contract with a further precondition that the programs also meet. -/
def strengthen (Pre : Op → List (P.Event ε) → σ → P.Req → Prop)
    (hprogram : ∀ op {i s}, K.Inv s → S.admissible i s →
      (S.program op).Safe S.toAdapter ⟨K.Inv, K.Rely, Pre op⟩ (fun _ _ _ _ => True) i [] s) :
    Contract S where
  Inv := K.Inv
  Rely := K.Rely
  Pre op h s r := K.Pre op h s r ∧ Pre op h s r
  refl := K.refl
  trans := K.trans
  tick := K.tick
  arrive := K.arrive
  perform hI ha hp := K.perform hI ha hp.1
  program op _ _ hI ha := (K.program op hI ha |>.and (hprogram op hI ha)).mono fun _ _ _ _ _ => trivial

/-- An invariant of state and journal that every request performed under its
precondition keeps, when the environment's input is `ok`. -/
structure Chronicle (ok : ι → Prop) where
  Holds : σ → Journal P ε Op → Prop
  tick : ∀ {i s j}, ok i → K.Inv s → S.admissible i s → Holds s j → Holds (S.tick i s) j
  arrive : ∀ {op s t j id}, S.arrive op s = some t → j id = none → Holds s j → Holds t (j.set id op [])
  perform : ∀ {id op h i s r j}, ok i → K.Inv s → S.admissible i s → K.Pre op h s r →
    j id = some (op, h) → Holds s j →
      Holds (S.perform i r s).2 (j.set id op (h ++ [⟨r, (S.perform i r s).1⟩]))

namespace Chronicle

variable {K} {ok : ι → Prop} (J : K.Chronicle ok)

theorem advance {op : Op} {Q : Postcondition P ε α σ ι} {p : Proc P ε α} {i : ι}
    {h : List (P.Event ε)} {s : σ} {j : Journal P ε Op} {id : Nat} (hok : ok i) (hI : K.Inv s)
    (ha : S.admissible i s) (hp : p.Safe S.toAdapter (K.conditions op) Q i h s)
    (hj : j id = some (op, h)) (hJ : J.Holds s j) :
    J.Holds (S.advance i p h s).state (j.set id op (S.advance i p h s).history) := by
  have hsame : j.set id op h = j := by
    unfold Journal.set
    rw [← hj, Function.update_eq_self]
  induction p generalizing h s j with
  | ret a => exact hsame.symm ▸ hJ
  | throw e => exact hsame.symm ▸ hJ
  | sync r k ih =>
    have hnext := J.perform hok hI ha hp.1 hj hJ
    have hrest := ih _ (K.perform hI ha hp.1).1 hp.2.1 hp.2.2 (j.set_self ..) hnext
      (Function.update_idem ..)
    unfold Journal.set at hrest
    rwa [Function.update_idem] at hrest
  | await r k ih => exact J.perform hok hI ha hp.1 hj hJ
  | pause p ih => exact hsame.symm ▸ hJ

theorem step {c c' : Config P ε α σ Op} {l : Label ι Op} (hok : ok l.input) (hc : K.Holds c)
    (hJ : J.Holds c.world c.journal) (h : S.step c l = some c') : J.Holds c'.world c'.journal := by
  obtain ⟨τ⟩ := S.step_turn h
  obtain ⟨hI, -, ha, hp⟩ := K.turn_safe hc τ
  have hinput : ok τ.input := τ.input_eq ▸ hok
  have htick := J.tick hinput hc.inv τ.admissible hJ
  have hworld := congrArg Config.journal τ.result
  rw [Config.journal_record] at hworld
  rw [τ.world, hworld]
  rcases τ.origin with ⟨-, hnew, hnil, -, harr⟩ | ⟨-, hs, k, hcall, -⟩
  · have hstart := J.arrive harr (Config.journal_eq_none.mpr hnew) htick
    rw [← hnil] at hstart
    have hrest := J.advance hinput hI ha hp (c.journal.set_self ..) hstart
    unfold Journal.set at hrest ⊢
    rwa [Function.update_idem] at hrest
  · exact J.advance hinput hI ha hp (Config.journal_eq_some.mpr ⟨_, hcall⟩) (hs ▸ htick)

/-- A chronicle holds after every run whose inputs are `ok`. -/
theorem runs {ls : List (Label ι Op)} {c c' : Config P ε α σ Op} (hls : ∀ l ∈ ls, ok l.input)
    (hc : K.Holds c) (hJ : J.Holds c.world c.journal) (h : S.runs c ls = some c') :
    J.Holds c'.world c'.journal := by
  induction ls generalizing c with
  | nil => cases h; exact hJ
  | cons l ls ih =>
    rw [S.runs_cons, Option.bind_eq_some_iff] at h
    obtain ⟨c₁, h₁, h₂⟩ := h
    have hl := hls l List.mem_cons_self
    exact ih (fun l hl => hls l (List.mem_cons_of_mem _ hl)) (K.step_holds hc h₁) (J.step hl hc hJ h₁) h₂

end Chronicle

/-- What no input answers stands in the history of no call that is new. -/
def silence (new : Nat → Prop) (e : P.Event ε) : K.Chronicle fun i => ∀ s, (S.perform i e.1 s).1 ≠ e.2 where
  Holds _ j := ∀ id op h, new id → j id = some (op, h) → e ∉ h
  tick _ _ _ h := h
  arrive _ _ h id' op' h' hnew hset := by
    rcases Journal.set_eq_some hset with ⟨-, -, rfl⟩ | ⟨-, hj'⟩
    · exact List.not_mem_nil
    · exact h id' op' h' hnew hj'
  perform {id op hist i s r j} hok _ _ _ hj h id' op' h' hnew hset := by
    rcases Journal.set_eq_some hset with ⟨rfl, rfl, rfl⟩ | ⟨-, hj'⟩
    · intro he
      rcases List.mem_append.mp he with he | he
      · exact h _ _ hist hnew hj he
      · obtain rfl := List.mem_singleton.mp he
        exact hok s rfl
    · exact h id' op' h' hnew hj'

/-- An answer that no input of a run gives is given to no call of that run. -/
theorem runs_silence {e : P.Event ε} {ls : List (Label ι Op)} {c c' : Config P ε α σ Op}
    (hls : ∀ l ∈ ls, ∀ s, (S.perform l.input e.1 s).1 ≠ e.2) (hc : K.Holds c)
    (h : S.runs c ls = some c') {id : Nat} {op : Op} {hist : List (P.Event ε)}
    (hnew : c.calls id = none) (hcall : c'.journal id = some (op, hist)) : e ∉ hist := by
  have hstart : (K.silence (fun id => c.calls id = none) e).Holds c.world c.journal := by
    intro id' op' h' hnew' hj
    rw [Config.journal_eq_none.mpr hnew'] at hj
    cases hj
  exact (K.silence _ e).runs hls hc hstart h id op hist hnew hcall

end Contract

end Async
