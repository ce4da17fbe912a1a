-- SUMMARY: The in-memory stores as the store that a deployment shares; a single instance over them is the process.
import Jiffy.Adapters.Cluster
import Jiffy.InProcess.Connections

/-!
# The stores of the process, shared
-/

namespace Jiffy

open Js Async

/-- Stored messages were created at instants that a `Date` can hold. -/
def World.Dated (w : World) : Prop := ∀ m ∈ w.messages.messages, IsTime m.createdAt

namespace InMemory

theorem dated_init (clock : Int) : (World.init clock).Dated := fun _ hm => by cases hm

/-- A call at an instant that a `Date` can hold stores and publishes such
messages only. -/
theorem Effect.dated {i : Input} {w w' : World} {op : Op} {result : Except Failure Reply}
    (hw : w.Dated) (hnow : IsTime w.clock) (h : Effect i w op result w') :
    w'.Dated ∧ ∀ m ∈ w'.published.drop w.published.length, IsTime m.createdAt := by
  cases h with
  | rejected | read | created | alreadyDeleted | cleared | marked =>
    refine ⟨hw, fun m hm => ?_⟩
    have hnone : m ∈ w.published.drop w.published.length := hm
    rw [List.drop_length] at hnone
    cases hnone
  | sent hbody hc hu =>
    refine ⟨fun m hm => ?_, fun m hm => ?_⟩
    · rcases List.mem_append.mp hm with hm | hm
      · exact hw m hm
      · rw [List.mem_singleton.mp hm]
        exact hnow
    · rw [List.drop_left, List.mem_singleton] at hm
      rw [hm]
      exact hnow
  | tombstoned hm hd =>
    have hfound := hw _ (List.mem_of_find?_eq_some hm)
    refine ⟨fun m hm' => ?_, fun m hm' => ?_⟩
    · rcases mem_mutateFirst hm' with hm' | ⟨message, hmessage, -, rfl⟩
      · exact hw m hm'
      · exact hw message hmessage
    · rw [List.drop_left, List.mem_singleton] at hm'
      rw [hm']
      exact hfound

theorem serve_dated {i : Input} {w : World} (op : Op) (hw : w.Dated) (hnow : IsTime i.now) :
    (serve i op w).2.Dated ∧
      ∀ m ∈ (serve i op w).2.published.drop w.published.length, IsTime m.createdAt :=
  Effect.dated (w := adapter.tick i w) hw hnow (serve_effect i op w)

end InMemory

namespace InProcess

/-- The in-memory stores behind calls of the service, while the clock reads
instants that a `Date` can hold. -/
abbrev store : SharedStore Op (Except Failure Reply) where
  State := { w : World // w.Dated }
  call i op w :=
    if h : InMemory.admissible i w.1 = true ∧ IsTime i.now then
      let answer := InMemory.serve i op w.1
      some (answer.1, ⟨answer.2, (InMemory.serve_dated op w.2 h.2).1⟩,
        answer.2.published.drop w.1.published.length)
    else none
  findById w id := w.1.conversations.findById id
  dated := by
    intro i op w answer w' messages h
    split at h
    · next hnow =>
      cases h
      exact (InMemory.serve_dated op w.2 hnow.2).2
    · cases h

/-- The single instance and the process hold the same. -/
def Same (s : store.Single) (p : Process) : Prop := s.state.1 = p.world ∧ s.sockets = p.sockets

theorem emit_handOver (i : Input) (w : { w : World // w.Dated }) (messages : List Message)
    (sockets : Sockets Message) : Process.mk w.1 (messages.foldl (store.emit w) sockets) =
      messages.foldl (handOver i) ⟨w.1, sockets⟩ := by
  induction messages generalizing sockets with
  | nil => rfl
  | cons m messages ih =>
    rw [List.foldl_cons, ih, List.foldl_cons, handOver_eq]
    congr 1
    unfold SharedStore.emit delivered
    rw [Instance.handOver_eq]
    change Process.mk _ { sockets with frames :=
      sockets.frames ++
        (w.1.conversations.findById m.conversationId).elim [] (Instance.framesOf sockets m) } = _
    cases w.1.conversations.findById m.conversationId <;> rfl

/-- The process takes every step of a single instance over its stores. -/
theorem same_step {s s' : store.Single} {p : Process} {x : Input × Happening Op}
    {out : Option (Except Failure Reply)} (h : Same s p) (hs : store.single.step x s = some (out, s')) :
    ∃ p', (machine service).step x p = some (out, p') ∧ Same s' p' := by
  obtain ⟨⟨w, hw⟩, sockets⟩ := s
  obtain ⟨world, sockets'⟩ := p
  obtain ⟨rfl, rfl⟩ : w = world ∧ sockets = sockets' := h
  obtain ⟨i, happening⟩ := x
  cases happening with
  | call op =>
    simp only [SharedStore.single, Option.map_eq_some_iff, Prod.exists, Prod.mk.injEq] at hs
    obtain ⟨answer, state, messages, hcall, rfl, rfl⟩ := hs
    split at hcall
    · next hnow =>
      cases hcall
      have hall := emit_handOver i ⟨_, (InMemory.serve_dated op hw hnow.2).1⟩
        ((InMemory.serve i op w).2.published.drop w.published.length) sockets
      exact ⟨_, if_pos hnow.1, congrArg Process.world hall, congrArg Process.sockets hall⟩
    · cases hcall
  | upgraded u =>
    cases hs
    exact ⟨_, rfl, rfl, rfl⟩
  | closing t =>
    simp only [SharedStore.single] at hs
    split at hs
    · cases hs
      exact ⟨_, rfl, rfl, rfl⟩
    · cases hs
  | closed u t =>
    simp only [SharedStore.single] at hs
    split at hs
    · next hguard =>
      cases hs
      exact ⟨_, if_pos hguard, rfl, rfl⟩
    · cases hs

/-- The runs of a single instance over the in-memory stores are runs of the
process. -/
theorem single_run {clock : Int} {s : store.Single}
    {log : List (Machine.Event store.Single (Input × Happening Op) (Option (Except Failure Reply)))}
    (h : store.single.Run (SharedStore.Single.init ⟨.init clock, InMemory.dated_init clock⟩) log s) :
    ∃ log' p, (machine service).Run (Process.init clock) log' p ∧ Same s p ∧
      log'.map Machine.Event.input = log.map Machine.Event.input ∧
      log'.map Machine.Event.output = log.map Machine.Event.output :=
  h.simulate (f := id) same_step ⟨rfl, rfl⟩

end InProcess

end Jiffy
