-- SUMMARY: Any number of instances behind Redis send on every socket what a single instance would send.
import Jiffy.InProcess.SharedStore
import Jiffy.Redis.LiveFailures
import Jiffy.Redis.Payload

/-!
# Many instances

Each instance holds the sockets that it opened, and of a message it sends what
the single instance sends on these. What it sends was revived from the channel
and reads the same.
-/

namespace Jiffy

open Js RedisMessageBus

namespace SharedStore

variable {α β : Type} {store : SharedStore α β} {engine : Engine} {n : Nat} {owners : List (Fin n)}
  {k : Fin n} {sockets : Sockets Message} {part : Sockets Value} {m : Message} {u : String}

/-- Frames as they are written: the socket and the text. -/
def textFrames {μ : Type} (text : μ → String) (frames : List (Frame μ)) : List (Nat × String) :=
  frames.map fun f => (f.socket, text f.message)

def ownedBy (owners : List (Fin n)) (k : Fin n) (socket : Nat) : Bool :=
  decide (owners[socket]? = some k)

/-- The text of a revived value. -/
def valueText (engine : Engine) (v : Value) : String := v.stringify engine.numberText

/-- The part of the single instance's sockets that is instance `k`'s. -/
structure Shard (engine : Engine) (owners : List (Fin n)) (k : Fin n) (sockets : Sockets Message)
    (part : Sockets Value) : Prop where
  registry : ∀ u, part.registry.get u = (sockets.registry.get u).filter (ownedBy owners k)
  opened : part.opened = sockets.opened.filter (ownedBy owners k)
  frames : textFrames (valueText engine) part.frames =
    (textFrames (payloadOf engine) sockets.frames).filter fun f => ownedBy owners k f.1

-- ---------------------------------------------------------------------------
-- Deliveries
-- ---------------------------------------------------------------------------

theorem emit_eq (state : store.State) : store.emit state sockets m = { sockets with
    frames := sockets.frames ++
      (store.findById state m.conversationId).elim [] (Instance.framesOf sockets m) } := by
  unfold emit
  rw [Instance.handOver_eq]
  rfl

theorem arrive_eq (hengine : engine.ReadsISO) (hm : IsTime m.createdAt) (state : store.State)
    {p : Redis.Node} (hp : p.pending = []) : store.arrive engine state p (payloadOf engine m) =
      { p with sockets := { p.sockets with
        frames := p.sockets.frames ++ (store.findById state m.conversationId).elim []
          (Instance.framesOf p.sockets (revivedMessage m)) } } := by
  have hreceive : p.receive engine channel (payloadOf engine m) = { p with pending := [revivedMessage m] } := by
    unfold Redis.Node.receive listener
    rw [if_neg (not_not.mpr rfl), parseMessage_payloadOf hengine hm]
    simp only [Except.map, conversationIdOf_revivedMessage, hp, List.nil_append]
  unfold arrive
  simp only [hreceive, List.foldl_cons, List.foldl_nil, Redis.Node.deliver, Instance.handOver_eq,
    conversationIdOf_revivedMessage]
  rw [← hp]
  rfl

theorem recipients_shard (h : Shard engine owners k sockets part)
    (participants : List ConversationParticipant) : part.recipients participants =
      (sockets.recipients participants).filter (ownedBy owners k) := by
  unfold Sockets.recipients
  rw [List.filter_flatMap]
  congr 1
  funext participant
  rw [h.registry, h.opened, List.filter_filter, List.filter_filter]
  apply List.filter_congr
  intro t _
  simp only [List.mem_filter, Bool.decide_and, Bool.decide_eq_true]
  cases ownedBy owners k t <;> simp

/-- What one delivery adds stays in step. -/
theorem Shard.deliver (h : Shard engine owners k sockets part) (found : Option Conversation) :
    Shard engine owners k
      { sockets with frames := sockets.frames ++ found.elim [] (Instance.framesOf sockets m) }
      { part with frames := part.frames ++ found.elim [] (Instance.framesOf part (revivedMessage m)) } := by
  refine ⟨h.registry, h.opened, ?_⟩
  have hadded : textFrames (valueText engine) (found.elim [] (Instance.framesOf part (revivedMessage m))) =
      (textFrames (payloadOf engine) (found.elim [] (Instance.framesOf sockets m))).filter
        fun f => ownedBy owners k f.1 := by
    cases found with
    | none => rfl
    | some conversation =>
      simp only [Option.elim_some, Instance.framesOf, textFrames, List.map_map, recipients_shard h,
        List.filter_map]
      apply List.map_congr_left
      intro t _
      exact congrArg (Prod.mk t) (stringify_revivedMessage engine m)
  have happend : ∀ {μ : Type} (text : μ → String) (fs gs : List (Frame μ)),
      textFrames text (fs ++ gs) = textFrames text fs ++ textFrames text gs := fun _ _ _ => List.map_append
  simp only [happend, hadded, h.frames, List.filter_append]

-- ---------------------------------------------------------------------------
-- The two deployments, step by step
-- ---------------------------------------------------------------------------

/-- Every socket of the single instance is numbered below `len`. -/
structure Below (len : Nat) (sockets : Sockets Message) : Prop where
  next : sockets.next = len
  registered : ∀ {u t}, t ∈ sockets.registry.get u → t < len
  opened : ∀ {t}, t ∈ sockets.opened → t < len
  framed : ∀ {f}, f ∈ sockets.frames → f.socket < len

/-- An instance that runs, with nothing left to deliver, and its part. -/
structure Idle (engine : Engine) (owners : List (Fin n)) (k : Fin n) (sockets : Sockets Message)
    (p : Redis.Node) : Prop where
  up : p.down = none
  idle : p.pending = []
  shard : Shard engine owners k sockets p.sockets

/-- The deployments agree on the store, and each instance holds its part. -/
structure Sim (engine : Engine) (c : store.Cluster n) (s : store.Single) : Prop where
  state : c.state = s.state
  below : Below c.owners.length s.sockets
  nodes : ∀ k, Idle engine c.owners k s.sockets (c.nodes k)

theorem ownedBy_append {t : Nat} (ht : t < owners.length) (k' : Fin n) :
    ownedBy (owners ++ [k']) k t = ownedBy owners k t := by
  unfold ownedBy
  rw [List.getElem?_append_left ht]

theorem ownedBy_last (k' : Fin n) : ownedBy (owners ++ [k']) k owners.length = decide (k' = k) := by
  unfold ownedBy
  simp

theorem Below.emit {len : Nat} (h : Below len sockets) (state : store.State) (m : Message) :
    Below len (store.emit state sockets m) := by
  rw [emit_eq]
  refine ⟨h.next, h.registered, h.opened, fun hf => ?_⟩
  rcases List.mem_append.mp hf with hf | hf
  · exact h.framed hf
  · cases hfound : store.findById state m.conversationId with
    | none => rw [hfound] at hf; cases hf
    | some conversation =>
      rw [hfound] at hf
      obtain ⟨t, ht, rfl⟩ := List.mem_map.mp hf
      obtain ⟨participant, -, ht⟩ := List.mem_flatMap.mp ht
      exact h.registered (List.mem_of_mem_filter ht)

theorem Idle.arrive (hengine : engine.ReadsISO) (hm : IsTime m.createdAt) {p : Redis.Node}
    (h : Idle engine owners k sockets p) (state : store.State) : Idle engine owners k
      (store.emit state sockets m) (store.arrive engine state p (payloadOf engine m)) := by
  rw [emit_eq, arrive_eq hengine hm state h.idle]
  exact ⟨h.up, h.idle, h.shard.deliver _⟩

/-- The deliveries of one call, on the single instance and on one of many. -/
theorem emit_arrive (hengine : engine.ReadsISO) (state : store.State) {messages : List Message}
    (hmessages : ∀ m ∈ messages, IsTime m.createdAt) (hbelow : Below owners.length sockets)
    {nodes : Fin n → Redis.Node} (hnodes : ∀ k, Idle engine owners k sockets (nodes k)) :
    Below owners.length (messages.foldl (store.emit state) sockets) ∧
      ∀ k, Idle engine owners k (messages.foldl (store.emit state) sockets)
        ((messages.map (payloadOf engine)).foldl (store.arrive engine state) (nodes k)) := by
  induction messages generalizing sockets nodes with
  | nil => exact ⟨hbelow, hnodes⟩
  | cons m messages ih =>
    have hm := hmessages m List.mem_cons_self
    simp only [List.map_cons, List.foldl_cons]
    exact ih (fun m' hm' => hmessages m' (List.mem_cons_of_mem _ hm')) (hbelow.emit state m)
      fun k => (hnodes k).arrive hengine hm state

/-- A socket is opened on instance `k'`. -/
theorem Shard.upgraded (h : Shard engine owners k sockets part) (hbelow : Below owners.length sockets)
    (k' : Fin n) (u : String) : Shard engine (owners ++ [k']) k
      { sockets with
        registry := sockets.registry.add u sockets.next
        opened := sockets.opened ++ [sockets.next]
        next := sockets.next + 1 }
      (if k' = k then
        { part with
          registry := part.registry.add u owners.length
          opened := part.opened ++ [owners.length]
          next := owners.length + 1 }
      else part) := by
  have hold : ∀ {ts : List Nat}, (∀ t ∈ ts, t < owners.length) →
      ts.filter (ownedBy (owners ++ [k']) k) = ts.filter (ownedBy owners k) := fun hts =>
    List.filter_congr fun t ht => ownedBy_append (hts t ht) k'
  have hregistry : ∀ v, (sockets.registry.get v).filter (ownedBy (owners ++ [k']) k) =
      (sockets.registry.get v).filter (ownedBy owners k) := fun v => hold fun t => hbelow.registered
  have hopened : sockets.opened.filter (ownedBy (owners ++ [k']) k) =
      sockets.opened.filter (ownedBy owners k) := hold fun t => hbelow.opened
  have hframes : (textFrames (payloadOf engine) sockets.frames).filter
      (fun f => ownedBy (owners ++ [k']) k f.1) =
        (textFrames (payloadOf engine) sockets.frames).filter fun f => ownedBy owners k f.1 := by
    refine List.filter_congr fun f hf => ?_
    obtain ⟨frame, hframe, rfl⟩ := List.mem_map.mp hf
    exact ownedBy_append (hbelow.framed hframe) k'
  have hnew : ∀ v, owners.length ∉ sockets.registry.get v := fun v hv => (hbelow.registered hv).false
  refine ⟨fun v => ?_, ?_, ?_⟩
  · simp only [hbelow.next, ConnectionRegistry.get_add, hnew u, if_false]
    split
    · next hk =>
      have hnew' : owners.length ∉ part.registry.get u := by
        rw [h.registry]
        exact fun hmem => hnew u (List.mem_of_mem_filter hmem)
      simp only [ConnectionRegistry.get_add, hnew', if_false]
      split
      · rw [h.registry, List.filter_append, hregistry]
        simp [ownedBy_last, hk]
      · rw [h.registry, hregistry]
    · next hk =>
      rw [h.registry]
      split
      · next hv =>
        subst hv
        rw [List.filter_append, hregistry]
        simp [ownedBy_last, hk]
      · rw [hregistry]
  · simp only [hbelow.next, List.filter_append, hopened]
    split
    · next hk => simp [h.opened, ownedBy_last, hk]
    · next hk => simp [h.opened, ownedBy_last, hk]
  · simp only [hframes]
    split
    · exact h.frames
    · exact h.frames

/-- Instances other than its own do not miss a socket. -/
theorem filter_other {k' : Fin n} {t : Nat} (ht : ownedBy owners k' t = true) (hk : k' ≠ k)
    (ts : List Nat) : (ts.filter fun x => x ≠ t).filter (ownedBy owners k) =
      ts.filter (ownedBy owners k) := by
  rw [List.filter_filter]
  refine List.filter_congr fun x _ => ?_
  by_cases hx : x = t
  · subst hx
    unfold ownedBy at ht ⊢
    rw [decide_eq_true_eq] at ht
    simp [ht, hk]
  · simp [hx]

/-- A socket leaves `OPEN` on its instance. -/
theorem Shard.closing (h : Shard engine owners k sockets part) {k' : Fin n} {t : Nat}
    (ht : ownedBy owners k' t = true) : Shard engine owners k (Instance.closing t sockets)
      (if k' = k then Instance.closing t part else part) := by
  refine ⟨fun v => ?_, ?_, ?_⟩
  · split <;> exact h.registry v
  · split
    · simp only [Instance.closing, h.opened, List.filter_filter, Bool.and_comm]
    · next hk => exact h.opened.trans (filter_other ht hk _).symm
  · split <;> exact h.frames

/-- A socket is removed from the registry of its instance. -/
theorem Shard.closed (h : Shard engine owners k sockets part) {k' : Fin n} {t : Nat}
    (ht : ownedBy owners k' t = true) (u : String) : Shard engine owners k
      { sockets with registry := sockets.registry.remove u t }
      (if k' = k then { part with registry := part.registry.remove u t } else part) := by
  refine ⟨fun v => ?_, ?_, ?_⟩
  · simp only [ConnectionRegistry.get_remove]
    split
    · simp only [ConnectionRegistry.get_remove, h.registry]
      split
      · simp only [List.filter_filter, Bool.and_comm]
      · rfl
    · next hk =>
      rw [h.registry]
      split
      · next hv =>
        subst hv
        exact (filter_other ht hk _).symm
      · rfl
  · split <;> exact h.opened
  · split <;> exact h.frames

/-- What one instance is made to do, the single instance is made to do. -/
theorem Sim.onNode {c : store.Cluster n} {s : store.Single} (h : Sim engine c s) {k' : Fin n}
    {f : Sockets Value → Sockets Value} {owners : List (Fin n)} {sockets : Sockets Message}
    (hbelow : Below owners.length sockets) (hshard : ∀ k, Shard engine owners k sockets
      (if k' = k then f (c.nodes k).sockets else (c.nodes k).sockets)) :
    Sim engine { c.onNode k' f with owners } ⟨s.state, sockets⟩ := by
  refine ⟨h.state, hbelow, fun k => ?_⟩
  have hk := hshard k
  simp only [Cluster.onNode, Function.update_apply]
  split
  · next heq =>
    subst heq
    rw [if_pos rfl] at hk
    exact ⟨(h.nodes k).up, (h.nodes k).idle, hk⟩
  · next hne =>
    rw [if_neg fun heq => hne heq.symm] at hk
    exact ⟨(h.nodes k).up, (h.nodes k).idle, hk⟩

theorem sim_init (engine : Engine) (state : store.State) :
    Sim engine (Cluster.init (n := n) state) (Single.init state) :=
  ⟨rfl, ⟨rfl, by simp [Single.init, Sockets.empty], by simp [Single.init, Sockets.empty],
    by simp [Single.init, Sockets.empty]⟩, fun _ => ⟨rfl, rfl, ⟨fun _ => rfl, rfl, rfl⟩⟩⟩

/-- The single instance takes every step of the many. -/
theorem Sim.step (hengine : engine.ReadsISO) {c c' : store.Cluster n} {s : store.Single}
    {x : Fin n × Input × Happening α} {out : Option β} (h : Sim engine c s)
    (hs : (store.cluster engine n).step x c = some (out, c')) :
    ∃ s', store.single.step x.2 s = some (out, s') ∧ Sim engine c' s' := by
  obtain ⟨k, i, happening⟩ := x
  simp only [cluster] at hs
  cases happening with
  | call a =>
    simp only [Option.map_eq_some_iff, Prod.exists, Prod.mk.injEq] at hs
    obtain ⟨answer, state, messages, hcall, rfl, rfl⟩ := hs
    rw [h.state] at hcall
    obtain ⟨hbelow, hnodes⟩ := emit_arrive hengine state (store.dated hcall) h.below h.nodes
    refine ⟨⟨state, messages.foldl (store.emit state) s.sockets⟩, ?_, rfl, hbelow, hnodes⟩
    simp only [single, hcall, Option.map_some]
  | upgraded u =>
    simp only [Option.some.injEq, Prod.mk.injEq] at hs
    obtain ⟨rfl, rfl⟩ := hs
    refine ⟨_, rfl, h.onNode ?_ fun j => (h.nodes j).shard.upgraded h.below k u⟩
    have hnext := h.below.next
    rw [List.length_append, List.length_singleton]
    refine ⟨congrArg Nat.succ hnext, fun ht => ?_, fun ht => ?_, fun hf => ?_⟩
    · rcases ConnectionRegistry.mem_get_add.mp ht with ht | ⟨-, rfl⟩
      · exact Nat.lt_succ_of_lt (h.below.registered ht)
      · exact Nat.lt_succ_of_le hnext.le
    · rcases List.mem_append.mp ht with ht | ht
      · exact Nat.lt_succ_of_lt (h.below.opened ht)
      · exact Nat.lt_succ_of_le ((List.mem_singleton.mp ht).trans hnext).le
    · exact Nat.lt_succ_of_lt (h.below.framed hf)
  | closing t =>
    simp only at hs
    split at hs
    · next ht =>
      simp only [Option.some.injEq, Prod.mk.injEq] at hs
      obtain ⟨rfl, rfl⟩ := hs
      rw [(h.nodes k).shard.opened] at ht
      obtain ⟨hopen, hown⟩ := List.mem_filter.mp ht
      refine ⟨⟨s.state, Instance.closing t s.sockets⟩, if_pos hopen,
        h.onNode ?_ fun j => (h.nodes j).shard.closing hown⟩
      exact ⟨h.below.next, h.below.registered, fun ht' => h.below.opened (List.mem_of_mem_filter ht'),
        h.below.framed⟩
    · cases hs
  | closed u t =>
    simp only at hs
    split at hs
    · next ht =>
      simp only [Option.some.injEq, Prod.mk.injEq] at hs
      obtain ⟨rfl, rfl⟩ := hs
      have hshard := (h.nodes k).shard
      rw [hshard.registry, hshard.opened] at ht
      obtain ⟨hreg, hclosed⟩ := ht
      obtain ⟨hreg, hown⟩ := List.mem_filter.mp hreg
      have hguard : t ∈ s.sockets.registry.get u ∧ t ∉ s.sockets.opened :=
        ⟨hreg, fun hopen => hclosed (List.mem_filter.mpr ⟨hopen, hown⟩)⟩
      refine ⟨⟨s.state, { s.sockets with registry := s.sockets.registry.remove u t }⟩, if_pos hguard,
        h.onNode ?_ fun j => (h.nodes j).shard.closed hown u⟩
      exact ⟨h.below.next, fun ht' => h.below.registered (ConnectionRegistry.mem_get_remove.mp ht').1,
        h.below.opened, h.below.framed⟩
    · cases hs

-- ---------------------------------------------------------------------------
-- Whole runs
-- ---------------------------------------------------------------------------

theorem textsOn_eq {μ : Type} (text : μ → String) (sockets : Sockets μ) (t : Nat) :
    sockets.textsOn text t = ((textFrames text sockets.frames).filter fun f => f.1 = t).map Prod.snd := by
  unfold Sockets.textsOn textFrames
  rw [List.filter_map, List.map_map]
  rfl

/-- Of the texts on a socket, its instance sends all and the others none. -/
theorem Shard.textsOn (h : Shard engine owners k sockets part) (t : Nat) :
    part.textsOn (valueText engine) t =
      if owners[t]? = some k then sockets.textsOn (payloadOf engine) t else [] := by
  rw [textsOn_eq, textsOn_eq, h.frames, List.filter_filter]
  split
  · next hown =>
    congr 1
    refine List.filter_congr fun f _ => ?_
    by_cases hf : f.1 = t
    · simp [hf, ownedBy, hown]
    · simp [hf]
  · next hown =>
    rw [List.filter_eq_nil_iff.mpr]
    · rfl
    · intro f _ hf
      simp only [Bool.and_eq_true, decide_eq_true_eq, ownedBy] at hf
      exact hown (hf.1 ▸ hf.2)

/-- Whatever the instances behind Redis are made to do, a single instance made
to do the same answers the same, and sends on each socket the texts that the
instance of the socket sends on it. -/
theorem instances_agree (hengine : engine.ReadsISO) {state : store.State}
    {log : List (Machine.Event (store.Cluster n) (Fin n × Input × Happening α) (Option β))}
    {c : store.Cluster n} (h : (store.cluster engine n).Run (Cluster.init state) log c) :
    ∃ log' s, store.single.Run (Single.init state) log' s ∧
      log'.map Machine.Event.input = log.map (fun e => e.input.2) ∧
      log'.map Machine.Event.output = log.map Machine.Event.output ∧
      (∀ k, (c.nodes k).down = none ∧ (c.nodes k).pending = []) ∧
      ∀ t k, (c.nodes k).sockets.textsOn (valueText engine) t =
        if c.owners[t]? = some k then s.sockets.textsOn (payloadOf engine) t else [] := by
  obtain ⟨log', s, hrun, hsim, hinputs, houtputs⟩ :=
    h.simulate (N := store.single) (f := Prod.snd) (Sim.step hengine) (sim_init engine state)
  refine ⟨log', s, hrun, hinputs, houtputs, fun k => ⟨(hsim.nodes k).up, (hsim.nodes k).idle⟩, ?_⟩
  exact fun t k => (hsim.nodes k).shard.textsOn t

/-- Bob connects to the second instance, and ann sends through the first. -/
theorem instances_agree_two : ∃ log c log' s,
    ((InProcess.store.cluster Redis.isoEngine 2).Run
      (Cluster.init ⟨.init 0, InMemory.dated_init 0⟩) log c ∧ log.length = 3 ∧ c.owners = [1]) ∧
    InProcess.store.single.Run (Single.init ⟨.init 0, InMemory.dated_init 0⟩) log' s ∧
    (c.nodes 1).sockets.textsOn (valueText Redis.isoEngine) 0 =
      s.sockets.textsOn (payloadOf Redis.isoEngine) 0 := by
  have hrun := (Machine.Run.nil (M := InProcess.store.cluster Redis.isoEngine 2)
      (s := Cluster.init ⟨.init 0, InMemory.dated_init 0⟩))
    |>.snoc (i := (0, .allowAll 1 "c", .call (.createConversation "ann" ["ann", "bob"]))) rfl
    |>.snoc (i := (1, .allowAll 2 "x", .upgraded "bob")) rfl
    |>.snoc (i := (0, .allowAll 3 "m", .call (.sendMessage ⟨"c", "ann", "hi"⟩))) rfl
  have hreads : Redis.isoEngine.ReadsISO := TextReader.iso_readsISO _
  obtain ⟨log', s, hsingle, -, -, -, htexts⟩ := instances_agree hreads hrun
  exact ⟨_, _, log', s, ⟨hrun, rfl, rfl⟩, hsingle, htexts 0 1⟩

end SharedStore

end Jiffy
