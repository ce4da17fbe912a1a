-- SUMMARY: Who opened which socket of the process, and what one event does to its stores and its sockets.
import Jiffy.Adapters.InProcess
import Jiffy.InMemory.Interference
import Jiffy.InMemory.Lifecycle
import Jiffy.WebSocket.Registry

/-!
# Connections of the process

A socket belongs to the user it was upgraded for. The registry knows every open
socket under its own user, and a call adds to the frames nothing but the
deliveries of what it published.
-/

namespace Jiffy

open Js Async

/-- The process after it sent these frames. -/
def Process.sent (p : Process) (frames : List (Frame Message)) : Process :=
  { p with sockets := { p.sockets with frames := p.sockets.frames ++ frames } }

namespace InProcess

variable {α β : Type} {makes : α → Op → Prop} {server : Server α β} {i : Input} {p p' : Process}

-- ---------------------------------------------------------------------------
-- Deliveries
-- ---------------------------------------------------------------------------

/-- The sockets of the process. -/
def host : SocketHost adapter live where
  sockets := Process.sockets
  send p frame := p.sent [frame]
  get _ _ _ := rfl
  isOpen _ _ _ := rfl
  run_send _ _ _ _ := rfl
  sockets_send _ _ := rfl

/-- The frames that a message goes out in. -/
def delivered (p : Process) (m : Message) : List (Frame Message) :=
  match p.world.conversations.findById m.conversationId with
  | none => []
  | some conversation => (p.sockets.recipients conversation.participants).map fun s => ⟨s, m⟩

@[simp] theorem sent_world (frames : List (Frame Message)) : (p.sent frames).world = p.world := rfl

@[simp] theorem delivered_sent (frames : List (Frame Message)) (m : Message) :
    delivered (p.sent frames) m = delivered p m := rfl

theorem sent_nil (p : Process) : p.sent [] = p := by
  unfold Process.sent
  rw [List.append_nil]

theorem sent_sent (p : Process) (fs gs : List (Frame Message)) :
    (p.sent fs).sent gs = p.sent (fs ++ gs) := by
  unfold Process.sent
  simp only [List.append_assoc]

theorem sendAll_host (m : Message) (sockets : List Nat) (p : Process) :
    host.sendAll m sockets p = p.sent (sockets.map fun s => ⟨s, m⟩) := by
  induction sockets generalizing p with
  | nil => exact (sent_nil p).symm
  | cons s sockets ih => exact (ih (p.sent [⟨s, m⟩])).trans (sent_sent p _ _)

theorem handOver_eq (i : Input) (p : Process) (m : Message) :
    handOver i p m = p.sent (delivered p m) := by
  have hfound : adapter.run i (live.findConversation m) p =
      (.ok (p.world.conversations.findById m.conversationId), p) := rfl
  unfold handOver delivered
  rw [host.run_deliverToParticipants i m hfound]
  cases p.world.conversations.findById m.conversationId with
  | none => exact (sent_nil p).symm
  | some conversation => exact sendAll_host m _ p

theorem handOver_all (i : Input) (p : Process) (messages : List Message) :
    messages.foldl (handOver i) p = p.sent (messages.flatMap (delivered p)) := by
  induction messages generalizing p with
  | nil => exact (sent_nil p).symm
  | cons m messages ih => rw [List.foldl_cons, ih, handOver_eq, sent_sent]; rfl

-- ---------------------------------------------------------------------------
-- Events
-- ---------------------------------------------------------------------------

/-- Every call is a call of the service, of the ones that it can make, or none
at all. -/
def OverService (makes : α → Op → Prop) (server : Server α β) : Prop :=
  ∀ i a w, (server i a w).2 = InMemory.adapter.tick i w ∨
    ∃ op, makes a op ∧ (server i a w).2 = (InMemory.serve i op w).2

theorem service_overService : OverService Eq service := fun _ op _ => .inr ⟨op, rfl, rfl⟩

/-- The calls that a request can come to. -/
inductive Makes : Request → Op → Prop where
  | createConversation (u : String) (body : Option Json) (ids : List String) :
    Makes ⟨u, .createConversation body⟩ (.createConversation u ids)
  | listConversations (u : String) : Makes ⟨u, .listConversations⟩ (.listConversations u)
  | getConversation (u id : String) : Makes ⟨u, .getConversation id⟩ (.getConversation id u)
  | sendMessage (u id : String) (body : Option Json) (text : String) :
    Makes ⟨u, .sendMessage id body⟩ (.sendMessage ⟨id, u, text⟩)
  | listMessages (u id : String) (limit before : Option QueryValue) (options : ListMessagesOptions) :
    Makes ⟨u, .listMessages id limit before⟩ (.listMessages id u options)
  | markRead (u id : String) (at_ : Date) : Makes ⟨u, .markRead id⟩ (.markRead id u at_)
  | deleteMessage (u id messageId : String) :
    Makes ⟨u, .deleteMessage id messageId⟩ (.deleteMessage id messageId u)
  | deleteConversation (u id : String) : Makes ⟨u, .deleteConversation id⟩ (.deleteConversation id u)

theorem httpApp_overService (reader : TextReader) : OverService Makes (httpApp reader) := by
  rintro i ⟨u, route⟩ w
  have hworld : ∀ {γ : Type} (p : Service γ) (f : γ → Response) (w : World),
      (InMemory.adapter.run i (p.bind fun a => .ret (f a)) w).2 = (InMemory.adapter.run i p w).2 :=
    fun p f w => congrArg Prod.snd (InMemory.adapter.run_map i p f w)
  have hserve : ∀ (op : Op) {γ : Type} (p : Service γ) (g : γ → Reply) (f : γ → Response),
      op.program = p.bind (fun a => .ret (g a)) →
      (InMemory.adapter.run i (p.bind fun a => .ret (f a)) (InMemory.adapter.tick i w)).2 =
        (InMemory.serve i op w).2 := by
    intro op γ p g f hop
    unfold InMemory.serve
    rw [hworld, hop]
    exact (congrArg Prod.snd (InMemory.adapter.run_map i p g _)).symm
  suffices hdispatch : (InMemory.adapter.run i (ConversationsRouter.dispatch reader ⟨u, route⟩)
      (InMemory.adapter.tick i w)).2 = InMemory.adapter.tick i w ∨
        ∃ op, Makes ⟨u, route⟩ op ∧
          (InMemory.adapter.run i (ConversationsRouter.dispatch reader ⟨u, route⟩)
            (InMemory.adapter.tick i w)).2 = (InMemory.serve i op w).2 by
    unfold httpApp ConversationsRouter.handle
    simp only [Proc.tryCatch_eq_catching, Adapter.run_catching]
    generalize InMemory.adapter.run i _ (InMemory.adapter.tick i w) = outcome at hdispatch ⊢
    obtain ⟨x, w'⟩ := outcome
    cases x <;> exact hdispatch
  cases route with
  | createConversation body =>
    simp only [ConversationsRouter.dispatch, ConversationsRouter.createConversation]
    split
    · exact .inl rfl
    split
    · exact .inl rfl
    split
    · exact .inl rfl
    exact .inr ⟨_, .createConversation u _ _, hserve _ _ Reply.conversation _ rfl⟩
  | listConversations => exact .inr ⟨_, .listConversations u, hserve _ _ Reply.conversations _ rfl⟩
  | getConversation id => exact .inr ⟨_, .getConversation u id, hserve _ _ Reply.conversation _ rfl⟩
  | sendMessage id body =>
    simp only [ConversationsRouter.dispatch, ConversationsRouter.sendMessage]
    split
    · exact .inl rfl
    exact .inr ⟨_, .sendMessage u id _ _, hserve _ _ Reply.message _ rfl⟩
  | listMessages id limit before =>
    simp only [ConversationsRouter.dispatch, ConversationsRouter.listMessages]
    split
    · exact .inl rfl
    split
    · exact .inl rfl
    exact .inr ⟨_, .listMessages u id _ _ _, hserve _ _ Reply.messages _ rfl⟩
  | markRead id =>
    exact .inr ⟨_, .markRead u id (Date.of i.now),
      hserve _ (MessagingService.markRead id u (Date.of i.now)) (fun _ => Reply.done) _ rfl⟩
  | deleteMessage id messageId =>
    exact .inr ⟨_, .deleteMessage u id messageId, hserve _ _ Reply.message _ rfl⟩
  | deleteConversation id =>
    exact .inr ⟨_, .deleteConversation u id, hserve _ _ (fun _ => Reply.done) _ rfl⟩

/-- What happened to the process. -/
abbrev Log (α β : Type) : Type := List (Machine.Event Process (Input × Happening α) (Option β))

/-- Socket `s` was opened for the verified user `u`. -/
def OpenedBy (log : Log α β) (u : String) (s : Nat) : Prop :=
  ∃ e ∈ log, e.input.2 = .upgraded u ∧ e.before.sockets.next = s

/-- The registry and the open sockets, against who opened them. -/
structure Connected (log : Log α β) (sockets : Sockets Message) : Prop where
  registered : ∀ {u s}, s ∈ sockets.registry.get u → OpenedBy log u s
  listed : ∀ {u s}, OpenedBy log u s → s ∈ sockets.opened → s ∈ sockets.registry.get u
  opened : ∀ {s}, s ∈ sockets.opened → ∃ u, OpenedBy log u s
  below : ∀ {u s}, OpenedBy log u s → s < sockets.next
  owner : ∀ {u v s}, OpenedBy log u s → OpenedBy log v s → u = v
  nodup : ∀ u, (sockets.registry.get u).Nodup

theorem connected_init : Connected ([] : Log α β) .empty where
  registered h := by cases h
  listed h := by obtain ⟨e, he, -⟩ := h; cases he
  opened h := by cases h
  below h := by obtain ⟨e, he, -⟩ := h; cases he
  owner h := by obtain ⟨e, he, -⟩ := h; cases he
  nodup _ := List.nodup_nil

section Events

variable {log : Log α β} {e : Machine.Event Process (Input × Happening α) (Option β)}
  {sockets sockets' : Sockets Message}

theorem openedBy_snoc {u : String} {s : Nat} : OpenedBy (log ++ [e]) u s ↔
    OpenedBy log u s ∨ e.input.2 = .upgraded u ∧ e.before.sockets.next = s := by
  unfold OpenedBy
  simp only [List.mem_append, List.mem_singleton]
  constructor
  · rintro ⟨e', he' | rfl, h⟩
    · exact .inl ⟨e', he', h⟩
    · exact .inr h
  · rintro (⟨e', he', h⟩ | h)
    · exact ⟨e', .inl he', h⟩
    · exact ⟨e, .inr rfl, h⟩

/-- An event that opens no socket, and takes none of the open ones out of the
registry. -/
theorem Connected.keep (h : Connected log sockets) (he : ∀ u, e.input.2 ≠ .upgraded u)
    (hregistered : ∀ {u s}, s ∈ sockets'.registry.get u → s ∈ sockets.registry.get u)
    (hlisted : ∀ {u s}, s ∈ sockets.registry.get u → s ∈ sockets'.opened →
      s ∈ sockets'.registry.get u)
    (hopened : ∀ {s}, s ∈ sockets'.opened → s ∈ sockets.opened)
    (hnext : sockets'.next = sockets.next) (hnodup : ∀ u, (sockets'.registry.get u).Nodup) :
    Connected (log ++ [e]) sockets' := by
  have hiff : ∀ {u s}, OpenedBy (log ++ [e]) u s ↔ OpenedBy log u s := by
    intro u s
    rw [openedBy_snoc, or_iff_left]
    exact fun hu => he u hu.1
  refine ⟨fun hs => hiff.mpr (h.registered (hregistered hs)), fun hs hopen => ?_, fun hs => ?_,
    fun hs => ?_, fun hs hs' => h.owner (hiff.mp hs) (hiff.mp hs'), hnodup⟩
  · exact hlisted (h.listed (hiff.mp hs) (hopened hopen)) hopen
  · obtain ⟨u, hu⟩ := h.opened (hopened hs)
    exact ⟨u, hiff.mpr hu⟩
  · exact hnext ▸ h.below (hiff.mp hs)

/-- An upgrade opens a socket that nobody had. -/
theorem Connected.upgraded (h : Connected log sockets) {u : String} (he : e.input.2 = .upgraded u)
    (hbefore : e.before.sockets = sockets) :
    Connected (log ++ [e]) { sockets with
      registry := sockets.registry.add u sockets.next
      opened := sockets.opened ++ [sockets.next]
      next := sockets.next + 1 } := by
  have hiff : ∀ {v s}, OpenedBy (log ++ [e]) v s ↔ OpenedBy log v s ∨ v = u ∧ s = sockets.next := by
    intro v s
    rw [openedBy_snoc, he, hbefore]
    simp only [Happening.upgraded.injEq]
    exact or_congr Iff.rfl (and_congr eq_comm eq_comm)
  have hnew : ∀ {v}, ¬ OpenedBy log v sockets.next := fun hv => (h.below hv).false
  refine ⟨fun hs => ?_, fun hs hopen => ?_, fun hs => ?_, fun hs => ?_, fun hs hs' => ?_, fun v => ?_⟩
  · rcases ConnectionRegistry.mem_get_add.mp hs with hs | hs
    · exact hiff.mpr (.inl (h.registered hs))
    · exact hiff.mpr (.inr hs)
  · refine ConnectionRegistry.mem_get_add.mpr ?_
    rcases hiff.mp hs with hs | hs
    · rcases List.mem_append.mp hopen with hopen | hopen
      · exact .inl (h.listed hs hopen)
      · exact absurd (List.mem_singleton.mp hopen ▸ hs) hnew
    · exact .inr hs
  · rcases List.mem_append.mp hs with hs | hs
    · obtain ⟨v, hv⟩ := h.opened hs
      exact ⟨v, hiff.mpr (.inl hv)⟩
    · exact ⟨u, hiff.mpr (.inr ⟨rfl, List.mem_singleton.mp hs⟩)⟩
  · rcases hiff.mp hs with hs | ⟨-, rfl⟩
    · exact Nat.lt_succ_of_lt (h.below hs)
    · exact Nat.lt_succ_self _
  · rcases hiff.mp hs with hs | ⟨rfl, rfl⟩
    · rcases hiff.mp hs' with hs' | ⟨-, rfl⟩
      · exact h.owner hs hs'
      · exact absurd hs hnew
    · rcases hiff.mp hs' with hs' | ⟨hv, -⟩
      · exact absurd hs' hnew
      · exact hv.symm
  · exact ConnectionRegistry.nodup_get_add (h.nodup v) fun hs => hnew (h.registered hs)

/-- What one event does. -/
inductive Step (makes : α → Op → Prop) (i : Input) (p : Process) : Happening α → Process → Prop where
  | called {a : α} (hadm : InMemory.admissible i p.world = true) (w : World)
    (hw : w = InMemory.adapter.tick i p.world ∨
      ∃ op, makes a op ∧ w = (InMemory.serve i op p.world).2) :
    Step makes i p (.call a) (Process.sent ⟨w, p.sockets⟩
      ((w.published.drop p.world.published.length).flatMap (delivered ⟨w, p.sockets⟩)))
  | opened (u : String) : Step makes i p (.upgraded u) { p with sockets := { p.sockets with
      registry := p.sockets.registry.add u p.sockets.next
      opened := p.sockets.opened ++ [p.sockets.next]
      next := p.sockets.next + 1 } }
  | closing (s : Nat) : Step makes i p (.closing s) { p with sockets :=
      { p.sockets with opened := p.sockets.opened.filter fun t => t ≠ s } }
  | closed {u : String} {s : Nat} (hs : s ∉ p.sockets.opened) : Step makes i p (.closed u s)
      { p with sockets := { p.sockets with registry := p.sockets.registry.remove u s } }

theorem machine_step (hserver : OverService makes server) {happening : Happening α} {out : Option β}
    (h : (machine server).step (i, happening) p = some (out, p')) : Step makes i p happening p' := by
  simp only [machine] at h
  cases happening with
  | call a =>
    simp only at h
    split at h
    · next hadm =>
      simp only [call, handOver_all] at h
      cases h
      exact .called hadm _ (hserver i a p.world)
    · cases h
  | upgraded u =>
    cases h
    exact .opened u
  | closing s =>
    cases h
    exact .closing s
  | closed u s =>
    simp only at h
    split at h
    · next hs =>
      cases h
      exact .closed hs.2
    · cases h

/-- What holds of the process after any events. -/
structure Sound (log : Log α β) (p : Process) : Prop where
  connected : Connected log p.sockets
  stores : ∃ calls, InMemory.WellFormed calls p.world
  timely : p.world.Timely

theorem sound_init (clock : Int) : Sound ([] : Log α β) (Process.init clock) :=
  ⟨connected_init, ⟨[], InMemory.wellFormed_init clock⟩, InMemory.timely_init clock⟩

theorem Sound.step (hserver : OverService makes server) (h : Sound log p) {happening : Happening α}
    {out : Option β} (hs : (machine server).step (i, happening) p = some (out, p')) :
    Sound (log ++ [⟨p, (i, happening), out, p'⟩]) p' := by
  cases machine_step hserver hs with
  | called hadm w hw =>
    have hstores : (∃ calls, InMemory.WellFormed calls w) ∧ w.Timely := by
      obtain ⟨calls, hstores⟩ := h.stores
      obtain ⟨htimely, -⟩ := InMemory.timely_tick h.timely hadm
      rcases hw with rfl | ⟨op, -, rfl⟩
      · exact ⟨⟨calls, hstores.tick⟩, htimely⟩
      · refine ⟨⟨_, hstores.step (InMemory.machine_serve hadm)⟩, ?_⟩
        exact (InMemory.serve_effect i op p.world).timely htimely (InMemory.admissible_tick hadm)
    refine ⟨?_, hstores.1, hstores.2⟩
    exact h.connected.keep (fun _ => by simp) id (fun hs _ => hs) id rfl h.connected.nodup
  | opened u => exact ⟨h.connected.upgraded rfl rfl, h.stores, h.timely⟩
  | closing s =>
    exact ⟨h.connected.keep (fun _ => by simp) id (fun hs _ => hs) List.mem_of_mem_filter rfl
      h.connected.nodup, h.stores, h.timely⟩
  | @closed u s hclosed =>
    refine ⟨h.connected.keep (fun _ => by simp)
      (fun hs => (ConnectionRegistry.mem_get_remove.mp hs).1) (fun hs hopen => ?_) id rfl
      (fun v => ConnectionRegistry.nodup_get_remove (h.connected.nodup v)), h.stores, h.timely⟩
    refine ConnectionRegistry.mem_get_remove.mpr ⟨hs, ?_⟩
    rintro ⟨-, rfl⟩
    exact hclosed hopen

theorem sound_run (hserver : OverService makes server) {clock : Int}
    (h : (machine server).Run (Process.init clock) log p) : Sound log p :=
  h.inv (sound_init clock) fun hsound hs => hsound.step hserver hs

end Events

end InProcess

end Jiffy
