-- SUMMARY: Whom the frames of a published message reach, over every run of one process.
import Jiffy.InProcess.Connections

/-!
# Deliveries of one process

A call publishes one message or none, and its frames go to the participants of
the conversation as they are when it ends.
-/

namespace Jiffy

open Js Async

namespace InMemory

variable {i : Input} {w w' : World} {op : Op} {result : Except Failure Reply} {log : Log}

/-- A message as `sendMessage` hands it over. -/
structure Sends (w w' : World) (op : Op) (m : Message) (conversation : Conversation) : Prop where
  call : ∃ body, op = .sendMessage ⟨m.conversationId, m.senderId, body⟩
  live : m.deletedAt = none
  created : m.createdAt = w.clock
  notified : w'.notified = w.notified ++ [(m, conversation.userIds.filter fun id => id ≠ m.senderId)]

/-- A tombstone as `deleteMessage` hands it over. -/
structure Retracts (w w' : World) (op : Op) (m : Message) : Prop where
  call : op = .deleteMessage m.conversationId m.id m.senderId
  deleted : m.deletedAt ≠ none
  notified : w'.notified = w.notified

/-- A call hands `m` over to the bus. -/
structure Publishes (w w' : World) (op : Op) (m : Message) (conversation : Conversation) : Prop where
  found : w.conversations.findById m.conversationId = some conversation
  kept : w'.conversations = w.conversations
  stored : m ∈ w'.messages.messages
  published : w'.published = w.published ++ [m]
  how : Sends w w' op m conversation ∨ Retracts w w' op m

theorem Effect.publishes (hw : WellFormed log w) (h : Effect i w op result w') :
    w'.published = w.published ∨ ∃ m conversation, Publishes w w' op m conversation := by
  cases h with
  | rejected | read | created | alreadyDeleted | cleared | marked => exact .inl rfl
  | @sent input conversation hbody hc hu =>
    have hid := w.conversations.keyed hc
    refine .inr ⟨_, conversation, ?_, rfl, List.mem_append_right _ List.mem_cons_self, rfl, .inl ?_⟩
    · exact (congrArg w.conversations.findById hid).trans hc
    · exact ⟨⟨input.body, by simp [InMemory.sent, InMemoryMessageStore.newMessage, hid]⟩, rfl, rfl, rfl⟩
  | @tombstoned message hm hd =>
    obtain ⟨conversation, hc, -⟩ := hw.member message (List.mem_of_find?_eq_some hm)
    refine .inr ⟨InMemoryMessageStore.tombstone message w.clock, conversation, hc, rfl, ?_, rfl,
      .inr ⟨rfl, by simp [InMemoryMessageStore.tombstone], rfl⟩⟩
    rw [mutateFirst_eq_map hw.ids]
    exact List.mem_map.mpr ⟨message, List.mem_of_find?_eq_some hm, if_pos rfl⟩

end InMemory

namespace InProcess

variable {α β : Type} {makes : α → Op → Prop} {server : Server α β} {i : Input} {p p' : Process}
  {log : Log α β} {happening : Happening α} {out : Option β} {m : Message} {u : String} {s : Nat}

/-- One thing that happened to the process. -/
abbrev Event (α β : Type) : Type := Machine.Event Process (Input × Happening α) (Option β)

/-- What was published meanwhile. -/
def publishedIn (e : Event α β) : List Message :=
  e.after.world.published.drop e.before.world.published.length

/-- The frames sent meanwhile. -/
def framesIn (e : Event α β) : List (Frame Message) :=
  e.after.sockets.frames.drop e.before.sockets.frames.length

/-- Who was notified meanwhile, and of what. -/
def notifiedIn (e : Event α β) : List (Message × List String) :=
  e.after.world.notified.drop e.before.world.notified.length

/-- The frames of one message. -/
def framesOf (sockets : Sockets Message) (m : Message) (conversation : Conversation) :
    List (Frame Message) :=
  (sockets.recipients conversation.participants).map fun s => ⟨s, m⟩

/-- An event publishes nothing and sends nothing, or it is a call that
publishes one message and sends its frames. -/
theorem step_publishes (hserver : OverService makes server) (h : Sound log p)
    (hs : (machine server).step (i, happening) p = some (out, p')) :
    publishedIn ⟨p, (i, happening), out, p'⟩ = [] ∧ framesIn ⟨p, (i, happening), out, p'⟩ = [] ∨
      ∃ a op m conversation, happening = .call a ∧ makes a op ∧
        InMemory.Publishes (InMemory.adapter.tick i p.world) p'.world op m conversation ∧
        publishedIn ⟨p, (i, happening), out, p'⟩ = [m] ∧
        framesIn ⟨p, (i, happening), out, p'⟩ = framesOf p.sockets m conversation := by
  unfold publishedIn framesIn
  cases machine_step hserver hs with
  | opened | closing | closed => exact .inl ⟨List.drop_length, List.drop_length⟩
  | @called a hadm w hw =>
    have hnone : w.published = p.world.published →
        w.published.drop p.world.published.length = [] ∧
          (p.sockets.frames ++ (w.published.drop p.world.published.length).flatMap
            (delivered ⟨w, p.sockets⟩)).drop p.sockets.frames.length = [] := by
      intro hsame
      rw [hsame, List.drop_length, List.flatMap_nil, List.append_nil]
      exact ⟨rfl, List.drop_length⟩
    rcases hw with rfl | ⟨op, hop, rfl⟩
    · exact .inl (hnone rfl)
    · obtain ⟨calls, hstores⟩ := h.stores
      rcases (InMemory.serve_effect i op p.world).publishes hstores.tick with hsame | ⟨m, conversation, hm⟩
      · exact .inl (hnone hsame)
      · have hdrop : (InMemory.serve i op p.world).2.published.drop p.world.published.length = [m] := by
          rw [hm.published]
          exact List.drop_left
        refine .inr ⟨a, op, m, conversation, rfl, hop, hm, hdrop, ?_⟩
        have hdelivered : delivered ⟨(InMemory.serve i op p.world).2, p.sockets⟩ m =
            framesOf p.sockets m conversation := by
          unfold delivered
          simp only [hm.kept, hm.found]
          rfl
        rw [hdrop, List.flatMap_cons, List.flatMap_nil, List.append_nil, hdelivered]
        exact List.drop_left

-- ---------------------------------------------------------------------------
-- Which sockets, and how often
-- ---------------------------------------------------------------------------

theorem mem_recipients {sockets : Sockets Message} (hconnected : Connected log sockets)
    {conversation : Conversation} : s ∈ sockets.recipients conversation.participants ↔
      s ∈ sockets.opened ∧ ∃ u ∈ conversation.userIds, OpenedBy log u s := by
  simp only [Sockets.recipients, List.mem_flatMap, List.mem_filter, decide_eq_true_eq,
    Conversation.userIds, List.mem_map]
  constructor
  · rintro ⟨participant, hp, hs, hopen⟩
    exact ⟨hopen, _, ⟨participant, hp, rfl⟩, hconnected.registered hs⟩
  · rintro ⟨hopen, _, ⟨participant, hp, rfl⟩, hs⟩
    exact ⟨participant, hp, hconnected.listed hs hopen, hopen⟩

/-- A socket gets as many frames as there are records of the user it was opened
for. -/
theorem count_recipients {sockets : Sockets Message} (hconnected : Connected log sockets)
    (hs : OpenedBy log u s) (hopen : s ∈ sockets.opened) (participants : List ConversationParticipant) :
    (sockets.recipients participants).count s = (participants.map fun p => p.userId).count u := by
  have hone : ∀ v, ((sockets.registry.get v).filter fun s => s ∈ sockets.opened).count s =
      if v = u then 1 else 0 := by
    intro v
    split
    · next hv =>
      subst hv
      refine List.count_eq_one_of_mem ((hconnected.nodup v).filter _) ?_
      exact List.mem_filter.mpr ⟨hconnected.listed hs hopen, decide_eq_true hopen⟩
    · next hv =>
      refine List.count_eq_zero_of_not_mem fun hmem => hv ?_
      exact hconnected.owner (hconnected.registered (List.mem_of_mem_filter hmem)) hs
  induction participants with
  | nil => rfl
  | cons participant participants ih =>
    simp only [Sockets.recipients, List.flatMap_cons, List.count_append, hone, List.map_cons,
      List.count_cons, beq_iff_eq] at ih ⊢
    rw [ih, Nat.add_comm]

theorem framesOf_socket (sockets : Sockets Message) (conversation : Conversation) :
    (framesOf sockets m conversation).filter (fun f => f.socket = s) =
      List.replicate ((sockets.recipients conversation.participants).count s) ⟨s, m⟩ := by
  have hsame : (sockets.recipients conversation.participants).filter (fun t => decide (t = s)) =
      List.replicate ((sockets.recipients conversation.participants).count s) s :=
    List.filter_eq s
  unfold framesOf
  rw [List.filter_map]
  exact (congrArg (List.map _) hsame).trans List.map_replicate

theorem mem_framesOf {sockets : Sockets Message} {conversation : Conversation} {f : Frame Message} :
    f ∈ framesOf sockets m conversation ↔
      f.message = m ∧ f.socket ∈ sockets.recipients conversation.participants := by
  unfold framesOf
  constructor
  · intro hf
    obtain ⟨t, ht, rfl⟩ := List.mem_map.mp hf
    exact ⟨rfl, ht⟩
  · rintro ⟨rfl, ht⟩
    exact List.mem_map.mpr ⟨f.socket, ht, rfl⟩

-- ---------------------------------------------------------------------------
-- Once each
-- ---------------------------------------------------------------------------

/-- The message of an event went out once on each open socket of a participant
and on no other, and if it was sent, every other participant was notified of it
once. -/
structure DeliveredOnce (log : Log α β) (e : Event α β) (m : Message) (conversation : Conversation) :
    Prop where
  once : ∀ s ∈ e.before.sockets.opened, ∀ u ∈ conversation.userIds, OpenedBy log u s →
    (framesIn e).filter (fun f => f.socket = s) = [⟨s, m⟩]
  only : ∀ f ∈ framesIn e, f.socket ∈ e.before.sockets.opened ∧
    ∃ u ∈ conversation.userIds, OpenedBy log u f.socket
  notified : m.deletedAt = none → ∃ ids, notifiedIn e = [(m, ids)] ∧ m.senderId ∉ ids ∧
    ∀ u ∈ conversation.userIds, u ≠ m.senderId → ids.count u = 1

/-- No user with an open socket is twice in the conversation, and when a message
is sent to it, neither is any other user but the sender. -/
structure ListedOnce (log : Log α β) (p : Process) (request : Request) (conversation : Conversation) :
    Prop where
  connected : ∀ u, ∀ s ∈ p.sockets.opened, OpenedBy log u s → conversation.userIds.count u ≤ 1
  others : ∀ id body, request.route = .sendMessage id body →
    ∀ u, u ≠ request.userId → conversation.userIds.count u ≤ 1

/-- The conversation that a request names. -/
def namedBy (p : Process) (request : Request) : Option Conversation :=
  match request.route with
  | .sendMessage id _ | .deleteMessage id _ => p.world.conversations.findById id
  | _ => none

theorem count_le_one_iff {u : String} {ids : List String} :
    ids.count u ≤ 1 ↔ (u ∈ ids → ids.count u = 1) := by
  constructor
  · exact fun h hu => Nat.le_antisymm h (List.count_pos_iff.mpr hu)
  · intro h
    rcases Nat.eq_zero_or_pos (ids.count u) with hzero | hpos
    · exact hzero ▸ Nat.zero_le 1
    · exact (h (List.count_pos_iff.mp hpos)).le

/-- What `sendMessage` is to notify. -/
theorem notifiedIn_sends {e : Event α β} {conversation : Conversation} {op : Op}
    (h : InMemory.Sends (InMemory.adapter.tick i e.before.world) e.after.world op m conversation) :
    notifiedIn e = [(m, conversation.userIds.filter fun id => id ≠ m.senderId)] := by
  unfold notifiedIn
  rw [h.notified]
  exact List.drop_left

theorem delivered_once_step {log : Log Request (Except Failure Response)}
    (hconnected : Connected log p.sockets) {request : Request} {op : Op}
    {conversation : Conversation} (hop : Makes request op)
    (hm : InMemory.Publishes (InMemory.adapter.tick i p.world) p'.world op m conversation)
    {out : Option (Except Failure Response)}
    (hframes : framesIn ⟨p, (i, .call request), out, p'⟩ = framesOf p.sockets m conversation) :
    DeliveredOnce log ⟨p, (i, .call request), out, p'⟩ m conversation ↔
      ListedOnce log p request conversation := by
  have hsocket : ∀ {u s}, s ∈ p.sockets.opened → OpenedBy log u s →
      (framesOf p.sockets m conversation).filter (fun f => f.socket = s) =
        List.replicate (conversation.userIds.count u) ⟨s, m⟩ := by
    intro u s hopen hs
    rw [framesOf_socket, count_recipients hconnected hs hopen]
    rfl
  have hother : ∀ {u}, u ≠ m.senderId → (conversation.userIds.filter fun id => id ≠ m.senderId).count u =
      conversation.userIds.count u :=
    fun hu => List.count_filter (decide_eq_true hu)
  constructor
  · intro h
    refine ⟨fun u s hopen hs => count_le_one_iff.mpr fun hu => ?_, fun id body hroute u hu => ?_⟩
    · have honce := h.once s hopen u hu hs
      rw [hframes, hsocket hopen hs] at honce
      simpa using congrArg List.length honce
    · rcases hm.how with hsent | hdeleted
      · obtain ⟨ids, hids, -, hall⟩ := h.notified hsent.live
        rw [notifiedIn_sends hsent] at hids
        cases hids
        obtain ⟨text, rfl⟩ := hsent.call
        cases hop
        refine count_le_one_iff.mpr fun hmem => ?_
        rw [← hother hu]
        exact hall u hmem hu
      · obtain rfl := hdeleted.call
        cases hop
        cases hroute
  · intro h
    refine ⟨fun s hopen u hu hs => ?_, fun f hf => ?_, fun hlive => ?_⟩
    · rw [hframes, hsocket hopen hs, count_le_one_iff.mp (h.connected u s hopen hs) hu]
      rfl
    · exact (mem_recipients hconnected).mp (mem_framesOf.mp (hframes ▸ hf)).2
    · rcases hm.how with hsent | hdeleted
      · refine ⟨_, notifiedIn_sends hsent, by simp, fun u hmem hu => ?_⟩
        obtain ⟨text, rfl⟩ := hsent.call
        cases hop with
        | sendMessage sender id body =>
          rw [hother hu]
          exact count_le_one_iff.mp (h.others _ body rfl u hu) hmem
      · exact absurd hlive hdeleted.deleted

/-- Whatever a call of the app publishes after any run, its frames and its
notification reach every participant once exactly when the conversation lists
once each of those they go to. -/
theorem delivered_once_iff (reader : TextReader) {clock : Int} {log : Log Request (Except Failure Response)}
    (h : (machine (httpApp reader)).Run (Process.init clock) log p) :
    ∀ log₁ e log₂, log = log₁ ++ e :: log₂ → ∀ m ∈ publishedIn e, ∃ request conversation,
      e.input.2 = .call request ∧ namedBy e.before request = some conversation ∧
        conversation.id = m.conversationId ∧
        (DeliveredOnce log₁ e m conversation ↔ ListedOnce log₁ e.before request conversation) := by
  refine h.prefixes fun {log₁ p x out p'} hrun hs m hm => ?_
  obtain ⟨i, happening⟩ := x
  have hsound := sound_run (httpApp_overService reader) hrun
  rcases step_publishes (httpApp_overService reader) hsound hs with ⟨hnone, -⟩ | hpublishes
  · rw [hnone] at hm
    cases hm
  · obtain ⟨request, op, m', conversation, rfl, hop, hpublishes, hpublished, hframes⟩ := hpublishes
    obtain rfl : m = m' := by simpa [hpublished] using hm
    have hnamed : namedBy p request = some conversation := by
      have hfound := hpublishes.found
      rcases hpublishes.how with hsent | hdeleted
      · obtain ⟨text, rfl⟩ := hsent.call
        cases hop
        exact hfound
      · obtain rfl := hdeleted.call
        cases hop
        exact hfound
    exact ⟨request, conversation, rfl, hnamed, p.world.conversations.keyed hpublishes.found,
      delivered_once_step hsound.connected hop hpublishes hframes⟩

/-- A reader that takes no text for a number or a date. -/
def noReader : TextReader := ⟨fun _ => .nan, fun _ => ⟨none⟩⟩

/-- The body of a `POST /conversations`. -/
def participantsBody (ids : List String) : Option Json :=
  some (.object [("participantIds", .array (ids.map Json.string))])

/-- Ann creates a conversation with bob, bob opens a socket and ann sends a
message. -/
theorem delivered_once_iff_two_users : ∃ log p e m conversation,
    (machine (httpApp noReader)).Run (Process.init 0) (log ++ [e]) p ∧ m ∈ publishedIn e ∧
      (DeliveredOnce log e m conversation ↔
        ListedOnce log e.before ⟨"ann", .sendMessage "c" (some (.object [("body", .string "hi")]))⟩
          conversation) := by
  have hrun := (Machine.Run.nil (M := machine (httpApp noReader)) (s := Process.init 0))
    |>.snoc (i := (.allowAll 1 "c", .call ⟨"ann", .createConversation (participantsBody ["ann", "bob"])⟩)) rfl
    |>.snoc (i := (.allowAll 2 "x", .upgraded "bob")) rfl
    |>.snoc (i := (.allowAll 3 "m", .call ⟨"ann", .sendMessage "c" (some (.object [("body", .string "hi")]))⟩)) rfl
  obtain ⟨request, conversation, hcall, -, -, hiff⟩ :=
    delivered_once_iff noReader hrun _ _ [] rfl ⟨"m", "c", "ann", "hi", 3, none⟩ (by decide)
  cases hcall
  exact ⟨_, _, _, _, conversation, hrun, by decide, hiff⟩

/-- A body that lists bob twice: his one socket gets two frames, and he is
notified twice. -/
theorem delivered_twice : ∃ log p e m conversation,
    (machine (httpApp noReader)).Run (Process.init 0) (log ++ [e]) p ∧ m ∈ publishedIn e ∧
      e.before.world.conversations.findById m.conversationId = some conversation ∧
      OpenedBy log "bob" 0 ∧ 0 ∈ e.before.sockets.opened ∧ framesIn e = [⟨0, m⟩, ⟨0, m⟩] ∧
      notifiedIn e = [(m, ["bob", "bob"])] ∧ ¬ DeliveredOnce log e m conversation := by
  have hrun := (Machine.Run.nil (M := machine (httpApp noReader)) (s := Process.init 0))
    |>.snoc (i := (.allowAll 1 "c", .call ⟨"ann", .createConversation (participantsBody ["ann", "bob", "bob"])⟩)) rfl
    |>.snoc (i := (.allowAll 2 "x", .upgraded "bob")) rfl
    |>.snoc (i := (.allowAll 3 "m", .call ⟨"ann", .sendMessage "c" (some (.object [("body", .string "hi")]))⟩)) rfl
  refine ⟨_, _, _, ⟨"m", "c", "ann", "hi", 3, none⟩, _, hrun, by decide, rfl, ?_, by decide, rfl, rfl,
    fun h => ?_⟩
  · exact ⟨_, List.mem_cons_of_mem _ List.mem_cons_self, rfl, rfl⟩
  · obtain ⟨ids, hids, -, honce⟩ := h.notified rfl
    cases hids
    exact absurd (honce "bob" (by decide) (by decide)) (by decide)

end InProcess

end Jiffy
