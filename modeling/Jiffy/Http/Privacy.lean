-- SUMMARY: Nobody can tell that another participant deleted a conversation: the REST surface with and without those requests.
import Jiffy.Http.ConversationsRouter
import Jiffy.InMemory.Lifecycle
import Jiffy.Lib.Relational

/-!
# Clearing is private

`clearedAt` of a participant sits in an object that the whole conversation
shares. Two worlds that differ in nothing but one user's `clearedAt` answer
everybody else alike.
-/

namespace Jiffy

open Js Async

-- ---------------------------------------------------------------------------
-- Forgetting one user's clears
-- ---------------------------------------------------------------------------

/-- The record without `u`'s `clearedAt`. -/
def ConversationParticipant.forget (u : String) (p : ConversationParticipant) :
    ConversationParticipant :=
  if p.userId = u then { p with clearedAt := none } else p

def Conversation.forget (u : String) (conversation : Conversation) : Conversation :=
  { conversation with
    participants := conversation.participants.map (ConversationParticipant.forget u) }

section Forget

variable {u x : String} {a b : Conversation}
  {f : ConversationParticipant → ConversationParticipant}

@[simp] theorem forget_userId (p : ConversationParticipant) : (p.forget u).userId = p.userId := by
  unfold ConversationParticipant.forget
  split <;> rfl

@[simp] theorem forget_lastReadAt (p : ConversationParticipant) :
    (p.forget u).lastReadAt = p.lastReadAt := by
  unfold ConversationParticipant.forget
  split <;> rfl

@[simp] theorem forget_forget (p : ConversationParticipant) :
    (p.forget u).forget u = p.forget u := by
  unfold ConversationParticipant.forget
  split <;> simp_all

@[simp] theorem forget_id : (a.forget u).id = a.id := rfl

@[simp] theorem userIds_forget : (a.forget u).userIds = a.userIds := by
  simp [Conversation.forget, Conversation.userIds]

@[simp] theorem isParticipant_forget : isParticipant (a.forget u) x = isParticipant a x := by
  rw [Bool.eq_iff_iff, isParticipant_iff, isParticipant_iff, userIds_forget]

/-- Only `u`'s own instant is forgotten. -/
theorem clearedAtOf_forget (hx : x ≠ u) : clearedAtOf (a.forget u) x = clearedAtOf a x := by
  have hkey : ((fun p : ConversationParticipant => decide (p.userId = x)) ∘
      ConversationParticipant.forget u) = fun p => decide (p.userId = x) := by
    funext p
    simp
  simp only [clearedAtOf, participantOf, Conversation.forget, List.find?_map, hkey]
  cases hfind : a.participants.find? fun p => decide (p.userId = x) with
  | none => rfl
  | some p =>
    have hp : p.userId = x := by simpa using List.find?_some hfind
    simp [ConversationParticipant.forget, hp, hx]

@[simp] theorem toConversationResponse_forget :
    toConversationResponse (a.forget u) = toConversationResponse a := by
  simp [toConversationResponse, Conversation.forget]

theorem toConversationResponse_congr (h : a.forget u = b.forget u) :
    toConversationResponse a = toConversationResponse b := by
  rw [← toConversationResponse_forget (u := u), h, toConversationResponse_forget]

/-- A write that treats the forgotten field alike. -/
theorem forget_mutateParticipant_forget (hf : ∀ p, (f (p.forget u)).forget u = (f p).forget u) :
    ((a.forget u).mutateParticipant x f).forget u = (a.mutateParticipant x f).forget u := by
  have hmap := map_mutateFirst_map (p := fun p => decide (p.userId = x)) (f := f)
    (g := ConversationParticipant.forget u) (by simp) (by simp) hf a.participants
  simp only [Conversation.forget, Conversation.mutateParticipant, hmap]

/-- A write to nothing but the forgotten field. -/
theorem forget_mutateParticipant (hf : ∀ p, p.userId = u → (f p).forget u = p.forget u) :
    (a.mutateParticipant u f).forget u = a.forget u := by
  have hmap := map_mutateFirst (p := fun p => decide (p.userId = u)) (f := f)
    (ConversationParticipant.forget u) (fun p hp => hf p (by simpa using hp)) a.participants
  simp only [Conversation.forget, Conversation.mutateParticipant, hmap]

end Forget

/-- Two worlds that only `u`'s clears tell apart. -/
structure World.SameBut (u : String) (w v : World) : Prop where
  conversations : w.conversations.conversations.mapValues (Conversation.forget u) =
    v.conversations.conversations.mapValues (Conversation.forget u)
  messages : w.messages = v.messages
  asked : w.asked = v.asked
  published : w.published = v.published
  notified : w.notified = v.notified
  clock : w.clock = v.clock

namespace World.SameBut

variable {u : String} {w v : World}

theorem findById (h : SameBut u w v) (c : String) :
    (w.conversations.findById c).map (Conversation.forget u) =
      (v.conversations.findById c).map (Conversation.forget u) := by
  simp only [InMemoryConversationStore.findById, ← OrderedMap.get_mapValues, h.conversations]

theorem findByParticipant (h : SameBut u w v) (x : String) :
    (w.conversations.findByParticipant x).map (Conversation.forget u) =
      (v.conversations.findByParticipant x).map (Conversation.forget u) := by
  have hfilter : ∀ store : InMemoryConversationStore,
      (store.findByParticipant x).map (Conversation.forget u) =
        (store.conversations.mapValues (Conversation.forget u)).values.filter
          fun conversation => isParticipant conversation x := by
    intro store
    rw [OrderedMap.values_mapValues, List.filter_map]
    simp [InMemoryConversationStore.findByParticipant, Function.comp_def]
  rw [hfilter, hfilter, h.conversations]

theorem withClock (h : SameBut u w v) (t : Int) :
    SameBut u { w with clock := t } { v with clock := t } :=
  ⟨h.conversations, h.messages, h.asked, h.published, h.notified, rfl⟩

theorem put (h : SameBut u w v) (conversation : Conversation) :
    SameBut u { w with conversations := w.conversations.put conversation }
      { v with conversations := v.conversations.put conversation } where
  conversations := by
    simp only [InMemoryConversationStore.put, OrderedMap.mapValues_set, h.conversations]
  messages := h.messages
  asked := h.asked
  published := h.published
  notified := h.notified
  clock := h.clock

/-- A write to a participant record, on both sides. -/
theorem updateParticipant (h : SameBut u w v) (c x : String)
    {f : ConversationParticipant → ConversationParticipant}
    (hf : ∀ p, (f (p.forget u)).forget u = (f p).forget u) :
    SameBut u { w with conversations := w.conversations.updateParticipant c x f }
      { v with conversations := v.conversations.updateParticipant c x f } where
  conversations := by
    have hentries : ∀ store : InMemoryConversationStore,
        ((store.updateParticipant c x f).conversations.mapValues (Conversation.forget u)).entries =
          (store.conversations.mapValues (Conversation.forget u)).entries.map fun e =>
            if e.1 = c then (e.1, (e.2.mutateParticipant x f).forget u) else e := by
      intro store
      simp only [OrderedMap.mapValues, InMemoryConversationStore.entries_updateParticipant,
        List.map_map]
      apply List.map_congr_left
      intro e _
      simp only [Function.comp]
      split
      · rw [forget_mutateParticipant_forget hf]
      · rfl
    apply OrderedMap.ext
    rw [hentries, hentries, h.conversations]
  messages := h.messages
  asked := h.asked
  published := h.published
  notified := h.notified
  clock := h.clock

/-- `u` deletes a conversation, on one side. -/
theorem clear (h : SameBut u w v) (c : String) (at_ : Int) :
    SameBut u { w with conversations := w.conversations.clear c u at_ } v where
  conversations := by
    have hclear : (w.conversations.clear c u at_).conversations.mapValues (Conversation.forget u) =
        w.conversations.conversations.mapValues (Conversation.forget u) := by
      apply OrderedMap.ext
      simp only [InMemoryConversationStore.clear, OrderedMap.mapValues,
        InMemoryConversationStore.entries_updateParticipant, List.map_map]
      apply List.map_congr_left
      intro e _
      simp only [Function.comp]
      split
      · rw [forget_mutateParticipant]
        rintro p rfl
        simp [ConversationParticipant.forget]
      · rfl
    exact hclear.trans h.conversations
  messages := h.messages
  asked := h.asked
  published := h.published
  notified := h.notified
  clock := h.clock

end World.SameBut

-- ---------------------------------------------------------------------------
-- Port calls
-- ---------------------------------------------------------------------------

/-- `p` and `q` go alike in worlds that only `u`'s clears tell apart. -/
abbrev Alike (u : String) (Q : α → β → Prop) (p : Service α) (q : Service β) : Prop :=
  InMemory.adapter.Relates (World.SameBut u) Q p q

/-- The same conversation, but for `u`'s clear. -/
abbrev SameConversation (u : String) (a b : Conversation) : Prop := a.forget u = b.forget u

/-- The calls that answer with stored conversations. -/
def PortCall.showsConversations : PortCall → Bool
  | .findConversation _ | .findByParticipant _ => true
  | _ => false

namespace InMemory

variable {u : String} {i : Input} {w v : World}

/-- Every other call has one answer on both sides. -/
theorem perform_alike {call : PortCall} (hcall : call.showsConversations = false)
    (h : w.SameBut u v) : (perform i call w).1 = (perform i call v).1 ∧
      (perform i call w).2.SameBut u (perform i call v).2 := by
  obtain ⟨hconversations, hmessages, hasked, hpublished, hnotified, hclock⟩ := id h
  cases call with
  | findConversation | findByParticipant => cases hcall
  | canCreateConversation =>
    refine ⟨rfl, hconversations, hmessages, ?_, hpublished, hnotified, hclock⟩
    simp only [perform, hasked]
  | createConversation participantIds =>
    simp only [perform, InMemoryConversationStore.create, hclock]
    exact ⟨trivial, (h.put _).conversations, hmessages, hasked, hpublished, hnotified, rfl⟩
  | markRead c x at_ =>
    refine ⟨rfl, h.updateParticipant c x fun p => ?_⟩
    simp [ConversationParticipant.forget]
    split <;> simp_all
  | clear c x at_ =>
    refine ⟨rfl, h.updateParticipant c x fun p => ?_⟩
    simp [ConversationParticipant.forget]
    split <;> simp_all
  | createMessage input =>
    simp only [perform, InMemoryMessageStore.create, hclock, hmessages]
    exact ⟨trivial, hconversations, rfl, hasked, hpublished, hnotified, rfl⟩
  | findMessage | listByConversation | listPreviews =>
    simp only [perform, hmessages]
    exact ⟨trivial, h⟩
  | softDelete id at_ =>
    simp only [perform, hmessages]
    exact ⟨trivial, hconversations, rfl, hasked, hpublished, hnotified, hclock⟩
  | settled => exact ⟨rfl, h⟩
  | newDate => exact ⟨congrArg Except.ok hclock, h⟩
  | publish =>
    refine ⟨rfl, hconversations, hmessages, hasked, ?_, hnotified, hclock⟩
    simp only [perform, hpublished]
  | notify =>
    refine ⟨rfl, hconversations, hmessages, hasked, hpublished, ?_, hclock⟩
    simp only [perform, hnotified]

theorem request_alike (u : String) (call : PortCall) (hcall : call.showsConversations = false) :
    Alike u (fun a b => a = b) (request call) (request call) :=
  Adapter.relates_await fun _ _ _ h =>
    ⟨.of_eq (perform_alike hcall h).1, (perform_alike hcall h).2⟩

theorem sync_alike (u : String) (call : PortCall) (hcall : call.showsConversations = false) :
    Alike u (fun a b => a = b) (Jiffy.perform call) (Jiffy.perform call) :=
  Adapter.relates_sync fun _ _ _ h =>
    ⟨.of_eq (perform_alike hcall h).1, (perform_alike hcall h).2⟩

theorem alike_request (call call' : PortCall) {Q : call.Resp → call'.Resp → Prop}
    (h : ∀ i w v, w.SameBut u v → SameOutcome Q (perform i call w).1 (perform i call' v).1 ∧
      (perform i call w).2.SameBut u (perform i call' v).2) :
    Alike u Q (request call) (request call') :=
  Adapter.relates_await h

theorem findConversation_alike (u c : String) :
    Alike u (fun a b => a.map (Conversation.forget u) = b.map (Conversation.forget u))
      (request (.findConversation c)) (request (.findConversation c)) :=
  alike_request (.findConversation c) (.findConversation c) fun _ _ _ h => ⟨.ok (h.findById c), h⟩

theorem findByParticipant_alike (u x : String) :
    Alike u (fun a b => a.map (Conversation.forget u) = b.map (Conversation.forget u))
      (request (.findByParticipant x)) (request (.findByParticipant x)) :=
  alike_request (.findByParticipant x) (.findByParticipant x) fun _ _ _ h =>
    ⟨.ok (h.findByParticipant x), h⟩

theorem settled_alike {a b : Conversation} (hab : SameConversation u a b) :
    Alike u (SameConversation u) (request (.settled a)) (request (.settled b)) :=
  alike_request (.settled a) (.settled b) fun _ _ _ h => ⟨.ok hab, h⟩

-- ---------------------------------------------------------------------------
-- Methods
-- ---------------------------------------------------------------------------

section Methods

open MessagingService

theorem awaitParticipant_alike (u c x : String) :
    Alike u (SameConversation u) (awaitParticipant c x) (awaitParticipant c x) := by
  refine Adapter.Relates.bind (Q := SameConversation u) ?_ fun hab => settled_alike hab
  refine (findConversation_alike u c).bind ?_
  rintro (_ | a) (_ | b) hab
  · exact Adapter.relates_throw _
  · cases hab
  · cases hab
  · have hab : SameConversation u a b := Option.some.inj hab
    have hx : isParticipant a x = isParticipant b x := by
      rw [← isParticipant_forget (u := u), hab, isParticipant_forget]
    simp only [hx]
    split
    · exact Adapter.relates_ret hab
    · exact Adapter.relates_throw _

theorem createConversation_alike (u r : String) (ids : List String) :
    Alike u (SameConversation u) (createConversation r ids) (createConversation r ids) := by
  refine (request_alike u (.canCreateConversation r ids) rfl).bind ?_
  rintro allowed _ rfl
  cases allowed with
  | false => exact Adapter.relates_throw _
  | true => exact (request_alike u (.createConversation ids) rfl).mono fun h => congrArg _ h

theorem getConversation_alike (u c x : String) :
    Alike u (SameConversation u) (getConversation c x) (getConversation c x) :=
  awaitParticipant_alike u c x

theorem sendMessage_alike (u : String) (input : SendMessageInput) :
    Alike u (fun a b => a = b) (sendMessage input) (sendMessage input) := by
  unfold sendMessage
  split
  · exact Adapter.relates_throw _
  refine (awaitParticipant_alike u _ _).bind ?_
  intro a b hab
  have hab' : a.forget u = b.forget u := hab
  have hids : a.userIds = b.userIds := by
    rw [← userIds_forget (a := a) (u := u), hab', userIds_forget]
  have hid : a.id = b.id := by
    rw [← forget_id (a := a) (u := u), hab', forget_id]
  simp only [Conversation.userIds] at hids
  dsimp only
  rw [hids, hid]
  refine (request_alike u (.canCreateConversation _ _) rfl).bind ?_
  rintro allowed _ rfl
  cases allowed with
  | false => exact Adapter.relates_throw _
  | true =>
    refine (request_alike u (.createMessage _) rfl).bind ?_
    rintro message _ rfl
    refine (sync_alike u (.publish message) rfl).bind fun _ => ?_
    refine (sync_alike u (.notify message _) rfl).bind fun _ => ?_
    exact Adapter.relates_ret rfl

theorem deleteMessage_alike (u c messageId x : String) :
    Alike u (fun a b => a = b) (deleteMessage c messageId x) (deleteMessage c messageId x) := by
  refine (awaitParticipant_alike u c x).bind fun _ => ?_
  refine (request_alike u (.findMessage messageId) rfl).bind ?_
  rintro found _ rfl
  cases found with
  | none => exact Adapter.relates_throw _
  | some message =>
    simp only
    split
    · exact Adapter.relates_throw _
    split
    · exact Adapter.relates_throw _
    split
    · exact Adapter.relates_ret rfl
    refine (sync_alike u .newDate rfl).bind ?_
    rintro now _ rfl
    refine (request_alike u (.softDelete messageId now) rfl).bind ?_
    rintro deleted _ rfl
    refine (sync_alike u (.publish deleted) rfl).bind fun _ => ?_
    exact Adapter.relates_ret rfl

theorem deleteConversation_alike (u c x : String) :
    Alike u (fun a b => a = b) (deleteConversation c x) (deleteConversation c x) := by
  refine (awaitParticipant_alike u c x).bind fun _ => ?_
  refine (sync_alike u .newDate rfl).bind ?_
  rintro now _ rfl
  exact request_alike u (.clear c x now) rfl

theorem markRead_alike (u c x : String) (at_ : Date) :
    Alike u (fun a b => a = b) (markRead c x at_) (markRead c x at_) := by
  refine (awaitParticipant_alike u c x).bind fun _ => ?_
  exact request_alike u (.markRead c x at_) rfl

/-- Only `u` can see the difference in a history, ... -/
theorem listMessages_alike (u c x : String) (options : ListMessagesOptions) :
    Alike u (fun a b => x ≠ u → a = b) (listMessages c x options) (listMessages c x options) := by
  refine (awaitParticipant_alike u c x).bind ?_
  intro a b hab
  by_cases hx : x = u
  · exact alike_request (.listByConversation c _) (.listByConversation c _) fun _ _ _ h =>
      ⟨.ok fun hne => absurd hx hne, h⟩
  · have hclear : clearedAtOf a x = clearedAtOf b x := by
      rw [← clearedAtOf_forget hx, show a.forget u = b.forget u from hab, clearedAtOf_forget hx]
    dsimp only
    rw [hclear]
    refine (request_alike u (.listByConversation c _) rfl).mono ?_
    exact fun h _ => h

/-- What a list of conversations shows of one of them. -/
def previewOf (messages : InMemoryMessageStore) (x : String) (conversation : Conversation) :
    Option Conversation :=
  let query := previewQuery x conversation
  let lastMessage := (messages.listByConversation conversation.id query.options).head?
  if query.clearedAt = none ∨ lastMessage ≠ none then
    some { conversation with lastMessage := some lastMessage }
  else
    none

theorem withPreviews_eq (messages : InMemoryMessageStore) (x : String) (as : List Conversation) :
    withPreviews ((as.map (previewQuery x)).map fun q =>
      (q, messages.listByConversation q.conversation.id q.options)) =
      as.filterMap (previewOf messages x) := by
  simp only [withPreviews, List.filterMap_map]
  rfl

theorem previewOf_forget (messages : InMemoryMessageStore) {x : String} (hx : x ≠ u)
    (a : Conversation) : (previewOf messages x (a.forget u)).map (Conversation.forget u) =
      (previewOf messages x a).map (Conversation.forget u) := by
  simp only [previewOf, previewQuery, clearedAtOf_forget hx, forget_id]
  by_cases h : clearedAtOf a x = none ∨ (messages.listByConversation a.id
      (withCleared { limit := some (.finite 1) } (clearedAtOf a x))).head? ≠ none
  · simp only [h, if_true, Option.map_some]
    simp [Conversation.forget, Function.comp_def]
  · simp only [h, if_false, Option.map_none]

/-- ... and in a list of conversations. -/
theorem listConversations_alike (u x : String) :
    Alike u (fun a b => x ≠ u → a.map (Conversation.forget u) = b.map (Conversation.forget u))
      (listConversations x) (listConversations x) := by
  refine (findByParticipant_alike u x).bind ?_
  intro a b hab
  refine Adapter.Relates.bind (Q := fun p q => x ≠ u → (withPreviews p).map (Conversation.forget u) =
    (withPreviews q).map (Conversation.forget u)) ?_ fun h => Adapter.relates_ret h
  refine alike_request (.listPreviews _) (.listPreviews _) fun i w v h => ⟨.ok fun hx => ?_, h⟩
  have hforget : ∀ as : List Conversation,
      (as.filterMap (previewOf v.messages x)).map (Conversation.forget u) =
        (as.map (Conversation.forget u)).filterMap fun c =>
          (previewOf v.messages x c).map (Conversation.forget u) := by
    intro as
    rw [List.map_filterMap, List.filterMap_map]
    congr 1
    funext c
    exact (previewOf_forget v.messages hx c).symm
  rw [h.messages, withPreviews_eq, withPreviews_eq, hforget, hforget, hab]

end Methods

-- ---------------------------------------------------------------------------
-- Requests
-- ---------------------------------------------------------------------------

/-- One request gets one response from both worlds, unless it is `u`'s own. -/
theorem handle_alike (u : String) (reader : TextReader) (request : Request) :
    Alike u (fun a b => request.userId ≠ u → a = b) (ConversationsRouter.handle reader request)
      (ConversationsRouter.handle reader request) := by
  refine Adapter.Relates.catching ?_ fun e => Adapter.relates_ret fun _ => rfl
  obtain ⟨x, route⟩ := request
  simp only [ConversationsRouter.dispatch]
  cases route with
  | createConversation body =>
    simp only [ConversationsRouter.createConversation]
    split
    · exact Adapter.relates_ret fun _ => rfl
    split
    · exact Adapter.relates_ret fun _ => rfl
    split
    · exact Adapter.relates_ret fun _ => rfl
    refine (createConversation_alike u x _).bind fun {a b} hab => Adapter.relates_ret fun _ => ?_
    rw [toConversationResponse_congr hab]
  | listConversations =>
    refine (listConversations_alike u x).bind fun {a b} hab => Adapter.relates_ret fun hx => ?_
    have hmap : ∀ as : List Conversation, as.map toConversationResponse =
        (as.map (Conversation.forget u)).map toConversationResponse := by
      intro as
      simp [Function.comp_def]
    rw [hmap, hmap b, hab hx]
  | getConversation id =>
    refine (getConversation_alike u id x).bind fun {a b} hab => Adapter.relates_ret fun _ => ?_
    rw [toConversationResponse_congr hab]
  | sendMessage id body =>
    simp only [ConversationsRouter.sendMessage]
    split
    · exact Adapter.relates_ret fun _ => rfl
    refine (sendMessage_alike u _).bind fun hab => Adapter.relates_ret fun _ => ?_
    rw [hab]
  | listMessages id limit before =>
    simp only [ConversationsRouter.listMessages]
    split
    · exact Adapter.relates_ret fun _ => rfl
    split
    · exact Adapter.relates_ret fun _ => rfl
    refine (listMessages_alike u id x _).bind fun hab => Adapter.relates_ret fun hx => ?_
    rw [hab hx]
  | markRead id =>
    refine (sync_alike u .newDate rfl).bind ?_
    rintro now _ rfl
    exact (markRead_alike u id x _).bind fun _ => Adapter.relates_ret fun _ => rfl
  | deleteMessage id messageId =>
    refine (deleteMessage_alike u id messageId x).bind fun hab => Adapter.relates_ret fun _ => ?_
    rw [hab]
  | deleteConversation id =>
    exact (deleteConversation_alike u id x).bind fun _ => Adapter.relates_ret fun _ => rfl

/-- The REST surface on the in-memory adapters, one whole request after another. -/
def httpMachine (reader : TextReader) : Machine World (Input × Request) (Except Failure Response) where
  step x w :=
    if admissible x.1 w then
      some (adapter.run x.1 (ConversationsRouter.handle reader x.2) (adapter.tick x.1 w))
    else none

/-- A `DELETE /conversations/:id` of `u`. -/
def isClearBy (u : String) (request : Request) : Bool :=
  match request.route with
  | .deleteConversation _ => request.userId = u
  | _ => false

/-- Worlds of a run with and of a run without the clears of `u`, whose clock may
be behind. -/
structure Unobserved (u : String) (w v : World) : Prop where
  clock : v.clock ≤ w.clock
  same : w.SameBut u { v with clock := w.clock }

theorem Unobserved.admissible {u : String} {w v : World} {i : Input} (h : Unobserved u w v)
    (hadm : InMemory.admissible i w = true) : InMemory.admissible i v = true := by
  have hfind := h.same.findById i.uuid
  simp only [InMemory.admissible, Bool.and_eq_true, decide_eq_true_eq,
    Option.isNone_iff_eq_none] at hadm ⊢
  obtain ⟨⟨hclock, hconversation⟩, hmessage⟩ := hadm
  refine ⟨⟨h.clock.trans hclock, ?_⟩, ?_⟩
  · simpa [hconversation] using hfind.symm
  · rw [← h.same.messages]
    exact hmessage

theorem Unobserved.of_same {u : String} {w v : World} (h : w.SameBut u v) : Unobserved u w v :=
  ⟨le_of_eq h.clock.symm, h.withClock w.clock⟩

theorem httpMachine_step {reader : TextReader} {i : Input} {request : Request} {w w' : World}
    {response : Except Failure Response}
    (h : (httpMachine reader).step (i, request) w = some (response, w')) :
    InMemory.admissible i w = true ∧
      adapter.run i (ConversationsRouter.handle reader request) (adapter.tick i w) =
        (response, w') := by
  simp only [httpMachine] at h
  split at h
  · next hadm => exact ⟨hadm, Option.some.inj h⟩
  · cases h

/-- A clear of `u` leaves nothing behind for others. -/
theorem run_clear_same (reader : TextReader) (i : Input) (u id : String) {w v : World}
    (h : w.SameBut u v) :
    (adapter.run i (ConversationsRouter.handle reader ⟨u, .deleteConversation id⟩) w).2.SameBut u v := by
  simp only [ConversationsRouter.handle, ConversationsRouter.dispatch,
    ConversationsRouter.deleteConversation, Proc.tryCatch_eq_catching, Proc.bind_eq_bind,
    Adapter.run_catching, Adapter.run_bind, run_deleteConversation]
  cases w.requireParticipant id u with
  | error e => exact h
  | ok conversation => exact h.clear id w.clock

/-- The REST surface beside itself without the clears of `u`. -/
def unobserved (u : String) (reader : TextReader) : (httpMachine reader).Erasure where
  keep _ x := !isClearBy u x.2
  Sim := Unobserved u
  Agree e e' := e.input.2.userId ≠ u → e'.output = e.output
  kept := by
    rintro w v ⟨i, request⟩ response w' h - hstep
    obtain ⟨hadm, hrun⟩ := httpMachine_step hstep
    have halike := handle_alike u reader request i (adapter.tick i w) (adapter.tick i v)
      (h.same.withClock i.now)
    rw [hrun] at halike
    refine ⟨_, _, if_pos (h.admissible hadm), .of_same halike.2, fun hu => ?_⟩
    exact (halike.1.eq fun hab => hab hu).symm
  erased := by
    rintro w v ⟨i, x, route⟩ response w' h hkeep hstep
    obtain ⟨hadm, hrun⟩ := httpMachine_step hstep
    have hnow : w.clock ≤ i.now := by
      simp only [InMemory.admissible, Bool.and_eq_true, decide_eq_true_eq] at hadm
      exact hadm.1.1
    cases route with
    | deleteConversation id =>
      have hx : x = u := by simpa [isClearBy] using hkeep
      subst hx
      have hsame := run_clear_same reader i x id (w := adapter.tick i w) (v := adapter.tick i v)
        (h.same.withClock i.now)
      rw [hrun] at hsame
      have hclock : w'.clock = i.now := hsame.clock
      exact ⟨hclock ▸ h.clock.trans hnow, hclock ▸ hsame⟩
    | _ => simp [isClearBy] at hkeep

/-- Take any run of the REST surface, any user `u`, and the run without `u`'s
`DELETE /conversations/:id` requests, every other request with its own clock
reading, generated ids and gate. Everybody but `u` receives the same responses
in both, and the gate, the bus and the notifier see the same calls. -/
theorem clears_unobserved {u : String} {reader : TextReader} {clock : Int}
    {log log' : List (Machine.Event World (Input × Request) (Except Failure Response))} {w v : World}
    (h : (httpMachine reader).Run (World.init clock) log w)
    (h' : (httpMachine reader).Run (World.init clock) log' v)
    (hinputs : log'.map (fun e => e.input) =
      (log.filter fun e => !isClearBy u e.input.2).map fun e => e.input) :
    List.Forall₂ (fun e e' => e.input.2.userId ≠ u → e'.output = e.output)
      (log.filter fun e => !isClearBy u e.input.2) log' ∧
    v.asked = w.asked ∧ v.published = w.published ∧ v.notified = w.notified := by
  have hinit : (World.init clock).SameBut u (World.init clock) := ⟨rfl, rfl, rfl, rfl, rfl, rfl⟩
  obtain ⟨hsim, hall⟩ := (unobserved u reader).agree (.of_same hinit) h h' hinputs
  exact ⟨hall, hsim.same.asked.symm, hsim.same.published.symm, hsim.same.notified.symm⟩

/-- bob lists his conversations after ann deleted hers. -/
theorem clears_unobserved_listed :
    ∃ log w log' v, (httpMachine ⟨fun _ => .nan, fun _ => ⟨none⟩⟩).Run (World.init 0) log w ∧
      (httpMachine ⟨fun _ => .nan, fun _ => ⟨none⟩⟩).Run (World.init 0) log' v ∧
      log.length = 4 ∧ log'.length = 3 ∧
      (List.Forall₂ (fun e e' => e.input.2.userId ≠ "ann" → e'.output = e.output)
        (log.filter fun e => !isClearBy "ann" e.input.2) log' ∧
      v.asked = w.asked ∧ v.published = w.published ∧ v.notified = w.notified) := by
  have hcreate := (Machine.Run.nil (M := httpMachine ⟨fun _ => .nan, fun _ => ⟨none⟩⟩)
      (s := World.init 0))
    |>.snoc (i := (.allowAll 1 "c", ⟨"ann", .createConversation
      (some (.object [("participantIds", .array [.string "ann", .string "bob"])]))⟩)) rfl
    |>.snoc (i := (.allowAll 2 "m", ⟨"bob", .sendMessage "c"
      (some (.object [("body", .string "hello")]))⟩)) rfl
  have h := hcreate
    |>.snoc (i := (.allowAll 3 "x", ⟨"ann", .deleteConversation "c"⟩)) rfl
    |>.snoc (i := (.allowAll 4 "y", ⟨"bob", .listConversations⟩)) rfl
  have h' := hcreate.snoc (i := (.allowAll 4 "y", ⟨"bob", .listConversations⟩)) rfl
  exact ⟨_, _, _, _, h, h', rfl, rfl, clears_unobserved h h' rfl⟩

end InMemory

end Jiffy
