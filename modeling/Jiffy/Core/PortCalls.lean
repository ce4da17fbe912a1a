-- SUMMARY: Which port calls each operation of the service can make.
import Jiffy.Core.MessagingService

/-!
# Port calls of the operations

What an operation can ask of its ports, whatever it is answered.
-/

namespace Jiffy

open Js Async

/-- The calls of the participant check. -/
def PortCall.Checks (conversationId : String) (call : PortCall) : Prop :=
  call = .findConversation conversationId ∨ ∃ conversation, call = .settled conversation

/-- The calls an operation can make. -/
def Op.Uses : Op → PortCall → Prop
  | .createConversation requesterId participantIds, call =>
    call = .canCreateConversation requesterId participantIds ∨
      call = .createConversation participantIds
  | .getConversation conversationId _, call => call.Checks conversationId
  | .listConversations userId, call =>
    call = .findByParticipant userId ∨ ∃ queries, call = .listPreviews queries
  | .sendMessage input, call =>
    call.Checks input.conversationId ∨ (∃ ids, call = .canCreateConversation input.senderId ids) ∨
      (∃ c, call = .createMessage ⟨c, input.senderId, input.body⟩) ∨
      (∃ message, call = .publish message) ∨ ∃ message ids, call = .notify message ids
  | .listMessages conversationId _ _, call =>
    call.Checks conversationId ∨ ∃ options, call = .listByConversation conversationId options
  | .deleteMessage conversationId messageId _, call =>
    call.Checks conversationId ∨ call = .findMessage messageId ∨ call = .newDate ∨
      (∃ at_, call = .softDelete messageId at_) ∨ ∃ message, call = .publish message
  | .deleteConversation conversationId requesterId, call =>
    call.Checks conversationId ∨ call = .newDate ∨ ∃ at_, call = .clear conversationId requesterId at_
  | .markRead conversationId userId at_, call =>
    call.Checks conversationId ∨ call = .markRead conversationId userId at_

namespace MessagingService

variable {ok : PortCall → Prop}

theorem awaitParticipant_only {c u : String} (h : ∀ call, call.Checks c → ok call) :
    (awaitParticipant c u).Only ok := by
  refine Proc.Only.bind (Proc.Only.bind (.request (h _ (.inl rfl))) fun found => ?_) fun conversation =>
    .request (h _ (.inr ⟨conversation, rfl⟩))
  cases found with
  | none => trivial
  | some conversation =>
    simp only
    split <;> trivial

end MessagingService

/-- An operation makes no other call. -/
theorem Op.program_only (op : Op) : op.program.Only op.Uses := by
  cases op with
  | createConversation requesterId participantIds =>
    refine Proc.Only.bind (Proc.Only.bind (.request (.inl rfl)) fun allowed => ?_) fun _ => trivial
    split
    · exact .request (.inr rfl)
    · trivial
  | getConversation c u =>
    exact Proc.Only.bind (MessagingService.awaitParticipant_only fun _ h => h) fun _ => trivial
  | listConversations u =>
    refine Proc.Only.bind (Proc.Only.bind (.request (.inl rfl)) fun conversations => ?_) fun _ => trivial
    exact Proc.Only.bind (.request (.inr ⟨_, rfl⟩)) fun _ => trivial
  | sendMessage input =>
    refine Proc.Only.bind ?_ fun _ => trivial
    unfold MessagingService.sendMessage
    split
    · trivial
    refine Proc.Only.bind (MessagingService.awaitParticipant_only fun _ h => .inl h) fun _ => ?_
    refine Proc.Only.bind (.request (.inr (.inl ⟨_, rfl⟩))) fun allowed => ?_
    split
    · refine Proc.Only.bind (.request (.inr (.inr (.inl ⟨_, rfl⟩)))) fun message => ?_
      refine Proc.Only.bind (.perform (.inr (.inr (.inr (.inl ⟨_, rfl⟩))))) fun _ => ?_
      exact Proc.Only.bind (.perform (.inr (.inr (.inr (.inr ⟨_, _, rfl⟩))))) fun _ => trivial
    · trivial
  | listMessages c u options =>
    refine Proc.Only.bind (Proc.Only.bind ?_ fun _ => ?_) fun _ => trivial
    · exact MessagingService.awaitParticipant_only fun _ h => .inl h
    · exact .request (.inr ⟨_, rfl⟩)
  | deleteMessage c messageId u =>
    refine Proc.Only.bind (Proc.Only.bind ?_ fun _ => ?_) fun _ => trivial
    · exact MessagingService.awaitParticipant_only fun _ h => .inl h
    refine Proc.Only.bind (.request (.inr (.inl rfl))) fun found => ?_
    cases found with
    | none => trivial
    | some message =>
      simp only
      split
      · trivial
      split
      · trivial
      split
      · trivial
      refine Proc.Only.bind (.perform (.inr (.inr (.inl rfl)))) fun now => ?_
      refine Proc.Only.bind (.request (.inr (.inr (.inr (.inl ⟨_, rfl⟩))))) fun deleted => ?_
      exact Proc.Only.bind (.perform (.inr (.inr (.inr (.inr ⟨_, rfl⟩))))) fun _ => trivial
  | deleteConversation c u =>
    refine Proc.Only.bind (Proc.Only.bind ?_ fun _ => ?_) fun _ => trivial
    · exact MessagingService.awaitParticipant_only fun _ h => .inl h
    refine Proc.Only.bind (.perform (.inr (.inl rfl))) fun now => ?_
    exact .request (.inr (.inr ⟨_, rfl⟩))
  | markRead c u at_ =>
    refine Proc.Only.bind (Proc.Only.bind ?_ fun _ => ?_) fun _ => trivial
    · exact MessagingService.awaitParticipant_only fun _ h => .inl h
    · exact .request (.inr rfl)

/-- The calls that an operation makes without awaiting them. -/
def PortCall.Unawaited : PortCall → Prop
  | .newDate | .publish _ | .notify _ _ => True
  | _ => False

namespace MessagingService

theorem awaitParticipant_onSpot {ok : PortCall → Prop} (c u : String) :
    (awaitParticipant c u).OnSpot ok := by
  refine Proc.OnSpot.bind (Proc.OnSpot.bind (.request _) fun found => ?_) fun _ => .request _
  cases found with
  | none => trivial
  | some conversation =>
    simp only
    split <;> trivial

end MessagingService

/-- An operation awaits all other calls. -/
theorem Op.program_onSpot (op : Op) : op.program.OnSpot PortCall.Unawaited := by
  cases op with
  | createConversation requesterId participantIds =>
    refine Proc.OnSpot.bind (Proc.OnSpot.bind (.request _) fun allowed => ?_) fun _ => trivial
    split
    · exact .request _
    · trivial
  | getConversation c u =>
    exact Proc.OnSpot.bind (MessagingService.awaitParticipant_onSpot c u) fun _ => trivial
  | listConversations u =>
    refine Proc.OnSpot.bind (Proc.OnSpot.bind (.request _) fun conversations => ?_) fun _ => trivial
    exact Proc.OnSpot.bind (.request _) fun _ => trivial
  | sendMessage input =>
    refine Proc.OnSpot.bind ?_ fun _ => trivial
    unfold MessagingService.sendMessage
    split
    · trivial
    refine Proc.OnSpot.bind (MessagingService.awaitParticipant_onSpot _ _) fun _ => ?_
    refine Proc.OnSpot.bind (.request _) fun allowed => ?_
    split
    · refine Proc.OnSpot.bind (.request _) fun message => ?_
      refine Proc.OnSpot.bind (.perform trivial) fun _ => ?_
      exact Proc.OnSpot.bind (.perform trivial) fun _ => trivial
    · trivial
  | listMessages c u options =>
    refine Proc.OnSpot.bind (Proc.OnSpot.bind ?_ fun _ => .request _) fun _ => trivial
    exact MessagingService.awaitParticipant_onSpot c u
  | deleteMessage c messageId u =>
    refine Proc.OnSpot.bind (Proc.OnSpot.bind ?_ fun _ => ?_) fun _ => trivial
    · exact MessagingService.awaitParticipant_onSpot c u
    refine Proc.OnSpot.bind (.request _) fun found => ?_
    cases found with
    | none => trivial
    | some message =>
      simp only
      split
      · trivial
      split
      · trivial
      split
      · trivial
      refine Proc.OnSpot.bind (.perform trivial) fun now => ?_
      refine Proc.OnSpot.bind (.request _) fun deleted => ?_
      exact Proc.OnSpot.bind (.perform trivial) fun _ => trivial
  | deleteConversation c u =>
    refine Proc.OnSpot.bind (Proc.OnSpot.bind ?_ fun _ => ?_) fun _ => trivial
    · exact MessagingService.awaitParticipant_onSpot c u
    exact Proc.OnSpot.bind (.perform trivial) fun now => .request _
  | markRead c u at_ =>
    refine Proc.OnSpot.bind (Proc.OnSpot.bind ?_ fun _ => .request _) fun _ => trivial
    exact MessagingService.awaitParticipant_onSpot c u

end Jiffy
