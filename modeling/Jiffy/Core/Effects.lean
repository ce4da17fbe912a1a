-- SUMMARY: What each operation leaves outside, and in which order: a message is stored, then published, then notified.
import Jiffy.Core.BestEffort
import Jiffy.Lib.Rules

/-!
# Effects of the operations

The buses and the notifiers of `src/adapters` are `async` functions: a call of
one returns a promise and throws nothing. Over such ones, what a call gives to
the bus and to the notifier follows from what the store gave to it.
-/

namespace Jiffy

open Js Async

/-- What a call leaves outside. -/
inductive Effect where
  /-- the message that the store wrote, or the tombstone that it handed back -/
  | stored (message : Message)
  | published (message : Message)
  | notified (message : Message) (recipientIds : List String)

/-- The effect of one port call. -/
def effectOf : ports.Event Failure → Option Effect
  | ⟨.createMessage _, .ok message⟩ => some (.stored message)
  | ⟨.softDelete _ _, .ok message⟩ => some (.stored message)
  | ⟨.publish message, _⟩ => some (.published message)
  | ⟨.notify message recipientIds, _⟩ => some (.notified message recipientIds)
  | _ => none

/-- The effects of a call so far, in order. -/
def effects (h : List (ports.Event Failure)) : List Effect := h.filterMap effectOf

namespace Effects

theorem effects_snoc (h : List (ports.Event Failure)) (e : ports.Event Failure) :
    effects (h ++ [e]) = effects h ++ (effectOf e).toList := by
  unfold effects
  rw [List.filterMap_append]
  cases heffect : effectOf e with
  | none => rw [List.filterMap_cons_none heffect]; rfl
  | some effect => rw [List.filterMap_cons_some heffect]; rfl

theorem effects_quiet {r : PortCall} (hr : BestEffort.Quiet r) (h : List (ports.Event Failure))
    (x : Except Failure r.Resp) : effects (h ++ [⟨r, x⟩]) = effects h := by
  have hnone : effectOf ⟨r, x⟩ = none := by
    cases r with
    | createMessage _ => cases hr
    | softDelete _ _ => cases hr
    | publish _ => cases hr
    | notify _ _ => cases hr
    | _ => rfl
  rw [effects_snoc, hnone]
  exact List.append_nil _

-- ---------------------------------------------------------------------------
-- Rules
-- ---------------------------------------------------------------------------

/-- Nothing has been given to the bus or to the notifier. -/
def Unsent (h : List (ports.Event Failure)) : Prop :=
  effects h = [] ∨ ∃ message, effects h = [.stored message]

/-- A delivery returns a promise. -/
def returns : (r : PortCall) → Except Failure r.Resp → Prop
  | .publish _, x => x = .ok ()
  | .notify _ _, x => x = .ok ()
  | _, _ => True

/-- The answer of the gate is a value, and a message keeps its id. -/
def keepsId : (r : PortCall) → r.Resp → r.Resp → Prop
  | .canCreateConversation _ _, x, y => x = y
  | .createMessage _, x, y => x.id = y.id
  | .softDelete _ _, x, y => x.id = y.id
  | _, _, _ => True

/-- What the effects rely on, and that a call waits before it sends anything. -/
def rules : Rules ports Failure where
  allows _ _ := True
  waiting := Unsent
  answers := returns
  becomes := keepsId

/-- A send that resolved: the gate allowed its sender and a list of users, and
the others of that list are notified. -/
def Sent (input : SendMessageInput) (message : Message) (h : List (ports.Event Failure)) : Prop :=
  ∃ stored participantIds, stored.id = message.id ∧
    ⟨.canCreateConversation input.senderId participantIds, .ok true⟩ ∈ h ∧
    effects h = [.stored stored, .published message,
      .notified message (participantIds.filter fun id => id ≠ input.senderId)]

/-- A deletion that resolved: of a message deleted before, or of this one. -/
def Withdrawn (message : Message) (h : List (ports.Event Failure)) : Prop :=
  effects h = [] ∨ ∃ stored, stored.id = message.id ∧ effects h = [.stored stored, .published message]

/-- The effects of a call that ended. -/
def Effected (op : Op) : Ending ports Failure Reply := fun x h =>
  match op, x with
  | .sendMessage input, .ok (.message message) => Sent input message h
  | .deleteMessage _ _ _, .ok (.message message) => Withdrawn message h
  | _, _ => effects h = []

-- ---------------------------------------------------------------------------
-- The operations
-- ---------------------------------------------------------------------------

/-- What makes quiet calls alone adds no effect. -/
theorem keeps_quiet {α : Type} {p : Service α} (hp : p.Only BestEffort.Quiet)
    {h : List (ports.Event Failure)} (hh : effects h = []) :
    p.Keeps rules (fun _ h => effects h = []) h := by
  apply Proc.Keeps.of_only _ (fun hnone => Or.inl hnone) hp hh
  exact fun hnone hquiet => ⟨trivial, fun x _ => (effects_quiet hquiet _ x).trans hnone⟩

theorem checks_quiet {c : String} {call : PortCall} (h : call.Checks c) : BestEffort.Quiet call := by
  rcases h with rfl | ⟨conversation, rfl⟩ <;> trivial

theorem awaitParticipant_keeps (c u : String) :
    (MessagingService.awaitParticipant c u).Keeps rules (fun _ h => effects h = []) [] := by
  apply keeps_quiet _ rfl
  exact MessagingService.awaitParticipant_only fun _ => checks_quiet

/-- A write of the store, awaited with nothing sent before it. -/
theorem keeps_write {r : PortCall} {h : List (ports.Event Failure)} (hh : effects h = [])
    {f : r.Resp → Message} (hstored : ∀ a, effectOf ⟨r, .ok a⟩ = some (.stored (f a)))
    (hfailed : ∀ e, effectOf ⟨r, .error e⟩ = none) {k : r.Resp → Service Reply}
    {Q : Ending ports Failure Reply} (hQ : ∀ e h, effects h = [] → Q (.error e) h)
    (hk : ∀ a b, keepsId r a b → effects (h ++ [⟨r, .ok a⟩]) = [.stored (f a)] →
      (k b).Keeps rules Q (h ++ [⟨r, .ok a⟩])) :
    ((request r).bind k).Keeps rules Q h := by
  have herror : ∀ e, effects (h ++ [⟨r, .error e⟩]) = [] := by
    intro e
    rw [effects_snoc, hh, hfailed]
    rfl
  have hok : ∀ a, effects (h ++ [⟨r, .ok a⟩]) = [.stored (f a)] := by
    intro a
    rw [effects_snoc, hh, hstored]
    rfl
  refine Proc.Keeps.bind (.request trivial ?_ ?_)
  · intro x _
    cases x with
    | error e => exact Or.inl (herror e)
    | ok a => exact Or.inr ⟨f a, hok a⟩
  · intro x y _ hsame
    cases hsame with
    | error e => exact hQ e _ (herror e)
    | ok hb => exact hk _ _ hb (hok _)

theorem sendMessage_keeps (input : SendMessageInput) :
    (Op.program (.sendMessage input)).Keeps rules (Effected (.sendMessage input)) [] := by
  show ((MessagingService.sendMessage input).bind fun m => .ret (Reply.message m)).Keeps _ _ _
  unfold MessagingService.sendMessage
  split
  · exact (rfl : effects [] = [])
  simp only [Proc.bind_eq_bind, Proc.bind_assoc]
  refine Proc.Keeps.bind (Proc.Keeps.mono ?_ (awaitParticipant_keeps _ _))
  intro x h hnone
  cases x with
  | error e => exact hnone
  | ok conversation =>
    have hasked : ∀ x, effects (h ++ [⟨.canCreateConversation input.senderId
        (conversation.participants.map fun p => p.userId), x⟩]) = [] := fun x =>
      (effects_quiet (r := .canCreateConversation _ _) trivial h x).trans hnone
    refine Proc.Keeps.bind (.request trivial (fun x _ => Or.inl (hasked x)) ?_)
    intro x y _ hsame
    cases hsame with
    | error e => exact hasked (.error e)
    | @ok allowed allowed' hallowed =>
      cases (hallowed : allowed = allowed')
      cases allowed with
      | false => exact hasked (.ok false)
      | true =>
        simp only [if_true, Proc.bind_assoc]
        refine keeps_write (r := .createMessage _) (hasked (.ok true)) (fun _ => rfl) (fun _ => rfl)
          (fun _ _ hnone => hnone) fun stored message hid hstored => ?_
        refine Proc.Keeps.bind (.perform trivial fun x hx => ?_)
        cases (hx : x = .ok ())
        refine Proc.Keeps.bind (.perform trivial fun x hx => ?_)
        cases (hx : x = .ok ())
        refine ⟨stored, conversation.participants.map fun p => p.userId, hid, by simp, ?_⟩
        rw [effects_snoc, effects_snoc, hstored]
        rfl

theorem deleteMessage_keeps (c messageId u : String) :
    (Op.program (.deleteMessage c messageId u)).Keeps rules (Effected (.deleteMessage c messageId u)) [] := by
  show ((MessagingService.deleteMessage c messageId u).bind fun m => .ret (Reply.message m)).Keeps _ _ _
  unfold MessagingService.deleteMessage
  simp only [Proc.bind_eq_bind, Proc.bind_assoc]
  refine Proc.Keeps.bind (Proc.Keeps.mono ?_ (awaitParticipant_keeps _ _))
  intro x h hnone
  cases x with
  | error e => exact hnone
  | ok conversation =>
    have hfound : ∀ x, effects (h ++ [⟨.findMessage messageId, x⟩]) = [] := fun x =>
      (effects_quiet (r := .findMessage _) trivial h x).trans hnone
    refine Proc.Keeps.bind (.request trivial (fun x _ => Or.inl (hfound x)) ?_)
    intro x y _ hsame
    cases hsame with
    | error e => exact hfound (.error e)
    | @ok found found' _ =>
      cases found' with
      | none => exact hfound (.ok found)
      | some message =>
        simp only
        split
        · exact hfound (.ok found)
        split
        · exact hfound (.ok found)
        split
        · exact Or.inl (hfound (.ok found))
        simp only [Proc.bind_assoc]
        refine Proc.Keeps.bind (.perform trivial fun x _ => ?_)
        have hdated := (effects_quiet (r := .newDate) trivial _ x).trans (hfound (.ok found))
        cases x with
        | error e => exact hdated
        | ok now =>
          refine keeps_write (r := .softDelete _ _) hdated (fun _ => rfl) (fun _ => rfl)
            (fun _ _ hnone => hnone) fun stored message hid hstored => ?_
          refine Proc.Keeps.bind (.perform trivial fun x hx => ?_)
          cases (hx : x = .ok ())
          refine Or.inr ⟨stored, hid, ?_⟩
          rw [effects_snoc, hstored]
          rfl

/-- An operation sends what it stored, and nothing before. -/
theorem program_keeps (op : Op) : op.program.Keeps rules (Effected op) [] := by
  have hquiet : op.program.Only BestEffort.Quiet →
      op.program.Keeps rules (fun _ h => effects h = []) [] := fun hp => keeps_quiet hp rfl
  cases op with
  | sendMessage input => exact sendMessage_keeps input
  | deleteMessage c messageId u => exact deleteMessage_keeps c messageId u
  | createConversation requesterId participantIds =>
    apply Proc.Keeps.mono (fun _ _ hnone => hnone) (hquiet _)
    refine (Op.program_only _).mono fun call hcall => ?_
    rcases hcall with rfl | rfl <;> trivial
  | getConversation c u =>
    apply Proc.Keeps.mono (fun _ _ hnone => hnone) (hquiet _)
    exact (Op.program_only (.getConversation c u)).mono fun _ => checks_quiet (c := c)
  | listConversations u =>
    apply Proc.Keeps.mono (fun _ _ hnone => hnone) (hquiet _)
    refine (Op.program_only _).mono fun call hcall => ?_
    rcases hcall with rfl | ⟨queries, rfl⟩ <;> trivial
  | listMessages c u options =>
    apply Proc.Keeps.mono (fun _ _ hnone => hnone) (hquiet _)
    refine (Op.program_only _).mono fun call hcall => ?_
    rcases hcall with hcheck | ⟨options, rfl⟩
    · exact checks_quiet hcheck
    · trivial
  | deleteConversation c u =>
    apply Proc.Keeps.mono (fun _ _ hnone => hnone) (hquiet _)
    refine (Op.program_only _).mono fun call hcall => ?_
    rcases hcall with hcheck | rfl | ⟨at_, rfl⟩
    · exact checks_quiet hcheck
    · trivial
    · trivial
  | markRead c u at_ =>
    apply Proc.Keeps.mono (fun _ _ hnone => hnone) (hquiet _)
    refine (Op.program_only _).mono fun call hcall => ?_
    rcases hcall with hcheck | rfl
    · exact checks_quiet hcheck
    · trivial

end Effects

end Jiffy
