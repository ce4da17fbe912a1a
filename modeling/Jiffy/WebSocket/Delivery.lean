-- SUMMARY: What the delivery of one message comes to: one frame for each open socket of each participant record.
import Jiffy.WebSocket.Server

/-!
# Delivery

The two loops of a delivery in closed form, over any adapter that answers the
registry and the sockets the way the process does.
-/

namespace Jiffy

open Js Async

namespace LiveConnections

variable {P : Interface} {μ : Type} {live : LiveConnections P μ} {ok : P.Req → Prop} {message : μ}

theorem sendToSockets_only (hopen : ∀ socket, (live.isOpen socket).Only ok)
    (hsend : ∀ socket, (live.send socket message).Only ok) (sockets : List Nat) :
    (live.sendToSockets message sockets).Only ok := by
  induction sockets with
  | nil => trivial
  | cons socket sockets ih =>
    refine Proc.Only.bind (hopen socket) fun isOpen => ?_
    split
    · exact Proc.Only.bind (hsend socket) fun _ => ih
    · exact ih

/-- A delivery asks for nothing but what its steps ask for. -/
theorem deliverToParticipants_only (hfind : (live.findConversation message).Only ok)
    (hget : ∀ userId, (live.get userId).Only ok) (hopen : ∀ socket, (live.isOpen socket).Only ok)
    (hsend : ∀ socket, (live.send socket message).Only ok) :
    (live.deliverToParticipants message).Only ok := by
  refine Proc.Only.bind hfind fun found => ?_
  cases found with
  | none => trivial
  | some conversation =>
    change (live.sendToParticipants message conversation.participants).Only ok
    induction conversation.participants with
    | nil => trivial
    | cons participant participants ih =>
      refine Proc.Only.bind (hget participant.userId) fun sockets => ?_
      exact Proc.Only.bind (sendToSockets_only hopen hsend sockets) fun _ => ih

theorem sendToSockets_onSpot (hopen : ∀ socket, (live.isOpen socket).OnSpot ok)
    (hsend : ∀ socket, (live.send socket message).OnSpot ok) (sockets : List Nat) :
    (live.sendToSockets message sockets).OnSpot ok := by
  induction sockets with
  | nil => trivial
  | cons socket sockets ih =>
    refine Proc.OnSpot.bind (hopen socket) fun isOpen => ?_
    split
    · exact Proc.OnSpot.bind (hsend socket) fun _ => ih
    · exact ih

theorem deliverToParticipants_onSpot (hfind : (live.findConversation message).OnSpot ok)
    (hget : ∀ userId, (live.get userId).OnSpot ok) (hopen : ∀ socket, (live.isOpen socket).OnSpot ok)
    (hsend : ∀ socket, (live.send socket message).OnSpot ok) :
    (live.deliverToParticipants message).OnSpot ok := by
  refine Proc.OnSpot.bind hfind fun found => ?_
  cases found with
  | none => trivial
  | some conversation =>
    change (live.sendToParticipants message conversation.participants).OnSpot ok
    induction conversation.participants with
    | nil => trivial
    | cons participant participants ih =>
      refine Proc.OnSpot.bind (hget participant.userId) fun sockets => ?_
      exact Proc.OnSpot.bind (sendToSockets_onSpot hopen hsend sockets) fun _ => ih

end LiveConnections

/-- An adapter that keeps the sockets of the live connections in its state. -/
structure SocketHost {P : Interface} {σ ι μ : Type} (A : Adapter P Failure σ ι)
    (live : LiveConnections P μ) where
  sockets : σ → Sockets μ
  send : σ → Frame μ → σ
  get : ∀ i userId s, A.run i (live.get userId) s = (.ok ((sockets s).registry.get userId), s)
  isOpen : ∀ i socket s,
    A.run i (live.isOpen socket) s = (.ok (decide (socket ∈ (sockets s).opened)), s)
  run_send : ∀ i socket message s, A.run i (live.send socket message) s = (.ok (), send s ⟨socket, message⟩)
  sockets_send : ∀ s frame, sockets (send s frame) =
    { sockets s with frames := (sockets s).frames ++ [frame] }

namespace SocketHost

variable {P : Interface} {σ ι μ : Type} {A : Adapter P Failure σ ι} {live : LiveConnections P μ}
  (host : SocketHost A live) (i : ι) (message : μ)

/-- The message goes out on these sockets, in order. -/
def sendAll (sockets : List Nat) (s : σ) : σ :=
  sockets.foldl (fun s socket => host.send s ⟨socket, message⟩) s

theorem sendAll_append (xs ys : List Nat) (s : σ) :
    host.sendAll message (xs ++ ys) s = host.sendAll message ys (host.sendAll message xs s) :=
  List.foldl_append

theorem sockets_sendAll (sockets : List Nat) (s : σ) :
    host.sockets (host.sendAll message sockets s) = { host.sockets s with
      frames := (host.sockets s).frames ++ sockets.map fun socket => ⟨socket, message⟩ } := by
  induction sockets generalizing s with
  | nil =>
    unfold sendAll
    rw [List.map_nil, List.append_nil]
    rfl
  | cons socket sockets ih =>
    refine (ih (host.send s ⟨socket, message⟩)).trans ?_
    simp only [host.sockets_send, List.map_cons, List.append_assoc, List.cons_append, List.nil_append]

theorem run_sendToSockets (sockets : List Nat) (s : σ) :
    A.run i (live.sendToSockets message sockets) s = (.ok (), host.sendAll message
      (sockets.filter fun socket => socket ∈ (host.sockets s).opened) s) := by
  induction sockets generalizing s with
  | nil => rfl
  | cons socket sockets ih =>
    simp only [LiveConnections.sendToSockets, Proc.bind_eq_bind, Adapter.run_bind, host.isOpen]
    by_cases hopen : socket ∈ (host.sockets s).opened
    · simp only [hopen, decide_true, if_true, Adapter.run_bind, host.run_send, ih, host.sockets_send]
      rw [List.filter_cons_of_pos (by simpa using hopen)]
      rfl
    · simp only [hopen, decide_false, Bool.false_eq_true, if_false, ih]
      rw [List.filter_cons_of_neg (by simpa using hopen)]

theorem run_sendToParticipants (participants : List ConversationParticipant) (s : σ) :
    A.run i (live.sendToParticipants message participants) s =
      (.ok (), host.sendAll message ((host.sockets s).recipients participants) s) := by
  induction participants generalizing s with
  | nil => rfl
  | cons participant participants ih =>
    have hsame : ∀ sockets, (host.sockets (host.sendAll message sockets s)).recipients participants =
        (host.sockets s).recipients participants := by
      intro sockets
      rw [host.sockets_sendAll]
      rfl
    simp only [LiveConnections.sendToParticipants, Proc.bind_eq_bind, Adapter.run_bind, host.get,
      host.run_sendToSockets, ih, hsame]
    rw [← host.sendAll_append]
    rfl

/-- A delivery sends to the participants that it finds. -/
theorem run_deliverToParticipants {s s' : σ} {found : Option Conversation}
    (hfound : A.run i (live.findConversation message) s = (.ok found, s')) :
    A.run i (live.deliverToParticipants message) s = (.ok (), found.elim s' fun conversation =>
      host.sendAll message ((host.sockets s').recipients conversation.participants) s') := by
  simp only [LiveConnections.deliverToParticipants, Proc.bind_eq_bind, Adapter.run_bind, hfound]
  cases found with
  | none => rfl
  | some conversation => exact host.run_sendToParticipants i message _ s'

end SocketHost

end Jiffy
