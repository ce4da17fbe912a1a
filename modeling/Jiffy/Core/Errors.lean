-- SUMMARY: The six errors the core raises, with their messages.
import Mathlib.Data.List.Basic

/-!
# Errors

`src/core/errors.ts`. A call can also reject with whatever a port it uses
rejected with; the core never catches that.
-/

namespace Jiffy

inductive CoreError where
  | conversationNotFound (conversationId : String)
  | notAParticipant (conversationId userId : String)
  | emptyMessage
  | conversationNotAllowed (requesterId : String) (participantIds : List String)
  | messageNotFound (messageId : String)
  | notMessageAuthor (messageId userId : String)
deriving DecidableEq, Repr

/-- `error.message`. -/
def CoreError.message : CoreError → String
  | .conversationNotFound conversationId => s!"Conversation not found: {conversationId}"
  | .notAParticipant conversationId userId =>
    s!"User {userId} is not a participant in conversation {conversationId}"
  | .emptyMessage => "Message body cannot be empty"
  | .conversationNotAllowed requesterId participantIds =>
    let others := participantIds.filter fun id => id ≠ requesterId
    s!"User {requesterId} is not allowed to be in a conversation with " ++ String.intercalate ", " others
  | .messageNotFound messageId => s!"Message not found: {messageId}"
  | .notMessageAuthor messageId userId => s!"User {userId} did not send message {messageId}"

/-- What a call rejects with: one of the six, or the error of a port. -/
inductive Failure where
  | core (error : CoreError)
  | port (message : String)
deriving DecidableEq, Repr

end Jiffy
