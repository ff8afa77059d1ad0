import KeywordCompletion.Json.Basic
import KeywordCompletion.Settings.Basic

/-!
# Messages to the editor

What is sent to an editor without being asked for: lines for its log, and news of jobs that take a
while.
-/

namespace KeywordCompletion

/-- News of a job: it began, so much of it is done, or it ended. -/
inductive ProgressEvent where
  | began (title message : Text)
  | reported (message : Text) (percentage : Nat)
  | ended (message : Option Text)
  deriving DecidableEq, Repr

/-- A message to the editor. -/
inductive ClientMessage where
  | log (type : MessageType) (message : Text)
  /-- The wish to send news under a token. -/
  | createProgress (token : Text)
  /-- News under a token. -/
  | progress (token : Text) (event : ProgressEvent)
  deriving DecidableEq, Repr

def ProgressEvent.toJson : ProgressEvent → Json
  | began title message =>
    .obj [("kind", .ofString "begin"), ("title", .str title), ("cancellable", .bool false),
      ("message", .str message), ("percentage", .ofNat 0)]
  | reported message percentage =>
    .obj [("kind", .ofString "report"), ("cancellable", .bool false), ("message", .str message),
      ("percentage", .ofNat percentage)]
  | ended message =>
    .obj (("kind", .ofString "end") :: (message.map fun t => ("message", Json.str t)).toList)

namespace ClientMessage

/-- The log line of a message, if it is one. -/
def logLine? : ClientMessage → Option (MessageType × Text)
  | log type message => some (type, message)
  | _ => none

/-- The token that is to be created, if one is. -/
def createdToken? : ClientMessage → Option Text
  | createProgress token => some token
  | _ => none

/-- The news with its token, if there is any. -/
def progress? : ClientMessage → Option (Text × ProgressEvent)
  | progress token event => some (token, event)
  | _ => none

end ClientMessage

end KeywordCompletion
