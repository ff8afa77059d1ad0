import KeywordCompletion.Session

/-!
# Frames

A frame is a message in a stream: an object with a method and parameters, and with an identifier if it
is a request. Its answer bears the same identifier.
-/

namespace KeywordCompletion

/-- A message with the identifier of the request that it is. -/
structure Frame where
  incoming : Incoming
  id : Option Json

def RequestError.message : RequestError → String
  | notInitialized => "Server not initialized"
  | invalidRequest => "Invalid request"
  | unknownMethod => "Method not found"
  | invalidParams => "Invalid params"

namespace Frame

/-- The frame that a JSON value is, if it has a method. -/
def ofJson? (j : Json) : Option Frame :=
  ((j.member? "method").bind Json.text?).map fun method =>
    let id := j.member? "id"
    ⟨⟨method, j.member? "params", id.isSome⟩, id⟩

def envelope (members : List (String × Json)) : Json :=
  .obj (("jsonrpc", .ofString "2.0") :: members)

def reply? (f : Frame) (answer : Answer) : Option Json :=
  f.id.bind fun id =>
    match answer with
    | .result value => some (envelope [("result", value), ("id", id)])
    | .error e =>
      let error := Json.obj [("code", .int e.code), ("message", .ofString e.message)]
      some (envelope [("error", error), ("id", id)])
    | .silence | .exited => none

/-- A message to the editor as it is sent. Requests to it are identified by a number. -/
def sent (number : Nat) : ClientMessage → Json
  | .log type message =>
    envelope [("method", .ofString "window/logMessage"),
      ("params", .obj [("type", .ofNat type.code), ("message", .str message)])]
  | .createProgress token =>
    envelope [("method", .ofString "window/workDoneProgress/create"),
      ("params", .obj [("token", .str token)]), ("id", .ofNat number)]
  | .progress token event =>
    envelope [("method", .ofString "$/progress"),
      ("params", .obj [("token", .str token), ("value", event.toJson)])]

end Frame

namespace Session

def receiveAll (e : Environment) (s : Session) (frames : List Frame) : Session × List Json :=
  let (s, replies) := frames.foldl (fun (s, replies) frame =>
    let (s, answer, _) := s.receive e frame.incoming
    (s, (frame.reply? answer).toList ++ replies)) (s, [])
  (s, replies.reverse)

end Session

end KeywordCompletion
