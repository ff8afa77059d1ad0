import KeywordCompletion.About
import KeywordCompletion.Protocol.Method
import KeywordCompletion.Protocol.Params

/-!
# Sessions

A session starts when an editor initializes it and ends in two steps: it is shut down, then it exits.
Requests at the wrong time, of unknown methods or with parameters of the wrong form are answered with
an error, notifications of that kind are not heeded.
-/

namespace KeywordCompletion

/-- How far a session has got. -/
inductive SessionPhase where
  | uninitialized
  | running
  | shutDown
  | exited
  deriving DecidableEq, Repr

/-- Why a request is not answered. -/
inductive RequestError where
  | notInitialized
  | invalidRequest
  | unknownMethod
  | invalidParams
  deriving DecidableEq, Repr

def RequestError.code : RequestError → Int
  | notInitialized => -32002
  | invalidRequest => -32600
  | unknownMethod => -32601
  | invalidParams => -32602

/-- The answer to a message. -/
inductive Answer where
  /-- Nothing is answered. -/
  | silence
  | result (value : Json)
  | error (e : RequestError)
  /-- The session has exited and receives nothing any more. -/
  | exited

/-- A message to a session: a request, which wants an answer, or a notification. -/
structure Incoming where
  method : Text
  params : Option Json
  isRequest : Bool

/-- A session with an editor. -/
structure Session where
  phase : SessionPhase
  workspace : Workspace

namespace Session

open Protocol

def initial : Session := ⟨.uninitialized, Workspace.initial⟩

/-- What the server can do: completion, for documents that are kept up to date by their changes. -/
def capabilities : Json :=
  .obj [
    ("capabilities", .obj [("textDocumentSync", .ofNat 2), ("completionProvider", .obj [])]),
    ("serverInfo", .obj [("name", .ofString About.name), ("version", .ofString About.version)])]

/-- The answer to a message that cannot be taken: an error to a request. -/
def rejection (isRequest : Bool) (e : RequestError) : Answer :=
  if isRequest then .error e else .silence

/-- Why a message cannot be taken outside of a running session. -/
def phaseError : SessionPhase → RequestError
  | .uninitialized => .notInitialized
  | _ => .invalidRequest

def editorMessage? (name : String) (params : Json) : Option EditorMessage :=
  match name with
  | "initialized" => ready? params
  | "textDocument/didOpen" => opened? params
  | "textDocument/didChange" => changed? params
  | "textDocument/didSave" => saved? params
  | "textDocument/didClose" => closed? params
  | "workspace/didChangeConfiguration" => configured? params
  | _ => none

/-- Whether parameters have the members that a request must have. -/
def hasMembers (members : List (String × (Json → Bool))) (params : Json) : Bool :=
  Method.isObject params && members.all fun (name, accepts) => (params.member? name).any accepts

/-- Initializes a session. Parameters of the wrong form leave it as it is. -/
def start (s : Session) (m : Incoming) : Session × Answer :=
  if s.phase = .uninitialized then
    if m.isRequest then
      match m.params.bind initial? with
      | some params =>
        let workspace := s.workspace.initialized params.settings params.roots
        (⟨.running, workspace⟩, .result capabilities)
      | none => (s, .error .invalidParams)
    else (s, .silence)
  else (s, rejection m.isRequest .invalidRequest)

/-- Shuts a session down, which takes no parameters but happens in any case. -/
def shutdown (s : Session) (m : Incoming) : Session × Answer :=
  if s.phase = .running then
    let answer := match m.isRequest, m.params with
      | false, _ => .silence
      | true, none => .result .null
      | true, some _ => .error .invalidParams
    ({ s with phase := .shutDown }, answer)
  else (s, rejection m.isRequest (phaseError s.phase))

def take (e : Environment) (s : Session) (method : Method) (m : Incoming) :
    Session × Answer × List ClientMessage :=
  if method.isRequest != m.isRequest then (s, rejection m.isRequest .invalidRequest, [])
  else match method with
    | .followed name =>
      match m.params.bind (editorMessage? name) with
      | some message =>
        let (workspace, sent) := s.workspace.receive e.disk message
        ({ s with workspace }, .silence, sent)
      | none => (s, .silence, [])
    | .completion =>
      match m.params.bind completion? with
      | some (uri, position) =>
        let (items, workspace) := s.workspace.complete e uri position
        ({ s with workspace }, .result (.arr (items.map CompletionItem.toJson)), [])
      | none => (s, .error .invalidParams, [])
    | .unprovided members =>
      if m.params.any (hasMembers members) then (s, .error .unknownMethod, [])
      else (s, .error .invalidParams, [])
    | _ => (s, .silence, [])

/-- The answer to a message of an unknown method. Those whose names start with a dollar sign may be
passed over. -/
def unknown (m : Incoming) : Answer :=
  if ['$', '/'].isPrefixOf m.method then .silence else rejection m.isRequest .unknownMethod

/-- The session after a message, the answer to it, and what is sent besides. -/
def receive (e : Environment) (s : Session) (m : Incoming) :
    Session × Answer × List ClientMessage :=
  if s.phase = .exited then (s, .exited, [])
  else match Method.ofName? m.method with
    | none => (s, unknown m, [])
    | some .exit => ({ s with phase := .exited }, .silence, [])
    | some .cancel => (s, rejection m.isRequest .invalidRequest, [])
    | some .start =>
      let (s, answer) := s.start m
      (s, answer, [])
    | some .shutdown =>
      let (s, answer) := s.shutdown m
      (s, answer, [])
    | some method =>
      if s.phase = .running then s.take e method m
      else (s, rejection m.isRequest (phaseError s.phase), [])

end Session

end KeywordCompletion
