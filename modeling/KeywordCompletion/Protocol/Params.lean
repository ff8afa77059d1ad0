import KeywordCompletion.Protocol.Value
import KeywordCompletion.Settings.Patch
import KeywordCompletion.Workspace.Basic

/-!
# Parameters of messages

What the parameters of each message say, or `none` where they are not of the form that the message
has.
-/

namespace KeywordCompletion.Protocol

def opened? (j : Json) : Option EditorMessage := do
  match ← record? ["textDocument"] j with
  | [document] =>
    let (uri, t, version) ← required? documentItem? document
    return .opened uri t version
  | _ => none

def changed? (j : Json) : Option EditorMessage := do
  match ← record? ["textDocument", "contentChanges"] j with
  | [document, changes] =>
    let (uri, version) ← required? versionedDocument? document
    return .changed uri (← required? (Json.list? change?) changes) version
  | _ => none

def saved? (j : Json) : Option EditorMessage := do
  match ← record? ["textDocument", "text"] j with
  | [document, t] =>
    let uri ← required? document? document
    return .saved uri (← Json.optional? Json.text? t)
  | _ => none

def closed? (j : Json) : Option EditorMessage := do
  match ← record? ["textDocument"] j with
  | [document] => return .closed (← required? document? document)
  | _ => none

def configured? (j : Json) : Option EditorMessage := do
  match ← record? ["settings"] j with
  | [settings] => return .configured (← settings)
  | _ => none

def ready? (j : Json) : Option EditorMessage := (record? [] j).map fun _ => .ready

/-- Where completion is asked for. The members of the parameters stand in an object. -/
def completion? (j : Json) : Option (Url × Position) :=
  match j with
  | .obj _ => do
    let uri ← required? document? (j.member? "textDocument")
    let position ← required? position? (j.member? "position")
    let _ ← j.field? token? "workDoneToken"
    let _ ← j.field? token? "partialResultToken"
    let _ ← j.field? trigger? "context"
    return (uri, position)
  | _ => none
where
  /-- What made the editor ask. -/
  trigger? (j : Json) : Option Unit := do
    match ← record? ["triggerKind", "triggerCharacter"] j with
    | [kind, character] =>
      let _ ← required? Json.int32? kind
      let _ ← Json.optional? Json.text? character
      return ()
    | _ => none

/-- What an editor gives first: settings, and the roots of the workspace. -/
structure InitialParams where
  settings : Option Json
  roots : Option (List Url)

def isCapabilities (j : Json) : Bool :=
  match j with
  | .obj _ =>
    ["workspace", "textDocument", "notebookDocument", "window", "general"].all fun name =>
      (j.section? name).isSome
  | _ => false

def client? (j : Json) : Option Unit := do
  match ← record? ["name", "version"] j with
  | [name, version] =>
    let _ ← required? Json.text? name
    let _ ← Json.optional? Json.text? version
    return ()
  | _ => none

/-- What an editor gives first. A list of roots counts before a single root. -/
def initial? (j : Json) : Option InitialParams :=
  match j with
  | .obj _ => do
    let capabilities ← j.member? "capabilities"
    guard (isCapabilities capabilities)
    let _ ← j.field? (Json.unsigned? 32) "processId"
    let _ ← j.field? Json.text? "rootPath"
    let root ← j.field? url? "rootUri"
    let _ ← j.field? (Json.oneOf? [("off", ()), ("messages", ()), ("verbose", ())]) "trace"
    let folders ← j.field? (Json.list? folder?) "workspaceFolders"
    let _ ← j.field? client? "clientInfo"
    let _ ← j.field? Json.text? "locale"
    let settings ← j.field? some "initializationOptions"
    return ⟨settings, folders <|> root.map fun uri => [uri]⟩
  | _ => none

end KeywordCompletion.Protocol
