import KeywordCompletion.Protocol.Value

/-!
# Methods

The methods of the protocol between an editor and a server of its kind: those that this server
answers or follows, and those that it knows but does not provide. What a request for one of the latter
must have is listed too, since a request with wrong parameters is answered in another way.
-/

namespace KeywordCompletion.Protocol

/-- What a server does with a method. -/
inductive Method where
  | start
  | shutdown
  | exit
  /-- A notification that is followed. -/
  | followed (name : String)
  | completion
  /-- A notification that says to give up a request. -/
  | cancel
  /-- A request that is not provided, with the members that its parameters must have. -/
  | unprovided (members : List (String × (Json → Bool)))
  /-- A notification that does not matter. -/
  | unheeded

namespace Method

def isObject : Json → Bool
  | .obj _ => true
  | _ => false

/-- Whether a value is the URL of a document in a record. -/
def isDocument (j : Json) : Bool := (document? j).isSome

def isPosition (j : Json) : Bool := (position? j).isSome

def isRange (j : Json) : Bool := (range? j).isSome

def isText (j : Json) : Bool := j.text?.isSome

def isList (j : Json) : Bool := j.items?.isSome

def inDocument : List (String × (Json → Bool)) := [("textDocument", isDocument)]

def atPosition : List (String × (Json → Bool)) := inDocument ++ [("position", isPosition)]

def inRange : List (String × (Json → Bool)) := inDocument ++ [("range", isRange)]

def followedNames : List String := [
  "initialized", "textDocument/didOpen", "textDocument/didChange", "textDocument/didSave",
  "textDocument/didClose", "workspace/didChangeConfiguration"]

def unheededNames : List String := [
  "textDocument/willSave", "workspace/didChangeWorkspaceFolders", "workspace/didCreateFiles",
  "workspace/didRenameFiles", "workspace/didDeleteFiles", "workspace/didChangeWatchedFiles"]

def unprovidedRequests : List (String × List (String × (Json → Bool))) := [
  ("textDocument/declaration", atPosition),
  ("textDocument/definition", atPosition),
  ("textDocument/typeDefinition", atPosition),
  ("textDocument/implementation", atPosition),
  ("textDocument/references", atPosition ++ [("context", isObject)]),
  ("textDocument/prepareCallHierarchy", atPosition),
  ("callHierarchy/incomingCalls", [("item", isObject)]),
  ("callHierarchy/outgoingCalls", [("item", isObject)]),
  ("textDocument/prepareTypeHierarchy", atPosition),
  ("typeHierarchy/supertypes", [("item", isObject)]),
  ("typeHierarchy/subtypes", [("item", isObject)]),
  ("textDocument/documentHighlight", atPosition),
  ("textDocument/documentLink", inDocument),
  ("documentLink/resolve", [("range", isRange)]),
  ("textDocument/hover", atPosition),
  ("textDocument/codeLens", inDocument),
  ("codeLens/resolve", [("range", isRange)]),
  ("textDocument/foldingRange", inDocument),
  ("textDocument/selectionRange", inDocument ++ [("positions", isList)]),
  ("textDocument/documentSymbol", inDocument),
  ("textDocument/semanticTokens/full", inDocument),
  ("textDocument/semanticTokens/full/delta", inDocument ++ [("previousResultId", isText)]),
  ("textDocument/semanticTokens/range", inRange),
  ("textDocument/inlineValue", inRange ++ [("context", isObject)]),
  ("textDocument/inlayHint", inRange),
  ("inlayHint/resolve", [("position", isPosition)]),
  ("textDocument/moniker", atPosition),
  ("completionItem/resolve", [("label", isText)]),
  ("textDocument/diagnostic", inDocument),
  ("workspace/diagnostic", [("previousResultIds", isList)]),
  ("textDocument/signatureHelp", atPosition),
  ("textDocument/codeAction", inRange ++ [("context", isObject)]),
  ("codeAction/resolve", [("title", isText)]),
  ("textDocument/documentColor", inDocument),
  ("textDocument/colorPresentation", inRange ++ [("color", isObject)]),
  ("textDocument/formatting", inDocument ++ [("options", isObject)]),
  ("textDocument/rangeFormatting", inRange ++ [("options", isObject)]),
  ("textDocument/onTypeFormatting", atPosition ++ [("ch", isText), ("options", isObject)]),
  ("textDocument/rename", atPosition ++ [("newName", isText)]),
  ("textDocument/prepareRename", atPosition),
  ("textDocument/linkedEditingRange", atPosition),
  ("textDocument/willSaveWaitUntil", inDocument ++ [("reason", fun j => j.int32?.isSome)]),
  ("workspace/symbol", [("query", isText)]),
  ("workspaceSymbol/resolve", [("name", isText)]),
  ("workspace/willCreateFiles", [("files", isList)]),
  ("workspace/willRenameFiles", [("files", isList)]),
  ("workspace/willDeleteFiles", [("files", isList)]),
  ("workspace/executeCommand", [("command", isText)])]

/-- The method with a name, if the protocol has one. -/
def ofName? (name : Text) : Option Method :=
  let name := String.ofList name
  if name = "initialize" then some start
  else if name = "shutdown" then some shutdown
  else if name = "exit" then some exit
  else if name = "textDocument/completion" then some completion
  else if name = "$/cancelRequest" then some cancel
  else if name ∈ followedNames then some (followed name)
  else if name ∈ unheededNames then some unheeded
  else (unprovidedRequests.find? fun (known, _) => known == name).map fun (_, members) =>
    unprovided members

def isRequest : Method → Bool
  | start | shutdown | completion | unprovided _ => true
  | exit | followed _ | cancel | unheeded => false

end Method

end KeywordCompletion.Protocol
