import KeywordCompletion.Completion.Item
import KeywordCompletion.OpenDocuments
import KeywordCompletion.Settings.Patch
import KeywordCompletion.Workspace.Indexing

/-!
# Workspaces

A workspace is what is known while an editor is connected: its open documents, the sources of files,
the roots and the settings. `Workspace.receive` is what happens when the editor tells something, and
`Workspace.complete` answers when it asks for completion.
-/

namespace KeywordCompletion

/-- Open documents, the sources of files, the roots as URLs, the settings, and the number of jobs of
which the editor has heard. -/
structure Workspace where
  documents : OpenDocuments
  cache : SourceCache
  roots : List Url
  settings : Settings
  jobs : Nat

/-- What an editor tells. -/
inductive EditorMessage where
  | opened (uri : Url) (text : Text) (version : Int)
  | changed (uri : Url) (changes : List Change) (version : Int)
  | saved (uri : Url) (text : Option Text)
  | closed (uri : Url)
  | configured (payload : Json)
  /-- The editor is ready for messages. -/
  | ready

namespace Workspace

def initial : Workspace := ⟨OpenDocuments.empty, SourceCache.empty, [], Settings.initial, 0⟩

/-- The directories below which resources are looked for. -/
def searchRoots (w : Workspace) : List Path := w.roots.filterMap Url.toPath?

def withSettings (w : Workspace) (settings : Settings) : Workspace :=
  { w with settings, cache := w.cache.setLimit settings.indexing.maxFileSize }

/-- The workspace with the settings and the roots that an editor gives first. Without roots it keeps
those it has. -/
def initialized (w : Workspace) (payload : Option Json) (roots : Option (List Url)) : Workspace :=
  let w := w.withSettings (Settings.ofPayload payload)
  { w with roots := roots.getD w.roots }

/-- A line for the editor's log, unless the settings keep it back. -/
def logged (w : Workspace) (type : MessageType) (message : Text) : List ClientMessage :=
  if w.settings.logLevel.forwards type then
    [.log type (About.messageHead ++ ' ' :: message)]
  else []

/-- The workspace with its files indexed, unless indexing is disabled, and what is sent meanwhile. -/
def indexed (d : Disk) (w : Workspace) : Workspace × List ClientMessage :=
  if w.settings.indexing.enabled then
    match (Indexing.eligibleFiles d w.settings.indexing w.searchRoots).length with
    | 0 => (w, [])
    | total =>
      let cache := Indexing.index d w.settings.indexing w.searchRoots w.cache
      ({ w with cache, jobs := w.jobs + 1 }, Indexing.news total (w.jobs + 1))
  else (w, [])

def opened (d : Disk) (w : Workspace) (uri : Url) (t : Text) (version : Int) :
    Workspace × List ClientMessage :=
  let f := FileId.ofUrl d uri
  ({ w with
      cache := w.cache.update f t
      documents := w.documents.opened uri t version },
    w.logged .info ("Opened ".toList ++ f.shortName))

/-- The workspace with the text that an open document has after a change to the open documents. -/
def follow (d : Disk) (w : Workspace) (uri : Url) (documents : OpenDocuments) : Workspace :=
  match documents.get? uri with
  | some document =>
    { w with documents, cache := w.cache.update (FileId.ofUrl d uri) document.text }
  | none => w

def changed (d : Disk) (w : Workspace) (uri : Url) (changes : List Change) (version : Int) :
    Workspace × List ClientMessage :=
  match w.documents.get? uri with
  | some _ => (w.follow d uri (w.documents.changed uri changes version), [])
  | none => (w, w.logged .warning ("Ignored change to unopened ".toList ++ uri.lastSegment))

/-- The workspace after a document was closed: its file is read from disk again. -/
def closed (d : Disk) (w : Workspace) (uri : Url) : Workspace :=
  match w.documents.get? uri with
  | some _ =>
    { w with
      documents := w.documents.closed uri
      cache := w.cache.remove (FileId.ofUrl d uri) }
  | none => w

/-- The workspace under the settings in a payload. Files are indexed again if that makes a
difference. -/
def configured (d : Disk) (w : Workspace) (payload : Json) : Workspace × List ClientMessage :=
  let settings := w.settings.merged payload
  let next := w.withSettings settings
  if settings = w.settings then (w, [])
  else if settings.indexing = w.settings.indexing then (next, [])
  else next.indexed d

/-- The workspace after a message of the editor, and what is sent in return. -/
def receive (d : Disk) (w : Workspace) : EditorMessage → Workspace × List ClientMessage
  | .opened uri t version => w.opened d uri t version
  | .changed uri changes version => w.changed d uri changes version
  | .saved uri t => (w.follow d uri (w.documents.saved uri t), [])
  | .closed uri => (w.closed d uri, [])
  | .configured payload => w.configured d payload
  | .ready => w.indexed d

def completionContext (e : Environment) (w : Workspace) : CompletionContext :=
  ⟨e, ⟨w.searchRoots, w.settings.completion.implicitBuiltIn⟩, w.settings.completion.mode⟩

/-- The items for a position in a document, and the workspace after that. -/
def complete (e : Environment) (w : Workspace) (uri : Url) (p : Position) :
    List CompletionItem × Workspace :=
  let (items, cache) := Completion.items (w.completionContext e) w.settings.completion.enabled
    (FileId.ofUrl e.disk uri) (w.documents.get? uri) p w.cache
  (items, { w with cache })

end Workspace

end KeywordCompletion
