import KeywordCompletion.Json.Parser
import KeywordCompletion.Json.Printer
import KeywordCompletion.Program

/-!
# The executable

Reads the command line and serves an editor over standard input and output. What the session is told
of the disk is a picture of the trees below the roots of the workspace and of the directories of open
documents, taken before each message.
-/

namespace KeywordCompletion.Main

/-- The directories on the way to a location, the root first. -/
def ancestors (location : Location) : List (Location × DiskNode) :=
  (List.range (location.length + 1)).map fun n => (location.take n, .directory)

/-- What stands at a path, and everything below it if it is a directory and `deep` says so. -/
partial def picture (deep : Bool) (path : String) : IO (List (Location × DiskNode)) := do
  let location := (Path.ofText path.toList).pieces
  try
    let real ← IO.FS.realPath path
    if real.toString != path then
      return [(location, .link (Text.encode real.toString.toList))]
    if ← real.isDir then
      let entries ← real.readDir
      let below ← entries.toList.mapM fun entry => do
        if deep || !(← entry.path.isDir) then picture deep entry.path.toString else pure []
      return (location, .directory) :: below.flatten
    let content ← IO.FS.readBinFile path
    let modified := (← real.metadata).modified
    let nanoseconds := modified.sec * 1000000000 + modified.nsec.toNat
    return [(location, .file content.toList nanoseconds)]
  catch _ => return []

/-- The trees below some paths, what is in some directories, and the ways to them. -/
def look (roots directories : List Path) : IO Disk := do
  let below ← roots.mapM fun root => picture true (String.ofList root.display)
  let inside ← directories.mapM fun path => picture false (String.ofList path.display)
  let ways := (roots ++ directories).flatMap fun path => ancestors path.pieces
  return ⟨below.flatten ++ inside.flatten ++ ways⟩

/-- The disk as far as a session can see it. -/
def lookFor (s : Session) : IO Disk :=
  look s.workspace.searchRoots <| s.workspace.documents.documents.entries.filterMap fun (uri, _) =>
    uri.toPath?.bind Path.parent?

def assignments : IO (List (Text × Text)) := do
  let names := ["HOME", "TMPDIR", "USER", "PATH", "PWD"]
  let found ← names.mapM fun name => do
    return (← IO.getEnv name).map fun value => (name.toList, value.toList)
  return found.filterMap id

/-- The length that a header gives, if it gives one. -/
def contentLength? (header : String) : Option Nat :=
  match header.splitOn ":" with
  | [name, value] =>
    if name.toLower == "content-length" then value.trimAscii.toString.toNat? else none
  | _ => none

/-- The length of the next message, if there is one. -/
partial def readHeaders (input : IO.FS.Stream) (length : Option Nat) : IO (Option Nat) := do
  let line ← input.getLine
  if line.isEmpty then return none
  else if line.trimAscii.isEmpty then return length
  else readHeaders input ((contentLength? line).or length)

/-- So many bytes, or all that are left. -/
partial def readBytes (input : IO.FS.Stream) (length : Nat) (read : ByteArray) : IO ByteArray := do
  if length ≤ read.size then return read
  let more ← input.read (USize.ofNat (length - read.size))
  if more.isEmpty then return read
  readBytes input length (read ++ more)

def write (output : IO.FS.Stream) (message : Json) : IO Unit := do
  let text := message.print
  output.putStr s!"Content-Length: {text.utf8ByteSize}\r\n\r\n"
  output.putStr text
  output.flush

/-- Serves an editor until it exits or falls silent. `number` counts what is asked of it. -/
partial def serve (input output : IO.FS.Stream) (environment : List (Text × Text)) (s : Session)
    (number : Nat) : IO Unit := do
  let some length ← readHeaders input none | return
  let bytes ← readBytes input length ByteArray.empty
  match (Json.parse? (Text.decodeLossy bytes.toList)).bind Frame.ofJson? with
  | none => serve input output environment s number
  | some frame =>
    let disk ← lookFor s
    let (s, answer, sent) := s.receive ⟨disk, environment⟩ frame.incoming
    for message in sent do
      write output (Frame.sent number message)
    for reply in frame.reply? answer do
      write output reply
    if s.phase = .exited then return
    serve input output environment s (number + sent.length)

def openLog (path : Path) : IO Unit := do
  if let some directory := path.parent? then
    if !directory.bytes.isEmpty then
      IO.FS.createDirAll (String.ofList directory.display)
  let log ← IO.FS.Handle.mk (String.ofList path.display) .append
  log.putStrLn s!"Starting {About.name} v{About.version}"

def run (arguments : List String) : IO UInt32 := do
  let assignments ← assignments
  let home := (Environment.value? ⟨Disk.initial, assignments⟩ "HOME".toList).map Path.ofText
  let disk ← look [] home.toList
  let stop (exitCode : Nat) (output errorOutput : Text) : IO UInt32 := do
    IO.print (String.ofList output)
    (← IO.getStderr).putStr (String.ofList errorOutput)
    return exitCode.toUInt32
  match Program.start ⟨disk, assignments⟩ home (arguments.map String.toList) with
  | .stop exitCode output errorOutput _ => stop exitCode output errorOutput
  | .serve log _ =>
    try openLog log
    catch _ => return ← stop 101 [] Program.logError
    serve (← IO.getStdin) (← IO.getStdout) assignments Session.initial 1
    return 0

end KeywordCompletion.Main

def main (arguments : List String) : IO UInt32 := KeywordCompletion.Main.run arguments
