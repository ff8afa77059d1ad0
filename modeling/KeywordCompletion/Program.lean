import KeywordCompletion.CommandLine.Parser
import KeywordCompletion.Disk.Edit
import KeywordCompletion.Frame

/-!
# The program

What the program does with its arguments: it shows a text, or it opens its log file and serves an
editor. The log file is made with the directories on the way to it, even if nothing is served.
-/

namespace KeywordCompletion.Program

/-- The name of the log file unless another one is given. -/
def logFileName : Bytes := Text.encode "robot-analyzer.log".toList

def homeDirectoryName : Path := Path.ofText ".robot-analyzer".toList

/-- The log file at a path: in the directory of the path, under its last name if it has one. -/
def logFileAt (p : Path) : Path :=
  let directory := p.parent?.getD ⟨[Path.dot]⟩
  directory.join ⟨p.fileName?.getD logFileName⟩

/-- The disk with the directory for the log file of a user, and the log file: in the home directory
if there is one and the directory is there or can be made, else among the temporary files. -/
def defaultLogFile (e : Environment) (home : Option Path) : Disk × Path :=
  let inTemporary := e.temporaryDirectory.join ⟨logFileName⟩
  match home with
  | none => (e.disk, inTemporary)
  | some home =>
    let directory := home.join homeDirectoryName
    let (d, made) := e.disk.makeDirectories directory
    (d, if made || !directory.isAbsolute then directory.join ⟨logFileName⟩ else inTemporary)

/-- The disk with a log file, if it can be opened. Relative paths lead out of the disk. -/
def openLog? (d : Disk) (p : Path) : Option Disk :=
  if !p.isAbsolute || d.isFile p then some d
  else
    let d := d.write p [] 0
    if d.isFile p then some d else none

/-- What a run of the program leaves behind. -/
structure Result where
  exitCode : Nat
  output : Text
  errorOutput : Text
  replies : List Json
  disk : Disk

/-- What the program tells when it cannot open its log file. -/
def logError : Text := "initializing rolling file appender failed\n".toList

/-- What the program does with its arguments: it stops, or it serves an editor and keeps a log. -/
inductive Start where
  | stop (exitCode : Nat) (output errorOutput : Text) (disk : Disk)
  | serve (log : Path) (disk : Disk)

def start (e : Environment) (home : Option Path) (arguments : List Text) : Start :=
  match CommandLine.parse arguments with
  | .error error => .stop 2 [] error.message e.disk
  | .ok .help => .stop 0 CommandLine.helpText [] e.disk
  | .ok .version => .stop 0 CommandLine.versionText [] e.disk
  | .ok (.serve _ logFile) =>
    let (d, path) := match logFile with
      | some t => (e.disk, logFileAt (Path.ofText t))
      | none =>
        let (d, path) := defaultLogFile e home
        (d, logFileAt path)
    match openLog? d path with
    | none => .stop 101 [] logError d
    | some d => .serve path d

/-- A run of the program with arguments in an environment, where `frames` is what an editor sends. -/
def run (e : Environment) (home : Option Path) (arguments : List Text) (frames : List Json) :
    Result :=
  match start e home arguments with
  | .stop exitCode output errorOutput d => ⟨exitCode, output, errorOutput, [], d⟩
  | .serve _ d =>
    let (_, replies) := Session.initial.receiveAll { e with disk := d }
      (frames.filterMap Frame.ofJson?)
    ⟨0, [], [], replies, d⟩

end KeywordCompletion.Program
