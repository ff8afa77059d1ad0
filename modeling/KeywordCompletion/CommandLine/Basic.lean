import KeywordCompletion.About
import KeywordCompletion.Text.Basic

/-!
# The command line

The options of the program, what it can be asked to do with them, and what is wrong with arguments
that are not understood.
-/

namespace KeywordCompletion.CommandLine

/-- The options of the program. -/
inductive Flag where
  | verbose
  | logFile
  | help
  | version
  deriving DecidableEq, Repr

namespace Flag

def all : List Flag := [verbose, logFile, help, version]

def name : Flag → Text
  | verbose => "verbose".toList
  | logFile => "log-file".toList
  | help => "help".toList
  | version => "version".toList

def letter? : Flag → Option Char
  | verbose => some 'v'
  | logFile => none
  | help => some 'h'
  | version => some 'V'

def takesValue (f : Flag) : Bool := f == logFile

def display (f : Flag) : Text :=
  let name := '-' :: '-' :: f.name
  if f.takesValue then name ++ " <LOG_FILE>".toList else name

end Flag

/-- What the program is asked to do. -/
inductive Request where
  /-- To serve an editor. -/
  | serve (verbose : Bool) (logFile : Option Text)
  | help
  | version
  deriving DecidableEq, Repr

/-- What is wrong with the arguments. -/
inductive UsageError where
  /-- An argument that means nothing, the option that is like it, and the options that are named in
  the usage. -/
  | unexpected (argument : Text) (similar : Option Flag) (used : List Flag)
  /-- A value for an option that takes none. -/
  | needlessValue (value : Text) (flag : Flag) (used : List Flag)
  | missingValue (flag : Flag)
  | repeated (flag : Flag)
  deriving DecidableEq, Repr

def versionText : Text := About.name.toList ++ ' ' :: About.version.toList ++ ['\n']

/-- How the program is used, with the given options or any. -/
def usage (used : List Flag) : Text :=
  let options :=
    if used.isEmpty then " [OPTIONS]".toList else used.flatMap fun flag => ' ' :: flag.display
  "Usage: ".toList ++ About.name.toList ++ options

def helpText : Text :=
  "Keyword completion engine and language server for Robot Framework test data\n\n".toList ++
    usage [] ++ "\n\nOptions:\n".toList ++
    "  -v, --verbose              Emit debug logs for the analyzer and the LSP transport\n".toList ++
    "      --log-file <LOG_FILE>  \n".toList ++
    "  -h, --help                 Print help\n".toList ++
    "  -V, --version              Print version\n".toList

namespace UsageError

def quoted (t : Text) : Text := '\'' :: t ++ ['\'']

def paragraphs : UsageError → List Text
  | unexpected argument similar used =>
    let tip := similar.map fun flag =>
      "  tip: a similar argument exists: ".toList ++ quoted ('-' :: '-' :: flag.name)
    ("unexpected argument ".toList ++ quoted argument ++ " found".toList) ::
      (tip.toList ++ [usage used])
  | needlessValue value flag used => [
    "unexpected value ".toList ++ quoted value ++ " for ".toList ++ quoted flag.display ++
      " found; no more were expected".toList,
    usage used]
  | missingValue flag => [
    "a value is required for ".toList ++ quoted flag.display ++ " but none was supplied".toList]
  | repeated flag => [
    "the argument ".toList ++ quoted flag.display ++ " cannot be used multiple times".toList,
    usage []]

def message (e : UsageError) : Text :=
  "error: ".toList ++ "\n\n".toList.intercalate e.paragraphs ++
    "\n\nFor more information, try '--help'.\n".toList

end UsageError

end KeywordCompletion.CommandLine
