import KeywordCompletion.CommandLine.Basic
import KeywordCompletion.CommandLine.Similarity

/-!
# Reading the command line

Arguments are read from left to right up to the first that is wrong or that asks for help. The value
of an option in an argument of its own is settled when the next option is read, so what is wrong with
it shows only then.
-/

namespace KeywordCompletion.CommandLine

/-- What has been read: the options used so far, the log file, and an option whose value is not
settled, with the value if it was read. -/
structure Reading where
  used : List Flag
  logFile : Option Text
  unsettled : Option (Option Text)

namespace Reading

def start : Reading := ⟨[], none, none⟩

def use (r : Reading) (flag : Flag) : Reading × Option UsageError :=
  if flag ∈ r.used then ({ r with used := r.used.erase flag }, some (.repeated flag))
  else ({ r with used := r.used ++ [flag] }, none)

def useLogFile (r : Reading) (value : Text) : Reading × Option UsageError :=
  match r.use .logFile with
  | (r, some e) => (r, some e)
  | (r, none) =>
    if value.isEmpty then (r, some (.missingValue .logFile))
    else ({ r with logFile := some value }, none)

/-- Settles the value of an option, if there is one to be settled. -/
def settle (r : Reading) : Reading × Option UsageError :=
  match r.unsettled with
  | none => (r, none)
  | some none => ({ r with unsettled := none }, some (.missingValue .logFile))
  | some (some value) => { r with unsettled := none }.useLogFile value

end Reading

/-- The option whose name is most like a word, if one is like it at all. -/
def similarFlag? (word : Text) : Option Flag :=
  let similar := Flag.all.filter fun flag => 7 / 10 < Text.similarity word flag.name
  similar.foldl (fun best flag =>
    match best with
    | none => some flag
    | some other =>
      if Text.similarity word other.name ≤ Text.similarity word flag.name then some flag
      else best) none

/-- Options with one more at the end, unless it is there. -/
def withFlag (used : List Flag) (flag : Flag) : List Flag :=
  if flag ∈ used then used else used ++ [flag]

/-- What is to be done after an argument. -/
inductive Reaction where
  | goOn (r : Reading)
  | stop (request : Request)
  | refuse (e : UsageError)

def readFlag (r : Reading) (flag : Flag) : Reaction :=
  match r.settle with
  | (_, some e) => .refuse e
  | (r, none) =>
    match flag with
    | .help => .stop .help
    | .version => .stop .version
    | .logFile => .goOn { r with unsettled := some none }
    | .verbose =>
      match r.use .verbose with
      | (_, some e) => .refuse e
      | (r, none) => .goOn r

/-- Reads an option by its name, with a value that stands in the same argument. -/
def readLong (r : Reading) (name : Text) (value : Option Text) : Reaction :=
  match Flag.all.find? fun flag => flag.name == name, value with
  | none, _ =>
    let used := r.settle.1.used
    let similar := similarFlag? name
    .refuse (.unexpected ('-' :: '-' :: name) similar (similar.toList.foldl withFlag used))
  | some flag, none => readFlag r flag
  | some flag, some value =>
    if flag.takesValue then
      match r.settle with
      | (_, some e) => .refuse e
      | (r, none) =>
        match r.useLogFile value with
        | (_, some e) => .refuse e
        | (r, none) => .goOn r
    else .refuse (.needlessValue value flag (withFlag r.used flag))

def readShort (r : Reading) : Text → Reaction
  | [] => .goOn r
  | c :: t =>
    match Flag.all.find? fun flag => flag.letter? == some c with
    | none => .refuse (.unexpected ['-', c] none [])
    | some flag =>
      match readFlag r flag with
      | .goOn r => readShort r t
      | reaction => reaction

/-- Reads an argument, which may be the value that an option waits for. -/
def readArgument (r : Reading) (argument : Text) : Reaction :=
  match argument with
  | '-' :: '-' :: option =>
    let name := option.takeWhile (· != '=')
    let value := option.drop (name.length + 1)
    readLong r name (if name.length < option.length then some value else none)
  | '-' :: c :: t => readShort r (c :: t)
  | _ =>
    match r.unsettled with
    | some none => .goOn { r with unsettled := some (some argument) }
    | _ => .refuse (.unexpected argument none [])

/-- Reads the arguments, where two hyphens alone end the options. -/
def readAll (r : Reading) : List Text → Except UsageError Request
  | [] => finish r
  | ['-', '-'] :: more =>
    match more with
    | [] => finish r
    | argument :: _ => .error (.unexpected argument none [])
  | argument :: more =>
    match readArgument r argument with
    | .goOn r => readAll r more
    | .stop request => .ok request
    | .refuse e => .error e
where
  /-- Settles what is left. -/
  finish (r : Reading) : Except UsageError Request :=
    match r.settle with
    | (_, some e) => .error e
    | (r, none) => .ok (.serve (r.used.contains .verbose) r.logFile)

def parse (arguments : List Text) : Except UsageError Request := readAll Reading.start arguments

end KeywordCompletion.CommandLine
