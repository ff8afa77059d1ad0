import KeywordCompletion.Cut
import KeywordCompletion.Text.Utf8

/-!
# Paths

A path is a string of bytes. What it says is the list of its parts: slashes that follow one another
count as one, and a dot stands for nothing unless a relative path starts with it.
-/

namespace KeywordCompletion

/-- A path of the file system: the bytes in which it is written. -/
structure Path where
  bytes : Bytes
  deriving DecidableEq, Repr

/-- A part of a path. -/
inductive PathPart where
  /-- The slash at the head of an absolute path. -/
  | root
  /-- A dot at the head of a relative path. -/
  | here
  /-- Two dots. -/
  | up
  /-- The name of a file or directory. -/
  | name (bytes : Bytes)
  deriving DecidableEq, Repr

namespace Path

def slash : UInt8 := 0x2F

def dot : UInt8 := 0x2E

def ofText (t : Text) : Path := ⟨Text.encode t⟩

/-- A path as it is shown; ill-formed UTF-8 is shown with replacement characters. -/
def display (p : Path) : Text := Text.decodeLossy p.bytes

/-- Showing a path that a text writes gives the text. -/
@[simp] theorem display_ofText (t : Text) : (ofText t).display = t := by
  simp [display, ofText]

def isAbsolute (p : Path) : Bool := p.bytes.head? == some slash

def pieces (p : Path) : List Bytes := (cut (· == slash) p.bytes).filter (!·.isEmpty)

/-- The part that a piece of a path is; a dot is none. -/
def part? (piece : Bytes) : Option PathPart :=
  if piece = [dot] then none
  else if piece = [dot, dot] then some .up
  else some (.name piece)

/-- The parts of a path in order. -/
def parts (p : Path) : List PathPart :=
  let rest := p.pieces.filterMap part?
  if p.isAbsolute then .root :: rest
  else if p.pieces.head? = some [dot] then .here :: rest
  else rest

def partBytes : PathPart → Bytes
  | .root => []
  | .here => [dot]
  | .up => [dot, dot]
  | .name bytes => bytes

def ofParts : List PathPart → Path
  | [.root] => ⟨[slash]⟩
  | parts => ⟨[slash].intercalate (parts.map partBytes)⟩

def ofNames (names : List Bytes) : Path := ofParts (.root :: names.map .name)

/-- A path read from the directory that another one names. -/
def join (p q : Path) : Path :=
  if q.isAbsolute then q
  else if p.bytes.isEmpty || p.bytes.getLast? == some slash then ⟨p.bytes ++ q.bytes⟩
  else ⟨p.bytes ++ slash :: q.bytes⟩

/-- The path without its last part. The root and the empty path have none. -/
def parent? (p : Path) : Option Path :=
  match p.parts.reverse with
  | [] | [.root] => none
  | _ :: before => some (ofParts before.reverse)

def fileName? (p : Path) : Option Bytes :=
  match p.parts.getLast? with
  | some (.name bytes) => some bytes
  | _ => none

/-- What follows the last full stop in the name of a file, unless the name starts there. -/
def extension? (p : Path) : Option Bytes :=
  p.fileName?.bind fun name =>
    let after := (name.reverse.takeWhile (· != dot)).reverse
    if after.length + 1 < name.length then some after else none

def startsWith (p q : Path) : Bool := q.parts.isPrefixOf p.parts

/-- The parts that remain after the parts before, which stand in reverse. A part that goes up takes
away the part before it, if there is one besides the root. -/
def foldPart (before : List PathPart) : PathPart → List PathPart
  | .here => before
  | .up =>
    match before with
    | [] => [.up]
    | [.root] => [.up, .root]
    | _ :: rest => rest
  | part => part :: before

/-- The path with every dot dropped and every `..` folded into what stands before it, whatever is on
disk. -/
def folded (p : Path) : Path := ofParts (p.parts.foldl foldPart []).reverse

end Path

end KeywordCompletion
