import KeywordCompletion.Path.Basic

/-!
# Disks

A disk is a finite list of files, directories and symbolic links by location. `Disk.locate?` leads
a path through it, link after link, and says where it ends or why it leads nowhere; everything that
is read from a disk goes through it. There are no permissions and no errors of a device: what is
found can be read.
-/

namespace KeywordCompletion

/-- What stands at a location. -/
inductive DiskNode where
  /-- A file with its content and the time of its last change. -/
  | file (content : Bytes) (modified : Int)
  | directory
  /-- A symbolic link, with the path written in it. -/
  | link (target : Bytes)
  deriving DecidableEq, Repr

/-- Why a path leads to nothing that can be read. -/
inductive DiskError where
  | notFound
  | notDirectory
  | nameTooLong
  | tooManyLinks
  | notUtf8
  | isDirectory
  | nulInName
  deriving DecidableEq, Repr

namespace DiskError

def message : DiskError → String
  | notFound => "No such file or directory (os error 2)"
  | notDirectory => "Not a directory (os error 20)"
  | nameTooLong => "File name too long (os error 36)"
  | tooManyLinks => "Too many levels of symbolic links (os error 40)"
  | notUtf8 => "stream did not contain valid UTF-8"
  | isDirectory => "Is a directory (os error 21)"
  | nulInName => "file name contained an unexpected NUL byte"

end DiskError

/-- The names that lead from the root of a disk to a place on it. -/
abbrev Location := List Bytes

/-- Files, directories and links by location. Of two entries for one location the first counts. -/
structure Disk where
  entries : List (Location × DiskNode)

/-- The facts about a file that tell one state of it from another. -/
structure FileStamp where
  size : Nat
  modified : Int
  deriving DecidableEq, Repr

namespace Disk

def node? (d : Disk) (at_ : Location) : Option DiskNode :=
  (d.entries.find? fun (location, _) => location == at_).map Prod.snd

/-- The pieces to lead through for a path. A slash at the end asks for a directory, as a dot there
does. -/
def steps (bytes : Bytes) : List Bytes :=
  (cut (· == Path.slash) bytes).filter (!·.isEmpty) ++
    if bytes.getLast? = some Path.slash then [[Path.dot]] else []

/-- Where a path ends: at something, or at a name that is free in a directory. -/
inductive Arrival where
  | taken (at_ : Location)
  | free (at_ : Location)
  deriving DecidableEq, Repr

def maxLinks : Nat := 40

def maxName : Nat := 255

/-- Leads the remaining steps of a path on from a location. A link on the way is left to `onLink`,
which is given the location of the directory it stands in, its target and the steps after it. A link
at the end is followed if `follow` says so. -/
def walkWith (d : Disk) (follow : Bool)
    (onLink : Location → Bytes → List Bytes → Except DiskError Arrival) :
    Location → List Bytes → Except DiskError Arrival
  | at_, [] => .ok (.taken at_)
  | at_, step :: rest =>
    if d.node? at_ ≠ some .directory then .error .notDirectory
    else if step = [Path.dot] then walkWith d follow onLink at_ rest
    else if step = [Path.dot, Path.dot] then walkWith d follow onLink at_.dropLast rest
    else if maxName < step.length then .error .nameTooLong
    else
      let next := at_ ++ [step]
      match d.node? next with
      | none => if rest.isEmpty then .ok (.free next) else .error .notFound
      | some (.link target) =>
        if rest.isEmpty && !follow then .ok (.taken next) else onLink at_ target rest
      | some _ => walkWith d follow onLink next rest

/-- Where a link leads on from: the root if its target is an absolute path, else the directory it
stands in. -/
def linkStart (at_ : Location) (target : Bytes) : Location :=
  if target.head? = some Path.slash then [] else at_

/-- Leads the remaining steps of a path on from a location, through at most `links` links. -/
def walk (d : Disk) (follow : Bool) : Nat → Location → List Bytes → Except DiskError Arrival
  | 0 => walkWith d follow fun _ _ _ => .error .tooManyLinks
  | links + 1 => walkWith d follow fun at_ target rest =>
    if target.isEmpty then .error .notFound
    else walk d follow links (linkStart at_ target) (steps target ++ rest)

/-- Leads an absolute path through a disk. Relative paths, which a system leads on from the directory
it works in, are taken to lead nowhere. -/
def arrive (d : Disk) (follow : Bool) (p : Path) : Except DiskError Arrival :=
  if p.bytes.contains 0 then .error .nulInName
  else if p.isAbsolute then walk d follow maxLinks [] (steps p.bytes)
  else .error .notFound

def locate? (d : Disk) (p : Path) : Except DiskError Location :=
  match d.arrive true p with
  | .ok (.taken at_) => .ok at_
  | .ok (.free _) => .error .notFound
  | .error e => .error e

/-- The path without links, dots and double dots that leads to the same place. Neither path is too
long for this, unlike for `stat`. -/
def realPath (d : Disk) (p : Path) : Except DiskError Path := (d.locate? p).map Path.ofNames

/-- The length at which a path is too long to be asked for. -/
def maxPath : Nat := 4096

def isShort (p : Path) : Bool := p.bytes.length < maxPath

/-- What stands where a path leads. -/
def stat (d : Disk) (p : Path) : Except DiskError DiskNode :=
  if p.bytes.contains 0 then .error .nulInName
  else if maxPath ≤ p.bytes.length then .error .nameTooLong
  else (d.locate? p).bind fun at_ =>
    match d.node? at_ with
    | some node => .ok node
    | none => .error .notFound

def isFile (d : Disk) (p : Path) : Bool :=
  match d.stat p with
  | .ok (.file _ _) => true
  | _ => false

def readText (d : Disk) (p : Path) : Except DiskError Text :=
  (d.stat p).bind fun node =>
    match node with
    | .file content _ =>
      match Text.decode? content with
      | some t => .ok t
      | none => .error .notUtf8
    | _ => .error .isDirectory

def stampOf (content : Bytes) (modified : Int) : FileStamp := ⟨content.length, modified⟩

end Disk

/-- The real path where a path leads on a disk, else the path folded without a look at the disk. -/
def Path.normalized (d : Disk) (p : Path) : Path :=
  match d.realPath p with
  | .ok real => real
  | .error _ => p.folded

end KeywordCompletion
