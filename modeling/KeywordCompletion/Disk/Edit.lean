import KeywordCompletion.Disk.Basic

/-!
# Changes to a disk

Writing, linking and deleting. A change that the disk does not allow, such as a file below another
file, leaves out what it cannot do.
-/

namespace KeywordCompletion.Disk

/-- A disk with nothing on it but a directory for temporary files. -/
def initial : Disk := ⟨[([], .directory), ([Text.encode "tmp".toList], .directory)]⟩

/-- The disk with something put at a location, in place of what stood there. -/
def put (d : Disk) (at_ : Location) (node : DiskNode) : Disk :=
  ⟨(d.entries.filter fun (location, _) => location != at_) ++ [(at_, node)]⟩

def clear (d : Disk) (at_ : Location) : Disk :=
  ⟨d.entries.filter fun (location, _) => !at_.isPrefixOf location⟩

/-- The disk with a directory where a path leads, if one is there or can be put there. -/
def makeDirectory? (d : Disk) (p : Path) : Option Disk :=
  match d.arrive false p with
  | .ok (.free at_) => some (d.put at_ .directory)
  | .ok (.taken _) =>
    match d.stat p with
    | .ok .directory => some d
    | _ => none
  | .error _ => none

/-- The disk with every directory on the way of a path, and whether they are all there. -/
def makeDirectories (d : Disk) (p : Path) : Disk × Bool :=
  let parts := p.parts
  let ways := (List.range parts.length).map fun n => Path.ofParts (parts.take (n + 1))
  ways.foldl (fun (d, fine) way =>
    match fine, d.makeDirectory? way with
    | true, some d => (d, true)
    | _, _ => (d, false)) (d, true)

/-- The disk with the directories on the way to where a path leads. -/
def makeParents (d : Disk) (p : Path) : Disk :=
  match p.parent? with
  | some parent => (d.makeDirectories parent).1
  | none => d

/-- The disk with a file written where a path leads; missing directories are made. -/
def write (d : Disk) (p : Path) (content : Bytes) (modified : Int) : Disk :=
  let d := d.makeParents p
  match d.arrive true p with
  | .ok (.free at_) => d.put at_ (.file content modified)
  | .ok (.taken at_) =>
    match d.node? at_ with
    | some (.file _ _) => d.put at_ (.file content modified)
    | _ => d
  | .error _ => d

/-- The disk with a link at the end of a path, if nothing is there; missing directories are made. -/
def symlink (d : Disk) (p : Path) (target : Bytes) : Disk :=
  let d := d.makeParents p
  match d.arrive false p with
  | .ok (.free at_) => d.put at_ (.link target)
  | _ => d

/-- The disk without what stands at the end of a path. Of a link the link alone is deleted, of a
directory everything in it. -/
def delete (d : Disk) (p : Path) : Disk :=
  match d.arrive false p with
  | .ok (.taken at_) => d.clear at_
  | _ => d

def files (d : Disk) : List Location :=
  d.entries.filterMap fun (location, node) =>
    match node with
    | .file _ _ => some location
    | _ => none

end KeywordCompletion.Disk
