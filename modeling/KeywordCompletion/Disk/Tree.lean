import KeywordCompletion.Disk.Basic

/-!
# Directory trees

The entries below a directory, each directory before what is in it and names in the order of their
bytes. Links are followed, except those to a directory that leads to them; an entry that cannot be
looked at is left out, and so is one whose path is too long to be asked for.
-/

namespace KeywordCompletion

/-- An entry of a directory tree: the path on which it was met, where that path leads, and how many
directories below the root of the tree it is. -/
structure TreeEntry where
  path : Path
  location : Location
  depth : Nat
  deriving DecidableEq, Repr

namespace Disk

/-- The names in a directory, sorted. -/
def names (d : Disk) (at_ : Location) : List Bytes :=
  let here := d.entries.filterMap fun (location, _) =>
    match location.getLast? with
    | some name => if location.dropLast == at_ then some name else none
    | none => none
  here.eraseDups.mergeSort fun a b => !decide (b < a)

/-- The entry with a name in the directory of another entry, where `above` are the locations of
the directories that lead to it. -/
def child? (d : Disk) (above : List Location) (parent : TreeEntry) (name : Bytes) :
    Option TreeEntry :=
  let path := parent.path.join ⟨name⟩
  let next := parent.location ++ [name]
  match d.node? next with
  | none => none
  | some (.link _) =>
    match d.locate? path with
    | .error _ => none
    | .ok at_ =>
      if d.node? at_ = some .directory ∧ at_ ∈ above then none
      else some ⟨path, at_, parent.depth + 1⟩
  | some _ => some ⟨path, next, parent.depth + 1⟩

/-- An entry and the entries below it, as far as `keep` lets them through: nothing is looked for
below an entry that is not kept. -/
def treeBelow (d : Disk) (keep : TreeEntry → Bool) : Nat → List Location → TreeEntry →
    List TreeEntry
  | 0, _, _ => []
  | fuel + 1, above, entry =>
    if keep entry then
      let above := entry.location :: above
      let below :=
        if d.node? entry.location = some .directory then
          (d.names entry.location).flatMap fun name =>
            match d.child? above entry name with
            | some entry => treeBelow d keep fuel above entry
            | none => []
        else []
      entry :: below
    else []

/-- A bound on the depth of a tree: between two links to directories that lead to neither of them
no way is longer than the longest location. -/
def treeFuel (d : Disk) : Nat :=
  let longest := d.entries.foldl (fun n (location, _) => max n location.length) 0
  (d.entries.length + 1) * (longest + 2)

/-- The kept entries of the tree at a path, however long the paths are on which they are met. -/
def wholeTree (d : Disk) (keep : TreeEntry → Bool) (root : Path) : List TreeEntry :=
  match d.locate? root with
  | .ok at_ => d.treeBelow keep d.treeFuel [] ⟨root, at_, 0⟩
  | .error _ => []

/-- The kept entries of the tree at a path, as a walk through it meets them. -/
def tree (d : Disk) (keep : TreeEntry → Bool) (root : Path) : List TreeEntry :=
  d.wholeTree (fun entry => isShort entry.path && keep entry) root

end Disk

end KeywordCompletion
