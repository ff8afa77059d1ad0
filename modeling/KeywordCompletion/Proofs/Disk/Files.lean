import Mathlib.Tactic.Common
import KeywordCompletion.FileId

/-!
# Files on a disk

`Disk.fileAt?` is the file to which a path leads, and `FileId.fileOn?` the file that an identity
names. Both are found among the entries of the disk.
-/

namespace KeywordCompletion

/-- The file to which a path leads, if it leads to one: its content and the time of its last change. -/
def Disk.fileAt? (d : Disk) (p : Path) : Option (Bytes × Int) :=
  match d.stat p with
  | .ok (.file content modified) => some (content, modified)
  | _ => none

/-- The file on a disk that an identity names, if it names one. -/
def FileId.fileOn? (f : FileId) (d : Disk) : Option (Bytes × Int) := f.toPath?.bind d.fileAt?

namespace Disk

lemma fileAt?_eq_some_iff {d : Disk} {p : Path} {content : Bytes} {modified : Int} :
    d.fileAt? p = some (content, modified) ↔ d.stat p = .ok (.file content modified) := by
  unfold fileAt?
  split
  · rename_i h
    simp [h]
  · rename_i h
    constructor
    · intro e
      cases e
    · intro e
      exact absurd e (h content modified)

lemma isFile_eq_isSome (d : Disk) (p : Path) : d.isFile p = (d.fileAt? p).isSome := by
  unfold isFile fileAt?
  split <;> simp_all

lemma readText_of_decode? {d : Disk} {p : Path} {content : Bytes} {modified : Int} {t : Text}
    (h : d.fileAt? p = some (content, modified)) (ht : Text.decode? content = some t) :
    d.readText p = .ok t := by
  simp [readText, fileAt?_eq_some_iff.1 h, Except.bind, ht]

lemma readText_of_decode?_eq_none {d : Disk} {p : Path} {content : Bytes} {modified : Int}
    (h : d.fileAt? p = some (content, modified)) (ht : Text.decode? content = none) :
    d.readText p = .error .notUtf8 := by
  simp [readText, fileAt?_eq_some_iff.1 h, Except.bind, ht]

lemma exists_fileAt?_of_readText {d : Disk} {p : Path} {t : Text} (h : d.readText p = .ok t) :
    ∃ content modified, d.fileAt? p = some (content, modified) ∧ Text.decode? content = some t := by
  unfold readText at h
  cases hs : d.stat p with
  | error reason => simp [hs, Except.bind] at h
  | ok node =>
    cases node with
    | directory => simp [hs, Except.bind] at h
    | link target => simp [hs, Except.bind] at h
    | file content modified =>
      refine ⟨content, modified, fileAt?_eq_some_iff.2 hs, ?_⟩
      simp only [hs, Except.bind] at h
      split at h
      · rename_i u hu
        cases h
        exact hu
      · cases h

lemma mem_entries_of_node? {d : Disk} {at_ : Location} {node : DiskNode} (h : d.node? at_ = some node) :
    (at_, node) ∈ d.entries := by
  unfold node? at h
  obtain ⟨entry, hfind, rfl⟩ := Option.map_eq_some_iff.1 h
  have hat : entry.1 = at_ := by simpa using List.find?_some hfind
  rw [← hat]
  exact List.mem_of_find?_eq_some hfind

lemma fileAt?_eq_some_iff_exists {d : Disk} {p : Path} {content : Bytes} {modified : Int} :
    d.fileAt? p = some (content, modified) ↔
      (0 ∉ p.bytes ∧ p.bytes.length < maxPath) ∧
        ∃ at_, d.locate? p = .ok at_ ∧ d.node? at_ = some (.file content modified) := by
  rw [fileAt?_eq_some_iff, stat]
  by_cases hnul : 0 ∈ p.bytes
  · simp [hnul]
  by_cases hlong : maxPath ≤ p.bytes.length
  · simp [hnul, hlong, Nat.not_lt_of_ge hlong]
  · cases hl : d.locate? p with
    | error reason => simp [hnul, hlong, Except.bind]
    | ok at_ =>
      cases hn : d.node? at_ <;> simp [hnul, hlong, Except.bind, hn, Nat.lt_of_not_ge hlong]

end Disk

/-- The identity of what stands at a location. -/
def FileId.ofLocation (at_ : Location) : FileId := ⟨(Path.ofNames at_).display⟩

lemma FileId.ofPath_of_fileAt? {d : Disk} {p : Path} {content : Bytes} {modified : Int}
    (h : d.fileAt? p = some (content, modified)) :
    ∃ at_, (at_, DiskNode.file content modified) ∈ d.entries ∧
      FileId.ofPath d p = FileId.ofLocation at_ := by
  obtain ⟨_, at_, hl, hn⟩ := Disk.fileAt?_eq_some_iff_exists.1 h
  refine ⟨at_, Disk.mem_entries_of_node? hn, ?_⟩
  simp [FileId.ofPath, FileId.ofLocation, Path.normalized, Disk.realPath, hl, Except.map]

lemma FileId.fileOn?_eq_some_iff {f : FileId} {d : Disk} {file : Bytes × Int} :
    f.fileOn? d = some file ↔ ∃ p, f.toPath? = some p ∧ d.fileAt? p = some file := by
  simp [fileOn?, Option.bind_eq_some_iff]

lemma FileId.mem_entries_of_fileOn? {f : FileId} {d : Disk} {content : Bytes} {modified : Int}
    (h : f.fileOn? d = some (content, modified)) :
    ∃ at_, (at_, DiskNode.file content modified) ∈ d.entries := by
  obtain ⟨p, _, hp⟩ := FileId.fileOn?_eq_some_iff.1 h
  obtain ⟨at_, hat, _⟩ := FileId.ofPath_of_fileAt? hp
  exact ⟨at_, hat⟩

/-- Whether the identity of a path names no file. -/
def Disk.IsNameless (d : Disk) (p : Path) : Prop := (FileId.ofPath d p).fileOn? d = none

instance (d : Disk) : DecidablePred d.IsNameless :=
  fun p => inferInstanceAs (Decidable ((FileId.ofPath d p).fileOn? d = none))

end KeywordCompletion
