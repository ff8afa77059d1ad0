import KeywordCompletion.Import.Candidate
import KeywordCompletion.Proofs.Disk.Walks
import KeywordCompletion.Proofs.Path.Folding

/-!
# Spellings of a path

The candidates for an import are normal paths, and each of them is made normal once more when it gives a file
its identity. On a disk whose names are texts this identity leads where the candidate leads:
`location?_ofPath_eq_some_iff`. So all spellings of the ways to a file give it one identity, and no candidate
that leads to no file bears the identity of one.
-/

namespace KeywordCompletion

open Text

namespace Disk

variable {d : Disk} {p : Path} {loc : Location}

/-- Whether the names on a disk are texts. -/
structure IsTextual (d : Disk) : Prop extends d.IsRegular where
  isUtf8 : ∀ entry ∈ d.entries, ∀ name ∈ entry.1, IsUtf8 name

instance (d : Disk) : Decidable d.IsTextual :=
  decidable_of_iff (d.IsRegular ∧ ∀ entry ∈ d.entries, ∀ name ∈ entry.1, IsUtf8 name)
    ⟨fun ⟨h, hnames⟩ => ⟨h, hnames⟩, fun ⟨h, hnames⟩ => ⟨h, hnames⟩⟩

lemma IsTextual.isUtf8_of_locate? (hd : d.IsTextual) (h : d.locate? p = .ok loc) :
    ∀ name ∈ loc, IsUtf8 name := by
  rcases (reaches_of_locate? h).here with rfl | ⟨node, hnode, -⟩
  · simp
  · exact hd.isUtf8 _ (mem_entries_of_node? hnode)

/-- Whether a path leads to a file, however long the path is. -/
def leadsToFile (d : Disk) (p : Path) : Bool :=
  match d.locate? p with
  | .ok loc =>
    match d.node? loc with
    | some (.file _ _) => true
    | _ => false
  | .error _ => false

lemma leadsToFile_iff : d.leadsToFile p = true ↔
    ∃ loc content modified, d.locate? p = .ok loc ∧ d.node? loc = some (.file content modified) := by
  unfold leadsToFile
  constructor
  · intro h
    split at h
    · rename_i loc hl
      split at h
      · rename_i content modified hn
        exact ⟨loc, content, modified, hl, hn⟩
      · cases h
    · cases h
  · rintro ⟨loc, content, modified, hl, hn⟩
    simp only [hl, hn]

lemma leadsToFile_of_isFile (h : d.isFile p = true) : d.leadsToFile p = true := by
  rw [isFile_eq_isSome, Option.isSome_iff_exists] at h
  obtain ⟨⟨content, modified⟩, hfile⟩ := h
  obtain ⟨-, loc, hl, hn⟩ := fileAt?_eq_some_iff_exists.1 hfile
  exact leadsToFile_iff.2 ⟨loc, content, modified, hl, hn⟩

end Disk

variable {d : Disk} {p : Path} {loc : Location}

/-- Where an identity leads on a disk. -/
def FileId.location? (f : FileId) (d : Disk) : Option Location :=
  f.toPath?.bind fun p => (d.locate? p).toOption

/-- A path that is a text, and that is folded unless it leads somewhere. -/
structure Path.IsNormal (d : Disk) (p : Path) : Prop where
  isUtf8 : IsUtf8 p.bytes
  folded_eq : ∀ reason, d.locate? p = .error reason → p.folded = p

lemma Path.normalized_of_locate? (h : d.locate? p = .ok loc) : p.normalized d = ofNames loc := by
  simp [normalized, Disk.realPath, h, Except.map]

lemma Path.normalized_of_error {reason : DiskError} (h : d.locate? p = .error reason) :
    p.normalized d = p.folded := by
  simp [normalized, Disk.realPath, h, Except.map]

lemma Path.isNormal_normalized (hd : d.IsTextual) (h : IsUtf8 p.bytes) : (p.normalized d).IsNormal d := by
  cases hl : d.locate? p with
  | ok loc =>
    rw [normalized_of_locate? hl]
    refine ⟨isUtf8_ofNames (hd.isUtf8_of_locate? hl), fun reason hreason => ?_⟩
    rw [Disk.locate?_ofNames hd.toIsRegular (Disk.reaches_of_locate? hl)] at hreason
    cases hreason
  | error reason =>
    rw [normalized_of_error hl]
    exact ⟨isUtf8_folded h, fun _ _ => folded_folded p⟩

namespace FileId

lemma ofPath_of_locate? (h : d.locate? p = .ok loc) : ofPath d p = ofLocation loc := by
  rw [ofPath, Path.normalized_of_locate? h]
  rfl

lemma toPath?_ofLocation (h : ∀ name ∈ loc, IsUtf8 name) : (ofLocation loc).toPath? = some (Path.ofNames loc) := by
  simp only [toPath?, ofLocation, Path.ofText_display (Path.isUtf8_ofNames h), Disk.isAbsolute_ofNames, if_true]

/-- The identity of a normal path leads where the path leads. -/
theorem location?_ofPath_eq_some_iff (hd : d.IsTextual) (h : p.IsNormal d) :
    (ofPath d p).location? d = some loc ↔ d.locate? p = .ok loc := by
  cases hl : d.locate? p with
  | ok other =>
    rw [ofPath_of_locate? hl, location?, toPath?_ofLocation (hd.isUtf8_of_locate? hl), Option.bind_some,
      Disk.locate?_ofNames hd.toIsRegular (Disk.reaches_of_locate? hl)]
    simp [Except.toOption]
  | error reason =>
    have hid : ofPath d p = ⟨p.display⟩ := by
      rw [ofPath, Path.normalized_of_error hl, h.folded_eq reason hl]
    simp only [hid, location?, toPath?, Path.ofText_display h.isUtf8]
    split <;> simp [hl, Except.toOption]

lemma isUtf8_toPath? (f : FileId) : IsUtf8 (f.toPath?.getD ⟨[]⟩).bytes := by
  unfold toPath?
  dsimp only
  split
  · exact isUtf8_encode f.text
  · exact isUtf8_encode []

end FileId

/-- A normal path that leads to no file does not bear the identity of one. -/
lemma Disk.isNameless_of_leadsToFile (hd : d.IsTextual) (h : p.IsNormal d) (hno : d.leadsToFile p = false) :
    d.IsNameless p := by
  rw [IsNameless, Option.eq_none_iff_forall_ne_some]
  rintro ⟨content, modified⟩ hfile
  obtain ⟨q, hq, hfile⟩ := FileId.fileOn?_eq_some_iff.1 hfile
  obtain ⟨-, loc, hl, hn⟩ := fileAt?_eq_some_iff_exists.1 hfile
  have hp : d.locate? p = .ok loc := by
    rw [← FileId.location?_ofPath_eq_some_iff hd h, FileId.location?, hq, Option.bind_some, hl]
    rfl
  rw [leadsToFile_iff.2 ⟨loc, content, modified, hp, hn⟩] at hno
  cases hno

/-- All candidates for an import are normal. -/
theorem Import.isNormal_of_mem_candidates {e : Environment} {roots : List Path} {importer q : Path} {t : Text}
    (hd : e.disk.IsTextual) (hroots : ∀ root ∈ roots, IsUtf8 root.bytes) (himporter : IsUtf8 importer.bytes)
    (h : q ∈ candidates e roots importer t) : q.IsNormal e.disk := by
  unfold candidates at h
  dsimp only at h
  split at h
  · rw [List.mem_singleton] at h
    rw [h]
    exact Path.isNormal_normalized hd (isUtf8_encode _)
  · rw [List.mem_eraseDups] at h
    obtain ⟨directory, hdirectory, rfl⟩ := List.mem_map.1 h
    have hutf8 : IsUtf8 directory.bytes := by
      rcases List.mem_append.1 hdirectory with howner | hroot
      · exact Path.isUtf8_parent? himporter (Option.mem_toList.1 howner)
      · exact hroots directory hroot
    exact Path.isNormal_normalized hd (Path.isUtf8_join hutf8 (isUtf8_encode _))

end KeywordCompletion
