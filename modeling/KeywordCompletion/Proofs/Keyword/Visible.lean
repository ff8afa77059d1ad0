import KeywordCompletion.Keyword.Visible
import KeywordCompletion.Proofs.Import.Search
import KeywordCompletion.Proofs.Row.Kinds
import KeywordCompletion.Proofs.Row.Lines
import KeywordCompletion.Proofs.Text.CaseForms

/-!
# Visible keywords

The keywords that are visible from a file are those of the rows that begin a keyword in the files that the
search along imports visits, and the tables of the known libraries among them, each once and in the order of
the visits: `visibleKeywords_of_search`.
-/

namespace KeywordCompletion

namespace Library

lemma ascii_of_known : ∀ library ∈ known, library.1.toList.all fun c => c.toLower.toNat < 0x80 := by
  decide +kernel

lemma eq_of_known : ∀ library ∈ known, ∀ other ∈ known, library.2 = other.2 → library = other := by
  decide +kernel

/-- Libraries with the same table are the same up to the case of their names. -/
lemma lowercase_eq_of_keywords? {name other : Text} {table : List String} (h : keywords? name = some table)
    (h' : keywords? other = some table) : Text.lowercase name = Text.lowercase other := by
  obtain ⟨library, hfind, rfl⟩ := Option.map_eq_some_iff.1 h
  obtain ⟨library', hfind', htable⟩ := Option.map_eq_some_iff.1 h'
  have hmem := List.mem_of_find?_eq_some hfind
  obtain rfl := eq_of_known library' (List.mem_of_find?_eq_some hfind') library hmem htable
  have hascii := ascii_of_known library' hmem
  have hname := List.find?_some hfind
  have hother := List.find?_some hfind'
  exact (Text.lowercase_of_eqIgnoringAsciiCase hascii hname).trans
    (Text.lowercase_of_eqIgnoringAsciiCase hascii hother).symm

end Library

/-- The table of a library that is visited, if it is known. -/
def Visit.table? : Visit → Option (List String)
  | .file _ _ => none
  | .library name => Library.keywords? name

lemma nodup_table? {visits : List Visit} (h : (visits.map Visit.key).Nodup) :
    (visits.filterMap Visit.table?).Nodup := by
  rw [List.Nodup, List.pairwise_map] at h
  rw [List.Nodup, List.pairwise_filterMap]
  refine h.imp fun {v v'} hkey table htable table' htable' => ?_
  rintro rfl
  apply hkey
  cases v with
  | file f source => cases htable
  | library name =>
    cases v' with
    | file f source => cases htable'
    | library other =>
      rw [Visit.key, Visit.key, Visit.target, Visit.target, ImportTarget.key, ImportTarget.key,
        Library.lowercase_eq_of_keywords? htable htable']

lemma exists_cell_of_keywordBegin {t : Text} {row : Row} (hrow : row ∈ Row.parse t)
    (hkind : row.kind = .keywordBegin) : ∃ cell, row.cell? 0 = some cell ∧ cell.isEmpty = false := by
  obtain ⟨table, start, raw, -, rfl⟩ := Row.exists_read_of_mem_parse hrow
  have hclassify : (RowKind.classify table (splitCells (Row.chomp raw) start).1
      (splitCells (Row.chomp raw) start).2).1 = .keywordBegin := hkind
  cases hcells : (splitCells (Row.chomp raw) start).1 with
  | nil =>
    rw [hcells, RowKind.classify] at hclassify
    split at hclassify <;> cases hclassify
  | cons first more =>
    rw [hcells] at hclassify
    obtain ⟨current, hcalls⟩ := RowKind.exists_calls (by rw [hclassify]; rfl)
    refine ⟨first, ?_, ?_⟩
    · rw [Row.cell?, Row.read]
      simp only [hcells, List.getElem?_cons_zero]
    · rw [hcalls.kind] at hclassify
      cases hempty : first.isEmpty with
      | false => rfl
      | true =>
        rw [hempty] at hclassify
        cases current <;> cases hclassify

namespace KeywordDefinition

/-- A definition for each row that begins a keyword, with the name in its first cell. -/
def ofBeginnings (id : FileId) (rows : List Row) : List KeywordDefinition :=
  (rows.zipIdx.filter fun (row, _) => row.kind = .keywordBegin).map fun (row, line) =>
    ⟨((row.cell? 0).map Cell.value).getD [], .file id, some line⟩

lemma ofSource_eq (id : FileId) (source : Source) : ofSource id source = ofBeginnings id source.rows := by
  rw [ofSource, ofBeginnings, ← List.filterMap_eq_map, List.filterMap_filter]
  refine List.filterMap_congr fun ⟨row, line⟩ hmem => ?_
  by_cases hkind : row.kind = .keywordBegin
  · have hrow : row ∈ Row.parse source.text := by
      rw [← source.rows_eq]
      exact List.fst_mem_of_mem_zipIdx hmem
    obtain ⟨cell, hcell, hempty⟩ := exists_cell_of_keywordBegin hrow hkind
    simp [ofRow?, hkind, hcell, hempty]
  · simp [ofRow?, hkind]

/-- The definitions that a visit contributes: those of the rows of a file, or the table of a library. -/
def contributed : Visit → List KeywordDefinition
  | .file id source => ofBeginnings id source.rows
  | .library name =>
    ((Library.keywords? name).getD []).map fun keyword => ⟨keyword.toList, .library name, none⟩

lemma ofVisit_eq (v : Visit) : ofVisit v = contributed v := by
  cases v with
  | file id source => exact ofSource_eq id source
  | library name => rfl

end KeywordDefinition

open ImportSearch

/-- The search along imports from a file has one result, with nothing visited twice. A walk from the file
visits the same, and the visible keywords are those that these visits contribute, if every snapshot of the
cache is one of a file on disk, and no candidate that an import passes over bears the identity of a file. -/
theorem visibleKeywords_of_search (e : Environment) (scope : ImportScope) (c : SourceCache) (f : FileId)
    (hpresent : c.IsPresent e.disk) :
    ∃ visits, (∀ visits', (∃ seen, Explores e scope.roots c [] [.file f] visits' seen) ↔ visits' = visits) ∧
      ((visits ++ ending scope visits).map Visit.key).Nodup ∧
      ((visits ++ ending scope visits).filterMap Visit.table?).Nodup ∧
      ((∀ v ∈ visits, v.PassesOver e.disk.IsNameless e scope.roots c) →
        (ImportWalk.visits e scope c f).1 = visits ++ ending scope visits ∧
        (visibleKeywords e scope .all c f).1 =
          (visits ++ ending scope visits).flatMap KeywordDefinition.contributed) := by
  obtain ⟨visits, seen, h⟩ := exists_explores e scope.roots c f
  have hkeys := nodup_key_append_ending scope h
  refine ⟨visits, fun visits' => ⟨?_, ?_⟩, hkeys, nodup_table? hkeys, fun hnameless => ?_⟩
  · rintro ⟨seen', h'⟩
    exact (h.unique h').1
  · rintro rfl
    exact ⟨seen, h⟩
  · have hvisits := visits_of_explores hpresent h hnameless
    refine ⟨hvisits, ?_⟩
    have hdefinitions : (visibleKeywords e scope .all c f).1 =
        ((ImportWalk.visits e scope c f).1.flatMap KeywordDefinition.ofVisit).filter fun _ => true := rfl
    rw [hdefinitions, List.filter_true, hvisits]
    exact List.flatMap_congr fun v _ => KeywordDefinition.ofVisit_eq v

private def cyclicText : Text := "*** Settings ***\nResource  r\nLibrary  string".toList

private def importedBackText : Text :=
  "*** Settings ***\nResource  m\nLibrary  String\n*** Keywords ***\nOne".toList

private def resourceInside (directory : Text) : Environment :=
  ⟨⟨[([], .directory), ([Text.encode ['w']], .directory),
    ([Text.encode ['w'], Text.encode directory], .directory),
    ([Text.encode ['w'], Text.encode directory, Text.encode ['r']],
      .file (Text.encode importedBackText) 1)]⟩, []⟩

private def loadedInside (directory : Text) : SourceCache :=
  ((SourceCache.empty.update ⟨"/w/m".toList⟩ cyclicText).load (resourceInside directory).disk
    ⟨"/w/".toList ++ directory ++ "/r".toList⟩).1

/-- A file and the resource that it imports import each other, and the same library. -/
theorem visibleKeywords_of_search_cycle :
    let e := resourceInside "sub".toList
    let scope : ImportScope := ⟨[⟨Text.encode "/w/sub".toList⟩, ⟨Text.encode "/w".toList⟩], true⟩
    let c := loadedInside "sub".toList
    c.IsPresent e.disk ∧
      (ImportWalk.visits e scope c ⟨"/w/m".toList⟩).1.map Visit.key =
        [.file ⟨"/w/m".toList⟩, .file ⟨"/w/sub/r".toList⟩, .library "string".toList,
          .library "builtin".toList] ∧
      (visibleKeywords e scope .all c ⟨"/w/m".toList⟩).1 =
        (ImportWalk.visits e scope c ⟨"/w/m".toList⟩).1.flatMap KeywordDefinition.contributed := by
  intro e scope c
  let m : FileId := ⟨"/w/m".toList⟩
  let r : FileId := ⟨"/w/sub/r".toList⟩
  let seen : List ImportTarget := [.library (Text.lowercase "String".toList), .file r, .file m]
  have hfacts : c.IsPresent e.disk ∧ c.source? e.disk m = some (Source.ofText cyclicText) ∧
      c.source? e.disk r = some (Source.ofText importedBackText) ∧
      targets e scope.roots c m (Source.ofText cyclicText) = [.file r, .library "string".toList] ∧
      targets e scope.roots c r (Source.ofText importedBackText) =
        [.file m, .library "String".toList] := by
    decide +kernel
  obtain ⟨hpresent, hm, hr, htargets, htargets'⟩ := hfacts
  have hresource : Explores e scope.roots c [.file r, .file m] [.file m, .library "String".toList]
      [.library "String".toList] seen :=
    .seen (by decide +kernel) (.library (by decide +kernel) .done)
  rw [← htargets'] at hresource
  have hmain : Explores e scope.roots c [.file m] [.file r, .library "string".toList]
      (.file r (Source.ofText importedBackText) :: ([.library "String".toList] ++ [])) seen :=
    .file (by decide +kernel) hr hresource (.seen (by decide +kernel) .done)
  rw [← htargets] at hmain
  have hsearch := Explores.file (by decide +kernel) hm hmain .done
  obtain ⟨visits, hunique, -, -, hwalk⟩ := visibleKeywords_of_search e scope c m hpresent
  obtain rfl := (hunique _).1 ⟨seen, hsearch⟩
  obtain ⟨hvisits, hdefinitions⟩ := hwalk (by decide +kernel)
  rw [hvisits]
  exact ⟨hpresent, by decide +kernel, hdefinitions⟩

/-- The directory with the single byte `FF` is shown as the directory `\uFFFD` is. The search finds no
resource in the former, but the walk takes the snapshot of the one in the latter for it. -/
theorem visits_ne_search_of_shown_alike :
    let e := resourceInside ['\uFFFD']
    let scope : ImportScope := ⟨[⟨Text.encode "/w".toList⟩, ⟨Text.encode "/w/".toList ++ [0xFF]⟩], true⟩
    let c := loadedInside ['\uFFFD']
    c.IsPresent e.disk ∧ ∃ visits, (∃ seen, Explores e scope.roots c [] [.file ⟨"/w/m".toList⟩] visits seen) ∧
      (ImportWalk.visits e scope c ⟨"/w/m".toList⟩).1 ≠ visits ++ ending scope visits := by
  intro e scope c
  let m : FileId := ⟨"/w/m".toList⟩
  have hfacts : c.IsPresent e.disk ∧ c.source? e.disk m = some (Source.ofText cyclicText) ∧
      targets e scope.roots c m (Source.ofText cyclicText) = [.library "string".toList] := by
    decide +kernel
  obtain ⟨hpresent, hm, htargets⟩ := hfacts
  have hmain : Explores e scope.roots c [.file m] [.library "string".toList] [.library "string".toList]
      [.library (Text.lowercase "string".toList), .file m] :=
    .library (by decide +kernel) .done
  rw [← htargets] at hmain
  exact ⟨hpresent, _, ⟨_, .file (by decide +kernel) hm hmain .done⟩, by decide +kernel⟩

end KeywordCompletion
