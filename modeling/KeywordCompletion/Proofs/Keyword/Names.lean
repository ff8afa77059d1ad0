import KeywordCompletion.Keyword.Visible
import KeywordCompletion.Proofs.Row.Fields
import KeywordCompletion.Proofs.Row.Lines

/-!
# Names of keywords

The name of every keyword that a source or a library defines fills a cell, and it is no mark of a
continuation. So a name that is put into a row is read back as it is.
-/

namespace KeywordCompletion

/-- A text that can be the keyword of a row: it fills a cell on one line and continues nothing. -/
structure IsKeywordName (k : Text) : Prop where
  fillsCell : FillsCell k
  feed : '\n' ∉ k
  dots : k ≠ ['.', '.', '.']

instance : DecidablePred IsKeywordName := fun k =>
  decidable_of_iff (FillsCell k ∧ '\n' ∉ k ∧ k ≠ ['.', '.', '.'])
    ⟨fun ⟨h, hf, hd⟩ => ⟨h, hf, hd⟩, fun ⟨h, hf, hd⟩ => ⟨h, hf, hd⟩⟩

lemma isKeywordName_of_known : ∀ library ∈ Library.known, ∀ k ∈ library.2, IsKeywordName k.toList := by
  decide +kernel

namespace KeywordDefinition

variable {id : FileId} {row : Row} {line : Nat} {t : Text} {definition : KeywordDefinition}

lemma exists_name_of_ofRow? (h : ofRow? id row line = some definition) :
    ∃ name more, row.kind = .keywordBegin ∧ row.cells = name :: more ∧ name.isEmpty = false ∧
      definition.name = name.value := by
  rw [ofRow?] at h
  split at h
  · rename_i hkind
    split at h
    · rename_i name hname
      split at h
      · cases h
      · rename_i hempty
        cases h
        rw [Row.cell?, ← List.head?_eq_getElem?] at hname
        obtain ⟨more, hcells⟩ := List.head?_eq_some_iff.1 hname
        exact ⟨name, more, hkind, hcells, by simpa using hempty, rfl⟩
    · cases h
  · cases h

lemma isKeywordName_of_ofRow? (hrow : row ∈ Row.parse t) (h : ofRow? id row line = some definition) :
    IsKeywordName definition.name := by
  obtain ⟨name, more, hkind, hcells, hempty, hname⟩ := exists_name_of_ofRow? h
  obtain ⟨table, start, raw, hraw, rfl⟩ := Row.exists_read_of_mem_parse hrow
  have hsplit : (splitCells (Row.chomp raw) start).1 = name :: more := hcells
  have hcalls : (RowKind.classify table (name :: more)
      (splitCells (Row.chomp raw) start).2).1 = .keywordBegin := by
    rw [← hsplit]
    exact hkind
  obtain ⟨current, hcalls⟩ := RowKind.exists_calls (by rw [hcalls]; rfl)
  have hne : name.value ≠ [] := by simpa [Cell.isEmpty] using hempty
  obtain ⟨hfills, hmem⟩ := fillsCell_of_first (by rw [hsplit]; rfl) hne
  rw [hname]
  refine ⟨hfills, fun hfeed => ?_, hcalls.dots⟩
  exact Row.not_mem_of_mem_lines hraw (Row.mem_of_mem_chomp (hmem _ hfeed))

lemma isKeywordName_of_ofSource {source : Source} (h : definition ∈ ofSource id source) :
    IsKeywordName definition.name := by
  rw [ofSource, List.mem_filterMap] at h
  obtain ⟨⟨row, line⟩, hmem, hrow⟩ := h
  have hparse : row ∈ Row.parse source.text := by
    rw [← source.rows_eq]
    exact List.fst_mem_of_mem_zipIdx hmem
  exact isKeywordName_of_ofRow? hparse hrow

lemma isKeywordName_of_ofLibrary {library : Text} (h : definition ∈ ofLibrary library) :
    IsKeywordName definition.name := by
  rw [ofLibrary, List.mem_map] at h
  obtain ⟨keyword, hkeyword, rfl⟩ := h
  cases hkeywords : Library.keywords? library with
  | none => simp [hkeywords] at hkeyword
  | some keywords =>
    rw [hkeywords] at hkeyword
    obtain ⟨known, hfind, rfl⟩ := Option.map_eq_some_iff.1 hkeywords
    exact isKeywordName_of_known known (List.mem_of_find?_eq_some hfind) keyword hkeyword

end KeywordDefinition

/-- Every visible keyword can be the keyword of a row. -/
theorem isKeywordName_of_visible {e : Environment} {scope : ImportScope} {filter : KeywordFilter}
    {c : SourceCache} {f : FileId} {definition : KeywordDefinition}
    (h : definition ∈ (visibleKeywords e scope filter c f).1) : IsKeywordName definition.name := by
  have hmem := (List.mem_filter.1 h).1
  obtain ⟨visit, -, hvisit⟩ := List.mem_flatMap.1 hmem
  cases visit with
  | file id source => exact KeywordDefinition.isKeywordName_of_ofSource hvisit
  | library name => exact KeywordDefinition.isKeywordName_of_ofLibrary hvisit

end KeywordCompletion
