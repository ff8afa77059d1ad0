import KeywordCompletion.Proofs.Completion.Stages
import KeywordCompletion.Proofs.Text.Lowercase

/-!
# Typing a part of a name

A filter compares lower-case forms of the whole typed text and of the whole name. So a part of a name finds the
name if it keeps its form where it stands, and then a longer text finds no more than its start does:
`accepts_ofTyped`. A sigma that ends the typed text and not the word breaks it: `not_accepts_ofTyped_sigma`.
-/

namespace KeywordCompletion

lemma Text.contains_iff {part t : Text} : contains part t = true ↔ part <:+: t := by
  induction t with
  | nil => simp [contains]
  | cons c t ih => rw [contains, Bool.or_eq_true, ih, List.isPrefixOf_iff_prefix, List.infix_cons_iff]

open Text

namespace KeywordFilter

variable {typed name part after : Text}

lemma accepts_leading_iff :
    (ofTyped .leading typed).accepts name = true ↔ lowercase typed <+: lowercase name :=
  List.isPrefixOf_iff_prefix

lemma accepts_anywhere_iff :
    (ofTyped .anywhere typed).accepts name = true ↔ lowercase typed <:+: lowercase name :=
  Text.contains_iff

/-- What a text finds, its start finds too, if the start keeps its form before the rest. -/
lemma accepts_of_accepts_append (mode : MatchMode) (h : KeepsForm [] part after)
    (hname : (ofTyped mode (part ++ after)).accepts name = true) : (ofTyped mode part).accepts name = true := by
  have hstart := (lowercase_prefix_append_iff part after).2 h
  cases mode with
  | leading => exact accepts_leading_iff.2 (hstart.trans (accepts_leading_iff.1 hname))
  | anywhere => exact accepts_anywhere_iff.2 (hstart.isInfix.trans (accepts_anywhere_iff.1 hname))

end KeywordFilter

namespace Completion

open KeywordFilter

variable {mode : MatchMode} {row : Row} {region : KeywordRegion} {cursor : Nat} {keyword : Cell}
  {full typed : KeywordFilter}

lemma typedPart_prefix (t : Text) (n : Nat) : typedPart t n <+: t := by
  induction t generalizing n with
  | nil => exact List.prefix_rfl
  | cons c t ih =>
    rw [typedPart]
    split
    · exact (List.prefix_cons_inj c).2 (ih _)
    · exact List.nil_prefix

lemma fullInput_mem_plan (hcell : row.cell? 1 = some keyword)
    (h : (CompletionStage.fullInput, full) ∈ plan mode row region cursor) :
    full = .ofTyped mode keyword.value := by
  rw [plan_of_cell? hcell] at h
  simpa using h

lemma typedSoFar_mem_plan (hcell : row.cell? 1 = some keyword)
    (h : (CompletionStage.typedSoFar, typed) ∈ plan mode row region cursor) :
    typed = .ofTyped mode (typedBefore row keyword cursor) := by
  rw [plan_of_cell? hcell] at h
  simp only [List.mem_cons, List.mem_append, List.mem_ite_nil_right, Prod.mk.injEq, reduceCtorEq, false_and,
    false_or, true_and, List.not_mem_nil, or_false] at h
  exact h.2

/-- Typed text finds a name that starts with it exactly if it keeps its form before the rest of the name, and
a name that holds it if it keeps its form there. A longer text finds no more names than its start exactly if
the start keeps its form before the rest. So the search for the keyword before the cursor finds all that the
search for the whole keyword finds, if what is before the cursor keeps its form. -/
theorem accepts_ofTyped (before part after : Text) :
    ((ofTyped .leading part).accepts (part ++ after) = true ↔ KeepsForm [] part after) ∧
    (KeepsForm before part after → (ofTyped .anywhere part).accepts (before ++ (part ++ after)) = true) ∧
    ((∀ name, (ofTyped .leading (part ++ after)).accepts name = true →
      (ofTyped .leading part).accepts name = true) ↔ KeepsForm [] part after) ∧
    (KeepsForm before part after → ∀ name, (ofTyped .anywhere (before ++ (part ++ after))).accepts name = true →
      (ofTyped .anywhere part).accepts name = true) ∧
    ∀ (mode : MatchMode) (row : Row) (region : KeywordRegion) (cursor : Nat) (keyword : Cell),
      row.cell? 1 = some keyword → ∃ rest, keyword.value = typedBefore row keyword cursor ++ rest ∧
        (KeepsForm [] (typedBefore row keyword cursor) rest → ∀ full typed,
          (.fullInput, full) ∈ plan mode row region cursor → (.typedSoFar, typed) ∈ plan mode row region cursor →
          ∀ keywords : List KeywordDefinition, (keywords.filter fun k => full.accepts k.name).Sublist
            (keywords.filter fun k => typed.accepts k.name)) := by
  have hleading : (ofTyped .leading part).accepts (part ++ after) = true ↔ KeepsForm [] part after :=
    accepts_leading_iff.trans (lowercase_prefix_append_iff part after)
  refine ⟨hleading, fun h => accepts_anywhere_iff.2 h.lowercase_infix, ⟨fun h => ?_, fun h name => ?_⟩,
    fun h name hname => ?_, fun mode row region cursor keyword hcell => ?_⟩
  · exact hleading.1 (h (part ++ after) (accepts_leading_iff.2 List.prefix_rfl))
  · exact accepts_of_accepts_append .leading h
  · exact accepts_anywhere_iff.2 (h.lowercase_infix.trans (accepts_anywhere_iff.1 hname))
  · obtain ⟨rest, hrest⟩ := typedPart_prefix keyword.value (cursor - (keyword.start - row.start))
    refine ⟨rest, hrest.symm, fun h full typed hfull htyped keywords => ?_⟩
    obtain rfl := fullInput_mem_plan hcell hfull
    obtain rfl := typedSoFar_mem_plan hcell htyped
    apply List.monotone_filter_right
    intro k hk
    rw [← hrest] at hk
    exact accepts_of_accepts_append mode h hk

/-- The typed text ends in a sigma, and so does the word that it is in the name. -/
theorem accepts_ofTyped_word :
    let before := "ΣΩ ".toList
    let part := "ΟΔΟΣ".toList
    let after := " ΣΑ".toList
    let row : Row := ⟨19, 16, [⟨['T'], 19, 20⟩, ⟨part ++ after, 22, 35⟩], none, .testCaseBegin⟩
    let region : KeywordRegion := ⟨3, 16, 3⟩
    EndsInSigma part ∧ KeepsForm before part after ∧ row ∈ Row.parse "*** Test Cases ***\nT  ΟΔΟΣ ΣΑ".toList ∧
      (ofTyped .anywhere part).accepts (before ++ (part ++ after)) = true ∧
      (∀ name, (ofTyped .anywhere (before ++ (part ++ after))).accepts name = true →
        (ofTyped .anywhere part).accepts name = true) ∧
      (.typedSoFar, .ofTyped .leading part) ∈ plan .leading row region 11 ∧
      ∀ keywords : List KeywordDefinition,
        (keywords.filter fun k => (ofTyped .leading (part ++ after)).accepts k.name).Sublist
          (keywords.filter fun k => (ofTyped .leading part).accepts k.name) := by
  intro before part after row region
  have hends : EndsInSigma part := by decide +kernel
  have hkeeps : KeepsForm before part after := by decide +kernel
  have hkeeps' : KeepsForm [] part after := by decide +kernel
  have hrow : row ∈ Row.parse "*** Test Cases ***\nT  ΟΔΟΣ ΣΑ".toList := by decide +kernel
  have htyped : (.typedSoFar, .ofTyped .leading part) ∈ plan .leading row region 11 := by decide +kernel
  have hfull : (.fullInput, .ofTyped .leading (part ++ after)) ∈ plan .leading row region 11 := by
    decide +kernel
  have hbefore : typedBefore row ⟨part ++ after, 22, 35⟩ 11 = part := by decide +kernel
  obtain ⟨-, hholds, -, hwhole, hplan⟩ := accepts_ofTyped before part after
  obtain ⟨rest, hrest, hwiden⟩ := hplan .leading row region 11 ⟨part ++ after, 22, 35⟩ rfl
  rw [hbefore] at hrest hwiden
  obtain rfl := List.append_cancel_left hrest
  exact ⟨hends, hkeeps, hrow, hholds hkeeps, hwhole hkeeps, htyped, hwiden hkeeps' _ _ hfull htyped⟩

/-- Two starts of a name, of which only the longer one finds it: the shorter one ends in a sigma that ends no
word in the name. And a letter of a name that does not find it. -/
theorem not_accepts_ofTyped_sigma :
    (ofTyped .leading "ΟΔΟΣ".toList).accepts "ΟΔΟΣΗΜΑ".toList = false ∧
      (ofTyped .leading "ΟΔΟΣΗ".toList).accepts "ΟΔΟΣΗΜΑ".toList = true ∧
      (ofTyped .anywhere "Σ".toList).accepts "ΟΔΟΣ".toList = false := by decide +kernel

end Completion

end KeywordCompletion
