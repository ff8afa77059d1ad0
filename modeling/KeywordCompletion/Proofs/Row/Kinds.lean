import Mathlib.Tactic.Common
import KeywordCompletion.Row.Kind

/-!
# What the kind of a row depends on

The kind of a row depends on what stands in its cells and its comment. A row that calls a keyword stays
one of its kind when another keyword stands in it, whatever follows the keyword.
-/

namespace KeywordCompletion

namespace RowKind

lemma map_value_find?_not_isEmpty (cells : List Cell) :
    (cells.find? fun c => !c.isEmpty).map Cell.value = (cells.map Cell.value).find? (!·.isEmpty) := by
  rw [List.find?_map]
  rfl

lemma classify_congr {table : Option Table} {cells cells' : List Cell} {remark remark' : Option Cell}
    (hcells : cells'.map Cell.value = cells.map Cell.value)
    (hremark : remark'.map Cell.value = remark.map Cell.value) :
    classify table cells' remark' = classify table cells remark := by
  have hsome : remark'.isSome = remark.isSome := by
    have h := congrArg Option.isSome hremark
    simpa using h
  have hcontent : (cells'.find? fun c => !c.isEmpty).map Cell.value =
      (cells.find? fun c => !c.isEmpty).map Cell.value := by
    rw [map_value_find?_not_isEmpty, map_value_find?_not_isEmpty, hcells]
  have hnone : (cells'.find? fun c => !c.isEmpty).isNone = (cells.find? fun c => !c.isEmpty).isNone := by
    have h := congrArg Option.isNone hcontent
    simpa using h
  have hdots : ((cells'.find? fun c => !c.isEmpty).any fun c => c.value == ['.', '.', '.']) =
      (cells.find? fun c => !c.isEmpty).any fun c => c.value == ['.', '.', '.'] := by
    have h := congrArg (Option.any (· == ['.', '.', '.'])) hcontent
    simpa [Option.any_map, Function.comp_def] using h
  cases cells with
  | nil =>
    obtain rfl : cells' = [] := by simpa using hcells
    rw [classify, classify, hsome]
  | cons first cells =>
    cases cells' with
    | nil => simp at hcells
    | cons first' cells' =>
      have hfirst : first'.value = first.value := by
        rw [List.map_cons, List.map_cons] at hcells
        exact (List.cons.inj hcells).1
      have hheader : headerText (first' :: cells') = headerText (first :: cells) := by
        rw [headerText, headerText, hcells]
      have hempty : first'.isEmpty = first.isEmpty := by rw [Cell.isEmpty, Cell.isEmpty, hfirst]
      simp only [classify, hfirst, hheader, hnone, hsome, hdots, hempty]

variable {table : Option Table} {first keyword : Cell} {cells cells' : List Cell}
  {remark remark' : Option Cell}

/-- What it takes for a row to call a keyword. -/
structure Calls (table : Option Table) (first : Cell) (cells : List Cell) (remark : Option Cell)
    (current : Table) : Prop where
  open_eq : table = some current
  isSteps : current = .testCases ∨ current = .keywords
  star : first.value.head? ≠ some '*'
  dots : first.value ≠ ['.', '.', '.']
  kind : classify table (first :: cells) remark = (ofTable (!first.isEmpty) current, some current)

lemma classify_of_steps {current : Table} (hsteps : current = .testCases ∨ current = .keywords)
    (hstar : first.value.head? ≠ some '*') {content : Cell}
    (hcontent : (first :: cells).find? (fun c => !c.isEmpty) = some content)
    (hdots : content.value ≠ ['.', '.', '.']) :
    classify (some current) (first :: cells) remark = (ofTable (!first.isEmpty) current, some current) := by
  have hopen : ¬ (current = .comments ∨ current = .unknown) := by
    rcases hsteps with rfl | rfl <;> simp
  have hany : ((some content).any fun c => c.value == ['.', '.', '.']) = false := by simpa using hdots
  simp only [classify, if_neg hstar, hcontent, hany, if_neg hopen]
  simp

lemma find?_of_not_isEmpty (h : first.isEmpty = false) :
    (first :: cells).find? (fun c => !c.isEmpty) = some first := by
  simp [h]

lemma isSteps_of_isKeywordCall {named : Bool} {current : Table}
    (h : (ofTable named current).isKeywordCall = true) : current = .testCases ∨ current = .keywords := by
  cases current <;> simp_all [ofTable, isKeywordCall]

lemma exists_calls (h : (classify table (first :: cells) remark).1.isKeywordCall = true) :
    ∃ current, Calls table first cells remark current := by
  by_cases hstar : first.value.head? = some '*'
  · simp [classify, hstar, isKeywordCall] at h
  rw [classify] at h
  simp only [if_neg hstar] at h
  split at h
  · simp [isKeywordCall] at h
  rename_i hblank
  cases table with
  | none => simp [isKeywordCall] at h
  | some current =>
    simp only at h
    split at h
    · simp [isKeywordCall] at h
    rename_i hopen
    split at h
    · simp [isKeywordCall] at h
    rename_i hdots
    refine ⟨current, rfl, isSteps_of_isKeywordCall h, hstar, ?_, ?_⟩
    · intro hfirst
      have hempty : first.isEmpty = false := by simp [Cell.isEmpty, hfirst]
      rw [find?_of_not_isEmpty hempty] at hdots
      simp [hfirst] at hdots
    · simp only [classify, if_neg hstar, if_neg hblank, if_neg hopen, if_neg hdots]

/-- A row that calls a keyword stays what it is when another keyword stands in it, and leaves the same
table open. -/
theorem classify_of_keyword (h : (classify table (first :: cells) remark).1.isKeywordCall = true)
    (hne : keyword.value ≠ []) (hdots : keyword.value ≠ ['.', '.', '.']) :
    classify table (first :: keyword :: cells') remark' = classify table (first :: cells) remark := by
  obtain ⟨current, hcalls⟩ := exists_calls h
  obtain rfl := hcalls.open_eq
  rw [hcalls.kind]
  by_cases hempty : first.isEmpty = true
  · refine classify_of_steps hcalls.isSteps hcalls.star ?_ hdots
    have hkeyword : keyword.isEmpty = false := by simp [Cell.isEmpty, hne]
    simp [hempty, hkeyword]
  · rw [Bool.not_eq_true] at hempty
    exact classify_of_steps hcalls.isSteps hcalls.star (find?_of_not_isEmpty hempty) hcalls.dots

end RowKind

end KeywordCompletion
