import KeywordCompletion.Completion.Item
import KeywordCompletion.Proofs.Import.Repetition

/-!
# Completion and the cache

Every search of a completion walks the imports once, and the searches share one cache. Completion in a
file whose text the cache has changes the cache by loads only, and from caches that differ by loads
only it gives the same items: `items_of_refreshes`.
-/

namespace KeywordCompletion.Completion

open SourceCache

variable {ctx : CompletionContext} {f : FileId} {c base fresh : SourceCache}

/-- Searches from related states that find the same settle on the same outcome. -/
lemma searchInTurn_related {σ τ : Type} {Related : σ → τ → Prop}
    {search : KeywordFilter → σ → List Proposal × σ} {search' : KeywordFilter → τ → List Proposal × τ}
    {isEnough : List Proposal → Bool}
    (hsearch : ∀ filter s s', Related s s' →
      (search' filter s').1 = (search filter s).1 ∧ Related (search filter s).2 (search' filter s').2)
    (plan : List (CompletionStage × KeywordFilter)) {s : σ} {s' : τ} (h : Related s s') :
    (searchInTurn search' isEnough plan s').1 = (searchInTurn search isEnough plan s).1 ∧
      Related (searchInTurn search isEnough plan s).2 (searchInTurn search' isEnough plan s').2 := by
  induction plan generalizing s s' with
  | nil => exact ⟨rfl, h⟩
  | cons entry more ih =>
    obtain ⟨stage, filter⟩ := entry
    obtain ⟨hproposals, hrelated⟩ := hsearch filter s s' h
    obtain ⟨houtcome, hlast⟩ := ih hrelated
    simp only [searchInTurn, hproposals]
    split
    · exact ⟨rfl, hrelated⟩
    · exact ⟨by rw [houtcome], hlast⟩

lemma loads_search (ctx : CompletionContext) (f : FileId) (replaced : Span) (filter : KeywordFilter)
    (c : SourceCache) : Loads ctx.environment.disk c (search ctx f replaced filter c).2 :=
  ImportWalk.loads_visits ctx.environment ctx.scope c f

lemma search_of_visits {replaced : Span} {filter : KeywordFilter}
    (h : (ImportWalk.visits ctx.environment ctx.scope fresh f).1 =
      (ImportWalk.visits ctx.environment ctx.scope c f).1) :
    (search ctx f replaced filter fresh).1 = (search ctx f replaced filter c).1 := by
  simp only [search, visibleKeywords, h]

lemma loads_searchInTurn (replaced : Span) (isEnough : List Proposal → Bool)
    (plan : List (CompletionStage × KeywordFilter)) (c : SourceCache) :
    Loads ctx.environment.disk c (searchInTurn (search ctx f replaced) isEnough plan c).2 := by
  induction plan generalizing c with
  | nil => exact .refl
  | cons entry more ih =>
    obtain ⟨stage, filter⟩ := entry
    have hfirst := loads_search ctx f replaced filter c
    simp only [searchInTurn]
    split
    · exact hfirst
    · exact hfirst.trans (ih _)

lemma loads_complete (ctx : CompletionContext) (f : FileId) {α : Type} [LineView α] (view : α)
    (parsed : Source) (offset : Nat) (c : SourceCache) :
    Loads ctx.environment.disk c (complete ctx f view parsed offset c).2 := by
  unfold complete completeRow
  split
  · exact .refl
  · dsimp only
    split
    · exact .refl
    · exact loads_searchInTurn _ _ _ c

lemma complete_of_refreshes {α : Type} [LineView α] (view : α) (parsed : Source) (offset : Nat)
    (h : Refreshes ctx.environment.disk base c) (h' : Refreshes ctx.environment.disk base fresh)
    (hvacant : ∀ v ∈ (ImportWalk.visits ctx.environment ctx.scope base f).1,
      v.PassesOver (ImportWalk.IsVacant ctx.environment base) ctx.environment ctx.scope.roots base) :
    (complete ctx f view parsed offset fresh).1 = (complete ctx f view parsed offset c).1 := by
  have hsearch : ∀ replaced filter s s',
      (Refreshes ctx.environment.disk base s ∧ Refreshes ctx.environment.disk base s') →
      (search ctx f replaced filter s').1 = (search ctx f replaced filter s).1 ∧
        (Refreshes ctx.environment.disk base (search ctx f replaced filter s).2 ∧
          Refreshes ctx.environment.disk base (search ctx f replaced filter s').2) := by
    rintro replaced filter s s' ⟨hs, hs'⟩
    refine ⟨search_of_visits ?_, hs.trans (loads_search ctx f replaced filter s).refreshes,
      hs'.trans (loads_search ctx f replaced filter s').refreshes⟩
    rw [ImportWalk.visits_of_refreshes ctx.scope f hs hvacant,
      ImportWalk.visits_of_refreshes ctx.scope f hs' hvacant]
  unfold complete completeRow
  cases currentRow view parsed offset with
  | error error => rfl
  | ok found =>
    obtain ⟨t, row⟩ := found
    dsimp only
    cases (KeywordRegion.of? t row).filter (·.contains (offset - row.start)) with
    | none => rfl
    | some region => exact congrArg Except.ok (searchInTurn_related (hsearch _) _ ⟨h, h'⟩).1

lemma snapshot_of_buffer? {t : Text} (h : c.buffer? f = some (Source.ofText t)) :
    snapshot c f t = (Source.ofText t, c) := by
  have hget : c.get? f = some (Source.ofText t) := by simp [get?, buffer?_eq_some_iff.1 h]
  have hkeep : (some (Source.ofText t)).filter (fun source => source.text = t) =
      some (Source.ofText t) := Option.filter_eq_some_iff.2 ⟨rfl, decide_eq_true rfl⟩
  rw [snapshot, hget, hkeep]

/-- A text that is completed becomes a buffer, unless the cache has it already. -/
lemma snapshot_eq_or (c : SourceCache) (f : FileId) (t : Text) :
    (snapshot c f t).2 = c ∨ (snapshot c f t).2 = c.update f t := by
  unfold snapshot
  split
  · exact Or.inl rfl
  · exact Or.inr rfl

/-- Completion loads files after it has looked for the text of its own file. -/
lemma loads_items_snapshot (ctx : CompletionContext) (enabled : Bool) (f : FileId) (d : Document)
    (p : Position) (c : SourceCache) :
    (items ctx enabled f (some d) p c).2 = c ∨
      Loads ctx.environment.disk (snapshot c f d.text).2 (items ctx enabled f (some d) p c).2 := by
  unfold items completeAt
  dsimp only
  split
  · cases LineView.offsetAt? d p with
    | none => exact Or.inl rfl
    | some offset =>
      right
      dsimp only
      generalize snapshot c f d.text = found
      obtain ⟨source, start⟩ := found
      have hl := loads_complete ctx f d source offset start
      dsimp only
      generalize complete ctx f d source offset start = result at hl
      obtain ⟨answer, after⟩ := result
      cases answer <;> exact hl
  · exact Or.inl rfl

/-- Completion in a file whose text the cache has changes the cache by loads only. -/
lemma loads_items (ctx : CompletionContext) (enabled : Bool) {d : Document} (p : Position)
    (h : c.buffer? f = some (Source.ofText d.text)) :
    Loads ctx.environment.disk c (items ctx enabled f (some d) p c).2 := by
  have hitems := loads_items_snapshot ctx enabled f d p c
  rw [snapshot_of_buffer? h] at hitems
  rcases hitems with hsame | hloads
  · rw [hsame]
    exact .refl
  · exact hloads

lemma items_of_text {enabled : Bool} {d d' : Document} (hd : d'.text = d.text) {p : Position} :
    items ctx enabled f (some d') p c = items ctx enabled f (some d) p c := by
  obtain ⟨t, version, lineStarts, hlines⟩ := d
  obtain ⟨t', version', lineStarts', hlines'⟩ := d'
  dsimp only at hd
  subst hd hlines hlines'
  rfl

/-- Completion in an open document depends on its text, and on the cache only as far as loads do not
change it. -/
theorem items_of_refreshes (enabled : Bool) {d d' : Document} (hd : d'.text = d.text) (p : Position)
    (h : Refreshes ctx.environment.disk c fresh) (hb : c.buffer? f = some (Source.ofText d.text))
    (hvacant : ∀ v ∈ (ImportWalk.visits ctx.environment ctx.scope c f).1,
      v.PassesOver (ImportWalk.IsVacant ctx.environment c) ctx.environment ctx.scope.roots c) :
    (items ctx enabled f (some d') p fresh).1 = (items ctx enabled f (some d) p c).1 := by
  have hb' : fresh.buffer? f = some (Source.ofText d.text) := (h.buffer?_eq f).trans hb
  rw [items_of_text hd]
  unfold items completeAt
  dsimp only
  split
  · cases LineView.offsetAt? d p with
    | none => rfl
    | some offset =>
      have hc := complete_of_refreshes d (Source.ofText d.text) offset (Refreshes.refl _ c) h hvacant
      simp only [snapshot_of_buffer? hb, snapshot_of_buffer? hb']
      generalize complete ctx f d (Source.ofText d.text) offset c = result,
        complete ctx f d (Source.ofText d.text) offset fresh = result' at hc
      obtain ⟨answer, after⟩ := result
      obtain ⟨answer', after'⟩ := result'
      obtain rfl : answer' = answer := hc
      cases answer' <;> rfl
  · rfl

end KeywordCompletion.Completion
