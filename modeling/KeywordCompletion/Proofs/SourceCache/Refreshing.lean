import KeywordCompletion.Proofs.SourceCache.Loading

/-!
# What loads leave as it is

Loads refresh a cache: they read files, and forget snapshots of files that are gone. `Refreshes` lists
what no number of loads changes while the disk stays the same. Above all a cache gives the same source
for a file before and after them.
-/

namespace KeywordCompletion

namespace SourceCache

/-- The source that a load of a file gives, if it gives one. -/
def source? (c : SourceCache) (d : Disk) (f : FileId) : Option Source := (c.load d f).2.toOption

variable {c fresh : SourceCache} {d : Disk} {f g : FileId}

lemma load_eq_ok_iff_source? {source : Source} :
    (c.load d f).2 = .ok source ↔ c.source? d f = some source := by
  unfold source?
  cases (c.load d f).2 <;> simp [Except.toOption]

lemma load_answer_congr (hl : c.lookup? f = fresh.lookup? f) (hlimit : c.limit = fresh.limit) :
    (c.load d f).2 = (fresh.load d f).2 := by
  unfold load commit
  rw [hl, hlimit]
  cases hp : loadPlan (fresh.lookup? f) fresh.limit d f with
  | answer _ | refuse _ | forget _ => rfl
  | read path stamp =>
    dsimp only
    cases d.readText path with
    | error reason => rfl
    | ok t =>
      dsimp only
      split <;> rfl

lemma source?_of_buffer? {source : Source} (h : c.buffer? f = some source) :
    c.source? d f = some source := by
  simp [source?, load, buffer?_eq_some_iff.1 h, loadPlan, Except.toOption]

lemma source?_eq_none_of_fileOn? (hb : c.buffer? f = none) (hf : f.fileOn? d = none) :
    c.source? d f = none := by
  unfold source?
  have hl := loading_load c d f
  generalize (c.load d f).1 = after, (c.load d f).2 = answer at hl
  cases hl with
  | buffer h =>
    rw [hb] at h
    cases h
  | unnamed _ _ | missing _ _ | tooLarge _ _ _ _ | broken _ _ _ _ _ => rfl
  | cached h _ | read _ h _ _ _ =>
    rw [hf] at h
    cases h

/-- A file of which the cache has no current snapshot is not given when it is above the limit. -/
lemma source?_eq_none_of_tooLarge {content : Bytes} {modified : Int} (hnone : c.lookup? f = none)
    (hf : f.fileOn? d = some (content, modified)) (hlimit : c.limit < content.length) :
    c.source? d f = none := by
  unfold source?
  have hl := loading_load c d f
  generalize (c.load d f).1 = after, (c.load d f).2 = answer at hl
  cases hl with
  | buffer h => simp [buffer?, hnone] at h
  | unnamed _ _ | missing _ _ | tooLarge _ _ _ _ | broken _ _ _ _ _ => rfl
  | cached _ hs =>
    rw [hnone] at hs
    cases hs
  | read _ h _ hle _ =>
    rw [hf, Option.some.injEq, Prod.mk.injEq] at h
    obtain ⟨rfl, rfl⟩ := h
    omega

lemma source?_of_current {content : Bytes} {modified : Int} {source : Source}
    (hf : f.fileOn? d = some (content, modified))
    (hs : c.lookup? f = some ⟨source, some (Disk.stampOf content modified)⟩) :
    c.source? d f = some source := by
  have hl := loading_load c d f
  have hb : c.buffer? f = none := by simp [buffer?, hs]
  unfold source?
  generalize (c.load d f).1 = after, (c.load d f).2 = answer at hl
  cases hl with
  | buffer h =>
    rw [hb] at h
    cases h
  | unnamed _ hp => simp [FileId.fileOn?, hp] at hf
  | missing _ h =>
    rw [hf] at h
    cases h
  | cached h hother =>
    rw [hf, Option.some.injEq, Prod.mk.injEq] at h
    obtain ⟨rfl, rfl⟩ := h
    rw [hs, Option.some.injEq] at hother
    cases hother
    rfl
  | tooLarge _ h hother _ | broken _ h hother _ _ | read _ h hother _ _ =>
    rw [hf, Option.some.injEq, Prod.mk.injEq] at h
    obtain ⟨rfl, rfl⟩ := h
    exact absurd hs (hother source)

/-- What a cache that differs from another one by loads only has in common with it. -/
structure Refreshes (d : Disk) (c fresh : SourceCache) : Prop where
  limit_eq : fresh.limit = c.limit
  buffer?_eq : ∀ f, fresh.buffer? f = c.buffer? f
  source?_eq : ∀ f, fresh.source? d f = c.source? d f
  /-- A snapshot was there before, or is one of a file that is on disk. -/
  snapshot : ∀ f, fresh.HasSnapshot f → c.HasSnapshot f ∨ (f.fileOn? d).isSome

lemma Refreshes.refl (d : Disk) (c : SourceCache) : Refreshes d c c :=
  ⟨rfl, fun _ => rfl, fun _ => rfl, fun _ h => Or.inl h⟩

lemma Refreshes.trans {fresher : SourceCache} (h : Refreshes d c fresh)
    (h' : Refreshes d fresh fresher) : Refreshes d c fresher := by
  refine ⟨h'.limit_eq.trans h.limit_eq, fun f => (h'.buffer?_eq f).trans (h.buffer?_eq f),
    fun f => (h'.source?_eq f).trans (h.source?_eq f), ?_⟩
  intro f hs
  rcases h'.snapshot f hs with hs | hf
  · exact h.snapshot f hs
  · exact Or.inr hf

lemma refreshes_forget (hsource : (c.forget f).source? d f = c.source? d f) :
    Refreshes d c (c.forget f) := by
  refine ⟨limit_forget c f, buffer?_forget c f, ?_, ?_⟩
  · intro g
    by_cases hgf : g = f
    · rw [hgf, hsource]
    · unfold source?
      rw [load_answer_congr (lookup?_forget_of_ne c hgf) (limit_forget c f)]
  · rintro g ⟨source, stamp, hg⟩
    by_cases hgf : g = f
    · subst hgf
      rw [lookup?_forget_self] at hg
      cases hb : c.buffer? g <;> simp [hb] at hg
    · rw [lookup?_forget_of_ne c hgf] at hg
      exact Or.inl ⟨source, stamp, hg⟩

lemma refreshes_put {content : Bytes} {modified : Int} {source : Source} (hb : c.buffer? f = none)
    (hf : f.fileOn? d = some (content, modified)) (hsource : c.source? d f = some source) :
    Refreshes d c (c.put f ⟨source, some (Disk.stampOf content modified)⟩) := by
  refine ⟨rfl, ?_, ?_, ?_⟩
  · intro g
    by_cases hgf : g = f
    · subst hgf
      rw [hb]
      simp [buffer?]
    · exact buffer?_congr (lookup?_put_of_ne c hgf _)
  · intro g
    by_cases hgf : g = f
    · subst hgf
      rw [hsource]
      exact source?_of_current hf (lookup?_put_self c g _)
    · unfold source?
      rw [load_answer_congr (lookup?_put_of_ne c hgf _) (limit_put c f _)]
  · rintro g ⟨other, stamp, hg⟩
    by_cases hgf : g = f
    · subst hgf
      exact Or.inr (by simp [hf])
    · rw [lookup?_put_of_ne c hgf] at hg
      exact Or.inl ⟨other, stamp, hg⟩

/-- A load leaves as it is what `Refreshes` lists. -/
theorem refreshes_load (c : SourceCache) (d : Disk) (f : FileId) : Refreshes d c (c.load d f).1 := by
  have hl := loading_load c d f
  have hsource : ∀ source, (c.load d f).2 = .ok source → c.source? d f = some source :=
    fun _ => load_eq_ok_iff_source?.1
  have herror : ∀ error, (c.load d f).2 = .error error → c.source? d f = none := by
    intro error he
    simp [source?, he, Except.toOption]
  generalize (c.load d f).1 = after, (c.load d f).2 = answer at hl hsource herror
  cases hl with
  | buffer _ | unnamed _ _ | cached _ _ | broken _ _ _ _ _ => exact Refreshes.refl d c
  | missing hb hf =>
    refine refreshes_forget ?_
    rw [herror _ rfl]
    refine source?_eq_none_of_fileOn? ?_ hf
    rw [buffer?, lookup?_forget_self, hb]
    rfl
  | tooLarge hb hf _ hlimit =>
    refine refreshes_forget ?_
    rw [herror _ rfl]
    refine source?_eq_none_of_tooLarge ?_ hf (by rwa [limit_forget])
    rw [lookup?_forget_self, hb]
    rfl
  | read hb hf _ _ _ => exact refreshes_put hb hf (hsource _ rfl)

/-- A cache that comes from another one by loads. -/
inductive Loads (d : Disk) (c : SourceCache) : SourceCache → Prop
  | refl : Loads d c c
  | load {after : SourceCache} (h : Loads d c after) (f : FileId) : Loads d c (after.load d f).1

lemma Loads.trans {after last : SourceCache} (h : Loads d c after) (h' : Loads d after last) :
    Loads d c last := by
  induction h' with
  | refl => exact h
  | load _ f ih => exact ih.load f

lemma Loads.refreshes (h : Loads d c fresh) : Refreshes d c fresh := by
  induction h with
  | refl => exact Refreshes.refl d c
  | load _ f ih => exact ih.trans (refreshes_load _ d f)

end SourceCache

end KeywordCompletion
