import KeywordCompletion.Proofs.Import.Iteration
import KeywordCompletion.Proofs.Import.Spellings

/-!
# Open files

The buffer of a file that an editor has open stands for the file in every walk. A walk that has the file on its
stack visits it with the text of the buffer (`Runs.mem_visits`), and an import puts it there whose candidates
before the one that leads to the file are known neither to the cache nor to the disk (`resolve?_of_leadsTo`).
So a walk visits the file under one identity, however the imports spell the way to it: `visits_of_buffer`.
-/

namespace KeywordCompletion.ImportWalk

open SourceCache Text

variable {e : Environment} {roots : List Path} {c fresh : SourceCache} {w after last : ImportWalk}
  {visits : List Visit} {visit : Option Visit} {f g importer : FileId} {source other : Source} {loc : Location}
  {t : Text}

/-- Whether neither the cache has an entry for a path nor the path leads to a file. -/
def IsUnknown (e : Environment) (c : SourceCache) (p : Path) : Prop :=
  c.lookup? (FileId.ofPath e.disk p) = none ∧ e.disk.leadsToFile p = false

instance (e : Environment) (c : SourceCache) : DecidablePred (IsUnknown e c) :=
  fun _ => inferInstanceAs (Decidable (_ ∧ _))

/-- Whether the first candidate for an import that is known leads to a location. -/
def LeadsTo (e : Environment) (roots : List Path) (c : SourceCache) (importer : FileId) (t : Text)
    (loc : Location) : Prop :=
  ∃ before p after, Import.candidates e roots (importer.toPath?.getD ⟨[]⟩) t = before ++ p :: after ∧
    (∀ q ∈ before, IsUnknown e c q) ∧ e.disk.locate? p = .ok loc

lemma isAvailable_of_isUnknown (hd : e.disk.IsTextual) (h : Refreshes e.disk c fresh) {p : Path}
    (hnormal : p.IsNormal e.disk) (hp : IsUnknown e c p) : isAvailable e fresh p = false := by
  have hbuffer : c.buffer? (FileId.ofPath e.disk p) = none := by simp [buffer?, hp.1]
  have hfile : e.disk.isFile p = false := by
    rw [Bool.eq_false_iff]
    intro hfile
    have hleads := hp.2
    rw [Disk.leadsToFile_of_isFile hfile] at hleads
    cases hleads
  apply isAvailable_of_isVacant h
  · simp [isOpenOrOnDisk, hbuffer, hfile]
  · refine ⟨?_, Disk.isNameless_of_leadsToFile hd hnormal hp.2⟩
    rintro ⟨source, stamp, hsnapshot⟩
    rw [hp.1] at hsnapshot
    cases hsnapshot

/-- Whatever was loaded, such an import resolves to an open file. -/
theorem resolve?_of_leadsTo (hd : e.disk.IsTextual) (hroots : ∀ root ∈ roots, IsUtf8 root.bytes)
    (h : Refreshes e.disk c fresh) (hb : c.buffer? (FileId.ofLocation loc) = some source)
    (hleads : LeadsTo e roots c importer t loc) :
    resolve? e roots fresh importer t = some (FileId.ofLocation loc) := by
  obtain ⟨before, p, after, hcandidates, hbefore, hp⟩ := hleads
  have hnormal : ∀ q ∈ before ++ p :: after, q.IsNormal e.disk := by
    intro q hq
    rw [← hcandidates] at hq
    exact Import.isNormal_of_mem_candidates hd hroots importer.isUtf8_toPath? hq
  have hnone : before.find? (isAvailable e fresh) = none := by
    rw [List.find?_eq_none]
    intro q hq
    rw [isAvailable_of_isUnknown hd h (hnormal q (List.mem_append_left _ hq)) (hbefore q hq)]
    exact Bool.false_ne_true
  have hid : FileId.ofPath e.disk p = FileId.ofLocation loc := FileId.ofPath_of_locate? hp
  have havailable : isAvailable e fresh p = true := by
    rw [isAvailable, Bool.or_eq_true, SourceCache.contains_iff, hid, h.buffer?_eq, hb]
    exact Or.inl (Or.inl rfl)
  rw [resolve?, hcandidates, List.find?_append, hnone, Option.none_or, List.find?_cons_of_pos havailable,
    Option.map_some, hid]

lemma Stepping.refreshes (hs : Stepping e roots w visit after) : Refreshes e.disk w.cache after.cache := by
  cases hs with
  | library _ _ | seenLibrary _ _ | seenFile _ _ => exact Refreshes.refl _ _
  | failed _ _ _ | file _ _ _ => exact refreshes_load _ _ _

lemma Stepping.source_eq (hs : Stepping e roots w (some (.file f other)) after)
    (hb : w.cache.buffer? f = some source) : other = source := by
  cases hs with
  | file _ _ hs =>
    rw [source?_of_buffer? hb] at hs
    exact (Option.some.inj hs).symm

/-- A step visits an open file that was not seen, or leaves it unseen and on the stack. -/
lemma Stepping.visit_or_kept (hs : Stepping e roots w visit after) (hb : w.cache.buffer? f = some source)
    (hnew : f ∉ w.seenFiles) : visit = some (.file f source) ∨
      f ∉ after.seenFiles ∧ (.file f ∈ w.pending → .file f ∈ after.pending) := by
  have hsource : w.cache.source? e.disk f = some source := source?_of_buffer? hb
  have hrest : ∀ {target pending}, w.pending = target :: pending → target ≠ .file f →
      .file f ∈ w.pending → .file f ∈ pending := by
    intro target pending hp hne hmem
    rw [hp] at hmem
    exact (List.mem_cons.1 hmem).resolve_left (Ne.symm hne)
  cases hs with
  | library hp _ | seenLibrary hp _ => exact Or.inr ⟨hnew, hrest hp nofun⟩
  | seenFile hp hseen =>
    refine Or.inr ⟨hnew, hrest hp ?_⟩
    rintro ⟨⟩
    exact hnew hseen
  | @failed g _ hp _ hs =>
    have hne : g ≠ f := by
      rintro rfl
      rw [hsource] at hs
      cases hs
    exact Or.inr ⟨by simp [hnew, Ne.symm hne], hrest hp (by simpa using hne)⟩
  | @file g pending other hp _ hs =>
    by_cases hgf : g = f
    · subst hgf
      rw [hsource] at hs
      cases hs
      exact Or.inl rfl
    · refine Or.inr ⟨by simp [hnew, Ne.symm hgf], fun hmem => ?_⟩
      exact List.mem_append_right _ (hrest hp (by simpa using hgf) hmem)

lemma Stepping.resolved (hs : Stepping e roots w visit after) (hmem : .file f ∈ after.pending) :
    .file f ∈ w.pending ∨ ∃ importer t, resolve? e roots after.cache importer t = some f := by
  cases hs with
  | library hp _ | seenLibrary hp _ | seenFile hp _ | failed hp _ _ =>
    rw [hp]
    exact Or.inl (List.mem_cons_of_mem _ hmem)
  | @file g pending source hp _ _ =>
    rcases List.mem_append.1 hmem with htarget | hpending
    · obtain ⟨i, -, htarget⟩ := List.mem_filterMap.1 htarget
      cases i with
      | library name => cases htarget
      | resource t =>
        obtain ⟨f, hf, heq⟩ := Option.map_eq_some_iff.1 htarget
        cases heq
        exact Or.inr ⟨g, t, hf⟩
    · rw [hp]
      exact Or.inl (List.mem_cons_of_mem _ hpending)

lemma Stepping.mem_pending_of_file (hs : Stepping e roots w (some (.file f source)) after) :
    .file f ∈ w.pending := by
  cases hs with
  | file hp _ _ => exact hp ▸ List.mem_cons_self

theorem Runs.source_eq (hr : Runs e roots w visits last) (hb : w.cache.buffer? f = some source)
    (h : .file f other ∈ visits) : other = source := by
  induction hr using Runs.stepping_induction with
  | finished => cases h
  | step _ hs _ ih =>
    rcases List.mem_append.1 h with hvisit | hrest
    · rw [Option.mem_toList] at hvisit
      rw [hvisit] at hs
      exact hs.source_eq hb
    · exact ih (by rwa [hs.refreshes.buffer?_eq]) hrest

/-- An open file on the stack is visited, unless it has been seen. -/
theorem Runs.mem_visits (hr : Runs e roots w visits last) (hb : w.cache.buffer? f = some source)
    (hmem : .file f ∈ w.pending) (hnew : f ∉ w.seenFiles) : .file f source ∈ visits := by
  induction hr using Runs.stepping_induction with
  | finished hp =>
    rw [hp] at hmem
    cases hmem
  | step _ hs _ ih =>
    rw [List.mem_append, Option.mem_toList]
    rcases hs.visit_or_kept hb hnew with hvisit | ⟨hnew, hkept⟩
    · exact Or.inl hvisit
    · exact Or.inr (ih (by rwa [hs.refreshes.buffer?_eq]) (hkept hmem) hnew)

/-- An open file that is among the targets of a visited file is visited. -/
theorem Runs.mem_visits_of_targets (hr : Runs e roots w visits last) (hb : w.cache.buffer? f = some source)
    (hnew : f ∉ w.seenFiles) (hg : .file g other ∈ visits)
    (htargets : ∀ fresh, Refreshes e.disk w.cache fresh → .file f ∈ targets e roots fresh g other) :
    .file f source ∈ visits := by
  induction hr using Runs.stepping_induction with
  | finished => cases hg
  | @step w after last visit visits _ hs hrest ih =>
    rw [List.mem_append, Option.mem_toList] at hg ⊢
    rcases hs.visit_or_kept hb hnew with hvisit | ⟨hnew, -⟩
    · exact Or.inl hvisit
    right
    rcases hg with rfl | hg
    · cases hs with
      | file _ _ _ =>
        have hload := refreshes_load w.cache e.disk g
        exact hrest.mem_visits (by rwa [hload.buffer?_eq]) (List.mem_append_left _ (htargets _ hload)) hnew
    · exact ih (by rwa [hs.refreshes.buffer?_eq]) hnew hg fun fresh hfresh =>
        htargets fresh (hs.refreshes.trans hfresh)

/-- A visited file was on the stack at first, or an import resolves to it in the cache of that moment. -/
theorem Runs.resolved (hr : Runs e roots w visits last) (h : .file f source ∈ visits) :
    .file f ∈ w.pending ∨ ∃ fresh importer t, resolve? e roots fresh importer t = some f := by
  induction hr using Runs.stepping_induction with
  | finished => cases h
  | step _ hs _ ih =>
    rcases List.mem_append.1 h with hvisit | hrest
    · rw [Option.mem_toList] at hvisit
      rw [hvisit] at hs
      exact Or.inl hs.mem_pending_of_file
    · rcases ih hrest with hpending | hresolved
      · exact (hs.resolved hpending).imp_right fun ⟨importer, t, hf⟩ => ⟨_, importer, t, hf⟩
      · exact Or.inr hresolved

lemma location?_of_resolve? (hd : e.disk.IsTextual) (hroots : ∀ root ∈ roots, IsUtf8 root.bytes)
    (h : resolve? e roots fresh importer t = some f) (hloc : f.location? e.disk = some loc) :
    f = FileId.ofLocation loc := by
  obtain ⟨p, hp, rfl⟩ := Option.map_eq_some_iff.1 h
  have hnormal := Import.isNormal_of_mem_candidates hd hroots importer.isUtf8_toPath? (List.mem_of_find?_eq_some hp)
  exact FileId.ofPath_of_locate? ((FileId.location?_ofPath_eq_some_iff hd hnormal).1 hloc)

lemma file_notMem_builtInVisit (w : ImportWalk) (implicitBuiltIn : Bool) :
    .file f source ∉ builtInVisit w implicitBuiltIn := by
  unfold builtInVisit visitLibrary
  dsimp only
  split
  · split <;> simp
  · simp

lemma nodup_visits (e : Environment) (scope : ImportScope) (c : SourceCache) (start : FileId) :
    ((ImportWalk.visits e scope c start).1.map Visit.key).Nodup := by
  obtain ⟨walked, last, hr, hvisits⟩ := runs_visits e scope c start
  rw [hvisits, ImportSearch.builtInVisit_eq hr.mem_seenLibraries_iff]
  exact ImportSearch.nodup_append_ending scope hr.records.nodup

/-- A walk visits an open file with the text of its buffer, and under no identity but its own unless the walk
starts with that. It does visit the file if it starts there or if an import of a visited file leads to it. -/
theorem visits_of_buffer (scope : ImportScope) (start : FileId) (hd : e.disk.IsTextual)
    (hroots : ∀ root ∈ scope.roots, IsUtf8 root.bytes)
    (hb : c.buffer? (FileId.ofLocation loc) = some source) :
    let visited := (ImportWalk.visits e scope c start).1
    (∀ other, .file (FileId.ofLocation loc) other ∈ visited → other = source) ∧
    (∀ g other, .file g other ∈ visited → g.location? e.disk = some loc →
      g = start ∨ g = FileId.ofLocation loc) ∧
    (start = FileId.ofLocation loc → .file (FileId.ofLocation loc) source ∈ visited) ∧
    ∀ g other t, .file g other ∈ visited → .resource t ∈ Import.ofSource other →
      LeadsTo e scope.roots c g t loc → .file (FileId.ofLocation loc) source ∈ visited := by
  intro visited
  obtain ⟨walked, last, hr, hvisits⟩ := runs_visits e scope c start
  have hmem : ∀ {g other}, .file g other ∈ visited ↔ .file g other ∈ walked := by
    intro g other
    simp only [visited, hvisits, List.mem_append, file_notMem_builtInVisit, or_false]
  simp only [hmem]
  refine ⟨fun other h => hr.source_eq hb h, ?_, ?_, ?_⟩
  · intro g other h hloc
    rcases hr.resolved h with hstart | ⟨fresh, importer, t, hresolve⟩
    · left
      simpa [ImportWalk.start] using hstart
    · exact Or.inr (location?_of_resolve? hd hroots hresolve hloc)
  · intro hstart
    exact hr.mem_visits hb (by simp [ImportWalk.start, hstart]) List.not_mem_nil
  · intro g other t h himport hleads
    apply hr.mem_visits_of_targets hb List.not_mem_nil h
    intro fresh hfresh
    rw [targets, List.mem_filterMap]
    exact ⟨.resource t, himport, by rw [target?, resolve?_of_leadsTo hd hroots hfresh hb hleads]; rfl⟩

end KeywordCompletion.ImportWalk
