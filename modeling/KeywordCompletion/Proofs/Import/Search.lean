import KeywordCompletion.Proofs.Import.Repetition

/-!
# The search along imports

A walk keeps a stack of what is to be visited and a cache that it refreshes. `Explores` is the search that
it stands for: what an import leads to is searched to its end before the next one is, nothing is visited
twice, and files are open or on disk as they were when the search began. Every search ends, in one way only:
`exists_explores`, `Explores.unique`. A walk visits what the search visits, as long as the imports pass over
no candidate that bears the identity of a file: `visits_of_explores`.
-/

namespace KeywordCompletion

open SourceCache ImportWalk

/-- What is seen when a target is: the case of the name of a library does not matter. -/
def ImportTarget.key : ImportTarget → ImportTarget
  | .file f => .file f
  | .library name => .library (Text.lowercase name)

def Visit.target : Visit → ImportTarget
  | .file f _ => .file f
  | .library name => .library name

def Visit.key (v : Visit) : ImportTarget := v.target.key

/-- Whether every snapshot of a cache is one of a file that is on disk. -/
def SourceCache.IsPresent (c : SourceCache) (d : Disk) : Prop :=
  ∀ f, c.HasSnapshot f → (f.fileOn? d).isSome = true

instance (c : SourceCache) (d : Disk) : Decidable (c.IsPresent d) :=
  decidable_of_iff (∀ f ∈ c.entries.entries.map Prod.fst, c.HasSnapshot f → (f.fileOn? d).isSome = true)
    ⟨fun h f hf => h f (Catalog.mem_keys_of_contains (contains_iff.2 (Or.inr hf))) hf,
      fun h f _ hf => h f hf⟩

namespace ImportSearch

/-- What an import of a file leads to: a library, or the first candidate that is open or on disk. -/
def target? (e : Environment) (roots : List Path) (c : SourceCache) (importer : FileId) :
    Import → Option ImportTarget
  | .library name => some (.library name)
  | .resource t =>
    ((Import.candidates e roots (importer.toPath?.getD ⟨[]⟩) t).find? (isOpenOrOnDisk e c)).map
      fun p => .file (FileId.ofPath e.disk p)

def targets (e : Environment) (roots : List Path) (c : SourceCache) (importer : FileId)
    (source : Source) : List ImportTarget :=
  (Import.ofSource source).filterMap (target? e roots c importer)

/-- A search from some targets on: what was seen before it, the targets, the visits, and what has been seen
after it. -/
inductive Explores (e : Environment) (roots : List Path) (c : SourceCache) :
    List ImportTarget → List ImportTarget → List Visit → List ImportTarget → Prop
  | done {seen : List ImportTarget} : Explores e roots c seen [] [] seen
  | seen {seen targets last : List ImportTarget} {t : ImportTarget} {visits : List Visit}
      (ht : t.key ∈ seen) (h : Explores e roots c seen targets visits last) :
      Explores e roots c seen (t :: targets) visits last
  | unloadable {seen targets last : List ImportTarget} {f : FileId} {visits : List Visit}
      (hf : .file f ∉ seen) (hs : c.source? e.disk f = none)
      (h : Explores e roots c (.file f :: seen) targets visits last) :
      Explores e roots c seen (.file f :: targets) visits last
  | file {seen targets inner last : List ImportTarget} {f : FileId} {source : Source}
      {visits visits' : List Visit} (hf : .file f ∉ seen) (hs : c.source? e.disk f = some source)
      (h : Explores e roots c (.file f :: seen) (ImportSearch.targets e roots c f source) visits inner)
      (h' : Explores e roots c inner targets visits' last) :
      Explores e roots c seen (.file f :: targets) (.file f source :: (visits ++ visits')) last
  | library {seen targets last : List ImportTarget} {name : Text} {visits : List Visit}
      (hn : .library (Text.lowercase name) ∉ seen)
      (h : Explores e roots c (.library (Text.lowercase name) :: seen) targets visits last) :
      Explores e roots c seen (.library name :: targets) (.library name :: visits) last

variable {e : Environment} {roots : List Path} {c : SourceCache} {files : List FileId}
  {seen ts last last' : List ImportTarget} {visits visits' : List Visit} {f : FileId}

theorem Explores.unique (h : Explores e roots c seen ts visits last)
    (h' : Explores e roots c seen ts visits' last') : visits' = visits ∧ last' = last := by
  induction h generalizing visits' last' with
  | done =>
    cases h'
    exact ⟨rfl, rfl⟩
  | seen ht h ih =>
    cases h' with
    | seen _ h' => exact ih h'
    | unloadable hf _ _ | file hf _ _ _ | library hf _ => exact absurd ht hf
  | unloadable hf hs h ih =>
    cases h' with
    | seen ht _ => exact absurd ht hf
    | unloadable _ _ h' => exact ih h'
    | file _ hs' _ _ =>
      rw [hs] at hs'
      cases hs'
  | file hf hs h more ih ih' =>
    cases h' with
    | seen ht _ => exact absurd ht hf
    | unloadable _ hs' _ =>
      rw [hs] at hs'
      cases hs'
    | file _ hs' h' more' =>
      rw [hs, Option.some.injEq] at hs'
      subst hs'
      obtain ⟨rfl, rfl⟩ := ih h'
      obtain ⟨rfl, rfl⟩ := ih' more'
      exact ⟨rfl, rfl⟩
  | library hn h ih =>
    cases h' with
    | seen ht _ => exact absurd ht hn
    | library _ h' =>
      obtain ⟨rfl, rfl⟩ := ih h'
      exact ⟨rfl, rfl⟩

/-- How many of some files have not been seen. -/
def left (files : List FileId) (seen : List ImportTarget) : Nat :=
  (files.filter fun f => .file f ∉ seen).length

lemma left_le (files : List FileId) (h : seen ⊆ last) : left files last ≤ left files seen := by
  refine List.Sublist.length_le (List.monotone_filter_right files ?_)
  intro f hf
  simp only [decide_eq_true_eq] at hf ⊢
  exact fun hmem => hf (h hmem)

lemma left_lt (hf : f ∈ files) (hnew : .file f ∉ seen) : left files (.file f :: seen) < left files seen := by
  refine length_filter_lt (fun g hg => ?_) hf (by simpa using hnew) (by simp)
  simp only [List.mem_cons, not_or, decide_eq_true_eq] at hg ⊢
  exact hg.2

lemma Explores.subset (h : Explores e roots c seen ts visits last) : seen ⊆ last := by
  induction h with
  | done => exact List.Subset.refl _
  | seen _ _ ih => exact ih
  | unloadable _ _ _ ih | library _ _ ih => exact fun t ht => ih (List.mem_cons_of_mem _ ht)
  | file _ _ _ _ ih ih' => exact fun t ht => ih' (ih (List.mem_cons_of_mem _ ht))

/-- A search ends, as every file that it goes into leaves one file less to be seen. -/
lemma exists_explores_of_left_lt {n : Nat} (hn : left files seen < n)
    (hfiles : ∀ importer source g, .file g ∈ targets e roots c importer source → g ∈ files)
    (hts : ∀ g, .file g ∈ ts → g ∈ files) :
    ∃ visits last, Explores e roots c seen ts visits last := by
  induction n generalizing seen ts with
  | zero => omega
  | succ n ih =>
    induction ts generalizing seen with
    | nil => exact ⟨[], seen, .done⟩
    | cons t ts ih' =>
      have hmore : ∀ seen', left files seen' < n + 1 → ∃ visits last, Explores e roots c seen' ts visits last :=
        fun seen' hn' => ih' hn' fun g hg => hts g (List.mem_cons_of_mem _ hg)
      by_cases ht : t.key ∈ seen
      · obtain ⟨visits, last, h⟩ := hmore seen hn
        exact ⟨visits, last, .seen ht h⟩
      cases t with
      | library name =>
        have hle := left_le files (List.subset_cons_self (.library (Text.lowercase name)) seen)
        obtain ⟨visits, last, h⟩ := hmore _ (Nat.lt_of_le_of_lt hle hn)
        exact ⟨_, last, .library ht h⟩
      | file f =>
        have hlt : left files (.file f :: seen) < left files seen := left_lt (hts f List.mem_cons_self) ht
        cases hs : c.source? e.disk f with
        | none =>
          obtain ⟨visits, last, h⟩ := hmore (.file f :: seen) (by omega)
          exact ⟨visits, last, .unloadable ht hs h⟩
        | some source =>
          have hbelow : left files (.file f :: seen) < n := by omega
          obtain ⟨visits, inner, h⟩ := ih hbelow (hfiles f source)
          have hinner := left_le files h.subset
          obtain ⟨visits', last, h'⟩ := hmore inner (by omega)
          exact ⟨_, last, .file ht hs h h'⟩

lemma mem_reachable_of_mem_targets {importer g : FileId} {source : Source} (f : FileId)
    (h : .file g ∈ targets e roots c importer source) : g ∈ reachable e c f := by
  obtain ⟨i, -, hi⟩ := List.mem_filterMap.1 h
  cases i with
  | library name => cases hi
  | resource t =>
    obtain ⟨p, hp, hg⟩ := Option.map_eq_some_iff.1 hi
    cases hg
    exact (within_start c f).mem_of_isAvailable
      (isAvailable_of_isOpenOrOnDisk (Refreshes.refl e.disk c) (List.find?_some hp))

/-- Every search from a file ends. -/
theorem exists_explores (e : Environment) (roots : List Path) (c : SourceCache) (f : FileId) :
    ∃ visits last, Explores e roots c [] [.file f] visits last := by
  refine exists_explores_of_left_lt (Nat.lt_succ_self (left (reachable e c f) []))
    (fun importer source g => mem_reachable_of_mem_targets f) ?_
  intro g hg
  obtain rfl : g = f := by simpa using hg
  exact List.mem_cons_self

/-- What is visited was not seen before and is seen from then on. -/
lemma Explores.once (h : Explores e roots c seen ts visits last) :
    (visits.map Visit.key).Nodup ∧ ∀ v ∈ visits, v.key ∉ seen ∧ v.key ∈ last := by
  induction h with
  | done => simp
  | seen _ _ ih => exact ih
  | unloadable _ _ _ ih =>
    exact ⟨ih.1, fun v hv => ⟨fun hmem => (ih.2 v hv).1 (List.mem_cons_of_mem _ hmem), (ih.2 v hv).2⟩⟩
  | @file seen targets inner last f source visits visits' hf hs h h' ih ih' =>
    refine ⟨?_, ?_⟩
    · rw [List.map_cons, List.nodup_cons, List.map_append]
      refine ⟨?_, List.nodup_append.2 ⟨ih.1, ih'.1, ?_⟩⟩
      · intro hmem
        obtain ⟨v, hv, hkey⟩ := List.mem_map.1 (by rwa [← List.map_append] at hmem)
        rcases List.mem_append.1 hv with hv | hv
        · exact (ih.2 v hv).1 (hkey ▸ List.mem_cons_self)
        · exact (ih'.2 v hv).1 (hkey ▸ h.subset List.mem_cons_self)
      · intro key hkey key' hkey' he
        obtain ⟨v, hv, rfl⟩ := List.mem_map.1 hkey
        obtain ⟨v', hv', rfl⟩ := List.mem_map.1 hkey'
        exact (ih'.2 v' hv').1 (he ▸ (ih.2 v hv).2)
    · rw [List.forall_mem_cons]
      refine ⟨⟨hf, h'.subset (h.subset List.mem_cons_self)⟩, fun v hv => ?_⟩
      rcases List.mem_append.1 hv with hv | hv
      · exact ⟨fun hmem => (ih.2 v hv).1 (List.mem_cons_of_mem _ hmem), h'.subset (ih.2 v hv).2⟩
      · exact ⟨fun hmem => (ih'.2 v hv).1 (h.subset (List.mem_cons_of_mem _ hmem)), (ih'.2 v hv).2⟩
  | @library seen targets last name visits hn h ih =>
    refine ⟨?_, ?_⟩
    · rw [List.map_cons, List.nodup_cons]
      refine ⟨fun hmem => ?_, ih.1⟩
      obtain ⟨v, hv, hkey⟩ := List.mem_map.1 hmem
      exact (ih.2 v hv).1 (hkey ▸ List.mem_cons_self)
    · rw [List.forall_mem_cons]
      refine ⟨⟨hn, h.subset List.mem_cons_self⟩, fun v hv => ?_⟩
      exact ⟨fun hmem => (ih.2 v hv).1 (List.mem_cons_of_mem _ hmem), (ih.2 v hv).2⟩

lemma Explores.mem_of_library {name : Text} (h : Explores e roots c seen ts visits last)
    (hmem : .library name ∈ last) : .library name ∈ seen ∨ .library name ∈ visits.map Visit.key := by
  induction h with
  | done => exact Or.inl hmem
  | seen _ _ ih => exact ih hmem
  | unloadable _ _ _ ih => simpa using ih hmem
  | file _ _ _ _ ih ih' =>
    rcases ih' hmem with hmem | hmem
    · rcases ih hmem with hmem | hmem
      · left
        simpa using hmem
      · right
        simp [hmem]
    · right
      simp [hmem]
  | library _ _ ih =>
    rcases ih hmem with hmem | hmem
    · rcases List.mem_cons.1 hmem with hname | hmem
      · right
        rw [List.map_cons, hname]
        exact List.mem_cons_self
      · exact Or.inl hmem
    · exact Or.inr (List.mem_cons_of_mem _ hmem)

/-- A walk that has seen what a search has seen and has these targets left to be visited. -/
structure IsAt (e : Environment) (c : SourceCache) (seen pending : List ImportTarget) (w : ImportWalk) :
    Prop where
  pending_eq : w.pending = pending
  files : ∀ f, f ∈ w.seenFiles ↔ .file f ∈ seen
  libraries : ∀ name, name ∈ w.seenLibraries ↔ .library name ∈ seen
  refreshes : Refreshes e.disk c w.cache

lemma IsAt.load {pending : List ImportTarget} {w : ImportWalk} (h : IsAt e c seen pending w) (f : FileId)
    (next : List ImportTarget) : IsAt e c (.file f :: seen) next
      { w with pending := next, seenFiles := f :: w.seenFiles, cache := (w.cache.load e.disk f).1 } :=
  ⟨rfl, by simp [h.files], by simp [h.libraries], h.refreshes.trans (refreshes_load _ _ f)⟩

lemma runs_of_step {w after w' : ImportWalk} {visit : Option Visit} {t : ImportTarget}
    (hp : w.pending = t :: ts) (hstep : ImportWalk.step e roots w = (visit, after))
    (h : Runs e roots after visits w') : Runs e roots w (visit.toList ++ visits) w' := by
  have hruns : Runs e roots w ((ImportWalk.step e roots w).1.toList ++ visits) w' :=
    .step (by simp [hp]) (by rwa [hstep])
  rwa [hstep] at hruns

lemma targets_eq {fresh : SourceCache} {source : Source} (h : Refreshes e.disk c fresh)
    (hvacant : (Visit.file f source).PassesOver (IsVacant e c) e roots c) :
    ImportWalk.targets e roots fresh f source = targets e roots c f source := by
  refine List.filterMap_congr fun i hi => ?_
  rw [target?_of_passesOver h (hvacant i hi)]
  cases i <;> rfl

/-- From the first targets that are left to be visited a walk visits what a search visits. -/
lemma Explores.runs {pending : List ImportTarget} {w : ImportWalk}
    (h : Explores e roots c seen ts visits last)
    (hvacant : ∀ v ∈ visits, v.PassesOver (IsVacant e c) e roots c)
    (hw : IsAt e c seen (ts ++ pending) w) :
    ∃ w', IsAt e c last pending w' ∧
      ∀ more z, Runs e roots w' more z → Runs e roots w (visits ++ more) z := by
  induction h generalizing w pending with
  | done => exact ⟨w, hw, fun _ _ hr => hr⟩
  | @seen seen targets last t visits ht h ih =>
    have hp : w.pending = t :: (targets ++ pending) := hw.pending_eq
    have hstep : ImportWalk.step e roots w = (none, { w with pending := targets ++ pending }) := by
      cases t with
      | library name =>
        exact step_seenLibrary hp (List.contains_iff_mem.2 ((hw.libraries _).2 ht))
      | file f => exact step_seenFile hp ((hw.files f).2 ht)
    have hafter : IsAt e c seen (targets ++ pending) { w with pending := targets ++ pending } :=
      ⟨rfl, hw.files, hw.libraries, hw.refreshes⟩
    obtain ⟨w', hw', hr⟩ := ih hvacant hafter
    exact ⟨w', hw', fun more z hmore => runs_of_step hp hstep (hr more z hmore)⟩
  | @unloadable seen targets last f visits hf hs h ih =>
    have hp : w.pending = .file f :: (targets ++ pending) := hw.pending_eq
    have hstep : ImportWalk.step e roots w = _ :=
      step_failed hp (mt (hw.files f).1 hf) ((hw.refreshes.source?_eq f).trans hs)
    obtain ⟨w', hw', hr⟩ := ih hvacant (hw.load f (targets ++ pending))
    exact ⟨w', hw', fun more z hmore => runs_of_step hp hstep (hr more z hmore)⟩
  | @file seen targets inner last f source visits visits' hf hs h h' ih ih' =>
    have hp : w.pending = .file f :: (targets ++ pending) := hw.pending_eq
    have hstep : ImportWalk.step e roots w = _ :=
      step_file hp (mt (hw.files f).1 hf) ((hw.refreshes.source?_eq f).trans hs)
    rw [List.forall_mem_cons, List.forall_mem_append] at hvacant
    rw [targets_eq (hw.refreshes.trans (refreshes_load w.cache e.disk f)) hvacant.1] at hstep
    obtain ⟨w₁, hw₁, hr₁⟩ := ih hvacant.2.1 (hw.load f _)
    obtain ⟨w₂, hw₂, hr₂⟩ := ih' hvacant.2.2 hw₁
    refine ⟨w₂, hw₂, fun more z hmore => ?_⟩
    have hrest := runs_of_step hp hstep (hr₁ _ _ (hr₂ more z hmore))
    simpa using hrest
  | @library seen targets last name visits hn h ih =>
    have hp : w.pending = .library name :: (targets ++ pending) := hw.pending_eq
    have hnew : w.seenLibraries.contains (Text.lowercase name) = false := by
      simpa [hw.libraries] using hn
    have hstep : ImportWalk.step e roots w = _ := step_library hp hnew
    have hafter : IsAt e c (.library (Text.lowercase name) :: seen) (targets ++ pending)
        { w with
          pending := targets ++ pending
          seenLibraries := Text.lowercase name :: w.seenLibraries } :=
      ⟨rfl, by simp [hw.files], by simp [hw.libraries], hw.refreshes⟩
    rw [List.forall_mem_cons] at hvacant
    obtain ⟨w', hw', hr⟩ := ih hvacant.2 hafter
    exact ⟨w', hw', fun more z hmore => runs_of_step hp hstep (hr more z hmore)⟩

lemma runs_unique {w w' w'' : ImportWalk} (h : Runs e roots w visits w') (h' : Runs e roots w visits' w'') :
    visits' = visits ∧ w'' = w' := by
  induction h generalizing visits' with
  | finished hp =>
    cases h' with
    | finished _ => exact ⟨rfl, rfl⟩
    | step hne _ => exact absurd hp hne
  | step hne _ ih =>
    cases h' with
    | finished hp => exact absurd hp hne
    | step _ hr =>
      obtain ⟨rfl, rfl⟩ := ih hr
      exact ⟨rfl, rfl⟩

/-- The library that needs no import, unless it was visited. -/
def ending (scope : ImportScope) (visits : List Visit) : List Visit :=
  if scope.implicitBuiltIn = true ∧
      .library (Text.lowercase Library.builtInName.toList) ∉ visits.map Visit.key then
    [.library Library.builtInName.toList]
  else []

lemma builtInVisit_eq {scope : ImportScope} {w : ImportWalk}
    (hseen : Text.lowercase Library.builtInName.toList ∈ w.seenLibraries ↔
      .library (Text.lowercase Library.builtInName.toList) ∈ visits.map Visit.key) :
    builtInVisit w scope.implicitBuiltIn = ending scope visits := by
  by_cases hmem : Text.lowercase Library.builtInName.toList ∈ w.seenLibraries
  · have hvisited := hseen.1 hmem
    simp [builtInVisit, visitLibrary, ending, hmem, hvisited]
  · have hnew := mt hseen.2 hmem
    simp only [builtInVisit, visitLibrary, ending, List.contains_iff_mem, hmem, hnew]
    cases scope.implicitBuiltIn <;> rfl

lemma Explores.mem_library_iff {name : Text} (h : Explores e roots c [] ts visits last) :
    .library name ∈ last ↔ .library name ∈ visits.map Visit.key := by
  constructor
  · intro hmem
    exact (h.mem_of_library hmem).resolve_left List.not_mem_nil
  · intro hmem
    obtain ⟨v, hv, hkey⟩ := List.mem_map.1 hmem
    exact hkey ▸ (h.once.2 v hv).2

lemma nodup_append_ending (scope : ImportScope) (h : (visits.map Visit.key).Nodup) :
    ((visits ++ ending scope visits).map Visit.key).Nodup := by
  rw [ending]
  split
  · rename_i hend
    rw [List.map_append, List.nodup_append]
    refine ⟨h, by simp, ?_⟩
    rintro key hkey key' hkey' rfl
    rw [List.map_singleton, List.mem_singleton] at hkey'
    rw [hkey'] at hkey
    exact hend.2 hkey
  · rw [List.append_nil]
    exact h

lemma nodup_key_append_ending (scope : ImportScope) (h : Explores e roots c [] ts visits last) :
    ((visits ++ ending scope visits).map Visit.key).Nodup :=
  nodup_append_ending scope h.once.1

/-- Where every snapshot is one of a file on disk, what has no file's identity has no snapshot either. -/
lemma passesOver_isVacant {v : Visit} (hpresent : c.IsPresent e.disk)
    (h : v.PassesOver e.disk.IsNameless e roots c) : v.PassesOver (IsVacant e c) e roots c := by
  refine h.imp fun p hp => ⟨fun hsnapshot => ?_, hp⟩
  have hfile := hpresent _ hsnapshot
  rw [Disk.IsNameless] at hp
  rw [hp] at hfile
  cases hfile

/-- A walk visits what the search from its file visits, and then the library that needs no import, if the
imports of the visited files pass over no candidate that bears the identity of a file. -/
theorem visits_of_explores {scope : ImportScope} (hpresent : c.IsPresent e.disk)
    (h : Explores e scope.roots c [] [.file f] visits last)
    (hnameless : ∀ v ∈ visits, v.PassesOver e.disk.IsNameless e scope.roots c) :
    (ImportWalk.visits e scope c f).1 = visits ++ ending scope visits := by
  have hvacant : ∀ v ∈ visits, v.PassesOver (IsVacant e c) e scope.roots c :=
    fun v hv => passesOver_isVacant hpresent (hnameless v hv)
  have hstart : IsAt e c [] ([.file f] ++ []) (start c f) :=
    ⟨rfl, by simp [start], by simp [start], Refreshes.refl _ _⟩
  obtain ⟨w, hw, hruns⟩ := h.runs hvacant hstart
  obtain ⟨visits', w', hr, hvisits⟩ := runs_visits e scope c f
  obtain ⟨rfl, rfl⟩ := runs_unique (hruns [] w (.finished hw.pending_eq)) hr
  rw [hvisits, List.append_nil, builtInVisit_eq ((hw.libraries _).trans h.mem_library_iff)]

end ImportSearch

end KeywordCompletion
