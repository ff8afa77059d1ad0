import Mathlib.Data.List.Basic
import Mathlib.Data.List.TakeWhile
import KeywordCompletion.Proofs.Import.Runs

/-!
# Walks that are repeated

A walk refreshes the cache through which it loads files, and the next walk resolves imports in the
refreshed cache. That makes no difference as long as every candidate that an import passes over is
vacant: it has no snapshot, and does not bear the identity of a file. Then walks from caches that differ
by loads only visit the same: `visits_of_refreshes`. The snapshot of a file that is gone makes a
difference: `visits_visits_ne_of_deleted`.
-/

namespace KeywordCompletion

lemma find?_eq_find?_of_takeWhile {α : Type} {p q : α → Bool} {l : List α}
    (hbefore : ∀ x ∈ l.takeWhile fun x => !q x, p x = false) (hq : ∀ x, q x = true → p x = true) :
    l.find? p = l.find? q := by
  induction l with
  | nil => rfl
  | cons x l ih =>
    cases hx : q x with
    | true => rw [List.find?_cons_of_pos (hq x hx), List.find?_cons_of_pos hx]
    | false =>
      have htake : (x :: l).takeWhile (fun x => !q x) = x :: l.takeWhile fun x => !q x := by
        simp [hx]
      rw [htake] at hbefore
      have hpx := hbefore x List.mem_cons_self
      rw [List.find?_cons_of_neg (by simp [hpx]), List.find?_cons_of_neg (by simp [hx])]
      exact ih fun y hy => hbefore y (List.mem_cons_of_mem _ hy)

instance (c : SourceCache) (f : FileId) : Decidable (c.HasSnapshot f) :=
  decidable_of_iff ((c.lookup? f).any (·.stamp.isSome) = true) <| by
    unfold SourceCache.HasSnapshot
    cases c.lookup? f with
    | none => simp
    | some entry =>
      obtain ⟨source, stamp⟩ := entry
      cases stamp <;> simp

namespace ImportWalk

open SourceCache

/-- Whether a path leads to a file that an editor has open or that is on disk. -/
def isOpenOrOnDisk (e : Environment) (c : SourceCache) (p : Path) : Bool :=
  (c.buffer? (FileId.ofPath e.disk p)).isSome || e.disk.isFile p

/-- Whether the identity of a path has no snapshot and names no file: loads do not change that. -/
def IsVacant (e : Environment) (c : SourceCache) (p : Path) : Prop :=
  ¬ c.HasSnapshot (FileId.ofPath e.disk p) ∧ e.disk.IsNameless p

instance (e : Environment) (c : SourceCache) : DecidablePred (IsVacant e c) :=
  fun _ => inferInstanceAs (Decidable (_ ∧ _))

/-- Whether all candidates for an import of a file, up to the first one that is open or on disk, are
of some kind. -/
def PassesOver (kind : Path → Prop) (e : Environment) (roots : List Path) (c : SourceCache)
    (importer : FileId) : Import → Prop
  | .library _ => True
  | .resource t =>
    ∀ p ∈ (Import.candidates e roots (importer.toPath?.getD ⟨[]⟩) t).takeWhile fun p =>
      !isOpenOrOnDisk e c p, kind p

instance (kind : Path → Prop) [DecidablePred kind] (e : Environment) (roots : List Path)
    (c : SourceCache) (importer : FileId) :
    (i : Import) → Decidable (PassesOver kind e roots c importer i)
  | .library _ => isTrue trivial
  | .resource _ => List.decidableBAll _ _

end ImportWalk

/-- Whether the candidates that the imports of a visited file pass over are of some kind. -/
def Visit.PassesOver (kind : Path → Prop) (e : Environment) (roots : List Path) (c : SourceCache) :
    Visit → Prop
  | .library _ => True
  | .file f source => ∀ i ∈ Import.ofSource source, ImportWalk.PassesOver kind e roots c f i

instance (kind : Path → Prop) [DecidablePred kind] (e : Environment) (roots : List Path)
    (c : SourceCache) : (v : Visit) → Decidable (v.PassesOver kind e roots c)
  | .library _ => isTrue trivial
  | .file _ _ => List.decidableBAll _ _

lemma Visit.PassesOver.imp {kind kind' : Path → Prop} {e : Environment} {roots : List Path}
    {c : SourceCache} {v : Visit} (h : v.PassesOver kind e roots c) (hkind : ∀ p, kind p → kind' p) :
    v.PassesOver kind' e roots c := by
  cases v with
  | library name => exact trivial
  | file f source =>
    intro i hi
    have hpasses := h i hi
    cases i with
    | library name => exact trivial
    | resource t => exact fun p hp => hkind p (hpasses p hp)

namespace ImportWalk

open SourceCache

variable {e : Environment} {roots : List Path} {c fresh : SourceCache}

lemma isAvailable_of_isOpenOrOnDisk (h : Refreshes e.disk c fresh) {p : Path}
    (hp : isOpenOrOnDisk e c p = true) : isAvailable e fresh p = true := by
  rw [isOpenOrOnDisk, Bool.or_eq_true, ← h.buffer?_eq] at hp
  rw [isAvailable, Bool.or_eq_true, contains_iff]
  rcases hp with hb | hf
  · exact Or.inl (Or.inl hb)
  · exact Or.inr hf

lemma isAvailable_of_isVacant (h : Refreshes e.disk c fresh) {p : Path}
    (hp : isOpenOrOnDisk e c p = false) (hvacant : IsVacant e c p) :
    isAvailable e fresh p = false := by
  rw [isOpenOrOnDisk, Bool.or_eq_false_iff] at hp
  rw [isAvailable, Bool.or_eq_false_iff]
  refine ⟨?_, hp.2⟩
  rw [Bool.eq_false_iff, Ne, contains_iff, h.buffer?_eq]
  rintro (hb | hs)
  · rw [hp.1] at hb
    cases hb
  · obtain ⟨hsnapshot, hnameless⟩ := hvacant
    rcases h.snapshot _ hs with hs | hf
    · exact hsnapshot hs
    · rw [Disk.IsNameless] at hnameless
      rw [hnameless] at hf
      cases hf

/-- An import that passes over vacant candidates only leads to the first candidate that is open or on
disk, whatever was loaded. -/
lemma target?_of_passesOver (h : Refreshes e.disk c fresh) {importer : FileId} {i : Import}
    (hi : PassesOver (IsVacant e c) e roots c importer i) :
    target? e roots fresh importer i = match i with
      | .library name => some (.library name)
      | .resource t =>
        ((Import.candidates e roots (importer.toPath?.getD ⟨[]⟩) t).find? (isOpenOrOnDisk e c)).map
          fun p => .file (FileId.ofPath e.disk p) := by
  cases i with
  | library name => rfl
  | resource t =>
    have hfind : (Import.candidates e roots (importer.toPath?.getD ⟨[]⟩) t).find? (isAvailable e fresh) =
        (Import.candidates e roots (importer.toPath?.getD ⟨[]⟩) t).find? (isOpenOrOnDisk e c) := by
      refine find?_eq_find?_of_takeWhile ?_ fun p => isAvailable_of_isOpenOrOnDisk h
      intro p hp
      have hnot : isOpenOrOnDisk e c p = false := by simpa using List.mem_takeWhile_imp hp
      exact isAvailable_of_isVacant h hnot (hi p hp)
    simp only [target?, resolve?, hfind, Option.map_map]
    rfl

/-- Imports that pass over vacant candidates only lead to the same in caches that differ by loads only. -/
lemma targets_of_passesOver {fresher : SourceCache} (h : Refreshes e.disk c fresh)
    (h' : Refreshes e.disk c fresher) {importer : FileId} {source : Source}
    (hvacant : ∀ i ∈ Import.ofSource source, PassesOver (IsVacant e c) e roots c importer i) :
    targets e roots fresher importer source = targets e roots fresh importer source := by
  refine List.filterMap_congr fun i hi => ?_
  rw [target?_of_passesOver h (hvacant i hi), target?_of_passesOver h' (hvacant i hi)]

/-- Two walks that are equally far, with caches that differ from a given one by loads only. -/
structure Alike (e : Environment) (c : SourceCache) (w w' : ImportWalk) : Prop where
  pending_eq : w'.pending = w.pending
  seenFiles_eq : w'.seenFiles = w.seenFiles
  seenLibraries_eq : w'.seenLibraries = w.seenLibraries
  refreshes : Refreshes e.disk c w.cache
  refreshes' : Refreshes e.disk c w'.cache

lemma Alike.source?_eq {w w' : ImportWalk} (h : Alike e c w w') (f : FileId) :
    w'.cache.source? e.disk f = w.cache.source? e.disk f :=
  (h.refreshes'.source?_eq f).trans (h.refreshes.source?_eq f).symm

/-- A step keeps two walks equally far if the imports of the file that is visited pass over vacant
candidates only. -/
lemma Alike.step {w w' : ImportWalk} (h : Alike e c w w') (hp : w.pending ≠ [])
    (hvacant : ∀ v, (ImportWalk.step e roots w).1 = some v → v.PassesOver (IsVacant e c) e roots c) :
    (ImportWalk.step e roots w').1 = (ImportWalk.step e roots w).1 ∧
      Alike e c (ImportWalk.step e roots w).2 (ImportWalk.step e roots w').2 := by
  have hload : ∀ f, Refreshes e.disk c (w.cache.load e.disk f).1 :=
    fun f => h.refreshes.trans (refreshes_load _ _ f)
  have hload' : ∀ f, Refreshes e.disk c (w'.cache.load e.disk f).1 :=
    fun f => h.refreshes'.trans (refreshes_load _ _ f)
  have hs : Stepping e roots w (ImportWalk.step e roots w).1 (ImportWalk.step e roots w).2 :=
    stepping_step hp
  generalize (ImportWalk.step e roots w).1 = visit, (ImportWalk.step e roots w).2 = after
    at hs hvacant ⊢
  cases hs with
  | library hp hnew =>
    rw [← h.pending_eq] at hp
    rw [← h.seenLibraries_eq] at hnew
    rw [step_library hp hnew]
    exact ⟨rfl, rfl, h.seenFiles_eq, congrArg (_ :: ·) h.seenLibraries_eq, h.refreshes, h.refreshes'⟩
  | seenLibrary hp hseen =>
    rw [← h.pending_eq] at hp
    rw [← h.seenLibraries_eq] at hseen
    rw [step_seenLibrary hp hseen]
    exact ⟨rfl, rfl, h.seenFiles_eq, h.seenLibraries_eq, h.refreshes, h.refreshes'⟩
  | seenFile hp hseen =>
    rw [← h.pending_eq] at hp
    rw [← h.seenFiles_eq] at hseen
    rw [step_seenFile hp hseen]
    exact ⟨rfl, rfl, h.seenFiles_eq, h.seenLibraries_eq, h.refreshes, h.refreshes'⟩
  | @failed f _ hp hnew hs =>
    rw [← h.pending_eq] at hp
    rw [← h.seenFiles_eq] at hnew
    rw [← h.source?_eq] at hs
    rw [step_failed hp hnew hs]
    exact ⟨rfl, rfl, congrArg (_ :: ·) h.seenFiles_eq, h.seenLibraries_eq, hload f, hload' f⟩
  | @file f pending source hp hnew hs =>
    rw [← h.pending_eq] at hp
    rw [← h.seenFiles_eq] at hnew
    rw [← h.source?_eq] at hs
    rw [step_file hp hnew hs]
    have htargets := targets_of_passesOver (hload f) (hload' f) (hvacant _ rfl)
    exact ⟨rfl, congrArg (· ++ pending) htargets, congrArg (_ :: ·) h.seenFiles_eq, h.seenLibraries_eq,
      hload f, hload' f⟩

lemma Alike.runs {w w' last last' : ImportWalk} {visits visits' : List Visit}
    (h : Alike e c w w') (hr : Runs e roots w visits last) (hr' : Runs e roots w' visits' last')
    (hvacant : ∀ v ∈ visits, v.PassesOver (IsVacant e c) e roots c) :
    visits' = visits ∧ Alike e c last last' := by
  induction hr generalizing w' visits' with
  | finished hp =>
    cases hr' with
    | finished _ => exact ⟨rfl, h⟩
    | step hp' _ => exact absurd (h.pending_eq.trans hp) hp'
  | @step w last visits hp _ ih =>
    cases hr' with
    | finished hp' => exact absurd (h.pending_eq.symm.trans hp') hp
    | step _ hrest =>
      obtain ⟨hvisit, halike⟩ := h.step hp fun v hv =>
        hvacant v (List.mem_append_left _ (by simp [hv]))
      obtain ⟨hvisits, hlast⟩ := ih halike hrest fun v hv =>
        hvacant v (List.mem_append_right _ hv)
      rw [hvisit, hvisits]
      exact ⟨rfl, hlast⟩

lemma loads_of_runs {w last : ImportWalk} {visits : List Visit} (hr : Runs e roots w visits last) :
    Loads e.disk w.cache last.cache := by
  induction hr using Runs.stepping_induction with
  | finished => exact .refl
  | step _ hs _ ih =>
    refine Loads.trans ?_ ih
    cases hs with
    | library _ _ | seenLibrary _ _ | seenFile _ _ => exact .refl
    | failed _ _ _ | file _ _ _ => exact Loads.refl.load _

lemma loads_visits (e : Environment) (scope : ImportScope) (c : SourceCache) (f : FileId) :
    Loads e.disk c (visits e scope c f).2 := by
  obtain ⟨vs, last, hr, hv⟩ := runs_visits e scope c f
  rw [hv]
  exact loads_of_runs hr

lemma builtInVisit_congr {w w' : ImportWalk} (h : w'.seenLibraries = w.seenLibraries)
    (implicitBuiltIn : Bool) : builtInVisit w' implicitBuiltIn = builtInVisit w implicitBuiltIn := by
  unfold builtInVisit visitLibrary
  rw [h]
  split
  · dsimp only
    split <;> rfl
  · rfl

/-- Walks from caches that differ by loads only visit the same, if the imports of the visited files
pass over vacant candidates only. -/
theorem visits_of_refreshes (scope : ImportScope) (f : FileId) (h : Refreshes e.disk c fresh)
    (hvacant : ∀ v ∈ (visits e scope c f).1, v.PassesOver (IsVacant e c) e scope.roots c) :
    (visits e scope fresh f).1 = (visits e scope c f).1 := by
  obtain ⟨vs, last, hr, hv⟩ := runs_visits e scope c f
  obtain ⟨vs', last', hr', hv'⟩ := runs_visits e scope fresh f
  rw [hv] at hvacant
  have hstart : Alike e c (start c f) (start fresh f) :=
    ⟨rfl, rfl, rfl, Refreshes.refl _ _, h⟩
  obtain ⟨hvisits, hlast⟩ := hstart.runs hr hr' fun v hmem =>
    hvacant v (List.mem_append_left _ hmem)
  rw [hv, hv', hvisits, builtInVisit_congr hlast.seenLibraries_eq]

/-- A walk that is repeated on the same disk visits the same as before, if the imports of the files
that it visits pass over no candidate that has a snapshot or bears the identity of a file. -/
theorem visits_visits (e : Environment) (scope : ImportScope) (c : SourceCache) (f : FileId)
    (hvacant : ∀ v ∈ (visits e scope c f).1, v.PassesOver (IsVacant e c) e scope.roots c) :
    (visits e scope (visits e scope c f).2 f).1 = (visits e scope c f).1 :=
  visits_of_refreshes scope f (loads_visits e scope c f).refreshes hvacant

/-- A disk on which two directories have a file of the same name, one of them perhaps not. -/
private def twoResources (first : Option (String × Int)) : Disk :=
  ⟨[([], .directory), ([Text.encode ['a']], .directory), ([Text.encode ['b']], .directory),
    ([Text.encode ['b'], Text.encode ['r']],
      .file (Text.encode "*** Keywords ***\nTwo".toList) 1)] ++
    first.toList.map fun (content, modified) =>
      ([Text.encode ['a'], Text.encode ['r']], .file (Text.encode content.toList) modified)⟩

/-- A cache with a buffer that imports the resource, and with a snapshot of the first file. -/
private def importingResource : SourceCache :=
  ((SourceCache.empty.update ⟨"/a/m".toList⟩ "*** Settings ***\nResource  r".toList).load
    (twoResources (some ("*** Keywords ***\nOne", 1))) ⟨"/a/r".toList⟩).1

/-- The file was rewritten since it was loaded: both walks visit it as it is now. -/
theorem visits_visits_rewritten :
    let e : Environment := ⟨twoResources (some ("*** Keywords ***\nNew", 2)), []⟩
    let scope : ImportScope := ⟨[⟨Text.encode "/b".toList⟩], true⟩
    let first := visits e scope importingResource ⟨"/a/m".toList⟩
    first.1.length = 3 ∧ (visits e scope first.2 ⟨"/a/m".toList⟩).1 = first.1 :=
  ⟨by decide +kernel, visits_visits _ _ _ _ (by decide +kernel)⟩

/-- The file was deleted since it was loaded. The first walk resolves the import to its snapshot and
forgets that, the second one visits the other file. -/
theorem visits_visits_ne_of_deleted :
    let e : Environment := ⟨twoResources none, []⟩
    let scope : ImportScope := ⟨[⟨Text.encode "/b".toList⟩], true⟩
    let first := visits e scope importingResource ⟨"/a/m".toList⟩
    (visits e scope first.2 ⟨"/a/m".toList⟩).1 ≠ first.1 := by
  decide +kernel

end ImportWalk

end KeywordCompletion
