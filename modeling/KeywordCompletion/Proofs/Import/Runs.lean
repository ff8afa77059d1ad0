import Mathlib.Data.List.Basic
import KeywordCompletion.Import.Walk
import KeywordCompletion.Proofs.SourceCache.Refreshing

/-!
# Runs of a walk

`Runs` relates a walk to its visits and to the state in which nothing is left to be visited. A walk
never visits a file besides the first one, those of the cache and those on disk, so the bound on the
number of files that `visits` is given is never reached: `runs_visits`.
-/

namespace KeywordCompletion

lemma Catalog.mem_keys_of_contains {κ ν : Type} [DecidableEq κ] {c : Catalog κ ν} {key : κ}
    (h : c.contains key = true) : key ∈ c.entries.map Prod.fst := by
  rw [contains, get?, Option.isSome_map, List.find?_isSome] at h
  obtain ⟨entry, hmem, hkey⟩ := h
  exact List.mem_map.2 ⟨entry, hmem, by simpa using hkey⟩

lemma length_filter_lt {α : Type} {p q : α → Bool} {l : List α} {x : α}
    (himp : ∀ y, q y = true → p y = true) (hx : x ∈ l) (hp : p x = true) (hq : q x = false) :
    (l.filter q).length < (l.filter p).length := by
  have hsub : (l.filter q).Sublist (l.filter p) := List.monotone_filter_right l himp
  refine Nat.lt_of_le_of_ne hsub.length_le fun hlength => ?_
  have hmem : x ∈ l.filter q := by
    rw [hsub.eq_of_length hlength]
    exact List.mem_filter.2 ⟨hx, hp⟩
  rw [(List.mem_filter.1 hmem).2] at hq
  cases hq

namespace ImportWalk

variable {e : Environment} {roots : List Path}

lemma step_library {w : ImportWalk} {name : Text} {pending : List ImportTarget}
    (hp : w.pending = .library name :: pending)
    (hseen : w.seenLibraries.contains (Text.lowercase name) = false) :
    step e roots w = (some (.library name),
      { w with pending, seenLibraries := Text.lowercase name :: w.seenLibraries }) := by
  rw [step, hp]
  simp only [visitLibrary, hseen, Bool.false_eq_true, if_false]

lemma step_seenLibrary {w : ImportWalk} {name : Text} {pending : List ImportTarget}
    (hp : w.pending = .library name :: pending)
    (hseen : w.seenLibraries.contains (Text.lowercase name) = true) :
    step e roots w = (none, { w with pending }) := by
  rw [step, hp]
  simp only [visitLibrary, hseen, if_true]

lemma step_seenFile {w : ImportWalk} {f : FileId} {pending : List ImportTarget}
    (hp : w.pending = .file f :: pending) (hseen : f ∈ w.seenFiles) :
    step e roots w = (none, { w with pending }) := by
  rw [step, hp]
  simp only [visitFile, if_pos hseen]

lemma step_failed {w : ImportWalk} {f : FileId} {pending : List ImportTarget}
    (hp : w.pending = .file f :: pending) (hnew : f ∉ w.seenFiles)
    (hs : w.cache.source? e.disk f = none) :
    step e roots w = (none,
      { w with pending, seenFiles := f :: w.seenFiles, cache := (w.cache.load e.disk f).1 }) := by
  rw [step, hp]
  simp only [visitFile, if_neg hnew]
  cases hl : w.cache.load e.disk f with
  | mk cache answer =>
    cases answer with
    | error error => rfl
    | ok source => simp [SourceCache.source?, hl, Except.toOption] at hs

lemma step_file {w : ImportWalk} {f : FileId} {pending : List ImportTarget} {source : Source}
    (hp : w.pending = .file f :: pending) (hnew : f ∉ w.seenFiles)
    (hs : w.cache.source? e.disk f = some source) :
    step e roots w = (some (.file f source),
      { w with
        pending := targets e roots (w.cache.load e.disk f).1 f source ++ pending
        seenFiles := f :: w.seenFiles
        cache := (w.cache.load e.disk f).1 }) := by
  rw [step, hp]
  simp only [visitFile, if_neg hnew]
  cases hl : w.cache.load e.disk f with
  | mk cache answer =>
    cases answer with
    | error error => simp [SourceCache.source?, hl, Except.toOption] at hs
    | ok other =>
      obtain rfl : other = source := by simpa [SourceCache.source?, hl, Except.toOption] using hs
      rfl

/-- The ways in which a step can go when something is left to be visited. -/
inductive Stepping (e : Environment) (roots : List Path) (w : ImportWalk) :
    Option Visit → ImportWalk → Prop
  | library {name : Text} {pending : List ImportTarget} (hp : w.pending = .library name :: pending)
      (hnew : w.seenLibraries.contains (Text.lowercase name) = false) :
      Stepping e roots w (some (.library name))
        { w with pending, seenLibraries := Text.lowercase name :: w.seenLibraries }
  | seenLibrary {name : Text} {pending : List ImportTarget}
      (hp : w.pending = .library name :: pending)
      (hseen : w.seenLibraries.contains (Text.lowercase name) = true) :
      Stepping e roots w none { w with pending }
  | seenFile {f : FileId} {pending : List ImportTarget} (hp : w.pending = .file f :: pending)
      (hseen : f ∈ w.seenFiles) :
      Stepping e roots w none { w with pending }
  /-- The file cannot be loaded. -/
  | failed {f : FileId} {pending : List ImportTarget} (hp : w.pending = .file f :: pending)
      (hnew : f ∉ w.seenFiles) (hs : w.cache.source? e.disk f = none) :
      Stepping e roots w none
        { w with pending, seenFiles := f :: w.seenFiles, cache := (w.cache.load e.disk f).1 }
  | file {f : FileId} {pending : List ImportTarget} {source : Source}
      (hp : w.pending = .file f :: pending) (hnew : f ∉ w.seenFiles)
      (hs : w.cache.source? e.disk f = some source) :
      Stepping e roots w (some (.file f source))
        { w with
          pending := targets e roots (w.cache.load e.disk f).1 f source ++ pending
          seenFiles := f :: w.seenFiles
          cache := (w.cache.load e.disk f).1 }

/-- Every step goes one of these ways. -/
theorem stepping_step {w : ImportWalk} (h : w.pending ≠ []) :
    Stepping e roots w (step e roots w).1 (step e roots w).2 := by
  cases hp : w.pending with
  | nil => exact absurd hp h
  | cons target pending =>
    cases target with
    | library name =>
      cases hseen : w.seenLibraries.contains (Text.lowercase name) with
      | true =>
        rw [step_seenLibrary hp hseen]
        exact .seenLibrary hp hseen
      | false =>
        rw [step_library hp hseen]
        exact .library hp hseen
    | file f =>
      by_cases hseen : f ∈ w.seenFiles
      · rw [step_seenFile hp hseen]
        exact .seenFile hp hseen
      · cases hs : w.cache.source? e.disk f with
        | none =>
          rw [step_failed hp hseen hs]
          exact .failed hp hseen hs
        | some source =>
          rw [step_file hp hseen hs]
          exact .file hp hseen hs

/-- A walk that makes these visits until nothing is left to be visited, and the state in which it
ends. -/
inductive Runs (e : Environment) (roots : List Path) :
    ImportWalk → List Visit → ImportWalk → Prop
  | finished {w : ImportWalk} (h : w.pending = []) : Runs e roots w [] w
  | step {w last : ImportWalk} {visits : List Visit} (h : w.pending ≠ [])
      (hr : Runs e roots (step e roots w).2 visits last) :
      Runs e roots w ((step e roots w).1.toList ++ visits) last

/-- Induction on a run, by the ways in which its first step can go. -/
theorem Runs.stepping_induction
    {motive : (w : ImportWalk) → (visits : List Visit) → (last : ImportWalk) → Runs e roots w visits last → Prop}
    (finished : ∀ {w} (h : w.pending = []), motive w [] w (.finished h))
    (step : ∀ {w after last visit visits} (hr : Runs e roots w (visit.toList ++ visits) last)
      (_ : Stepping e roots w visit after) (hrest : Runs e roots after visits last),
      motive after visits last hrest → motive w (visit.toList ++ visits) last hr)
    {w : ImportWalk} {visits : List Visit} {last : ImportWalk} (hr : Runs e roots w visits last) :
    motive w visits last hr := by
  induction hr with
  | finished h => exact finished h
  | step h hrest ih => exact step (.step h hrest) (stepping_step h) hrest ih

/-- Whether some files include all that a walk may visit from a state on. -/
structure Within (e : Environment) (files : List FileId) (w : ImportWalk) : Prop where
  pending : ∀ f, .file f ∈ w.pending → f ∈ files
  cached : ∀ f, w.cache.contains f = true → f ∈ files
  onDisk : ∀ p, e.disk.isFile p = true → FileId.ofPath e.disk p ∈ files

/-- How many of some files a walk has not seen. -/
def unseen (files : List FileId) (w : ImportWalk) : Nat :=
  (files.filter (· ∉ w.seenFiles)).length

lemma unseen_congr {files : List FileId} {w w' : ImportWalk} (h : w'.seenFiles = w.seenFiles) :
    unseen files w' = unseen files w := by
  rw [unseen, unseen, h]

lemma unseen_lt_of_seenFiles {files : List FileId} {w w' : ImportWalk} {f : FileId}
    (hf : f ∈ files) (hnew : f ∉ w.seenFiles) (h : w'.seenFiles = f :: w.seenFiles) :
    unseen files w' < unseen files w := by
  refine length_filter_lt (fun g hg => ?_) hf (by simpa using hnew) (by simp [h])
  simp only [h, List.mem_cons, not_or, decide_eq_true_eq] at hg ⊢
  exact hg.2

lemma contains_load {c : SourceCache} {d : Disk} {f g : FileId}
    (h : (c.load d f).1.contains g = true) : c.contains g = true ∨ g = f := by
  by_cases hgf : g = f
  · exact Or.inr hgf
  left
  have hl := SourceCache.loading_load c d f
  generalize (c.load d f).1 = after, (c.load d f).2 = answer at h hl
  have hput : ∀ c' : SourceCache, c'.lookup? g = c.lookup? g →
      c'.contains g = true → c.contains g = true := by
    intro c' he hc
    change (c'.lookup? g).isSome = true at hc
    rwa [he] at hc
  cases hl with
  | buffer _ | unnamed _ _ | cached _ _ | broken _ _ _ _ _ => exact h
  | missing _ _ | tooLarge _ _ _ _ => exact hput _ (SourceCache.lookup?_forget_of_ne c hgf) h
  | read _ _ _ _ _ => exact hput _ (SourceCache.lookup?_put_of_ne c hgf _) h

lemma Within.mem_of_isAvailable {files : List FileId} {w : ImportWalk} (h : Within e files w)
    {p : Path} (hp : isAvailable e w.cache p = true) : FileId.ofPath e.disk p ∈ files := by
  rw [isAvailable, Bool.or_eq_true] at hp
  rcases hp with hc | hf
  · exact h.cached _ hc
  · exact h.onDisk p hf

lemma Within.mem_of_targets {files : List FileId} {w : ImportWalk} (h : Within e files w)
    {importer f : FileId} {source : Source}
    (ht : .file f ∈ targets e roots w.cache importer source) : f ∈ files := by
  obtain ⟨i, _, hi⟩ := List.mem_filterMap.1 ht
  cases i with
  | library name => cases hi
  | resource t =>
    obtain ⟨g, hg, he⟩ := Option.map_eq_some_iff.1 hi
    cases he
    obtain ⟨p, hp, rfl⟩ := Option.map_eq_some_iff.1 hg
    exact h.mem_of_isAvailable (List.find?_some hp)

lemma Within.load {files : List FileId} {w : ImportWalk} (h : Within e files w) {f : FileId}
    (hf : f ∈ files) : Within e files { w with cache := (w.cache.load e.disk f).1 } := by
  refine ⟨h.pending, ?_, h.onDisk⟩
  intro g hg
  rcases contains_load hg with hc | rfl
  · exact h.cached g hc
  · exact hf

lemma Within.mem_of_pending {files : List FileId} {w : ImportWalk} (h : Within e files w)
    {f : FileId} {pending : List ImportTarget} (hp : w.pending = .file f :: pending) :
    f ∈ files := by
  refine h.pending f ?_
  rw [hp]
  exact List.mem_cons_self

lemma Stepping.within {files : List FileId} {w after : ImportWalk} {visit : Option Visit}
    (hs : Stepping e roots w visit after) (h : Within e files w) : Within e files after := by
  have hrest : ∀ target pending, w.pending = target :: pending →
      ∀ f, .file f ∈ pending → f ∈ files := by
    intro target pending he f hf
    refine h.pending f ?_
    rw [he]
    exact List.mem_cons_of_mem _ hf
  cases hs with
  | library hp _ | seenLibrary hp _ | seenFile hp _ => exact ⟨hrest _ _ hp, h.cached, h.onDisk⟩
  | failed hp _ _ =>
    have hl := h.load (h.mem_of_pending hp)
    exact ⟨hrest _ _ hp, hl.cached, hl.onDisk⟩
  | file hp _ _ =>
    have hl := h.load (h.mem_of_pending hp)
    refine ⟨?_, hl.cached, hl.onDisk⟩
    intro g hg
    rcases List.mem_append.1 hg with ht | hr
    · exact hl.mem_of_targets ht
    · exact hrest _ _ hp g hr

/-- A step that visits no file takes something away from what is left to be visited. -/
lemma Stepping.length_pending {w after : ImportWalk} {visit : Option Visit}
    (hs : Stepping e roots w visit after) (hvisit : ∀ f source, visit ≠ some (.file f source)) :
    after.pending.length + 1 = w.pending.length := by
  cases hs with
  | library hp _ | seenLibrary hp _ | seenFile hp _ | failed hp _ _ =>
    rw [hp]
    rfl
  | file _ _ _ => exact absurd rfl (hvisit _ _)

lemma Stepping.unseen_le {files : List FileId} {w after : ImportWalk} {visit : Option Visit}
    (hs : Stepping e roots w visit after) (h : Within e files w) :
    unseen files after ≤ unseen files w := by
  cases hs with
  | library _ _ | seenLibrary _ _ | seenFile _ _ => exact Nat.le_of_eq (unseen_congr rfl)
  | failed hp hnew _ | file hp hnew _ =>
    exact Nat.le_of_lt (unseen_lt_of_seenFiles (h.mem_of_pending hp) hnew rfl)

lemma Stepping.unseen_lt {files : List FileId} {w after : ImportWalk} {f : FileId} {source : Source}
    (hs : Stepping e roots w (some (.file f source)) after) (h : Within e files w) :
    unseen files after < unseen files w := by
  cases hs with
  | file hp hnew _ => exact unseen_lt_of_seenFiles (h.mem_of_pending hp) hnew rfl

/-- Between two files `runWith` makes every step, if what follows a file makes the others. -/
lemma runs_runWith {files : List FileId} {bound : Nat} {onFile : ImportWalk → List Visit × ImportWalk}
    (honFile : ∀ w, Within e files w → unseen files w < bound →
      Runs e roots w (onFile w).1 (onFile w).2)
    (w : ImportWalk) (h : Within e files w) (hbound : unseen files w ≤ bound) :
    Runs e roots w (runWith e roots onFile w.pending.length w).1
      (runWith e roots onFile w.pending.length w).2 := by
  generalize hcount : w.pending.length = count
  induction count generalizing w with
  | zero => exact .finished (List.length_eq_zero_iff.1 hcount)
  | succ count ih =>
    have hp : w.pending ≠ [] := by
      intro hnil
      simp [hnil] at hcount
    have hs : Stepping e roots w (step e roots w).1 (step e roots w).2 := stepping_step hp
    have hrun : ∀ visits last, Runs e roots (step e roots w).2 visits last →
        Runs e roots w ((step e roots w).1.toList ++ visits) last := fun _ _ => .step hp
    rw [runWith]
    generalize step e roots w = result at hs hrun
    obtain ⟨visit, after⟩ := result
    dsimp only at hs hrun
    have hwithin := hs.within h
    have hle := hs.unseen_le h
    cases visit with
    | none =>
      have hlength := hs.length_pending nofun
      exact hrun _ _ (ih after hwithin (by omega) (by omega))
    | some visit =>
      cases visit with
      | library name =>
        have hlength := hs.length_pending nofun
        exact hrun _ _ (ih after hwithin (by omega) (by omega))
      | file f source =>
        have hlt := hs.unseen_lt h
        exact hrun _ _ (honFile after hwithin (by omega))

/-- A walk that may visit as many files as there are unseen ones makes every step. -/
lemma runs_run {files : List FileId} {count : Nat} {w : ImportWalk} (h : Within e files w)
    (hcount : unseen files w < count) :
    Runs e roots w (run e roots count w).1 (run e roots count w).2 := by
  induction count generalizing w with
  | zero => omega
  | succ count ih =>
    rw [run]
    exact runs_runWith (fun _ hw hlt => ih hw hlt) w h (Nat.le_of_lt_succ hcount)

/-- The files that a walk from a file can visit: this file, those of the cache, and those on disk. -/
def reachable (e : Environment) (c : SourceCache) (f : FileId) : List FileId :=
  f :: (c.entries.entries.map Prod.fst ++ e.disk.entries.map fun entry => FileId.ofLocation entry.1)

lemma within_start (c : SourceCache) (f : FileId) : Within e (reachable e c f) (start c f) := by
  refine ⟨?_, ?_, ?_⟩
  · intro g hg
    obtain rfl : g = f := by simpa [start] using hg
    exact List.mem_cons_self
  · intro g hg
    exact List.mem_cons_of_mem _ (List.mem_append_left _ (Catalog.mem_keys_of_contains hg))
  · intro p hp
    rw [Disk.isFile_eq_isSome, Option.isSome_iff_exists] at hp
    obtain ⟨⟨content, modified⟩, hfile⟩ := hp
    obtain ⟨at_, hmem, hid⟩ := FileId.ofPath_of_fileAt? hfile
    rw [hid]
    exact List.mem_cons_of_mem _ (List.mem_append_right _ (List.mem_map.2 ⟨_, hmem, rfl⟩))

/-- The bound on the number of files that `visits` uses is never reached: it runs until nothing is
left to be visited. -/
theorem runs_visits (e : Environment) (scope : ImportScope) (c : SourceCache) (f : FileId) :
    ∃ visits last, Runs e scope.roots (start c f) visits last ∧
      ImportWalk.visits e scope c f =
        (visits ++ builtInVisit last scope.implicitBuiltIn, last.cache) := by
  refine ⟨_, _, runs_run (within_start c f) ?_, rfl⟩
  calc unseen (reachable e c f) (start c f)
      ≤ (reachable e c f).length := List.length_filter_le _ _
    _ = 1 + c.size + e.disk.entries.length := by
        simp [reachable, SourceCache.size, Catalog.size]
        omega
    _ < fileBound e c := by
        unfold fileBound
        omega

end ImportWalk

end KeywordCompletion
