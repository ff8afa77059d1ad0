import Mathlib.Data.List.Nodup
import KeywordCompletion.Proofs.Import.Search

/-!
# The steps of a walk

A step may put more on the stack than it takes from it, and changes the cache in which imports are resolved.
Still a walk ends after finitely many steps, whatever imports what. It visits nothing twice, and it visits
the library that needs no import exactly once, at its end unless that library is imported: `visits_once`.
-/

namespace KeywordCompletion

/-- Whether a visited file imports a library whose name in lower case is `key`. -/
def Visit.ImportsLibrary (key : Text) : Visit → Prop
  | .library _ => False
  | .file _ source => ∃ name, .library name ∈ Import.ofSource source ∧ Text.lowercase name = key

namespace ImportWalk

variable {e : Environment} {roots : List Path} {w inner last : ImportWalk} {visits visits' : List Visit}

/-- What is visited in so many steps, and the state after them. -/
def takeSteps (e : Environment) (roots : List Path) : Nat → ImportWalk → List Visit × ImportWalk
  | 0, w => ([], w)
  | count + 1, w =>
    let (visit, w) := step e roots w
    let (visits, last) := takeSteps e roots count w
    (visit.toList ++ visits, last)

lemma takeSteps_of_finished (h : w.pending = []) (count : Nat) : takeSteps e roots count w = ([], w) := by
  induction count with
  | zero => rfl
  | succ count ih =>
    have hstep : step e roots w = (none, w) := by rw [step, h]
    simp only [takeSteps, hstep, ih]
    rfl

lemma Runs.exists_takeSteps (hr : Runs e roots w visits last) :
    ∃ bound, ∀ count, bound ≤ count → takeSteps e roots count w = (visits, last) := by
  induction hr with
  | finished h => exact ⟨0, fun count _ => takeSteps_of_finished h count⟩
  | step _ _ ih =>
    obtain ⟨bound, hbound⟩ := ih
    refine ⟨bound + 1, fun count hcount => ?_⟩
    obtain ⟨count, rfl⟩ : ∃ n, count = n + 1 := ⟨count - 1, by omega⟩
    simp only [takeSteps, hbound count (by omega)]

lemma Runs.pending_eq_nil (hr : Runs e roots w visits last) : last.pending = [] := by
  induction hr with
  | finished h => exact h
  | step _ _ ih => exact ih

/-- Whether a walk has seen what has this key. -/
def HasSeen (w : ImportWalk) : ImportTarget → Prop
  | .file f => f ∈ w.seenFiles
  | .library key => key ∈ w.seenLibraries

/-- What visits leave behind: a walk that has seen what was seen before them and what they are to, and no
other libraries. -/
structure Records (w : ImportWalk) (visits : List Visit) (last : ImportWalk) : Prop where
  seen : ∀ key, w.HasSeen key → last.HasSeen key
  visited : ∀ v ∈ visits, ¬ w.HasSeen v.key ∧ last.HasSeen v.key
  libraries : ∀ name, last.HasSeen (.library name) →
    w.HasSeen (.library name) ∨ .library name ∈ visits.map Visit.key
  nodup : (visits.map Visit.key).Nodup

lemma Records.append (h : Records w visits inner) (h' : Records inner visits' last) :
    Records w (visits ++ visits') last := by
  refine ⟨fun key hkey => h'.seen key (h.seen key hkey), ?_, ?_, ?_⟩
  · intro v hv
    rcases List.mem_append.1 hv with hv | hv
    · exact ⟨(h.visited v hv).1, h'.seen _ (h.visited v hv).2⟩
    · exact ⟨fun hseen => (h'.visited v hv).1 (h.seen _ hseen), (h'.visited v hv).2⟩
  · intro name hname
    rw [List.map_append, List.mem_append]
    rcases h'.libraries name hname with hname | hname
    · exact (h.libraries name hname).imp_right Or.inl
    · exact Or.inr (Or.inr hname)
  · rw [List.map_append, List.nodup_append]
    refine ⟨h.nodup, h'.nodup, ?_⟩
    rintro key hkey key' hkey' rfl
    obtain ⟨v, hv, rfl⟩ := List.mem_map.1 hkey
    obtain ⟨v', hv', hkey⟩ := List.mem_map.1 hkey'
    exact (h'.visited v' hv').1 (hkey ▸ (h.visited v hv).2)

/-- A walk that sees something for the first time visits it, or it is a file that cannot be loaded. -/
lemma records_of_new {key : ImportTarget} (hnew : ¬ w.HasSeen key)
    (hseen : ∀ k, last.HasSeen k ↔ k = key ∨ w.HasSeen k)
    (hvisits : (∃ v, visits = [v] ∧ v.key = key) ∨ ∃ f, visits = [] ∧ key = .file f) :
    Records w visits last := by
  refine ⟨fun k hk => (hseen k).2 (Or.inr hk), ?_, ?_, ?_⟩
  · rcases hvisits with ⟨v, rfl, rfl⟩ | ⟨f, rfl, -⟩
    · intro v' hv'
      obtain rfl := List.mem_singleton.1 hv'
      exact ⟨hnew, (hseen _).2 (Or.inl rfl)⟩
    · simp
  · intro name hname
    rcases (hseen _).1 hname with hkey | hname
    · rcases hvisits with ⟨v, rfl, rfl⟩ | ⟨f, -, rfl⟩
      · exact Or.inr (List.mem_singleton.2 hkey)
      · cases hkey
    · exact Or.inl hname
  · rcases hvisits with ⟨v, rfl, -⟩ | ⟨f, rfl, -⟩ <;> simp

lemma Stepping.records {visit : Option Visit} (hs : Stepping e roots w visit last) :
    Records w visit.toList last := by
  cases hs with
  | @library name pending hp hnew =>
    have hnew : ¬ w.HasSeen (.library (Text.lowercase name)) := by simpa [HasSeen] using hnew
    exact records_of_new hnew (by rintro (f | key) <;> simp [HasSeen]) (Or.inl ⟨_, rfl, rfl⟩)
  | seenLibrary hp hseen | seenFile hp hseen =>
    exact ⟨fun key hkey => by cases key <;> exact hkey, by simp, fun key hkey => Or.inl hkey, by simp⟩
  | @failed f pending hp hnew hs =>
    have hnew : ¬ w.HasSeen (.file f) := hnew
    exact records_of_new hnew (by rintro (g | key) <;> simp [HasSeen]) (Or.inr ⟨f, rfl, rfl⟩)
  | @file f pending source hp hnew hs =>
    have hnew : ¬ w.HasSeen (.file f) := hnew
    exact records_of_new hnew (by rintro (g | key) <;> simp [HasSeen]) (Or.inl ⟨_, rfl, rfl⟩)

lemma Runs.records (hr : Runs e roots w visits last) : Records w visits last := by
  induction hr using Runs.stepping_induction with
  | finished => exact ⟨fun _ hkey => hkey, by simp, fun _ hname => Or.inl hname, by simp⟩
  | step _ hs _ ih => exact hs.records.append ih

/-- A library is on the stack because it was there before or because a file that was just visited imports
it. -/
lemma Stepping.imported {visit : Option Visit} {name : Text} (hs : Stepping e roots w visit last)
    (h : .library name ∈ last.pending) :
    .library name ∈ w.pending ∨ ∃ v ∈ visit.toList, v.ImportsLibrary (Text.lowercase name) := by
  cases hs with
  | library hp hnew | seenLibrary hp hseen | seenFile hp hseen | failed hp hnew hs =>
    rw [hp]
    exact Or.inl (List.mem_cons_of_mem _ h)
  | @file f pending source hp hnew hs =>
    rcases List.mem_append.1 h with htarget | hpending
    · obtain ⟨i, hi, htarget⟩ := List.mem_filterMap.1 htarget
      cases i with
      | library other =>
        cases htarget
        exact Or.inr ⟨_, List.mem_singleton.2 rfl, name, hi, rfl⟩
      | resource t =>
        obtain ⟨g, -, hg⟩ := Option.map_eq_some_iff.1 htarget
        cases hg
    · rw [hp]
      exact Or.inl (List.mem_cons_of_mem _ hpending)

lemma Stepping.mem_pending {name : Text} (hs : Stepping e roots w (some (.library name)) last) :
    .library name ∈ w.pending := by
  cases hs with
  | library hp _ => exact hp ▸ List.mem_cons_self

lemma Runs.imported {name : Text} (hr : Runs e roots w visits last) (h : .library name ∈ visits) :
    .library name ∈ w.pending ∨ ∃ v ∈ visits, v.ImportsLibrary (Text.lowercase name) := by
  induction hr using Runs.stepping_induction with
  | finished => cases h
  | step _ hs _ ih =>
    rcases List.mem_append.1 h with hvisit | hrest
    · rw [Option.mem_toList] at hvisit
      rw [hvisit] at hs
      exact Or.inl hs.mem_pending
    · rcases ih hrest with hpending | ⟨v, hv, himports⟩
      · exact (hs.imported hpending).imp_right fun ⟨v, hv, himports⟩ =>
          ⟨v, List.mem_append_left _ hv, himports⟩
      · exact Or.inr ⟨v, List.mem_append_right _ hv, himports⟩

lemma Runs.mem_seenLibraries_iff {c : SourceCache} {f : FileId} {name : Text}
    (hr : Runs e roots (start c f) visits last) :
    name ∈ last.seenLibraries ↔ .library name ∈ visits.map Visit.key := by
  constructor
  · intro hmem
    exact (hr.records.libraries name hmem).resolve_left List.not_mem_nil
  · intro hmem
    obtain ⟨v, hv, hkey⟩ := List.mem_map.1 hmem
    have hseen := (hr.records.visited v hv).2
    rw [hkey] at hseen
    exact hseen

/-- A walk ends after finitely many steps, and its visits are those of that many steps, with the library that
needs no import behind them if it was not seen. It visits no file twice, and no two libraries whose names
differ in case only. If one library needs no import, it is visited once, and last unless a visited file
imports it. -/
theorem visits_once (e : Environment) (scope : ImportScope) (c : SourceCache) (f : FileId) :
    let visited := (ImportWalk.visits e scope c f).1
    let builtIn := Text.lowercase Library.builtInName.toList
    (∃ bound walked last, (∀ count, bound ≤ count →
        takeSteps e scope.roots count (start c f) = (walked, last)) ∧ last.pending = [] ∧
      ImportWalk.visits e scope c f = (walked ++ builtInVisit last scope.implicitBuiltIn, last.cache)) ∧
    (visited.map Visit.key).Nodup ∧
    (scope.implicitBuiltIn = true → (visited.map Visit.key).count (.library builtIn) = 1 ∧
      ((∃ v ∈ visited, v.ImportsLibrary builtIn) ∨
        visited.getLast? = some (.library Library.builtInName.toList))) := by
  obtain ⟨walked, last, hr, hvisits⟩ := runs_visits e scope c f
  obtain ⟨bound, hbound⟩ := hr.exists_takeSteps
  have hending : builtInVisit last scope.implicitBuiltIn = ImportSearch.ending scope walked :=
    ImportSearch.builtInVisit_eq hr.mem_seenLibraries_iff
  have hnodup := ImportSearch.nodup_append_ending scope hr.records.nodup
  rw [← hending] at hnodup
  simp only [hvisits]
  refine ⟨⟨bound, walked, last, hbound, hr.pending_eq_nil, rfl⟩, hnodup, fun himplicit => ?_⟩
  -- either the walk saw the library, or it is the last visit
  by_cases hmem : .library (Text.lowercase Library.builtInName.toList) ∈ walked.map Visit.key
  · have hall : .library (Text.lowercase Library.builtInName.toList) ∈
        (walked ++ builtInVisit last scope.implicitBuiltIn).map Visit.key := by
      rw [List.map_append]
      exact List.mem_append_left _ hmem
    obtain ⟨v, hv, hkey⟩ := List.mem_map.1 hmem
    obtain ⟨name, rfl, hname⟩ : ∃ name, v = .library name ∧
        Text.lowercase name = Text.lowercase Library.builtInName.toList := by
      cases v with
      | file g source => cases hkey
      | library name => exact ⟨name, rfl, ImportTarget.library.inj hkey⟩
    obtain ⟨v, hv, himports⟩ := (hr.imported hv).resolve_left (by simp [start])
    rw [hname] at himports
    exact ⟨List.count_eq_one_of_mem hnodup hall, Or.inl ⟨v, List.mem_append_left _ hv, himports⟩⟩
  · rw [hending, ImportSearch.ending, if_pos ⟨himplicit, hmem⟩] at hnodup ⊢
    refine ⟨List.count_eq_one_of_mem hnodup ?_, Or.inr List.getLast?_concat⟩
    rw [List.map_append]
    exact List.mem_append_right _ (List.mem_singleton.2 rfl)

/-- Two resources import each other, the first one also itself by another path, and a library is imported
twice. -/
theorem visits_once_cycle :
    let first := "*** Settings ***\nResource  ./m\nResource  r\nLibrary  String"
    let second := "*** Settings ***\nLibrary  STRING\nResource  ../a/m"
    let disk : Disk := ⟨[([], .directory), ([Text.encode ['a']], .directory),
      ([Text.encode ['a'], Text.encode ['m']], .file (Text.encode first.toList) 1),
      ([Text.encode ['a'], Text.encode ['r']], .file (Text.encode second.toList) 1)]⟩
    let scope : ImportScope := ⟨[], true⟩
    let visited := (ImportWalk.visits ⟨disk, []⟩ scope SourceCache.empty ⟨"/a/m".toList⟩).1
    scope.implicitBuiltIn = true ∧
      visited.map Visit.key = [.file ⟨"/a/m".toList⟩, .file ⟨"/a/r".toList⟩, .library "string".toList,
        .library "builtin".toList] ∧
      (visited.map Visit.key).count (.library "builtin".toList) = 1 := by
  intro first second disk scope visited
  have himplicit : scope.implicitBuiltIn = true := rfl
  have hbuiltIn : Text.lowercase Library.builtInName.toList = "builtin".toList := by decide +kernel
  have honce := visits_once ⟨disk, []⟩ scope SourceCache.empty ⟨"/a/m".toList⟩
  rw [hbuiltIn] at honce
  exact ⟨himplicit, by decide +kernel, (honce.2.2 himplicit).1⟩

end ImportWalk

end KeywordCompletion
