import KeywordCompletion.Proofs.Import.Shadowing
import KeywordCompletion.Proofs.Workspace.Closing

/-!
# Open documents in walks

As long as a document is the only open one of its file, the file has a buffer with the text of the document
(`Shadows.after`), under the identity to which the URL of the document leads. So a walk visits the file with
that text, however the imports spell the way to it: `visits_opened`. An import may still pass it by when a
candidate before it is gone but has a snapshot: `visits_opened_missed`.
-/

namespace KeywordCompletion

open SourceCache

namespace Workspace

variable {e : Environment} {d : Disk} {w w' : Workspace} {u : Url} {event : WorkspaceEvent}

/-- Whether a document is open, and no other one of its file. -/
def IsSole (d : Disk) (w : Workspace) (u : Url) : Prop :=
  u ∈ w.openUrls ∧ ∀ v ∈ w.openUrls, FileId.ofUrl d v = FileId.ofUrl d u → v = u

instance (d : Disk) (w : Workspace) : DecidablePred (w.IsSole d) :=
  fun _ => inferInstanceAs (Decidable (_ ∧ _))

/-- Whether the file of a document has a buffer with the text of the document. -/
def Shadows (d : Disk) (w : Workspace) (u : Url) : Prop :=
  ∃ t, w.openText? u = some t ∧ w.cache.buffer? (FileId.ofUrl d u) = some (Source.ofText t)

lemma shadows_opened (d : Disk) (w : Workspace) (u : Url) (t : Text) (version : Int) :
    (w.opened d u t version).1.Shadows d u := by
  refine ⟨t, ?_, buffer?_update_self _ _ t⟩
  have hself : (w.documents.opened u t version).get? u = some (Document.ofText t version) :=
    Catalog.get?_insert_self _ _ _
  exact congrArg (Option.map Document.text) hself

/-- What happens to documents of other files makes no difference. -/
lemma Shadows.update (h : w.Shadows d u) {uri : Url} (hid : FileId.ofUrl d uri ≠ FileId.ofUrl d u)
    {x : Option Text} (ht : w'.openText? = Function.update w.openText? uri x)
    (hb : w'.cache.buffer? (FileId.ofUrl d u) = w.cache.buffer? (FileId.ofUrl d u)) : w'.Shadows d u := by
  obtain ⟨t, hopen, hbuffer⟩ := h
  refine ⟨t, ?_, hb.trans hbuffer⟩
  rw [ht, Function.update_of_ne (by rintro rfl; exact hid rfl)]
  exact hopen

/-- An event keeps the buffer of a document that is the only one of its file before and after it. -/
theorem Shadows.after (h : w.Shadows e.disk u) (hsole : w.IsSole e.disk u)
    (hsole' : (w.after e event).IsSole e.disk u) : (w.after e event).Shadows e.disk u := by
  have hediting := editing_after e w event
  generalize w.after e event = w' at hediting hsole' ⊢
  cases hediting with
  | kept ht hl =>
    obtain ⟨t, hopen, hbuffer⟩ := h
    exact ⟨t, (congrFun ht u).trans hopen, (hl.refreshes.buffer?_eq _).trans hbuffer⟩
  | put uri t ht hl =>
    by_cases hid : FileId.ofUrl e.disk uri = FileId.ofUrl e.disk u
    · have hself : w'.openText? uri = some t := by rw [ht, Function.update_self]
      obtain rfl := hsole'.2 uri (mem_openUrls.2 ⟨t, hself⟩) hid
      exact ⟨t, hself, (hl.refreshes.buffer?_eq _).trans (buffer?_update_self _ _ t)⟩
    · refine h.update hid ht ((hl.refreshes.buffer?_eq _).trans ?_)
      exact buffer?_update_of_ne _ (Ne.symm hid) t
  | closed uri huri ht hremoved =>
    by_cases hid : FileId.ofUrl e.disk uri = FileId.ofUrl e.disk u
    · obtain rfl := hsole.2 uri huri hid
      have hopen := hsole'.1
      rw [mem_openUrls, ht, Function.update_self] at hopen
      obtain ⟨t, ht⟩ := hopen
      cases ht
    · refine h.update hid ht ?_
      rw [hremoved, buffer?_remove_of_ne _ (Ne.symm hid)]
  | indexed _ ht hb =>
    obtain ⟨t, hopen, hbuffer⟩ := h
    exact ⟨t, (congrFun ht u).trans hopen, hb _ _ hbuffer⟩

end Workspace

namespace LiveWorkspace

/-- Whether a document stays open throughout a run, as the only one of its file, which keeps its identity. -/
def StaysSole (u : Url) (s : LiveWorkspace) (events : List LiveEvent) : Prop :=
  s.Throughout (fun s event => s.workspace.IsSole s.environment.disk u ∧ (s.after event).fileOf u = s.fileOf u)
    events ∧ (s.run events).workspace.IsSole (s.run events).environment.disk u

instance (u : Url) (s : LiveWorkspace) : DecidablePred (s.StaysSole u) :=
  fun _ => inferInstanceAs (Decidable (_ ∧ _))

variable {s : LiveWorkspace} {u : Url} {events : List LiveEvent}

lemma StaysSole.shadows (h : s.StaysSole u events) (hs : s.workspace.Shadows s.environment.disk u) :
    (s.run events).workspace.Shadows (s.run events).environment.disk u := by
  induction events generalizing s with
  | nil => exact hs
  | cons event later ih =>
    obtain ⟨⟨⟨hsole, hname⟩, hlater⟩, hlast⟩ := h
    have hsole' : (s.after event).workspace.IsSole (s.after event).environment.disk u := by
      cases later with
      | nil => exact hlast
      | cons => exact hlater.1.1
    refine ih ⟨hlater, hlast⟩ ?_
    cases event with
    | workspace event => exact hs.after hsole hsole'
    | disk next =>
      obtain ⟨t, hopen, hbuffer⟩ := hs
      exact ⟨t, hopen, (congrArg s.workspace.cache.buffer? hname).trans hbuffer⟩

/-- A document is opened and stays open as the only one of its file, to which its URL leads; the names on the
disk and in the search roots are texts. Then a walk visits the file under the identity that the URL gives it,
at most once and with the text of the document, in every cache that has the buffer of the workspace for it. No
other identity leads there, unless the walk starts with one. The walk does visit the file if it starts with it,
or if the first candidate for an import of a visited file leads there, where the candidates before that one have
no entry in the cache and lead to no file. -/
theorem visits_opened (before : LiveWorkspace) (u : Url) (first : Text) (version : Int) (events : List LiveEvent)
    (hevents : (before.after (.workspace (.told (.opened u first version)))).StaysSole u events) :
    let s := (before.after (.workspace (.told (.opened u first version)))).run events
    ∀ (p : Path) (loc : Location) (scope : ImportScope) (c : SourceCache) (start : FileId),
      s.environment.disk.IsTextual → (∀ root ∈ scope.roots, Text.IsUtf8 root.bytes) →
      u.toPath? = some p → s.environment.disk.locate? p = .ok loc →
      c.buffer? (s.fileOf u) = s.workspace.cache.buffer? (s.fileOf u) →
      let visited := (ImportWalk.visits s.environment scope c start).1
      ∃ t, s.workspace.openText? u = some t ∧ (visited.map Visit.key).Nodup ∧
        (∀ source, .file (s.fileOf u) source ∈ visited → source = Source.ofText t) ∧
        (∀ f source, .file f source ∈ visited → f.location? s.environment.disk = some loc →
          f = start ∨ f = s.fileOf u) ∧
        (start = s.fileOf u → .file (s.fileOf u) (Source.ofText t) ∈ visited) ∧
        ∀ f source text, .file f source ∈ visited → .resource text ∈ Import.ofSource source →
          ImportWalk.LeadsTo s.environment scope.roots c f text loc →
          .file (s.fileOf u) (Source.ofText t) ∈ visited := by
  intro s p loc scope c start hd hroots hp hl hc visited
  obtain ⟨t, hopen, hbuffer⟩ : s.workspace.Shadows s.environment.disk u :=
    hevents.shadows (Workspace.shadows_opened _ _ u first version)
  have hid : s.fileOf u = FileId.ofLocation loc := by
    rw [fileOf, FileId.ofUrl, hp]
    exact FileId.ofPath_of_locate? hl
  have hb : c.buffer? (s.fileOf u) = some (Source.ofText t) := hc.trans hbuffer
  rw [hid] at hb ⊢
  exact ⟨t, hopen, ImportWalk.nodup_visits s.environment scope c start,
    ImportWalk.visits_of_buffer scope start hd hroots hb⟩

private def documentAt (path : String) : Url :=
  ⟨"file".toList, some ⟨[], none, none⟩, path.toList, none, none⟩

/-- A resource in a directory `/a`, to which `/l` is a link. -/
private def linkedResource (content : String) : Disk :=
  ⟨[([], .directory), ([Text.encode ['a']], .directory),
    ([Text.encode ['a'], Text.encode ['r']], .file (Text.encode content.toList) 1),
    ([Text.encode ['l']], .link (Text.encode ['a']))]⟩

private def importingTwice : Text :=
  "*** Settings ***\nResource  ${CURDIR}/../l//./r\nResource  r\n*** Test Cases ***\nT  ".toList

/-- The document is opened through the link, and the file is imported by two other ways. -/
theorem visits_opened_linked :
    let before := (initialized ⟨linkedResource "old", []⟩ none none).after
      (.workspace (.told (.opened (documentAt "/a/m") importingTwice 1)))
    let s := (before.after (.workspace (.told (.opened (documentAt "/l/r") "first".toList 1)))).run
      [.workspace (.asked (documentAt "/a/m") ⟨4, 3⟩), .disk (linkedResource "newer"),
        .workspace (.told (.saved (documentAt "/l/r") (some "saved".toList)))]
    let visited := (ImportWalk.visits s.environment ⟨[], false⟩ s.workspace.cache ⟨"/a/m".toList⟩).1
    s.fileOf (documentAt "/l/r") = ⟨"/a/r".toList⟩ ∧ (visited.map Visit.key).Nodup ∧
      .file ⟨"/a/r".toList⟩ (Source.ofText "saved".toList) ∈ visited := by
  intro before s visited
  have hid : s.fileOf (documentAt "/l/r") = ⟨"/a/r".toList⟩ := by decide +kernel
  have htext : s.workspace.openText? (documentAt "/l/r") = some "saved".toList := by decide +kernel
  have hleads : ImportWalk.LeadsTo s.environment [] s.workspace.cache ⟨"/a/m".toList⟩
      "${CURDIR}/../l//./r".toList [Text.encode ['a'], Text.encode ['r']] :=
    ⟨[], Path.ofText "/a/r".toList, [], by decide +kernel, nofun, by decide +kernel⟩
  obtain ⟨t, ht, hnodup, -, -, -, hvisited⟩ := visits_opened before (documentAt "/l/r") "first".toList 1
    [.workspace (.asked (documentAt "/a/m") ⟨4, 3⟩), .disk (linkedResource "newer"),
      .workspace (.told (.saved (documentAt "/l/r") (some "saved".toList)))]
    (by decide +kernel) (Path.ofText "/l/r".toList) [Text.encode ['a'], Text.encode ['r']] ⟨[], false⟩
    s.workspace.cache ⟨"/a/m".toList⟩ (by decide +kernel) nofun rfl (by decide +kernel) rfl
  rw [htext, Option.some.injEq] at ht
  have hfile := hvisited ⟨"/a/m".toList⟩ (Source.ofText importingTwice) "${CURDIR}/../l//./r".toList
    (by decide +kernel) (by decide +kernel) hleads
  rw [hid, ← ht] at hfile
  exact ⟨hid, hnodup, hfile⟩

/-- A resource in each of two directories, of which the first one may be gone. -/
private def resources (first : Option String) : Disk :=
  ⟨[([], .directory), ([Text.encode ['a']], .directory), ([Text.encode ['b']], .directory),
    ([Text.encode ['b'], Text.encode ['r']], .file (Text.encode "on disk".toList) 1)] ++
    first.toList.map fun content =>
      ([Text.encode ['a'], Text.encode ['r']], .file (Text.encode content.toList) 1)⟩

/-- The first candidate for an import was loaded and is gone, and the second one is open. The import still
resolves to the snapshot of the first one, which cannot be loaded. -/
theorem visits_opened_missed :
    let importing := "*** Settings ***\nResource  r\n*** Test Cases ***\nT  ".toList
    let s := (initialized ⟨resources (some "first"), []⟩ none (some [documentAt "/b"])).run
      [.workspace (.told (.opened (documentAt "/a/m") importing 1)),
        .workspace (.asked (documentAt "/a/m") ⟨3, 3⟩), .disk (resources none),
        .workspace (.told (.opened (documentAt "/b/r") "edited".toList 1))]
    let first := Path.ofText "/a/r".toList
    let second := Path.ofText "/b/r".toList
    let visited := (ImportWalk.visits s.environment ⟨s.workspace.searchRoots, false⟩ s.workspace.cache
      (s.fileOf (documentAt "/a/m"))).1
    s.workspace.IsSole s.environment.disk (documentAt "/b/r") ∧ s.environment.disk.IsTextual ∧
      Import.ofSource (Source.ofText importing) = [.resource ['r']] ∧
      Import.candidates s.environment s.workspace.searchRoots (Path.ofText "/a/m".toList) ['r'] = [first, second] ∧
      ImportWalk.isOpenOrOnDisk s.environment s.workspace.cache first = false ∧
      s.environment.disk.leadsToFile first = false ∧ s.environment.disk.leadsToFile second = true ∧
      s.workspace.cache.buffer? (s.fileOf (documentAt "/b/r")) = some (Source.ofText "edited".toList) ∧
      visited = [.file (s.fileOf (documentAt "/a/m")) (Source.ofText importing)] := by
  decide +kernel

end LiveWorkspace

end KeywordCompletion
