import KeywordCompletion.Proofs.Completion.Caches
import KeywordCompletion.Proofs.Disk.Trees
import KeywordCompletion.Proofs.SourceCache.FixedDisk
import KeywordCompletion.Workspace.Basic

/-!
# Completion does not depend on history

The text of an open document is kept twice, as a document and as a buffer of the cache. `Synced` ties
the two to each other, and the rest of the cache to the disk; every message, every completion and every
file that is indexed keeps it. So what completion gives depends on the texts that are open and on the
disk: `complete_of_same_texts`. Identities that name another file than the path they were made of
break this: `complete_ne_of_indexing`.
-/

namespace KeywordCompletion

/-- What happens to a workspace: a message, a completion, or a file is indexed. -/
inductive WorkspaceEvent where
  | told (message : EditorMessage)
  | asked (uri : Url) (p : Position)
  | indexing (p : Path)

/-- Whether an event opens documents with these URLs only, leaves the settings alone, and indexes files
that are to be indexed. -/
def WorkspaceEvent.IsAllowed (d : Disk) (s : IndexingSettings) (roots : List Path) (uris : List Url) :
    WorkspaceEvent → Prop
  | told (.opened uri _ _) => uri ∈ uris
  | told (.configured _) => False
  | indexing p => p ∈ Indexing.eligibleFiles d s roots
  | _ => True

instance (d : Disk) (s : IndexingSettings) (roots : List Path) (uris : List Url) :
    DecidablePred (WorkspaceEvent.IsAllowed d s roots uris)
  | .told (.opened uri _ _) => inferInstanceAs (Decidable (uri ∈ uris))
  | .told (.configured _) => isFalse id
  | .told (.changed _ _ _) | .told (.saved _ _) | .told (.closed _) | .told .ready => isTrue trivial
  | .asked _ _ => isTrue trivial
  | .indexing p => inferInstanceAs (Decidable (p ∈ Indexing.eligibleFiles d s roots))

/-- Whether the identity of every file to be indexed names that file. -/
def Indexing.IsFaithful (d : Disk) (s : IndexingSettings) (roots : List Path) : Prop :=
  ∀ p ∈ eligibleFiles d s roots, (FileId.ofPath d p).fileOn? d = d.fileAt? p

instance (d : Disk) (s : IndexingSettings) (roots : List Path) :
    Decidable (Indexing.IsFaithful d s roots) := List.decidableBAll _ _

lemma Indexing.length_le_of_mem_eligibleFiles {d : Disk} (hd : d.IsRegular) {s : IndexingSettings}
    {roots : List Path} {p : Path} (hp : p ∈ eligibleFiles d s roots) {content : Bytes} {modified : Int}
    (hfile : d.fileAt? p = some (content, modified)) : content.length ≤ s.maxFileSize := by
  rw [eligibleFiles, List.mem_eraseDups] at hp
  obtain ⟨entry, hentry, rfl⟩ := List.mem_map.1 hp
  obtain ⟨hmem, heligible⟩ := List.mem_filter.1 hentry
  obtain ⟨root, _, htree⟩ := List.mem_flatMap.1 hmem
  have hl : d.locate? entry.path = .ok entry.location := Disk.isLocated_of_mem_tree hd htree
  have hnormal : entry.path.normalized d = Path.ofNames entry.location := by
    simp [Path.normalized, Disk.realPath, hl, Except.map]
  rw [hnormal] at hfile
  obtain ⟨_, at_, hat, hnode⟩ := Disk.fileAt?_eq_some_iff_exists.1 hfile
  rw [Disk.locate?_ofNames hd (Disk.reaches_of_locate? hl)] at hat
  cases hat
  simp only [isEligible, hnode, Bool.and_eq_true, decide_eq_true_eq] at heligible
  exact heligible.2

namespace Workspace

/-- The workspace after an event. -/
def after (e : Environment) (w : Workspace) : WorkspaceEvent → Workspace
  | .told message => (w.receive e.disk message).1
  | .asked uri p => (w.complete e uri p).2
  | .indexing p => { w with cache := Indexing.indexFile e.disk w.cache p }

/-- The workspace after events. -/
def run (e : Environment) (w : Workspace) (events : List WorkspaceEvent) : Workspace :=
  events.foldl (after e) w

/-- The text of an open document. -/
def openText? (w : Workspace) (uri : Url) : Option Text := (w.documents.get? uri).map Document.text

/-- Whether the buffers of a workspace are the texts of its open documents, and the rest of its cache is
what is on disk, under the settings and the roots it started with. -/
structure Synced (e : Environment) (start : Workspace) (uris : List Url)
    (buffers : FileId → Option Text) (w : Workspace) : Prop where
  settings_eq : w.settings = start.settings
  roots_eq : w.roots = start.roots
  open_mem : ∀ uri, (w.openText? uri).isSome → uri ∈ uris
  buffer : ∀ uri t, w.openText? uri = some t → buffers (FileId.ofUrl e.disk uri) = some t
  document : ∀ f t, buffers f = some t →
    ∃ uri, w.openText? uri = some t ∧ FileId.ofUrl e.disk uri = f
  mirrors : w.cache.Mirrors e.disk buffers start.settings.indexing.maxFileSize

variable {e : Environment} {start w : Workspace} {uris : List Url} {buffers : FileId → Option Text}

lemma synced_initialized (e : Environment) (payload : Option Json) (roots : Option (List Url))
    (uris : List Url) :
    Synced e (initial.initialized payload roots) uris (fun _ => none)
      (initial.initialized payload roots) := by
  refine ⟨rfl, rfl, ?_, ?_, ?_, SourceCache.mirrors_empty e.disk _⟩
  · intro uri h
    cases h
  · intro uri t h
    cases h
  · intro f t h
    cases h

lemma Synced.with_cache (h : Synced e start uris buffers w) {c : SourceCache}
    (hc : c.Mirrors e.disk buffers start.settings.indexing.maxFileSize) :
    Synced e start uris buffers { w with cache := c } :=
  ⟨h.settings_eq, h.roots_eq, h.open_mem, h.buffer, h.document, hc⟩

/-- The workspace stays synced when a document and its buffer get the same text. -/
lemma Synced.put (h : Synced e start uris buffers w)
    (hids : ∀ u ∈ uris, ∀ v ∈ uris, FileId.ofUrl e.disk u = FileId.ofUrl e.disk v → u = v)
    {uri : Url} (huri : uri ∈ uris) {documents : OpenDocuments} {document : Document}
    (hself : documents.get? uri = some document)
    (hother : ∀ u, u ≠ uri → documents.get? u = w.documents.get? u) :
    Synced e start uris
      (fun f => if FileId.ofUrl e.disk uri = f then some document.text else buffers f)
      { w with documents, cache := w.cache.update (FileId.ofUrl e.disk uri) document.text } := by
  have hkeep : ∀ u, u ≠ uri → (documents.get? u).map Document.text = w.openText? u := by
    intro u hu
    rw [hother u hu]
    rfl
  refine ⟨h.settings_eq, h.roots_eq, ?_, ?_, ?_, h.mirrors.update _ _⟩
  · intro u hu
    by_cases hne : u = uri
    · rw [hne]
      exact huri
    · refine h.open_mem u ?_
      rw [← hkeep u hne]
      exact hu
  · intro u t hu
    change (documents.get? u).map Document.text = some t at hu
    by_cases hne : u = uri
    · rw [hne, hself] at hu
      rw [hne, if_pos rfl]
      exact hu
    · rw [hkeep u hne] at hu
      have hu' : u ∈ uris := h.open_mem u (by simp [hu])
      rw [if_neg fun he => hne (hids u hu' uri huri he.symm)]
      exact h.buffer u t hu
  · intro f t hf
    split at hf
    · rename_i he
      refine ⟨uri, ?_, he⟩
      change (documents.get? uri).map Document.text = some t
      rw [hself]
      exact hf
    · rename_i he
      obtain ⟨u, hu, hid⟩ := h.document f t hf
      refine ⟨u, ?_, hid⟩
      change (documents.get? u).map Document.text = some t
      rw [hkeep u (by rintro rfl; exact he hid)]
      exact hu

lemma Synced.closed (h : Synced e start uris buffers w)
    (hids : ∀ u ∈ uris, ∀ v ∈ uris, FileId.ofUrl e.disk u = FileId.ofUrl e.disk v → u = v)
    (uri : Url) : ∃ buffers', Synced e start uris buffers' (w.closed e.disk uri) := by
  unfold Workspace.closed
  split
  · rename_i document hdocument
    have huri : uri ∈ uris := h.open_mem uri (by simp [openText?, hdocument])
    have hself : (w.documents.closed uri).get? uri = none := Catalog.get?_erase_self _ _
    have hother : ∀ u, u ≠ uri → ((w.documents.closed uri).get? u).map Document.text = w.openText? u := by
      intro u hu
      exact congrArg (Option.map Document.text) (Catalog.get?_erase_of_ne w.documents.documents hu)
    refine ⟨_, h.settings_eq, h.roots_eq, ?_, ?_, ?_, h.mirrors.remove (FileId.ofUrl e.disk uri)⟩
    · intro u hu
      change (((w.documents.closed uri).get? u).map Document.text).isSome at hu
      by_cases hne : u = uri
      · rw [hne]
        exact huri
      · rw [hother u hne] at hu
        exact h.open_mem u hu
    · intro u t hu
      change ((w.documents.closed uri).get? u).map Document.text = some t at hu
      by_cases hne : u = uri
      · rw [hne, hself] at hu
        cases hu
      · rw [hother u hne] at hu
        have hu' : u ∈ uris := h.open_mem u (by simp [hu])
        rw [if_neg fun he => hne (hids u hu' uri huri he.symm)]
        exact h.buffer u t hu
    · intro f t hf
      split at hf
      · cases hf
      · rename_i he
        obtain ⟨u, hu, hid⟩ := h.document f t hf
        refine ⟨u, ?_, hid⟩
        change ((w.documents.closed uri).get? u).map Document.text = some t
        rw [hother u (by rintro rfl; exact he hid)]
        exact hu
  · exact ⟨buffers, h⟩

/-- The workspace stays synced when it follows a change to one of its open documents. -/
lemma Synced.follow (h : Synced e start uris buffers w)
    (hids : ∀ u ∈ uris, ∀ v ∈ uris, FileId.ofUrl e.disk u = FileId.ofUrl e.disk v → u = v)
    {uri : Url} {documents : OpenDocuments}
    (hopen : (documents.get? uri).isSome → (w.documents.get? uri).isSome)
    (hother : ∀ u, u ≠ uri → documents.get? u = w.documents.get? u) :
    ∃ buffers', Synced e start uris buffers' (w.follow e.disk uri documents) := by
  unfold Workspace.follow
  split
  · rename_i document hdocument
    have huri : uri ∈ uris := by
      refine h.open_mem uri ?_
      rw [openText?, Option.isSome_map]
      exact hopen (by simp [hdocument])
    exact ⟨_, h.put hids huri hdocument hother⟩
  · exact ⟨buffers, h⟩

lemma isSome_get?_changed (store : OpenDocuments) (uri : Url) (changes : List Change) (version : Int) :
    ((store.changed uri changes version).get? uri).isSome = (store.get? uri).isSome := by
  unfold OpenDocuments.changed
  split
  · rename_i d hd
    simp [OpenDocuments.get?] at hd ⊢
    simp [hd]
  · rfl

lemma get?_changed_of_ne (store : OpenDocuments) {uri u : Url} (h : u ≠ uri) (changes : List Change)
    (version : Int) : (store.changed uri changes version).get? u = store.get? u := by
  unfold OpenDocuments.changed
  split
  · exact Catalog.get?_insert_of_ne _ h _
  · rfl

lemma isSome_get?_saved (store : OpenDocuments) (uri : Url) (t : Option Text) :
    ((store.saved uri t).get? uri).isSome = (store.get? uri).isSome := by
  unfold OpenDocuments.saved
  split
  · rename_i d hd
    simp [OpenDocuments.get?] at hd ⊢
    simp [hd]
  · rfl

lemma get?_saved_of_ne (store : OpenDocuments) {uri u : Url} (h : u ≠ uri) (t : Option Text) :
    (store.saved uri t).get? u = store.get? u := by
  unfold OpenDocuments.saved
  split
  · exact Catalog.get?_insert_of_ne _ h _
  · rfl

/-- Indexing a file keeps a cache a mirror of the disk, if its identity names that file. -/
lemma mirrors_indexFile {s : IndexingSettings} {roots : List Path} (hd : e.disk.IsRegular)
    (hfaithful : Indexing.IsFaithful e.disk s roots)
    {c : SourceCache} (h : c.Mirrors e.disk buffers s.maxFileSize) {p : Path}
    (hp : p ∈ Indexing.eligibleFiles e.disk s roots) :
    (Indexing.indexFile e.disk c p).Mirrors e.disk buffers s.maxFileSize := by
  unfold Indexing.indexFile
  cases ht : e.disk.readText p with
  | error reason => exact h
  | ok t =>
    obtain ⟨content, modified, hfile, hd'⟩ := Disk.exists_fileAt?_of_readText ht
    have hlength := Indexing.length_le_of_mem_eligibleFiles hd hp hfile
    obtain rfl := Text.decode?_eq_some_iff.1 hd'
    rw [Text.length_encode] at hlength
    exact h.insertIfAbsent ((hfaithful p hp).trans hfile) hlength

lemma mirrors_index {s : IndexingSettings} {roots : List Path} (hd : e.disk.IsRegular)
    (hfaithful : Indexing.IsFaithful e.disk s roots)
    {c : SourceCache} (h : c.Mirrors e.disk buffers s.maxFileSize) :
    (Indexing.index e.disk s roots c).Mirrors e.disk buffers s.maxFileSize := by
  unfold Indexing.index
  refine List.foldlRecOn (Indexing.eligibleFiles e.disk s roots) (Indexing.indexFile e.disk) h ?_
  intro c hc p hp
  exact mirrors_indexFile hd hfaithful hc hp

lemma Synced.buffer?_of_openText? (h : Synced e start uris buffers w) {uri : Url} {t : Text}
    (ht : w.openText? uri = some t) :
    w.cache.buffer? (FileId.ofUrl e.disk uri) = some (Source.ofText t) := by
  rw [h.mirrors.buffer?_eq, h.buffer uri t ht]
  rfl

lemma Synced.complete (h : Synced e start uris buffers w) (uri : Url) (p : Position) :
    Synced e start uris buffers (w.complete e uri p).2 := by
  have hl : SourceCache.Loads e.disk w.cache (w.complete e uri p).2.cache := by
    change SourceCache.Loads e.disk w.cache (Completion.items (w.completionContext e)
      w.settings.completion.enabled (FileId.ofUrl e.disk uri) (w.documents.get? uri) p w.cache).2
    cases hd : w.documents.get? uri with
    | none => exact .refl
    | some document =>
      have hb := h.buffer?_of_openText? (show w.openText? uri = some document.text by
        rw [openText?, hd, Option.map_some])
      exact Completion.loads_items (w.completionContext e) _ p hb
  exact h.with_cache (h.mirrors.loads hl)

/-- Every event keeps a workspace synced. -/
theorem Synced.after (h : Synced e start uris buffers w) (hdisk : e.disk.IsRegular)
    (hids : ∀ u ∈ uris, ∀ v ∈ uris, FileId.ofUrl e.disk u = FileId.ofUrl e.disk v → u = v)
    (hfaithful : Indexing.IsFaithful e.disk start.settings.indexing start.searchRoots)
    {event : WorkspaceEvent}
    (hevent : event.IsAllowed e.disk start.settings.indexing start.searchRoots uris) :
    ∃ buffers', Synced e start uris buffers' (w.after e event) := by
  cases event with
  | asked uri p => exact ⟨buffers, h.complete uri p⟩
  | indexing p => exact ⟨buffers, h.with_cache (mirrors_indexFile hdisk hfaithful h.mirrors hevent)⟩
  | told message =>
    cases message with
    | opened uri t version =>
      have hself : (w.documents.opened uri t version).get? uri = some (Document.ofText t version) :=
        Catalog.get?_insert_self _ _ _
      exact ⟨_, h.put hids hevent hself fun u hu => Catalog.get?_insert_of_ne _ hu _⟩
    | changed uri changes version =>
      change ∃ buffers', Synced e start uris buffers' (w.changed e.disk uri changes version).1
      unfold Workspace.changed
      split
      · refine h.follow hids ?_ fun u hu => get?_changed_of_ne w.documents hu changes version
        rw [isSome_get?_changed]
        exact id
      · exact ⟨buffers, h⟩
    | saved uri t =>
      refine h.follow hids ?_ fun u hu => get?_saved_of_ne w.documents hu t
      rw [isSome_get?_saved]
      exact id
    | closed uri => exact h.closed hids uri
    | configured payload => exact absurd hevent id
    | ready =>
      change ∃ buffers', Synced e start uris buffers' (w.indexed e.disk).1
      unfold Workspace.indexed
      split
      · split
        · exact ⟨buffers, h⟩
        · refine ⟨buffers, h.settings_eq, h.roots_eq, h.open_mem, h.buffer, h.document, ?_⟩
          have hroots : w.searchRoots = start.searchRoots := by
            rw [searchRoots, h.roots_eq]
            rfl
          dsimp only
          rw [h.settings_eq, hroots]
          exact mirrors_index hdisk hfaithful h.mirrors
      · exact ⟨buffers, h⟩

/-- Every run keeps a workspace synced. -/
theorem Synced.run (h : Synced e start uris buffers w) (hdisk : e.disk.IsRegular)
    (hids : ∀ u ∈ uris, ∀ v ∈ uris, FileId.ofUrl e.disk u = FileId.ofUrl e.disk v → u = v)
    (hfaithful : Indexing.IsFaithful e.disk start.settings.indexing start.searchRoots)
    {events : List WorkspaceEvent}
    (hevents : ∀ event ∈ events,
      event.IsAllowed e.disk start.settings.indexing start.searchRoots uris) :
    ∃ buffers', Synced e start uris buffers' (w.run e events) := by
  refine List.foldlRecOn (motive := fun w => ∃ buffers', Synced e start uris buffers' w)
    events (Workspace.after e) ⟨buffers, h⟩ ?_
  rintro w ⟨buffers', h'⟩ event hevent
  exact h'.after hdisk hids hfaithful (hevents event hevent)

lemma openText?_congr {w' : Workspace}
    (h : w'.documents.documents.entries.map (fun entry => (entry.1, entry.2.text)) =
      w.documents.documents.entries.map fun entry => (entry.1, entry.2.text)) (uri : Url) :
    w'.openText? uri = w.openText? uri := by
  have hfind : ∀ w : Workspace, w.openText? uri =
      ((w.documents.documents.entries.map fun entry => (entry.1, entry.2.text)).find?
        fun entry => entry.1 == uri).map Prod.snd := by
    intro w
    simp [openText?, OpenDocuments.get?, Catalog.get?, List.find?_map, Function.comp_def]
  rw [hfind, hfind, h]

lemma Synced.buffers_eq {w' : Workspace} {buffers' : FileId → Option Text}
    (h : Synced e start uris buffers w) (h' : Synced e start uris buffers' w')
    (htexts : ∀ uri, w'.openText? uri = w.openText? uri) : buffers' = buffers := by
  funext f
  refine Option.ext fun t => ⟨?_, ?_⟩
  · intro hf
    obtain ⟨uri, hopen, rfl⟩ := h'.document f t hf
    rw [htexts] at hopen
    exact h.buffer uri t hopen
  · intro hf
    obtain ⟨uri, hopen, rfl⟩ := h.document f t hf
    rw [← htexts] at hopen
    exact h'.buffer uri t hopen

/-- Synced workspaces with the same open texts give the same items, if the imports of the visited files
pass over no candidate that bears the identity of a file. -/
lemma Synced.complete_eq {w' : Workspace} {buffers' : FileId → Option Text}
    (h : Synced e start uris buffers w) (h' : Synced e start uris buffers' w')
    (htexts : ∀ uri, w'.openText? uri = w.openText? uri) (uri : Url) (p : Position)
    (hnameless : ∀ v ∈ (ImportWalk.visits e (w.completionContext e).scope w.cache
      (FileId.ofUrl e.disk uri)).1, v.PassesOver e.disk.IsNameless e w.searchRoots w.cache) :
    (w'.complete e uri p).1 = (w.complete e uri p).1 := by
  obtain rfl := h.buffers_eq h' htexts
  have hcontext : w'.completionContext e = w.completionContext e := by
    rw [completionContext, completionContext, searchRoots, searchRoots, h.settings_eq, h'.settings_eq,
      h.roots_eq, h'.roots_eq]
  have hvacant : ∀ v ∈ (ImportWalk.visits e (w.completionContext e).scope w.cache
      (FileId.ofUrl e.disk uri)).1,
      v.PassesOver (ImportWalk.IsVacant e w.cache) e w.searchRoots w.cache := by
    intro v hv
    refine (hnameless v hv).imp fun q hq => ⟨?_, hq⟩
    rintro ⟨source, stamp, hs⟩
    obtain ⟨modified, hfile, _⟩ := h.mirrors.fileOn?_of_lookup? hs
    rw [Disk.IsNameless, hfile] at hq
    cases hq
  have hopen := htexts uri
  unfold openText? at hopen
  simp only [Workspace.complete, hcontext, h.settings_eq, h'.settings_eq]
  cases hd : w.documents.get? uri with
  | none =>
    rw [hd, Option.map_none, Option.map_eq_none_iff] at hopen
    rw [hopen]
    rfl
  | some document =>
    rw [hd, Option.map_some, Option.map_eq_some_iff] at hopen
    obtain ⟨document', hd', htext⟩ := hopen
    have hb := h.buffer?_of_openText? (show w.openText? uri = some document.text by
      rw [openText?, hd, Option.map_some])
    rw [hd']
    exact Completion.items_of_refreshes _ htext p (h.mirrors.refreshes h'.mirrors) hb hvacant

/-- Two runs from the same start over the same disk, in whatever order messages, completions and the
files that are indexed come, give the same items wherever they have the same texts open. The identity of
a file that is indexed must name that file, and the imports of the visited files must pass over no path
that leads to no file while its identity names one. -/
theorem complete_of_same_texts (e : Environment) (payload : Option Json) (roots : Option (List Url))
    (uris : List Url) (events events' : List WorkspaceEvent) (hdisk : e.disk.IsRegular)
    (hids : ∀ u ∈ uris, ∀ v ∈ uris, FileId.ofUrl e.disk u = FileId.ofUrl e.disk v → u = v)
    (hfaithful : Indexing.IsFaithful e.disk (initial.initialized payload roots).settings.indexing
      (initial.initialized payload roots).searchRoots)
    (hevents : ∀ event ∈ events ++ events', event.IsAllowed e.disk
      (initial.initialized payload roots).settings.indexing
      (initial.initialized payload roots).searchRoots uris) :
    let w := (initial.initialized payload roots).run e events
    let w' := (initial.initialized payload roots).run e events'
    (∀ uri, w'.openText? uri = w.openText? uri) → ∀ uri p,
      (∀ v ∈ (ImportWalk.visits e (w.completionContext e).scope w.cache (FileId.ofUrl e.disk uri)).1,
        v.PassesOver e.disk.IsNameless e w.searchRoots w.cache) →
      (w'.complete e uri p).1 = (w.complete e uri p).1 := by
  intro w w' htexts uri p hnameless
  have hstart := synced_initialized e payload roots uris
  obtain ⟨buffers, h⟩ := hstart.run hdisk hids hfaithful fun event hmem =>
    hevents event (List.mem_append_left _ hmem)
  obtain ⟨buffers', h'⟩ := hstart.run hdisk hids hfaithful fun event hmem =>
    hevents event (List.mem_append_right _ hmem)
  exact h.complete_eq h' htexts uri p hnameless

/-- A disk with a resource below a directory. -/
private def resourceBelow (directory : Text) : Environment :=
  ⟨⟨[([], .directory), ([Text.encode ['w']], .directory),
    ([Text.encode ['w'], Text.encode directory], .directory),
    ([Text.encode ['w'], Text.encode directory, Text.encode "r.robot".toList],
      .file (Text.encode "*** Keywords ***\nOne".toList) 1)]⟩, []⟩

private def fileUrl (path : String) : Url :=
  ⟨"file".toList, some ⟨[], none, none⟩, path.toList, none, none⟩

private def withoutBuiltIn : Option Json :=
  some (.obj [("completion", .obj [("implicitBuiltIn", .bool false)])])

private def importingText : Text :=
  "*** Settings ***\nResource  r.robot\n*** Test Cases ***\nT  ".toList

/-- One run indexes first, opens a second document and closes it. The other one changes the document to
its text, asks for completion and indexes the resource afterwards. -/
theorem complete_of_same_texts_indexed :
    let e := resourceBelow "sub".toList
    let start := initial.initialized withoutBuiltIn (some [fileUrl "/w", fileUrl "/w/sub"])
    let w := start.run e [.told .ready, .told (.opened (fileUrl "/w/m.robot") importingText 1),
      .told (.opened (fileUrl "/w/n.robot") [] 1), .told (.closed (fileUrl "/w/n.robot"))]
    let w' := start.run e [.told (.opened (fileUrl "/w/m.robot") [] 1),
      .told (.changed (fileUrl "/w/m.robot") [⟨none, importingText⟩] 2),
      .asked (fileUrl "/w/m.robot") ⟨3, 3⟩, .indexing (Path.ofText "/w/sub/r.robot".toList)]
    (w.complete e (fileUrl "/w/m.robot") ⟨3, 3⟩).1.length = 1 ∧
      (w'.complete e (fileUrl "/w/m.robot") ⟨3, 3⟩).1 =
        (w.complete e (fileUrl "/w/m.robot") ⟨3, 3⟩).1 := by
  intro e start w w'
  have htexts : ∀ uri, w'.openText? uri = w.openText? uri := by
    refine openText?_congr ?_
    decide +kernel
  refine ⟨by decide +kernel, ?_⟩
  exact complete_of_same_texts e _ _ [fileUrl "/w/m.robot", fileUrl "/w/n.robot"] _ _
    (by decide +kernel) (by decide +kernel) (by decide +kernel) (by decide +kernel) htexts _ _
    (by decide +kernel)

/-- The directory `\uFFFD` is shown as the directory with the single byte `FF` is. The resource that is
looked for in that directory, where there is none, is found as soon as the other one is indexed. -/
theorem complete_ne_of_indexing :
    let e := resourceBelow ['\uFFFD']
    let start := initial.initialized withoutBuiltIn (some [fileUrl "/w", fileUrl "/w/%FF"])
    let w := start.run e [.told (.opened (fileUrl "/w/m.robot") importingText 1)]
    let w' := start.run e [.told (.opened (fileUrl "/w/m.robot") importingText 1), .told .ready]
    w'.openText? (fileUrl "/w/m.robot") = w.openText? (fileUrl "/w/m.robot") ∧
      (w'.complete e (fileUrl "/w/m.robot") ⟨3, 3⟩).1 ≠ (w.complete e (fileUrl "/w/m.robot") ⟨3, 3⟩).1 := by
  decide +kernel

end Workspace

end KeywordCompletion
