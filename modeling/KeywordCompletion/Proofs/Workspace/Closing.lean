import KeywordCompletion.Proofs.SourceCache.Snapshots
import KeywordCompletion.Proofs.Workspace.History

/-!
# Documents that are closed

A document is known by its URL, its buffer by the identity of its file, which is found anew with every
message. `Editing` lists what an event can do to both. A buffer stays as long as no document of its file
is closed (`buffer?_closed`). If files keep their identities while they are open, none is left when the
documents of its file are closed (`lookup?_of_not_open`). URLs of one file share a buffer, which goes
with the first of them that is closed: `buffer?_closed_eq_none`. A document that was opened through a
link is closed when the link is gone, but its buffer stays: `load_eq_ok_of_unlinked`.
-/

namespace KeywordCompletion

open SourceCache

/-- Whether an event may index files. -/
def WorkspaceEvent.MayIndex : WorkspaceEvent → Prop
  | told (.configured _) | told .ready | indexing _ => True
  | _ => False

instance : DecidablePred WorkspaceEvent.MayIndex
  | .told (.configured _) | .told .ready | .indexing _ => isTrue trivial
  | .told (.opened _ _ _) | .told (.changed _ _ _) | .told (.saved _ _) | .told (.closed _)
  | .asked _ _ => isFalse id

lemma CachedDisk.Coherent.loads {seen : List Disk} {buffers : FileId → Option Text} {limit : Nat}
    {d : Disk} {c after : SourceCache} (h : Coherent seen buffers limit ⟨c, d⟩) (hl : Loads d c after) :
    Coherent seen buffers limit ⟨after, d⟩ := by
  induction hl with
  | refl => exact h
  | load _ f ih => exact ih.load f

namespace Workspace

/-- The URLs of the open documents. -/
def openUrls (w : Workspace) : List Url := w.documents.documents.entries.map Prod.fst

/-- The ways in which an event can change the texts of the open documents and the cache. -/
inductive Editing (d : Disk) (w w' : Workspace) : WorkspaceEvent → Prop
  /-- Files are loaded, no more. -/
  | kept {event : WorkspaceEvent} (ht : w'.openText? = w.openText?) (hl : Loads d w.cache w'.cache) :
      Editing d w w' event
  /-- A document and the buffer of its file get the same text, and files are loaded. -/
  | put {event : WorkspaceEvent} (uri : Url) (t : Text)
      (ht : w'.openText? = Function.update w.openText? uri (some t))
      (hl : Loads d (w.cache.update (FileId.ofUrl d uri) t) w'.cache) : Editing d w w' event
  /-- An open document is closed, and the entry of its file is removed. -/
  | closed (uri : Url) (hopen : uri ∈ w.openUrls)
      (ht : w'.openText? = Function.update w.openText? uri none)
      (hc : w'.cache = w.cache.remove (FileId.ofUrl d uri)) : Editing d w w' (.told (.closed uri))
  /-- Files are indexed; the buffers that are there stay. -/
  | indexed {event : WorkspaceEvent} (hevent : event.MayIndex) (ht : w'.openText? = w.openText?)
      (hb : ∀ f source, w.cache.buffer? f = some source → w'.cache.buffer? f = some source) :
      Editing d w w' event

variable {e : Environment} {d : Disk} {w w' : Workspace} {uri v : Url} {f : FileId} {t : Text}

lemma mem_openUrls : uri ∈ w.openUrls ↔ ∃ t, w.openText? uri = some t := by
  have hsome : uri ∈ w.openUrls ↔ (w.openText? uri).isSome := by
    simp [openUrls, openText?, OpenDocuments.get?, Catalog.get?]
  rw [hsome, Option.isSome_iff_exists]

lemma mem_openUrls_of_update {x : Option Text} (ht : w'.openText? = Function.update w.openText? uri x)
    (hne : v ≠ uri) : v ∈ w'.openUrls ↔ v ∈ w.openUrls := by
  rw [mem_openUrls, mem_openUrls, ht, Function.update_of_ne hne]

lemma mem_openUrls_congr (ht : w'.openText? = w.openText?) : v ∈ w'.openUrls ↔ v ∈ w.openUrls := by
  rw [mem_openUrls, mem_openUrls, ht]

lemma openText?_eq_update {x : Option Text} (hself : (w'.documents.get? uri).map Document.text = x)
    (hother : ∀ u, u ≠ uri → w'.documents.get? u = w.documents.get? u) :
    w'.openText? = Function.update w.openText? uri x :=
  Function.eq_update_iff.2 ⟨hself, fun u hu => congrArg (Option.map Document.text) (hother u hu)⟩

lemma buffer?_indexFile {c : SourceCache} {source : Source} (h : c.buffer? f = some source) (d : Disk)
    (p : Path) : (Indexing.indexFile d c p).buffer? f = some source := by
  unfold Indexing.indexFile
  split
  · exact buffer?_insertIfAbsent h d _ _
  · exact h

lemma buffer?_indexed (d : Disk) {source : Source} (h : w.cache.buffer? f = some source) :
    (w.indexed d).1.cache.buffer? f = some source := by
  unfold Workspace.indexed
  split
  · split
    · exact h
    · refine List.foldlRecOn (motive := fun c : SourceCache => c.buffer? f = some source)
        (Indexing.eligibleFiles d w.settings.indexing w.searchRoots) (Indexing.indexFile d) h ?_
      intro c hc p _
      exact buffer?_indexFile hc d p
  · exact h

lemma openText?_indexed (d : Disk) (w : Workspace) : (w.indexed d).1.openText? = w.openText? := by
  unfold Workspace.indexed
  split
  · split <;> rfl
  · rfl

lemma editing_configured (d : Disk) (w : Workspace) (payload : Json) :
    Editing d w (w.configured d payload).1 (.told (.configured payload)) := by
  unfold Workspace.configured
  dsimp only
  split
  · exact .kept rfl .refl
  · split
    · exact .indexed trivial rfl fun _ _ hb => hb
    · exact .indexed trivial (openText?_indexed d _) fun _ _ hb => buffer?_indexed d hb

lemma editing_follow (d : Disk) (w : Workspace) {documents : OpenDocuments}
    (hother : ∀ u, u ≠ uri → documents.get? u = w.documents.get? u) {event : WorkspaceEvent} :
    Editing d w (w.follow d uri documents) event := by
  unfold Workspace.follow
  split
  · rename_i document hself
    have htext := congrArg (Option.map Document.text) hself
    exact .put uri document.text (openText?_eq_update htext hother) .refl
  · exact .kept rfl .refl

lemma cache_closed (hopen : uri ∈ w.openUrls) (d : Disk) :
    (w.closed d uri).cache = w.cache.remove (FileId.ofUrl d uri) := by
  obtain ⟨t, ht⟩ := mem_openUrls.1 hopen
  obtain ⟨document, hdocument, _⟩ := Option.map_eq_some_iff.1 ht
  simp [Workspace.closed, hdocument]

lemma openText?_closed (hopen : uri ∈ w.openUrls) (d : Disk) :
    (w.closed d uri).openText? = Function.update w.openText? uri none := by
  obtain ⟨t, ht⟩ := mem_openUrls.1 hopen
  obtain ⟨document, hdocument, _⟩ := Option.map_eq_some_iff.1 ht
  have hdocuments : (w.closed d uri).documents = w.documents.closed uri := by
    simp [Workspace.closed, hdocument]
  refine openText?_eq_update ?_ fun u hu => ?_
  · rw [hdocuments]
    exact congrArg (Option.map Document.text) (Catalog.get?_erase_self _ _)
  · rw [hdocuments]
    exact Catalog.get?_erase_of_ne _ hu

lemma editing_closed (d : Disk) (w : Workspace) (uri : Url) :
    Editing d w (w.closed d uri) (.told (.closed uri)) := by
  by_cases hopen : uri ∈ w.openUrls
  · exact .closed uri hopen (openText?_closed hopen d) (cache_closed hopen d)
  · have hnone : w.documents.get? uri = none := by
      cases hdocument : w.documents.get? uri with
      | none => rfl
      | some document =>
        exact absurd (mem_openUrls.2 ⟨document.text, by simp [openText?, hdocument]⟩) hopen
    simp only [Workspace.closed, hnone]
    exact .kept rfl .refl

lemma editing_complete (e : Environment) (w : Workspace) (uri : Url) (p : Position)
    {event : WorkspaceEvent} : Editing e.disk w (w.complete e uri p).2 event := by
  unfold Workspace.complete
  cases hdocument : w.documents.get? uri with
  | none => exact .kept rfl .refl
  | some document =>
    rcases Completion.loads_items_snapshot (w.completionContext e) w.settings.completion.enabled
      (FileId.ofUrl e.disk uri) document p w.cache with hkept | hl
    · refine .kept rfl ?_
      dsimp only
      rw [hkept]
      exact .refl
    · rcases Completion.snapshot_eq_or w.cache (FileId.ofUrl e.disk uri) document.text with hs | hs
      · rw [hs] at hl
        exact .kept rfl hl
      · rw [hs] at hl
        refine .put uri document.text ?_ hl
        have hopen : w.openText? uri = some document.text := by simp [openText?, hdocument]
        rw [← hopen, Function.update_eq_self]
        rfl

/-- Every event does one of the things that are listed. -/
theorem editing_after (e : Environment) (w : Workspace) (event : WorkspaceEvent) :
    Editing e.disk w (w.after e event) event := by
  cases event with
  | asked uri p => exact editing_complete e w uri p
  | indexing p => exact .indexed trivial rfl fun _ _ hb => buffer?_indexFile hb e.disk p
  | told message =>
    cases message with
    | opened uri t version =>
      have hself : (w.documents.opened uri t version).get? uri = some (Document.ofText t version) :=
        Catalog.get?_insert_self _ _ _
      have hother : ∀ u, u ≠ uri →
          (w.documents.opened uri t version).get? u = w.documents.get? u :=
        fun u hu => Catalog.get?_insert_of_ne _ hu _
      have htext := congrArg (Option.map Document.text) hself
      exact .put uri t (openText?_eq_update htext hother) .refl
    | changed uri changes version =>
      change Editing e.disk w (w.changed e.disk uri changes version).1 _
      unfold Workspace.changed
      split
      · exact editing_follow e.disk w fun u hu => get?_changed_of_ne w.documents hu changes version
      · exact .kept rfl .refl
    | saved uri t => exact editing_follow e.disk w fun u hu => get?_saved_of_ne w.documents hu t
    | closed uri => exact editing_closed e.disk w uri
    | configured payload => exact editing_configured e.disk w payload
    | ready =>
      exact .indexed trivial (openText?_indexed e.disk w) fun _ _ hb => buffer?_indexed e.disk hb

/-- Whether an open document of a file has a text. -/
def IsOpenAs (d : Disk) (w : Workspace) (f : FileId) (t : Text) : Prop :=
  ∃ uri, w.openText? uri = some t ∧ FileId.ofUrl d uri = f

/-- Whether every buffer has the text of an open document of its file, and every other entry is a
snapshot of a file on one of the disks that were seen. -/
def OwnsBuffers (seen : List Disk) (d : Disk) (w : Workspace) : Prop :=
  ∃ buffers limit, CachedDisk.Coherent seen buffers limit ⟨w.cache, d⟩ ∧
    ∀ f t, buffers f = some t → w.IsOpenAs d f t

/-- Whether the file of a document, if it is open, has a buffer with the text of an open document of
that file. -/
def Backs (d : Disk) (w : Workspace) (v : Url) : Prop :=
  v ∈ w.openUrls → ∃ t, w.cache.buffer? (FileId.ofUrl d v) = some (Source.ofText t) ∧
    w.IsOpenAs d (FileId.ofUrl d v) t

/-- Whether an event closes no other document of the file of a document while that one is open. -/
def SparesBuffer (d : Disk) (w : Workspace) (v : Url) : WorkspaceEvent → Prop
  | .told (.closed u) =>
    u ∈ w.openUrls → v ∈ w.openUrls → u ≠ v → FileId.ofUrl d u ≠ FileId.ofUrl d v
  | _ => True

instance (d : Disk) (w : Workspace) (v : Url) : DecidablePred (w.SparesBuffer d v)
  | .told (.closed _) => inferInstanceAs (Decidable (_ → _ → _ → _))
  | .told (.opened _ _ _) | .told (.changed _ _ _) | .told (.saved _ _) | .told (.configured _)
  | .told .ready | .asked _ _ | .indexing _ => isTrue trivial

lemma IsOpenAs.congr (h : w.IsOpenAs d f t) (ht : w'.openText? = w.openText?) :
    w'.IsOpenAs d f t := by
  obtain ⟨uri, hopen, hf⟩ := h
  exact ⟨uri, (congrFun ht uri).trans hopen, hf⟩

/-- What happens to a document of another file makes no difference to a file. -/
lemma IsOpenAs.update (h : w.IsOpenAs d f t) (hf : FileId.ofUrl d uri ≠ f) {x : Option Text}
    (ht : w'.openText? = Function.update w.openText? uri x) : w'.IsOpenAs d f t := by
  obtain ⟨u, hopen, rfl⟩ := h
  refine ⟨u, ?_, rfl⟩
  rw [ht, Function.update_of_ne (by rintro rfl; exact hf rfl)]
  exact hopen

lemma isOpenAs_of_put (ht : w'.openText? = Function.update w.openText? uri (some t)) :
    w'.IsOpenAs d (FileId.ofUrl d uri) t :=
  ⟨uri, by rw [ht, Function.update_self], rfl⟩

/-- Documents whose files keep their identities are open as they were. -/
lemma IsOpenAs.of_ofUrl_eq {next : Disk} (h : w.IsOpenAs d f t)
    (hnext : ∀ uri ∈ w.openUrls, FileId.ofUrl next uri = FileId.ofUrl d uri) :
    w.IsOpenAs next f t := by
  obtain ⟨uri, hopen, hf⟩ := h
  exact ⟨uri, hopen, (hnext uri (mem_openUrls.2 ⟨t, hopen⟩)).trans hf⟩

/-- An event that indexes nothing leaves no buffer without a document. -/
theorem OwnsBuffers.after {seen : List Disk} (h : w.OwnsBuffers seen e.disk) {event : WorkspaceEvent}
    (hevent : ¬ event.MayIndex) : (w.after e event).OwnsBuffers seen e.disk := by
  have hediting := editing_after e w event
  generalize w.after e event = w' at hediting ⊢
  obtain ⟨buffers, limit, hc, hopen⟩ := h
  cases hediting with
  | kept ht hl => exact ⟨buffers, limit, hc.loads hl, fun f t hf => (hopen f t hf).congr ht⟩
  | put uri t ht hl =>
    refine ⟨_, limit, (hc.update (FileId.ofUrl e.disk uri) t).loads hl, ?_⟩
    intro f u hf
    simp only [CacheEvent.bufferAfter] at hf
    split at hf
    · rename_i hid
      cases hf
      subst hid
      exact isOpenAs_of_put ht
    · rename_i hid
      exact (hopen f u hf).update hid ht
  | closed uri _ ht hremoved =>
    rw [OwnsBuffers, hremoved]
    refine ⟨_, limit, hc.remove (FileId.ofUrl e.disk uri), ?_⟩
    intro f u hf
    simp only [CacheEvent.bufferAfter] at hf
    split at hf
    · cases hf
    · rename_i hid
      exact (hopen f u hf).update hid ht
  | indexed hmay _ _ => exact absurd hmay hevent

/-- A document whose file has a buffer stays one when documents of other files change. -/
lemma Backs.update (h : w.Backs d v) (hid : FileId.ofUrl d uri ≠ FileId.ofUrl d v) {x : Option Text}
    (ht : w'.openText? = Function.update w.openText? uri x)
    (hb : w'.cache.buffer? (FileId.ofUrl d v) = w.cache.buffer? (FileId.ofUrl d v)) :
    w'.Backs d v := by
  intro hv
  have hne : v ≠ uri := by
    rintro rfl
    exact hid rfl
  obtain ⟨t, hs, hopen⟩ := h ((mem_openUrls_of_update ht hne).1 hv)
  exact ⟨t, hb.trans hs, hopen.update hid ht⟩

/-- An event leaves an open document its buffer, unless it closes another document of the same file. -/
theorem Backs.after (h : w.Backs e.disk v) {event : WorkspaceEvent}
    (hevent : w.SparesBuffer e.disk v event) : (w.after e event).Backs e.disk v := by
  have hediting := editing_after e w event
  generalize w.after e event = w' at hediting ⊢
  cases hediting with
  | kept ht hl =>
    intro hv
    obtain ⟨t, hs, hopen⟩ := h ((mem_openUrls_congr ht).1 hv)
    exact ⟨t, (hl.refreshes.buffer?_eq _).trans hs, hopen.congr ht⟩
  | put uri t ht hl =>
    by_cases hid : FileId.ofUrl e.disk uri = FileId.ofUrl e.disk v
    · intro _
      rw [← hid]
      refine ⟨t, (hl.refreshes.buffer?_eq _).trans (buffer?_update_self _ _ t), isOpenAs_of_put ht⟩
    · refine h.update hid ht ((hl.refreshes.buffer?_eq _).trans ?_)
      exact buffer?_update_of_ne _ (Ne.symm hid) t
  | closed uri huri ht hremoved =>
    by_cases hid : FileId.ofUrl e.disk uri = FileId.ofUrl e.disk v
    · intro hv
      have hne : v ≠ uri := by
        rintro rfl
        simp [mem_openUrls, ht] at hv
      exact absurd hid (hevent huri ((mem_openUrls_of_update ht hne).1 hv) (Ne.symm hne))
    · refine h.update hid ht ?_
      rw [hremoved, buffer?_remove_of_ne _ (Ne.symm hid)]
  | indexed _ ht hb =>
    intro hv
    obtain ⟨t, hs, hopen⟩ := h ((mem_openUrls_congr ht).1 hv)
    exact ⟨t, hb _ _ hs, hopen.congr ht⟩

end Workspace

/-- A workspace and the environment that is around it. -/
structure LiveWorkspace where
  environment : Environment
  workspace : Workspace

/-- What happens to a workspace or to the disk under it. -/
inductive LiveEvent where
  | workspace (event : WorkspaceEvent)
  | disk (d : Disk)

namespace LiveEvent

def MayIndex : LiveEvent → Prop
  | workspace event => event.MayIndex
  | disk _ => False

instance : DecidablePred MayIndex
  | workspace event => inferInstanceAs (Decidable event.MayIndex)
  | disk _ => isFalse id

/-- The disk that an event puts in place. -/
def disk? : LiveEvent → Option Disk
  | workspace _ => none
  | disk d => some d

end LiveEvent

namespace LiveWorkspace

def after (s : LiveWorkspace) : LiveEvent → LiveWorkspace
  | .workspace event => { s with workspace := s.workspace.after s.environment event }
  | .disk d => { s with environment := { s.environment with disk := d } }

def run (s : LiveWorkspace) (events : List LiveEvent) : LiveWorkspace := events.foldl after s

/-- The workspace that an editor has initialized. -/
def initialized (e : Environment) (payload : Option Json) (roots : Option (List Url)) :
    LiveWorkspace :=
  ⟨e, Workspace.initial.initialized payload roots⟩

/-- The identity that the file of a document has at the moment. -/
def fileOf (s : LiveWorkspace) (uri : Url) : FileId := FileId.ofUrl s.environment.disk uri

/-- Whether an event leaves the files of the open documents their identities. -/
def KeepsNames (s : LiveWorkspace) : LiveEvent → Prop
  | .workspace _ => True
  | .disk d => ∀ uri ∈ s.workspace.openUrls, FileId.ofUrl d uri = s.fileOf uri

instance (s : LiveWorkspace) : DecidablePred s.KeepsNames
  | .workspace _ => isTrue trivial
  | .disk _ => List.decidableBAll _ _

/-- Whether an event closes no other document of the file of a document while that one is open. -/
def SparesBuffer (v : Url) (s : LiveWorkspace) : LiveEvent → Prop
  | .workspace event => s.workspace.SparesBuffer s.environment.disk v event
  | .disk _ => True

instance (v : Url) (s : LiveWorkspace) : DecidablePred (s.SparesBuffer v)
  | .workspace _ => inferInstanceAs (Decidable (Workspace.SparesBuffer _ _ _ _))
  | .disk _ => isTrue trivial

/-- Whether every event of a run is of a kind, which may depend on what went before. -/
def Throughout (kind : LiveWorkspace → LiveEvent → Prop) (s : LiveWorkspace) : List LiveEvent → Prop
  | [] => True
  | event :: later => kind s event ∧ (s.after event).Throughout kind later

instance (kind : LiveWorkspace → LiveEvent → Prop) [∀ s event, Decidable (kind s event)] :
    (s : LiveWorkspace) → (events : List LiveEvent) → Decidable (s.Throughout kind events)
  | _, [] => isTrue trivial
  | s, event :: later =>
    have := instDecidableThroughout kind (s.after event) later
    inferInstanceAs (Decidable (_ ∧ _))

variable {s : LiveWorkspace} {seen : List Disk} {v : Url}

/-- What every event of a kind keeps, a run of such events keeps. -/
lemma run_of_throughout {Kept : LiveWorkspace → Prop} {kind : LiveWorkspace → LiveEvent → Prop}
    {events : List LiveEvent} (h : Kept s)
    (hstep : ∀ s, ∀ event ∈ events, Kept s → kind s event → Kept (s.after event))
    (hevents : s.Throughout kind events) : Kept (s.run events) := by
  induction events generalizing s with
  | nil => exact h
  | cons event later ih =>
    obtain ⟨hevent, hlater⟩ := hevents
    refine ih (hstep s event List.mem_cons_self h hevent) ?_ hlater
    intro s other hmem
    exact hstep s other (List.mem_cons_of_mem event hmem)

def OwnsBuffers (seen : List Disk) (s : LiveWorkspace) : Prop :=
  s.workspace.OwnsBuffers seen s.environment.disk

def Backs (v : Url) (s : LiveWorkspace) : Prop := s.workspace.Backs s.environment.disk v

lemma ownsBuffers_initialized {e : Environment} (payload : Option Json) (roots : Option (List Url))
    (h : e.disk ∈ seen) : (initialized e payload roots).OwnsBuffers seen := by
  refine ⟨fun _ => none, _, ⟨h, rfl, ?_, ?_⟩, ?_⟩
  · intro f t hf
    cases hf
  · intro f entry _ hentry
    cases hentry
  · intro f t hf
    cases hf

lemma backs_initialized (e : Environment) (payload : Option Json) (roots : Option (List Url))
    (v : Url) : (initialized e payload roots).Backs v := by
  intro h
  cases h

lemma OwnsBuffers.after (h : s.OwnsBuffers seen) {event : LiveEvent} (hindex : ¬ event.MayIndex)
    (hnames : s.KeepsNames event) (hdisk : ∀ d ∈ event.disk?, d ∈ seen) :
    (s.after event).OwnsBuffers seen := by
  cases event with
  | workspace event => exact Workspace.OwnsBuffers.after h hindex
  | disk next =>
    obtain ⟨buffers, limit, hc, hopen⟩ := h
    exact ⟨buffers, limit, ⟨hdisk next rfl, hc.limit_eq, hc.buffer, hc.snapshot⟩,
      fun f t hf => (hopen f t hf).of_ofUrl_eq hnames⟩

lemma Backs.after (h : s.Backs v) {event : LiveEvent} (hspares : s.SparesBuffer v event)
    (hnames : s.KeepsNames event) : (s.after event).Backs v := by
  cases event with
  | workspace event => exact Workspace.Backs.after h hspares
  | disk next =>
    intro hv
    obtain ⟨t, hs, hopen⟩ := h hv
    have hname : FileId.ofUrl next v = FileId.ofUrl s.environment.disk v := hnames v hv
    dsimp only [LiveWorkspace.after]
    rw [hname]
    exact ⟨t, hs, hopen.of_ofUrl_eq hnames⟩

/-- Two documents are open, and one of them is closed. If they are of different files, the file of the
other one has a buffer still, with the text of an open document of that file, which every load gives; if
they are of one file, the buffer is gone. Before, no second document of the file of the other one was
closed while that one was open, and no change of the disk gave the file of an open document another
identity. -/
theorem buffer?_closed (e : Environment) (payload : Option Json) (roots : Option (List Url))
    (events : List LiveEvent) (u v : Url) (huv : u ≠ v)
    (hevents : (initialized e payload roots).Throughout
      (fun s event => s.SparesBuffer v event ∧ s.KeepsNames event) events) :
    let s := (initialized e payload roots).run events
    u ∈ s.workspace.openUrls → v ∈ s.workspace.openUrls →
      let w := (s.workspace.receive s.environment.disk (.closed u)).1
      v ∈ w.openUrls ∧
        (s.fileOf u ≠ s.fileOf v → ∃ t, w.cache.buffer? (s.fileOf v) = some (Source.ofText t) ∧
          w.IsOpenAs s.environment.disk (s.fileOf v) t ∧
          ∀ d, (w.cache.load d (s.fileOf v)).2 = .ok (Source.ofText t)) ∧
        (s.fileOf u = s.fileOf v → w.cache.buffer? (s.fileOf v) = none) := by
  intro s hu hv w
  have hbacks : s.Backs v := by
    refine run_of_throughout (backs_initialized e payload roots v) ?_ hevents
    intro s event _ h hkind
    exact h.after hkind.1 hkind.2
  have ht : w.openText? = Function.update s.workspace.openText? u none :=
    Workspace.openText?_closed hu s.environment.disk
  have hc : w.cache = s.workspace.cache.remove (s.fileOf u) :=
    Workspace.cache_closed hu s.environment.disk
  have hv' : v ∈ w.openUrls := (Workspace.mem_openUrls_of_update ht (Ne.symm huv)).2 hv
  refine ⟨hv', ?_, ?_⟩
  · intro hid
    have hkept : w.cache.buffer? (s.fileOf v) = s.workspace.cache.buffer? (s.fileOf v) := by
      rw [hc]
      exact buffer?_remove_of_ne _ (Ne.symm hid)
    obtain ⟨t, hbuffer, hopen⟩ := hbacks.update hid ht hkept hv'
    exact ⟨t, hbuffer, hopen, fun _ => load_eq_ok_iff_source?.2 (source?_of_buffer? hbuffer)⟩
  · intro hid
    rw [hc, hid]
    simp [buffer?]

private def localUrl (path : String) : Url :=
  ⟨"file".toList, some ⟨[], none, none⟩, path.toList, none, none⟩

/-- A resource with a text in a directory `/a`, and a link `/b` if it leads somewhere. -/
private def resourceWithLink (content : String) (link : Option String) : Disk :=
  ⟨([], .directory) :: ([Text.encode ['a']], .directory) ::
    ([Text.encode ['a'], Text.encode ['r']], .file (Text.encode content.toList) 1) ::
    link.toList.map fun target => ([Text.encode ['b']], .link (Text.encode target.toList))⟩

private def reopening : List LiveEvent :=
  [.workspace (.told (.opened (localUrl "/a/r") "first".toList 1)),
    .workspace (.told (.opened (localUrl "/a/m") [] 1)),
    .disk (resourceWithLink "new" (some "c")),
    .workspace (.told (.closed (localUrl "/a/r"))),
    .workspace (.asked (localUrl "/a/m") ⟨0, 0⟩),
    .workspace (.told (.opened (localUrl "/a/r") "second".toList 1))]

/-- Two documents are open while the disk changes, and one of them is closed and opened again. When the
other one is closed, its file has the buffer of the text that it was opened with last. -/
theorem buffer?_closed_apart :
    let s := (initialized ⟨resourceWithLink "old" (some "a"), []⟩ none none).run reopening
    let w := (s.workspace.receive s.environment.disk (.closed (localUrl "/a/m"))).1
    localUrl "/a/m" ≠ localUrl "/a/r" ∧ localUrl "/a/r" ∈ w.openUrls ∧
      ∃ t, w.cache.buffer? (s.fileOf (localUrl "/a/r")) = some (Source.ofText t) ∧
        w.IsOpenAs s.environment.disk (s.fileOf (localUrl "/a/r")) t ∧
        ∀ d, (w.cache.load d (s.fileOf (localUrl "/a/r"))).2 = .ok (Source.ofText t) := by
  intro s w
  have hne : localUrl "/a/m" ≠ localUrl "/a/r" := by decide
  obtain ⟨hopen, hbuffer, _⟩ := buffer?_closed ⟨resourceWithLink "old" (some "a"), []⟩ none none
    reopening (localUrl "/a/m") (localUrl "/a/r") hne (by decide +kernel) (by decide +kernel)
    (by decide +kernel)
  exact ⟨hne, hopen, hbuffer (by decide +kernel)⟩

/-- Two URLs of one file are open, of which the second one spells a character as a number or leads
through a link. The buffer goes with the second one, and the file is loaded as it is on disk while the
first one is open. -/
theorem buffer?_closed_eq_none :
    let e : Environment := ⟨resourceWithLink "on disk" (some "a"), []⟩
    ∀ other ∈ [localUrl "/a/%72", localUrl "/b/r"],
      let w := (Workspace.initial.initialized none none).run e
        [.told (.opened (localUrl "/a/r") "edited".toList 1),
          .told (.opened other "edited".toList 1)]
      let w' := (w.receive e.disk (.closed other)).1
      other ≠ localUrl "/a/r" ∧ other ∈ w.openUrls ∧
        w'.openText? (localUrl "/a/r") = some "edited".toList ∧
        w'.cache.buffer? (FileId.ofUrl e.disk (localUrl "/a/r")) = none ∧
        (w'.cache.load e.disk (FileId.ofUrl e.disk (localUrl "/a/r"))).2 =
          .ok (Source.ofText "on disk".toList) := by
  decide +kernel

/-- A file that no open document is of has no buffer: its entry is a snapshot, what a load gives is what
the file contained on one of the disks, with the stamp that it bears now, and a load gives something if
the file is a text within the limit. No files were indexed before, and no change of the disk gave the
file of an open document another identity. -/
theorem lookup?_of_not_open (e : Environment) (payload : Option Json)
    (roots : Option (List Url)) (events : List LiveEvent)
    (hevents : (initialized e payload roots).Throughout
      (fun s event => ¬ event.MayIndex ∧ s.KeepsNames event) events) :
    let s := (initialized e payload roots).run events
    ∀ f, (∀ uri ∈ s.workspace.openUrls, s.fileOf uri ≠ f) →
      (∀ entry, s.workspace.cache.lookup? f = some entry → entry.stamp.isSome) ∧
      (∀ source, (s.workspace.cache.load s.environment.disk f).2 = .ok source →
        ∃ before ∈ e.disk :: events.filterMap LiveEvent.disk?,
          f.contentOn? before = some (Text.encode source.text) ∧
            f.stampOn? before = f.stampOn? s.environment.disk) ∧
      ∀ t, f.contentOn? s.environment.disk = some (Text.encode t) →
        Text.size t ≤ s.workspace.cache.limit →
          ∃ source, (s.workspace.cache.load s.environment.disk f).2 = .ok source := by
  intro s f hf
  obtain ⟨buffers, limit, hc, hopen⟩ : s.OwnsBuffers (e.disk :: events.filterMap LiveEvent.disk?) := by
    refine run_of_throughout (ownsBuffers_initialized payload roots List.mem_cons_self) ?_ hevents
    intro s event hmem h hkind
    refine h.after hkind.1 hkind.2 fun d hd => List.mem_cons_of_mem _ ?_
    exact List.mem_filterMap.2 ⟨event, hmem, hd⟩
  have hb : buffers f = none := by
    cases hf' : buffers f with
    | none => rfl
    | some t =>
      obtain ⟨uri, huri, hid⟩ := hopen f t hf'
      exact absurd hid (hf uri (Workspace.mem_openUrls.2 ⟨t, huri⟩))
  refine ⟨?_, ?_, ?_⟩
  · intro entry hentry
    obtain ⟨_, _, _, _, hstamp⟩ := hc.snapshot f entry hb hentry
    simp [hstamp]
  · intro source hload
    obtain ⟨before, hmem, content, modified, hbefore, hnow, hlength⟩ :=
      hc.exists_seen_of_load hb hload
    refine ⟨before, hmem, by simp [FileId.contentOn?, hbefore], ?_⟩
    simp [FileId.stampOn?, hbefore, hnow, Disk.stampOf, hlength]
  · intro t hcontent hsize
    obtain ⟨⟨content, modified⟩, hfile, rfl⟩ := Option.map_eq_some_iff.1 hcontent
    exact hc.exists_load hfile (hsize.trans_eq hc.limit_eq)

private def importing : Text := "*** Settings ***\nResource  r\n*** Test Cases ***\nT  ".toList

private def closingAll : List LiveEvent :=
  [.workspace (.told (.opened (localUrl "/a/m") importing 1)),
    .workspace (.asked (localUrl "/a/m") ⟨3, 3⟩),
    .workspace (.told (.opened (localUrl "/a/r") "edited".toList 1)),
    .disk (resourceWithLink "newer" none),
    .workspace (.told (.closed (localUrl "/a/r"))),
    .workspace (.told (.closed (localUrl "/a/m")))]

/-- A resource is loaded for a document that imports it, opened and edited, and closed after the disk
has changed. Then it is loaded as it is on disk. -/
theorem lookup?_of_not_open_changed :
    let s := (initialized ⟨resourceWithLink "old" (some "a"), []⟩ none none).run closingAll
    let f := s.fileOf (localUrl "/a/r")
    s.workspace.openUrls = [] ∧
      (∃ source, (s.workspace.cache.load s.environment.disk f).2 = .ok source) ∧
      ∃ before ∈ [resourceWithLink "old" (some "a"), resourceWithLink "newer" none],
        f.contentOn? before = some (Text.encode "newer".toList) ∧
          f.stampOn? before = f.stampOn? s.environment.disk := by
  intro s f
  have hclosed : s.workspace.openUrls = [] := by decide +kernel
  obtain ⟨_, hdisk, hloads⟩ := lookup?_of_not_open ⟨resourceWithLink "old" (some "a"), []⟩ none none
    closingAll (by decide +kernel) f (by decide +kernel)
  exact ⟨hclosed, hloads "newer".toList (by decide +kernel) (by decide +kernel),
    hdisk (Source.ofText "newer".toList) (by decide +kernel)⟩

/-- A document is opened through a link that is deleted before the document is closed. Its text is
loaded for the file although no document is open and the file has another text. -/
theorem load_eq_ok_of_unlinked :
    let s := (initialized ⟨resourceWithLink "on disk" (some "a"), []⟩ none none).run
      [.workspace (.told (.opened (localUrl "/b/r") "edited".toList 1)),
        .disk (resourceWithLink "on disk" none),
        .workspace (.told (.closed (localUrl "/b/r")))]
    let f : FileId := ⟨"/a/r".toList⟩
    s.workspace.openUrls = [] ∧
      s.workspace.cache.lookup? f = some ⟨Source.ofText "edited".toList, none⟩ ∧
      (s.workspace.cache.load s.environment.disk f).2 = .ok (Source.ofText "edited".toList) ∧
      f.contentOn? s.environment.disk = some (Text.encode "on disk".toList) := by
  decide +kernel

end LiveWorkspace

end KeywordCompletion
