import KeywordCompletion.Proofs.SourceCache.Loading
import KeywordCompletion.Proofs.Text.Bytes

/-!
# Coherence of a cache with the disk

A cache is used while the disk under it changes. As long as no two contents of one file bear the same
stamp, a load gives the buffer of a file or what is on disk at that moment: `load_coherent`. The
invariant `Coherent` says where every entry comes from: a buffer from the last update, a snapshot from
a disk that was there at some time.
-/

namespace KeywordCompletion

/-- What happens to a cache or to the disk under it. -/
inductive CacheEvent where
  | updated (f : FileId) (t : Text)
  | inserted (f : FileId) (t : Text)
  | loaded (f : FileId)
  | looked (f : FileId)
  | removed (f : FileId)
  | limited (limit : Nat)
  /-- The disk is another one from now on. -/
  | disk (d : Disk)

/-- A cache with the disk under it. -/
structure CachedDisk where
  cache : SourceCache
  disk : Disk

namespace CachedDisk

/-- The cache and the disk after an event. Looking an entry up changes neither. -/
def after (s : CachedDisk) : CacheEvent → CachedDisk
  | .updated f t => { s with cache := s.cache.update f t }
  | .inserted f t => { s with cache := s.cache.insertIfAbsent s.disk f t }
  | .loaded f => { s with cache := (s.cache.load s.disk f).1 }
  | .looked _ => s
  | .removed f => { s with cache := s.cache.remove f }
  | .limited limit => { s with cache := s.cache.setLimit limit }
  | .disk d => { s with disk := d }

/-- The cache and the disk after events that start with an empty cache. -/
def run (d : Disk) (events : List CacheEvent) : CachedDisk := events.foldl after ⟨.empty, d⟩

/-- Whether every text that is inserted is the content of its file at that time. -/
def Admits (s : CachedDisk) : List CacheEvent → Prop
  | [] => True
  | event :: more =>
    (∀ f t, event = .inserted f t → ∃ modified, f.fileOn? s.disk = some (Text.encode t, modified)) ∧
      Admits (s.after event) more

end CachedDisk

namespace CacheEvent

/-- The disk that an event puts in place. -/
def disk? : CacheEvent → Option Disk
  | .disk d => some d
  | _ => none

/-- The disks that are there at some time. -/
def disks (d : Disk) (events : List CacheEvent) : List Disk := d :: events.filterMap disk?

/-- The buffer of a file after an event. -/
def bufferAfter (f : FileId) (buffer : Option Text) : CacheEvent → Option Text
  | .updated g t => if g = f then some t else buffer
  | .removed g => if g = f then none else buffer
  | _ => buffer

/-- The text of the last update of a file, unless the file was removed after it. -/
def lastBuffer? (f : FileId) (events : List CacheEvent) : Option Text :=
  events.foldl (bufferAfter f) none

/-- The limit after an event. -/
def limitAfter (limit : Nat) : CacheEvent → Nat
  | .limited limit => limit
  | _ => limit

/-- The limit that was set last. -/
def lastLimit (events : List CacheEvent) : Nat := events.foldl limitAfter SourceCache.defaultLimit

/-- Whether a stamp tells the contents apart that a file has on some disks. -/
def Distinguishes (disks : List Disk) : Prop :=
  ∀ d₁ ∈ disks, ∀ d₂ ∈ disks, ∀ (f : FileId) (content₁ content₂ : Bytes) (modified : Int),
    f.fileOn? d₁ = some (content₁, modified) → f.fileOn? d₂ = some (content₂, modified) →
      content₁.length = content₂.length → content₁ = content₂

end CacheEvent

open CacheEvent

namespace CachedDisk

/-- Where the entries of a cache come from: the buffers are those given, and every other entry is a
snapshot of a file on one of the disks that were seen. -/
structure Coherent (seen : List Disk) (buffers : FileId → Option Text) (limit : Nat)
    (s : CachedDisk) : Prop where
  disk_mem : s.disk ∈ seen
  limit_eq : s.cache.limit = limit
  buffer : ∀ f t, buffers f = some t → s.cache.lookup? f = some ⟨Source.ofText t, none⟩
  snapshot : ∀ f entry, buffers f = none → s.cache.lookup? f = some entry →
    ∃ d ∈ seen, ∃ modified, f.fileOn? d = some (Text.encode entry.source.text, modified) ∧
      entry.stamp = some (Disk.stampOf (Text.encode entry.source.text) modified)

variable {seen : List Disk} {buffers : FileId → Option Text} {limit : Nat} {s : CachedDisk}

lemma coherent_initial {d : Disk} (h : d ∈ seen) :
    Coherent seen (fun _ => none) SourceCache.defaultLimit ⟨.empty, d⟩ := by
  refine ⟨h, rfl, ?_, ?_⟩
  · intro f t h
    cases h
  · intro f entry _ h
    cases h

lemma Coherent.buffer?_eq_none (h : Coherent seen buffers limit s) {f : FileId}
    (hb : buffers f = none) : s.cache.buffer? f = none := by
  cases hc : s.cache.buffer? f with
  | none => rfl
  | some source =>
    obtain ⟨d, _, modified, _, hstamp⟩ :=
      h.snapshot f _ hb (SourceCache.buffer?_eq_some_iff.1 hc)
    cases hstamp

lemma Coherent.update (h : Coherent seen buffers limit s) (f : FileId) (t : Text) :
    Coherent seen (fun g => bufferAfter g (buffers g) (.updated f t)) limit
      (s.after (.updated f t)) := by
  refine ⟨h.disk_mem, h.limit_eq, ?_, ?_⟩
  · intro g u hg
    simp only [bufferAfter] at hg
    by_cases hfg : f = g
    · subst hfg
      rw [if_pos rfl, Option.some.injEq] at hg
      subst hg
      exact SourceCache.lookup?_update_self _ _ _
    · rw [if_neg hfg] at hg
      exact (SourceCache.lookup?_update_of_ne _ (Ne.symm hfg) _).trans (h.buffer g u hg)
  · intro g entry hg hl
    simp only [bufferAfter] at hg
    by_cases hfg : f = g
    · rw [if_pos hfg] at hg
      cases hg
    · rw [if_neg hfg] at hg
      exact h.snapshot g entry hg ((SourceCache.lookup?_update_of_ne _ (Ne.symm hfg) _).symm.trans hl)

lemma Coherent.remove (h : Coherent seen buffers limit s) (f : FileId) :
    Coherent seen (fun g => bufferAfter g (buffers g) (.removed f)) limit (s.after (.removed f)) := by
  refine ⟨h.disk_mem, h.limit_eq, ?_, ?_⟩
  · intro g u hg
    simp only [bufferAfter] at hg
    by_cases hfg : f = g
    · rw [if_pos hfg] at hg
      cases hg
    · rw [if_neg hfg] at hg
      exact (SourceCache.lookup?_remove_of_ne _ (Ne.symm hfg)).trans (h.buffer g u hg)
  · intro g entry hg hl
    simp only [bufferAfter] at hg
    by_cases hfg : f = g
    · subst hfg
      have hnone : (s.after (.removed f)).cache.lookup? f = none :=
        SourceCache.lookup?_remove_self _ _
      rw [hnone] at hl
      cases hl
    · rw [if_neg hfg] at hg
      exact h.snapshot g entry hg ((SourceCache.lookup?_remove_of_ne _ (Ne.symm hfg)).symm.trans hl)

/-- A cache in which a file that no editor has open has another entry stays coherent if that entry is
a snapshot of the disk. -/
lemma Coherent.put (h : Coherent seen buffers limit s) {f : FileId} (hb : buffers f = none)
    {t : Text} {modified : Int} (hfile : f.fileOn? s.disk = some (Text.encode t, modified)) :
    Coherent seen buffers limit
      ⟨s.cache.put f ⟨Source.ofText t, some (Disk.stampOf (Text.encode t) modified)⟩, s.disk⟩ := by
  refine ⟨h.disk_mem, h.limit_eq, ?_, ?_⟩
  · intro g u hg
    have hne : g ≠ f := by
      rintro rfl
      rw [hb] at hg
      cases hg
    exact (SourceCache.lookup?_put_of_ne _ hne _).trans (h.buffer g u hg)
  · intro g entry hg hl
    by_cases hgf : g = f
    · subst hgf
      rw [SourceCache.lookup?_put_self, Option.some.injEq] at hl
      subst hl
      exact ⟨s.disk, h.disk_mem, modified, hfile, rfl⟩
    · exact h.snapshot g entry hg ((SourceCache.lookup?_put_of_ne _ hgf _).symm.trans hl)

lemma Coherent.forget (h : Coherent seen buffers limit s) (f : FileId) :
    Coherent seen buffers limit ⟨s.cache.forget f, s.disk⟩ := by
  refine ⟨h.disk_mem, (SourceCache.limit_forget _ _).trans h.limit_eq, ?_, ?_⟩
  · intro g u hg
    have hl := h.buffer g u hg
    by_cases hgf : g = f
    · subst hgf
      rw [SourceCache.lookup?_forget_self, SourceCache.buffer?_eq_some_iff.2 hl]
      rfl
    · exact (SourceCache.lookup?_forget_of_ne _ hgf).trans hl
  · intro g entry hg hl
    by_cases hgf : g = f
    · subst hgf
      rw [SourceCache.lookup?_forget_self, h.buffer?_eq_none hg] at hl
      cases hl
    · exact h.snapshot g entry hg ((SourceCache.lookup?_forget_of_ne _ hgf).symm.trans hl)

lemma Coherent.buffers_eq_none (h : Coherent seen buffers limit s) {f : FileId}
    (hb : s.cache.buffer? f = none) : buffers f = none := by
  cases hf : buffers f with
  | none => rfl
  | some t =>
    rw [SourceCache.buffer?_eq_some_iff.2 (h.buffer f t hf)] at hb
    cases hb

lemma Coherent.load (h : Coherent seen buffers limit s) (f : FileId) :
    Coherent seen buffers limit (s.after (.loaded f)) := by
  change Coherent seen buffers limit ⟨(s.cache.load s.disk f).1, s.disk⟩
  have hl := SourceCache.loading_load s.cache s.disk f
  generalize (s.cache.load s.disk f).1 = after, (s.cache.load s.disk f).2 = answer at hl
  cases hl with
  | buffer _ | unnamed _ _ | cached _ _ | broken _ _ _ _ _ => exact h
  | missing _ _ | tooLarge _ _ _ _ => exact h.forget f
  | read hb hf _ _ hd =>
    obtain rfl := Text.decode?_eq_some_iff.1 hd
    exact h.put (h.buffers_eq_none hb) hf

lemma Coherent.insert (h : Coherent seen buffers limit s) {f : FileId} {t : Text} {modified : Int}
    (hfile : f.fileOn? s.disk = some (Text.encode t, modified)) :
    Coherent seen buffers limit (s.after (.inserted f t)) := by
  change Coherent seen buffers limit ⟨s.cache.insertIfAbsent s.disk f t, s.disk⟩
  cases hc : s.cache.contains f with
  | true =>
    rw [SourceCache.insertIfAbsent_of_contains hc]
    exact h
  | false =>
    rw [SourceCache.insertIfAbsent_of_not_contains hc, SourceCache.stamp?_of_fileOn? hfile]
    refine h.put (h.buffers_eq_none ?_) hfile
    cases hb : s.cache.buffer? f with
    | none => rfl
    | some source =>
      rw [SourceCache.contains_iff.2 (Or.inl (by simp [hb]))] at hc
      cases hc

lemma Coherent.after (h : Coherent seen buffers limit s) {event : CacheEvent}
    (hinserted : ∀ f t, event = .inserted f t →
      ∃ modified, f.fileOn? s.disk = some (Text.encode t, modified))
    (hdisk : ∀ d, event.disk? = some d → d ∈ seen) :
    Coherent seen (fun f => bufferAfter f (buffers f) event) (limitAfter limit event)
      (s.after event) := by
  cases event with
  | updated f t => exact h.update f t
  | inserted f t =>
    obtain ⟨modified, hfile⟩ := hinserted f t rfl
    exact h.insert hfile
  | loaded f => exact h.load f
  | looked f => exact h
  | removed f => exact h.remove f
  | limited limit => exact ⟨h.disk_mem, rfl, h.buffer, h.snapshot⟩
  | disk d => exact ⟨hdisk d rfl, h.limit_eq, h.buffer, h.snapshot⟩

/-- A sequence of events that inserts nothing but what is on disk keeps a cache coherent. -/
lemma Coherent.foldl_after (events : List CacheEvent) (h : Coherent seen buffers limit s)
    (hadmits : s.Admits events) (hdisks : ∀ d ∈ events.filterMap disk?, d ∈ seen) :
    Coherent seen (fun f => events.foldl (bufferAfter f) (buffers f))
      (events.foldl limitAfter limit) (events.foldl CachedDisk.after s) := by
  induction events generalizing s buffers limit with
  | nil => exact h
  | cons event more ih =>
    obtain ⟨hinserted, hmore⟩ := hadmits
    have hstep := h.after hinserted fun d hd =>
      hdisks d (List.mem_filterMap.2 ⟨event, List.mem_cons_self, hd⟩)
    refine ih hstep hmore ?_
    intro d hd
    obtain ⟨other, hother, he⟩ := List.mem_filterMap.1 hd
    exact hdisks d (List.mem_filterMap.2 ⟨other, List.mem_cons_of_mem _ hother, he⟩)

lemma coherent_run {d : Disk} {events : List CacheEvent}
    (hadmits : CachedDisk.Admits ⟨.empty, d⟩ events) :
    Coherent (disks d events) (fun f => lastBuffer? f events) (lastLimit events) (run d events) :=
  (coherent_initial List.mem_cons_self).foldl_after events hadmits
    fun _ hd => List.mem_cons_of_mem _ hd

lemma Coherent.load_of_buffer (h : Coherent seen buffers limit s) {f : FileId} {t : Text}
    (hb : buffers f = some t) : (s.cache.load s.disk f).2 = .ok (Source.ofText t) := by
  simp [SourceCache.load, h.buffer f t hb, SourceCache.loadPlan]

/-- What a load gives for a file that no editor has open is what the file contained on a disk that was
seen, with the stamp that it bears now. -/
lemma Coherent.exists_seen_of_load (h : Coherent seen buffers limit s) {f : FileId}
    (hb : buffers f = none) {source : Source} (hload : (s.cache.load s.disk f).2 = .ok source) :
    ∃ before ∈ seen, ∃ content modified,
      f.fileOn? before = some (Text.encode source.text, modified) ∧
      f.fileOn? s.disk = some (content, modified) ∧
      (Text.encode source.text).length = content.length := by
  have hl := SourceCache.loading_load s.cache s.disk f
  rw [hload] at hl
  generalize (s.cache.load s.disk f).1 = after at hl
  cases hl with
  | buffer hbuffer =>
    rw [h.buffer?_eq_none hb] at hbuffer
    cases hbuffer
  | @cached content modified _ hf hs =>
    obtain ⟨d, hd, then_, hthen, hstamp⟩ := h.snapshot f _ hb hs
    simp only [Option.some.injEq, Disk.stampOf, FileStamp.mk.injEq] at hstamp
    obtain ⟨hlength, rfl⟩ := hstamp
    exact ⟨d, hd, content, modified, hthen, hf, hlength.symm⟩
  | @read content modified t _ hf _ _ hd =>
    obtain rfl := Text.decode?_eq_some_iff.1 hd
    exact ⟨s.disk, h.disk_mem, Text.encode t, modified, hf, hf, rfl⟩

/-- What a load gives for a file that no editor has open is what is on disk. A snapshot may be given
because the file bore its stamp once: then its content was what it is now. -/
lemma Coherent.fileOn?_of_load (h : Coherent seen buffers limit s) (hseen : Distinguishes seen)
    {f : FileId} (hb : buffers f = none) {source : Source}
    (hload : (s.cache.load s.disk f).2 = .ok source) :
    ∃ modified, f.fileOn? s.disk = some (Text.encode source.text, modified) := by
  obtain ⟨d, hd, content, modified, hthen, hf, hlength⟩ := h.exists_seen_of_load hb hload
  refine ⟨modified, ?_⟩
  rw [hf, hseen d hd s.disk h.disk_mem f _ content modified hthen hf hlength]

lemma Coherent.exists_load (h : Coherent seen buffers limit s) {f : FileId} {t : Text}
    {modified : Int} (hfile : f.fileOn? s.disk = some (Text.encode t, modified))
    (hsize : Text.size t ≤ limit) : ∃ source, (s.cache.load s.disk f).2 = .ok source := by
  have hl := SourceCache.loading_load s.cache s.disk f
  generalize (s.cache.load s.disk f).1 = after, (s.cache.load s.disk f).2 = answer at hl
  cases hl with
  | buffer _ | cached _ _ | read _ _ _ _ _ => exact ⟨_, rfl⟩
  | unnamed _ hp => simp [FileId.fileOn?, hp] at hfile
  | missing _ hf =>
    rw [hf] at hfile
    cases hfile
  | tooLarge _ hf _ hlimit =>
    rw [hf, Option.some.injEq, Prod.mk.injEq] at hfile
    obtain ⟨rfl, rfl⟩ := hfile
    rw [Text.length_encode, h.limit_eq] at hlimit
    omega
  | broken _ hf _ _ hd =>
    rw [hf, Option.some.injEq, Prod.mk.injEq] at hfile
    obtain ⟨rfl, rfl⟩ := hfile
    rw [Text.decode?_encode] at hd
    cases hd

/-- After any events a load gives the text of the last update, if the file was not removed after it,
whatever is on disk. Otherwise it gives nothing but the content of the file as it is on disk at that
moment, and it gives that whenever there is a file of UTF-8 within the limit. -/
theorem load_coherent (d : Disk) (events : List CacheEvent)
    (hadmits : CachedDisk.Admits ⟨.empty, d⟩ events) (hstamps : Distinguishes (disks d events))
    (f : FileId) :
    let s := run d events
    match lastBuffer? f events with
    | some t => (s.cache.load s.disk f).2 = .ok (Source.ofText t)
    | none =>
      (∀ source, (s.cache.load s.disk f).2 = .ok source →
        ∃ modified, f.fileOn? s.disk = some (Text.encode source.text, modified)) ∧
      (∀ t modified, f.fileOn? s.disk = some (Text.encode t, modified) →
        Text.size t ≤ lastLimit events → ∃ source, (s.cache.load s.disk f).2 = .ok source) := by
  dsimp only
  have h := coherent_run hadmits
  split
  · rename_i t hb
    exact h.load_of_buffer hb
  · rename_i hb
    constructor
    · intro source hload
      exact h.fileOn?_of_load hstamps hb hload
    · intro t modified hfile hsize
      exact h.exists_load hfile hsize

/-- A disk with one file. -/
private def onePage (content : String) (modified : Int) : Disk :=
  ⟨[([], .directory), ([Text.encode ['r']], .file (Text.encode content.toList) modified)]⟩

/-- A file is loaded and rewritten, opened in an editor and closed, and found by indexing while the
limit is its size. -/
private def rewriting (f : FileId) : List CacheEvent :=
  [.loaded f, .disk (onePage "bb" 2), .loaded f, .updated f "edited".toList, .loaded f, .removed f,
    .inserted f "bb".toList, .limited 2, .looked f]

theorem load_coherent_rewriting :
    let f : FileId := ⟨"/r".toList⟩
    let s := run (onePage "a" 1) (rewriting f)
    (s.cache.load s.disk f).2 = .ok (Source.ofText "bb".toList) := by
  have hnow : FileId.fileOn? ⟨"/r".toList⟩ (onePage "bb" 2) = some (Text.encode "bb".toList, 2) := by
    decide +kernel
  have hadmits : CachedDisk.Admits ⟨.empty, onePage "a" 1⟩ (rewriting ⟨"/r".toList⟩) := by
    refine ⟨nofun, nofun, nofun, nofun, nofun, nofun, ?_, nofun, nofun, trivial⟩
    intro g t h
    obtain ⟨rfl, rfl⟩ := CacheEvent.inserted.inj h
    exact ⟨2, hnow⟩
  have hstamps : Distinguishes (disks (onePage "a" 1) (rewriting ⟨"/r".toList⟩)) := by
    intro d₁ h₁ d₂ h₂ g content₁ content₂ modified hf₁ hf₂ _
    obtain ⟨_, hm₁⟩ := FileId.mem_entries_of_fileOn? hf₁
    obtain ⟨_, hm₂⟩ := FileId.mem_entries_of_fileOn? hf₂
    have hd : ∀ d ∈ disks (onePage "a" 1) (rewriting ⟨"/r".toList⟩),
        d = onePage "a" 1 ∨ d = onePage "bb" 2 := by
      simp [disks, rewriting, disk?]
    rcases hd d₁ h₁ with rfl | rfl <;> rcases hd d₂ h₂ with rfl | rfl <;>
      simp [onePage] at hm₁ hm₂ <;> grind
  obtain ⟨honly, hsome⟩ := load_coherent (onePage "a" 1) (rewriting ⟨"/r".toList⟩) hadmits hstamps
    ⟨"/r".toList⟩
  obtain ⟨source, hsource⟩ := hsome "bb".toList 2 hnow (by decide +kernel)
  obtain ⟨modified, hfile⟩ := honly source hsource
  rw [show (run (onePage "a" 1) (rewriting ⟨"/r".toList⟩)).disk = onePage "bb" 2 from rfl, hnow,
    Option.some.injEq, Prod.mk.injEq] at hfile
  have htext : Text.decode? (Text.encode "bb".toList) = Text.decode? (Text.encode source.text) :=
    congrArg Text.decode? hfile.1
  rw [Text.decode?_encode, Text.decode?_encode, Option.some.injEq] at htext
  rw [htext, Source.ofText_text]
  exact hsource

end CachedDisk

end KeywordCompletion
