import KeywordCompletion.Proofs.SourceCache.Coherence
import KeywordCompletion.Proofs.SourceCache.Refreshing

/-!
# Loads that fail

A load touches the entry of its own file only, and never a buffer. When it fails, the cache has nothing left
of the file: an entry that is no buffer was made from the disk, so it belongs to a path, and a look at that
path decides what becomes of it. A file that is looked at, found within the limit and then cannot be read is the
exception. Its old snapshot stays: `forgets_of_load`, `contains_of_load_broken`.
-/

namespace KeywordCompletion

/-- Whether the file that an identity names is looked at and found within the limit, but cannot be read. -/
def FileId.IsBroken (f : FileId) (d : Disk) (limit : Nat) : Prop :=
  ∃ p content modified reason, f.toPath? = some p ∧ d.fileAt? p = some (content, modified) ∧
    content.length ≤ limit ∧ d.readText p = .error reason

lemma FileId.isBroken_iff {f : FileId} {d : Disk} {limit : Nat} : f.IsBroken d limit ↔
    ∃ content modified, f.fileOn? d = some (content, modified) ∧ content.length ≤ limit ∧
      Text.decode? content = none := by
  constructor
  · rintro ⟨p, content, modified, reason, hp, hfile, hle, hread⟩
    refine ⟨content, modified, fileOn?_eq_some_iff.2 ⟨p, hp, hfile⟩, hle, ?_⟩
    rw [Option.eq_none_iff_forall_ne_some]
    intro t ht
    rw [Disk.readText_of_decode? hfile ht] at hread
    cases hread
  · rintro ⟨content, modified, hfile, hle, hdecode⟩
    obtain ⟨p, hp, hp'⟩ := fileOn?_eq_some_iff.1 hfile
    exact ⟨p, content, modified, .notUtf8, hp, hp', hle, Disk.readText_of_decode?_eq_none hp' hdecode⟩

namespace SourceCache

variable {c : SourceCache} {d : Disk} {f g : FileId} {source : Source} {entry : CacheEntry}

lemma lookup?_load_of_ne (c : SourceCache) (d : Disk) (h : g ≠ f) :
    (c.load d f).1.lookup? g = c.lookup? g := by
  have hl := loading_load c d f
  generalize (c.load d f).1 = after, (c.load d f).2 = answer at hl
  cases hl with
  | buffer _ | unnamed _ _ | cached _ _ | broken _ _ _ _ _ => rfl
  | missing _ _ | tooLarge _ _ _ _ => exact lookup?_forget_of_ne c h
  | read _ _ _ _ _ => exact lookup?_put_of_ne c h _

lemma lookup?_load_of_buffer? (d : Disk) (f : FileId) (h : c.buffer? g = some source) :
    (c.load d f).1.lookup? g = c.lookup? g := by
  have hafter := ((refreshes_load c d f).buffer?_eq g).trans h
  rw [buffer?_eq_some_iff.1 h, buffer?_eq_some_iff.1 hafter]

/-- What is left of an entry that is forgotten is the entry itself. -/
lemma lookup?_of_forget (h : (c.forget f).lookup? f = some entry) : c.lookup? f = some entry := by
  rw [lookup?_forget_self, Option.map_eq_some_iff] at h
  obtain ⟨source, hsource, rfl⟩ := h
  exact buffer?_eq_some_iff.1 hsource

/-- Whether every snapshot of a cache is one of a file with a path. -/
def HasPaths (c : SourceCache) : Prop := ∀ f, c.HasSnapshot f → ∃ p, f.toPath? = some p

/-- Where a load fails, no entry of the file is left, or the file is broken and nothing has changed. -/
lemma HasPaths.forgets (h : c.HasPaths) {error : LoadError} (hload : (c.load d f).2 = .error error) :
    (¬ f.IsBroken d c.limit → (c.load d f).1.lookup? f = none) ∧
      (f.IsBroken d c.limit → (c.load d f).1 = c) := by
  rw [FileId.isBroken_iff]
  have hl := loading_load c d f
  rw [hload] at hl
  generalize (c.load d f).1 = after at hl
  cases hl with
  | unnamed hb hp =>
    refine ⟨fun _ => ?_, fun _ => rfl⟩
    -- the entry would be a snapshot of a file without a path
    have hcontains : ¬ c.contains f = true := by
      rw [contains_iff, hb]
      rintro (hbuffer | hsnapshot)
      · cases hbuffer
      · obtain ⟨p, hpath⟩ := h f hsnapshot
        rw [hp] at hpath
        cases hpath
    exact Option.not_isSome_iff_eq_none.1 hcontains
  | missing hb hf =>
    refine ⟨fun _ => by rw [lookup?_forget_self, hb]; rfl, ?_⟩
    rintro ⟨content, modified, hfile, -⟩
    rw [hf] at hfile
    cases hfile
  | tooLarge hb hf _ hlarge =>
    refine ⟨fun _ => by rw [lookup?_forget_self, hb]; rfl, ?_⟩
    rintro ⟨content, modified, hfile, hle, -⟩
    rw [hf, Option.some.injEq, Prod.mk.injEq] at hfile
    obtain ⟨rfl, rfl⟩ := hfile
    omega
  | broken hb hf _ hle hd => exact ⟨fun hnot => absurd ⟨_, _, hf, hle, hd⟩ hnot, fun _ => rfl⟩

end SourceCache

namespace CachedDisk

open SourceCache CacheEvent

variable {s : CachedDisk} {f : FileId} {event : CacheEvent} {entry : CacheEntry}

/-- The ways in which a file can have an entry after an event. -/
inductive EntryAfter (s : CachedDisk) (f : FileId) : CacheEvent → CacheEntry → Prop
  | kept {event : CacheEvent} {entry : CacheEntry} (hl : s.cache.lookup? f = some entry)
    (hb : ∀ buffer, event.bufferAfter f buffer = buffer) : EntryAfter s f event entry
  | updated (t : Text) : EntryAfter s f (.updated f t) ⟨Source.ofText t, none⟩
  | inserted (t : Text) (hc : s.cache.contains f = false) :
    EntryAfter s f (.inserted f t) ⟨Source.ofText t, stamp? s.disk f⟩
  | read {content : Bytes} {modified : Int} {t : Text} (hf : f.fileOn? s.disk = some (content, modified))
    (hl : content.length ≤ s.cache.limit) (hd : Text.decode? content = some t) :
    EntryAfter s f (.loaded f) ⟨Source.ofText t, some (Disk.stampOf content modified)⟩

lemma entryAfter_loaded (h : (s.cache.load s.disk f).1.lookup? f = some entry) :
    EntryAfter s f (.loaded f) entry := by
  have hl := loading_load s.cache s.disk f
  generalize (s.cache.load s.disk f).1 = after, (s.cache.load s.disk f).2 = answer at hl h
  cases hl with
  | buffer _ | unnamed _ _ | cached _ _ | broken _ _ _ _ _ => exact .kept h fun _ => rfl
  | missing _ _ | tooLarge _ _ _ _ => exact .kept (lookup?_of_forget h) fun _ => rfl
  | read _ hf _ hle hd =>
    rw [lookup?_put_self, Option.some.injEq] at h
    subst h
    exact .read hf hle hd

lemma entryAfter_after (h : (s.after event).cache.lookup? f = some entry) : EntryAfter s f event entry := by
  cases event with
  | updated g t =>
    by_cases hgf : f = g
    · subst hgf
      obtain rfl := Option.some.inj ((lookup?_update_self s.cache f t).symm.trans h)
      exact .updated t
    · exact .kept ((lookup?_update_of_ne s.cache hgf t).symm.trans h) fun _ => if_neg (Ne.symm hgf)
  | inserted g t =>
    change (s.cache.insertIfAbsent s.disk g t).lookup? f = some entry at h
    cases hc : s.cache.contains g with
    | true =>
      rw [insertIfAbsent_of_contains hc] at h
      exact .kept h fun _ => rfl
    | false =>
      rw [insertIfAbsent_of_not_contains hc] at h
      by_cases hgf : f = g
      · subst hgf
        rw [lookup?_put_self, Option.some.injEq] at h
        subst h
        exact .inserted t hc
      · rw [lookup?_put_of_ne s.cache hgf] at h
        exact .kept h fun _ => rfl
  | loaded g =>
    by_cases hgf : f = g
    · subst hgf
      exact entryAfter_loaded h
    · exact .kept ((lookup?_load_of_ne s.cache s.disk hgf).symm.trans h) fun _ => rfl
  | removed g =>
    by_cases hgf : f = g
    · subst hgf
      cases (lookup?_remove_self s.cache f).symm.trans h
    · exact .kept ((lookup?_remove_of_ne s.cache hgf).symm.trans h) fun _ => if_neg (Ne.symm hgf)
  | looked _ | limited _ | disk _ => exact .kept h fun _ => rfl

lemma hasPaths_after (h : s.cache.HasPaths) (event : CacheEvent) : (s.after event).cache.HasPaths := by
  rintro f ⟨source, stamp, hf⟩
  generalize hentry : (⟨source, some stamp⟩ : CacheEntry) = entry at hf
  cases entryAfter_after hf with
  | kept hl _ => exact h f ⟨source, stamp, hentry ▸ hl⟩
  | updated t => cases hentry
  | inserted t _ =>
    have hstamp := congrArg CacheEntry.stamp hentry
    obtain ⟨p, hp, -⟩ := Option.bind_eq_some_iff.1 hstamp.symm
    exact ⟨p, hp⟩
  | read hfile _ _ =>
    obtain ⟨p, hp, -⟩ := FileId.fileOn?_eq_some_iff.1 hfile
    exact ⟨p, hp⟩

/-- In every cache that comes from an empty one snapshots belong to paths, whatever is inserted. -/
lemma hasPaths_run (d : Disk) (events : List CacheEvent) : (run d events).cache.HasPaths := by
  unfold run
  have hempty : (⟨.empty, d⟩ : CachedDisk).cache.HasPaths := by
    rintro f ⟨source, stamp, hf⟩
    cases hf
  generalize (⟨.empty, d⟩ : CachedDisk) = s at hempty
  induction events generalizing s with
  | nil => exact hempty
  | cons event later ih => exact ih _ (hasPaths_after hempty event)

/-- After any events, a load that fails leaves no entry of its file, unless the file was found within the limit and
could not be read; then it leaves the cache as it is. Whether it fails or not, it changes no entry of another file, no
buffer and not the limit. -/
theorem forgets_of_load (d : Disk) (events : List CacheEvent) (f : FileId) :
    let s := run d events
    let after := (s.cache.load s.disk f).1
    (∀ error, (s.cache.load s.disk f).2 = .error error →
      (¬ f.IsBroken s.disk s.cache.limit → after.contains f = false ∧ after.get? f = none) ∧
      (f.IsBroken s.disk s.cache.limit → after = s.cache)) ∧
    (∀ g, g ≠ f ∨ (s.cache.buffer? g).isSome = true → after.lookup? g = s.cache.lookup? g) ∧
    after.limit = s.cache.limit := by
  intro s after
  refine ⟨fun error hload => ?_, ?_, (refreshes_load s.cache s.disk f).limit_eq⟩
  · obtain ⟨hgone, hkept⟩ := (hasPaths_run d events).forgets hload
    refine ⟨fun hnot => ?_, hkept⟩
    have hnone : after.lookup? f = none := hgone hnot
    refine ⟨?_, ?_⟩
    · change (after.lookup? f).isSome = false
      rw [hnone]
      rfl
    · rw [get?, hnone]
      rfl
  · rintro g (hne | hbuffer)
    · exact lookup?_load_of_ne s.cache s.disk hne
    · obtain ⟨source, hsource⟩ := Option.isSome_iff_exists.1 hbuffer
      exact lookup?_load_of_buffer? s.disk f hsource

/-- A disk with one file. -/
def fileOf (content : Bytes) (modified : Int) : Disk :=
  ⟨[([], .directory), ([Text.encode ['r']], .file content modified)]⟩

/-- The file outgrows the limit after it was loaded, while another one is open. -/
theorem forgets_of_load_grown :
    let f : FileId := ⟨"/r".toList⟩
    let open_ : FileId := ⟨"untitled:u".toList⟩
    let s := run (fileOf (Text.encode "old".toList) 1)
      [.updated open_ "edited".toList, .limited 3, .loaded f,
        .disk (fileOf (Text.encode "grown".toList) 2)]
    let after := (s.cache.load s.disk f).1
    s.cache.contains f = true ∧ (s.cache.load s.disk f).2 = .error (.tooLarge f 5 3) ∧
      ¬ f.IsBroken s.disk s.cache.limit ∧ after.contains f = false ∧
      after.lookup? open_ = s.cache.lookup? open_ := by
  intro f open_ s after
  have hload : (s.cache.load s.disk f).2 = .error (.tooLarge f 5 3) := by decide +kernel
  have hfile : f.fileOn? s.disk = some (Text.encode "grown".toList, 2) := by decide +kernel
  have hlimit : s.cache.limit = 3 := by decide +kernel
  have hnot : ¬ f.IsBroken s.disk s.cache.limit := by
    rw [FileId.isBroken_iff, hlimit]
    rintro ⟨content, modified, hf, hle, -⟩
    rw [hfile, Option.some.injEq, Prod.mk.injEq] at hf
    obtain ⟨rfl, rfl⟩ := hf
    exact absurd hle (by decide +kernel)
  obtain ⟨hfails, hothers, -⟩ := forgets_of_load (fileOf (Text.encode "old".toList) 1)
    [.updated open_ "edited".toList, .limited 3, .loaded f,
      .disk (fileOf (Text.encode "grown".toList) 2)] f
  exact ⟨by decide +kernel, hload, hnot, ((hfails _ hload).1 hnot).1, hothers open_ (Or.inl (by decide))⟩

/-- The file is no longer UTF-8 after it was loaded. A load says so and keeps the snapshot of what the file
was before, although the file has another stamp now. -/
theorem contains_of_load_broken :
    let f : FileId := ⟨"/r".toList⟩
    let s := run (fileOf (Text.encode "old".toList) 1) [.loaded f, .disk (fileOf [0xFF] 2)]
    let after := (s.cache.load s.disk f).1
    (s.cache.load s.disk f).2 = .error (.unreadable f .notUtf8) ∧ after.contains f = true ∧
      after.lookup? f = some ⟨Source.ofText "old".toList, some ⟨3, 1⟩⟩ := by
  decide +kernel

end CachedDisk

end KeywordCompletion
