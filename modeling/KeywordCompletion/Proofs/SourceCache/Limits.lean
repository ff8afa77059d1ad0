import KeywordCompletion.Proofs.SourceCache.Failures

/-!
# The size up to which files are given

A file is read only if it is within the limit of that time, and a snapshot is given as long as the file bears
its stamp, whatever the limit is by then. So a file above the limit is given if its text got into the cache
before the limit was lowered, or without a look at its size: `length_le_lastLimit_of_load`,
`load_eq_ok_of_lowered`.
-/

namespace KeywordCompletion

/-- Whether an event leaves the snapshot of a file within the limit, and makes one only of a file that can be
looked at and is within the limit. -/
def CacheEvent.StaysWithin (f : FileId) (s : CachedDisk) : CacheEvent → Prop
  | .limited limit => ∀ stamp ∈ (s.cache.lookup? f).bind CacheEntry.stamp, stamp.size ≤ limit
  | .inserted g _ => g = f → s.cache.contains f = false →
    ∃ stamp ∈ SourceCache.stamp? s.disk f, stamp.size ≤ s.cache.limit
  | _ => True

instance (f : FileId) (s : CachedDisk) : (event : CacheEvent) → Decidable (event.StaysWithin f s)
  | .limited limit => inferInstanceAs (Decidable (∀ stamp ∈ (_ : Option FileStamp), stamp.size ≤ limit))
  | .inserted _ _ =>
    inferInstanceAs (Decidable (_ → _ → ∃ stamp ∈ SourceCache.stamp? s.disk f, stamp.size ≤ s.cache.limit))
  | .updated _ _ | .loaded _ | .looked _ | .removed _ | .disk _ => isTrue trivial

namespace CachedDisk

open SourceCache CacheEvent

/-- Whether every one of the events does so. -/
def AllStayWithin (f : FileId) (s : CachedDisk) : List CacheEvent → Prop
  | [] => True
  | event :: later => event.StaysWithin f s ∧ AllStayWithin f (s.after event) later

instance (f : FileId) : (s : CachedDisk) → (events : List CacheEvent) → Decidable (AllStayWithin f s events)
  | _, [] => isTrue trivial
  | s, event :: later =>
    have := instDecidableAllStayWithin f (s.after event) later
    inferInstanceAs (Decidable (_ ∧ _))

variable {s : CachedDisk} {f : FileId} {buffer : Option Text} {event : CacheEvent}

lemma limit_after (s : CachedDisk) (event : CacheEvent) :
    (s.after event).cache.limit = limitAfter s.cache.limit event := by
  cases event with
  | inserted f t =>
    change (s.cache.insertIfAbsent s.disk f t).limit = _
    unfold insertIfAbsent putIfVacant
    split_ifs <;> rfl
  | loaded f => exact (refreshes_load s.cache s.disk f).limit_eq
  | updated _ _ | looked _ | removed _ | limited _ | disk _ => rfl

lemma limit_run (d : Disk) (events : List CacheEvent) : (run d events).cache.limit = lastLimit events := by
  unfold run lastLimit
  have hstart : (⟨.empty, d⟩ : CachedDisk).cache.limit = defaultLimit := rfl
  generalize (⟨.empty, d⟩ : CachedDisk) = s, defaultLimit = limit at hstart
  induction events generalizing s limit with
  | nil => exact hstart
  | cons event later ih => exact ih _ _ ((limit_after s event).trans (by rw [hstart]))

/-- Whether the entry of a file is the buffer that an editor left there or a snapshot within the limit. -/
structure IsWithin (f : FileId) (buffer : Option Text) (s : CachedDisk) : Prop where
  buffer : ∀ source, s.cache.lookup? f = some ⟨source, none⟩ → buffer.isSome = true
  snapshot : ∀ source stamp, s.cache.lookup? f = some ⟨source, some stamp⟩ →
    stamp.size ≤ s.cache.limit

lemma IsWithin.after (h : IsWithin f buffer s) (hevent : event.StaysWithin f s) :
    IsWithin f (bufferAfter f buffer event) (s.after event) := by
  refine ⟨fun source hl => ?_, fun source stamp hl => ?_⟩
  · generalize hentry : (⟨source, none⟩ : CacheEntry) = entry at hl
    cases entryAfter_after hl with
    | kept hl hb =>
      rw [hb]
      exact h.buffer source (hentry ▸ hl)
    | updated t => simp [bufferAfter]
    | inserted t hc =>
      obtain ⟨stamp, hstamp, -⟩ := hevent rfl hc
      have hnone : none = stamp? s.disk f := congrArg CacheEntry.stamp hentry
      rw [← hnone] at hstamp
      cases hstamp
    | read _ _ _ => cases hentry
  · generalize hentry : (⟨source, some stamp⟩ : CacheEntry) = entry at hl
    rw [limit_after]
    cases entryAfter_after hl with
    | kept hl hb =>
      have hlookup : s.cache.lookup? f = some ⟨source, some stamp⟩ := hentry ▸ hl
      cases event with
      | limited limit => exact hevent stamp (by rw [hlookup]; rfl)
      | updated _ _ | inserted _ _ | loaded _ | looked _ | removed _ | disk _ =>
        exact h.snapshot source stamp hlookup
    | updated t => cases hentry
    | inserted t hc =>
      obtain ⟨other, hother, hle⟩ := hevent rfl hc
      have hsome : some stamp = stamp? s.disk f := congrArg CacheEntry.stamp hentry
      rw [← hsome] at hother
      cases hother
      exact hle
    | read hf hle hd =>
      cases hentry
      exact hle

lemma isWithin_run {d : Disk} {events : List CacheEvent} (hevents : AllStayWithin f ⟨.empty, d⟩ events) :
    IsWithin f (lastBuffer? f events) (run d events) := by
  unfold run lastBuffer?
  have hempty : IsWithin f none ⟨.empty, d⟩ := ⟨fun _ => nofun, fun _ _ => nofun⟩
  generalize (⟨.empty, d⟩ : CachedDisk) = s, (none : Option Text) = buffer at hempty hevents
  induction events generalizing s buffer with
  | nil => exact hempty
  | cons event later ih => exact ih _ _ (hempty.after hevents.1) hevents.2

/-- A file that is given without a buffer is on disk and within the limit. -/
lemma IsWithin.length_le (h : IsWithin f none s) {source : Source}
    (hload : (s.cache.load s.disk f).2 = .ok source) :
    ∃ content modified, f.fileOn? s.disk = some (content, modified) ∧ content.length ≤ s.cache.limit := by
  have hl := loading_load s.cache s.disk f
  rw [hload] at hl
  generalize (s.cache.load s.disk f).1 = after at hl
  cases hl with
  | buffer hb => cases h.buffer source (buffer?_eq_some_iff.1 hb)
  | cached hf hs => exact ⟨_, _, hf, h.snapshot source _ hs⟩
  | read _ hf _ hle _ => exact ⟨_, _, hf, hle⟩

/-- A file above the limit is given if it need not be read, and only then. -/
lemma load_eq_ok_iff_of_lt {content : Bytes} {modified : Int}
    (hf : f.fileOn? s.disk = some (content, modified)) (hlt : s.cache.limit < content.length)
    {source : Source} :
    (s.cache.load s.disk f).2 = .ok source ↔ ∃ stamp, s.cache.lookup? f = some ⟨source, stamp⟩ ∧
      (stamp = none ∨ stamp = some (Disk.stampOf content modified)) := by
  constructor
  · intro hload
    have hl := loading_load s.cache s.disk f
    rw [hload] at hl
    generalize (s.cache.load s.disk f).1 = after at hl
    cases hl with
    | buffer hb => exact ⟨none, buffer?_eq_some_iff.1 hb, Or.inl rfl⟩
    | cached hfile hs =>
      rw [hf, Option.some.injEq, Prod.mk.injEq] at hfile
      obtain ⟨rfl, rfl⟩ := hfile
      exact ⟨_, hs, Or.inr rfl⟩
    | read _ hfile _ hle _ =>
      rw [hf, Option.some.injEq, Prod.mk.injEq] at hfile
      obtain ⟨rfl, rfl⟩ := hfile
      omega
  · rintro ⟨stamp, hl, rfl | rfl⟩
    · exact load_eq_ok_iff_source?.2 (source?_of_buffer? (buffer?_eq_some_iff.2 hl))
    · exact load_eq_ok_iff_source?.2 (source?_of_current hf hl)

/-- After any events, a file above the limit that was set last is given exactly if the cache has a buffer of
it or a snapshot with the stamp that it bears, and it is given as it is there. If the limit was never lowered
below the snapshot of the file, and nothing was inserted for it that was larger than the limit or could not
be looked at, then what a load gives without a buffer is of a file on disk within the limit. -/
theorem length_le_lastLimit_of_load (d : Disk) (events : List CacheEvent) (f : FileId) :
    let s := run d events
    (∀ content modified, f.fileOn? s.disk = some (content, modified) → lastLimit events < content.length →
      ∀ source, (s.cache.load s.disk f).2 = .ok source ↔
        ∃ stamp, s.cache.lookup? f = some ⟨source, stamp⟩ ∧
          (stamp = none ∨ stamp = some (Disk.stampOf content modified))) ∧
    (AllStayWithin f ⟨.empty, d⟩ events → lastBuffer? f events = none →
      ∀ source, (s.cache.load s.disk f).2 = .ok source →
        ∃ content modified, f.fileOn? s.disk = some (content, modified) ∧
          content.length ≤ lastLimit events) := by
  intro s
  rw [← limit_run d events]
  refine ⟨fun content modified hf hlt source => load_eq_ok_iff_of_lt hf hlt, ?_⟩
  intro hevents hbuffer source hload
  have hwithin := isWithin_run hevents
  rw [hbuffer] at hwithin
  exact hwithin.length_le hload

/-- The limit is lowered to the size of the snapshot, and the file is opened, closed and found again. -/
theorem length_le_lastLimit_of_load_lowered :
    let f : FileId := ⟨"/r".toList⟩
    let events : List CacheEvent :=
      [.loaded f, .limited 3, .updated f "edited".toList, .removed f, .inserted f "old".toList]
    let s := run (fileOf (Text.encode "old".toList) 1) events
    (s.cache.load s.disk f).2 = .ok (Source.ofText "old".toList) ∧
      ∃ content modified, f.fileOn? s.disk = some (content, modified) ∧ content.length ≤ 3 := by
  intro f events s
  have hload : (s.cache.load s.disk f).2 = .ok (Source.ofText "old".toList) := by decide +kernel
  obtain ⟨-, hwithin⟩ := length_le_lastLimit_of_load (fileOf (Text.encode "old".toList) 1) events f
  exact ⟨hload, hwithin (by decide +kernel) (by decide +kernel) _ hload⟩

/-- The limit is lowered below the snapshot of a file: a load still gives it. Another cache, with the same
limit and the same disk, does not. -/
theorem load_eq_ok_of_lowered :
    let f : FileId := ⟨"/r".toList⟩
    let s := run (fileOf (Text.encode "old".toList) 1) [.loaded f, .limited 2]
    let late := run (fileOf (Text.encode "old".toList) 1) [.limited 2]
    lastBuffer? f [.loaded f, .limited 2] = none ∧ lastLimit [.loaded f, .limited 2] = 2 ∧
      f.fileOn? s.disk = some (Text.encode "old".toList, 1) ∧
      (s.cache.load s.disk f).2 = .ok (Source.ofText "old".toList) ∧
      (late.cache.load late.disk f).2 = .error (.tooLarge f 3 2) := by
  decide +kernel

end CachedDisk

end KeywordCompletion
