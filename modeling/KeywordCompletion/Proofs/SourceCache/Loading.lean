import KeywordCompletion.Proofs.Disk.Files
import KeywordCompletion.SourceCache.Load

/-!
# What a load does

`Loading` lists the ways in which a load can end, each with what it needs of the cache and of the
disk; `loading_load` says that every load ends in one of them. What is proved about loads is proved
by cases on it.
-/

namespace KeywordCompletion

namespace SourceCache

/-- The buffer of a file, if an editor put one there. -/
def buffer? (c : SourceCache) (f : FileId) : Option Source :=
  match c.lookup? f with
  | some ⟨source, none⟩ => some source
  | _ => none

/-- Whether the entry of a file is a snapshot of the disk. -/
def HasSnapshot (c : SourceCache) (f : FileId) : Prop :=
  ∃ source stamp, c.lookup? f = some ⟨source, some stamp⟩

lemma buffer?_eq_some_iff {c : SourceCache} {f : FileId} {source : Source} :
    c.buffer? f = some source ↔ c.lookup? f = some ⟨source, none⟩ := by
  unfold buffer?
  split
  · rename_i h
    simp [h]
  · rename_i h
    constructor
    · intro e
      cases e
    · intro e
      exact absurd e (h source)

lemma buffer?_congr {c c' : SourceCache} {f : FileId} (h : c'.lookup? f = c.lookup? f) :
    c'.buffer? f = c.buffer? f := by
  simp only [buffer?, h]

lemma contains_iff {c : SourceCache} {f : FileId} :
    c.contains f = true ↔ (c.buffer? f).isSome ∨ c.HasSnapshot f := by
  have he : c.contains f = (c.lookup? f).isSome := rfl
  rw [he]
  unfold buffer? HasSnapshot
  cases h : c.lookup? f with
  | none => simp
  | some entry =>
    obtain ⟨source, stamp⟩ := entry
    cases stamp <;> simp

lemma lookup?_update_self (c : SourceCache) (f : FileId) (t : Text) :
    (c.update f t).lookup? f = some ⟨Source.ofText t, none⟩ := by
  simp [update]

lemma lookup?_update_of_ne (c : SourceCache) {f g : FileId} (h : g ≠ f) (t : Text) :
    (c.update f t).lookup? g = c.lookup? g := by
  simp [update, h]

@[simp] lemma lookup?_setLimit (c : SourceCache) (limit : Nat) (f : FileId) :
    (c.setLimit limit).lookup? f = c.lookup? f := rfl

lemma lookup?_forget_of_ne (c : SourceCache) {f g : FileId} (h : g ≠ f) :
    (c.forget f).lookup? g = c.lookup? g := by
  unfold forget
  split
  · split <;> simp [h]
  · rfl

lemma lookup?_forget_self (c : SourceCache) (f : FileId) :
    (c.forget f).lookup? f = (c.buffer? f).map fun source => ⟨source, none⟩ := by
  unfold forget buffer?
  cases h : c.lookup? f with
  | none => simp [h]
  | some entry =>
    obtain ⟨source, stamp⟩ := entry
    cases stamp <;> simp [CacheEntry.isBuffer, h]

lemma buffer?_forget (c : SourceCache) (f g : FileId) : (c.forget f).buffer? g = c.buffer? g := by
  by_cases hgf : g = f
  · subst hgf
    rw [buffer?, lookup?_forget_self]
    cases c.buffer? g <;> rfl
  · exact buffer?_congr (lookup?_forget_of_ne c hgf)

@[simp] lemma limit_forget (c : SourceCache) (f : FileId) : (c.forget f).limit = c.limit := by
  unfold forget
  split
  · split <;> rfl
  · rfl

@[simp] lemma limit_put (c : SourceCache) (f : FileId) (entry : CacheEntry) :
    (c.put f entry).limit = c.limit := rfl

lemma stamp?_of_fileOn? {d : Disk} {f : FileId} {content : Bytes} {modified : Int}
    (h : f.fileOn? d = some (content, modified)) :
    stamp? d f = some (Disk.stampOf content modified) := by
  obtain ⟨p, hp, hs⟩ := FileId.fileOn?_eq_some_iff.1 h
  simp [stamp?, hp, Disk.fileAt?_eq_some_iff.1 hs, DiskNode.stamp]

lemma insertIfAbsent_of_contains {c : SourceCache} {d : Disk} {f : FileId} {t : Text}
    (h : c.contains f = true) : c.insertIfAbsent d f t = c := by
  simp [insertIfAbsent, h]

lemma insertIfAbsent_of_not_contains {c : SourceCache} {d : Disk} {f : FileId} {t : Text}
    (h : c.contains f = false) :
    c.insertIfAbsent d f t = c.put f ⟨Source.ofText t, stamp? d f⟩ := by
  simp [insertIfAbsent, putIfVacant, h]

/-- The ways in which a load of a file can end: the cache after it, and what it answers. -/
inductive Loading (c : SourceCache) (d : Disk) (f : FileId) :
    SourceCache → Except LoadError Source → Prop
  /-- An editor has the file open. -/
  | buffer {source : Source} (hb : c.buffer? f = some source) : Loading c d f c (.ok source)
  /-- The file has no path. -/
  | unnamed (hb : c.buffer? f = none) (hp : f.toPath? = none) :
    Loading c d f c (.error (.notOnDisk f))
  /-- There is no file at the path. -/
  | missing {error : LoadError} (hb : c.buffer? f = none) (hf : f.fileOn? d = none) :
    Loading c d f (c.forget f) (.error error)
  /-- The cache has a snapshot of the file with the stamp that it bears. -/
  | cached {content : Bytes} {modified : Int} {source : Source}
    (hf : f.fileOn? d = some (content, modified))
    (hs : c.lookup? f = some ⟨source, some (Disk.stampOf content modified)⟩) :
    Loading c d f c (.ok source)
  /-- The file is larger than the limit. -/
  | tooLarge {content : Bytes} {modified : Int} (hb : c.buffer? f = none)
    (hf : f.fileOn? d = some (content, modified))
    (hs : ∀ source, c.lookup? f ≠ some ⟨source, some (Disk.stampOf content modified)⟩)
    (hl : c.limit < content.length) :
    Loading c d f (c.forget f) (.error (.tooLarge f content.length c.limit))
  /-- The file is not UTF-8. -/
  | broken {content : Bytes} {modified : Int} (hb : c.buffer? f = none)
    (hf : f.fileOn? d = some (content, modified))
    (hs : ∀ source, c.lookup? f ≠ some ⟨source, some (Disk.stampOf content modified)⟩)
    (hl : content.length ≤ c.limit) (hd : Text.decode? content = none) :
    Loading c d f c (.error (.unreadable f .notUtf8))
  /-- The file is read. -/
  | read {content : Bytes} {modified : Int} {t : Text} (hb : c.buffer? f = none)
    (hf : f.fileOn? d = some (content, modified))
    (hs : ∀ source, c.lookup? f ≠ some ⟨source, some (Disk.stampOf content modified)⟩)
    (hl : content.length ≤ c.limit) (hd : Text.decode? content = some t) :
    Loading c d f (c.put f ⟨Source.ofText t, some (Disk.stampOf content modified)⟩)
      (.ok (Source.ofText t))

lemma loadPlan_of_buffer?_eq_none {c : SourceCache} {f : FileId} (h : c.buffer? f = none)
    (limit : Nat) (d : Disk) :
    loadPlan (c.lookup? f) limit d f =
      match f.toPath? with
      | none => .refuse (.notOnDisk f)
      | some path =>
        match d.stat path with
        | .error reason => .forget (.unreadable f reason)
        | .ok (.file content modified) =>
          let stamp := Disk.stampOf content modified
          match (c.lookup? f).filter fun entry => entry.stamp = some stamp with
          | some entry => .answer entry.source
          | none =>
            if limit < stamp.size then .forget (.tooLarge f stamp.size limit)
            else .read path stamp
        | .ok _ => .forget (.notOnDisk f) := by
  unfold loadPlan
  split
  · rename_i source hc
    rw [buffer?_eq_some_iff.2 hc] at h
    cases h
  · rfl

lemma commit_of_buffer?_eq_none {c : SourceCache} {f : FileId} (h : c.buffer? f = none)
    (source : Source) (stamp : FileStamp) :
    c.commit f source stamp = (c.put f ⟨source, some stamp⟩, source) := by
  unfold commit
  split
  · rename_i other hc
    rw [buffer?_eq_some_iff.2 hc] at h
    cases h
  · rfl

/-- Every load ends in one of the ways listed. -/
theorem loading_load (c : SourceCache) (d : Disk) (f : FileId) :
    Loading c d f (c.load d f).1 (c.load d f).2 := by
  cases hb : c.buffer? f with
  | some source =>
    have hl : c.load d f = (c, .ok source) := by
      simp [load, buffer?_eq_some_iff.1 hb, loadPlan]
    rw [hl]
    exact .buffer hb
  | none =>
    unfold load
    rw [loadPlan_of_buffer?_eq_none hb]
    cases hp : f.toPath? with
    | none => exact .unnamed hb hp
    | some path =>
      have hfile : f.fileOn? d = d.fileAt? path := by simp [FileId.fileOn?, hp]
      dsimp only
      cases hs : d.stat path with
      | error reason => exact .missing hb (by simp [hfile, Disk.fileAt?, hs])
      | ok node =>
        cases node with
        | directory => exact .missing hb (by simp [hfile, Disk.fileAt?, hs])
        | link target => exact .missing hb (by simp [hfile, Disk.fileAt?, hs])
        | file content modified =>
          have hat : d.fileAt? path = some (content, modified) := Disk.fileAt?_eq_some_iff.2 hs
          have hf : f.fileOn? d = some (content, modified) := hfile.trans hat
          dsimp only
          cases hm : (c.lookup? f).filter fun entry =>
              entry.stamp = some (Disk.stampOf content modified) with
          | some entry =>
            obtain ⟨hc, hstamp⟩ := Option.filter_eq_some_iff.1 hm
            obtain ⟨source, stamp⟩ := entry
            simp only [decide_eq_true_eq] at hstamp
            exact .cached hf (by rw [hc, hstamp])
          | none =>
            have hother : ∀ source,
                c.lookup? f ≠ some ⟨source, some (Disk.stampOf content modified)⟩ := by
              intro source hc
              simp [hc] at hm
            dsimp only
            by_cases hl : c.limit < (Disk.stampOf content modified).size
            · rw [if_pos hl]
              exact .tooLarge hb hf hother hl
            · rw [if_neg hl]
              have hle : content.length ≤ c.limit := Nat.le_of_not_lt hl
              cases hd : Text.decode? content with
              | none =>
                simp only [Disk.readText_of_decode?_eq_none hat hd]
                exact .broken hb hf hother hle hd
              | some t =>
                simp only [Disk.readText_of_decode? hat hd, commit_of_buffer?_eq_none hb]
                exact .read hb hf hother hle hd

end SourceCache

end KeywordCompletion
