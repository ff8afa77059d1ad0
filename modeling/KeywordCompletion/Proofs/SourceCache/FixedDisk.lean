import KeywordCompletion.Proofs.SourceCache.Coherence
import KeywordCompletion.Proofs.SourceCache.Refreshing

/-!
# Caches on a disk that stays the same

A cache mirrors a disk if its buffers are those given and its snapshots are what is on the disk, none
of them above the limit. What such a cache gives depends on the disk, the buffers and the limit only:
`Mirrors.source?_eq`.
-/

namespace KeywordCompletion.SourceCache

open CachedDisk CacheEvent

/-- Whether a cache has these buffers and this limit, and besides them nothing but current snapshots of
files within the limit. -/
structure Mirrors (d : Disk) (buffers : FileId → Option Text) (limit : Nat) (c : SourceCache) :
    Prop where
  coherent : Coherent [d] buffers limit ⟨c, d⟩
  small : ∀ f source stamp, c.lookup? f = some ⟨source, some stamp⟩ → stamp.size ≤ limit

variable {d : Disk} {buffers : FileId → Option Text} {limit : Nat} {c : SourceCache} {f : FileId}

lemma mirrors_empty (d : Disk) (limit : Nat) :
    Mirrors d (fun _ => none) limit (SourceCache.empty.setLimit limit) := by
  refine ⟨⟨List.mem_singleton.2 rfl, rfl, ?_, ?_⟩, ?_⟩
  · intro f t h
    cases h
  · intro f entry _ h
    cases h
  · intro f source stamp h
    cases h

lemma Mirrors.update (h : Mirrors d buffers limit c) (f : FileId) (t : Text) :
    Mirrors d (fun g => if f = g then some t else buffers g) limit (c.update f t) := by
  refine ⟨h.coherent.update f t, ?_⟩
  intro g source stamp hg
  by_cases hgf : g = f
  · rw [hgf, lookup?_update_self] at hg
    cases hg
  · rw [lookup?_update_of_ne c hgf] at hg
    exact h.small g source stamp hg

lemma Mirrors.remove (h : Mirrors d buffers limit c) (f : FileId) :
    Mirrors d (fun g => if f = g then none else buffers g) limit (c.remove f) := by
  refine ⟨h.coherent.remove f, ?_⟩
  intro g source stamp hg
  by_cases hgf : g = f
  · rw [hgf, lookup?_remove_self] at hg
    cases hg
  · rw [lookup?_remove_of_ne c hgf] at hg
    exact h.small g source stamp hg

lemma small_put (h : ∀ f source stamp, c.lookup? f = some ⟨source, some stamp⟩ → stamp.size ≤ limit)
    {source : Source} {stamp : FileStamp} (hstamp : stamp.size ≤ limit) :
    ∀ g other stamp', (c.put f ⟨source, some stamp⟩).lookup? g = some ⟨other, some stamp'⟩ →
      stamp'.size ≤ limit := by
  intro g other stamp' hg
  by_cases hgf : g = f
  · rw [hgf, lookup?_put_self] at hg
    cases hg
    exact hstamp
  · rw [lookup?_put_of_ne c hgf] at hg
    exact h g other stamp' hg

lemma Mirrors.load (h : Mirrors d buffers limit c) (f : FileId) :
    Mirrors d buffers limit (c.load d f).1 := by
  refine ⟨h.coherent.load f, ?_⟩
  have hl := loading_load c d f
  generalize (c.load d f).1 = after, (c.load d f).2 = answer at hl
  cases hl with
  | buffer _ | unnamed _ _ | cached _ _ | broken _ _ _ _ _ => exact h.small
  | missing hb _ | tooLarge hb _ _ _ =>
    intro g source stamp hg
    by_cases hgf : g = f
    · rw [hgf, lookup?_forget_self, hb] at hg
      cases hg
    · rw [lookup?_forget_of_ne c hgf] at hg
      exact h.small g source stamp hg
  | read _ _ _ hle _ =>
    refine small_put h.small ?_
    rw [← h.coherent.limit_eq]
    exact hle

lemma Mirrors.loads {after : SourceCache} (h : Mirrors d buffers limit c) (hl : Loads d c after) :
    Mirrors d buffers limit after := by
  induction hl with
  | refl => exact h
  | load _ f ih => exact ih.load f

lemma Mirrors.insertIfAbsent (h : Mirrors d buffers limit c) {t : Text} {modified : Int}
    (hfile : f.fileOn? d = some (Text.encode t, modified)) (hsize : Text.size t ≤ limit) :
    Mirrors d buffers limit (c.insertIfAbsent d f t) := by
  refine ⟨h.coherent.insert hfile, ?_⟩
  cases hc : c.contains f with
  | true =>
    rw [insertIfAbsent_of_contains hc]
    exact h.small
  | false =>
    rw [insertIfAbsent_of_not_contains hc, stamp?_of_fileOn? hfile]
    refine small_put h.small ?_
    rw [← Text.length_encode] at hsize
    exact hsize

lemma Mirrors.buffer?_eq (h : Mirrors d buffers limit c) (f : FileId) :
    c.buffer? f = (buffers f).map Source.ofText := by
  cases hb : buffers f with
  | none => exact h.coherent.buffer?_eq_none hb
  | some t => exact buffer?_eq_some_iff.2 (h.coherent.buffer f t hb)

lemma Mirrors.fileOn?_of_lookup? (h : Mirrors d buffers limit c) {source : Source} {stamp : FileStamp}
    (hs : c.lookup? f = some ⟨source, some stamp⟩) :
    ∃ modified, f.fileOn? d = some (Text.encode source.text, modified) ∧
      stamp = Disk.stampOf (Text.encode source.text) modified := by
  have hb : buffers f = none := by
    refine h.coherent.buffers_eq_none ?_
    simp [buffer?, hs]
  obtain ⟨d', hd', modified, hfile, hstamp⟩ := h.coherent.snapshot f _ hb hs
  rw [List.mem_singleton.1 hd'] at hfile
  exact ⟨modified, hfile, Option.some.inj hstamp⟩

/-- A cache that mirrors a disk gives the buffer of a file, or else what is on disk if that is UTF-8 and
within the limit. -/
theorem Mirrors.source?_eq (h : Mirrors d buffers limit c) (f : FileId) :
    c.source? d f = match buffers f with
      | some t => some (Source.ofText t)
      | none => (f.fileOn? d).bind fun (content, _) =>
        if content.length ≤ limit then (Text.decode? content).map Source.ofText else none := by
  cases hb : buffers f with
  | some t => exact source?_of_buffer? (buffer?_eq_some_iff.2 (h.coherent.buffer f t hb))
  | none =>
    have hnone := h.coherent.buffer?_eq_none hb
    have hlimit := h.coherent.limit_eq
    have hl := loading_load c d f
    unfold source?
    dsimp only at hnone hlimit ⊢
    generalize (c.load d f).1 = after, (c.load d f).2 = answer at hl
    cases hl with
    | buffer hbuffer =>
      rw [hnone] at hbuffer
      cases hbuffer
    | unnamed _ hp => simp [FileId.fileOn?, hp, Except.toOption]
    | missing _ hf => simp [hf, Except.toOption]
    | cached hf hs =>
      obtain ⟨modified, hfile, hstamp⟩ := h.fileOn?_of_lookup? hs
      have hsmall := h.small f _ _ hs
      rw [hstamp, Disk.stampOf, Text.length_encode] at hsmall
      simp [hfile, hsmall, Except.toOption]
    | tooLarge _ hf _ hlarge =>
      have hnot : ¬ _ ≤ limit := Nat.not_le_of_lt (hlimit ▸ hlarge)
      simp [hf, hnot, Except.toOption]
    | broken _ hf _ _ hd => simp [hf, hd, Except.toOption]
    | read _ hf _ hle hd =>
      rw [hlimit] at hle
      simp [hf, hle, hd, Except.toOption]

/-- Caches that mirror the same differ by loads only, as far as that can be seen. -/
theorem Mirrors.refreshes {c' : SourceCache} (h : Mirrors d buffers limit c)
    (h' : Mirrors d buffers limit c') : Refreshes d c c' := by
  refine ⟨h'.coherent.limit_eq.trans h.coherent.limit_eq.symm,
    fun f => (h'.buffer?_eq f).trans (h.buffer?_eq f).symm,
    fun f => (h'.source?_eq f).trans (h.source?_eq f).symm, ?_⟩
  rintro f ⟨source, stamp, hs⟩
  obtain ⟨modified, hfile, _⟩ := h'.fileOn?_of_lookup? hs
  exact Or.inr (by simp [hfile])

end KeywordCompletion.SourceCache
