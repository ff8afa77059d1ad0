import Mathlib.Algebra.Group.Nat.Defs
import KeywordCompletion.Document
import KeywordCompletion.Proofs.Text.Slices

/-!
# Positions in a document

The lines of a document start one behind the other, so an offset in the span of a line lies on that line
only. An offset between two characters of a line is turned into a position and back without loss, and an
edit from one such offset to another replaces what stands between them.
-/

namespace KeywordCompletion

namespace LineView

/-- A line, if there is one, whose number and columns are numbers of 32 bits. -/
def IsAddressable {α : Type} [LineView α] (view : α) (line : Nat) : Prop :=
  ∀ t, lineText? view line = some t → line < 2 ^ 32 ∧ Text.units16 t < 2 ^ 32

variable {t a b : Text} {units column column' : UInt32}

/-- The count of units does not wrap around within a line that is short enough. -/
lemma toNat_add_width {c : Char} (h : units.toNat + Text.units16 (c :: t) < 2 ^ 32) :
    (units + if c.val ≤ 0xFFFF then 1 else 2).toNat = units.toNat + if c.val ≤ 0xFFFF then 1 else 2 := by
  rw [Text.units16_cons] at h
  split at h <;> (simp only [UInt32.toNat_add, *]; exact Nat.mod_eq_of_lt (by simp; omega))

lemma bytesBefore_append_of_eq (b : Text) (h : column.toNat = units.toNat + Text.units16 a) :
    bytesBefore column units (a ++ b) = Text.size a := by
  induction a generalizing units with
  | nil =>
    obtain rfl : column = units := UInt32.toNat_inj.1 h
    cases b <;> simp [bytesBefore]
  | cons c a ih =>
    have hlt : units.toNat + Text.units16 (c :: a) < 2 ^ 32 := h ▸ column.toNat_lt
    have hunits := toNat_add_width hlt
    rw [Text.units16_cons] at h
    have hnot : ¬ column ≤ units := by
      rw [UInt32.le_iff_toNat_le]
      split at h <;> omega
    rw [List.cons_append, bytesBefore, if_neg hnot, Text.size_cons, ih (by rw [hunits]; omega)]

lemma bytesBefore_append (b : Text) (h : Text.units16 a < 2 ^ 32) :
    bytesBefore (.ofNat (Text.units16 a)) 0 (a ++ b) = Text.size a := by
  apply bytesBefore_append_of_eq
  rw [UInt32.toNat_ofNat_of_lt' h]
  simp

lemma bytesBefore_mono (t : Text) (units : UInt32) (h : column ≤ column') :
    bytesBefore column units t ≤ bytesBefore column' units t := by
  induction t generalizing units with
  | nil => exact Nat.le_refl _
  | cons c t ih =>
    rw [bytesBefore, bytesBefore]
    by_cases hle : column ≤ units
    · rw [if_pos hle]
      exact Nat.zero_le _
    · have hle' : ¬ column' ≤ units := fun hle' => hle (UInt32.le_trans h hle')
      rw [if_neg hle, if_neg hle']
      exact Nat.add_le_add_left (ih _) _

/-- A column leads between two characters, or to an end of the line. -/
lemma exists_append_bytesBefore (column units : UInt32) (t : Text) :
    ∃ a b, t = a ++ b ∧ Text.size a = bytesBefore column units t := by
  fun_induction bytesBefore column units t with
  | case1 => exact ⟨[], [], rfl, rfl⟩
  | case2 => exact ⟨[], _, rfl, rfl⟩
  | case3 units c t _ ih =>
    obtain ⟨a, b, rfl, ha⟩ := ih
    exact ⟨c :: a, b, rfl, by rw [Text.size_cons, ha]⟩

end LineView

namespace Document

variable {d : Document} {span : Span} {n offset : Nat} {t a b : Text}

lemma pairwise_lineStartsOf (t : Text) : (lineStartsOf t).Pairwise (· < ·) := by
  let step := fun (state : Nat × List Nat) (c : Char) =>
    (state.1 + c.utf8Size, if c == '\n' then (state.1 + c.utf8Size) :: state.2 else state.2)
  have hinv : ∀ u : Text, ∀ state : Nat × List Nat,
      state.2.Pairwise (· > ·) → (∀ s ∈ state.2, s ≤ state.1) → (u.foldl step state).2.Pairwise (· > ·) := by
    intro u
    induction u with
    | nil => exact fun state h _ => h
    | cons c u ih =>
      intro state hpair hle
      have hpos := c.utf8Size_pos
      rw [List.foldl_cons]
      refine ih _ ?_ ?_
      · simp only [step]
        split
        · rw [List.pairwise_cons]
          refine ⟨fun s hs => ?_, hpair⟩
          have := hle s hs
          omega
        · exact hpair
      · intro s hs
        simp only [step] at hs ⊢
        split at hs
        · rcases List.mem_cons.1 hs with rfl | hs
          · exact Nat.le_refl _
          · have := hle s hs
            omega
        · have := hle s hs
          omega
  rw [lineStartsOf, lineStartsFrom, List.pairwise_reverse]
  exact hinv t (0, [0]) (by simp) (by simp)

lemma length_takeWhile_le {starts : List Nat} {start : Nat} (h : starts.Pairwise (· < ·))
    (hn : starts[n]? = some start) (hstart : start ≤ offset)
    (hnext : ∀ next, starts[n + 1]? = some next → offset < next) :
    (starts.takeWhile fun s => decide (s ≤ offset)).length = n + 1 := by
  induction starts generalizing n with
  | nil => simp at hn
  | cons s starts ih =>
    rw [List.pairwise_cons] at h
    cases n with
    | zero =>
      obtain rfl : s = start := by simpa using hn
      have hnone : starts.takeWhile (fun s => decide (s ≤ offset)) = [] := by
        cases starts with
        | nil => rfl
        | cons next starts =>
          have hlt := hnext next rfl
          rw [List.takeWhile_cons_of_neg]
          simpa using hlt
      rw [List.takeWhile_cons_of_pos (by simpa using hstart), hnone]
      rfl
    | succ n =>
      have hmem : start ∈ starts := List.mem_of_getElem? (by simpa using hn)
      have hlt := h.1 start hmem
      rw [List.takeWhile_cons_of_pos (by simp; omega), List.length_cons, ih h.2 (by simpa using hn)]
      intro next hget
      exact hnext next (by simpa using hget)

lemma lineStarts_of_lineSpan? (h : LineView.lineSpan? d n = some span) :
    d.lineStarts[n]? = some span.start ∧
      ∀ next, d.lineStarts[n + 1]? = some next → span.stop < next := by
  obtain ⟨start, hstart, hspan⟩ := Option.map_eq_some_iff.1 h
  have hspan_start : span.start = start := by rw [← hspan]
  have hspan_stop : ∀ next, d.lineStarts[n + 1]? = some next → span.stop ≤ next - 1 := by
    intro next hnext
    rw [← hspan, hnext]
    simp only
    split <;> omega
  refine ⟨by rw [hstart, hspan_start], fun next hnext => ?_⟩
  have hpair := pairwise_lineStartsOf d.text
  rw [← d.lineStarts_eq] at hpair
  obtain ⟨hn, hget⟩ := List.getElem?_eq_some_iff.1 hstart
  obtain ⟨hn', hget'⟩ := List.getElem?_eq_some_iff.1 hnext
  have hlt := List.pairwise_iff_getElem.1 hpair n (n + 1) hn hn' (Nat.lt_succ_self n)
  have hle := hspan_stop next hnext
  omega

lemma lineOfOffset?_eq (hspan : LineView.lineSpan? d n = some span)
    (hslice : LineView.slice? d span = some t) (hstart : span.start ≤ offset)
    (hstop : offset ≤ span.stop) : LineView.lineOfOffset? d offset = some n := by
  obtain ⟨hn, hnext⟩ := lineStarts_of_lineSpan? hspan
  have hpair := pairwise_lineStartsOf d.text
  rw [← d.lineStarts_eq] at hpair
  have hlength := length_takeWhile_le hpair hn hstart fun next h => Nat.lt_of_le_of_lt hstop (hnext next h)
  obtain ⟨before, after, htext, hbefore, hstop'⟩ := Text.slice?_eq_some_iff.1 hslice
  have hsize : ¬ Text.size d.text < offset := by
    have htext' : d.text = before ++ (t ++ after) := htext
    rw [htext', Text.size_append, Text.size_append]
    omega
  simp only [LineView.lineOfOffset?, if_neg hsize, hlength]

/-- The offset of a position lies between two characters of its line, or at an end of it. -/
lemma exists_append_of_offsetAt? {p : Position} (h : LineView.offsetAt? d p = some offset) :
    ∃ span a b, LineView.lineSpan? d p.line.toNat = some span ∧ LineView.slice? d span = some (a ++ b) ∧
      offset = span.start + Text.size a ∧ offset ≤ span.stop := by
  obtain ⟨span, hspan, h⟩ := Option.bind_eq_some_iff.1 h
  obtain ⟨t, ht, rfl⟩ := Option.map_eq_some_iff.1 h
  obtain ⟨-, -, -, -, hstop⟩ := Text.slice?_eq_some_iff.1 ht
  obtain ⟨a, b, rfl, ha⟩ := LineView.exists_append_bytesBefore p.character 0 t
  rw [Text.size_append] at hstop
  exact ⟨span, a, b, hspan, ht, by rw [ha], by omega⟩

lemma positionAt?_eq (hspan : LineView.lineSpan? d n = some span)
    (hslice : LineView.slice? d span = some (a ++ b)) :
    LineView.positionAt? d (span.start + Text.size a) = some ⟨.ofNat n, .ofNat (Text.units16 a)⟩ := by
  obtain ⟨before, after, htext, hbefore, hstop⟩ := Text.slice?_eq_some_iff.1 hslice
  rw [Text.size_append] at hstop
  have hline := lineOfOffset?_eq hspan hslice (Nat.le_add_right span.start (Text.size a)) (by omega)
  have hmin : min (max (span.start + Text.size a) span.start) span.stop = span.start + Text.size a := by
    omega
  have hpart : LineView.slice? d ⟨span.start, span.start + Text.size a⟩ = some a := by
    rw [LineView.slice?, htext, List.append_assoc, ← hbefore]
    exact Text.slice?_append before a (b ++ after)
  simp only [LineView.positionAt?, hline, Option.bind_some, hspan, hmin, hpart, Option.map_some]

/-- The position of an offset between two characters of a line stands for that offset. -/
lemma offsetAt?_positionAt? (hspan : LineView.lineSpan? d n = some span)
    (hslice : LineView.slice? d span = some (a ++ b)) (hline : n < 2 ^ 32) (hunits : Text.units16 a < 2 ^ 32) :
    ∃ p, LineView.positionAt? d (span.start + Text.size a) = some p ∧
      LineView.offsetAt? d p = some (span.start + Text.size a) := by
  refine ⟨_, positionAt?_eq hspan hslice, ?_⟩
  simp only [LineView.offsetAt?, UInt32.toNat_ofNat_of_lt' hline, hspan, Option.bind_some, hslice,
    Option.map_some, LineView.bytesBefore_append b hunits]

/-- An edit between two offsets of a text replaces what stands between them. -/
lemma splice?_append (before old after new : Text) :
    splice? (before ++ (old ++ after)) ⟨Text.size before, Text.size before + Text.size old⟩ new =
      some (before ++ (new ++ after)) := by
  have hsplit : Text.splitAt? (before ++ (old ++ after)) (Text.size before) =
      some (before, old ++ after) := Text.splitAt?_eq_some_iff.2 ⟨rfl, rfl⟩
  have hdrop : Text.drop? (before ++ (old ++ after)) (Text.size before + Text.size old) = some after := by
    rw [← List.append_assoc, ← Text.size_append]
    exact Text.drop?_size_append _ _
  rw [splice?]
  simp only [Nat.le_add_right, if_true, hsplit, hdrop, List.append_assoc]

end Document

end KeywordCompletion
