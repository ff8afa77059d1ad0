import Mathlib.Order.Bounds.Basic
import KeywordCompletion.Proofs.LineViews

/-!
# Positions and offsets

A position counts lines and units of UTF-16, an offset counts bytes. In a text that is viewed by lines
every offset between two characters has a position, and every position on a line stands for an offset. Where
lines and columns are numbers of 32 bits, the ways there and back lose no more than the ending of a line, or
a column within or behind the characters of a line; and both keep the order: `Document.converts_source`.
-/

namespace KeywordCompletion

/-- Positions in the order in which they stand in a text: by their lines, then by their columns. -/
instance : LE Position := ⟨fun p q => p.line < q.line ∨ p.line = q.line ∧ p.character ≤ q.character⟩

instance (p q : Position) : Decidable (p ≤ q) :=
  inferInstanceAs (Decidable (p.line < q.line ∨ p.line = q.line ∧ p.character ≤ q.character))

namespace LineView

/-- The columns of a line at which a character starts or the line ends. -/
def columns (t : Text) : Set Nat := {column | ∃ a b, t = a ++ b ∧ Text.units16 a = column}

/-- A view whose positions and offsets are turned into each other. -/
structure Converts {α : Type} [LineView α] (view : α) : Prop where
  positionAt?_isSome_iff : ∀ offset, (positionAt? view offset).isSome ↔
    offset ≤ Text.size (text view) ∧ Text.isBoundary (text view) offset = true
  /-- There and back: an offset in the ending of a line comes back as the end of that line. -/
  offsetAt?_positionAt? : ∀ offset p, positionAt? view offset = some p →
    lineOfOffset? view offset = some p.line.toNat ∧
      ∃ span, lineSpan? view p.line.toNat = some span ∧ offsetAt? view p = some (min offset span.stop)
  /-- No position lies below the last line or behind the end of its line. -/
  positionAt?_le : ∀ offset p, positionAt? view offset = some p → p.line.toNat ≤ (text view).count '\n' ∧
    ∃ line, lineText? view p.line.toNat = some line ∧ p.character.toNat ≤ Text.units16 line
  offsetAt?_isSome_iff : ∀ p, (offsetAt? view p).isSome ↔ p.line.toNat ≤ (text view).count '\n'
  offsetAt?_mem : ∀ p offset, offsetAt? view p = some offset →
    Text.isBoundary (text view) offset = true ∧
      ∃ span, lineSpan? view p.line.toNat = some span ∧ span.start ≤ offset ∧ offset ≤ span.stop
  /-- Back and there: a column comes back as the next one at which a character starts or the line ends. -/
  positionAt?_offsetAt? : ∀ p offset, offsetAt? view p = some offset →
    ∃ line q, lineText? view p.line.toNat = some line ∧ positionAt? view offset = some q ∧ q.line = p.line ∧
      IsLeast {c ∈ columns line | min p.character.toNat (Text.units16 line) ≤ c} q.character.toNat
  positionAt?_mono : ∀ a b p q, a ≤ b → positionAt? view a = some p → positionAt? view b = some q → p ≤ q
  offsetAt?_mono : ∀ p q a b, p ≤ q → offsetAt? view p = some a → offsetAt? view q = some b → a ≤ b

/-- A column leads to the first place between two characters that is not before it, or to the end. -/
lemma exists_isLeast_columns (column units : UInt32) (t : Text)
    (h : units.toNat + Text.units16 t < 2 ^ 32) :
    ∃ a b, t = a ++ b ∧ Text.size a = bytesBefore column units t ∧
      IsLeast {c ∈ columns t | min column.toNat (units.toNat + Text.units16 t) ≤ units.toNat + c}
        (Text.units16 a) := by
  fun_induction bytesBefore column units t with
  | case1 => exact ⟨[], [], rfl, rfl, ⟨⟨[], [], rfl, rfl⟩, by simp⟩, fun c _ => Nat.zero_le c⟩
  | case2 units c t hle =>
    rw [UInt32.le_iff_toNat_le] at hle
    refine ⟨[], c :: t, rfl, rfl, ⟨⟨[], c :: t, rfl, rfl⟩, ?_⟩, fun c _ => Nat.zero_le c⟩
    exact Nat.le_trans (Nat.min_le_left _ _) hle
  | case3 units c t hlt ih =>
    have hwidth : 0 < if c.val ≤ 0xFFFF then 1 else 2 := by split <;> omega
    have hunits := toNat_add_width h
    rw [UInt32.le_iff_toNat_le] at hlt
    rw [Text.units16_cons] at h
    obtain ⟨a, b, rfl, hsize, ⟨-, hle⟩, hleast⟩ := ih (by omega)
    rw [hunits] at hle hleast
    refine ⟨c :: a, b, rfl, by rw [Text.size_cons, hsize], ⟨⟨c :: a, b, rfl, rfl⟩, ?_⟩, ?_⟩
    · rw [Text.units16_cons, Text.units16_cons]
      omega
    · rintro _ ⟨⟨a', b', ht, rfl⟩, hle'⟩
      rw [Text.units16_cons] at hle'
      cases a' with
      | nil =>
        rw [Text.units16_nil] at hle'
        omega
      | cons c' a' =>
        obtain ⟨rfl, hrest⟩ := List.cons.inj ht
        rw [Text.units16_cons] at hle'
        rw [Text.units16_cons, Text.units16_cons]
        have hmem := hleast ⟨⟨a', b', hrest, rfl⟩, by omega⟩
        omega

lemma isLeast_columns_iff {a b : Text} {column : UInt32} (h : Text.units16 (a ++ b) < 2 ^ 32) :
    Text.size a = bytesBefore column 0 (a ++ b) ↔
      IsLeast {c ∈ columns (a ++ b) | min column.toNat (Text.units16 (a ++ b)) ≤ c} (Text.units16 a) := by
  obtain ⟨a', b', hab, hsize, hleast⟩ := exists_isLeast_columns column 0 (a ++ b) (by simpa using h)
  simp only [UInt32.toNat_zero, Nat.zero_add] at hleast
  rw [← hsize]
  constructor
  · intro hbytes
    obtain ⟨rfl, -⟩ := Text.append_inj_of_size hab hbytes
    exact hleast
  · intro hleast'
    have hunits := hleast'.unique hleast
    apply Nat.le_antisymm
    · exact Text.size_le_of_units16_le hab (Nat.le_of_eq hunits)
    · exact Text.size_le_of_units16_le hab.symm (Nat.le_of_eq hunits.symm)

end LineView

namespace Row.LineAt

open LineView

variable {t a before body ending after : Text} {n offset stop : Nat}

lemma slice?_eq_some_iff (h : LineAt t n before body ending after)
    (hstop : stop ≤ Text.size before + Text.size body) :
    Text.slice? t (Text.size before) stop = some a ↔
      ∃ b, body = a ++ b ∧ Text.size before + Text.size a = stop := by
  rw [Text.slice?_eq_some_iff]
  constructor
  · rintro ⟨before', after', ht, hbefore, hsize⟩
    rw [h.text_eq] at ht
    obtain ⟨rfl, hrest⟩ := Text.append_inj_of_size ht hbefore.symm
    obtain ⟨b, hbody, -⟩ := Text.exists_append_of_size_le hrest.symm (by omega)
    exact ⟨b, hbody, hsize⟩
  · rintro ⟨b, rfl, hsize⟩
    exact ⟨before, b ++ (ending ++ after), by rw [h.text_eq, List.append_assoc], rfl, hsize⟩

/-- An offset up to the next line lies between two characters if it does so on the line. All of the ending
counts as the end of the line. -/
lemma isBoundary_iff (h : LineAt t n before body ending after) (hstart : Text.size before ≤ offset)
    (hstop : offset ≤ Text.size before + Text.size (body ++ ending)) :
    Text.isBoundary t offset = true ↔ ∃ a b, body = a ++ b ∧
      Text.size before + Text.size a = min offset (Text.size before + Text.size body) := by
  rw [Text.isBoundary_eq_true_iff]
  by_cases hle : offset ≤ Text.size before + Text.size body
  · rw [Nat.min_eq_left hle]
    constructor
    · rintro ⟨u, rest, ht, hu⟩
      rw [h.text_eq] at ht
      obtain ⟨a, rfl, hrest⟩ := Text.exists_append_of_size_le ht (by omega)
      rw [Text.size_append] at hu
      obtain ⟨b, hbody, -⟩ := Text.exists_append_of_size_le hrest.symm (by omega)
      exact ⟨a, b, hbody, hu⟩
    · rintro ⟨a, b, rfl, hsize⟩
      exact ⟨before ++ a, b ++ (ending ++ after), by rw [h.text_eq]; simp, by rw [Text.size_append, hsize]⟩
  · have hend : ending = ['\r'] := by
      rcases h.ends with ⟨rfl, -⟩ | hend
      · rw [List.append_nil] at hstop
        exact absurd hstop hle
      · exact hend
    have hsize : Text.size ending = 1 := by rw [hend]; rfl
    rw [Text.size_append] at hstop
    refine iff_of_true ⟨before ++ (body ++ ending), after, by rw [h.text_eq]; simp, ?_⟩
      ⟨body, [], by simp, by omega⟩
    rw [Text.size_append, Text.size_append]
    omega

end Row.LineAt

namespace LineView

open Row

variable {α : Type} [LineView α] {view : α} {t a b : Text} {n offset : Nat} {p q : Position} {span : Span}

lemma FollowsLines.lineStart?_mono (h : FollowsLines view) {m x y : Nat} (hmn : m ≤ n)
    (hx : lineStart? view m = some x) (hy : lineStart? view n = some y) : x ≤ y := by
  rw [h.lineStart?_eq] at hx hy
  rcases Nat.eq_or_lt_of_le hmn with rfl | hlt
  · rw [Option.some.inj (hx.symm.trans hy)]
  · have hpair := Document.pairwise_lineStartsOf (text view)
    rw [Document.lineStartsOf_eq] at hpair
    obtain ⟨hm, rfl⟩ := List.getElem?_eq_some_iff.1 hx
    obtain ⟨hn, rfl⟩ := List.getElem?_eq_some_iff.1 hy
    exact Nat.le_of_lt (List.pairwise_iff_getElem.1 hpair m n hm hn hlt)

lemma FollowsLines.exists_lineSpan?_iff (h : FollowsLines view) :
    (∃ span, lineSpan? view n = some span) ↔ n ≤ (text view).count '\n' := by
  have hlength : (spans (text view)).length = (text view).count '\n' + 1 := by
    rw [spans, length_spansFrom, lines, length_cut]
    rfl
  rw [← Option.isSome_iff_exists, h.lineSpan?_eq, isSome_getElem?, hlength]
  exact Nat.lt_succ_iff

/-- If there is a line further down, then there is one directly below. -/
lemma FollowsLines.exists_lineStart?_succ (h : FollowsLines view) {m y : Nat} (hmn : m < n)
    (hy : lineStart? view n = some y) : ∃ x, lineStart? view (m + 1) = some x ∧ x ≤ y := by
  obtain ⟨span, hspan, -⟩ := Option.map_eq_some_iff.1 hy
  have hcount := h.exists_lineSpan?_iff.1 ⟨span, hspan⟩
  obtain ⟨next, hnext⟩ := (h.exists_lineSpan?_iff (n := m + 1)).2 (by omega)
  have hx : lineStart? view (m + 1) = some next.start := by rw [lineStart?, hnext]; rfl
  exact ⟨next.start, hx, h.lineStart?_mono hmn hx hy⟩

/-- The line of an offset starts at or before it, and the offset is not behind the ending of the line. -/
lemma FollowsLines.exists_lineAt_of_lineOfOffset? (h : FollowsLines view)
    (hline : lineOfOffset? view offset = some n) :
    ∃ before body ending after, LineAt (text view) n before body ending after ∧
      lineSpan? view n = some ⟨Text.size before, Text.size before + Text.size body⟩ ∧
      Text.size before ≤ offset ∧ offset ≤ Text.size before + Text.size (body ++ ending) := by
  obtain ⟨hsize, ⟨start, hstart, hle⟩, hnext⟩ := (h.partitions.lineOfOffset?_eq_some_iff offset n).1 hline
  obtain ⟨span, hspan, rfl⟩ := Option.map_eq_some_iff.1 hstart
  obtain ⟨before, body, ending, after, hat, rfl⟩ := h.exists_lineAt hspan
  refine ⟨before, body, ending, after, hat, hspan, hle, ?_⟩
  rcases hat.next with ⟨rfl, -⟩ | ⟨rest, -, hsome⟩
  · rw [hat.text_eq, List.append_nil, Text.size_append] at hsize
    exact hsize
  · have hlt := hnext _ (by rw [h.lineStart?_eq, List.getElem?_map, hsome])
    omega

lemma lineText?_of_lineAt {before body ending after : Text}
    (hat : LineAt (text view) n before body ending after)
    (hspan : lineSpan? view n = some ⟨Text.size before, Text.size before + Text.size body⟩) :
    lineText? view n = some body := by
  rw [lineText?, hspan, Option.bind_some, slice?, hat.text_eq]
  exact Text.slice?_append before body (ending ++ after)

/-- An offset that stands on a line between two parts of it. -/
structure StandsAt (view : α) (n : Nat) (span : Span) (a b : Text) (offset : Nat) : Prop where
  span_eq : lineSpan? view n = some span
  text_eq : lineText? view n = some (a ++ b)
  offset_eq : span.start + Text.size a = offset
  stop_eq : span.stop = span.start + Text.size (a ++ b)

lemma FollowsLines.standsAt (h : FollowsLines view) (hspan : lineSpan? view n = some span)
    (htext : lineText? view n = some (a ++ b)) :
    StandsAt view n span a b (span.start + Text.size a) := by
  obtain ⟨before, body, ending, after, hat, rfl⟩ := h.exists_lineAt hspan
  obtain rfl := Option.some.inj ((lineText?_of_lineAt hat hspan).symm.trans htext)
  exact ⟨hspan, htext, rfl, rfl⟩

lemma StandsAt.le_stop (h : StandsAt view n span a b offset) : offset ≤ span.stop := by
  rw [h.stop_eq, ← h.offset_eq, Text.size_append]
  omega

lemma FollowsLines.positionAt?_eq_some_iff (h : FollowsLines view) :
    positionAt? view offset = some p ↔ ∃ n span a b, lineOfOffset? view offset = some n ∧
      StandsAt view n span a b (min offset span.stop) ∧ p = ⟨.ofNat n, .ofNat (Text.units16 a)⟩ := by
  constructor
  · intro hp
    obtain ⟨n, hline, hp⟩ := Option.bind_eq_some_iff.1 hp
    obtain ⟨before, body, ending, after, hat, hspan, hstart, -⟩ := h.exists_lineAt_of_lineOfOffset? hline
    rw [hspan, Option.bind_some] at hp
    obtain ⟨a, ha, rfl⟩ := Option.map_eq_some_iff.1 hp
    obtain ⟨b, rfl, hsize⟩ := (hat.slice?_eq_some_iff (Nat.min_le_right _ _)).1 ha
    refine ⟨n, _, a, b, hline, ⟨hspan, lineText?_of_lineAt hat hspan, ?_, rfl⟩, rfl⟩
    rw [hsize, Nat.max_eq_left hstart]
  · rintro ⟨n, span, a, b, hline, hstands, rfl⟩
    obtain ⟨before, body, ending, after, hat, hspan, hstart, -⟩ := h.exists_lineAt_of_lineOfOffset? hline
    obtain rfl := Option.some.inj (hspan.symm.trans hstands.span_eq)
    obtain rfl := Option.some.inj ((lineText?_of_lineAt hat hspan).symm.trans hstands.text_eq)
    have hslice : slice? view ⟨Text.size before, min offset (Text.size before + Text.size (a ++ b))⟩ =
        some a := (hat.slice?_eq_some_iff (Nat.min_le_right _ _)).2 ⟨b, rfl, hstands.offset_eq⟩
    simp only [positionAt?, hline, hspan, Option.bind_some, Nat.max_eq_left hstart, hslice,
      Option.map_some]

lemma FollowsLines.offsetAt?_eq_some_iff (h : FollowsLines view) :
    offsetAt? view p = some offset ↔ ∃ span a b, StandsAt view p.line.toNat span a b offset ∧
      Text.size a = bytesBefore p.character 0 (a ++ b) := by
  constructor
  · intro ho
    obtain ⟨span, hspan, ho⟩ := Option.bind_eq_some_iff.1 ho
    obtain ⟨line, hline, rfl⟩ := Option.map_eq_some_iff.1 ho
    obtain ⟨a, b, rfl, hsize⟩ := exists_append_bytesBefore p.character 0 line
    have htext : lineText? view p.line.toNat = some (a ++ b) := by
      rw [lineText?, hspan, Option.bind_some, hline]
    refine ⟨span, a, b, ?_, hsize⟩
    rw [← hsize]
    exact h.standsAt hspan htext
  · rintro ⟨span, a, b, hstands, hsize⟩
    have htext := hstands.text_eq
    rw [lineText?, hstands.span_eq, Option.bind_some] at htext
    simp only [offsetAt?, hstands.span_eq, Option.bind_some, htext, Option.map_some, ← hsize,
      hstands.offset_eq]

lemma FollowsLines.lineOfOffset?_of_standsAt (h : FollowsLines view)
    (hstands : StandsAt view n span a b offset) : lineOfOffset? view offset = some n := by
  obtain ⟨before, body, ending, after, hat, rfl⟩ := h.exists_lineAt hstands.span_eq
  have hle := hstands.le_stop
  have hoffset := hstands.offset_eq
  simp only at hle hoffset
  rw [h.partitions.lineOfOffset?_eq_some_iff]
  refine ⟨?_, ⟨Text.size before, ?_, by omega⟩, fun next hnext => ?_⟩
  · rw [hat.text_eq, Text.size_append, Text.size_append]
    omega
  · rw [lineStart?, hstands.span_eq]
    rfl
  · rw [h.lineStart?_eq, List.getElem?_map] at hnext
    rcases hat.next with ⟨-, hnone⟩ | ⟨rest, -, hsome⟩
    · rw [hnone] at hnext
      cases hnext
    · obtain rfl := Option.some.inj (hsome.symm.trans hnext)
      rw [Text.size_append]
      omega

/-- The line of an offset does not stand above the line of an offset before it. -/
lemma FollowsLines.lineOfOffset?_mono (h : FollowsLines view) {x y m n : Nat} (hxy : x ≤ y)
    (hm : lineOfOffset? view x = some m) (hn : lineOfOffset? view y = some n) : m ≤ n := by
  obtain ⟨-, ⟨start, hstart, hle⟩, -⟩ := (h.partitions.lineOfOffset?_eq_some_iff x m).1 hm
  obtain ⟨-, -, hnext⟩ := (h.partitions.lineOfOffset?_eq_some_iff y n).1 hn
  by_contra hlt
  obtain ⟨next, hsucc, hle'⟩ := h.exists_lineStart?_succ (Nat.lt_of_not_le hlt) hstart
  have hgt := hnext next hsucc
  omega

lemma FollowsLines.positionAt?_isSome_iff (h : FollowsLines view) :
    (positionAt? view offset).isSome ↔
      offset ≤ Text.size (text view) ∧ Text.isBoundary (text view) offset = true := by
  rw [Option.isSome_iff_exists]
  constructor
  · rintro ⟨p, hp⟩
    obtain ⟨n, span, a, b, hline, hstands, -⟩ := h.positionAt?_eq_some_iff.1 hp
    obtain ⟨before, body, ending, after, hat, hspan, hstart, hstop⟩ :=
      h.exists_lineAt_of_lineOfOffset? hline
    obtain rfl := Option.some.inj (hspan.symm.trans hstands.span_eq)
    obtain rfl := Option.some.inj ((lineText?_of_lineAt hat hspan).symm.trans hstands.text_eq)
    exact ⟨((h.partitions.lineOfOffset?_eq_some_iff offset n).1 hline).1,
      (hat.isBoundary_iff hstart hstop).2 ⟨a, b, rfl, hstands.offset_eq⟩⟩
  · rintro ⟨hsize, hboundary⟩
    obtain ⟨n, hline⟩ := h.partitions.exists_line offset hsize
    obtain ⟨before, body, ending, after, hat, hspan, hstart, hstop⟩ :=
      h.exists_lineAt_of_lineOfOffset? hline
    obtain ⟨a, b, rfl, hbytes⟩ := (hat.isBoundary_iff hstart hstop).1 hboundary
    have hstands : StandsAt view n ⟨Text.size before, Text.size before + Text.size (a ++ b)⟩ a b
        (min offset (Text.size before + Text.size (a ++ b))) :=
      ⟨hspan, lineText?_of_lineAt hat hspan, hbytes, rfl⟩
    exact ⟨_, h.positionAt?_eq_some_iff.2 ⟨n, _, a, b, hline, hstands, rfl⟩⟩

lemma FollowsLines.positionAt?_of_standsAt (h : FollowsLines view)
    (hstands : StandsAt view n span a b offset) :
    positionAt? view offset = some ⟨.ofNat n, .ofNat (Text.units16 a)⟩ := by
  refine h.positionAt?_eq_some_iff.2 ⟨n, span, a, b, h.lineOfOffset?_of_standsAt hstands, ?_, rfl⟩
  rw [Nat.min_eq_left hstands.le_stop]
  exact hstands

lemma FollowsLines.isBoundary_of_standsAt (h : FollowsLines view)
    (hstands : StandsAt view n span a b offset) : Text.isBoundary (text view) offset = true := by
  have hsome : (positionAt? view offset).isSome := by rw [h.positionAt?_of_standsAt hstands]; rfl
  exact (h.positionAt?_isSome_iff.1 hsome).2

lemma FollowsLines.offsetAt?_isSome_iff (h : FollowsLines view) :
    (offsetAt? view p).isSome ↔ p.line.toNat ≤ (text view).count '\n' := by
  rw [← h.exists_lineSpan?_iff, Option.isSome_iff_exists]
  constructor
  · rintro ⟨offset, ho⟩
    obtain ⟨span, a, b, hstands, -⟩ := h.offsetAt?_eq_some_iff.1 ho
    exact ⟨span, hstands.span_eq⟩
  · rintro ⟨span, hspan⟩
    obtain ⟨line, hline, -⟩ := h.partitions.feed p.line.toNat span hspan
    rw [lineText?, hspan, Option.bind_some] at hline
    exact ⟨_, by rw [offsetAt?, hspan, Option.bind_some, hline, Option.map_some]⟩

lemma FollowsLines.offsetAt?_mem (h : FollowsLines view) (ho : offsetAt? view p = some offset) :
    Text.isBoundary (text view) offset = true ∧
      ∃ span, lineSpan? view p.line.toNat = some span ∧ span.start ≤ offset ∧ offset ≤ span.stop := by
  obtain ⟨span, a, b, hstands, -⟩ := h.offsetAt?_eq_some_iff.1 ho
  have hstart := hstands.offset_eq
  exact ⟨h.isBoundary_of_standsAt hstands, span, hstands.span_eq, by omega, hstands.le_stop⟩

lemma FollowsLines.offsetAt?_mono (h : FollowsLines view) {x y : Nat} (hpq : p ≤ q)
    (hx : offsetAt? view p = some x) (hy : offsetAt? view q = some y) : x ≤ y := by
  obtain ⟨span, a, b, hstands, hsize⟩ := h.offsetAt?_eq_some_iff.1 hx
  obtain ⟨span', a', b', hstands', hsize'⟩ := h.offsetAt?_eq_some_iff.1 hy
  rcases hpq with hlt | ⟨heq, hle⟩
  · obtain ⟨-, -, hnext⟩ :=
      (h.partitions.lineOfOffset?_eq_some_iff x p.line.toNat).1 (h.lineOfOffset?_of_standsAt hstands)
    have hstart : lineStart? view q.line.toNat = some span'.start := by
      rw [lineStart?, hstands'.span_eq]
      rfl
    obtain ⟨next, hsucc, hbelow⟩ := h.exists_lineStart?_succ (UInt32.lt_iff_toNat_lt.1 hlt) hstart
    have hbefore := hnext next hsucc
    have hy' := hstands'.offset_eq
    omega
  · rw [← heq] at hstands'
    obtain rfl := Option.some.inj (hstands.span_eq.symm.trans hstands'.span_eq)
    have htext := Option.some.inj (hstands.text_eq.symm.trans hstands'.text_eq)
    have hbytes := bytesBefore_mono (a ++ b) 0 hle
    rw [← hsize, htext, ← hsize'] at hbytes
    have hx' := hstands.offset_eq
    have hy' := hstands'.offset_eq
    omega

lemma StandsAt.units16_lt (hstands : StandsAt view n span a b offset) (h : IsAddressable view n) :
    n < 2 ^ 32 ∧ Text.units16 (a ++ b) < 2 ^ 32 ∧ Text.units16 a < 2 ^ 32 := by
  obtain ⟨hline, hunits⟩ := h _ hstands.text_eq
  refine ⟨hline, hunits, ?_⟩
  rw [Text.units16_append] at hunits
  omega

/-- The position of an offset has the number of its line and the column at which it stands. -/
lemma FollowsLines.exists_standsAt_of_positionAt? (h : FollowsLines view)
    (haddress : ∀ n, IsAddressable view n) (hp : positionAt? view offset = some p) :
    lineOfOffset? view offset = some p.line.toNat ∧
      ∃ span a b, StandsAt view p.line.toNat span a b (min offset span.stop) ∧
        Text.units16 a = p.character.toNat := by
  obtain ⟨n, span, a, b, hline, hstands, rfl⟩ := h.positionAt?_eq_some_iff.1 hp
  obtain ⟨hn, -, ha⟩ := hstands.units16_lt (haddress n)
  dsimp only
  rw [UInt32.toNat_ofNat_of_lt' hn, UInt32.toNat_ofNat_of_lt' ha]
  exact ⟨hline, span, a, b, hstands, rfl⟩

lemma FollowsLines.offsetAt?_of_positionAt? (h : FollowsLines view)
    (haddress : ∀ n, IsAddressable view n) (hp : positionAt? view offset = some p) :
    lineOfOffset? view offset = some p.line.toNat ∧
      ∃ span, lineSpan? view p.line.toNat = some span ∧ offsetAt? view p = some (min offset span.stop) := by
  obtain ⟨hline, span, a, b, hstands, hunits⟩ := h.exists_standsAt_of_positionAt? haddress hp
  refine ⟨hline, span, hstands.span_eq, h.offsetAt?_eq_some_iff.2 ⟨span, a, b, hstands, ?_⟩⟩
  exact (bytesBefore_append_of_eq b (by rw [hunits]; simp)).symm

lemma StandsAt.units16_le {a' b' : Text} {x y : Nat} {span' : Span} (h : StandsAt view n span a b x)
    (h' : StandsAt view n span' a' b' y) (hxy : x ≤ y) : Text.units16 a ≤ Text.units16 a' := by
  obtain rfl := Option.some.inj (h.span_eq.symm.trans h'.span_eq)
  have htext := Option.some.inj (h.text_eq.symm.trans h'.text_eq)
  apply Text.units16_le_of_size_le htext
  have hx := h.offset_eq
  have hy := h'.offset_eq
  omega

lemma FollowsLines.positionAt?_mono (h : FollowsLines view) (haddress : ∀ n, IsAddressable view n) {x y : Nat}
    (hxy : x ≤ y) (hp : positionAt? view x = some p) (hq : positionAt? view y = some q) : p ≤ q := by
  obtain ⟨hline, span, a, b, hstands, hunits⟩ := h.exists_standsAt_of_positionAt? haddress hp
  obtain ⟨hline', span', a', b', hstands', hunits'⟩ := h.exists_standsAt_of_positionAt? haddress hq
  rcases Nat.eq_or_lt_of_le (h.lineOfOffset?_mono hxy hline hline') with heq | hlt
  · rw [← heq] at hstands'
    obtain rfl := Option.some.inj (hstands.span_eq.symm.trans hstands'.span_eq)
    have hle := hstands.units16_le hstands' (by omega)
    exact Or.inr ⟨UInt32.toNat_inj.1 heq, UInt32.le_iff_toNat_le.2 (by omega)⟩
  · exact Or.inl (UInt32.lt_iff_toNat_lt.2 hlt)

theorem FollowsLines.converts (h : FollowsLines view) (haddress : ∀ n, IsAddressable view n) :
    Converts view := by
  refine ⟨fun offset => h.positionAt?_isSome_iff, fun offset p => h.offsetAt?_of_positionAt? haddress, ?_,
    fun p => h.offsetAt?_isSome_iff, fun p offset => h.offsetAt?_mem, ?_,
    fun a b p q => h.positionAt?_mono haddress, fun p q a b => h.offsetAt?_mono⟩
  · intro offset p hp
    obtain ⟨-, span, a, b, hstands, hunits⟩ := h.exists_standsAt_of_positionAt? haddress hp
    refine ⟨h.exists_lineSpan?_iff.1 ⟨span, hstands.span_eq⟩, a ++ b, hstands.text_eq, ?_⟩
    rw [Text.units16_append]
    omega
  · intro p offset ho
    obtain ⟨span, a, b, hstands, hsize⟩ := h.offsetAt?_eq_some_iff.1 ho
    obtain ⟨-, hunits, ha⟩ := hstands.units16_lt (haddress _)
    refine ⟨a ++ b, _, hstands.text_eq, h.positionAt?_of_standsAt hstands, by simp, ?_⟩
    dsimp only
    rw [UInt32.toNat_ofNat_of_lt' ha]
    exact (isLeast_columns_iff hunits).1 hsize

/-- Every line of a text of less than 2 ^ 32 bytes is addressable. -/
lemma FollowsLines.isAddressable (h : FollowsLines view) (hsize : Text.size (text view) < 2 ^ 32) (n : Nat) :
    IsAddressable view n := by
  intro t ht
  obtain ⟨span, hspan, hslice⟩ := Option.bind_eq_some_iff.1 ht
  obtain ⟨before, after, htext, -⟩ := Text.slice?_eq_some_iff.1 hslice
  have hcount := Nat.le_trans (h.exists_lineSpan?_iff.1 ⟨span, hspan⟩) (Text.count_le_size '\n' (text view))
  have hpart : Text.size t ≤ Text.size (text view) := by
    rw [htext, Text.size_append, Text.size_append]
    omega
  have hunits := Text.units16_le_size t
  exact ⟨by omega, by omega⟩

end LineView

/-- Where the number of lines and their lengths are numbers of 32 bits, positions and offsets in a document and
in the source of its text are turned into each other. -/
theorem Document.converts_source (d : Document) (haddress : ∀ n, LineView.IsAddressable d n) :
    LineView.Converts d ∧ LineView.Converts (Source.ofText d.text) := by
  have hagrees := d.followsLines.agrees (Source.ofText d.text).followsLines rfl
  refine ⟨d.followsLines.converts haddress, (Source.ofText d.text).followsLines.converts fun n t ht => ?_⟩
  rw [hagrees.lineText?_eq] at ht
  exact haddress n t ht

/-- The offset between the carriage return and the line feed has the position of the end of the line, and a
column within a surrogate pair stands for the end of the pair. -/
theorem Document.converts_source_pair :
    let d := Document.ofText "Ä𝄞\r\nb".toList 1
    (∀ n, LineView.IsAddressable d n) ∧ LineView.Converts d ∧ LineView.Converts (Source.ofText d.text) ∧
      LineView.positionAt? d 7 = some ⟨0, 3⟩ ∧ LineView.offsetAt? d ⟨0, 2⟩ = some 6 := by
  intro d
  have haddress := d.followsLines.isAddressable (by decide)
  obtain ⟨hd, hsource⟩ := converts_source d haddress
  exact ⟨haddress, hd, hsource, by decide, by decide⟩

end KeywordCompletion
