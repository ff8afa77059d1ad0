import KeywordCompletion.Proofs.Conversions

/-!
# Changes of a document

Changes apply one after the other, each to the text that the ones before it leave. A change of a range
replaces what stands between two places of the text. It is left out only if one of its lines does not
exist, or if it ends before it starts: `Document.applyChanges_rewritten`.
-/

namespace KeywordCompletion

/-- What a change makes of a text. Its positions are looked up in the rows of that text. -/
inductive Change.Rewrites (t : Text) : Change → Text → Prop
  | whole (new : Text) : Rewrites t ⟨none, new⟩ new
  | spliced {range : PositionRange} {before old after : Text} (new : Text)
      (ht : t = before ++ (old ++ after))
      (hstart : LineView.offsetAt? (Source.ofText t) range.start = some (Text.size before))
      (hstop : LineView.offsetAt? (Source.ofText t) range.stop =
        some (Text.size before + Text.size old)) :
      Rewrites t ⟨some range, new⟩ (before ++ (new ++ after))
  /-- There is no such line. -/
  | missing {range : PositionRange} (new : Text)
      (hline : t.count '\n' < range.start.line.toNat ∨ t.count '\n' < range.stop.line.toNat) :
      Rewrites t ⟨some range, new⟩ t
  | reversed {range : PositionRange} {start stop : Nat} (new : Text)
      (hstart : LineView.offsetAt? (Source.ofText t) range.start = some start)
      (hstop : LineView.offsetAt? (Source.ofText t) range.stop = some stop) (hlt : stop < start) :
      Rewrites t ⟨some range, new⟩ t

/-- What changes make of a text, one after the other. -/
inductive Rewritten : Text → List Change → Text → Prop
  | nil (t : Text) : Rewritten t [] t
  | cons {t u v : Text} {change : Change} {changes : List Change} (hfirst : change.Rewrites t u)
      (hmore : Rewritten u changes v) : Rewritten t (change :: changes) v

namespace LineView

lemma Agrees.offsetAt?_eq {α β : Type} [LineView α] [LineView β] {a : α} {b : β} (h : Agrees a b)
    (p : Position) : offsetAt? b p = offsetAt? a p := by
  unfold offsetAt?
  rw [h.lineSpan?_eq]
  congr 1
  funext span
  rw [h.slice?_eq]

/-- An offset between two characters that is not behind the end of its line. -/
def IsOnLine {α : Type} [LineView α] (view : α) (offset : Nat) : Prop :=
  Text.isBoundary (text view) offset = true ∧ ∃ n span, lineOfOffset? view offset = some n ∧
    lineSpan? view n = some span ∧ offset ≤ span.stop

end LineView

namespace Document

variable {d : Document} {p q : Position} {range : PositionRange} {new before old after : Text}
  {start stop : Nat}

lemma offsetAt?_source (d : Document) (p : Position) :
    LineView.offsetAt? (Source.ofText d.text) p = LineView.offsetAt? d p :=
  (d.followsLines.agrees (Source.ofText d.text).followsLines rfl).offsetAt?_eq p

lemma spanOf?_eq_some_iff : d.spanOf? range = some ⟨start, stop⟩ ↔
    LineView.offsetAt? d range.start = some start ∧ LineView.offsetAt? d range.stop = some stop := by
  unfold spanOf?
  cases LineView.offsetAt? d range.start <;> cases LineView.offsetAt? d range.stop <;> simp

lemma exists_offsetAt?_of_le (h : p.line.toNat ≤ d.text.count '\n') :
    ∃ offset, LineView.offsetAt? d p = some offset :=
  Option.isSome_iff_exists.1 (d.followsLines.offsetAt?_isSome_iff.2 h)

lemma spanOf?_eq_none_iff : d.spanOf? range = none ↔
    d.text.count '\n' < range.start.line.toNat ∨ d.text.count '\n' < range.stop.line.toNat := by
  have hline : ∀ p, LineView.offsetAt? d p = none ↔ d.text.count '\n' < p.line.toNat := by
    intro p
    rw [← Option.not_isSome_iff_eq_none, d.followsLines.offsetAt?_isSome_iff]
    exact Nat.not_le
  rw [← hline, ← hline]
  unfold spanOf?
  cases LineView.offsetAt? d range.start <;> cases LineView.offsetAt? d range.stop <;> simp

lemma changed_of_spanOf? (htext : d.text = before ++ (old ++ after))
    (hspan : d.spanOf? range = some ⟨Text.size before, Text.size before + Text.size old⟩) :
    d.changed ⟨some range, new⟩ = before ++ (new ++ after) := by
  simp only [changed, hspan, Option.bind_some]
  rw [htext, splice?_append, Option.getD_some]

lemma changed_of_spanOf?_eq_none (hspan : d.spanOf? range = none) :
    d.changed ⟨some range, new⟩ = d.text := by
  simp only [changed, hspan, Option.bind_none, Option.getD_none]

lemma changed_of_lt (hspan : d.spanOf? range = some ⟨start, stop⟩) (hlt : stop < start) :
    d.changed ⟨some range, new⟩ = d.text := by
  have hnot : ¬ start ≤ stop := by omega
  simp only [changed, hspan, Option.bind_some, splice?, if_neg hnot, Option.getD_none]

lemma exists_between (hstart : LineView.offsetAt? d p = some start)
    (hstop : LineView.offsetAt? d q = some stop) (hle : start ≤ stop) :
    ∃ before old after, d.text = before ++ (old ++ after) ∧ Text.size before = start ∧
      Text.size before + Text.size old = stop := by
  obtain ⟨before, rest, htext, hbefore⟩ :=
    Text.isBoundary_eq_true_iff.1 (d.followsLines.offsetAt?_mem hstart).1
  obtain ⟨whole, after, htext', hwhole⟩ :=
    Text.isBoundary_eq_true_iff.1 (d.followsLines.offsetAt?_mem hstop).1
  obtain ⟨old, rfl, rfl⟩ := Text.exists_append_of_size_le (htext.symm.trans htext') (by omega)
  rw [Text.size_append] at hwhole
  exact ⟨before, old, after, htext, hbefore, hwhole⟩

lemma rewrites_changed (d : Document) (change : Change) : change.Rewrites d.text (d.changed change) := by
  obtain ⟨range, new⟩ := change
  cases range with
  | none => exact .whole new
  | some range =>
    cases hspan : d.spanOf? range with
    | none =>
      rw [changed_of_spanOf?_eq_none hspan]
      exact .missing new (spanOf?_eq_none_iff.1 hspan)
    | some span =>
      obtain ⟨hstart, hstop⟩ := spanOf?_eq_some_iff.1 hspan
      by_cases hle : span.start ≤ span.stop
      · obtain ⟨before, old, after, htext, hbefore, hold⟩ := exists_between hstart hstop hle
        rw [← offsetAt?_source, ← hbefore] at hstart
        rw [← offsetAt?_source, ← hold] at hstop
        rw [changed_of_spanOf? htext (by rw [hspan, hold, hbefore])]
        exact .spliced new htext hstart hstop
      · have hlt : span.stop < span.start := by omega
        rw [← offsetAt?_source] at hstart hstop
        rw [changed_of_lt hspan hlt]
        exact .reversed new hstart hstop hlt

lemma eq_changed_of_rewrites {change : Change} {t : Text} (h : change.Rewrites d.text t) :
    t = d.changed change := by
  cases h with
  | whole => rfl
  | spliced new ht hstart hstop =>
    rw [offsetAt?_source] at hstart hstop
    exact (changed_of_spanOf? ht (spanOf?_eq_some_iff.2 ⟨hstart, hstop⟩)).symm
  | missing new hline => exact (changed_of_spanOf?_eq_none (spanOf?_eq_none_iff.2 hline)).symm
  | reversed new hstart hstop hlt =>
    rw [offsetAt?_source] at hstart hstop
    exact (changed_of_lt (spanOf?_eq_some_iff.2 ⟨hstart, hstop⟩) hlt).symm

lemma rewritten_iff (d : Document) (changes : List Change) (version : Int) (t : Text) :
    Rewritten d.text changes t ↔ t = (d.applyChanges changes version).text := by
  induction changes generalizing d with
  | nil =>
    constructor
    · rintro ⟨⟩
      rfl
    · rintro rfl
      exact .nil _
  | cons change changes ih =>
    have hmore := ih (d.applyChange change)
    constructor
    · intro h
      cases h with
      | cons hfirst h =>
        obtain rfl := eq_changed_of_rewrites hfirst
        exact hmore.1 h
    · intro h
      exact .cons (rewrites_changed d change) (hmore.2 h)

lemma exists_spanOf?_of_le (hpq : p ≤ q) (hp : p.line.toNat ≤ d.text.count '\n')
    (hq : q.line.toNat ≤ d.text.count '\n') :
    ∃ before old after, d.text = before ++ (old ++ after) ∧
      d.spanOf? ⟨p, q⟩ = some ⟨Text.size before, Text.size before + Text.size old⟩ := by
  obtain ⟨start, hstart⟩ := exists_offsetAt?_of_le hp
  obtain ⟨stop, hstop⟩ := exists_offsetAt?_of_le hq
  have hle := d.followsLines.offsetAt?_mono hpq hstart hstop
  obtain ⟨before, old, after, htext, rfl, rfl⟩ := exists_between hstart hstop hle
  exact ⟨before, old, after, htext, spanOf?_eq_some_iff.2 ⟨hstart, hstop⟩⟩

/-- The position of an offset on an addressable line leads back to it. -/
lemma exists_position_of_isOnLine {offset : Nat} (h : LineView.IsOnLine d offset)
    (haddress : ∀ n, LineView.lineOfOffset? d offset = some n → LineView.IsAddressable d n) :
    ∃ p, LineView.positionAt? d offset = some p ∧ LineView.offsetAt? d p = some offset := by
  obtain ⟨hboundary, n, span, hline, hspan, hle⟩ := h
  have hsize := ((d.followsLines.partitions.lineOfOffset?_eq_some_iff offset n).1 hline).1
  obtain ⟨p, hp⟩ :=
    Option.isSome_iff_exists.1 (d.followsLines.positionAt?_isSome_iff.2 ⟨hsize, hboundary⟩)
  obtain ⟨m, span', a, b, hline', hstands, -⟩ := d.followsLines.positionAt?_eq_some_iff.1 hp
  obtain rfl := Option.some.inj (hline.symm.trans hline')
  obtain rfl := Option.some.inj (hspan.symm.trans hstands.span_eq)
  rw [Nat.min_eq_left hle] at hstands
  obtain ⟨hn, -, hunits⟩ := hstands.units16_lt (haddress n hline)
  have hslice := hstands.text_eq
  rw [LineView.lineText?, hspan, Option.bind_some] at hslice
  have hback := offsetAt?_positionAt? hspan hslice hn hunits
  rwa [hstands.offset_eq] at hback

/-- Changes make of a document what they make of its text, and nothing else can come of them. A range whose
lines exist and which does not end before it starts is replaced, and the positions of two offsets in order
on addressable lines are the range between them. -/
theorem applyChanges_rewritten (d : Document) (changes : List Change) (version : Int) :
    (d.applyChanges changes version).version = version ∧
    (∀ t, Rewritten d.text changes t ↔ t = (d.applyChanges changes version).text) ∧
    (∀ p q, p ≤ q → p.line.toNat ≤ d.text.count '\n' → q.line.toNat ≤ d.text.count '\n' →
      ∃ before old after, d.text = before ++ (old ++ after) ∧
        d.spanOf? ⟨p, q⟩ = some ⟨Text.size before, Text.size before + Text.size old⟩ ∧
        ∀ new, d.changed ⟨some ⟨p, q⟩, new⟩ = before ++ (new ++ after)) ∧
    (∀ a b, a ≤ b → LineView.IsOnLine d a → LineView.IsOnLine d b →
      (∀ n, LineView.lineOfOffset? d a = some n → LineView.IsAddressable d n) →
      (∀ n, LineView.lineOfOffset? d b = some n → LineView.IsAddressable d n) →
      ∃ p q, LineView.positionAt? d a = some p ∧ LineView.positionAt? d b = some q ∧
        d.spanOf? ⟨p, q⟩ = some ⟨a, b⟩) := by
  refine ⟨rfl, d.rewritten_iff changes version, fun p q hpq hp hq => ?_, fun a b _ ha hb hline hline' => ?_⟩
  · obtain ⟨before, old, after, htext, hspan⟩ := exists_spanOf?_of_le hpq hp hq
    exact ⟨before, old, after, htext, hspan, fun new => changed_of_spanOf? htext hspan⟩
  · obtain ⟨p, hp, hstart⟩ := exists_position_of_isOnLine ha hline
    obtain ⟨q, hq, hstop⟩ := exists_position_of_isOnLine hb hline'
    exact ⟨p, q, hp, hq, spanOf?_eq_some_iff.2 ⟨hstart, hstop⟩⟩

/-- The first change makes the line that the second one is about. The third one is about a line that does not
exist, and the last one ends before it starts. -/
theorem applyChanges_rewritten_twice :
    let d := ofText "a𝄞\r\nb".toList 1
    let changes : List Change := [⟨some ⟨⟨0, 1⟩, ⟨0, 3⟩⟩, "x\ny".toList⟩, ⟨some ⟨⟨2, 0⟩, ⟨2, 9⟩⟩, "Z".toList⟩,
      ⟨some ⟨⟨0, 0⟩, ⟨3, 0⟩⟩, []⟩, ⟨some ⟨⟨0, 2⟩, ⟨0, 1⟩⟩, []⟩]
    (d.applyChanges changes 7).version = 7 ∧ Rewritten d.text changes "ax\ny\r\nZ".toList ∧
      (⟨0, 2⟩ : Position) ≤ ⟨1, 0⟩ ∧ (∃ before old after, d.text = before ++ (old ++ after) ∧
        d.spanOf? ⟨⟨0, 2⟩, ⟨1, 0⟩⟩ = some ⟨Text.size before, Text.size before + Text.size old⟩ ∧
        ∀ new, d.changed ⟨some ⟨⟨0, 2⟩, ⟨1, 0⟩⟩, new⟩ = before ++ (new ++ after)) ∧
      LineView.IsOnLine d 5 ∧ LineView.IsOnLine d 8 ∧
      ∃ p q, LineView.positionAt? d 5 = some p ∧ LineView.positionAt? d 8 = some q ∧
        d.spanOf? ⟨p, q⟩ = some ⟨5, 8⟩ := by
  intro d changes
  have hfive : LineView.IsOnLine d 5 := ⟨by decide, 0, ⟨0, 5⟩, by decide, by decide, by decide⟩
  have height : LineView.IsOnLine d 8 := ⟨by decide, 1, ⟨7, 8⟩, by decide, by decide, by decide⟩
  have haddress := d.followsLines.isAddressable (by decide)
  obtain ⟨hversion, htext, hreplaced, hpositions⟩ := applyChanges_rewritten d changes 7
  exact ⟨hversion, (htext _).2 (by decide +kernel), by decide,
    hreplaced ⟨0, 2⟩ ⟨1, 0⟩ (by decide) (by decide) (by decide), hfive, height,
    hpositions 5 8 (by decide) hfive height (fun n _ => haddress n) (fun n _ => haddress n)⟩

lemma offsetAt?_blanks (n : Nat) :
    let d := ofText (List.replicate n ' ') 1
    LineView.IsOnLine d n ∧ LineView.positionAt? d n = some ⟨0, .ofNat n⟩ ∧
      LineView.offsetAt? d ⟨0, .ofNat n⟩ = some (n % 2 ^ 32) := by
  intro d
  have hlines : Row.lines d.text = [List.replicate n ' '] := cut_of_forall fun c hc => by
    rw [List.eq_of_mem_replicate hc]
    rfl
  have hchomp : Row.chomp (List.replicate n ' ') = List.replicate n ' ' :=
    Row.chomp_of_notMem (by simp [List.mem_replicate])
  have hspan : LineView.lineSpan? d 0 = some ⟨0, n⟩ := by
    rw [d.lineSpan?_eq, Row.spans, hlines, Row.spansFrom, hchomp, Text.size_replicate_blank, Nat.zero_add]
    rfl
  have hslice : ∀ a b, a + b = n → LineView.slice? d ⟨0, n⟩ =
      some (List.replicate a ' ' ++ List.replicate b ' ') := by
    rintro a b rfl
    rw [List.replicate_append_replicate]
    have h := Text.slice?_append [] (List.replicate (a + b) ' ') []
    rwa [Text.size_nil, Nat.zero_add, Text.size_replicate_blank, List.append_nil] at h
  have hposition := positionAt?_eq hspan (hslice n 0 rfl)
  rw [Text.size_replicate_blank, Text.units16_replicate_blank, Nat.zero_add] at hposition
  have hmod := Nat.mod_le n (2 ^ 32)
  have hcolumn : (UInt32.ofNat n).toNat =
      (0 : UInt32).toNat + Text.units16 (List.replicate (n % 2 ^ 32) ' ') := by
    rw [UInt32.toNat_ofNat', Text.units16_replicate_blank]
    simp
  have hbytes := LineView.bytesBefore_append_of_eq (List.replicate (n - n % 2 ^ 32) ' ') hcolumn
  refine ⟨⟨?_, 0, ⟨0, n⟩, ?_, hspan, Nat.le_refl n⟩, hposition, ?_⟩
  · exact (d.followsLines.positionAt?_isSome_iff.1 (by rw [hposition]; rfl)).2
  · exact lineOfOffset?_eq hspan (hslice n 0 rfl) (Nat.zero_le n) (Nat.le_refl n)
  · have hline : (0 : UInt32).toNat = 0 := rfl
    simp only [LineView.offsetAt?, hline, hspan, Option.bind_some,
      hslice (n % 2 ^ 32) (n - n % 2 ^ 32) (by omega), Option.map_some, hbytes, Text.size_replicate_blank,
      Nat.zero_add]

/-- The column of the end of a line of 2 ^ 32 blanks is zero, so the range between that end and itself stands at
the start of the line. -/
theorem spanOf?_ne_of_long :
    let d := ofText (List.replicate (2 ^ 32) ' ') 1
    LineView.IsOnLine d (2 ^ 32) ∧ LineView.positionAt? d (2 ^ 32) = some ⟨0, 0⟩ ∧
      d.spanOf? ⟨⟨0, 0⟩, ⟨0, 0⟩⟩ = some ⟨0, 0⟩ ∧
      ¬ ∃ p q, LineView.positionAt? d (2 ^ 32) = some p ∧ LineView.positionAt? d (2 ^ 32) = some q ∧
        d.spanOf? ⟨p, q⟩ = some ⟨2 ^ 32, 2 ^ 32⟩ := by
  have hzero : UInt32.ofNat (2 ^ 32) = 0 := rfl
  have h := offsetAt?_blanks (2 ^ 32)
  rw [hzero, Nat.mod_self] at h
  intro d
  obtain ⟨honLine, hposition, hoffset⟩ := h
  have hspan : d.spanOf? ⟨⟨0, 0⟩, ⟨0, 0⟩⟩ = some ⟨0, 0⟩ := spanOf?_eq_some_iff.2 ⟨hoffset, hoffset⟩
  refine ⟨honLine, hposition, hspan, ?_⟩
  rintro ⟨p, q, hp, hq, hpq⟩
  obtain rfl := Option.some.inj (hposition.symm.trans hp)
  obtain rfl := Option.some.inj (hposition.symm.trans hq)
  have hne := congrArg Span.start (Option.some.inj (hspan.symm.trans hpq))
  exact absurd hne (by decide)

end Document

end KeywordCompletion
