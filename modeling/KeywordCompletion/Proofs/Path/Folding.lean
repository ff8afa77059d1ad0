import Mathlib.Data.List.Basic
import KeywordCompletion.Path.Basic
import KeywordCompletion.Proofs.Cut
import KeywordCompletion.Proofs.Text.Bytes

/-!
# Folded paths

A path that is put together from parts has these parts again: `parts_ofParts`. Folding leaves at most one
double dot, at the head, so a folded path stays as it is when it is folded again: `folded_folded`. What is
made from paths that are texts is a text, since a slash is never a part of the UTF-8 form of another
character.
-/

namespace KeywordCompletion

open Text

namespace PathPart

/-- The names that stand for themselves between slashes. -/
structure IsName (bytes : Bytes) : Prop where
  ne_nil : bytes ≠ []
  slash_notMem : Path.slash ∉ bytes
  ne_dot : bytes ≠ [Path.dot]
  ne_dotDot : bytes ≠ [Path.dot, Path.dot]

/-- A part that can stand anywhere in a path. -/
inductive IsInner : PathPart → Prop
  | up : IsInner .up
  | name {bytes : Bytes} (h : IsName bytes) : IsInner (.name bytes)

variable {part : PathPart}

lemma IsInner.ne_nil (h : part.IsInner) : Path.partBytes part ≠ [] := by
  cases h with
  | up => simp [Path.partBytes]
  | name h => exact h.ne_nil

lemma IsInner.slash_notMem (h : part.IsInner) : Path.slash ∉ Path.partBytes part := by
  cases h with
  | up => decide
  | name h => exact h.slash_notMem

lemma IsInner.ne_dot (h : part.IsInner) : Path.partBytes part ≠ [Path.dot] := by
  cases h with
  | up => simp [Path.partBytes]
  | name h => exact h.ne_dot

lemma IsInner.part?_partBytes (h : part.IsInner) : Path.part? (Path.partBytes part) = some part := by
  cases h with
  | up => rfl
  | name h => rw [Path.partBytes, Path.part?, if_neg h.ne_dot, if_neg h.ne_dotDot]

end PathPart

namespace Path

open PathPart

variable {p : Path} {inner : List PathPart}

lemma isInner_of_part? {piece : Bytes} {part : PathPart} (h : piece ∈ p.pieces)
    (hpart : part? piece = some part) : part.IsInner := by
  obtain ⟨hcut, hne⟩ := List.mem_filter.1 h
  unfold part? at hpart
  split at hpart
  · cases hpart
  · rename_i hdot
    split at hpart
    · cases hpart
      exact .up
    · rename_i hdotDot
      cases hpart
      refine .name ⟨by simpa using hne, ?_, hdot, hdotDot⟩
      intro hmem
      simpa using not_isCut_of_mem_cut hcut _ hmem

/-- Besides a head a path consists of parts that can stand anywhere. -/
lemma exists_parts (p : Path) : ∃ inner, (∀ part ∈ inner, part.IsInner) ∧
    (p.isAbsolute = false ∧ p.parts = inner ∨ p.isAbsolute = true ∧ p.parts = .root :: inner ∨
      p.isAbsolute = false ∧ p.parts = .here :: inner) := by
  refine ⟨p.pieces.filterMap part?, ?_, ?_⟩
  · intro part hpart
    obtain ⟨piece, hpiece, he⟩ := List.mem_filterMap.1 hpart
    exact isInner_of_part? hpiece he
  · unfold parts
    split
    · rename_i habs
      exact Or.inr (Or.inl ⟨habs, rfl⟩)
    · rename_i hrel
      rw [Bool.not_eq_true] at hrel
      split
      · exact Or.inr (Or.inr ⟨hrel, rfl⟩)
      · exact Or.inl ⟨hrel, rfl⟩

lemma pieces_intercalate {parts : List Bytes} (hne : parts ≠ []) (h : ∀ part ∈ parts, slash ∉ part) :
    pieces ⟨[slash].intercalate parts⟩ = parts.filter (!·.isEmpty) := by
  have hslash : ((slash == slash) : Bool) = true := by decide
  have hparts : ∀ part ∈ parts, ∀ b ∈ part, (b == slash) = false := by
    intro part hpart b hb
    rw [beq_eq_false_iff_ne]
    rintro rfl
    exact h part hpart hb
  rw [pieces, @cut_intercalate _ (· == slash) _ hslash _ hne hparts]

lemma filter_partBytes (h : ∀ part ∈ inner, part.IsInner) :
    (inner.map partBytes).filter (!·.isEmpty) = inner.map partBytes := by
  rw [List.filter_eq_self]
  intro bytes hbytes
  obtain ⟨part, hpart, rfl⟩ := List.mem_map.1 hbytes
  simpa using (h part hpart).ne_nil

lemma filterMap_partBytes (h : ∀ part ∈ inner, part.IsInner) :
    (inner.map partBytes).filterMap part? = inner := by
  rw [List.filterMap_map]
  calc inner.filterMap (part? ∘ partBytes)
      = inner.filterMap some := List.filterMap_congr fun part hpart => (h part hpart).part?_partBytes
    _ = inner := List.filterMap_some

lemma ofParts_eq (h : inner ≠ [.root]) : ofParts inner = ⟨[slash].intercalate (inner.map partBytes)⟩ := by
  unfold ofParts
  split
  · exact absurd rfl h
  · rfl

lemma pieces_ofParts (h : ∀ part ∈ inner, part.IsInner) : (ofParts inner).pieces = inner.map partBytes := by
  cases inner with
  | nil => rfl
  | cons part more =>
    have hroot : part :: more ≠ [.root] := by
      rintro ⟨⟩
      cases h .root List.mem_cons_self
    rw [ofParts_eq hroot, pieces_intercalate (by simp), filter_partBytes h]
    intro bytes hbytes
    obtain ⟨part, hpart, rfl⟩ := List.mem_map.1 hbytes
    exact (h part hpart).slash_notMem

lemma pieces_ofParts_root (h : ∀ part ∈ inner, part.IsInner) :
    (ofParts (.root :: inner)).pieces = inner.map partBytes := by
  cases inner with
  | nil => rfl
  | cons part more =>
    rw [ofParts_eq (by simp), pieces_intercalate (by simp)]
    · rw [List.map_cons, List.filter_cons_of_neg (by simp [partBytes]), filter_partBytes h]
    · intro bytes hbytes
      obtain ⟨part, hpart, rfl⟩ := List.mem_map.1 hbytes
      rcases List.mem_cons.1 hpart with rfl | hpart
      · simp [partBytes]
      · exact (h part hpart).slash_notMem

lemma isAbsolute_ofParts (h : ∀ part ∈ inner, part.IsInner) : (ofParts inner).isAbsolute = false := by
  cases inner with
  | nil => rfl
  | cons part more =>
    have hpart := h part List.mem_cons_self
    have hroot : part :: more ≠ [.root] := by
      rintro ⟨⟩
      cases hpart
    obtain ⟨b, rest, hb⟩ := List.exists_cons_of_ne_nil hpart.ne_nil
    have hne : b ≠ slash := by
      rintro rfl
      apply hpart.slash_notMem
      rw [hb]
      exact List.mem_cons_self
    rw [ofParts_eq hroot]
    cases more <;> simp [isAbsolute, hb, hne]

lemma isAbsolute_ofParts_root (inner : List PathPart) : (ofParts (.root :: inner)).isAbsolute = true := by
  cases inner with
  | nil => rfl
  | cons part more =>
    rw [ofParts_eq (by simp)]
    simp [isAbsolute, partBytes]

theorem parts_ofParts (h : ∀ part ∈ inner, part.IsInner) : (ofParts inner).parts = inner := by
  have hhead : (inner.map partBytes).head? ≠ some [dot] := by
    intro hdot
    obtain ⟨part, hpart, he⟩ := List.mem_map.1 (List.mem_of_head? hdot)
    exact (h part hpart).ne_dot he
  rw [parts, isAbsolute_ofParts h, pieces_ofParts h, filterMap_partBytes h, if_neg (by simp), if_neg hhead]

theorem parts_ofParts_root (h : ∀ part ∈ inner, part.IsInner) :
    (ofParts (.root :: inner)).parts = .root :: inner := by
  rw [parts, isAbsolute_ofParts_root, pieces_ofParts_root h, filterMap_partBytes h, if_pos rfl]

/-- What can stand before the names of a folded path, in reverse. -/
def foldedHeads : List (List PathPart) := [[], [.up], [.root], [.up, .root]]

/-- The parts of folded paths, in reverse. -/
inductive IsFolded : List PathPart → Prop
  | head {before : List PathPart} (h : before ∈ foldedHeads) : IsFolded before
  | name {before : List PathPart} {bytes : Bytes} (h : IsFolded before) (hname : IsName bytes) :
      IsFolded (.name bytes :: before)

lemma IsFolded.foldPart {before : List PathPart} {part : PathPart} (h : IsFolded before)
    (hpart : part.IsInner) : IsFolded (foldPart before part) := by
  cases hpart with
  | name hname => exact h.name hname
  | up =>
    cases h with
    | name h _ => exact h
    | head h =>
      apply IsFolded.head
      revert before
      decide

lemma IsFolded.foldl {before : List PathPart} (h : IsFolded before) (hinner : ∀ part ∈ inner, part.IsInner) :
    IsFolded (inner.foldl Path.foldPart before) := by
  induction inner generalizing before with
  | nil => exact h
  | cons part inner ih =>
    rw [List.forall_mem_cons] at hinner
    exact ih (h.foldPart hinner.1) hinner.2

lemma isFolded_foldl (p : Path) : IsFolded (p.parts.foldl foldPart []) := by
  obtain ⟨inner, hinner, ⟨-, hparts⟩ | ⟨-, hparts⟩ | ⟨-, hparts⟩⟩ := exists_parts p <;> rw [hparts]
  · exact @IsFolded.foldl inner [] (.head (by decide)) hinner
  · exact @IsFolded.foldl inner [.root] (.head (by decide)) hinner
  · exact @IsFolded.foldl inner [] (.head (by decide)) hinner

lemma IsFolded.foldl_reverse {stack : List PathPart} (h : IsFolded stack) :
    stack.reverse.foldl Path.foldPart [] = stack := by
  induction h with
  | @head before h =>
    revert before
    decide
  | name h hname ih =>
    rw [List.reverse_cons, List.foldl_append, ih]
    rfl

lemma IsFolded.exists_inner {stack : List PathPart} (h : IsFolded stack) :
    ∃ inner, (∀ part ∈ inner, part.IsInner) ∧ (stack.reverse = inner ∨ stack.reverse = .root :: inner) := by
  induction h with
  | head h =>
    simp only [foldedHeads, List.mem_cons, List.not_mem_nil, or_false] at h
    rcases h with rfl | rfl | rfl | rfl
    · exact ⟨[], by simp, Or.inl rfl⟩
    · exact ⟨[.up], by simpa using .up, Or.inl rfl⟩
    · exact ⟨[], by simp, Or.inr rfl⟩
    · exact ⟨[.up], by simpa using .up, Or.inr rfl⟩
  | @name before bytes h hname ih =>
    obtain ⟨inner, hinner, hstack⟩ := ih
    refine ⟨inner ++ [.name bytes], ?_, ?_⟩
    · rw [List.forall_mem_append]
      exact ⟨hinner, by simpa using .name hname⟩
    · rw [List.reverse_cons]
      exact hstack.imp (congrArg (· ++ [_])) (congrArg (· ++ [_]))

lemma IsFolded.parts_ofParts {stack : List PathPart} (h : IsFolded stack) :
    (ofParts stack.reverse).parts = stack.reverse := by
  obtain ⟨inner, hinner, hstack | hstack⟩ := h.exists_inner <;> rw [hstack]
  · exact Path.parts_ofParts hinner
  · exact parts_ofParts_root hinner

theorem folded_folded (p : Path) : p.folded.folded = p.folded := by
  have h := isFolded_foldl p
  calc p.folded.folded
      = ofParts (p.folded.parts.foldl foldPart []).reverse := rfl
    _ = ofParts ((p.parts.foldl foldPart []).reverse.foldl foldPart []).reverse := by
        rw [folded, h.parts_ofParts]
    _ = p.folded := by rw [h.foldl_reverse, folded]

lemma cut_encode (t : Text) : cut (· == slash) (encode t) = (cut (· == '/') t).map encode := by
  induction t with
  | nil => rfl
  | cons c t ih =>
    rw [encode_cons]
    by_cases hc : c = '/'
    · subst hc
      rw [cut_cons_of_isCut (· == '/') rfl]
      exact (cut_cons_of_isCut (· == slash) rfl (encode t)).trans (congrArg ([] :: ·) ih)
    · obtain ⟨part, more, he⟩ := List.exists_cons_of_ne_nil (cut_ne_nil (· == '/') t)
      have hbytes : ∀ b ∈ String.utf8EncodeChar c, (b == slash) = false := by
        intro b hb
        rw [beq_eq_false_iff_ne]
        rintro rfl
        exact hc (Char.ext (UInt32.toNat_inj.1 (toNat_eq_of_mem_encodeChar hb (by decide))))
      rw [he] at ih
      rw [cut_append_of_forall _ hbytes _ _ _ ih, cut_cons_of_not (by simpa using hc) he]
      rfl

lemma isUtf8_of_mem_pieces (h : IsUtf8 p.bytes) : ∀ piece ∈ p.pieces, IsUtf8 piece := by
  obtain ⟨t, ht⟩ := h
  intro piece hpiece
  rw [pieces, ht, cut_encode] at hpiece
  obtain ⟨s, -, rfl⟩ := List.mem_map.1 (List.mem_filter.1 hpiece).1
  exact isUtf8_encode s

lemma isUtf8_of_mem_parts (h : IsUtf8 p.bytes) : ∀ part ∈ p.parts, IsUtf8 (partBytes part) := by
  have hpieces : ∀ part ∈ p.pieces.filterMap part?, IsUtf8 (partBytes part) := by
    intro part hpart
    obtain ⟨piece, hpiece, he⟩ := List.mem_filterMap.1 hpart
    unfold part? at he
    split at he
    · cases he
    · split at he
      · cases he
        exact isUtf8_encode "..".toList
      · cases he
        exact isUtf8_of_mem_pieces h piece hpiece
  unfold parts
  split
  · exact List.forall_mem_cons.2 ⟨isUtf8_encode [], hpieces⟩
  · split
    · exact List.forall_mem_cons.2 ⟨isUtf8_encode ".".toList, hpieces⟩
    · exact hpieces

lemma isUtf8_intercalate {parts : List Bytes} (h : ∀ part ∈ parts, IsUtf8 part) :
    IsUtf8 ([slash].intercalate parts) := by
  have hslash : IsUtf8 [slash] := isUtf8_encode ['/']
  induction parts with
  | nil => exact isUtf8_encode []
  | cons part parts ih =>
    rw [List.forall_mem_cons] at h
    cases parts with
    | nil => simpa using h.1
    | cons next more =>
      rw [List.intercalate_cons_cons]
      exact (h.1.append hslash).append (ih h.2)

lemma isUtf8_ofParts {parts : List PathPart} (h : ∀ part ∈ parts, IsUtf8 (partBytes part)) :
    IsUtf8 (ofParts parts).bytes := by
  unfold ofParts
  split
  · exact isUtf8_encode ['/']
  · exact isUtf8_intercalate (List.forall_mem_map.2 h)

lemma forall_foldPart {before : List PathPart} {part : PathPart}
    (h : ∀ x ∈ before, IsUtf8 (partBytes x)) (hpart : IsUtf8 (partBytes part)) :
    ∀ x ∈ foldPart before part, IsUtf8 (partBytes x) := by
  unfold foldPart
  split
  · exact h
  · split
    · simpa using hpart
    · simpa using ⟨hpart, isUtf8_encode []⟩
    · exact fun x hx => h x (List.mem_cons_of_mem _ hx)
  · exact List.forall_mem_cons.2 ⟨hpart, h⟩

lemma isUtf8_folded (h : IsUtf8 p.bytes) : IsUtf8 p.folded.bytes := by
  apply isUtf8_ofParts
  simp only [List.mem_reverse]
  have hparts := isUtf8_of_mem_parts h
  refine List.foldlRecOn (motive := fun before => ∀ x ∈ before, IsUtf8 (partBytes x)) p.parts foldPart
    (by simp) ?_
  intro before hbefore part hpart
  exact forall_foldPart hbefore (hparts part hpart)

lemma isUtf8_join {q : Path} (h : IsUtf8 p.bytes) (hq : IsUtf8 q.bytes) : IsUtf8 (p.join q).bytes := by
  unfold join
  split
  · exact hq
  · split
    · exact h.append hq
    · exact h.append ((isUtf8_encode ['/']).append hq)

lemma isUtf8_parent? {q : Path} (h : IsUtf8 p.bytes) (hq : p.parent? = some q) : IsUtf8 q.bytes := by
  have hparts := isUtf8_of_mem_parts h
  unfold parent? at hq
  split at hq
  · cases hq
  · cases hq
  · rename_i before _ hreverse
    cases hq
    apply isUtf8_ofParts
    intro part hpart
    apply hparts part
    rw [← List.mem_reverse, hreverse]
    exact List.mem_cons_of_mem _ (List.mem_reverse.1 hpart)

lemma isUtf8_ofNames {names : List Bytes} (h : ∀ name ∈ names, IsUtf8 name) : IsUtf8 (ofNames names).bytes := by
  apply isUtf8_ofParts
  rw [List.forall_mem_cons]
  exact ⟨isUtf8_encode [], List.forall_mem_map.2 h⟩

lemma ofText_display (h : IsUtf8 p.bytes) : ofText p.display = p := by
  rw [ofText, display, h.encode_decodeLossy]

end Path

end KeywordCompletion
