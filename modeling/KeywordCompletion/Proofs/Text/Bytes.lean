import Mathlib.Tactic.Common
import KeywordCompletion.Text.Utf8

/-!
# Bytes that are a text

Only the UTF-8 form of a text is read as that text: `decode?_eq_some_iff`.
-/

namespace KeywordCompletion.Text

lemma eq_encodeChar_append_of_headChar? {bytes : Bytes} {c : Char} (h : headChar? bytes = some c) :
    bytes = String.utf8EncodeChar c ++ bytes.drop c.utf8Size := by
  obtain ⟨rest, hr⟩ := ByteArray.exists_of_utf8DecodeChar?_eq_some h
  have ht : bytes.take 4 = String.utf8EncodeChar c ++ rest.data.toList := by
    have hd := congrArg (fun b => b.data.toList) hr
    simpa using hd
  have hc : (String.utf8EncodeChar c).length = c.utf8Size := String.length_utf8EncodeChar c
  have htake : bytes.take c.utf8Size = String.utf8EncodeChar c := by
    have hs := congrArg (List.take c.utf8Size) ht
    rw [List.take_take, Nat.min_eq_left c.utf8Size_le_four, ← hc, List.take_left] at hs
    rw [← hc, hs]
  conv_lhs => rw [← List.take_append_drop c.utf8Size bytes, htake]

lemma mapM_id_eq_some_iff {parts : List (Option Char)} {t : Text} :
    parts.mapM id = some t ↔ parts = t.map some := by
  induction parts generalizing t with
  | nil => cases t <;> simp
  | cons part parts ih =>
    cases part with
    | none => cases t <;> simp
    | some c =>
      cases t with
      | nil => simp [Option.bind_eq_some_iff]
      | cons d t => simp [Option.bind_eq_some_iff, ih, and_comm]

lemma exists_decodeAfter_eq_append (before : List (Option Char)) (bytes : Bytes) :
    ∃ parts, decodeAfter before bytes = parts ++ before := by
  fun_induction decodeAfter before bytes with
  | case1 before => exact ⟨[], rfl⟩
  | case2 before b rest c hc ih =>
    obtain ⟨parts, hp⟩ := ih
    exact ⟨parts ++ [some c], by simp [hp]⟩
  | case3 before b rest hn ih =>
    obtain ⟨parts, hp⟩ := ih
    exact ⟨parts ++ [none], by simp [hp]⟩

/-- Bytes whose characters are those of a text, none of them ill-formed, are its UTF-8 form. -/
lemma eq_encode_of_decodeAfter {before : List (Option Char)} {bytes : Bytes} {t : Text}
    (h : decodeAfter before bytes = (t.map some).reverse ++ before) : bytes = encode t := by
  fun_induction decodeAfter before bytes generalizing t with
  | case1 before =>
    have ht : t = [] := by simpa using h
    simp [ht]
  | case2 before b rest c hc ih =>
    obtain ⟨parts, hp⟩ :=
      exists_decodeAfter_eq_append (some c :: before) ((b :: rest).drop c.utf8Size)
    have hparts : (t.map some).reverse = parts ++ [some c] := by
      apply (List.append_left_inj before).1
      rw [← h, hp, List.append_assoc, List.singleton_append]
    have hmap : t.map some = some c :: parts.reverse := by
      have hr := congrArg List.reverse hparts
      simpa using hr
    cases t with
    | nil => simp at hmap
    | cons d more =>
      simp only [List.map_cons, List.cons.injEq, Option.some.injEq] at hmap
      obtain ⟨rfl, hmore⟩ := hmap
      have hrest := ih (t := more) (by rw [hp, hmore, List.reverse_reverse])
      rw [eq_encodeChar_append_of_headChar? hc, hrest, encode_cons]
  | case3 before b rest hn ih =>
    obtain ⟨parts, hp⟩ :=
      exists_decodeAfter_eq_append (none :: before) ((b :: rest).drop (brokenLength (b :: rest)))
    have hparts : (t.map some).reverse = parts ++ [none] := by
      apply (List.append_left_inj before).1
      rw [← h, hp, List.append_assoc, List.singleton_append]
    have hmem : (none : Option Char) ∈ (t.map some).reverse := by simp [hparts]
    simp at hmem

/-- Bytes are read as a text exactly when they are its UTF-8 form. -/
theorem decode?_eq_some_iff {bytes : Bytes} {t : Text} :
    decode? bytes = some t ↔ bytes = encode t := by
  constructor
  · intro h
    have hp : decodeParts bytes = t.map some := mapM_id_eq_some_iff.1 h
    refine @eq_encode_of_decodeAfter [] bytes t ?_
    rw [List.append_nil, ← hp, decodeParts, List.reverse_reverse]
  · rintro rfl
    exact decode?_encode t

/-- Whether bytes are the UTF-8 form of a text. -/
def IsUtf8 (bytes : Bytes) : Prop := ∃ t, bytes = encode t

instance (bytes : Bytes) : Decidable (IsUtf8 bytes) :=
  decidable_of_iff ((decode? bytes).isSome = true) <| by
    simp only [IsUtf8, Option.isSome_iff_exists, decode?_eq_some_iff]

lemma isUtf8_encode (t : Text) : IsUtf8 (encode t) := ⟨t, rfl⟩

lemma IsUtf8.append {bytes more : Bytes} (h : IsUtf8 bytes) (h' : IsUtf8 more) :
    IsUtf8 (bytes ++ more) := by
  obtain ⟨s, rfl⟩ := h
  obtain ⟨t, rfl⟩ := h'
  rw [← encode_append]
  exact isUtf8_encode (s ++ t)

lemma IsUtf8.encode_decodeLossy {bytes : Bytes} (h : IsUtf8 bytes) :
    encode (decodeLossy bytes) = bytes := by
  obtain ⟨t, rfl⟩ := h
  rw [decodeLossy_encode]

/-- A byte below `0x80` is a character by itself and no part of another one. -/
lemma toNat_eq_of_mem_encodeChar {b : UInt8} {c : Char} (h : b ∈ String.utf8EncodeChar c)
    (hb : b.toNat < 0x80) : c.toNat = b.toNat := by
  have hcode : c.val.toNat = c.toNat := rfl
  simp only [String.utf8EncodeChar, hcode] at h
  split at h
  · rw [List.mem_singleton] at h
    rw [h, UInt8.toNat_ofNat']
    omega
  -- every byte of a longer form has its highest bit
  exfalso
  split at h
  · simp only [List.mem_cons, List.not_mem_nil, or_false] at h
    rcases h with rfl | rfl <;> rw [UInt8.toNat_ofNat'] at hb <;> omega
  split at h
  · simp only [List.mem_cons, List.not_mem_nil, or_false] at h
    rcases h with rfl | rfl | rfl <;> rw [UInt8.toNat_ofNat'] at hb <;> omega
  · simp only [List.mem_cons, List.not_mem_nil, or_false] at h
    rcases h with rfl | rfl | rfl | rfl <;> rw [UInt8.toNat_ofNat'] at hb <;> omega

end KeywordCompletion.Text
