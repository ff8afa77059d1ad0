import KeywordCompletion.Text.Basic

/-!
# UTF-8

Texts as bytes and back. `decode?` accepts well-formed bytes alone; `decodeLossy` shows every
ill-formed stretch as one `U+FFFD`, where a stretch is as long as it can be the start of a
character. Both give back an encoded text: `decode?_encode` and `decodeLossy_encode`.
-/

namespace KeywordCompletion

abbrev Bytes := List UInt8

namespace Text

/-- The UTF-8 form of a text. -/
def encode (t : Text) : Bytes := t.flatMap String.utf8EncodeChar

def headChar? (bytes : Bytes) : Option Char := (bytes.take 4).toByteArray.utf8DecodeChar? 0

def isTailByte (b : UInt8) : Bool := 0x80 ≤ b && b ≤ 0xBF

/-- Whether a byte can be the second of a character of three or four bytes. -/
def isSecondByte (first b : UInt8) : Bool :=
  if first == 0xE0 then 0xA0 ≤ b && b ≤ 0xBF
  else if first == 0xED then 0x80 ≤ b && b ≤ 0x9F
  else if first == 0xF0 then 0x90 ≤ b && b ≤ 0xBF
  else if first == 0xF4 then 0x80 ≤ b && b ≤ 0x8F
  else 0xE1 ≤ first && first ≤ 0xF3 && isTailByte b

/-- The length of the ill-formed stretch at the head of bytes that start no character. -/
def brokenLength : Bytes → Nat
  | first :: second :: rest =>
    if isSecondByte first second then
      match rest with
      | third :: _ => if 0xF0 ≤ first && isTailByte third then 3 else 2
      | [] => 2
    else 1
  | _ => 1

theorem brokenLength_pos (bytes : Bytes) : 0 < brokenLength bytes := by
  unfold brokenLength
  split <;> (repeat' split) <;> omega

/-- The characters of a string of bytes in reverse, `none` for an ill-formed stretch, after those
that are known already. -/
def decodeAfter (before : List (Option Char)) (bytes : Bytes) : List (Option Char) :=
  match bytes with
  | [] => before
  | b :: rest =>
    match headChar? (b :: rest) with
    | some c => decodeAfter (some c :: before) ((b :: rest).drop c.utf8Size)
    | none => decodeAfter (none :: before) ((b :: rest).drop (brokenLength (b :: rest)))
termination_by bytes.length
decreasing_by
  · have := c.utf8Size_pos
    simp only [List.length_drop, List.length_cons]
    omega
  · have := brokenLength_pos (b :: rest)
    simp only [List.length_drop, List.length_cons]
    omega

/-- The characters of a string of bytes, `none` for an ill-formed stretch. -/
def decodeParts (bytes : Bytes) : List (Option Char) := (decodeAfter [] bytes).reverse

/-- The text of which the bytes are the UTF-8 form. -/
def decode? (bytes : Bytes) : Option Text := (decodeParts bytes).mapM id

/-- The text of a string of bytes, with a replacement character for each ill-formed stretch. -/
def decodeLossy (bytes : Bytes) : Text := (decodeParts bytes).map (·.getD '\uFFFD')

@[simp] theorem encode_nil : encode [] = [] := rfl

@[simp] theorem encode_cons (c : Char) (t : Text) :
    encode (c :: t) = String.utf8EncodeChar c ++ encode t := rfl

@[simp] theorem encode_append (s t : Text) : encode (s ++ t) = encode s ++ encode t := by
  simp [encode]

@[simp] theorem length_encode (t : Text) : (encode t).length = size t := by
  induction t with
  | nil => rfl
  | cons c t ih => simp [ih]

theorem headChar?_encodeChar_append (c : Char) (rest : Bytes) :
    headChar? (String.utf8EncodeChar c ++ rest) = some c := by
  have hl : (String.utf8EncodeChar c).length ≤ 4 := by simpa using c.utf8Size_le_four
  rw [headChar?, List.take_append, List.take_of_length_le hl, List.toByteArray_append,
    ByteArray.utf8DecodeChar?_utf8EncodeChar_append]

theorem decodeAfter_encodeChar_append (before : List (Option Char)) (c : Char) (rest : Bytes) :
    decodeAfter before (String.utf8EncodeChar c ++ rest) = decodeAfter (some c :: before) rest := by
  have h := headChar?_encodeChar_append c rest
  have hd : (String.utf8EncodeChar c ++ rest).drop c.utf8Size = rest := by
    rw [← String.length_utf8EncodeChar, List.drop_left]
  cases hb : String.utf8EncodeChar c ++ rest with
  | nil =>
    have hp := c.utf8Size_pos
    rw [← String.length_utf8EncodeChar, (List.append_eq_nil_iff.1 hb).1] at hp
    simp at hp
  | cons b more =>
    rw [hb] at h hd
    rw [decodeAfter, h]
    simp only [hd]

theorem decodeParts_encode (t : Text) : decodeParts (encode t) = t.map some := by
  suffices h : ∀ before, decodeAfter before (encode t) = (t.map some).reverse ++ before by
    simp [decodeParts, h]
  induction t with
  | nil => intro before; simp [decodeAfter]
  | cons c t ih => intro before; simp [decodeAfter_encodeChar_append, ih]

/-- Reading the UTF-8 form of a text gives the text. -/
@[simp] theorem decode?_encode (t : Text) : decode? (encode t) = some t := by
  rw [decode?, decodeParts_encode]
  induction t with
  | nil => rfl
  | cons c t ih => simp [ih]

/-- Nothing in the UTF-8 form of a text is ill-formed. -/
@[simp] theorem decodeLossy_encode (t : Text) : decodeLossy (encode t) = t := by
  simp [decodeLossy, decodeParts_encode, Function.comp_def]

end Text

end KeywordCompletion
