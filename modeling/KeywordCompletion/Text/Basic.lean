/-!
# Texts

A text is the list of its characters, and an offset into it counts the bytes of its UTF-8 form.
An offset names a place in the text only when it falls between two characters: `drop?`, `splitAt?`
and `slice?` answer `none` for every other one. `splitAt?_eq_some_iff` says which parts they give.
-/

namespace KeywordCompletion

abbrev Text := List Char

namespace Text

/-- The length of a text in bytes of UTF-8. -/
def size (t : Text) : Nat :=
  t.foldl (fun n c => n + c.utf8Size) 0

/-- The length of a text in units of UTF-16. -/
def units16 (t : Text) : Nat :=
  t.foldl (fun n c => n + if c.val ≤ 0xFFFF then 1 else 2) 0

theorem foldl_add_eq (f : Char → Nat) (t : Text) (n : Nat) :
    t.foldl (fun n c => n + f c) n = n + t.foldl (fun n c => n + f c) 0 := by
  induction t generalizing n with
  | nil => simp
  | cons c t ih => simp only [List.foldl_cons]; rw [ih (n + f c), ih (0 + f c)]; omega

@[simp] theorem size_nil : size [] = 0 := rfl

@[simp] theorem size_cons (c : Char) (t : Text) : size (c :: t) = c.utf8Size + size t := by
  simp only [size, List.foldl_cons]
  rw [foldl_add_eq]
  omega

@[simp] theorem size_append (s t : Text) : size (s ++ t) = size s + size t := by
  induction s with
  | nil => simp
  | cons c s ih => simp [ih]; omega

@[simp] theorem units16_nil : units16 [] = 0 := rfl

@[simp] theorem units16_cons (c : Char) (t : Text) :
    units16 (c :: t) = (if c.val ≤ 0xFFFF then 1 else 2) + units16 t := by
  simp only [units16, List.foldl_cons]
  rw [foldl_add_eq]
  omega

@[simp] theorem units16_append (s t : Text) : units16 (s ++ t) = units16 s + units16 t := by
  induction s with
  | nil => simp
  | cons c s ih => simp [ih]; omega

/-- The text after its first `n` bytes, when `n` falls between two characters or at an end. -/
def drop? : Text → Nat → Option Text
  | t, 0 => some t
  | [], _ + 1 => none
  | c :: t, n + 1 => if c.utf8Size ≤ n + 1 then drop? t (n + 1 - c.utf8Size) else none

/-- The two parts of a text around byte `n`. -/
def splitAt? (t : Text) (n : Nat) : Option (Text × Text) :=
  (drop? t n).map fun rest => (t.take (t.length - rest.length), rest)

/-- The text between two offsets, when both fall between characters and in this order. -/
def slice? (t : Text) (start stop : Nat) : Option Text :=
  if start ≤ stop then
    ((drop? t start).bind fun rest => splitAt? rest (stop - start)).map Prod.fst
  else none

/-- Whether an offset falls between two characters or at an end of the text. -/
def isBoundary (t : Text) (n : Nat) : Bool := (drop? t n).isSome

@[simp] theorem drop?_zero (t : Text) : drop? t 0 = some t := by
  cases t <;> rfl

theorem drop?_size_append (s t : Text) : drop? (s ++ t) (size s) = some t := by
  induction s with
  | nil => simp
  | cons c s ih =>
    have h := c.utf8Size_pos
    have e : size (c :: s) = (c.utf8Size + size s - 1) + 1 := by simp; omega
    rw [e, List.cons_append, drop?]
    have e' : c.utf8Size + size s - 1 + 1 - c.utf8Size = size s := by omega
    rw [if_pos (by omega), e', ih]

theorem exists_append_of_drop? {t rest : Text} {n : Nat} (h : drop? t n = some rest) :
    ∃ s, t = s ++ rest ∧ size s = n := by
  induction t generalizing n with
  | nil => cases n <;> simp_all [drop?]
  | cons c t ih =>
    cases n with
    | zero => exact ⟨[], by simpa using h, rfl⟩
    | succ n =>
      simp only [drop?] at h
      split at h
      · obtain ⟨s, rfl, hs⟩ := ih h
        exact ⟨c :: s, rfl, by simp [hs]; omega⟩
      · cases h

/-- A text splits at a byte exactly where it is two texts of which the first has that size. -/
theorem splitAt?_eq_some_iff {t s rest : Text} {n : Nat} :
    splitAt? t n = some (s, rest) ↔ t = s ++ rest ∧ size s = n := by
  constructor
  · intro h
    simp only [splitAt?, Option.map_eq_some_iff, Prod.mk.injEq] at h
    obtain ⟨r, hr, hs, rfl⟩ := h
    obtain ⟨s', rfl, hn⟩ := exists_append_of_drop? hr
    simp at hs
    subst hs
    exact ⟨rfl, hn⟩
  · rintro ⟨rfl, rfl⟩
    simp [splitAt?, drop?_size_append]

def trimEnd (p : Char → Bool) (t : Text) : Text := (t.reverse.dropWhile p).reverse

/-- A text without the characters of a class at its two ends. -/
def trim (p : Char → Bool) (t : Text) : Text := trimEnd p (t.dropWhile p)

/-- Whether `part` stands somewhere in the text. -/
def contains (part : Text) : Text → Bool
  | [] => part.isEmpty
  | c :: t => part.isPrefixOf (c :: t) || contains part t

end Text

end KeywordCompletion
