import KeywordCompletion.Cut
import KeywordCompletion.Text.Basic

/-!
# White space

Two classes: a *blank* is a space or a tab and separates the cells of a row; *white space* is every
character with the Unicode property `White_Space` and is what is trimmed from names and settings.
-/

namespace KeywordCompletion.Text

/-- A space or a tab. -/
def isBlank (c : Char) : Bool := c == ' ' || c == '\t'

/-- The Unicode property `White_Space`. -/
def isWhiteSpace (c : Char) : Bool :=
  let n := c.toNat
  (0x09 ≤ n && n ≤ 0x0D) || n == 0x20 || n == 0x85 || n == 0xA0 || n == 0x1680 ||
    (0x2000 ≤ n && n ≤ 0x200A) || n == 0x2028 || n == 0x2029 || n == 0x202F || n == 0x205F ||
    n == 0x3000

theorem isWhiteSpace_of_isBlank {c : Char} (h : isBlank c = true) : isWhiteSpace c = true := by
  simp only [isBlank, Bool.or_eq_true, beq_iff_eq] at h
  rcases h with rfl | rfl <;> decide

theorem utf8Size_of_isBlank {c : Char} (h : isBlank c = true) : c.utf8Size = 1 := by
  simp only [isBlank, Bool.or_eq_true, beq_iff_eq] at h
  rcases h with rfl | rfl <;> decide

/-- A run of blanks has a byte for each character. -/
theorem size_of_blanks {t : Text} (h : ∀ c ∈ t, isBlank c = true) : size t = t.length := by
  induction t with
  | nil => rfl
  | cons c t ih =>
    rw [size_cons, ih fun d hd => h d (List.mem_cons_of_mem _ hd),
      utf8Size_of_isBlank (h c List.mem_cons_self), List.length_cons]
    omega

/-- A run of blanks has a unit of UTF-16 for each character. -/
theorem units16_of_blanks {t : Text} (h : ∀ c ∈ t, isBlank c = true) : units16 t = t.length := by
  induction t with
  | nil => rfl
  | cons c t ih =>
    have hone := Char.utf8Size_eq_one_iff.1 (utf8Size_of_isBlank (h c List.mem_cons_self))
    rw [units16_cons, ih fun d hd => h d (List.mem_cons_of_mem _ hd),
      if_pos (UInt32.le_trans hone (by decide)), List.length_cons]
    omega

/-- The runs of other characters between the white space of a text. -/
def words (t : Text) : List Text := (cut isWhiteSpace t).filter (!·.isEmpty)

end KeywordCompletion.Text
