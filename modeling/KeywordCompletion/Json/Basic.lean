import KeywordCompletion.Text.Basic

/-!
# JSON values

The values of messages and settings. A number written as an integer that fits a signed or an
unsigned 64-bit word is an integer; every other one (`200.0`, `1e2`, `-0`) is real, and no reader of
this library accepts a real number where it wants an integer.
-/

namespace KeywordCompletion

/-- A JSON value. The members of an object stand in the order in which they were written. -/
inductive Json where
  | null
  | bool (value : Bool)
  | int (value : Int)
  | real (literal : Text)
  | str (value : Text)
  | arr (items : List Json)
  | obj (members : List (String × Json))

namespace Json

def ofString (s : String) : Json := str s.toList

def ofNat (n : Nat) : Json := int n

def ofOption {α : Type} (encode : α → Json) : Option α → Json
  | none => null
  | some a => encode a

/-- The member of an object with a name. Of several members with one name the last counts. -/
def member? (name : String) : Json → Option Json
  | obj members => (members.reverse.find? fun (key, _) => key == name).map Prod.snd
  | _ => none

def text? : Json → Option Text
  | str t => some t
  | _ => none

def bool? : Json → Option Bool
  | bool b => some b
  | _ => none

def items? : Json → Option (List Json)
  | arr items => some items
  | _ => none

/-- The value of an integer between two bounds, both allowed. -/
def intIn? (low high : Int) : Json → Option Int
  | int n => if low ≤ n ∧ n ≤ high then some n else none
  | _ => none

/-- The value of an unsigned integer of at most `bits` bits. -/
def unsigned? (bits : Nat) (j : Json) : Option Nat :=
  (j.intIn? 0 (.ofNat (Nat.pow 2 bits - 1))).map Int.toNat

/-- The value of a signed 32-bit integer. -/
def int32? (j : Json) : Option Int := j.intIn? (-0x80000000) 0x7FFFFFFF

def list? {α : Type} (read : Json → Option α) (j : Json) : Option (List α) :=
  j.items?.bind fun items => items.mapM read

/-- A member that may be missing or null: `none` when it is there and not accepted. -/
def optional? {α : Type} (read : Json → Option α) : Option Json → Option (Option α)
  | none => some none
  | some null => some none
  | some j => (read j).map some

end Json

end KeywordCompletion
