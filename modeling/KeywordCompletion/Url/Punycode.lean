import KeywordCompletion.Text.Basic

/-!
# Punycode

The ASCII form of a label of a domain: its ASCII characters, then the others as the differences
between successive code points, each a number of variable length in base 36.
-/

namespace KeywordCompletion.Url.Punycode

/-- A digit in base 36. -/
def digit (n : Nat) : Char :=
  if n < 26 then Char.ofNat ('a'.toNat + n) else Char.ofNat ('0'.toNat + n - 26)

/-- The largest digit with which a number can end at some place, for a bias. -/
def threshold (place bias : Nat) : Nat :=
  if place ≤ bias + 1 then 1 else if bias + 26 ≤ place then 26 else place - bias

/-- A number of variable length from place `place` on. -/
def number (bias : Nat) : Nat → Nat → Nat → Text
  | 0, _, _ => []
  | fuel + 1, place, n =>
    let t := threshold place bias
    if n < t then [digit n]
    else digit (t + (n - t) % (36 - t)) :: number bias fuel (place + 36) ((n - t) / (36 - t))

/-- The reduction of a difference until it is small, counted in steps of 36. -/
def settle : Nat → Nat → Nat → Nat
  | 0, k, delta => k + 36 * delta / (delta + 38)
  | fuel + 1, k, delta =>
    if 455 < delta then settle fuel (k + 36) (delta / 35) else k + 36 * delta / (delta + 38)

/-- The bias after a difference, when `count` characters are written. -/
def adapt (delta count : Nat) (isFirst : Bool) : Nat :=
  let delta := if isFirst then delta / 700 else delta / 2
  settle 64 0 (delta + delta / count)

/-- How far the encoding has come: the code point it has reached, the difference so far, the bias,
the number of characters written and the text. -/
structure State where
  next : Nat
  delta : Nat
  bias : Nat
  written : Nat
  text : Text

/-- Takes every character of a label against one code point. -/
def pass (basic : Nat) (point : Nat) (label : Text) (s : State) : State :=
  label.foldl (fun s c =>
    if c.toNat < point then { s with delta := s.delta + 1 }
    else if c.toNat = point then
      { s with
        delta := 0
        bias := adapt s.delta (s.written + 1) (s.written == basic)
        written := s.written + 1
        text := s.text ++ number s.bias 64 36 s.delta }
    else s) s

/-- The ASCII form of a label without the mark in front of it. -/
def encode (label : Text) : Text :=
  let basic := label.filter fun c => c.toNat < 0x80
  let points := ((label.filter fun c => 0x80 ≤ c.toNat).map Char.toNat).mergeSort.eraseDups
  let start : State :=
    ⟨0x80, 0, 72, basic.length, if basic.isEmpty then [] else basic ++ ['-']⟩
  (points.foldl (fun s point =>
    let s := { s with delta := s.delta + (point - s.next) * (s.written + 1) }
    let s := pass basic.length point label s
    { s with next := point + 1, delta := s.delta + 1 }) start).text

end KeywordCompletion.Url.Punycode
