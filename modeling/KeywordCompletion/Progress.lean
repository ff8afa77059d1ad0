import KeywordCompletion.About
import KeywordCompletion.ClientMessage
import KeywordCompletion.Text.Blank

/-!
# Progress of a job

A job over a known number of files tells the editor when it begins, after every fifth file and after
the last one, and when it ends. A job that is given up ends with a message that says so.
-/

namespace KeywordCompletion

/-- A job of which an editor hears: the token under which it does, and the number of files. Once the
job has ended nothing more is sent. -/
structure Progress where
  token : Text
  total : Nat
  isOpen : Bool
  deriving DecidableEq, Repr

namespace Progress

/-- The number of files after which something is reported. -/
def reportEvery : Nat := 5

def displayTitle (title : Text) : Text :=
  let title := Text.trim Text.isWhiteSpace title
  if About.messageHead.isPrefixOf title then title else About.messageHead ++ ' ' :: title

def tokenOf (title : Text) (number : Nat) : Text :=
  "robotAnalyzer/".toList ++ Text.trim Text.isWhiteSpace title ++ '/' :: Nat.toDigits 10 number

def itemsMessage (done total : Nat) : Text :=
  Nat.toDigits 10 done ++ " / ".toList ++ Nat.toDigits 10 total ++ " files".toList

/-- How much is done, in hundredths of all. Counts are 64-bit words. -/
def percentage (done total : Nat) : Nat :=
  if total = 0 then 100 else (min done total * 100) % 0x10000000000000000 / total

/-- A job with a number that begins, and what is sent for it. -/
def begin (title : Text) (total number : Nat) : Progress × List ClientMessage :=
  let token := tokenOf title number
  (⟨token, total, true⟩, [
    .createProgress token,
    .progress token (.began (displayTitle title) (itemsMessage 0 total))])

def advance (p : Progress) (done : Nat) : List ClientMessage :=
  if p.isOpen && (done % reportEvery == 0 || done == p.total) then
    [.progress p.token (.reported (itemsMessage done p.total) (percentage done p.total))]
  else []

def finish (p : Progress) (message : Option Text) : Progress × List ClientMessage :=
  ({ p with isOpen := false }, if p.isOpen then [.progress p.token (.ended message)] else [])

def cancel (p : Progress) : Progress × List ClientMessage := p.finish (some "Cancelled".toList)

end Progress

end KeywordCompletion
