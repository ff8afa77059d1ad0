/-!
# The program

The name of the program, which also marks its settings and its messages, and its version.
-/

namespace KeywordCompletion.About

def name : String := "robot-analyzer"

def version : String := "0.1.0"

def messageHead : List Char := "robot-analyzer:".toList

end KeywordCompletion.About
