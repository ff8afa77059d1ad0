import KeywordCompletion.Text.Lowercase

/-!
# Keywords of the standard libraries

The keyword names of the test libraries that every installation has, each in the order of its
documentation.
-/

namespace KeywordCompletion.Library

/-- The library that every suite imports without saying so. -/
def builtInName : String := "BuiltIn"

/-- Keywords of the library `BuiltIn`. -/
def builtIn : List String := [
  "Call Method", "Catenate", "Comment", "Convert To Boolean", "Convert To Integer",
  "Convert To Number", "Convert To String", "Create Dictionary", "Create List", "Evaluate",
  "Fail", "Fatal Error", "Get Count", "Get Length", "Get Library Instance", "Get Time",
  "Get Variable Value", "Import Library", "Import Resource", "Import Variables",
  "Keyword Should Exist", "Length Should Be", "Log", "Log Many", "Log To Console",
  "Log Variables", "No Operation", "Pass Execution", "Repeat Keyword", "Return From Keyword",
  "Run Keyword", "Run Keyword And Expect Error", "Run Keyword And Ignore Error",
  "Run Keyword And Return Status", "Run Keyword If", "Run Keywords", "Set Global Variable",
  "Set Suite Variable", "Set Test Variable", "Set Variable", "Set Variable If",
  "Should Be Empty", "Should Be Equal", "Should Be Equal As Integers",
  "Should Be Equal As Numbers", "Should Be Equal As Strings", "Should Be True", "Should Contain",
  "Should End With", "Should Match", "Should Match Regexp", "Should Not Be Empty",
  "Should Not Be Equal", "Should Not Contain", "Should Start With", "Sleep",
  "Variable Should Exist", "Wait Until Keyword Succeeds"]

/-- Keywords of the library `Collections`. -/
def collections : List String := [
  "Append To List", "Combine Lists", "Copy Dictionary", "Copy List",
  "Dictionary Should Contain Key", "Dictionary Should Contain Value", "Get Dictionary Keys",
  "Get Dictionary Values", "Get From Dictionary", "Get From List", "Get Index From List",
  "Insert Into List", "List Should Contain Value", "List Should Not Contain Duplicates",
  "Lists Should Be Equal", "Remove From Dictionary", "Remove From List", "Set To Dictionary",
  "Sort List"]

/-- Keywords of the library `String`. -/
def string : List String := [
  "Convert To Lower Case", "Convert To Upper Case", "Fetch From Left", "Fetch From Right",
  "Generate Random String", "Get Line", "Get Line Count", "Get Lines Containing String",
  "Get Substring", "Replace String", "Should Be Lower Case", "Should Be String",
  "Should Be Upper Case", "Split String", "Split To Lines", "Strip String"]

/-- Keywords of the library `OperatingSystem`. -/
def operatingSystem : List String := [
  "Append To File", "Copy File", "Create Directory", "Create File", "Directory Should Exist",
  "File Should Exist", "File Should Not Exist", "Get Environment Variable", "Get File",
  "List Directory", "Move File", "Remove Directory", "Remove File", "Run", "Run And Return Rc",
  "Set Environment Variable"]

def known : List (String × List String) := [
  (builtInName, builtIn), ("Collections", collections), ("String", string),
  ("OperatingSystem", operatingSystem)]

/-- The keywords of a library, if it is known. The case of ASCII letters in the name does not
matter. -/
def keywords? (name : Text) : Option (List String) :=
  (known.find? fun (key, _) => Text.eqIgnoringAsciiCase key.toList name).map Prod.snd

end KeywordCompletion.Library
