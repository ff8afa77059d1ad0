import KeywordCompletion.About
import KeywordCompletion.Json.Basic
import KeywordCompletion.Settings.Basic

/-!
# Patches of settings

A patch is what a JSON value sets: eight fields, each of which may be missing. A value with a known
field of a wrong type sets nothing at all; unknown fields do not matter. `Settings.merged` applies the
patches of a payload, the whole of it and then its own section, so that the section wins.
-/

namespace KeywordCompletion

/-- What a JSON value sets. -/
structure SettingsPatch where
  completionEnabled : Option Bool
  mode : Option MatchMode
  implicitBuiltIn : Option Bool
  indexingEnabled : Option Bool
  maxFileSizeKb : Option Nat
  excludedPaths : Option (List Text)
  extensions : Option (List Text)
  logLevel : Option LogLevel
  deriving DecidableEq, Repr

namespace Json

/-- The name of a case without data: a string, or an object whose only member has that name and is
null. Of several members with one name the last counts. -/
def caseName? : Json → Option Text
  | str t => some t
  | obj members =>
    match members.getLast? with
    | some (name, null) =>
      if members.all fun (key, _) => key == name then some name.toList else none
    | _ => none
  | _ => none

def oneOf? {α : Type} (cases : List (String × α)) (j : Json) : Option α :=
  j.caseName?.bind fun t =>
    (cases.find? fun (name, _) => name.toList == t).map Prod.snd

/-- The members of a section: none if it is missing or null, and a failure if it is no object. -/
def section? (name : String) (j : Json) : Option Json :=
  match j.member? name with
  | none | some null => some (obj [])
  | some (obj members) => some (obj members)
  | some _ => none

/-- The value of a field that may be missing or null. -/
def field? {α : Type} (read : Json → Option α) (name : String) (j : Json) : Option (Option α) :=
  optional? read (j.member? name)

/-- The value of a field with two names that may be missing or null, but not be there twice. -/
def fieldOfEither? {α : Type} (read : Json → Option α) (name other : String) (j : Json) :
    Option (Option α) :=
  match j.member? name, j.member? other with
  | some _, some _ => none
  | some value, none => optional? read (some value)
  | none, value => optional? read value

def texts? : Json → Option (List Text) := list? text?

end Json

namespace SettingsPatch

def modes : List (String × MatchMode) := [("prefix", .leading), ("substring", .anywhere)]

def logLevels : List (String × LogLevel) := [
  ("error", .error), ("warn", .warn), ("warning", .warn), ("info", .info), ("debug", .debug),
  ("trace", .trace)]

/-- What a JSON value sets, unless it is no object or has a known field of a wrong type. -/
def ofJson? (j : Json) : Option SettingsPatch :=
  match j with
  | .obj _ => do
    let completion ← j.section? "completion"
    let indexing ← j.section? "indexing"
    let logging ← j.section? "logging"
    let completionEnabled ← completion.field? Json.bool? "enable"
    let mode ← completion.field? (Json.oneOf? modes) "matchMode"
    let implicitBuiltIn ← completion.fieldOfEither? Json.bool? "implicitBuiltIn" "implicitBuiltin"
    let indexingEnabled ← indexing.field? Json.bool? "enable"
    let maxFileSizeKb ← indexing.field? (Json.unsigned? 64) "maxFileSizeKb"
    let excludedPaths ← indexing.field? Json.texts? "excludePaths"
    let extensions ← indexing.field? Json.texts? "extensions"
    let logLevel ← logging.field? (Json.oneOf? logLevels) "level"
    return {
      completionEnabled, mode, implicitBuiltIn, indexingEnabled, maxFileSizeKb, excludedPaths,
      extensions, logLevel }
  | _ => none

def apply (p : SettingsPatch) (s : Settings) : Settings where
  completion := {
    enabled := p.completionEnabled.getD s.completion.enabled
    mode := p.mode.getD s.completion.mode
    implicitBuiltIn := p.implicitBuiltIn.getD s.completion.implicitBuiltIn }
  indexing := {
    enabled := p.indexingEnabled.getD s.indexing.enabled
    maxFileSizeKb := p.maxFileSizeKb.getD s.indexing.maxFileSizeKb
    excludedPaths := p.excludedPaths.getD s.indexing.excludedPaths
    extensions := p.extensions.getD s.indexing.extensions }
  logLevel := p.logLevel.getD s.logLevel

end SettingsPatch

namespace Settings

/-- The member of a payload that holds a section of its own for these settings. -/
def sectionName : String := About.name

def candidates (payload : Json) : List Json :=
  payload :: (payload.member? sectionName).toList

/-- The settings after the patches in a payload, before they are put into normal form. -/
def patched (s : Settings) (payload : Json) : Settings :=
  (candidates payload).foldl (fun s candidate =>
    match SettingsPatch.ofJson? candidate with
    | some patch => patch.apply s
    | none => s) s

def merged (s : Settings) (payload : Json) : Settings :=
  let s := s.patched payload
  { s with indexing := s.indexing.normalized }

def ofPayload (payload : Option Json) : Settings :=
  match payload with
  | some payload => initial.merged payload
  | none => initial

end Settings

end KeywordCompletion
