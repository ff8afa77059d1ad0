import Mathlib.Data.List.Basic
import KeywordCompletion.Settings.Patch

/-!
# Which value a payload gives to a setting

A payload is looked at twice, as a whole and in its section for these settings, and each of the two counts only
if all that is known in it can be read. `Setting.Chosen` says from which of them a setting gets its value, and
`Settings.get_patched_iff` that `Settings.patched` gives it that value. All look-ups are known by name, so what
else a payload has is of no account: `SameKnown`.
-/

namespace KeywordCompletion

/-- The settings that a payload can give, each with the type of its values. -/
inductive Setting : Type → Type where
  | completionEnabled : Setting Bool
  | mode : Setting MatchMode
  | implicitBuiltIn : Setting Bool
  | indexingEnabled : Setting Bool
  | maxFileSizeKb : Setting Nat
  | excludedPaths : Setting (List Text)
  | extensions : Setting (List Text)
  | logLevel : Setting LogLevel

/-- Whether the members of a section can be looked at: there is an object, null or nothing. -/
def Json.IsSection (j? : Option Json) : Prop := ∀ j ∈ j?, j = .null ∨ ∃ members, j = .obj members

namespace Setting

/-- The names of the sections of a payload. -/
def groups : List String := ["completion", "indexing", "logging"]

/-- The section in which a setting is given. -/
def group : {α : Type} → Setting α → String
  | _, completionEnabled | _, mode | _, implicitBuiltIn => "completion"
  | _, indexingEnabled | _, maxFileSizeKb | _, excludedPaths | _, extensions => "indexing"
  | _, logLevel => "logging"

/-- The names under which a setting is given. -/
def names : {α : Type} → Setting α → List String
  | _, completionEnabled | _, indexingEnabled => ["enable"]
  | _, mode => ["matchMode"]
  | _, implicitBuiltIn => ["implicitBuiltIn", "implicitBuiltin"]
  | _, maxFileSizeKb => ["maxFileSizeKb"]
  | _, excludedPaths => ["excludePaths"]
  | _, extensions => ["extensions"]
  | _, logLevel => ["level"]

/-- The value of a setting in a JSON value, if it is of the right type. -/
def read? : {α : Type} → Setting α → Json → Option α
  | _, completionEnabled | _, implicitBuiltIn | _, indexingEnabled => Json.bool?
  | _, mode => Json.oneOf? SettingsPatch.modes
  | _, maxFileSizeKb => Json.unsigned? 64
  | _, excludedPaths | _, extensions => Json.texts?
  | _, logLevel => Json.oneOf? SettingsPatch.logLevels

def get : {α : Type} → Setting α → Settings → α
  | _, completionEnabled, s => s.completion.enabled
  | _, mode, s => s.completion.mode
  | _, implicitBuiltIn, s => s.completion.implicitBuiltIn
  | _, indexingEnabled, s => s.indexing.enabled
  | _, maxFileSizeKb, s => s.indexing.maxFileSizeKb
  | _, excludedPaths, s => s.indexing.excludedPaths
  | _, extensions, s => s.indexing.extensions
  | _, logLevel, s => s.logLevel

def inPatch : {α : Type} → Setting α → SettingsPatch → Option α
  | _, completionEnabled, p => p.completionEnabled
  | _, mode, p => p.mode
  | _, implicitBuiltIn, p => p.implicitBuiltIn
  | _, indexingEnabled, p => p.indexingEnabled
  | _, maxFileSizeKb, p => p.maxFileSizeKb
  | _, excludedPaths, p => p.excludedPaths
  | _, extensions, p => p.extensions
  | _, logLevel, p => p.logLevel

variable {α : Type} {x : Setting α} {c c' j sec : Json} {a b : α} {s : Settings} {p : SettingsPatch}

/-- What is written for a setting, under any of its names. -/
def written (x : Setting α) (c : Json) : List Json :=
  x.names.filterMap fun name => (c.member? x.group).bind (Json.member? name)

/-- Whether what is written for a setting can be read: it is null or of the right type, and not there twice. -/
def Accepts (x : Setting α) (c : Json) : Prop :=
  (x.written c).length ≤ 1 ∧ ∀ j ∈ x.written c, j = .null ∨ ∃ a, x.read? j = some a

end Setting

/-- Whether all that is known in a payload, or in a section of it for these settings, can be read. -/
structure Json.Decodes (c : Json) : Prop where
  object : ∃ members, c = .obj members
  sections : ∀ name ∈ Setting.groups, IsSection (c.member? name)
  settings : ∀ {α : Type} (x : Setting α), x.Accepts c

/-- Two payloads in which the same is known. -/
structure Json.SameKnown (c c' : Json) : Prop where
  object : (∃ members, c = .obj members) ↔ ∃ members, c' = .obj members
  sections : ∀ name ∈ Setting.groups, IsSection (c.member? name) ↔ IsSection (c'.member? name)
  written : ∀ {α : Type} (x : Setting α), x.written c = x.written c'

namespace Setting

variable {α : Type} {x : Setting α} {c c' j sec : Json} {a b : α} {s : Settings} {p : SettingsPatch}

/-- A value that is written and read, in a payload in which all can be read. -/
def Gives (x : Setting α) (c : Json) (a : α) : Prop :=
  c.Decodes ∧ ∃ j, x.written c = [j] ∧ x.read? j = some a

/-- The value of a setting after a payload: the one in its section for these settings, else the one in the payload
itself, else the one that it had. -/
inductive Chosen (x : Setting α) (s : Settings) (payload : Json) : α → Prop
  | inSection {c : Json} {a : α} (hc : payload.member? Settings.sectionName = some c) (h : x.Gives c a) :
    Chosen x s payload a
  | inPayload {a : α} (hsection : ∀ c, payload.member? Settings.sectionName = some c → ∀ b, ¬ x.Gives c b)
    (h : x.Gives payload a) : Chosen x s payload a
  | kept (hsection : ∀ c, payload.member? Settings.sectionName = some c → ∀ b, ¬ x.Gives c b)
    (hpayload : ∀ b, ¬ x.Gives payload b) : Chosen x s payload (x.get s)

/-- What is read for a setting: nothing if nothing or null is written, and a failure if it cannot be read. -/
def reading (x : Setting α) (c : Json) : Option (Option α) :=
  match x.written c with
  | [] => some none
  | [j] => Json.optional? x.read? (some j)
  | _ => none

lemma group_mem_groups (x : Setting α) : x.group ∈ groups := by
  cases x <;> decide

lemma read?_null (x : Setting α) : x.read? .null = none := by
  cases x <;> rfl

lemma reading_eq_some_none_iff : x.reading c = some none ↔ x.written c = [] ∨ x.written c = [.null] := by
  rw [reading]
  split
  · next h => simp [h]
  · next j h => cases j <;> simp [h, Json.optional?]
  · next hnil hone =>
    refine ⟨fun h => absurd h (by simp), ?_⟩
    rintro (h | h)
    · exact absurd h hnil
    · exact absurd h (hone _)

lemma reading_eq_some_some_iff : x.reading c = some (some a) ↔ ∃ j, x.written c = [j] ∧ x.read? j = some a := by
  rw [reading]
  split
  · next h => simp [h]
  · next j h => cases j <;> simp [h, Json.optional?, read?_null]
  · next hnil hone =>
    refine ⟨fun h => absurd h (by simp), ?_⟩
    rintro ⟨j, h, -⟩
    exact absurd h (hone j)

lemma accepts_iff_reading : x.Accepts c ↔ ∃ o, x.reading c = some o := by
  rw [Accepts]
  constructor
  · rintro ⟨hlength, hread⟩
    match hwritten : x.written c with
    | [] => exact ⟨none, reading_eq_some_none_iff.2 (Or.inl hwritten)⟩
    | [j] =>
      rcases hread j (by simp [hwritten]) with rfl | ⟨a, ha⟩
      · exact ⟨none, reading_eq_some_none_iff.2 (Or.inr hwritten)⟩
      · exact ⟨some a, reading_eq_some_some_iff.2 ⟨j, hwritten, ha⟩⟩
    | _ :: _ :: _ => simp [hwritten] at hlength
  · rintro ⟨o, ho⟩
    cases o with
    | none => rcases reading_eq_some_none_iff.1 ho with h | h <;> simp [h]
    | some a =>
      obtain ⟨j, hj, ha⟩ := reading_eq_some_some_iff.1 ho
      simp [hj, ha]

instance (x : Setting α) (c : Json) : Decidable (x.Accepts c) :=
  decidable_of_iff ((x.reading c).isSome = true) (Option.isSome_iff_exists.trans accepts_iff_reading.symm)

lemma member?_section? {name group : String} (h : c.section? group = some sec) :
    sec.member? name = (c.member? group).bind (Json.member? name) := by
  rw [Json.section?] at h
  split at h
  · next hmember =>
    rw [hmember, ← Option.some.inj h]
    rfl
  · next hmember =>
    rw [hmember, ← Option.some.inj h]
    rfl
  · next hmember => rw [hmember, Option.bind_some, ← Option.some.inj h]
  · exact absurd h (by simp)

lemma exists_section?_iff {name : String} :
    (∃ sec, c.section? name = some sec) ↔ Json.IsSection (c.member? name) := by
  rw [Json.section?, Json.IsSection]
  split <;> simp_all

lemma field?_eq_reading {name : String} (hname : x.names = [name]) (hsec : c.section? x.group = some sec) :
    sec.field? x.read? name = x.reading c := by
  rw [Json.field?, member?_section? hsec, reading, written, hname]
  cases hname : (c.member? x.group).bind (Json.member? name) <;> simp [hname, Json.optional?]

lemma fieldOfEither?_eq_reading {name other : String} (hname : x.names = [name, other])
    (hsec : c.section? x.group = some sec) : sec.fieldOfEither? x.read? name other = x.reading c := by
  rw [Json.fieldOfEither?, member?_section? hsec, member?_section? hsec, reading, written, hname]
  cases hname : (c.member? x.group).bind (Json.member? name) <;>
    cases hother : (c.member? x.group).bind (Json.member? other) <;> simp [hname, hother, Json.optional?]

lemma ofJson?_obj (members : List (String × Json)) : SettingsPatch.ofJson? (.obj members) = do
    let _ ← (Json.obj members).section? "completion"
    let _ ← (Json.obj members).section? "indexing"
    let _ ← (Json.obj members).section? "logging"
    return ⟨← completionEnabled.reading (.obj members), ← mode.reading (.obj members),
      ← implicitBuiltIn.reading (.obj members), ← indexingEnabled.reading (.obj members),
      ← maxFileSizeKb.reading (.obj members), ← excludedPaths.reading (.obj members),
      ← extensions.reading (.obj members), ← logLevel.reading (.obj members)⟩ := by
  rw [SettingsPatch.ofJson?]
  refine Option.bind_congr fun completion hcompletion => ?_
  refine Option.bind_congr fun indexing hindexing => ?_
  refine Option.bind_congr fun logging hlogging => ?_
  rw [← field?_eq_reading (x := completionEnabled) rfl hcompletion, ← field?_eq_reading (x := mode) rfl hcompletion,
    ← fieldOfEither?_eq_reading (x := implicitBuiltIn) rfl hcompletion,
    ← field?_eq_reading (x := indexingEnabled) rfl hindexing,
    ← field?_eq_reading (x := maxFileSizeKb) rfl hindexing, ← field?_eq_reading (x := excludedPaths) rfl hindexing,
    ← field?_eq_reading (x := extensions) rfl hindexing, ← field?_eq_reading (x := logLevel) rfl hlogging]
  rfl

lemma forall_groups {P : String → Prop} : (∀ name ∈ groups, P name) ↔ P "completion" ∧ P "indexing" ∧ P "logging" := by
  simp [groups]

lemma forall_setting {P : {α : Type} → Setting α → Prop} : (∀ {α : Type} (x : Setting α), P x) ↔
    P completionEnabled ∧ P mode ∧ P implicitBuiltIn ∧ P indexingEnabled ∧ P maxFileSizeKb ∧ P excludedPaths ∧
      P extensions ∧ P logLevel := by
  constructor
  · exact fun h => ⟨h _, h _, h _, h _, h _, h _, h _, h _⟩
  · rintro ⟨h₁, h₂, h₃, h₄, h₅, h₆, h₇, h₈⟩ α x
    cases x <;> assumption

lemma ofJson?_eq_some_iff : SettingsPatch.ofJson? c = some p ↔ (∃ members, c = .obj members) ∧
    (∀ name ∈ groups, Json.IsSection (c.member? name)) ∧
    ∀ {α : Type} (x : Setting α), x.reading c = some (x.inPatch p) := by
  cases c with
  | obj members =>
    rw [ofJson?_obj, forall_groups, forall_setting]
    simp only [Option.bind_eq_bind, Option.pure_def, Option.bind_eq_some_iff, ← exists_section?_iff]
    cases p
    simp [inPatch, and_assoc]
  | _ => simp [SettingsPatch.ofJson?]

lemma decodes_iff : c.Decodes ↔ ∃ p, SettingsPatch.ofJson? c = some p := by
  constructor
  · intro h
    obtain ⟨⟨e, he⟩, ⟨m, hm⟩, ⟨b, hb⟩, ⟨i, hi⟩, ⟨n, hn⟩, ⟨ps, hps⟩, ⟨es, hes⟩, ⟨l, hl⟩⟩ :=
      forall_setting.1 fun y => accepts_iff_reading.1 (h.settings y)
    refine ⟨⟨e, m, b, i, n, ps, es, l⟩, ofJson?_eq_some_iff.2 ⟨h.object, h.sections, fun y => ?_⟩⟩
    cases y <;> assumption
  · rintro ⟨p, hp⟩
    obtain ⟨hobject, hsections, hread⟩ := ofJson?_eq_some_iff.1 hp
    exact ⟨hobject, hsections, fun y => accepts_iff_reading.2 ⟨_, hread y⟩⟩

instance (c : Json) : Decidable c.Decodes :=
  decidable_of_iff ((SettingsPatch.ofJson? c).isSome = true) (Option.isSome_iff_exists.trans decodes_iff.symm)

lemma gives_iff_inPatch (hp : SettingsPatch.ofJson? c = some p) : x.Gives c a ↔ x.inPatch p = some a := by
  have hread := (ofJson?_eq_some_iff.1 hp).2.2 x
  rw [Gives, and_iff_right (decodes_iff.2 ⟨p, hp⟩), ← reading_eq_some_some_iff, hread, Option.some_inj]

lemma Gives.unique (ha : x.Gives c a) (hb : x.Gives c b) : a = b := by
  obtain ⟨p, hp⟩ := decodes_iff.1 ha.1
  rw [gives_iff_inPatch hp] at ha hb
  exact Option.some.inj (ha.symm.trans hb)

lemma get_apply (x : Setting α) (p : SettingsPatch) (s : Settings) :
    x.get (p.apply s) = (x.inPatch p).getD (x.get s) := by
  cases x <;> rfl

lemma eq_of_get {s t : Settings} (h : ∀ {α : Type} (x : Setting α), x.get s = x.get t) : s = t := by
  obtain ⟨⟨enabled, mode, implicit⟩, ⟨indexing, size, paths, extensions⟩, level⟩ := s
  obtain ⟨⟨enabled', mode', implicit'⟩, ⟨indexing', size', paths', extensions'⟩, level'⟩ := t
  obtain ⟨rfl, rfl, rfl, rfl, rfl, rfl, rfl, rfl⟩ := forall_setting.1 h
  rfl

end Setting

namespace Settings

/-- The settings after what one candidate of a payload gives. -/
def patchedWith (s : Settings) (c : Json) : Settings :=
  match SettingsPatch.ofJson? c with
  | some patch => patch.apply s
  | none => s

variable {α : Type} {x : Setting α} {s : Settings} {payload payload' c : Json} {a b : α}

lemma patched_of_none (h : payload.member? sectionName = none) : s.patched payload = s.patchedWith payload := by
  rw [patched, candidates, h]
  rfl

lemma patched_of_some (h : payload.member? sectionName = some c) :
    s.patched payload = (s.patchedWith payload).patchedWith c := by
  rw [patched, candidates, h]
  rfl

lemma patchedWith_of_not_decodes (h : ¬ c.Decodes) : s.patchedWith c = s := by
  rw [Setting.decodes_iff, ← Option.isSome_iff_exists, Bool.not_eq_true, Option.isSome_eq_false_iff,
    Option.isNone_iff_eq_none] at h
  rw [patchedWith, h]

lemma get_patchedWith_of_gives (h : x.Gives c a) : x.get (s.patchedWith c) = a := by
  obtain ⟨p, hp⟩ := Setting.decodes_iff.1 h.1
  rw [Setting.gives_iff_inPatch hp] at h
  rw [patchedWith, hp, Setting.get_apply, h, Option.getD_some]

lemma get_patchedWith_of_not_gives (h : ∀ a, ¬ x.Gives c a) : x.get (s.patchedWith c) = x.get s := by
  rw [patchedWith]
  cases hp : SettingsPatch.ofJson? c with
  | none => rfl
  | some p =>
    have hnone : x.inPatch p = none := by
      rw [Option.eq_none_iff_forall_ne_some]
      exact fun a ha => h a ((Setting.gives_iff_inPatch hp).2 ha)
    rw [Setting.get_apply, hnone, Option.getD_none]

lemma get_patched_of_chosen (h : x.Chosen s payload a) : x.get (s.patched payload) = a := by
  cases h with
  | inSection hc h => rw [patched_of_some hc, get_patchedWith_of_gives h]
  | inPayload hsection h =>
    cases hc : payload.member? sectionName with
    | none => rw [patched_of_none hc, get_patchedWith_of_gives h]
    | some c => rw [patched_of_some hc, get_patchedWith_of_not_gives (hsection c hc), get_patchedWith_of_gives h]
  | kept hsection hpayload =>
    cases hc : payload.member? sectionName with
    | none => rw [patched_of_none hc, get_patchedWith_of_not_gives hpayload]
    | some c =>
      rw [patched_of_some hc, get_patchedWith_of_not_gives (hsection c hc), get_patchedWith_of_not_gives hpayload]

lemma exists_chosen (x : Setting α) (s : Settings) (payload : Json) : ∃ a, x.Chosen s payload a := by
  by_cases hsection : ∃ c, payload.member? sectionName = some c ∧ ∃ a, x.Gives c a
  · obtain ⟨c, hc, a, ha⟩ := hsection
    exact ⟨a, .inSection hc ha⟩
  have hsection' (c) (hc : payload.member? sectionName = some c) (b : α) : ¬ x.Gives c b :=
    fun hb => hsection ⟨c, hc, b, hb⟩
  by_cases hpayload : ∃ a, x.Gives payload a
  · obtain ⟨a, ha⟩ := hpayload
    exact ⟨a, .inPayload hsection' ha⟩
  · exact ⟨x.get s, .kept hsection' fun b hb => hpayload ⟨b, hb⟩⟩

lemma get_patched_iff : x.get (s.patched payload) = a ↔ x.Chosen s payload a := by
  constructor
  · rintro rfl
    obtain ⟨b, hb⟩ := exists_chosen x s payload
    rwa [get_patched_of_chosen hb]
  · exact get_patched_of_chosen

end Settings

namespace Json.SameKnown

variable {α : Type} {x : Setting α} {s : Settings} {c c' : Json} {a : α}

lemma symm (h : c.SameKnown c') : c'.SameKnown c :=
  ⟨h.object.symm, fun name hname => (h.sections name hname).symm, fun x => (h.written x).symm⟩

lemma decodes (h : c.SameKnown c') (hc : c.Decodes) : c'.Decodes := by
  refine ⟨h.object.1 hc.object, fun name hname => (h.sections name hname).1 (hc.sections name hname), fun x => ?_⟩
  have haccepts := hc.settings x
  rwa [Setting.Accepts, h.written x] at haccepts

lemma gives (h : c.SameKnown c') (hc : x.Gives c a) : x.Gives c' a := by
  obtain ⟨hdecodes, hread⟩ := hc
  rw [h.written x] at hread
  exact ⟨h.decodes hdecodes, hread⟩

lemma gives_iff (h : c.SameKnown c') : x.Gives c a ↔ x.Gives c' a := ⟨h.gives, h.symm.gives⟩

lemma patchedWith_eq (h : c.SameKnown c') (s : Settings) : s.patchedWith c = s.patchedWith c' := by
  apply Setting.eq_of_get
  intro α x
  by_cases hgives : ∃ a, x.Gives c a
  · obtain ⟨a, ha⟩ := hgives
    rw [Settings.get_patchedWith_of_gives ha, Settings.get_patchedWith_of_gives (h.gives ha)]
  · have hnot (a : α) : ¬ x.Gives c a := fun ha => hgives ⟨a, ha⟩
    rw [Settings.get_patchedWith_of_not_gives hnot,
      Settings.get_patchedWith_of_not_gives fun a ha => hnot a (h.gives_iff.2 ha)]

end Json.SameKnown

namespace Settings

variable {s : Settings} {payload payload' c : Json} {before after : List (String × Json)} {key name : String}
  {value : Json}

lemma patched_eq_of_sameKnown (h : payload.SameKnown payload')
    (hsection : Option.Rel Json.SameKnown (payload.member? sectionName) (payload'.member? sectionName)) :
    s.patched payload = s.patched payload' := by
  cases hc : payload.member? sectionName with
  | none =>
    cases hc' : payload'.member? sectionName with
    | none => rw [patched_of_none hc, patched_of_none hc', h.patchedWith_eq]
    | some c' =>
      rw [hc, hc'] at hsection
      cases hsection
  | some c =>
    cases hc' : payload'.member? sectionName with
    | none =>
      rw [hc, hc'] at hsection
      cases hsection
    | some c' =>
      rw [hc, hc'] at hsection
      cases hsection with
      | some hsame => rw [patched_of_some hc, patched_of_some hc', h.patchedWith_eq, hsame.patchedWith_eq]

lemma member?_insert (h : key ≠ name) :
    (Json.obj (before ++ (key, value) :: after)).member? name = (Json.obj (before ++ after)).member? name := by
  simp [Json.member?, h]

lemma patched_insert (hkey : key ∉ Setting.groups) (hname : key ≠ sectionName) :
    s.patched (.obj (before ++ (key, value) :: after)) = s.patched (.obj (before ++ after)) := by
  have hmember (name) (h : name ∈ Setting.groups) :
      (Json.obj (before ++ (key, value) :: after)).member? name = (Json.obj (before ++ after)).member? name :=
    member?_insert fun heq => hkey (heq ▸ h)
  have hsame : (Json.obj (before ++ (key, value) :: after)).SameKnown (.obj (before ++ after)) := by
    refine ⟨by simp, fun name h => by rw [hmember name h], fun x => ?_⟩
    rw [Setting.written, Setting.written, hmember _ x.group_mem_groups]
  apply patched_eq_of_sameKnown hsame
  rw [member?_insert hname]
  cases (Json.obj (before ++ after)).member? sectionName with
  | none => exact .none
  | some c => exact .some ⟨Iff.rfl, fun _ _ => Iff.rfl, fun _ => rfl⟩

/-- Each setting gets the value that a payload gives in its section for these settings, else the one that it gives
itself, else keeps its own. A candidate with a known field that cannot be read changes nothing, and the other one
changes what it would change alone. Nothing else in a payload is of account, and so not what stands under an unknown
name. -/
theorem patched_spec (s : Settings) (payload : Json) :
    (∀ {α : Type} (x : Setting α) (a : α), x.get (s.patched payload) = a ↔ x.Chosen s payload a) ∧
    (∀ c ∈ candidates payload, ∀ {α : Type} (x : Setting α), ¬ x.Accepts c →
      ∀ t : Settings, t.patchedWith c = t) ∧
    (¬ payload.Decodes → s.patched payload = (payload.member? sectionName).elim s s.patchedWith) ∧
    (∀ c, payload.member? sectionName = some c → ¬ c.Decodes → s.patched payload = s.patchedWith payload) ∧
    (∀ payload', payload.SameKnown payload' →
      Option.Rel Json.SameKnown (payload.member? sectionName) (payload'.member? sectionName) →
        s.patched payload = s.patched payload') ∧
    (∀ before after key value, payload = .obj (before ++ after) → key ∉ Setting.groups → key ≠ sectionName →
      s.patched (.obj (before ++ (key, value) :: after)) = s.patched payload) := by
  refine ⟨fun x a => get_patched_iff, fun c _ _ x hx t => ?_, fun h => ?_, fun c hc h => ?_,
    fun payload' => patched_eq_of_sameKnown, ?_⟩
  · exact patchedWith_of_not_decodes fun h => hx (h.settings x)
  · cases hc : payload.member? sectionName with
    | none => rw [patched_of_none hc, patchedWith_of_not_decodes h, Option.elim_none]
    | some c => rw [patched_of_some hc, patchedWith_of_not_decodes h, Option.elim_some]
  · rw [patched_of_some hc, patchedWith_of_not_decodes h]
  · rintro before after key value rfl hkey hname
    exact patched_insert hkey hname

/-- A section for these settings, with a size that is no number. -/
private def spoiltSection : Json :=
  .obj [("completion", .obj [("enable", .bool true)]), ("indexing", .obj [("maxFileSizeKb", .ofString "9")])]

private def spoiltPayload : Json :=
  .obj [("completion", .obj [("enable", .bool false), ("theme", .null)]), ("robot-analyzer", spoiltSection)]

private def plainPayload : Json :=
  .obj [("completion", .obj [("enable", .bool false)]), ("robot-analyzer", spoiltSection)]

/-- A size that is no number keeps the switch beside it from being used, but not the one in the payload, and a theme
is nothing that is known. -/
theorem patched_spec_spoilt :
    initial.patchedWith spoiltSection = initial ∧
    initial.patched spoiltPayload = initial.patchedWith spoiltPayload ∧
    Setting.completionEnabled.get (initial.patched spoiltPayload) = false ∧
    initial.patched spoiltPayload = initial.patched plainPayload ∧
    initial.patched spoiltSection = initial := by
  obtain ⟨hget, haccepts, -, hsection, hsame, -⟩ := patched_spec initial spoiltPayload
  have hwrong : ¬ Setting.maxFileSizeKb.Accepts spoiltSection := by decide +kernel
  have hnot : ¬ spoiltSection.Decodes := fun h => hwrong (h.settings _)
  have hmember : spoiltPayload.member? sectionName = some spoiltSection := rfl
  have hknown : spoiltPayload.SameKnown plainPayload := by
    refine ⟨by simp [spoiltPayload, plainPayload], Setting.forall_groups.2 ?_, fun x => by cases x <;> rfl⟩
    simp [spoiltPayload, plainPayload, Json.member?, Json.IsSection]
  refine ⟨haccepts _ (by rw [candidates, hmember]; simp) _ hwrong _, hsection _ hmember hnot, ?_,
    hsame plainPayload hknown (.some ⟨Iff.rfl, fun _ _ => Iff.rfl, fun _ => rfl⟩),
    (patched_spec initial spoiltSection).2.2.1 hnot⟩
  rw [hget]
  refine .inPayload (fun c hc b hb => ?_) ⟨by decide +kernel, .bool false, rfl, rfl⟩
  rw [hmember, Option.some_inj] at hc
  exact hnot (hc ▸ hb.1)

end Settings

end KeywordCompletion
