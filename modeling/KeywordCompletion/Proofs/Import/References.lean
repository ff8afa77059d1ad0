import Mathlib.Algebra.Order.BigOperators.Group.List
import Mathlib.Algebra.Order.Group.Nat
import Mathlib.Data.List.Infix
import KeywordCompletion.Import.Candidate
import KeywordCompletion.Proofs.Text.CaseForms
import KeywordCompletion.Proofs.Text.Slices

/-!
# References in import paths have their documented values

A text has exactly one leftmost cut into characters and references, `PathPiece.split`, and the path of an import
is expanded by putting a value in for each piece of it, so nothing in a value is a reference: `Import.expand_leftmost`.
The values are the documented ones, except that of a separator whose name has spaces or underscores in it: that one is
left as it is written.
-/

namespace KeywordCompletion

open Text

variable {name t rest : Text} {r : PathReference} {ps : List PathPiece} {p : PathPiece} {c : Char}
variable {e : Environment} {owner root : Option Path}

/-- A name that can be written in a reference. -/
def PathReference.IsWellFormed : PathReference → Prop
  | directory name => '\x7d' ∉ name
  | environment name =>
    name ≠ [] ∧ (∀ c ∈ name.head?, c.isDigit = false) ∧ ∀ c ∈ name, c.isAlphanum = true ∨ c = '_'

namespace PathReference

lemma isIdentifier_iff : isIdentifier name = true ↔ (environment name).IsWellFormed := by
  cases name with
  | nil => simp [isIdentifier, IsWellFormed]
  | cons c name => simp [isIdentifier, IsWellFormed]

lemma not_mem_of_isWellFormed (h : (environment name).IsWellFormed) : '\x7d' ∉ name := by
  intro hmem
  rcases h.2.2 _ hmem with h | h
  · exact absurd h (by decide)
  · exact absurd h (by decide)

/-- What stands before the first closing brace of a text, if it has one. -/
lemma takeWhile_eq_iff : (t.takeWhile (· != '\x7d') = name ∧ name.length < t.length) ↔
    '\x7d' ∉ name ∧ name ++ ['\x7d'] <+: t := by
  have hinside : (∀ c ∈ name, (c != '\x7d') = true) ↔ '\x7d' ∉ name := by
    simp only [bne_iff_ne]
    exact List.forall_mem_ne'
  constructor
  · rintro ⟨htake, hlength⟩
    have hcut := List.takeWhile_append_dropWhile (p := (· != '\x7d')) (l := t)
    rw [htake] at hcut
    cases hdrop : t.dropWhile (· != '\x7d') with
    | nil =>
      rw [hdrop, List.append_nil] at hcut
      exact absurd hlength (by rw [hcut]; exact lt_irrefl _)
    | cons d rest =>
      rw [hdrop] at hcut
      have hends := (takeWhile_append_eq_iff (l := name) (r := d :: rest)).1 (by rw [hcut]; exact ⟨htake, hdrop⟩)
      have hbrace : d = '\x7d' := by simpa using hends.2
      refine ⟨hinside.1 hends.1, rest, ?_⟩
      rw [← hcut, hbrace, List.append_assoc, List.singleton_append]
  · rintro ⟨hname, rest, rfl⟩
    rw [List.append_assoc]
    exact ⟨(takeWhile_append_eq_iff.2 ⟨hinside.2 hname, by simp⟩).1, by simp⟩

lemma ofHead?_dollar_eq_some_iff : ofHead? ('$' :: '\x7b' :: t) = some r ↔
    ∃ name, r = directory name ∧ '\x7d' ∉ name ∧ name ++ ['\x7d'] <+: t := by
  simp only [ofHead?, Option.ite_none_right_eq_some, Option.some.injEq, ← takeWhile_eq_iff]
  constructor
  · rintro ⟨hlength, rfl⟩
    exact ⟨_, rfl, rfl, hlength⟩
  · rintro ⟨_, rfl, rfl, hlength⟩
    exact ⟨hlength, rfl⟩

lemma ofHead?_percent_eq_some_iff : ofHead? ('%' :: '\x7b' :: t) = some r ↔
    ∃ name, r = environment name ∧ (environment name).IsWellFormed ∧ name ++ ['\x7d'] <+: t := by
  simp only [ofHead?, Option.ite_none_right_eq_some, Option.some.injEq, Bool.and_eq_true, decide_eq_true_eq,
    isIdentifier_iff]
  constructor
  · rintro ⟨⟨hlength, hname⟩, rfl⟩
    exact ⟨_, rfl, hname, (takeWhile_eq_iff.1 ⟨rfl, hlength⟩).2⟩
  · rintro ⟨name, rfl, hname, hprefix⟩
    obtain ⟨rfl, hlength⟩ := takeWhile_eq_iff.2 ⟨not_mem_of_isWellFormed hname, hprefix⟩
    exact ⟨⟨hlength, hname⟩, rfl⟩

lemma ofHead?_eq_some_iff : ofHead? t = some r ↔ r.IsWellFormed ∧ r.render <+: t := by
  constructor
  · intro h
    by_cases hdollar : ∃ u, t = '$' :: '\x7b' :: u
    · obtain ⟨u, rfl⟩ := hdollar
      obtain ⟨name, rfl, hname, hprefix⟩ := ofHead?_dollar_eq_some_iff.1 h
      exact ⟨hname, by simpa [render] using hprefix⟩
    by_cases hpercent : ∃ u, t = '%' :: '\x7b' :: u
    · obtain ⟨u, rfl⟩ := hpercent
      obtain ⟨name, rfl, hname, hprefix⟩ := ofHead?_percent_eq_some_iff.1 h
      exact ⟨hname, by simpa [render] using hprefix⟩
    · rw [ofHead?.eq_3 t (fun u hu => hdollar ⟨u, hu⟩) fun u hu => hpercent ⟨u, hu⟩] at h
      cases h
  · rintro ⟨hr, rest, rfl⟩
    cases r with
    | directory name =>
      rw [render, List.append_assoc, List.append_assoc]
      exact ofHead?_dollar_eq_some_iff.2 ⟨name, rfl, hr, rest, by simp⟩
    | environment name =>
      rw [render, List.append_assoc, List.append_assoc]
      exact ofHead?_percent_eq_some_iff.2 ⟨name, rfl, hr, rest, by simp⟩

lemma render_ne_nil (r : PathReference) : r.render ≠ [] := by
  cases r <;> simp [render]

end PathReference

namespace PathPiece

def render : PathPiece → Text
  | literal c => [c]
  | reference r => r.render

/-- Whether a piece may stand at the head of a text: a reference that is well-formed, or a character with which no
such reference starts. -/
def MayStart : PathPiece → Text → Prop
  | literal _, t => ∀ r : PathReference, r.IsWellFormed → ¬ r.render <+: t
  | reference r, _ => r.IsWellFormed

/-- A cut of a text in which every piece may stand where it does. -/
structure IsLeftmost (t : Text) (ps : List PathPiece) : Prop where
  flatMap_render : ps.flatMap render = t
  mayStart : ∀ p after, p :: after <:+ ps → p.MayStart ((p :: after).flatMap render)

lemma isLeftmost_nil : IsLeftmost [] [] := ⟨rfl, by simp⟩

lemma isLeftmost_cons_iff : IsLeftmost t (p :: ps) ↔
    p.MayStart t ∧ ∃ rest, t = p.render ++ rest ∧ IsLeftmost rest ps := by
  constructor
  · rintro ⟨rfl, hstart⟩
    exact ⟨hstart p ps List.suffix_rfl, _, rfl, rfl, fun q after h => hstart q after (h.trans (List.suffix_cons p ps))⟩
  · rintro ⟨hp, rest, rfl, rfl, hstart⟩
    refine ⟨rfl, fun q after h => ?_⟩
    rcases List.suffix_cons_iff.1 h with h | h
    · obtain ⟨rfl, rfl⟩ := List.cons.inj h
      exact hp
    · exact hstart q after h

lemma splitAfter_eq (n : Nat) (t : Text) : splitAfter n t = split (t.drop n) := by
  fun_induction splitAfter n t with
  | case1 => simp [split, splitAfter]
  | case2 skip c t ih => rw [ih, List.drop_succ_cons]
  | case3 c t r hr ih => rw [List.drop_zero, split, splitAfter, hr]
  | case4 c t hnone ih => rw [List.drop_zero, split, splitAfter, hnone]

lemma split_render_append (hr : r.IsWellFormed) (rest : Text) :
    split (r.render ++ rest) = reference r :: split rest := by
  obtain ⟨c, more, hrender⟩ := List.exists_cons_of_ne_nil r.render_ne_nil
  have hhead : PathReference.ofHead? (c :: (more ++ rest)) = some r :=
    PathReference.ofHead?_eq_some_iff.2 ⟨hr, rest, by rw [hrender, List.cons_append]⟩
  rw [hrender, List.cons_append, split, splitAfter, hhead]
  simp only [splitAfter_eq, hrender, List.length_cons, Nat.add_sub_cancel, List.drop_left]

lemma split_cons (h : ∀ r : PathReference, r.IsWellFormed → ¬ r.render <+: c :: t) :
    split (c :: t) = literal c :: split t := by
  have hhead : PathReference.ofHead? (c :: t) = none := by
    rw [Option.eq_none_iff_forall_ne_some]
    intro r hr
    obtain ⟨hwell, hprefix⟩ := PathReference.ofHead?_eq_some_iff.1 hr
    exact h r hwell hprefix
  rw [split, splitAfter, hhead]
  rfl

lemma isLeftmost_splitAfter (n : Nat) (t : Text) : IsLeftmost (t.drop n) (splitAfter n t) := by
  fun_induction splitAfter n t with
  | case1 => simpa using isLeftmost_nil
  | case2 skip c t ih => exact ih
  | case3 c t r hr ih =>
    obtain ⟨hwell, rest, hrest⟩ := PathReference.ofHead?_eq_some_iff.1 hr
    refine isLeftmost_cons_iff.2 ⟨hwell, _, ?_, ih⟩
    obtain ⟨d, more, hrender⟩ := List.exists_cons_of_ne_nil r.render_ne_nil
    rw [hrender, List.cons_append, List.cons.injEq] at hrest
    obtain ⟨rfl, rfl⟩ := hrest
    simp [render, hrender]
  | case4 c t hnone ih =>
    refine isLeftmost_cons_iff.2 ⟨fun r hr hprefix => ?_, t, rfl, ih⟩
    have hsome : PathReference.ofHead? (c :: t) = some r := PathReference.ofHead?_eq_some_iff.2 ⟨hr, hprefix⟩
    rw [hnone] at hsome
    cases hsome

lemma isLeftmost_iff : IsLeftmost t ps ↔ ps = split t := by
  constructor
  · intro h
    induction ps generalizing t with
    | nil =>
      rw [← h.flatMap_render]
      rfl
    | cons p ps ih =>
      obtain ⟨hp, rest, rfl, hrest⟩ := isLeftmost_cons_iff.1 h
      rw [ih hrest]
      cases p with
      | literal c => exact (split_cons hp).symm
      | reference r => exact (split_render_append hp rest).symm
  · rintro rfl
    exact isLeftmost_splitAfter 0 t

end PathPiece

/-- The variables that stand for a directory, or for the separator of paths. -/
inductive PathVariable where
  | curdir | execdir | separator | tempdir

namespace PathVariable

variable {v w : PathVariable}

def spelling : PathVariable → Text
  | curdir => "CURDIR".toList
  | execdir => "EXECDIR".toList
  | separator => "/".toList
  | tempdir => "TEMPDIR".toList

/-- The value in a file in the directory `owner`, where `root` is the first search root. -/
def value? (e : Environment) (owner root : Option Path) : PathVariable → Option Text
  | curdir => owner.map Path.display
  | execdir => root.map Path.display
  | separator => some ['/']
  | tempdir => some e.temporaryDirectory.display

/-- Whether a name is that of a variable, up to the case of its letters and to spaces and underscores. -/
def IsNamed (v : PathVariable) (name : Text) : Prop :=
  eqIgnoringAsciiCase (name.filter fun c => c != ' ' && c != '_') v.spelling = true
  deriving Decidable

lemma isNamed_iff : v.IsNamed name ↔ PathReference.directoryKey name = v.spelling.map Char.toLower := by
  have hplain : ∀ c ∈ v.spelling.map Char.toLower, c.toNat < 0x80 ∧ c ≠ 'k' := by
    have hall : (v.spelling.map Char.toLower).all (fun c => c.toNat < 0x80 && c != 'k') = true := by
      cases v <;> decide +kernel
    simpa only [List.all_eq_true, Bool.and_eq_true, decide_eq_true_eq, bne_iff_ne] using hall
  rw [IsNamed, PathReference.directoryKey, flatMap_lowercaseChar_eq_iff hplain, eqIgnoringAsciiCase, beq_iff_eq]

lemma IsNamed.unique (hv : v.IsNamed name) (hw : w.IsNamed name) : v = w := by
  rw [isNamed_iff] at hv hw
  have hspelling : v.spelling.map Char.toLower = w.spelling.map Char.toLower := hv.symm.trans hw
  cases v <;> cases w <;> first | rfl | exact absurd hspelling (by decide +kernel)

end PathVariable

namespace PathReference

/-- A reference to the separator with spaces or underscores in its name. -/
def IsSpacedSeparator : PathReference → Prop
  | directory name => PathVariable.separator.IsNamed name ∧ name ≠ ['/']
  | environment _ => False

instance : DecidablePred IsSpacedSeparator
  | directory _ => inferInstanceAs (Decidable (_ ∧ _))
  | environment _ => inferInstanceAs (Decidable False)

/-- The documented value of a reference, if it has one. -/
inductive IsValue (e : Environment) (owner root : Option Path) : PathReference → Option Text → Prop
  | environment (name : Text) : IsValue e owner root (environment name) (e.value? name)
  | known {v : PathVariable} {name : Text} (h : v.IsNamed name) :
      IsValue e owner root (directory name) (v.value? e owner root)
  | unknown {name : Text} (h : ∀ v : PathVariable, ¬ v.IsNamed name) : IsValue e owner root (directory name) none

variable {value value' : Option Text} {v : PathVariable}

lemma IsValue.unique (h : IsValue e owner root r value) (h' : IsValue e owner root r value') : value = value' := by
  cases h with
  | environment name =>
    cases h'
    rfl
  | known hname =>
    cases h' with
    | known hname' => rw [hname.unique hname']
    | unknown hnone => exact absurd hname (hnone _)
  | unknown hnone =>
    cases h' with
    | known hname => exact absurd hname (hnone _)
    | unknown => rfl

end PathReference

namespace Import

open PathReference

variable {v : PathVariable}

lemma referenceValue?_directory (hne : name ≠ ['/']) : referenceValue? e owner root (directory name) =
    if PathVariable.curdir.IsNamed name then PathVariable.curdir.value? e owner root
    else if PathVariable.execdir.IsNamed name then PathVariable.execdir.value? e owner root
    else if PathVariable.tempdir.IsNamed name then PathVariable.tempdir.value? e owner root
    else none := by
  have hcurdir : "curdir".toList = PathVariable.curdir.spelling.map Char.toLower := by decide +kernel
  have hexecdir : "execdir".toList = PathVariable.execdir.spelling.map Char.toLower := by decide +kernel
  have htempdir : "tempdir".toList = PathVariable.tempdir.spelling.map Char.toLower := by decide +kernel
  rw [referenceValue?, if_neg hne]
  simp only [hcurdir, hexecdir, htempdir, ← PathVariable.isNamed_iff, apply_ite (Option.map Path.display),
    PathVariable.value?, Option.map_some, Option.map_none]

/-- A variable has its value under all its names, except for spaced names of the separator. -/
lemma referenceValue?_of_isNamed (hname : v.IsNamed name) (hspaced : ¬ (directory name).IsSpacedSeparator) :
    referenceValue? e owner root (directory name) = v.value? e owner root := by
  by_cases hslash : name = ['/']
  · obtain rfl : v = .separator := hname.unique (by rw [hslash]; decide +kernel)
    rw [referenceValue?, if_pos hslash, PathVariable.value?]
  · have hiff (w : PathVariable) : w.IsNamed name ↔ w = v := ⟨fun hw => hw.unique hname, fun hw => hw ▸ hname⟩
    rw [referenceValue?_directory hslash]
    cases v with
    | separator => exact absurd ⟨hname, hslash⟩ hspaced
    | _ => simp [hiff]

lemma referenceValue?_eq_none (h : ∀ v : PathVariable, v.IsNamed name → v = .separator) (hne : name ≠ ['/']) :
    referenceValue? e owner root (directory name) = none := by
  have hnot {v : PathVariable} (hv : v ≠ .separator) : ¬ v.IsNamed name := fun hname => hv (h v hname)
  rw [referenceValue?_directory hne, if_neg (hnot (by simp)), if_neg (hnot (by simp)), if_neg (hnot (by simp))]

/-- A reference has its documented value, unless it is one to the separator with a spaced name. -/
lemma isValue_referenceValue? (hspaced : ¬ r.IsSpacedSeparator) :
    IsValue e owner root r (referenceValue? e owner root r) := by
  cases r with
  | environment name => exact .environment name
  | directory name =>
    by_cases hname : ∃ v : PathVariable, v.IsNamed name
    · obtain ⟨v, hname⟩ := hname
      rw [referenceValue?_of_isNamed hname hspaced]
      exact .known hname
    · rw [not_exists] at hname
      have hne : name ≠ ['/'] := by
        rintro rfl
        exact hname .separator (by decide +kernel)
      rw [referenceValue?_eq_none (fun v hv => absurd hv (hname v)) hne]
      exact .unknown hname

lemma exists_isValue (e : Environment) (owner root : Option Path) (r : PathReference) :
    ∃ value, IsValue e owner root r value ∧
      referenceValue? e owner root r = if r.IsSpacedSeparator then none else value := by
  by_cases hspaced : r.IsSpacedSeparator
  · cases r with
    | environment name => cases hspaced
    | directory name =>
      refine ⟨_, .known hspaced.1, ?_⟩
      rw [if_pos hspaced, referenceValue?_eq_none (fun v hv => hv.unique hspaced.1) hspaced.2]
  · exact ⟨_, isValue_referenceValue? hspaced, (if_neg hspaced).symm⟩

section Spaced

variable {value? : PathReference → Option Text}

lemma length_expand_lt (hvalue : IsValue e owner root r (value? r)) (hspaced : r.IsSpacedSeparator) :
    (PathPiece.expand value? (.reference r)).length < r.render.length := by
  cases r with
  | environment name => cases hspaced
  | directory name =>
    rw [PathPiece.expand, hvalue.unique (.known hspaced.1)]
    simp [PathVariable.value?, render]

/-- Expanded pieces are the same with the spaced references to the separator left as they are only if there are none. -/
lemma flatMap_expand_eq_iff (hvalue : ∀ r, IsValue e owner root r (value? r)) (ps : List PathPiece) :
    ps.flatMap (PathPiece.expand fun r => if r.IsSpacedSeparator then none else value? r) =
        ps.flatMap (PathPiece.expand value?) ↔
      ∀ r, PathPiece.reference r ∈ ps → ¬ r.IsSpacedSeparator := by
  have hstays {r : PathReference} (hspaced : r.IsSpacedSeparator) :
      PathPiece.expand (fun r => if r.IsSpacedSeparator then none else value? r) (.reference r) = r.render := by
    rw [PathPiece.expand, if_pos hspaced, Option.getD_none]
  have hsame {r : PathReference} (hspaced : ¬ r.IsSpacedSeparator) :
      PathPiece.expand (fun r => if r.IsSpacedSeparator then none else value? r) (.reference r) =
        PathPiece.expand value? (.reference r) := by
    rw [PathPiece.expand, if_neg hspaced, PathPiece.expand]
  constructor
  · intro heq r hr hspaced
    -- a reference that stays is longer than its value
    have hle (p) (_ : p ∈ ps) : (PathPiece.expand value? p).length ≤
        (PathPiece.expand (fun r => if r.IsSpacedSeparator then none else value? r) p).length := by
      cases p with
      | literal c => exact le_rfl
      | reference r =>
        by_cases hspaced : r.IsSpacedSeparator
        · rw [hstays hspaced]
          exact (length_expand_lt (hvalue r) hspaced).le
        · rw [hsame hspaced]
    have hlt := List.sum_lt_sum _ _ hle ⟨_, hr, by rw [hstays hspaced]; exact length_expand_lt (hvalue r) hspaced⟩
    rw [← List.length_flatMap, ← List.length_flatMap, heq] at hlt
    exact lt_irrefl _ hlt
  · intro hnone
    refine List.flatMap_congr fun p hp => ?_
    cases p with
    | literal c => rfl
    | reference r => exact hsame (hnone r hp)

end Spaced

/-- The path of an import is cut in the one leftmost way, and each reference in it is replaced by its documented value
if it has one, except that one to the separator with a spaced name stays. So a path is expanded as documented exactly
if it has no such reference. -/
theorem expand_leftmost (e : Environment) (owner root : Option Path) (t : Text) : ∃ ps value?,
    (∀ qs, PathPiece.IsLeftmost t qs ↔ qs = ps) ∧
      (∀ r value, IsValue e owner root r value ↔ value = value? r) ∧
      expand e owner root t =
        ps.flatMap (PathPiece.expand fun r => if r.IsSpacedSeparator then none else value? r) ∧
      (expand e owner root t = ps.flatMap (PathPiece.expand value?) ↔
        ∀ r, PathPiece.reference r ∈ ps → ¬ r.IsSpacedSeparator) := by
  choose value? hvalue hreference using exists_isValue e owner root
  have hexpand : expand e owner root t = (PathPiece.split t).flatMap
      (PathPiece.expand fun r => if r.IsSpacedSeparator then none else value? r) := by
    rw [expand, funext hreference]
  refine ⟨_, value?, fun qs => PathPiece.isLeftmost_iff, fun r value => ⟨fun h => h.unique (hvalue r), ?_⟩, hexpand, ?_⟩
  · rintro rfl
    exact hvalue r
  · rw [hexpand]
    exact flatMap_expand_eq_iff hvalue _

/-- A name that does not end starts no reference, and nothing in a value is one. -/
example : expand ⟨⟨[]⟩, [("HOME".toList, "$\x7b/\x7d".toList)]⟩ (some (Path.ofText "/a".toList)) none
    "%\x7bHOME\x7d$\x7bcur_dir\x7d%\x7b1\x7d$\x7b".toList = "$\x7b/\x7d/a%\x7b1\x7d$\x7b".toList := by
  decide +kernel

/-- The separator is a name with spaces around it, but a reference with that name is not replaced. -/
theorem expand_ne_of_spaced_separator :
    let e : Environment := ⟨⟨[]⟩, []⟩
    let t := "$\x7b / \x7dres.robot".toList
    let ps := PathPiece.reference (directory " / ".toList) :: "res.robot".toList.map PathPiece.literal
    PathPiece.IsLeftmost t ps ∧ expand e none none t = t ∧
      ∀ value?, (∀ r, IsValue e none none r (value? r)) →
        ps.flatMap (PathPiece.expand value?) = "/res.robot".toList ∧ t ≠ "/res.robot".toList := by
  intro e t ps
  have hname : PathVariable.separator.IsNamed " / ".toList := by decide +kernel
  refine ⟨PathPiece.isLeftmost_iff.2 (by decide +kernel), by decide +kernel, fun value? hvalue => ⟨?_, by decide⟩⟩
  have hslash : PathPiece.expand value? (.reference (directory " / ".toList)) = ['/'] := by
    rw [PathPiece.expand, (hvalue _).unique (.known hname)]
    rfl
  simp only [ps, List.flatMap_cons, hslash]
  rfl

end Import

end KeywordCompletion
