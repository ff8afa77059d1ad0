import KeywordCompletion.Proofs.Import.Spellings

/-!
# What paths denote

Where there are no links a path denotes a number of steps up and the names below them; from the root no step
leads up. Folding takes away steps up in pairs: `route_folded`. So a relative path that goes up at most one
step denotes the same when it is folded, and of the paths to one name below the root those that go up too
often an odd number of times are folded into another form than the rest: `folded_meaning`.
-/

namespace KeywordCompletion

/-- A way without links: so many steps up from where it starts, then down along names. -/
@[ext]
structure Route where
  ups : Nat
  names : List Bytes
  deriving DecidableEq

/-- The way that goes on with a part of a path. A step up takes back the last name, if there is one. -/
def Route.follow (r : Route) : PathPart → Route
  | .root | .here => r
  | .up => if r.names = [] then { r with ups := r.ups + 1 } else { r with names := r.names.dropLast }
  | .name bytes => { r with names := r.names ++ [bytes] }

/-- What a path denotes where there are no links. -/
inductive PathMeaning where
  /-- The names below the root. -/
  | absolute (names : List Bytes)
  | relative (route : Route)
  deriving DecidableEq

namespace Path

/-- The way that the parts of a path describe. -/
def route (p : Path) : Route := p.parts.foldl Route.follow ⟨0, []⟩

/-- At the root steps up lead nowhere, so how many of them are left over makes no difference. -/
def meaning (p : Path) : PathMeaning :=
  if p.isAbsolute then .absolute p.route.names else .relative p.route

/-- Whether a path has no dots, and double dots only before all names of a relative path. -/
def IsClean (p : Path) : Prop :=
  ∃ names : List Bytes, p.parts = .root :: names.map .name ∨
    ∃ ups, p.parts = List.replicate ups .up ++ names.map .name

open PathPart

variable {p q : Path} {inner : List PathPart}

lemma isAbsolute_iff_head? : p.isAbsolute = true ↔ p.parts.head? = some .root := by
  obtain ⟨inner, hinner, ⟨habs, hparts⟩ | ⟨habs, hparts⟩ | ⟨habs, hparts⟩⟩ := exists_parts p <;>
    rw [habs, hparts]
  · refine iff_of_false (by simp) fun hroot => ?_
    cases hinner .root (List.mem_of_head? hroot)
  · simp
  · simp

/-- What stands before the names of a path that is folded. -/
def head (p : Path) : List PathPart :=
  (if p.isAbsolute then [.root] else []) ++ if p.route.ups % 2 = 1 then [.up] else []

/-- The parts that are kept while a way is followed, in reverse. -/
def stackOf (start : List PathPart) (r : Route) : List PathPart :=
  r.names.reverse.map .name ++ ((if r.ups % 2 = 1 then [.up] else []) ++ start)

/-- Of steps up that are left over, every second one takes away the one before it. -/
lemma foldPart_stackOf {start : List PathPart} (hstart : start ∈ [[], [.root]]) (r : Route)
    {part : PathPart} (hpart : part.IsInner) :
    foldPart (stackOf start r) part = stackOf start (r.follow part) := by
  obtain ⟨ups, names⟩ := r
  cases hpart with
  | @name bytes h =>
    change .name bytes :: stackOf start ⟨ups, names⟩ = stackOf start ⟨ups, names ++ [bytes]⟩
    rw [stackOf, stackOf, List.reverse_concat, List.map_cons, List.cons_append]
  | up =>
    rcases List.eq_nil_or_concat' names with rfl | ⟨init, last, rfl⟩
    · have hups : (ups + 1) % 2 = 1 ↔ ¬ ups % 2 = 1 := by omega
      simp only [List.mem_cons, List.not_mem_nil, or_false] at hstart
      rcases hstart with rfl | rfl
      all_goals
        by_cases hodd : ups % 2 = 1
        · simp [foldPart, stackOf, Route.follow, hodd, hups]
        · simp [foldPart, stackOf, Route.follow, hodd, hups]
    · simp [foldPart, stackOf, Route.follow]

lemma foldl_stackOf {start : List PathPart} (hstart : start ∈ [[], [.root]])
    (hinner : ∀ part ∈ inner, part.IsInner) (r : Route) :
    inner.foldl foldPart (stackOf start r) = stackOf start (inner.foldl Route.follow r) := by
  induction inner generalizing r with
  | nil => rfl
  | cons part inner ih =>
    rw [List.forall_mem_cons] at hinner
    rw [List.foldl_cons, List.foldl_cons, foldPart_stackOf hstart r hinner.1, ih hinner.2]

lemma foldl_parts (p : Path) :
    p.parts.foldl foldPart [] = stackOf (if p.isAbsolute then [.root] else []) p.route := by
  obtain ⟨inner, hinner, ⟨habs, hparts⟩ | ⟨habs, hparts⟩ | ⟨habs, hparts⟩⟩ := exists_parts p <;>
    rw [route, habs, hparts]
  · exact foldl_stackOf (by simp) hinner ⟨0, []⟩
  · exact foldl_stackOf (by simp) hinner ⟨0, []⟩
  · exact foldl_stackOf (by simp) hinner ⟨0, []⟩

/-- A folded path has the names at the end of the way, and before them at most one double dot. -/
theorem parts_folded (p : Path) : p.folded.parts = p.head ++ p.route.names.map .name := by
  rw [folded, (isFolded_foldl p).parts_ofParts, foldl_parts, stackOf, List.reverse_append,
    List.reverse_append, ← List.map_reverse, List.reverse_reverse, head]
  congr 2
  · split <;> rfl
  · split <;> rfl

lemma isAbsolute_folded (p : Path) : p.folded.isAbsolute = p.isAbsolute := by
  rw [Bool.eq_iff_iff, isAbsolute_iff_head?, parts_folded, head]
  cases h : p.isAbsolute with
  | true => simp
  | false =>
    refine iff_of_false (fun hroot => ?_) (by simp)
    have hmem := List.mem_of_head? hroot
    simp at hmem

lemma foldl_follow_names (r : Route) (names : List Bytes) :
    (names.map PathPart.name).foldl Route.follow r = { r with names := r.names ++ names } := by
  induction names generalizing r with
  | nil => simp
  | cons name names ih =>
    rw [List.map_cons, List.foldl_cons, ih]
    simp [Route.follow]

theorem route_folded (p : Path) : p.folded.route = ⟨p.route.ups % 2, p.route.names⟩ := by
  have hhead : p.head.foldl Route.follow ⟨0, []⟩ = ⟨p.route.ups % 2, []⟩ := by
    rcases Nat.mod_two_eq_zero_or_one p.route.ups with hups | hups <;> rw [head, hups] <;>
      cases p.isAbsolute <;> rfl
  rw [route, parts_folded, List.foldl_append, hhead, foldl_follow_names, List.nil_append]

lemma isName_of_mem_route {name : Bytes} (h : name ∈ p.route.names) : IsName name := by
  have hmem : .name name ∈ p.folded.parts := by
    rw [parts_folded]
    exact List.mem_append_right _ (List.mem_map_of_mem h)
  obtain ⟨inner, hinner, ⟨-, hparts⟩ | ⟨-, hparts⟩ | ⟨-, hparts⟩⟩ := exists_parts p.folded <;>
    rw [hparts] at hmem
  · cases hinner _ hmem with
    | name hname => exact hname
  · cases hinner _ (List.mem_of_ne_of_mem (by simp) hmem) with
    | name hname => exact hname
  · cases hinner _ (List.mem_of_ne_of_mem (by simp) hmem) with
    | name hname => exact hname

lemma here_notMem_parts_folded (p : Path) : .here ∉ p.folded.parts := by
  rw [parts_folded, head]
  simp

lemma isClean_folded_iff (p : Path) :
    p.folded.IsClean ↔ (p.isAbsolute = true → p.route.ups % 2 = 0) := by
  rw [IsClean, parts_folded, head]
  cases h : p.isAbsolute with
  | true =>
    rcases Nat.mod_two_eq_zero_or_one p.route.ups with hups | hups
    · exact iff_of_true ⟨p.route.names, Or.inl (by simp [hups])⟩ fun _ => hups
    · refine iff_of_false ?_ (by simp [hups])
      rintro ⟨names, hnames | ⟨ups, hups'⟩⟩
      · have hup : PathPart.up ∈ names.map PathPart.name := by
          rw [← (List.cons.inj hnames).2]
          simp [hups]
        simp at hup
      · have hroot : PathPart.root ∈ List.replicate ups .up ++ names.map .name := by
          rw [← hups']
          simp
        simp at hroot
  | false =>
    refine iff_of_true ⟨p.route.names, Or.inr ⟨p.route.ups % 2, ?_⟩⟩ (by simp)
    rcases Nat.mod_two_eq_zero_or_one p.route.ups with hups | hups <;> simp [hups]

lemma ofParts_parts_folded (p : Path) : ofParts p.folded.parts = p.folded := by
  rw [folded, (isFolded_foldl p).parts_ofParts]

lemma folded_eq_iff : p.folded = q.folded ↔
    p.isAbsolute = q.isAbsolute ∧ p.route.ups % 2 = q.route.ups % 2 ∧ p.route.names = q.route.names := by
  constructor
  · intro h
    have habsolute := congrArg isAbsolute h
    have hroute := congrArg route h
    rw [isAbsolute_folded, isAbsolute_folded] at habsolute
    rw [route_folded, route_folded, Route.mk.injEq] at hroute
    exact ⟨habsolute, hroute⟩
  · rintro ⟨habsolute, hups, hnames⟩
    rw [← ofParts_parts_folded, ← ofParts_parts_folded q, parts_folded, parts_folded, head, head, habsolute,
      hups, hnames]

lemma meaning_folded_iff (p : Path) :
    p.folded.meaning = p.meaning ↔ (p.isAbsolute = true ∨ p.route.ups ≤ 1) := by
  rw [meaning, meaning, isAbsolute_folded, route_folded]
  cases p.isAbsolute with
  | true => simp
  | false =>
    have hmod : p.route.ups % 2 = p.route.ups ↔ p.route.ups ≤ 1 := by omega
    simp [Route.ext_iff, hmod]

lemma meaning_eq_iff : p.meaning = q.meaning ↔
    p.isAbsolute = q.isAbsolute ∧ p.route.names = q.route.names ∧
      (p.isAbsolute = false → p.route.ups = q.route.ups) := by
  rw [meaning, meaning]
  cases p.isAbsolute <;> cases q.isAbsolute <;> simp [Route.ext_iff, and_comm]

/-- A folded path has no dots. It denotes what the path denotes unless that is relative and goes up twice or
more, and it has double dots only where it has to, unless the path is absolute and goes up from the root an
odd number of times. Two paths that denote the same are folded into one, if they are relative or go up from
the root odd numbers of times both or neither; then they have one identity where they lead nowhere. -/
theorem folded_meaning (p : Path) :
    (p.folded.meaning = p.meaning ↔ (p.isAbsolute = true ∨ p.route.ups ≤ 1)) ∧
      .here ∉ p.folded.parts ∧
      (p.folded.IsClean ↔ (p.isAbsolute = true → p.route.ups % 2 = 0)) ∧
      ∀ q, p.meaning = q.meaning →
        (p.folded = q.folded ↔ (p.isAbsolute = true → p.route.ups % 2 = q.route.ups % 2)) ∧
        ∀ d reason reason', d.locate? p = .error reason → d.locate? q = .error reason' →
          (p.isAbsolute = true → p.route.ups % 2 = q.route.ups % 2) →
          FileId.ofPath d p = FileId.ofPath d q := by
  refine ⟨meaning_folded_iff p, here_notMem_parts_folded p, isClean_folded_iff p, fun q hmeaning => ?_⟩
  obtain ⟨habsolute, hnames, hrelative⟩ := meaning_eq_iff.1 hmeaning
  have hfolded : p.folded = q.folded ↔ (p.isAbsolute = true → p.route.ups % 2 = q.route.ups % 2) := by
    rw [folded_eq_iff]
    constructor
    · exact fun h _ => h.2.1
    · intro hups
      refine ⟨habsolute, ?_, hnames⟩
      cases h : p.isAbsolute with
      | true => exact hups h
      | false => rw [hrelative h]
  refine ⟨hfolded, fun d reason reason' hp hq hups => ?_⟩
  rw [FileId.ofPath, FileId.ofPath, normalized_of_error hp, normalized_of_error hq, hfolded.2 hups]

/-- The first path goes up from the root twice. On a disk with nothing on it neither leads anywhere. -/
theorem folded_meaning_rooted :
    let p := ofText "/no/../../../a/./b".toList
    let q := ofText "/a//c/../b/".toList
    let d : Disk := ⟨[([], .directory)]⟩
    p.meaning = q.meaning ∧ p.folded = q.folded ∧ FileId.ofPath d p = FileId.ofPath d q := by
  intro p q d
  have hmeaning : p.meaning = q.meaning := by decide +kernel
  have hups : p.isAbsolute = true → p.route.ups % 2 = q.route.ups % 2 := by decide +kernel
  have hp : d.locate? p = .error .notFound := by decide +kernel
  have hq : d.locate? q = .error .notFound := by decide +kernel
  obtain ⟨hfolded, hidentity⟩ := (folded_meaning p).2.2.2 q hmeaning
  exact ⟨hmeaning, hfolded.2 hups, hidentity d _ _ hp hq hups⟩

/-- A double dot at the root stays, and one takes away another one. -/
theorem folded_meaning_ne_of_ups :
    let d : Disk := ⟨[([], .directory)]⟩
    (ofText "/../a".toList).meaning = (ofText "/a".toList).meaning ∧
      ¬ (ofText "/../a".toList).folded.IsClean ∧
      FileId.ofPath d (ofText "/../a".toList) ≠ FileId.ofPath d (ofText "/a".toList) ∧
      (ofText "../../a".toList).folded.meaning ≠ (ofText "../../a".toList).meaning := by
  intro d
  rw [isClean_folded_iff]
  decide +kernel

end Path

end KeywordCompletion
