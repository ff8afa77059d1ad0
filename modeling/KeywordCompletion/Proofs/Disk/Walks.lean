import KeywordCompletion.Proofs.Disk.Files
import KeywordCompletion.Proofs.Path.Folding

/-!
# Where paths lead

On a disk whose names are names a file can have, a path leads to a location all of whose directories
are there (`reaches_of_locate?`), and the path down the names of this location leads to it again
(`locate?_ofNames`). So the real path of a path is the way to the same place.
-/

namespace KeywordCompletion

/-- The names that a file can have. -/
structure IsFileName (name : Bytes) : Prop where
  ne_nil : name ≠ []
  slash_notMem : Path.slash ∉ name
  nul_notMem : 0 ∉ name
  ne_dot : name ≠ [Path.dot]
  ne_dotDot : name ≠ [Path.dot, Path.dot]
  length_le : name.length ≤ Disk.maxName

instance (name : Bytes) : Decidable (IsFileName name) :=
  decidable_of_iff (name ≠ [] ∧ Path.slash ∉ name ∧ 0 ∉ name ∧ name ≠ [Path.dot] ∧
      name ≠ [Path.dot, Path.dot] ∧ name.length ≤ Disk.maxName)
    ⟨fun ⟨h₁, h₂, h₃, h₄, h₅, h₆⟩ => ⟨h₁, h₂, h₃, h₄, h₅, h₆⟩,
      fun ⟨h₁, h₂, h₃, h₄, h₅, h₆⟩ => ⟨h₁, h₂, h₃, h₄, h₅, h₆⟩⟩

lemma IsFileName.isName {name : Bytes} (h : IsFileName name) : PathPart.IsName name :=
  ⟨h.ne_nil, h.slash_notMem, h.ne_dot, h.ne_dotDot⟩

lemma IsFileName.not_isCut {name : Bytes} (h : IsFileName name) :
    ∀ b ∈ name, (b == Path.slash) = false := by
  intro b hb
  rw [beq_eq_false_iff_ne]
  rintro rfl
  exact h.slash_notMem hb

lemma Path.bytes_ofNames (names : List Bytes) (h : names ≠ []) :
    (Path.ofNames names).bytes = [Path.slash].intercalate ([] :: names) := by
  cases names with
  | nil => exact absurd rfl h
  | cons name more => simp [Path.ofNames, Path.ofParts, Path.partBytes, Function.comp_def]

namespace Disk

/-- Whether the root of a disk is a directory, and its files have names that files can have. -/
structure IsRegular (d : Disk) : Prop where
  root : d.node? [] = some .directory
  names : ∀ entry ∈ d.entries, ∀ name ∈ entry.1, IsFileName name

instance (d : Disk) : Decidable d.IsRegular :=
  decidable_of_iff (d.node? [] = some .directory ∧
      ∀ entry ∈ d.entries, ∀ name ∈ entry.1, IsFileName name)
    ⟨fun ⟨h₁, h₂⟩ => ⟨h₁, h₂⟩, fun ⟨h₁, h₂⟩ => ⟨h₁, h₂⟩⟩

/-- Whether a location is there with all directories above it, and is not a link. -/
structure Reaches (d : Disk) (at_ : Location) : Prop where
  above : ∀ n < at_.length, d.node? (at_.take n) = some .directory
  here : at_ = [] ∨ ∃ node, d.node? at_ = some node ∧ ∀ target, node ≠ .link target

lemma reaches_nil (d : Disk) : d.Reaches [] := ⟨by simp, Or.inl rfl⟩

lemma Reaches.dropLast {d : Disk} {at_ : Location} (h : d.Reaches at_) : d.Reaches at_.dropLast := by
  cases hl : at_.length with
  | zero =>
    rw [List.length_eq_zero_iff.1 hl]
    exact reaches_nil d
  | succ n =>
    have htake : at_.dropLast = at_.take n := by rw [List.dropLast_eq_take, hl, Nat.add_sub_cancel]
    rw [htake]
    refine ⟨?_, Or.inr ⟨.directory, h.above n (by omega), by simp⟩⟩
    intro k hk
    rw [List.length_take] at hk
    rw [List.take_take, Nat.min_eq_left (by omega)]
    exact h.above k (by omega)

lemma Reaches.append {d : Disk} {at_ : Location} (h : d.Reaches at_)
    (hdir : d.node? at_ = some .directory) {name : Bytes} {node : DiskNode}
    (hnode : d.node? (at_ ++ [name]) = some node) (hlink : ∀ target, node ≠ .link target) :
    d.Reaches (at_ ++ [name]) := by
  refine ⟨?_, Or.inr ⟨node, hnode, hlink⟩⟩
  intro n hn
  rw [List.length_append, List.length_singleton] at hn
  rw [List.take_append_of_le_length (by omega)]
  rcases Nat.lt_or_ge n at_.length with hlt | hge
  · exact h.above n hlt
  · rwa [List.take_of_length_le hge]

/-- A walk ends at a location that is there, if every link on the way leads to one. -/
lemma reaches_of_walkWith {d : Disk} {onLink : Location → Bytes → List Bytes → Except DiskError Arrival}
    {loc : Location}
    (honLink : ∀ at_ target rest, d.Reaches at_ → onLink at_ target rest = .ok (.taken loc) →
      d.Reaches loc)
    {at_ : Location} {path : List Bytes} (h : d.Reaches at_)
    (hw : walkWith d true onLink at_ path = .ok (.taken loc)) : d.Reaches loc := by
  induction path generalizing at_ with
  | nil =>
    obtain rfl : at_ = loc := by simpa [walkWith] using hw
    exact h
  | cons step rest ih =>
    rw [walkWith] at hw
    split at hw
    · cases hw
    rename_i hdir
    rw [not_not] at hdir
    split at hw
    · exact ih h hw
    split at hw
    · exact ih h.dropLast hw
    split at hw
    · cases hw
    dsimp only at hw
    split at hw
    · split at hw <;> cases hw
    · simp only [Bool.not_true, Bool.and_false, Bool.false_eq_true, if_false] at hw
      exact honLink _ _ _ h hw
    · rename_i node hlink hnode
      exact ih (h.append hdir hnode hlink) hw

lemma reaches_of_walk {d : Disk} {links : Nat} {at_ loc : Location} {path : List Bytes}
    (h : d.Reaches at_) (hw : walk d true links at_ path = .ok (.taken loc)) : d.Reaches loc := by
  induction links generalizing at_ path with
  | zero => exact reaches_of_walkWith (by nofun) h hw
  | succ links ih =>
    refine reaches_of_walkWith ?_ h hw
    intro at_ target rest hat hlink
    split at hlink
    · cases hlink
    · refine ih ?_ hlink
      unfold linkStart
      split
      · exact reaches_nil d
      · exact hat

lemma arrive_of_locate? {d : Disk} {p : Path} {loc : Location} (h : d.locate? p = .ok loc) :
    0 ∉ p.bytes ∧ p.isAbsolute = true ∧
      walk d true maxLinks [] (steps p.bytes) = .ok (.taken loc) := by
  unfold locate? arrive at h
  by_cases hnul : 0 ∈ p.bytes
  · simp [hnul] at h
  by_cases habs : p.isAbsolute = true
  · rw [if_neg (by simp [hnul]), if_pos habs] at h
    refine ⟨hnul, habs, ?_⟩
    split at h
    · rename_i hw
      obtain rfl : _ = loc := by simpa using h
      exact hw
    · cases h
    · cases h
  · simp [hnul, habs] at h

lemma locate?_of_walk {d : Disk} {p : Path} {loc : Location} (hnul : 0 ∉ p.bytes)
    (habs : p.isAbsolute = true) (hw : walk d true maxLinks [] (steps p.bytes) = .ok (.taken loc)) :
    d.locate? p = .ok loc := by
  simp [locate?, arrive, hnul, habs, hw]

/-- Where a path leads, all directories on the way are there. -/
theorem reaches_of_locate? {d : Disk} {p : Path} {loc : Location} (h : d.locate? p = .ok loc) :
    d.Reaches loc :=
  reaches_of_walk (reaches_nil d) (arrive_of_locate? h).2.2

lemma Reaches.isFileName {d : Disk} (hd : d.IsRegular) {loc : Location} (h : d.Reaches loc) :
    ∀ name ∈ loc, IsFileName name := by
  rcases h.here with rfl | ⟨node, hnode, _⟩
  · simp
  · exact hd.names _ (mem_entries_of_node? hnode)

/-- A walk down the names of a location that is there leads to it. -/
lemma walkWith_of_reaches {d : Disk} {onLink : Location → Bytes → List Bytes → Except DiskError Arrival}
    {at_ rest : Location} (h : d.Reaches (at_ ++ rest)) (hnames : ∀ name ∈ rest, IsFileName name) :
    walkWith d true onLink at_ rest = .ok (.taken (at_ ++ rest)) := by
  induction rest generalizing at_ with
  | nil => rw [List.append_nil, walkWith]
  | cons name rest ih =>
    have hname := hnames name List.mem_cons_self
    have hdir : d.node? at_ = some .directory := by
      have ha := h.above at_.length (by simp)
      rwa [List.take_left] at ha
    have hstep : at_ ++ name :: rest = (at_ ++ [name]) ++ rest := by simp
    have hnode : ∃ node, d.node? (at_ ++ [name]) = some node ∧ ∀ target, node ≠ .link target := by
      cases rest with
      | nil => exact h.here.resolve_left (by simp)
      | cons next more =>
        refine ⟨.directory, ?_, by simp⟩
        have ha := h.above (at_ ++ [name]).length (by simp)
        rwa [hstep, List.take_left] at ha
    obtain ⟨node, hnode, hlink⟩ := hnode
    have hrest := ih (hstep ▸ h) fun n hn => hnames n (List.mem_cons_of_mem _ hn)
    rw [walkWith, if_neg (by simp [hdir]), if_neg hname.ne_dot, if_neg hname.ne_dotDot,
      if_neg (Nat.not_lt_of_le hname.length_le), hstep]
    dsimp only
    rw [hnode]
    cases node with
    | link target => exact absurd rfl (hlink target)
    | file content modified => exact hrest
    | directory => exact hrest

lemma walk_of_reaches {d : Disk} {loc : Location} (h : d.Reaches loc)
    (hnames : ∀ name ∈ loc, IsFileName name) (links : Nat) :
    walk d true links [] loc = .ok (.taken loc) := by
  cases links <;> exact walkWith_of_reaches h hnames

lemma pieces_append_slash_cons (before after : Bytes) :
    Path.pieces ⟨before ++ Path.slash :: after⟩ = Path.pieces ⟨before⟩ ++ Path.pieces ⟨after⟩ := by
  have hslash : (Path.slash == Path.slash) = true := by simp
  rw [Path.pieces, @cut_append_cons _ (· == Path.slash) _ hslash, List.filter_append]
  rfl

lemma pieces_of_isFileName {name : Bytes} (h : IsFileName name) : Path.pieces ⟨name⟩ = [name] := by
  simp only [Path.pieces, cut_of_forall h.not_isCut]
  simp [h.ne_nil]

lemma getLast?_append_slash_name (before : Bytes) {name : Bytes} (h : IsFileName name) :
    (before ++ Path.slash :: name).getLast? ≠ some Path.slash := by
  obtain ⟨b, hb⟩ := Option.isSome_iff_exists.1 (List.getLast?_isSome.2 h.ne_nil)
  rw [List.getLast?_append, List.getLast?_cons_of_ne_nil h.ne_nil, hb, Option.some_or]
  intro he
  cases he
  exact h.slash_notMem (List.mem_of_getLast? hb)

lemma steps_eq_pieces {bytes : Bytes} (h : bytes.getLast? ≠ some Path.slash) :
    steps bytes = Path.pieces ⟨bytes⟩ := by
  rw [steps, if_neg h, List.append_nil]
  rfl

lemma steps_append_slash_name (before : Bytes) {name : Bytes} (h : IsFileName name) :
    steps (before ++ Path.slash :: name) = Path.pieces ⟨before⟩ ++ [name] := by
  rw [steps_eq_pieces (getLast?_append_slash_name before h), pieces_append_slash_cons,
    pieces_of_isFileName h]

lemma pieces_ofNames {names : List Bytes} (h : ∀ name ∈ names, IsFileName name) :
    (Path.ofNames names).pieces = names := by
  rw [Path.ofNames, Path.pieces_ofParts_root, List.map_map]
  · exact List.map_id names
  · exact List.forall_mem_map.2 fun name hname => .name (h name hname).isName

lemma isAbsolute_ofNames (names : List Bytes) : (Path.ofNames names).isAbsolute = true :=
  Path.isAbsolute_ofParts_root _

lemma nul_notMem_ofNames {names : List Bytes} (h : ∀ name ∈ names, IsFileName name) :
    0 ∉ (Path.ofNames names).bytes := by
  cases names with
  | nil => decide
  | cons name more =>
    rw [Path.bytes_ofNames _ (by simp)]
    intro hmem
    rcases mem_intercalate hmem with hslash | ⟨part, hpart, hnul⟩
    · cases hslash
    · rcases List.mem_cons.1 hpart with rfl | hpart
      · cases hnul
      · exact (h part hpart).nul_notMem hnul

/-- The path down the names of a location that is there leads to it. -/
theorem locate?_ofNames {d : Disk} (hd : d.IsRegular) {loc : Location} (h : d.Reaches loc) :
    d.locate? (Path.ofNames loc) = .ok loc := by
  have hnames := h.isFileName hd
  refine locate?_of_walk (nul_notMem_ofNames hnames) (isAbsolute_ofNames loc) ?_
  rcases List.eq_nil_or_concat loc with rfl | ⟨init, name, rfl⟩
  · change walkWith d true _ [] [[Path.dot]] = _
    rw [walkWith, if_neg (by simp [hd.root]), if_pos rfl, walkWith]
  · rw [List.concat_eq_append] at h hnames ⊢
    have hbytes : (Path.ofNames (init ++ [name])).bytes =
        [Path.slash].intercalate ([] :: init) ++ Path.slash :: name := by
      rw [Path.bytes_ofNames _ (by simp), ← List.cons_append, intercalate_concat _ (by simp)]
    have hlast := getLast?_append_slash_name ([Path.slash].intercalate ([] :: init))
      (hnames name (by simp))
    rw [← hbytes] at hlast
    rw [steps_eq_pieces hlast]
    change walk d true maxLinks [] (Path.ofNames (init ++ [name])).pieces = _
    rw [pieces_ofNames hnames]
    exact walk_of_reaches h hnames maxLinks

end Disk

end KeywordCompletion
