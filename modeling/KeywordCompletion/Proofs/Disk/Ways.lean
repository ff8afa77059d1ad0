import Mathlib.Logic.Relation
import KeywordCompletion.Proofs.Disk.Trees

/-!
# Ways down a tree

A way down a tree is the list of the entries that are met one below the other. It goes on with a name in the
directory where it has got to, or with a link there that does not lead back to a directory on the way. The tree
at a path holds what such ways lead to, as far as they are kept and their paths are not too long: `mem_tree_iff`.
A way has an end, since links lead to ever other directories and names to ever longer locations; `treeFuel` is
enough for all of them.
-/

namespace KeywordCompletion.Disk

variable {d : Disk} {keep : TreeEntry → Bool} {entry parent child last : TreeEntry}
  {way above : List TreeEntry} {at_ : Location} {name : Bytes} {root : Path}

/-- A step down. The entry that is met last stands first. -/
inductive Descends (d : Disk) : List TreeEntry → List TreeEntry → Prop
  | name {parent : TreeEntry} {above : List TreeEntry} {name : Bytes} {node : DiskNode}
      (hdir : d.node? parent.location = some .directory)
      (hnode : d.node? (parent.location ++ [name]) = some node) (hlink : ∀ target, node ≠ .link target) :
      Descends d (parent :: above)
        (⟨parent.path.join ⟨name⟩, parent.location ++ [name], parent.depth + 1⟩ :: parent :: above)
  | link {parent : TreeEntry} {above : List TreeEntry} {name target : Bytes} {at_ : Location}
      (hdir : d.node? parent.location = some .directory)
      (hnode : d.node? (parent.location ++ [name]) = some (.link target))
      (hlocate : d.locate? (parent.path.join ⟨name⟩) = .ok at_)
      (hloop : d.node? at_ = some .directory → ∀ entry ∈ parent :: above, entry.location ≠ at_) :
      Descends d (parent :: above) (⟨parent.path.join ⟨name⟩, at_, parent.depth + 1⟩ :: parent :: above)

/-- Whether entries are met one below the other in the tree at a path, the last one first. -/
def IsWay (d : Disk) (root : Path) (way : List TreeEntry) : Prop :=
  ∃ at_, d.locate? root = .ok at_ ∧ Relation.ReflTransGen d.Descends [⟨root, at_, 0⟩] way

lemma mem_names_iff : name ∈ d.names at_ ↔ ∃ node, d.node? (at_ ++ [name]) = some node := by
  have hnode : (∃ node, d.node? (at_ ++ [name]) = some node) ↔ ∃ e ∈ d.entries, e.1 = at_ ++ [name] := by
    rw [← Option.isSome_iff_exists, node?, Option.isSome_map, List.find?_isSome]
    simp
  rw [names, List.mem_mergeSort, List.mem_eraseDups, List.mem_filterMap, hnode]
  refine exists_congr fun e => and_congr_right fun _ => ?_
  rcases List.eq_nil_or_concat' e.1 with hnil | ⟨init, last, hlast⟩
  · simp [hnil]
  · simp [hlast, and_comm]

lemma child?_eq_some_iff {locations : List Location} :
    d.child? locations parent name = some child ↔
      (∃ node, d.node? (parent.location ++ [name]) = some node ∧ (∀ target, node ≠ .link target) ∧
        child = ⟨parent.path.join ⟨name⟩, parent.location ++ [name], parent.depth + 1⟩) ∨
      ∃ target at_, d.node? (parent.location ++ [name]) = some (.link target) ∧
        d.locate? (parent.path.join ⟨name⟩) = .ok at_ ∧
        (d.node? at_ = some .directory → at_ ∉ locations) ∧
        child = ⟨parent.path.join ⟨name⟩, at_, parent.depth + 1⟩ := by
  unfold child?
  dsimp only
  split
  · rename_i hnode
    simp [hnode]
  · rename_i target hnode
    cases hl : d.locate? (parent.path.join ⟨name⟩) with
    | error reason => simp [hnode]
    | ok at_ => simp [hnode, eq_comm]
  · rename_i node hlink hnode
    constructor
    · rintro ⟨⟩
      exact Or.inl ⟨node, hnode, hlink, rfl⟩
    · rintro (⟨other, -, -, rfl⟩ | ⟨target, at_, hother, -⟩)
      · rfl
      · rw [hnode] at hother
        exact absurd (Option.some.inj hother) (hlink target)

lemma descends_iff : d.Descends (parent :: above) way ↔
    d.node? parent.location = some .directory ∧ ∃ name ∈ d.names parent.location, ∃ child,
      d.child? ((parent :: above).map TreeEntry.location) parent name = some child ∧
        way = child :: parent :: above := by
  constructor
  · intro h
    cases h with
    | name hdir hnode hlink =>
      exact ⟨hdir, _, mem_names_iff.2 ⟨_, hnode⟩, _, child?_eq_some_iff.2 (Or.inl ⟨_, hnode, hlink, rfl⟩), rfl⟩
    | link hdir hnode hlocate hloop =>
      refine ⟨hdir, _, mem_names_iff.2 ⟨_, hnode⟩, _,
        child?_eq_some_iff.2 (Or.inr ⟨_, _, hnode, hlocate, fun hat hmem => ?_, rfl⟩), rfl⟩
      obtain ⟨entry, hentry, he⟩ := List.mem_map.1 hmem
      exact hloop hat entry hentry he
  · rintro ⟨hdir, name, -, child, hchild, rfl⟩
    rcases child?_eq_some_iff.1 hchild with ⟨node, hnode, hlink, rfl⟩ | ⟨target, at_, hnode, hlocate, hloop, rfl⟩
    · exact .name hdir hnode hlink
    · exact .link hdir hnode hlocate fun hat entry hentry he =>
        hloop hat (List.mem_map.2 ⟨entry, hentry, he⟩)

lemma mem_treeBelow_succ {fuel : Nat} {locations : List Location} :
    last ∈ d.treeBelow keep (fuel + 1) locations entry ↔ keep entry = true ∧
      (last = entry ∨ d.node? entry.location = some .directory ∧ ∃ name ∈ d.names entry.location, ∃ child,
        d.child? (entry.location :: locations) entry name = some child ∧
          last ∈ d.treeBelow keep fuel (entry.location :: locations) child) := by
  rw [treeBelow]
  by_cases hkeep : keep entry = true
  · rw [if_pos hkeep, List.mem_cons]
    refine Iff.trans (or_congr_right ?_) (and_iff_right hkeep).symm
    by_cases hdir : d.node? entry.location = some .directory
    · rw [if_pos hdir, List.mem_flatMap, and_iff_right hdir]
      refine exists_congr fun name => and_congr_right fun _ => ?_
      cases d.child? (entry.location :: locations) entry name <;> simp
    · simp [hdir]
  · simp [hkeep]

lemma suffix_of_descends {way' : List TreeEntry} (h : Relation.ReflTransGen d.Descends way way') :
    way <:+ way' := by
  induction h with
  | refl => exact List.suffix_refl way
  | tail _ hstep ih =>
    refine ih.trans ?_
    cases hstep with
    | name => exact List.suffix_cons _ _
    | link => exact List.suffix_cons _ _

/-- What is found below an entry is led to by a way that is kept. -/
lemma exists_way_of_mem_treeBelow {fuel : Nat} (habove : ∀ e ∈ above, keep e = true)
    (h : last ∈ d.treeBelow keep fuel (above.map TreeEntry.location) entry) :
    ∃ way, Relation.ReflTransGen d.Descends (entry :: above) (last :: way) ∧
      ∀ e ∈ last :: way, keep e = true := by
  induction fuel generalizing entry above with
  | zero => simp [treeBelow] at h
  | succ fuel ih =>
    rw [mem_treeBelow_succ] at h
    obtain ⟨hkeep, rfl | ⟨hdir, name, hname, child, hchild, hlast⟩⟩ := h
    · exact ⟨above, .refl, List.forall_mem_cons.2 ⟨hkeep, habove⟩⟩
    · have hkept : ∀ e ∈ entry :: above, keep e = true := List.forall_mem_cons.2 ⟨hkeep, habove⟩
      obtain ⟨way, hway, hall⟩ := @ih child (entry :: above) hkept hlast
      exact ⟨way, .head (descends_iff.2 ⟨hdir, name, hname, child, hchild, rfl⟩) hway, hall⟩

/-- The length of the longest location on a disk. -/
def longest (d : Disk) : Nat := d.entries.foldl (fun n e => max n e.1.length) 0

/-- How many entries of a disk stand at none of the given locations. -/
def elsewhere (d : Disk) (locations : List Location) : Nat := d.entries.countP fun e => !locations.contains e.1

/-- A bound on the steps that can follow where a way has got to. Each link to a directory takes away one of the
directories that are not on the way; between two of them locations grow. -/
def stepsLeft (d : Disk) (entry : TreeEntry) (above : List TreeEntry) : Nat :=
  d.elsewhere ((entry :: above).map TreeEntry.location) * (d.longest + 1) +
    (d.longest - entry.location.length) + 1

lemma length_le_longest {node : DiskNode} (h : d.node? at_ = some node) : at_.length ≤ d.longest := by
  have hfold : ∀ (entries : List (Location × DiskNode)) (n : Nat),
      n ≤ entries.foldl (fun n e => max n e.1.length) n ∧
        ∀ e ∈ entries, e.1.length ≤ entries.foldl (fun n e => max n e.1.length) n := by
    intro entries
    induction entries with
    | nil => simp
    | cons e entries ih =>
      intro n
      obtain ⟨hle, hall⟩ := ih (max n e.1.length)
      rw [List.foldl_cons, List.forall_mem_cons]
      exact ⟨by omega, by omega, hall⟩
  exact (hfold d.entries 0).2 _ (mem_entries_of_node? h)

lemma countP_elsewhere_le (at_ : Location) (locations : List Location)
    (entries : List (Location × DiskNode)) :
    (entries.countP fun e => !(at_ :: locations).contains e.1) ≤
      entries.countP fun e => !locations.contains e.1 := by
  refine List.countP_mono_left fun e _ h => ?_
  rw [List.contains_cons, Bool.not_or, Bool.and_eq_true] at h
  exact h.2

lemma elsewhere_cons_le (at_ : Location) (locations : List Location) :
    d.elsewhere (at_ :: locations) ≤ d.elsewhere locations := countP_elsewhere_le at_ locations d.entries

lemma elsewhere_cons_lt {node : DiskNode} {locations : List Location} (h : d.node? at_ = some node)
    (hat : at_ ∉ locations) : d.elsewhere (at_ :: locations) < d.elsewhere locations := by
  obtain ⟨before, after, he⟩ := List.append_of_mem (mem_entries_of_node? h)
  have hbefore := countP_elsewhere_le at_ locations before
  have hafter := countP_elsewhere_le at_ locations after
  rw [elsewhere, elsewhere, he, List.countP_append, List.countP_append,
    List.countP_cons_of_neg (by simp), List.countP_cons_of_pos (by simpa using hat)]
  omega

lemma stepsLeft_name {node : DiskNode} {path : Path} {depth : Nat}
    (hnode : d.node? (parent.location ++ [name]) = some node) :
    d.stepsLeft ⟨path, parent.location ++ [name], depth⟩ (parent :: above) < d.stepsLeft parent above := by
  have hlength := length_le_longest hnode
  have hle := Nat.mul_le_mul_right (d.longest + 1)
    (d.elsewhere_cons_le (parent.location ++ [name]) ((parent :: above).map TreeEntry.location))
  rw [List.length_append, List.length_singleton] at hlength
  simp only [stepsLeft, List.map_cons, List.length_append, List.length_singleton] at hle ⊢
  omega

lemma stepsLeft_link {node : DiskNode} {path : Path} {depth : Nat} (hnode : d.node? at_ = some node)
    (hat : at_ ∉ (parent :: above).map TreeEntry.location) :
    d.stepsLeft ⟨path, at_, depth⟩ (parent :: above) < d.stepsLeft parent above := by
  have hlt := Nat.mul_le_mul_right (d.longest + 1) (Nat.succ_le_of_lt (elsewhere_cons_lt hnode hat))
  rw [Nat.succ_mul] at hlt
  simp only [stepsLeft, List.map_cons] at hlt ⊢
  omega

lemma stepsLeft_le_treeFuel (entry : TreeEntry) : d.stepsLeft entry [] ≤ d.treeFuel := by
  have hcount : d.elsewhere [entry.location] ≤ d.entries.length := List.countP_le_length
  have hle := Nat.mul_le_mul_right (d.longest + 1) hcount
  calc d.stepsLeft entry []
      = d.elsewhere [entry.location] * (d.longest + 1) + (d.longest - entry.location.length) + 1 := rfl
    _ ≤ d.entries.length * (d.longest + 1) + (d.longest + 1) := by omega
    _ = (d.entries.length + 1) * (d.longest + 1) := (Nat.succ_mul _ _).symm
    _ ≤ (d.entries.length + 1) * (d.longest + 2) := Nat.mul_le_mul_left _ (Nat.le_succ _)
    _ = d.treeFuel := rfl

/-- What a way that is kept leads to is found. At what is no directory the way ends, whatever fuel is left. -/
lemma mem_treeBelow_of_way {fuel : Nat} (hpos : 0 < fuel)
    (hfuel : d.node? entry.location = some .directory → d.stepsLeft entry above ≤ fuel)
    (hway : Relation.ReflTransGen d.Descends (entry :: above) (last :: way))
    (hkeep : ∀ e ∈ last :: way, keep e = true) :
    last ∈ d.treeBelow keep fuel (above.map TreeEntry.location) entry := by
  induction fuel generalizing entry above with
  | zero => cases hpos
  | succ fuel ih =>
    have hentry : entry ∈ last :: way := (suffix_of_descends hway).subset List.mem_cons_self
    rw [mem_treeBelow_succ]
    refine ⟨hkeep entry hentry, ?_⟩
    rcases hway.cases_head with he | ⟨next, hstep, hrest⟩
    · exact Or.inl (List.cons.inj he).1.symm
    · obtain ⟨hdir, name, hname, child, hchild, rfl⟩ := descends_iff.1 hstep
      have hleft := hfuel hdir
      obtain ⟨node, hnode⟩ := mem_names_iff.1 hname
      have hfirst : 0 < d.stepsLeft ⟨entry.path, entry.location ++ [name], 0⟩ (entry :: above) :=
        Nat.succ_pos _
      have hsecond := @stepsLeft_name d entry above name node entry.path 0 hnode
      refine Or.inr ⟨hdir, name, hname, child, hchild, @ih child (entry :: above) (by omega) ?_ hrest⟩
      intro hchildDir
      rcases child?_eq_some_iff.1 hchild with ⟨other, hother, -, rfl⟩ | ⟨target, at_, -, -, hloop, rfl⟩
      · exact Nat.le_of_lt_succ (Nat.lt_of_lt_of_le (stepsLeft_name hother) hleft)
      · exact Nat.le_of_lt_succ (Nat.lt_of_lt_of_le (stepsLeft_link hchildDir (hloop hchildDir)) hleft)

/-- The whole tree at a path holds what the ways down the tree lead to on which every entry is kept. -/
theorem mem_wholeTree_iff :
    last ∈ d.wholeTree keep root ↔ ∃ way, d.IsWay root (last :: way) ∧ ∀ e ∈ last :: way, keep e = true := by
  unfold wholeTree IsWay
  cases hl : d.locate? root with
  | error reason => simp
  | ok at_ =>
    constructor
    · intro h
      obtain ⟨way, hway, hkeep⟩ := @exists_way_of_mem_treeBelow d keep ⟨root, at_, 0⟩ last [] _ (by simp) h
      exact ⟨way, ⟨at_, rfl, hway⟩, hkeep⟩
    · rintro ⟨way, ⟨other, hother, hway⟩, hkeep⟩
      cases hother
      have hpos : 0 < d.treeFuel := Nat.mul_pos (Nat.succ_pos _) (Nat.succ_pos _)
      exact @mem_treeBelow_of_way d keep ⟨root, at_, 0⟩ last way [] _ hpos
        (fun _ => stepsLeft_le_treeFuel _) hway hkeep

/-- A walk meets what the ways lead to on which every entry is kept and has a path that can be asked for. -/
theorem mem_tree_iff : last ∈ d.tree keep root ↔ ∃ way, d.IsWay root (last :: way) ∧
    ∀ e ∈ last :: way, isShort e.path = true ∧ keep e = true := by
  simp only [tree, mem_wholeTree_iff, Bool.and_eq_true]

/-- Whether a walk that lets everything through meets everything that a way leads to. -/
def YieldsAll (d : Disk) (root : Path) : Prop :=
  ∀ last way, d.IsWay root (last :: way) → last ∈ d.tree (fun _ => true) root

lemma IsWay.exists_of_mem (h : d.IsWay root way) : ∀ e ∈ way, ∃ above, d.IsWay root (e :: above) := by
  obtain ⟨at_, hl, hway⟩ := h
  induction hway with
  | refl =>
    rw [List.forall_mem_singleton]
    exact ⟨[], at_, hl, .refl⟩
  | @tail before after hbefore hstep ih =>
    cases before with
    | nil => cases hstep
    | cons parent above =>
      obtain ⟨-, -, -, child, -, rfl⟩ := descends_iff.1 hstep
      rw [List.forall_mem_cons]
      exact ⟨⟨parent :: above, at_, hl, .tail hbefore hstep⟩, ih⟩

lemma YieldsAll.isShort (h : d.YieldsAll root) (hway : d.IsWay root way) : ∀ e ∈ way, isShort e.path = true := by
  intro e he
  obtain ⟨above, habove⟩ := hway.exists_of_mem e he
  obtain ⟨_, -, hshort⟩ := mem_tree_iff.1 (h e above habove)
  exact (hshort e List.mem_cons_self).1

/-- A walk meets everything if no path in the whole tree is too long. -/
lemma yieldsAll_iff : d.YieldsAll root ↔ ∀ e ∈ d.wholeTree (fun _ => true) root, isShort e.path = true := by
  constructor
  · intro h e he
    obtain ⟨way, hway, -⟩ := mem_wholeTree_iff.1 he
    exact h.isShort hway e List.mem_cons_self
  · intro h last way hway
    refine mem_tree_iff.2 ⟨way, hway, fun e he => ⟨?_, rfl⟩⟩
    obtain ⟨above, habove⟩ := hway.exists_of_mem e he
    exact h e (mem_wholeTree_iff.2 ⟨above, habove, fun _ _ => rfl⟩)

instance (d : Disk) (root : Path) : Decidable (d.YieldsAll root) := decidable_of_iff' _ yieldsAll_iff

end KeywordCompletion.Disk
