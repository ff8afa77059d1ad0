import KeywordCompletion.Disk.Tree
import KeywordCompletion.Proofs.Disk.Walks

/-!
# Where the entries of a tree stand

The path on which an entry of a directory tree was met leads to the location that the entry bears.
-/

namespace KeywordCompletion.Disk

variable {d : Disk}

/-- A walk that leads to one place leads to another one when its last steps are replaced by steps that
do so from wherever the walk has got to by then. -/
lemma walkWith_tail {onLink : Location → Bytes → List Bytes → Except DiskError Arrival}
    {last last' : List Bytes} {loc loc' : Location}
    (hlast : ∀ at_, walkWith d true onLink at_ last = .ok (.taken loc) →
      walkWith d true onLink at_ last' = .ok (.taken loc'))
    (honLink : ∀ at_ target path, onLink at_ target (path ++ last) = .ok (.taken loc) →
      onLink at_ target (path ++ last') = .ok (.taken loc'))
    {at_ : Location} {path : List Bytes}
    (h : walkWith d true onLink at_ (path ++ last) = .ok (.taken loc)) :
    walkWith d true onLink at_ (path ++ last') = .ok (.taken loc') := by
  induction path generalizing at_ with
  | nil => exact hlast at_ h
  | cons step rest ih =>
    rw [List.cons_append, walkWith] at h ⊢
    by_cases hdir : d.node? at_ ≠ some .directory
    · rw [if_pos hdir] at h
      cases h
    rw [if_neg hdir] at h ⊢
    by_cases hdot : step = [Path.dot]
    · rw [if_pos hdot] at h ⊢
      exact ih h
    rw [if_neg hdot] at h ⊢
    by_cases hdots : step = [Path.dot, Path.dot]
    · rw [if_pos hdots] at h ⊢
      exact ih h
    rw [if_neg hdots] at h ⊢
    by_cases hlong : maxName < step.length
    · rw [if_pos hlong] at h
      cases h
    rw [if_neg hlong] at h ⊢
    dsimp only at h ⊢
    cases hnode : d.node? (at_ ++ [step]) with
    | none =>
      rw [hnode] at h
      dsimp only at h
      split at h <;> cases h
    | some node =>
      rw [hnode] at h
      cases node with
      | link target =>
        simp only [Bool.not_true, Bool.and_false, Bool.false_eq_true, if_false] at h ⊢
        exact honLink at_ target rest h
      | file content modified => exact ih h
      | directory => exact ih h

lemma walk_tail {last last' : List Bytes} {loc loc' : Location}
    (hlast : ∀ links at_, walk d true links at_ last = .ok (.taken loc) →
      walk d true links at_ last' = .ok (.taken loc'))
    {links : Nat} {at_ : Location} {path : List Bytes}
    (h : walk d true links at_ (path ++ last) = .ok (.taken loc)) :
    walk d true links at_ (path ++ last') = .ok (.taken loc') := by
  induction links generalizing at_ path with
  | zero => exact walkWith_tail (hlast 0) (by nofun) h
  | succ links ih =>
    refine walkWith_tail (hlast (links + 1)) ?_ h
    intro at_ target path hl
    split at hl
    · cases hl
    · rename_i hempty
      rw [if_neg hempty, ← List.append_assoc]
      rw [← List.append_assoc] at hl
      exact ih hl

lemma walk_trailing {links : Nat} {at_ loc : Location} {trailing : List Bytes}
    (ht : trailing = [] ∨ trailing = [[Path.dot]])
    (h : walk d true links at_ trailing = .ok (.taken loc)) : at_ = loc := by
  have hnil : ∀ onLink, walkWith d true onLink at_ [] = .ok (.taken loc) → at_ = loc := by
    intro onLink hw
    simpa [walkWith] using hw
  have hdot : ∀ onLink, walkWith d true onLink at_ [[Path.dot]] = .ok (.taken loc) → at_ = loc := by
    intro onLink hw
    rw [walkWith] at hw
    split at hw
    · cases hw
    · rw [if_pos rfl] at hw
      exact hnil onLink hw
  rcases ht with rfl | rfl
  · cases links <;> exact hnil _ h
  · cases links <;> exact hdot _ h

lemma walk_name {loc : Location} {name : Bytes} {node : DiskNode}
    (hdir : d.node? loc = some .directory) (hname : IsFileName name)
    (hnode : d.node? (loc ++ [name]) = some node) (hlink : ∀ target, node ≠ .link target)
    (links : Nat) : walk d true links loc [name] = .ok (.taken (loc ++ [name])) := by
  have hw : ∀ onLink, walkWith d true onLink loc [name] = .ok (.taken (loc ++ [name])) := by
    intro onLink
    rw [walkWith, if_neg (by simp [hdir]), if_neg hname.ne_dot, if_neg hname.ne_dotDot,
      if_neg (Nat.not_lt_of_le hname.length_le)]
    dsimp only
    rw [hnode]
    cases node with
    | link target => exact absurd rfl (hlink target)
    | file content modified => rfl
    | directory => rfl
  cases links <;> exact hw _

lemma steps_join_name {p : Path} (habs : p.isAbsolute = true) {name : Bytes} (h : IsFileName name) :
    steps (p.join ⟨name⟩).bytes = p.pieces ++ [name] := by
  have hrelative : Path.isAbsolute ⟨name⟩ = false := by
    rw [Path.isAbsolute, beq_eq_false_iff_ne]
    intro he
    exact h.slash_notMem (List.mem_of_head? he)
  have hne : p.bytes ≠ [] := by
    rintro hnil
    simp [Path.isAbsolute, hnil] at habs
  rw [Path.join, hrelative, if_neg (by simp)]
  by_cases hslash : p.bytes.getLast? = some Path.slash
  · rw [if_pos (by simp [hslash])]
    obtain ⟨before, hbefore⟩ := List.getLast?_eq_some_iff.1 hslash
    have hpieces : p.pieces = Path.pieces ⟨before⟩ := by
      have hp := pieces_append_slash_cons before []
      rw [← hbefore] at hp
      rw [show p = ⟨p.bytes⟩ from rfl, hp]
      simp [Path.pieces]
    rw [hpieces, ← steps_append_slash_name before h, hbefore]
    simp
  · rw [if_neg (by simp [hne, hslash])]
    exact steps_append_slash_name p.bytes h

lemma nul_notMem_join {p : Path} {name : Bytes} (hp : 0 ∉ p.bytes) (h : IsFileName name) :
    0 ∉ (p.join ⟨name⟩).bytes := by
  have hn := h.nul_notMem
  unfold Path.join
  split
  · exact hn
  · split <;> simp [hp, hn, Path.slash]

lemma isAbsolute_join {p : Path} (habs : p.isAbsolute = true) (q : Path) :
    (p.join q).isAbsolute = true := by
  unfold Path.join
  obtain ⟨bytes⟩ := p
  cases bytes with
  | nil => simp [Path.isAbsolute] at habs
  | cons b bytes =>
    split
    · assumption
    · split <;> simpa [Path.isAbsolute] using habs

/-- In a directory to which a path leads, the path with a name at its end leads to what has that name
there. -/
lemma locate?_join_name {p : Path} {loc : Location} (hp : d.locate? p = .ok loc)
    (hdir : d.node? loc = some .directory) {name : Bytes} (hname : IsFileName name) {node : DiskNode}
    (hnode : d.node? (loc ++ [name]) = some node) (hlink : ∀ target, node ≠ .link target) :
    d.locate? (p.join ⟨name⟩) = .ok (loc ++ [name]) := by
  obtain ⟨hnul, habs, hw⟩ := arrive_of_locate? hp
  refine locate?_of_walk (nul_notMem_join hnul hname) (isAbsolute_join habs _) ?_
  rw [steps_join_name habs hname]
  refine walk_tail ?_ hw
  intro links at_ htrailing
  have hat : at_ = loc := by
    refine walk_trailing ?_ htrailing
    split
    · exact Or.inr rfl
    · exact Or.inl rfl
  rw [hat]
  exact walk_name hdir hname hnode hlink links

/-- Whether the path of an entry leads to its location. -/
def IsLocated (d : Disk) (entry : TreeEntry) : Prop := d.locate? entry.path = .ok entry.location

lemma isFileName_of_mem_names (hd : d.IsRegular) {at_ : Location} {name : Bytes}
    (h : name ∈ d.names at_) : IsFileName name := by
  rw [names, List.mem_mergeSort, List.mem_eraseDups] at h
  obtain ⟨⟨location, node⟩, hmem, hname⟩ := List.mem_filterMap.1 h
  dsimp only at hname
  split at hname
  · rename_i last hlast
    split at hname
    · cases hname
      exact hd.names _ hmem _ (List.mem_of_getLast? hlast)
    · cases hname
  · cases hname

lemma IsLocated.child (hd : d.IsRegular) {above : List Location} {parent entry : TreeEntry}
    {name : Bytes} (h : d.IsLocated parent) (hdir : d.node? parent.location = some .directory)
    (hname : name ∈ d.names parent.location) (hc : d.child? above parent name = some entry) :
    d.IsLocated entry := by
  unfold child? at hc
  dsimp only at hc
  split at hc
  · cases hc
  · split at hc
    · cases hc
    · rename_i hl
      split at hc
      · cases hc
      · cases hc
        exact hl
  · rename_i node hlink hnode
    cases hc
    exact locate?_join_name h hdir (isFileName_of_mem_names hd hname) hnode
      fun target he => hlink target he

lemma IsLocated.treeBelow (hd : d.IsRegular) {keep : TreeEntry → Bool} {fuel : Nat}
    {above : List Location} {root : TreeEntry} (h : d.IsLocated root) :
    ∀ entry ∈ d.treeBelow keep fuel above root, d.IsLocated entry := by
  induction fuel generalizing above root with
  | zero => simp [Disk.treeBelow]
  | succ fuel ih =>
    intro entry hmem
    rw [Disk.treeBelow] at hmem
    split at hmem
    · rcases List.mem_cons.1 hmem with rfl | hmem
      · exact h
      · split at hmem
        · rename_i hdir
          obtain ⟨name, hname, hbelow⟩ := List.mem_flatMap.1 hmem
          split at hbelow
          · rename_i child hchild
            exact ih (h.child hd hdir hname hchild) entry hbelow
          · cases hbelow
        · cases hmem
    · cases hmem

/-- The path of every entry of a tree leads to the location of the entry. -/
theorem isLocated_of_mem_tree (hd : d.IsRegular) {keep : TreeEntry → Bool} {root : Path}
    {entry : TreeEntry} (h : entry ∈ d.tree keep root) : d.IsLocated entry := by
  unfold tree wholeTree at h
  split at h
  · rename_i at_ hl
    have hroot : d.IsLocated ⟨root, at_, 0⟩ := hl
    exact hroot.treeBelow hd entry h
  · cases h

end KeywordCompletion.Disk
