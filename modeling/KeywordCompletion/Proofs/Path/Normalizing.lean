import KeywordCompletion.Import.Walk
import KeywordCompletion.Proofs.Disk.Trees
import KeywordCompletion.Proofs.Path.Meaning

/-!
# Normal paths of normal paths

The normal path of a path that leads somewhere is its own normal path. Of an absolute path that leads nowhere it
is the folded path, and that may lead somewhere although the path does not. Then it is its own normal path exactly
if there is no link on the way and it does not go up from the root: `Path.normalized_normalized_iff`.
-/

namespace KeywordCompletion

open Text PathPart

namespace Disk

variable {d : Disk} {names loc at_ : Location}

def isLink (d : Disk) (at_ : Location) : Bool :=
  match d.node? at_ with
  | some (.link _) => true
  | _ => false

/-- Whether neither a location nor one above it is a link. -/
def IsLinkless (d : Disk) (names : Location) : Prop := ∀ n ≤ names.length, d.isLink (names.take n) = false

instance (d : Disk) (names : Location) : Decidable (d.IsLinkless names) :=
  inferInstanceAs (Decidable (∀ n ≤ names.length, d.isLink (names.take n) = false))

lemma isLink_eq_false_iff : d.isLink at_ = false ↔ ∀ target, d.node? at_ ≠ some (.link target) := by
  unfold isLink
  split
  · rename_i target h
    simp [h]
  · rename_i h
    simpa using h

lemma Reaches.isLinkless (hd : d.IsRegular) (h : d.Reaches loc) : d.IsLinkless loc := by
  intro n hn
  rw [isLink_eq_false_iff]
  intro target hlink
  rcases Nat.lt_or_ge n loc.length with hlt | hge
  · rw [h.above n hlt] at hlink
    cases hlink
  · rw [List.take_of_length_le hge] at hlink
    rcases h.here with rfl | ⟨node, hnode, hno⟩
    · rw [hd.root] at hlink
      cases hlink
    · rw [hnode] at hlink
      exact hno target (Option.some.inj hlink)

lemma eq_append_of_walkWith {onLink : Location → Bytes → List Bytes → Except DiskError Arrival}
    {rest : Location} (hnames : ∀ name ∈ rest, IsName name)
    (hlink : ∀ n ≤ rest.length, d.isLink (at_ ++ rest.take n) = false)
    (hw : walkWith d true onLink at_ rest = .ok (.taken loc)) : loc = at_ ++ rest := by
  induction rest generalizing at_ with
  | nil =>
    obtain rfl : at_ = loc := by simpa [walkWith] using hw
    rw [List.append_nil]
  | cons name rest ih =>
    rw [List.forall_mem_cons] at hnames
    have hnext : ∀ n ≤ rest.length, d.isLink ((at_ ++ [name]) ++ rest.take n) = false := by
      intro n hn
      rw [List.append_assoc]
      exact hlink (n + 1) (Nat.succ_le_succ hn)
    have hhere := isLink_eq_false_iff.1 (hnext 0 (Nat.zero_le _))
    rw [List.take_zero, List.append_nil] at hhere
    rw [walkWith] at hw
    split at hw
    · cases hw
    rw [if_neg hnames.1.ne_dot, if_neg hnames.1.ne_dotDot] at hw
    split at hw
    · cases hw
    dsimp only at hw
    split at hw
    · split at hw <;> cases hw
    · rename_i target hnode
      exact absurd hnode (hhere target)
    · rw [ih hnames.2 hnext hw, List.append_assoc, List.singleton_append]

lemma steps_ofNames (hne : names ≠ []) (h : ∀ name ∈ names, IsName name) :
    steps (Path.ofNames names).bytes = names := by
  have hpieces : (Path.ofNames names).pieces = names := by
    rw [Path.ofNames, Path.pieces_ofParts_root, List.map_map]
    · exact List.map_id names
    · exact List.forall_mem_map.2 fun name hname => .name (h name hname)
  rw [steps_eq_pieces]
  · exact hpieces
  · obtain ⟨init, last, rfl⟩ := (List.eq_nil_or_concat' names).resolve_left hne
    have hlast := h last (by simp)
    obtain ⟨b, hb⟩ := Option.isSome_iff_exists.1 (List.getLast?_isSome.2 hlast.ne_nil)
    rw [Path.bytes_ofNames _ hne, ← List.cons_append, intercalate_concat _ (by simp), List.getLast?_append,
      List.getLast?_cons_of_ne_nil hlast.ne_nil, hb, Option.some_or]
    rintro ⟨⟩
    exact hlast.slash_notMem (List.mem_of_getLast? hb)

/-- A path down names leads to these names, if it leads somewhere and there is no link on the way. -/
lemma eq_of_locate?_ofNames (hnames : ∀ name ∈ names, IsName name) (hlink : d.IsLinkless names)
    (hl : d.locate? (Path.ofNames names) = .ok loc) : loc = names := by
  obtain ⟨-, -, hw⟩ := arrive_of_locate? hl
  by_cases hne : names = []
  · subst hne
    exact (walk_trailing (Or.inr rfl) hw).symm
  · rw [steps_ofNames hne hnames] at hw
    exact @eq_append_of_walkWith d loc [] _ names hnames hlink hw

end Disk

namespace Path

variable {d : Disk} {p : Path} {loc : Location}

/-- Whether a path leads somewhere, or its folded form leads nowhere, or leads there from the root down without
a link on the way. -/
def IsSettled (d : Disk) (p : Path) : Prop :=
  (∃ loc, d.locate? p = .ok loc) ∨ (∃ reason, d.locate? p.folded = .error reason) ∨
    p.route.ups % 2 = 0 ∧ d.IsLinkless p.route.names

/-- The folded path of a path that goes up from the root in pairs, if at all. -/
lemma folded_eq_ofNames (habs : p.isAbsolute = true) (hups : p.route.ups % 2 = 0) :
    p.folded = ofNames p.route.names := by
  rw [← ofParts_parts_folded, parts_folded, head, habs, hups]
  rfl

lemma folded_eq_ofNames_iff (hloc : ∀ name ∈ loc, IsName name) (habs : p.isAbsolute = true) :
    p.folded = ofNames loc ↔ p.route.ups % 2 = 0 ∧ p.route.names = loc := by
  constructor
  · intro h
    have hparts : (ofNames loc).parts = .root :: loc.map .name :=
      parts_ofParts_root (List.forall_mem_map.2 fun name hname => .name (hloc name hname))
    rw [← h, parts_folded, head, habs] at hparts
    have htail : (if p.route.ups % 2 = 1 then [PathPart.up] else []) ++ p.route.names.map .name =
        loc.map .name := (List.cons.inj hparts).2
    rcases Nat.mod_two_eq_zero_or_one p.route.ups with hups | hups
    · rw [hups] at htail
      exact ⟨hups, List.map_injective_iff.2 (fun _ _ he => PathPart.name.inj he) htail⟩
    · have hup : PathPart.up ∈ loc.map PathPart.name := by
        rw [← htail, hups]
        exact List.mem_cons_self
      simp at hup
  · rintro ⟨hups, rfl⟩
    exact folded_eq_ofNames habs hups

theorem normalized_normalized_iff (hd : d.IsRegular) (habs : p.isAbsolute = true) :
    (p.normalized d).normalized d = p.normalized d ↔ p.IsSettled d := by
  cases hl : d.locate? p with
  | ok loc =>
    have hloc := Disk.locate?_ofNames hd (Disk.reaches_of_locate? hl)
    rw [normalized_of_locate? hl, normalized_of_locate? hloc]
    exact iff_of_true rfl (Or.inl ⟨loc, hl⟩)
  | error reason =>
    rw [normalized_of_error hl]
    cases hf : d.locate? p.folded with
    | error reason' =>
      rw [normalized_of_error hf, folded_folded]
      exact iff_of_true rfl (Or.inr (Or.inl ⟨reason', hf⟩))
    | ok loc =>
      have hreaches := Disk.reaches_of_locate? hf
      rw [normalized_of_locate? hf, eq_comm,
        folded_eq_ofNames_iff (fun name hname => (hreaches.isFileName hd name hname).isName) habs]
      constructor
      · rintro ⟨hups, rfl⟩
        exact Or.inr (Or.inr ⟨hups, hreaches.isLinkless hd⟩)
      · rintro (⟨other, hother⟩ | ⟨other, hother⟩ | ⟨hups, hlink⟩)
        · rw [hl] at hother
          cases hother
        · rw [hf] at hother
          cases hother
        · rw [folded_eq_ofNames habs hups] at hf
          exact ⟨hups, (Disk.eq_of_locate?_ofNames (fun _ => isName_of_mem_route) hlink hf).symm⟩

/-- To make an absolute path normal a second time makes no difference exactly if it is settled. The identity of
such a path is the identity of its own path, as long as that is a text; and an import whose first candidate that is
there is its normal path leads to the buffer that an editor has open under a URL of the path. -/
theorem normalized_normalized (e : Environment) (hd : e.disk.IsRegular) (p : Path) (habs : p.isAbsolute = true) :
    ((p.normalized e.disk).normalized e.disk = p.normalized e.disk ↔ p.IsSettled e.disk) ∧
      (p.IsSettled e.disk →
        (IsUtf8 (p.normalized e.disk).bytes → ∀ q, (FileId.ofPath e.disk p).toPath? = some q →
          FileId.ofPath e.disk q = FileId.ofPath e.disk p) ∧
        ∀ roots c importer t, (Import.candidates e roots (importer.toPath?.getD ⟨[]⟩) t).find?
            (ImportWalk.isAvailable e c) = some (p.normalized e.disk) →
          ∀ u : Url, u.toPath? = some p →
            ImportWalk.resolve? e roots c importer t = some (FileId.ofUrl e.disk u)) := by
  have hiff := normalized_normalized_iff hd habs
  refine ⟨hiff, fun hsettled => ⟨fun hutf8 q hq => ?_, fun roots c importer t hfind u hu => ?_⟩⟩
  · have hself : q = p.normalized e.disk := by
      simp only [FileId.toPath?, FileId.ofPath, ofText_display hutf8] at hq
      split at hq
      · exact (Option.some.inj hq).symm
      · cases hq
    rw [hself, FileId.ofPath, FileId.ofPath, hiff.2 hsettled]
  · simp only [ImportWalk.resolve?, hfind, Option.map_some, FileId.ofUrl, hu]
    rw [FileId.ofPath, FileId.ofPath, hiff.2 hsettled]

/-- A disk with a file in a directory and a link to the directory, and with a file whose name is no text and a
link to the other file whose name is what is shown for it. -/
private def linkedDirectory : Environment :=
  ⟨⟨[([], .directory), ([Text.encode ['w']], .directory), ([Text.encode ['w'], Text.encode ['d']], .directory),
    ([Text.encode ['w'], Text.encode ['d'], Text.encode ['f']], .file [] 1),
    ([Text.encode ['w'], Text.encode ['l']], .link (Text.encode ['d'])),
    ([Text.encode ['w'], [0xFF]], .file [] 1),
    ([Text.encode ['w'], Text.encode ['\uFFFD']], .link (Text.encode "d/f".toList))]⟩, []⟩

private def slashedUrl (path : String) : Url := ⟨"file".toList, some ⟨[], none, none⟩, path.toList, none, none⟩

/-- With a slash at its end the path leads to no file, but its folded form leads to one without a link. -/
theorem normalized_normalized_slashed :
    let e := linkedDirectory
    let p := ofText "/w/d/f/".toList
    let u := slashedUrl "/w/d/f/"
    e.disk.locate? p = .error .notDirectory ∧ u.toPath? = some p ∧
      (p.normalized e.disk).normalized e.disk = p.normalized e.disk ∧
      FileId.ofPath e.disk (ofText "/w/d/f".toList) = FileId.ofPath e.disk p ∧
      ImportWalk.resolve? e [] SourceCache.empty ⟨"/w/d/m".toList⟩ "f/".toList =
        some (FileId.ofUrl e.disk u) := by
  intro e p u
  have hsettled : p.IsSettled e.disk := Or.inr (Or.inr (by decide +kernel))
  have hp : u.toPath? = some p := by decide +kernel
  have hutf8 : IsUtf8 (p.normalized e.disk).bytes := ⟨"/w/d/f".toList, by decide +kernel⟩
  obtain ⟨hiff, hidentities⟩ := normalized_normalized e (by decide +kernel) p (by decide +kernel)
  obtain ⟨hself, hresolve⟩ := hidentities hsettled
  exact ⟨by decide +kernel, hp, hiff.2 hsettled, hself hutf8 _ (by decide +kernel),
    hresolve [] SourceCache.empty ⟨"/w/d/m".toList⟩ "f/".toList (by decide +kernel) u hp⟩

/-- With a link on the way the buffer that is open under the URL has another identity than the file to which the
same path leads when it is imported, and its own path has that identity too. The path of a file whose name is no
text is settled, but what is shown for it is a path of another file. -/
theorem normalized_normalized_ne_of_link :
    let e := linkedDirectory
    let p := ofText "/w/l/f/".toList
    let u := slashedUrl "/w/l/f/"
    let q : Path := ⟨Text.encode "/w/".toList ++ [0xFF]⟩
    (p.isAbsolute = true ∧ (p.normalized e.disk).normalized e.disk ≠ p.normalized e.disk ∧
      (FileId.ofUrl e.disk u).toPath?.map (FileId.ofPath e.disk) ≠ some (FileId.ofUrl e.disk u) ∧
      ImportWalk.resolve? e [] SourceCache.empty ⟨"/w/m".toList⟩ "l/f/".toList ≠
        some (FileId.ofUrl e.disk u)) ∧
    q.isAbsolute = true ∧ (q.normalized e.disk).normalized e.disk = q.normalized e.disk ∧
      e.disk.isFile q = true ∧
      (FileId.ofPath e.disk q).toPath?.map (FileId.ofPath e.disk) ≠ some (FileId.ofPath e.disk q) := by
  decide +kernel

end Path

end KeywordCompletion
