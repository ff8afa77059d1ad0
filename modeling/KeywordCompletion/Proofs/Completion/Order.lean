import KeywordCompletion.Proofs.Completion.Items
import KeywordCompletion.Proofs.Row.Concatenation

/-!
# The order of completion items

An editor sorts items by their keys. A key is the index of its item, padded with zeros to a width, so the keys
are in the order of the items as long as no index has more digits: `pairwise_sortKey_iff`. Nothing bounds the
number of keywords, so they need not be: `not_pairwise_sortKey_of_many`.
-/

namespace KeywordCompletion

namespace CompletionItem

variable {width m n : Nat}

/-- The last digits of a number, as many as asked for. -/
def lastDigits : Nat → Nat → Text
  | 0, _ => []
  | width + 1, n => lastDigits width (n / 10) ++ [Nat.digitChar (n % 10)]

lemma length_lastDigits (width n : Nat) : (lastDigits width n).length = width := by
  induction width generalizing n with
  | zero => rfl
  | succ width ih => rw [lastDigits, List.length_append, ih, List.length_singleton]

lemma lastDigits_zero (width : Nat) : lastDigits width 0 = List.replicate width '0' := by
  induction width with
  | zero => rfl
  | succ width ih =>
    rw [lastDigits, Nat.zero_div, ih, List.replicate_succ']
    rfl

/-- A number that has no more digits than the width is padded to its last digits. -/
lemma replicate_append_toDigits (hwidth : 0 < width) (hn : n < 10 ^ width) :
    List.replicate (width - (Nat.toDigits 10 n).length) '0' ++ Nat.toDigits 10 n = lastDigits width n := by
  induction width generalizing n with
  | zero => omega
  | succ width ih =>
    by_cases hlt : n < 10
    · rw [Nat.toDigits_of_lt_base hlt, lastDigits, Nat.div_eq_of_lt hlt, Nat.mod_eq_of_lt hlt,
        lastDigits_zero]
      rfl
    · have hdiv : n / 10 < 10 ^ width := by
        rw [Nat.pow_succ] at hn
        omega
      have hwidth' : 0 < width := by
        rcases Nat.eq_zero_or_pos width with rfl | h
        · omega
        · exact h
      rw [Nat.toDigits_of_base_le (by decide) (by omega), lastDigits, ← ih hwidth' hdiv,
        List.length_append, List.length_singleton, Nat.add_sub_add_right, List.append_assoc]

lemma digitChar_lt (hmn : m < n) (hn : n < 10) : Nat.digitChar m < Nat.digitChar n := by
  have hval : (Nat.digitChar m).toNat < (Nat.digitChar n).toNat := by
    rw [Nat.toNat_digitChar_of_lt_ten (by omega), Nat.toNat_digitChar_of_lt_ten hn]
    omega
  exact UInt32.lt_iff_toNat_lt.2 hval

lemma append_lt_append {a b : Text} (hlength : a.length = b.length) (h : a < b) (c d : Text) :
    a ++ c < b ++ d := by
  induction a generalizing b with
  | nil =>
    obtain rfl : b = [] := List.length_eq_zero_iff.1 hlength.symm
    exact absurd h (List.not_lt_nil _)
  | cons x a ih =>
    cases b with
    | nil => cases hlength
    | cons y b =>
      rw [List.cons_lt_cons_iff] at h
      rw [List.cons_append, List.cons_append, List.cons_lt_cons_iff]
      rcases h with hlt | ⟨heq, hlt⟩
      · exact Or.inl hlt
      · exact Or.inr ⟨heq, ih (Nat.succ.inj hlength) hlt⟩

lemma lastDigits_lt (hmn : m < n) (hn : n < 10 ^ width) : lastDigits width m < lastDigits width n := by
  induction width generalizing m n with
  | zero => omega
  | succ width ih =>
    have hdiv : n / 10 < 10 ^ width := by
      rw [Nat.pow_succ] at hn
      omega
    rw [lastDigits, lastDigits]
    by_cases hlt : m / 10 < n / 10
    · apply append_lt_append
      · rw [length_lastDigits, length_lastDigits]
      · exact ih hlt hdiv
    · have heq : m / 10 = n / 10 := by omega
      have hdigit : Nat.digitChar (m % 10) < Nat.digitChar (n % 10) :=
        digitChar_lt (by omega) (Nat.mod_lt n (by decide))
      rw [heq]
      exact List.append_left_lt (List.cons_lt_cons_iff.2 (Or.inl hdigit))

lemma keyOf_lt (hmn : m < n) (hn : n < 10 ^ keyDigits) : keyOf m < keyOf n := by
  unfold keyOf
  rw [replicate_append_toDigits (by decide) (by omega), replicate_append_toDigits (by decide) hn]
  exact lastDigits_lt hmn hn

/-- The first key with one digit more comes before the last key without it. -/
lemma not_keyOf_lt : ¬ keyOf (10 ^ keyDigits - 1) < keyOf (10 ^ keyDigits) := by decide

lemma sortKey_of_ofProposal? {d : Document} {proposal : Proposal} {index : Nat} {item : CompletionItem}
    (h : ofProposal? d proposal index = some item) : item.sortKey = keyOf index := by
  unfold ofProposal? at h
  split at h
  · obtain rfl := Option.some.inj h
    rfl
  · cases h

lemma sublist_ofProposals (d : Document) (proposals : List Proposal) :
    ((ofProposals d proposals).map sortKey).Sublist ((List.range proposals.length).map keyOf) := by
  rw [ofProposals, List.range_eq_range']
  generalize 0 = first
  induction proposals generalizing first with
  | nil => exact .slnil
  | cons proposal proposals ih =>
    rw [List.zipIdx_cons, List.filterMap_cons, List.length_cons, List.range'_succ, List.map_cons]
    dsimp only
    cases hitem : ofProposal? d proposal first with
    | none => exact (ih (first + 1)).cons _
    | some item =>
      rw [List.map_cons, sortKey_of_ofProposal? hitem]
      exact (ih (first + 1)).cons_cons _

end CompletionItem

namespace Completion

open CompletionItem

lemma map_sortKey_items (ctx : CompletionContext) (enabled : Bool) (f : FileId) (d : Option Document)
    (p : Position) (c : SourceCache) :
    let found := (items ctx enabled f d p c).1
    found.map sortKey = (List.range found.length).map keyOf := by
  unfold items
  cases d with
  | none => rfl
  | some d =>
    cases enabled with
    | false => rfl
    | true =>
      by_cases hline : p.line.toNat < d.lineCount
      · obtain ⟨span, before, after, row, hcursor⟩ := exists_cursorAt hline
        have hlength := (hcursor.forall₂_ofProposals ctx f (snapshot c f d.text).2).length_eq
        simp only [hcursor.completeAt_eq ctx f c, if_true]
        rw [← hlength]
        apply (sublist_ofProposals d _).eq_of_length
        rw [List.length_map, List.length_map, List.length_range, hlength]
      · simp only [completeAt_of_le ctx f c (Nat.le_of_not_lt hline), if_true]
        rfl

lemma length_le_of_pairwise_keyOf (h : ((List.range n).map keyOf).Pairwise (· < ·)) : n ≤ 10 ^ keyDigits := by
  by_contra hmany
  have hpred : 10 ^ keyDigits - 1 < 10 ^ keyDigits := by decide
  rw [List.pairwise_map, List.pairwise_iff_getElem] at h
  have hlast := h (10 ^ keyDigits - 1) (10 ^ keyDigits) (by rw [List.length_range]; omega)
    (by rw [List.length_range]; omega) hpred
  rw [List.getElem_range, List.getElem_range] at hlast
  exact not_keyOf_lt hlast

/-- Sorting by the keys keeps the order of the first items, as many as there are numbers of the width of the
keys; and it keeps the order of all items exactly if there are no more. -/
theorem pairwise_sortKey_iff (ctx : CompletionContext) (enabled : Bool) (f : FileId) (d : Option Document)
    (p : Position) (c : SourceCache) :
    let keys := (items ctx enabled f d p c).1.map sortKey
    (keys.take (10 ^ keyDigits)).Pairwise (· < ·) ∧
      (keys.Pairwise (· < ·) ↔ keys.length ≤ 10 ^ keyDigits) := by
  intro keys
  have hkeys : keys = (List.range keys.length).map keyOf := by
    rw [List.length_map]
    exact map_sortKey_items ctx enabled f d p c
  have htake : (keys.take (10 ^ keyDigits)).Pairwise (· < ·) := by
    rw [hkeys, ← List.map_take, List.take_range, List.pairwise_map]
    refine List.pairwise_lt_range.imp_of_mem fun _ hn hlt => keyOf_lt hlt ?_
    exact Nat.lt_of_lt_of_le (List.mem_range.1 hn) (Nat.min_le_left _ _)
  refine ⟨htake, fun hsorted => ?_, fun hle => ?_⟩
  · rw [hkeys] at hsorted
    exact length_le_of_pairwise_keyOf hsorted
  · rwa [List.take_of_length_le hle] at htake

lemma proposals_of_cell?_eq_none {t : Text} {row : Row} {region : KeywordRegion} {cursor : Nat}
    (hregion : (KeywordRegion.of? t row).filter (·.contains cursor) = some region)
    (hcell : row.cell? 1 = none) (ctx : CompletionContext) (f : FileId) (c : SourceCache) :
    (completeRow ctx f t row cursor c).1.proposals =
      (visibleKeywords ctx.environment ctx.scope .all c f).1.map
        (Proposal.ofDefinition (region.replaced row.start)) := by
  rw [completeRow_of_cell?_eq_none hregion hcell]
  rfl

/-- A text that defines a keyword on every line but the first. -/
def keywordTable (count : Nat) : Text :=
  ['\n'].intercalate ("*** Keywords ***".toList :: List.replicate count "K  ".toList)

def keywordRow (start : Nat) : Row := ⟨start, 3, [⟨['K'], start, start + 1⟩], none, .keywordBegin⟩

lemma read_keywordLine (start : Nat) :
    Row.read (some .keywords) start "K  ".toList = (keywordRow start, some .keywords) := by
  have hread : Row.read (some .keywords) 0 "K  ".toList = (keywordRow 0, some .keywords) := by
    decide +kernel
  have hshift := Row.read_add (some .keywords) start 0 "K  ".toList
  rwa [hread] at hshift

lemma readAll_replicate (start count : Nat) :
    Row.readAll (some .keywords) start (List.replicate count "K  ".toList) =
      (List.range count).map fun n => keywordRow (start + 4 * n) := by
  induction count generalizing start with
  | zero => rfl
  | succ count ih =>
    have hrow : Row.read (some .keywords) start (Row.chomp "K  ".toList) =
        (keywordRow start, some .keywords) := read_keywordLine start
    rw [List.replicate_succ, Row.readAll, hrow, List.range_succ_eq_map, List.map_cons, List.map_map]
    refine congrArg (keywordRow start :: ·) ((ih _).trans (List.map_congr_left fun n _ => ?_))
    have hline : Text.size "K  ".toList = 3 := by decide
    rw [hline, Function.comp_apply, Nat.mul_succ]
    exact congrArg keywordRow (by omega)

lemma parse_keywordTable (count : Nat) : Row.parse (keywordTable count) =
    headerRow :: (List.range count).map fun n => keywordRow (17 + 4 * n) := by
  have hfeed : ∀ line ∈ "*** Keywords ***".toList :: List.replicate count "K  ".toList, '\n' ∉ line := by
    intro line hline
    rcases List.mem_cons.1 hline with rfl | hline
    · decide
    · rw [List.eq_of_mem_replicate hline]
      decide
  rw [Row.parse, keywordTable, Row.lines_intercalate (List.cons_ne_nil _ _) hfeed, Row.readAll, read_header]
  exact congrArg (headerRow :: ·) (readAll_replicate 17 count)

lemma length_ofSource_keywordTable (f : FileId) (count : Nat) :
    (KeywordDefinition.ofSource f (Source.ofText (keywordTable count))).length = count := by
  have hheader : KeywordDefinition.ofRow? f headerRow 0 = none := rfl
  have hkeyword : ∀ start line, KeywordDefinition.ofRow? f (keywordRow start) line =
      some ⟨['K'], .file f, some line⟩ := fun _ _ => rfl
  have hrows : (Source.ofText (keywordTable count)).rows = _ := parse_keywordTable count
  rw [KeywordDefinition.ofSource, hrows, List.zipIdx_cons, List.filterMap_cons, List.zipIdx_map,
    List.filterMap_map]
  simp [hheader, hkeyword]

lemma cursorAt_keywordTable (count : Nat) (version : Int) :
    CursorAt (Document.ofText (keywordTable (count + 1)) version) ⟨1, 3⟩ ⟨17, 20⟩ "K  ".toList []
      (keywordRow 17) := by
  have hrow : (Source.ofText (keywordTable (count + 1))).row? 1 = some (keywordRow 17) := by
    change (Row.parse (keywordTable (count + 1)))[1]? = _
    rw [parse_keywordTable, List.range_succ_eq_map]
    rfl
  have htext : keywordTable (count + 1) = "*** Keywords ***\n".toList ++ (("K  ".toList ++ []) ++ _) :=
    Row.intercalate_append_cons ["*** Keywords ***".toList] "K  ".toList _
  exact cursorAt_of_row? (Document.ofText (keywordTable (count + 1)) version) 1 hrow htext (by decide)
    (by decide) (by decide)

/-- With one keyword more than there are numbers of the width, the last one is sorted before the one that stands
before it. -/
theorem not_pairwise_sortKey_of_many :
    let ctx : CompletionContext := ⟨⟨⟨[]⟩, []⟩, ⟨[], false⟩, .leading⟩
    let d := Document.ofText (keywordTable (10 ^ keyDigits + 1)) 1
    ¬ ((items ctx true ⟨"/w/m.robot".toList⟩ (some d) ⟨1, 3⟩ SourceCache.empty).1.map
      sortKey).Pairwise (· < ·) := by
  intro ctx d hsorted
  generalize (⟨"/w/m.robot".toList⟩ : FileId) = f at hsorted
  let c := SourceCache.empty.update f d.text
  have hcursor : CursorAt d ⟨1, 3⟩ ⟨17, 20⟩ "K  ".toList [] (keywordRow 17) :=
    cursorAt_keywordTable (10 ^ keyDigits) 1
  have hitems : (items ctx true f (some d) ⟨1, 3⟩ SourceCache.empty).1 = CompletionItem.ofProposals d
      (completeRow ctx f ("K  ".toList ++ []) (keywordRow 17) (Text.size "K  ".toList) c).1.proposals := by
    simp only [items, hcursor.completeAt_eq ctx f SourceCache.empty, if_true]
    rfl
  have hregion : (KeywordRegion.of? ("K  ".toList ++ []) (keywordRow 17)).filter
      (·.contains (Text.size "K  ".toList)) = some ⟨3, 3, 3⟩ := by decide +kernel
  obtain ⟨more, hvisible⟩ := exists_visibleKeywords_eq_append
    (SourceCache.buffer?_update_self SourceCache.empty f d.text) ctx.environment ctx.scope .all
  have hdefinitions : (KeywordDefinition.ofSource f (Source.ofText d.text)).length = 10 ^ keyDigits + 1 :=
    length_ofSource_keywordTable f _
  rw [map_sortKey_items, hitems, ← (hcursor.forall₂_ofProposals ctx f c).length_eq,
    proposals_of_cell?_eq_none hregion rfl, List.length_map, hvisible, filter_all, List.length_append,
    hdefinitions] at hsorted
  have hle := length_le_of_pairwise_keyOf hsorted
  omega

end Completion

end KeywordCompletion
