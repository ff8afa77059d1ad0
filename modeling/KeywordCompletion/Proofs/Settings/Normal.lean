import KeywordCompletion.Proofs.Text.CaseForms
import KeywordCompletion.Proofs.Text.Trims
import KeywordCompletion.Workspace.Basic

/-!
# The normal form of settings

Whatever payloads were merged, a size that is kept is within its bounds, a path that is kept is trimmed, an
extension that is kept is in lower case without a full stop before it, and nothing is empty or there twice. That
is all but one part of what makes settings normal: an extension is trimmed first and loses its full stops then,
so white space behind them is kept, and another merge takes it away. `merged_empty_reached` says that this is the
only case in which settings change when nothing is merged, and which payloads lead there.
-/

namespace KeywordCompletion

open Text

section Lists

variable {α : Type} [BEq α]

lemma eraseDups_sublist : (l : List α) → l.eraseDups.Sublist l
  | [] => by simp
  | a :: l => by
    rw [List.eraseDups_cons]
    exact ((eraseDups_sublist (l.filter fun b => !b == a)).trans List.filter_sublist).cons_cons a
termination_by l => l.length
decreasing_by exact Nat.lt_succ_of_le (List.length_filter_le _ _)

variable [LawfulBEq α]

lemma nodup_eraseDups : (l : List α) → l.eraseDups.Nodup
  | [] => by simp
  | a :: l => by
    rw [List.eraseDups_cons, List.nodup_cons]
    refine ⟨?_, nodup_eraseDups _⟩
    simp [List.mem_eraseDups]
termination_by l => l.length
decreasing_by exact Nat.lt_succ_of_le (List.length_filter_le _ _)

lemma eraseDups_eq_self {l : List α} (h : l.Nodup) : l.eraseDups = l := by
  induction l with
  | nil => simp
  | cons a l ih =>
    rw [List.nodup_cons] at h
    have hfilter : (l.filter fun b => !b == a) = l := by
      rw [List.filter_eq_self]
      intro b hb
      have hne : b ≠ a := by
        rintro rfl
        exact h.1 hb
      simpa using hne
    rw [List.eraseDups_cons, hfilter, ih h.2]

end Lists

namespace IndexingSettings

variable {normal : Text → Text} {texts : List Text} {t : Text} {s : IndexingSettings}

lemma mem_normalTexts : t ∈ normalTexts normal texts ↔ t ≠ [] ∧ ∃ u ∈ texts, normal u = t := by
  rw [normalTexts, List.mem_eraseDups, List.mem_filter, List.mem_map, and_comm]
  simp

/-- Texts stay as they are exactly if each of them is normal, none is empty and none is there twice. -/
lemma normalTexts_eq_self_iff :
    normalTexts normal texts = texts ↔ (∀ t ∈ texts, t ≠ [] ∧ normal t = t) ∧ texts.Nodup := by
  constructor
  · intro h
    have hmap : texts.Sublist (texts.map normal) := by
      conv_lhs => rw [← h]
      exact (eraseDups_sublist _).trans List.filter_sublist
    have heq := hmap.eq_of_length (List.length_map _).symm
    refine ⟨fun t ht => ?_, by rw [← h]; exact nodup_eraseDups _⟩
    have hne := ht
    rw [← h, mem_normalTexts] at hne
    have hfixed : texts.map normal = texts.map id := by rw [← heq, List.map_id]
    exact ⟨hne.1, List.map_inj_left.1 hfixed t ht⟩
  · rintro ⟨hnormal, hnodup⟩
    have hmap : texts.map normal = texts := by
      conv_rhs => rw [← List.map_id texts]
      exact List.map_inj_left.2 fun t ht => (hnormal t ht).2
    have hfilter : texts.filter (!·.isEmpty) = texts := by
      rw [List.filter_eq_self]
      intro t ht
      simpa using (hnormal t ht).1
    rw [normalTexts, hmap, hfilter, eraseDups_eq_self hnodup]

/-- An extension as it is kept, but for white space before it. -/
structure IsExtension (t : Text) : Prop where
  ne_nil : t ≠ []
  lower : lowercase t = t
  head : t.head?.any (· == '.') = false
  last : t.getLast?.any isWhiteSpace = false

/-- White space stands behind the full stops that a text starts with, and something behind it. -/
def SpacesStops (t : Text) : Prop :=
  ∃ before stops c after, t = before ++ (stops ++ c :: after) ∧ (∀ b ∈ before, isWhiteSpace b = true) ∧
    stops ≠ [] ∧ (∀ b ∈ stops, b = '.') ∧ isWhiteSpace c = true ∧ ∃ d ∈ after, isWhiteSpace d = false

lemma isExtension_normalExtension (h : normalExtension t ≠ []) : IsExtension (normalExtension t) where
  ne_nil := h
  lower := lowercase_lowercase _
  head := by
    rw [normalExtension, any_head?_lowercase fun c hc => by simpa using hc.2]
    exact any_head?_dropWhile _ _
  last := by
    rw [normalExtension, any_getLast?_lowercase fun c hc => hc.1]
    exact any_getLast?_dropWhile _ (isTrimmed_trim isWhiteSpace t).2

lemma normalExtension_eq_self_iff (h : IsExtension t) : normalExtension t = t ↔ IsTrimmed isWhiteSpace t := by
  constructor
  · intro heq
    have hsub : ((trim isWhiteSpace t).dropWhile (· == '.')).Sublist t :=
      (List.dropWhile_sublist _).trans (trim_sublist _ t)
    -- what is left of a text in lower case is in lower case, so nothing was taken away
    have hlower : lowercase ((trim isWhiteSpace t).dropWhile (· == '.')) =
        (trim isWhiteSpace t).dropWhile (· == '.') :=
      lowercase_eq_self_iff.2 fun c hc => lowercase_eq_self_iff.1 h.lower c (hsub.subset hc)
    rw [normalExtension, hlower] at heq
    rw [← trim_eq_self_iff]
    refine (trim_sublist _ t).antisymm ?_
    conv_lhs => rw [← heq]
    exact List.dropWhile_sublist _
  · intro htrim
    rw [normalExtension, trim_eq_self_iff.2 htrim, dropWhile_eq_self h.head, h.lower]

/-- White space is kept before an extension exactly if it stood behind full stops. -/
lemma any_head?_normalExtension : (normalExtension t).head?.any isWhiteSpace = true ↔ SpacesStops t := by
  rw [normalExtension, any_head?_lowercase fun c hc => hc.1]
  constructor
  · intro h
    obtain ⟨before, after, ht, hbefore⟩ := exists_append_trim isWhiteSpace t
    obtain ⟨hhead, hlast⟩ := isTrimmed_trim isWhiteSpace t
    generalize trim isWhiteSpace t = core at *
    have hcut := (List.takeWhile_append_dropWhile (p := (· == '.')) (l := core)).symm
    cases hdrop : core.dropWhile (· == '.') with
    | nil => simp [hdrop] at h
    | cons c rest =>
      rw [hdrop] at h hcut
      have hc : isWhiteSpace c = true := by simpa using h
      have hrest : ∃ d ∈ rest ++ after, isWhiteSpace d = false := by
        rw [hcut, List.getLast?_append_of_ne_nil _ (List.cons_ne_nil _ _)] at hlast
        cases rest using List.reverseRecOn with
        | nil => simp [hc] at hlast
        | append_singleton rest d =>
          rw [← List.cons_append, List.getLast?_append_of_ne_nil _ (List.cons_ne_nil _ _)] at hlast
          exact ⟨d, by simp, by simpa using hlast⟩
      refine ⟨before, core.takeWhile (· == '.'), c, rest ++ after, ?_, hbefore, ?_, ?_, hc, hrest⟩
      · rw [← List.cons_append, ← List.append_assoc _ (c :: rest), ← hcut]
        exact ht
      · intro hnil
        rw [hnil, List.nil_append] at hcut
        simp [hcut, hc] at hhead
      · intro b hb
        simpa using List.mem_takeWhile_imp hb
  · rintro ⟨before, stops, c, after, rfl, hbefore, hne, hstops, hc, hafter⟩
    have hstop : isWhiteSpace '.' = false := by decide
    have hhead : (stops ++ c :: after).head?.any isWhiteSpace = false := by
      cases stops with
      | nil => exact absurd rfl hne
      | cons b stops =>
        rw [hstops b List.mem_cons_self]
        exact hstop
    have hdots (u : Text) : (stops ++ c :: u).dropWhile (· == '.') = c :: u := by
      rw [List.dropWhile_append_of_pos fun b hb => by simpa using hstops b hb, List.dropWhile_cons_of_neg]
      intro hdot
      rw [beq_iff_eq.1 hdot, hstop] at hc
      exact absurd hc (by simp)
    rw [trim, List.dropWhile_append_of_pos hbefore, dropWhile_eq_self hhead]
    rw [← List.singleton_append, ← List.append_assoc, trimEnd_append _ hafter, List.append_assoc,
      List.singleton_append, hdots]
    simpa using hc

instance (t : Text) : Decidable (SpacesStops t) := decidable_of_iff _ any_head?_normalExtension

/-- Settings of the indexing in normal form, but for white space before extensions. -/
structure IsTidy (s : IndexingSettings) : Prop where
  size : minFileSizeKb ≤ s.maxFileSizeKb ∧ s.maxFileSizeKb ≤ maxFileSizeKbBound
  paths : ∀ t ∈ s.excludedPaths, t ≠ [] ∧ IsTrimmed isWhiteSpace t
  paths_nodup : s.excludedPaths.Nodup
  extensions : ∀ t ∈ s.extensions, IsExtension t
  extensions_nodup : s.extensions.Nodup

lemma isTidy_normalized (s : IndexingSettings) : s.normalized.IsTidy where
  size := by
    have hbounds : minFileSizeKb ≤ maxFileSizeKbBound := by decide
    simp only [normalized]
    omega
  paths t ht := by
    obtain ⟨hne, u, -, rfl⟩ := mem_normalTexts.1 ht
    exact ⟨hne, isTrimmed_trim isWhiteSpace u⟩
  paths_nodup := nodup_eraseDups _
  extensions t ht := by
    obtain ⟨hne, u, -, rfl⟩ := mem_normalTexts.1 ht
    exact isExtension_normalExtension hne
  extensions_nodup := nodup_eraseDups _

lemma IsTidy.normalized_eq_self_iff (h : s.IsTidy) :
    s.normalized = s ↔ ∀ t ∈ s.extensions, IsTrimmed isWhiteSpace t := by
  have hsize : min (max s.maxFileSizeKb minFileSizeKb) maxFileSizeKbBound = s.maxFileSizeKb := by
    have := h.size
    omega
  have hpaths : normalTexts normalPath s.excludedPaths = s.excludedPaths :=
    normalTexts_eq_self_iff.2 ⟨fun t ht => ⟨(h.paths t ht).1, trim_eq_self_iff.2 (h.paths t ht).2⟩, h.paths_nodup⟩
  have hextensions : s.normalized = s ↔ normalTexts normalExtension s.extensions = s.extensions := by
    rw [normalized, hsize, hpaths]
    constructor
    · exact fun heq => congrArg IndexingSettings.extensions heq
    · intro heq
      rw [heq]
  rw [hextensions, normalTexts_eq_self_iff, and_iff_left h.extensions_nodup]
  refine forall₂_congr fun t ht => ?_
  rw [and_iff_right (h.extensions t ht).ne_nil, normalExtension_eq_self_iff (h.extensions t ht)]

lemma forall_isTrimmed_normalized : (∀ t ∈ s.normalized.extensions, IsTrimmed isWhiteSpace t) ↔
    ∀ t ∈ s.extensions, ¬ SpacesStops t := by
  have htidy := s.isTidy_normalized
  constructor
  · intro h t ht hspaces
    have hhead := any_head?_normalExtension.2 hspaces
    have hne : normalExtension t ≠ [] := by
      intro hnil
      rw [hnil] at hhead
      exact absurd hhead (by simp)
    have htrim := h _ (mem_normalTexts.2 ⟨hne, t, ht, rfl⟩)
    rw [htrim.1] at hhead
    exact absurd hhead (by simp)
  · intro h t ht
    refine ⟨?_, (htidy.extensions t ht).last⟩
    obtain ⟨-, u, hu, rfl⟩ := mem_normalTexts.1 ht
    rw [Bool.eq_false_iff]
    exact fun hhead => h u hu (any_head?_normalExtension.1 hhead)

/-- An extension that no merge changes any more has no white space behind full stops. -/
lemma IsExtension.not_spacesStops (h : IsExtension t) (htrim : IsTrimmed isWhiteSpace t) : ¬ SpacesStops t := by
  rw [← any_head?_normalExtension, (normalExtension_eq_self_iff h).2 htrim, htrim.1]
  simp

end IndexingSettings

namespace Settings

variable {s : Settings} {payload : Json} {t : Text}

/-- The settings after payloads, of which an editor may give the first one when it starts. -/
def reached (first : Option Json) (payloads : List Json) : Settings := payloads.foldl merged (ofPayload first)

/-- The extensions that a payload gives, in itself or in its section for these settings. -/
def givenExtensions (payload : Json) : List Text :=
  (candidates payload).flatMap fun candidate => ((SettingsPatch.ofJson? candidate).bind (·.extensions)).getD []

/-- Settings without white space around an extension. -/
def TrimsExtensions (s : Settings) : Prop := ∀ t ∈ s.indexing.extensions, IsTrimmed isWhiteSpace t

lemma merged_empty (s : Settings) : s.merged (.obj []) = { s with indexing := s.indexing.normalized } := rfl

lemma merged_empty_eq_self_iff : s.merged (.obj []) = s ↔ s.indexing.normalized = s.indexing := by
  rw [merged_empty]
  constructor
  · exact fun h => congrArg indexing h
  · intro h
    rw [h]

lemma mem_extensions_patched (h : t ∈ (s.patched payload).indexing.extensions) :
    t ∈ s.indexing.extensions ∨ t ∈ givenExtensions payload := by
  rw [patched] at h
  rw [givenExtensions]
  generalize candidates payload = cs at h
  induction cs generalizing s with
  | nil => exact Or.inl h
  | cons c cs ih =>
    rw [List.foldl_cons] at h
    rw [List.flatMap_cons, List.mem_append]
    cases hpatch : SettingsPatch.ofJson? c with
    | none =>
      simp only [hpatch] at h
      rcases ih h with hs | hcs
      · exact Or.inl hs
      · exact Or.inr (Or.inr hcs)
    | some patch =>
      simp only [hpatch] at h
      rcases ih h with hs | hcs
      · cases hgiven : patch.extensions with
        | none => exact Or.inl (by simpa [SettingsPatch.apply, hgiven] using hs)
        | some given => exact Or.inr (Or.inl (by simpa [SettingsPatch.apply, hgiven] using hs))
      · exact Or.inr (Or.inr hcs)

lemma trimsExtensions_merged_iff : (s.merged payload).TrimsExtensions ↔
    ∀ t ∈ (s.patched payload).indexing.extensions, ¬ IndexingSettings.SpacesStops t :=
  IndexingSettings.forall_isTrimmed_normalized

lemma isTidy_initial : initial.indexing.IsTidy :=
  (by decide +kernel : initial.indexing.normalized = initial.indexing) ▸ initial.indexing.isTidy_normalized

/-- What holds of the first settings and after every merge holds of all settings that are reached. -/
lemma reached_of_merged {P : Settings → Prop} {first : Option Json} {payloads : List Json} (hinitial : P initial)
    (hmerged : ∀ s, ∀ payload ∈ first.toList ++ payloads, P s → P (s.merged payload)) :
    P (reached first payloads) := by
  have hfirst : P (ofPayload first) := by
    cases first with
    | none => exact hinitial
    | some payload => exact hmerged _ _ (by simp) hinitial
  have hrest (s payload) (hmem : payload ∈ payloads) (hs : P s) : P (s.merged payload) :=
    hmerged s payload (List.mem_append_right _ hmem) hs
  exact List.foldlRecOn payloads merged hfirst fun s hs payload hmem => hrest s payload hmem hs

theorem isTidy_reached (first : Option Json) (payloads : List Json) : (reached first payloads).indexing.IsTidy := by
  apply reached_of_merged (P := fun s => s.indexing.IsTidy) isTidy_initial
  exact fun s payload _ _ => (s.patched payload).indexing.isTidy_normalized

lemma trimsExtensions_reached {first : Option Json} {payloads : List Json}
    (h : ∀ payload ∈ first.toList ++ payloads, ∀ t ∈ givenExtensions payload, ¬ IndexingSettings.SpacesStops t) :
    (reached first payloads).TrimsExtensions := by
  have hboth : (reached first payloads).indexing.IsTidy ∧ (reached first payloads).TrimsExtensions := by
    apply reached_of_merged (P := fun s => s.indexing.IsTidy ∧ s.TrimsExtensions)
    · exact ⟨isTidy_initial, by unfold TrimsExtensions; decide +kernel⟩
    · rintro s payload hmem ⟨htidy, htrim⟩
      refine ⟨(s.patched payload).indexing.isTidy_normalized, trimsExtensions_merged_iff.2 fun t ht => ?_⟩
      rcases mem_extensions_patched ht with hkept | hgiven
      · exact (htidy.extensions t hkept).not_spacesStops (htrim t hkept)
      · exact h payload hmem t hgiven
  exact hboth.2

end Settings

namespace Workspace

variable {w : Workspace}

lemma settings_indexed (d : Disk) (w : Workspace) : (w.indexed d).1.settings = w.settings := by
  rw [indexed]
  split
  · split <;> rfl
  · rfl

/-- Nothing happens when settings are told that do not change when they are merged. -/
lemma configured_empty_eq_self_iff (d : Disk) (w : Workspace) :
    w.configured d (.obj []) = (w, []) ↔ w.settings.merged (.obj []) = w.settings := by
  rw [configured]
  constructor
  · intro h
    by_contra hne
    rw [if_neg hne] at h
    split at h
    · exact hne (congrArg (fun r => r.1.settings) h)
    · have hsettings := congrArg (fun r => r.1.settings) h
      rw [settings_indexed] at hsettings
      exact hne hsettings
  · intro h
    rw [if_pos h]

end Workspace

namespace Settings

/-- Settings that are reached are normal but for white space before an extension, and change under a merge of
nothing exactly if there is some. A merge leaves it exactly where it stands behind the full stops before an
extension, so settings are normal if no payload gives such an extension. -/
theorem merged_empty_reached (first : Option Json) (payloads : List Json) :
    let s := reached first payloads
    s.indexing.IsTidy ∧
    (s.indexing.normalized = s.indexing ↔ s.TrimsExtensions) ∧
    (s.merged (.obj []) = s ↔ s.TrimsExtensions) ∧
    (∀ (d : Disk) (w : Workspace), w.settings = s →
      (w.configured d (.obj []) = (w, []) ↔ s.TrimsExtensions)) ∧
    (∀ payload, (s.merged payload).TrimsExtensions ↔
      ∀ t ∈ (s.patched payload).indexing.extensions, ¬ IndexingSettings.SpacesStops t) ∧
    ((∀ payload ∈ first.toList ++ payloads, ∀ t ∈ givenExtensions payload, ¬ IndexingSettings.SpacesStops t) →
      s.TrimsExtensions) := by
  intro s
  have htidy : s.indexing.IsTidy := isTidy_reached first payloads
  have hnormal := htidy.normalized_eq_self_iff
  have hmerged : s.merged (.obj []) = s ↔ s.TrimsExtensions := merged_empty_eq_self_iff.trans hnormal
  refine ⟨htidy, hnormal, hmerged, fun d w hw => ?_, fun payload => trimsExtensions_merged_iff,
    trimsExtensions_reached⟩
  rw [Workspace.configured_empty_eq_self_iff, hw, hmerged]

/-- A payload that gives extensions in a list. -/
def extensionsPayload (extensions : List String) : Json :=
  .obj [("indexing", .obj [("extensions", .arr (extensions.map Json.ofString))])]

theorem merged_empty_reached_dotted :
    let s := reached (some (extensionsPayload [" ..Robot ", "robot", "TXT"])) []
    let w : Workspace := { Workspace.initial with settings := s }
    s.indexing.extensions = ["robot".toList, "txt".toList] ∧ s.merged (.obj []) = s ∧
    w.configured ⟨[]⟩ (.obj []) = (w, []) := by
  intro s w
  obtain ⟨-, -, hmerged, hconfigured, -, htrims⟩ :=
    merged_empty_reached (some (extensionsPayload [" ..Robot ", "robot", "TXT"])) []
  have htrim : s.TrimsExtensions := htrims (by decide +kernel)
  exact ⟨by decide +kernel, hmerged.2 htrim, (hconfigured ⟨[]⟩ w rfl).2 htrim⟩

/-- White space behind a full stop stays at first and is gone after a merge of nothing. -/
theorem merged_empty_ne_of_spaced :
    let s := reached (some (extensionsPayload [". .robot"])) []
    s.indexing.extensions = [" .robot".toList] ∧
    (s.merged (.obj [])).indexing.extensions = ["robot".toList] ∧ s.merged (.obj []) ≠ s ∧
    s.indexing.normalized ≠ s.indexing := by
  decide +kernel

end Settings

end KeywordCompletion
