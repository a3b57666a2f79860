import Mathlib.Data.List.SplitBy
import MarkupSelect.Text.Plain

/-!
# Collapsed text

A text is made of runs, the longest pieces of white space alone or without any. Collapsing shows one
blank for a run of two or more bytes of white space and every other run as it is; white space alone
is not shown. What is left is collapsed: collapsing leaves it as it is.
-/

namespace MarkupSelect.Bytes

/-- A text that is shown as it is: not white space alone, so that there is some, and without two
bytes of white space side by side. -/
structure IsCollapsed (text : Bytes) : Prop where
  not_blank : text.all Ascii.isSpace = false
  apart : text.IsChain fun b c ↦ Ascii.isSpace b = true → Ascii.isSpace c = false

/-- There is something in a collapsed text. -/
theorem IsCollapsed.ne_nil {text : Bytes} (h : text.IsCollapsed) : text ≠ [] := by
  rintro rfl
  exact absurd h.not_blank (by simp)

/-! ### White space that stands alone -/

/-- A text without runs is one in which white space stands alone. -/
theorem hasRun_eq_false_iff {text : Bytes} :
    hasRun text = false ↔
      text.IsChain fun b c ↦ Ascii.isSpace b = true → Ascii.isSpace c = false := by
  fun_induction hasRun text with
  | case1 b c text ih =>
    rw [Bool.or_eq_false_iff, ih, List.isChain_cons_cons, Bool.and_eq_false_iff,
      or_iff_not_imp_left, Bool.not_eq_false]
  | case2 text hshort =>
    cases text with
    | nil => simp
    | cons b text =>
      cases text with
      | nil => simp
      | cons c text => exact absurd rfl (hshort b c text)

private theorem collapseRuns_of_apart {text : Bytes}
    (h : text.IsChain fun b c ↦ Ascii.isSpace b = true → Ascii.isSpace c = false) :
    collapseRuns false text = text := by
  induction text with
  | nil => rfl
  | cons b text ih =>
    have hrest : collapseRuns false text = text := ih h.tail
    rw [collapseRuns]
    split
    · next hspace =>
      have hnext : text.head?.any Ascii.isSpace = false := by
        cases text with
        | nil => rfl
        | cons c text => exact h.rel hspace
      rw [if_neg (by simp), hnext, if_neg (by simp), hrest]
    · rw [hrest]

/-- A text without runs stays as it is whether or not runs are looked for. -/
theorem collapse_eq (text : Bytes) :
    collapse text = if text.all Ascii.isSpace then [] else collapseRuns false text := by
  rw [collapse]
  split
  · rfl
  · split
    · rfl
    · next hrun =>
      rw [Bool.not_eq_true, hasRun_eq_false_iff] at hrun
      rw [collapseRuns_of_apart hrun]

/-- A collapsed text stays as it is. -/
theorem IsCollapsed.collapse_eq {text : Bytes} (h : text.IsCollapsed) : text.collapse = text := by
  rw [collapse, h.not_blank, if_neg (by simp), hasRun_eq_false_iff.mpr h.apart, if_neg (by simp)]

/-! ### What collapsing leaves -/

private theorem filter_eq_nil_iff_blank {text : Bytes} :
    text.filter (! Ascii.isSpace ·) = [] ↔ text.all Ascii.isSpace = true := by
  simp [List.filter_eq_nil_iff]

/-- Everything but white space is shown, in order. -/
theorem filter_collapseRuns (shown : Bool) (text : Bytes) :
    (collapseRuns shown text).filter (! Ascii.isSpace ·) = text.filter (! Ascii.isSpace ·) := by
  fun_induction collapseRuns shown text with
  | case1 => rfl
  | case2 b text hspace ih => simpa [hspace] using ih
  | case3 shown b text hspace _ _ ih =>
    have hblank : Ascii.isSpace Ascii.space = true := rfl
    simpa [hspace, hblank] using ih
  | case4 shown b text hspace _ _ ih => simpa [hspace] using ih
  | case5 shown b text hspace ih => simpa [hspace] using ih

private theorem head?_collapseRuns {text : Bytes} (h : text.head?.any Ascii.isSpace = false) :
    (collapseRuns false text).head? = text.head? := by
  cases text with
  | nil => rfl
  | cons b text =>
    rw [List.head?_cons, Option.any_some] at h
    rw [collapseRuns, if_neg (by simp [h]), List.head?_cons, List.head?_cons]

private theorem apart_collapseRuns (shown : Bool) (text : Bytes) :
    ((collapseRuns shown text).IsChain fun b c ↦ Ascii.isSpace b = true → Ascii.isSpace c = false) ∧
      (shown = true → ∀ b ∈ (collapseRuns shown text).head?, Ascii.isSpace b = false) := by
  induction text generalizing shown with
  | nil => exact ⟨.nil, fun _ b hb ↦ by contradiction⟩
  | cons b text ih =>
    rw [collapseRuns]
    split
    · next hspace =>
      split
      · next hshown =>
        exact ⟨(ih true).1, fun _ ↦ (ih true).2 rfl⟩
      · next hshown =>
        have hnot : ¬ shown = true := hshown
        split
        · exact ⟨List.isChain_cons.mpr ⟨fun c hc _ ↦ (ih true).2 rfl c hc, (ih true).1⟩,
            fun h ↦ absurd h hnot⟩
        · next hnext =>
          rw [Bool.not_eq_true] at hnext
          refine ⟨List.isChain_cons.mpr ⟨fun c hc _ ↦ ?_, (ih false).1⟩, fun h ↦ absurd h hnot⟩
          rw [head?_collapseRuns hnext] at hc
          rw [Option.mem_def.mp hc] at hnext
          exact hnext
    · next hspace =>
      rw [Bool.not_eq_true] at hspace
      constructor
      · refine List.isChain_cons.mpr ⟨fun c _ h ↦ ?_, (ih false).1⟩
        rw [hspace] at h
        contradiction
      · rintro - c hc
        rwa [← Option.some.inj hc]

/-- Collapsing keeps everything but white space. -/
theorem filter_collapse (text : Bytes) :
    (collapse text).filter (! Ascii.isSpace ·) = text.filter (! Ascii.isSpace ·) := by
  rw [collapse_eq]
  split
  · next hblank => rw [filter_eq_nil_iff_blank.mpr hblank, List.filter_nil]
  · exact filter_collapseRuns false text

/-- In what collapsing leaves white space stands alone. -/
theorem apart_collapse (text : Bytes) :
    (collapse text).IsChain fun b c ↦ Ascii.isSpace b = true → Ascii.isSpace c = false := by
  rw [collapse_eq]
  split
  · exact .nil
  · exact (apart_collapseRuns false text).1

/-- Collapsing leaves a collapsed text, or nothing. -/
theorem isCollapsed_collapse {text : Bytes} (h : text.collapse ≠ []) :
    text.collapse.IsCollapsed := by
  refine ⟨Bool.eq_false_iff.mpr fun hall ↦ h ?_, apart_collapse text⟩
  rw [← filter_eq_nil_iff_blank, filter_collapse, filter_eq_nil_iff_blank] at hall
  rw [collapse_eq, if_pos hall]

/-- Collapsing a text that is collapsed already changes nothing. -/
theorem collapse_collapse (text : Bytes) : text.collapse.collapse = text.collapse := by
  by_cases h : text.collapse = []
  · rw [h, collapse_nil]
  · exact (isCollapsed_collapse h).collapse_eq

/-! ### Runs -/

/-- The runs of a text, the longest pieces of white space alone or without any. -/
def runs (text : Bytes) : List Bytes :=
  text.splitBy fun b c ↦ Ascii.isSpace b == Ascii.isSpace c

/-- What is shown of a run: one blank for white space of two bytes or more, and any other run as it
is. -/
def shownRun (run : Bytes) : Bytes :=
  if run.all Ascii.isSpace && 2 ≤ run.length then [Ascii.space] else run

private theorem collapseRuns_true_append {gap : Bytes} (h : gap.all Ascii.isSpace = true)
    (rest : Bytes) : collapseRuns true (gap ++ rest) = collapseRuns true rest := by
  induction gap with
  | nil => rfl
  | cons b gap ih =>
    rw [List.all_cons, Bool.and_eq_true] at h
    rw [List.cons_append, collapseRuns, if_pos h.1, if_pos rfl, ih h.2]

private theorem collapseRuns_of_head? {rest : Bytes} (h : rest.head?.any Ascii.isSpace = false)
    (shown : Bool) : collapseRuns shown rest = collapseRuns false rest := by
  cases rest with
  | nil => rfl
  | cons b rest =>
    rw [List.head?_cons, Option.any_some] at h
    rw [collapseRuns, collapseRuns, if_neg (by simp [h]), if_neg (by simp [h])]

private theorem collapseRuns_gap {gap rest : Bytes} (h : gap.all Ascii.isSpace = true)
    (hne : gap ≠ []) (hrest : rest.head?.any Ascii.isSpace = false) :
    collapseRuns false (gap ++ rest) = shownRun gap ++ collapseRuns false rest := by
  match gap, hne with
  | [b], _ =>
    simp only [List.all_cons, List.all_nil, Bool.and_true] at h
    rw [List.singleton_append, collapseRuns, if_pos h, if_neg (by simp), hrest, if_neg (by simp),
      shownRun, if_neg (by simp), List.singleton_append]
  | b :: c :: gap, _ =>
    have hshown : shownRun (b :: c :: gap) = [Ascii.space] := by
      rw [shownRun, h, if_pos (by simp)]
    rw [List.all_cons, Bool.and_eq_true] at h
    obtain ⟨hb, hgap⟩ := h
    have hc : Ascii.isSpace c = true := List.all_eq_true.mp hgap c List.mem_cons_self
    rw [hshown, List.cons_append, collapseRuns, if_pos hb, if_neg (by simp),
      collapseRuns_true_append hgap, collapseRuns_of_head? hrest,
      if_pos (by rw [List.cons_append, List.head?_cons, Option.any_some, hc])]
    rfl

private theorem collapseRuns_word {word : Bytes} (h : ∀ b ∈ word, Ascii.isSpace b = false)
    (rest : Bytes) : collapseRuns false (word ++ rest) = word ++ collapseRuns false rest := by
  induction word with
  | nil => rfl
  | cons b word ih =>
    obtain ⟨hb, hword⟩ := List.forall_mem_cons.mp h
    rw [List.cons_append, collapseRuns, if_neg (by simp [hb]), ih hword, List.cons_append]

/-- Pieces that are not empty and each of one kind. -/
def AreUniform (pieces : List Bytes) : Prop :=
  ∀ piece ∈ pieces, ∃ b rest, piece = b :: rest ∧
    ∀ c ∈ piece, Ascii.isSpace c = Ascii.isSpace b

/-- Of two pieces side by side one is white space and the other is not. -/
def Alternate (pieces : List Bytes) : Prop :=
  pieces.IsChain fun piece next ↦ ∀ b ∈ piece, ∀ c ∈ next, Ascii.isSpace c = ! Ascii.isSpace b

private theorem isSpace_of_mem_run {b : UInt8} {run : Bytes}
    (h : (b :: run).IsChain fun b c ↦ (Ascii.isSpace b == Ascii.isSpace c) = true) :
    ∀ c ∈ b :: run, Ascii.isSpace c = Ascii.isSpace b := by
  induction run generalizing b with
  | nil => simp
  | cons c run ih =>
    rw [List.isChain_cons_cons, beq_iff_eq] at h
    refine List.forall_mem_cons.mpr ⟨rfl, fun d hd ↦ ?_⟩
    rw [ih h.2 d hd, h.1]

/-- Each run is of one kind. -/
theorem areUniform_runs (text : Bytes) : AreUniform (runs text) := by
  intro run hrun
  obtain ⟨b, rest, rfl⟩ := List.exists_cons_of_ne_nil (List.ne_nil_of_mem_splitBy hrun)
  exact ⟨b, rest, rfl, isSpace_of_mem_run (List.isChain_of_mem_splitBy hrun)⟩

/-- No run can be made longer: the next one is of the other kind. -/
theorem alternate_runs (text : Bytes) : Alternate (runs text) := by
  refine (List.isChain_getLast_head_splitBy _ text).imp_of_mem_imp ?_
  rintro run next hrun hnext ⟨hne, hne', hborder⟩ b hb c hc
  obtain ⟨_, _, _, hkind⟩ := areUniform_runs text run hrun
  obtain ⟨_, _, _, hkind'⟩ := areUniform_runs text next hnext
  rw [hkind _ (List.getLast_mem hne), hkind' _ (List.head_mem hne'), beq_eq_false_iff_ne] at hborder
  rw [hkind b hb, hkind' c hc]
  exact Bool.eq_not.mpr (Ne.symm hborder)

/-- Pieces of alternating kinds are shown one by one. -/
theorem collapseRuns_flatten {pieces : List Bytes} (hkind : AreUniform pieces)
    (halternate : Alternate pieces) :
    collapseRuns false pieces.flatten = pieces.flatMap shownRun := by
  induction pieces with
  | nil => rfl
  | cons piece pieces ih =>
    obtain ⟨⟨b, rest, hpiece, hall⟩, hpieces⟩ := List.forall_mem_cons.mp hkind
    have hb : b ∈ piece := hpiece ▸ List.mem_cons_self
    rw [List.flatten_cons, List.flatMap_cons, ← ih hpieces halternate.tail]
    cases hspace : Ascii.isSpace b with
    | true =>
      have hgap : piece.all Ascii.isSpace = true :=
        List.all_eq_true.mpr fun c hc ↦ (hall c hc).trans hspace
      refine collapseRuns_gap hgap (List.ne_nil_of_mem hb) ?_
      cases pieces with
      | nil => rfl
      | cons next pieces =>
        obtain ⟨⟨c, rest', rfl, -⟩, -⟩ := List.forall_mem_cons.mp hpieces
        have hnext := halternate.rel b hb c List.mem_cons_self
        rw [List.flatten_cons, List.cons_append, List.head?_cons, Option.any_some, hnext, hspace]
        rfl
    | false =>
      have hword : ∀ c ∈ piece, Ascii.isSpace c = false := fun c hc ↦ (hall c hc).trans hspace
      have hshown : shownRun piece = piece := by
        rw [shownRun, if_neg]
        rw [hpiece, List.all_cons, hspace]
        simp
      rw [collapseRuns_word hword, hshown]

/-! ### Collapsing -/

/-- Collapsing shows nothing of white space alone. Of any other text it shows the runs one by one,
where the runs make up the text, each is of one kind and none can be made longer: one blank for two
bytes of white space or more, and any other run as it is. So everything but white space is shown, in
order, no two bytes of white space stand side by side, and collapsing again changes nothing. -/
theorem collapse_exact (text : Bytes) :
    (collapse text = (if text.all Ascii.isSpace then [] else (runs text).flatMap shownRun) ∧
      (runs text).flatten = text ∧ AreUniform (runs text) ∧ Alternate (runs text)) ∧
      (collapse text).filter (! Ascii.isSpace ·) = text.filter (! Ascii.isSpace ·) ∧
      (collapse text).IsChain (fun b c ↦ Ascii.isSpace b = true → Ascii.isSpace c = false) ∧
      collapse (collapse text) = collapse text := by
  have hflatten : (runs text).flatten = text := List.flatten_splitBy _ text
  refine ⟨⟨?_, hflatten, areUniform_runs text, alternate_runs text⟩, filter_collapse text,
    apart_collapse text, collapse_collapse text⟩
  have hshown := collapseRuns_flatten (areUniform_runs text) (alternate_runs text)
  rw [collapse_eq, ← hshown, hflatten]

/-- A run becomes one blank, and a single line feed stays. -/
example : collapse (ofString " \ta  b c\n") = ofString " a b c\n" := by decide

end MarkupSelect.Bytes
