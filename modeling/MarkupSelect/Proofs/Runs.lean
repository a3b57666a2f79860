import MarkupSelect.Proofs.Query.Path
import MarkupSelect.Selection

/-!
# Runs of selections

Whatever is done with a selection of a document, one operation after the other, the elements
selected are pieces of the document at their offsets, cut between characters, and each begins with a
start tag. What a search finds lies in the content of an element that was selected before.
-/

namespace MarkupSelect.Selection

/-- A search inside a selection: for what a text selects, for what a compiled selector selects, or
for what meets a condition, given as a text. -/
inductive Search where
  | text (text : String)
  | compiled (selector : Selector) (h : ∃ text, Selector.compile text = .ok selector)
  | condition (condition : String)

/-- What can be done with a selection: search inside it, take the element at an index, or select the
elements at some offsets of its document instead. -/
inductive Operation where
  | search (search : Search)
  | nth (index : Int)
  | ofOffsets (offsets : List Nat)

/-- The selection that a search gives. -/
def Search.apply (s : Selection) : Search → Selection
  | .text t => s.find t
  | .compiled selector _ => s.findSelector selector
  | .condition c => s.findWhere c

/-- The selection that an operation gives. -/
def Operation.apply (s : Selection) : Operation → Selection
  | .search inside => inside.apply s
  | .nth index => s.nth index
  | .ofOffsets offsets => ofMatches s.source (.ofOffsets s.source offsets)

/-- The selection after some operations on a document as a whole. -/
def run (source : Bytes) (operations : List Operation) : Selection :=
  operations.foldl Operation.apply (ofDocument source)

/-! ### Searches -/

/-- An element was found in a region where its context lets a search begin. -/
def Found (s : Selection) (e : Nat × Bytes) : Prop :=
  ∃ r ∈ s.context.regions s.source, r.Holds e ∧ Element.IsMarkup e.2

private theorem found_of_mem_query {s : Selection} {selector : Selector} {text : String}
    (hc : Selector.compile text = .ok selector) {e : Nat × Bytes}
    (h : e ∈ (selector.query s.source s.context).entries) : s.Found e := by
  obtain ⟨a, ha, hmem⟩ := Selector.exists_mem_select h
  have hread := Selector.isRead_of_compile hc a ha
  obtain ⟨r, hr, path, hpath, hlast⟩ := Alternative.path_of_mem_select hread hmem
  have hend := List.mem_of_getLast? hlast
  exact ⟨r, hr, hpath.holds e hend, hpath.isMarkup e hend⟩

private theorem found_of_mem_condition {s : Selection} {c : Condition} {e : Nat × Bytes}
    (h : e ∈ (c.query s.source s.context).entries) : s.Found e := by
  obtain ⟨r, hr, hmem⟩ := List.mem_flatMap.mp (Matches.mem_of_mem_ofList h)
  have hresolved := Plan.isResolvedIn_of_mem_descendants hmem
  exact ⟨r, hr, hresolved.holds, hresolved.isMarkup⟩

/-- A search selects elements that it has found. -/
theorem Search.apply_eq (s : Selection) (search : Search) :
    ∃ elements, search.apply s = ofMatches s.source elements ∧
      ∀ e ∈ elements.entries, s.Found e := by
  have hcleared : ∀ e ∈ Matches.empty.entries, s.Found e := by
    intro e he
    contradiction
  cases search with
  | text text =>
    rw [apply, find]
    split
    · next selector hc => exact ⟨_, rfl, fun e he ↦ found_of_mem_query hc he⟩
    · exact ⟨.empty, rfl, hcleared⟩
  | compiled selector hc =>
    obtain ⟨text, hc⟩ := hc
    exact ⟨_, rfl, fun e he ↦ found_of_mem_query hc he⟩
  | condition condition =>
    rw [apply, findWhere]
    split
    · exact ⟨_, rfl, fun e he ↦ found_of_mem_condition he⟩
    · exact ⟨.empty, rfl, hcleared⟩

/-! ### The invariant -/

/-- A selection whose elements are elements of the document at their offsets. -/
structure IsSound (document : Bytes) (s : Selection) : Prop where
  source : s.source = document
  elements : ∀ elements, s.context = .selected elements →
    ∀ e ∈ elements.entries, (Region.whole document).Holds e ∧ Element.IsMarkup e.2

/-- The elements selected stand in the document. -/
theorem IsSound.standsIn {document : Bytes} {s : Selection} (h : s.IsSound document) :
    s.context.StandsIn document := by
  intro elements helements e he
  exact Region.holds_whole.mp (h.elements elements helements e he).1

private theorem isSound_ofMatches {document : Bytes} {elements : Matches}
    (h : ∀ e ∈ elements.entries, (Region.whole document).Holds e ∧ Element.IsMarkup e.2) :
    IsSound document (ofMatches document elements) := by
  refine ⟨rfl, ?_⟩
  intro other hother
  rw [← Context.selected.inj hother]
  exact h

private theorem isSound_cleared {document : Bytes} {s : Selection} (h : s.IsSound document) :
    IsSound document s.cleared := by
  unfold cleared
  rw [h.source]
  apply isSound_ofMatches
  intro e he
  contradiction

/-- What is found in a sound selection stands in the document. -/
theorem IsSound.of_found {document : Bytes} {s : Selection} (h : s.IsSound document)
    {e : Nat × Bytes} (he : s.Found e) :
    (Region.whole document).Holds e ∧ Element.IsMarkup e.2 := by
  obtain ⟨r, hr, hholds, hmarkup⟩ := he
  have hpiece := h.standsIn.isPieceOf r (h.source ▸ hr)
  exact ⟨Region.Holds.trans hpiece hholds, hmarkup⟩

private theorem IsSound.nth {document : Bytes} {s : Selection} (h : s.IsSound document)
    (index : Int) :
    IsSound document (s.nth index) := by
  unfold Selection.nth
  split
  · exact isSound_cleared h
  split
  · exact h
  · next elements hcontext =>
    split
    · next offset markup hnth =>
      rw [h.source]
      apply isSound_ofMatches
      intro e he
      rw [Matches.entries_singleton, List.mem_singleton] at he
      rw [he]
      exact h.elements elements hcontext _ (List.mem_of_getElem? hnth)
    · exact isSound_cleared h

private theorem isSound_ofOffsets (document : Bytes) (offsets : List Nat) :
    IsSound document (ofMatches document (.ofOffsets document offsets)) := by
  apply isSound_ofMatches
  intro e he
  obtain ⟨offset, -, hat⟩ := List.mem_filterMap.mp (Matches.mem_of_mem_ofList he)
  obtain ⟨markup, helement, rfl⟩ := Option.map_eq_some_iff.mp hat
  obtain ⟨hstands, hmarkup⟩ := Element.at?_eq_some helement
  exact ⟨Region.holds_whole.mpr hstands, hmarkup⟩

/-- One operation keeps a selection sound. -/
theorem IsSound.apply {document : Bytes} {s : Selection} (h : s.IsSound document)
    (operation : Operation) : IsSound document (operation.apply s) := by
  cases operation with
  | search search =>
    obtain ⟨elements, heq, hfound⟩ := search.apply_eq s
    rw [Operation.apply, heq, h.source]
    exact isSound_ofMatches fun e he ↦ h.of_found (hfound e he)
  | nth index => exact h.nth index
  | ofOffsets offsets =>
    rw [Operation.apply, h.source]
    exact isSound_ofOffsets document offsets

private theorem isSound_ofDocument (document : Bytes) : IsSound document (ofDocument document) := by
  refine ⟨rfl, ?_⟩
  intro elements h
  contradiction

/-- Every run keeps the selection sound. -/
theorem isSound_run (source : Bytes) (operations : List Operation) :
    IsSound source (run source operations) := by
  have hrun : ∀ s : Selection, s.IsSound source →
      IsSound source (operations.foldl Operation.apply s) := by
    induction operations with
    | nil => exact fun s hs ↦ hs
    | cons operation operations ih => exact fun s hs ↦ ih _ (hs.apply operation)
  exact hrun _ (isSound_ofDocument source)

/-! ### Bounds, characters and contents -/

/-- An entry is a piece of a document at its offset, cut between characters, that begins with a
start tag. -/
structure IsPiece (source : String) (e : Nat × Bytes) : Prop where
  bounds : e.1 + e.2.length ≤ (Bytes.ofString source).length
  cut : ((Bytes.ofString source).drop e.1).take e.2.length = e.2
  first : (⟨e.1⟩ : String.Pos.Raw).IsValid source
  last : (⟨e.1 + e.2.length⟩ : String.Pos.Raw).IsValid source
  startTag : (StartTag.ofMarkup? e.2).isSome

/-- An element that stands in the encoding of a string is a piece of the string. -/
theorem isPiece_of_holds {source : String} {e : Nat × Bytes}
    (h : (Region.whole (Bytes.ofString source)).Holds e) (hm : Element.IsMarkup e.2) :
    IsPiece source e := by
  have hstands := Region.holds_whole.mp h
  refine ⟨hstands.length_le, hstands.take_drop, ?_, ?_, hm.startTag⟩
  · obtain ⟨before, after, hsplit, hlen⟩ := hstands
    obtain ⟨tag, htag⟩ := Option.isSome_iff_exists.mp hm.startTag
    obtain ⟨rest, hrest⟩ := StartTag.text_prefix_of_ofMarkup? htag
    have hless : Bytes.ofString source =
        before ++
          Ascii.less :: (tag.name ++ tag.attributes ++ [Ascii.greater] ++ rest ++ after) := by
      rw [hsplit, ← hrest, StartTag.text]
      simp
    rw [← hlen]
    exact (Bytes.isValid_of_ascii (by decide) hless).1
  · obtain ⟨before, after, hsplit, hlen⟩ := hstands
    obtain ⟨lead, hlead⟩ := List.getLast?_eq_some_iff.mp hm.closed
    have hgreater : Bytes.ofString source = (before ++ lead) ++ Ascii.greater :: after := by
      rw [hsplit, hlead]
      simp
    have hend : e.1 + e.2.length = (before ++ lead).length + 1 := by
      rw [hlead, List.length_append, List.length_append, List.length_singleton]
      omega
    rw [hend]
    exact (Bytes.isValid_of_ascii (by decide) hgreater).2

/-- After every run on a document the elements selected are pieces of the document, cut between
characters, that begin with a start tag; and what any search finds inside them lies in the content
of one of them. -/
theorem isPiece_of_run (source : String) (operations : List Operation) {elements : Matches}
    (h : (run (Bytes.ofString source) operations).context = .selected elements) :
    (∀ e ∈ elements.entries, IsPiece source e) ∧
      ∀ search : Search,
        ∀ e ∈ (search.apply (run (Bytes.ofString source) operations)).elements.entries,
          ∃ d ∈ elements.entries, ∃ content,
            Region.content? d.1 d.2 = some content ∧ content.Holds e := by
  have hsound := isSound_run (Bytes.ofString source) operations
  constructor
  · intro e he
    obtain ⟨hholds, hmarkup⟩ := hsound.elements elements h e he
    exact isPiece_of_holds hholds hmarkup
  · intro search e he
    obtain ⟨found, heq, hfound⟩ := search.apply_eq (run (Bytes.ofString source) operations)
    rw [heq, elements_ofMatches] at he
    obtain ⟨r, hr, hholds, -⟩ := hfound e he
    rw [h] at hr
    obtain ⟨d, hd, hcontent⟩ := Matches.mem_contents hr
    exact ⟨d, hd, r, hcontent, hholds⟩

/-- Of the offsets given, one lies inside a character and one in front of no start tag; the search
then goes on in the element at the third. -/
theorem isPiece_of_run_offsets :
    let operations : List Operation := [.ofOffsets [1, 2, 3], .search (.text "p[class]"), .nth (-1)]
    let elements : Matches := .singleton 11 (Bytes.ofString "<p class=b>é</p>")
    let source := "é<div><br><p class=b>é</p></div>"
    (run (Bytes.ofString source) operations).context = .selected elements ∧
      (∀ e ∈ elements.entries, IsPiece source e) ∧
        ∀ search : Search,
          ∀ e ∈ (search.apply (run (Bytes.ofString source) operations)).elements.entries,
            ∃ d ∈ elements.entries, ∃ content,
            Region.content? d.1 d.2 = some content ∧ content.Holds e := by
  intro operations elements source
  have h : (run (Bytes.ofString source) operations).context = .selected elements := by
    decide +kernel
  exact ⟨h, isPiece_of_run source operations h⟩

end MarkupSelect.Selection
