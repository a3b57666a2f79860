import MarkupSelect.Proofs.Element.Scope
import MarkupSelect.Proofs.Runs

/-!
# Hits and the elements of the document

A query resolves its hits inside the regions that it searches. The regions are pieces of the
document, so a hit is the element that the document has at its offset, or the start tag of that
element alone.
-/

namespace MarkupSelect

/-- What a step selects are elements of the regions. -/
theorem Step.isResolvedIn_of_mem_select {s : Step} {regions : List Region} {e : Nat × Bytes}
    (h : e ∈ (s.select regions).entries) : ∃ r ∈ regions, Element.IsResolvedIn r e := by
  unfold select at h
  split at h
  · contradiction
  · obtain ⟨r, hr, hmem⟩ := List.mem_flatMap.mp (Matches.mem_of_mem_ofList h)
    exact ⟨r, hr, isResolvedIn_of_mem_hitsIn hmem⟩

namespace Alternative

/-- Each stage that begins in pieces of a document finds elements of pieces of it. -/
theorem isResolvedIn_of_mem_stages {document : Bytes} {a : Alternative} {regions : List Region}
    (hr : ∀ r ∈ regions, r.IsPieceOf document) {stage : Stage} (hstage : stage ∈ stages regions a)
    {e : Nat × Bytes} (he : e ∈ stage.hits.entries) :
    ∃ r : Region, r.IsPieceOf document ∧ Element.IsResolvedIn r e := by
  induction a generalizing regions with
  | nil => contradiction
  | cons s a ih =>
    unfold stages at hstage
    rcases List.mem_cons.mp hstage with rfl | hlater
    · obtain ⟨r, hmem, hresolved⟩ := Step.isResolvedIn_of_mem_select he
      exact ⟨r, hr r hmem, hresolved⟩
    · split at hlater
      · contradiction
      · refine ih (fun content hcontent ↦ ?_) hlater
        obtain ⟨d, hd, hregion⟩ := Matches.mem_contents hcontent
        obtain ⟨r, hmem, hresolved⟩ := Step.isResolvedIn_of_mem_select hd
        exact Region.isPieceOf_content hregion
          (Region.holds_whole.mp ((hr r hmem).trans hresolved.holds))

/-- An alternative with a step selects elements of pieces of the document. -/
theorem isResolvedIn_of_mem_select {document : Bytes} {a : Alternative} (ha : a ≠ [])
    {context : Context} (hc : context.StandsIn document) {e : Nat × Bytes}
    (h : e ∈ (a.select document context).entries) :
    ∃ r : Region, r.IsPieceOf document ∧ Element.IsResolvedIn r e := by
  unfold select at h
  split at h
  · next stage hlast =>
    exact isResolvedIn_of_mem_stages hc.isPieceOf (List.mem_of_getLast? hlast) h
  · next hnone =>
    rw [List.getLast?_eq_none_iff] at hnone
    cases a with
    | nil => exact absurd rfl ha
    | cons s a => contradiction

end Alternative

/-! ### Queries -/

/-- Whatever is done with a selection of a document, its elements stand in the document. -/
theorem Selection.standsIn_run (source : Bytes) (operations : List Operation) :
    (run source operations).context.StandsIn source := (isSound_run source operations).standsIn

/-- What a compiled selector finds are elements of pieces of the document. -/
theorem Selector.isResolvedIn_of_mem_query {text : String} {s : Selector}
    (hs : compile text = .ok s) {document : Bytes} {context : Context}
    (hc : context.StandsIn document) {e : Nat × Bytes}
    (h : e ∈ (s.query document context).entries) :
    ∃ r : Region, r.IsPieceOf document ∧ Element.IsResolvedIn r e := by
  obtain ⟨a, ha, hmem⟩ := exists_mem_select h
  exact Alternative.isResolvedIn_of_mem_select (isRead_of_compile hs a ha).ne_nil hc hmem

/-- What a condition finds are elements of pieces of the document. -/
theorem Condition.isResolvedIn_of_mem_query {c : Condition} {document : Bytes} {context : Context}
    (hc : context.StandsIn document) {e : Nat × Bytes}
    (h : e ∈ (c.query document context).entries) :
    ∃ r : Region, r.IsPieceOf document ∧ Element.IsResolvedIn r e := by
  obtain ⟨r, hr, hmem⟩ := List.mem_flatMap.mp (Matches.mem_of_mem_ofList h)
  exact ⟨r, hc.isPieceOf r hr, Plan.isResolvedIn_of_mem_descendants hmem⟩

/-! ### All that is found -/

/-- Where an element is resolved does not matter but for its end tag: in every document, between any
two offsets that its start tag lies between, it is what the document has at its offset or the start
tag alone. So every hit of a selector or of a condition, in a context of elements of the document,
and every child in the content of such an element is a beginning of the element that the document
has at its offset, and all of it unless it is a start tag alone. -/
theorem Element.agreesWith_of_found (document : Bytes) :
    (∀ {first last offset : Nat} {tag : StartTag},
      StartTag.ofMarkup? (document.drop offset) = some tag → first ≤ offset →
        offset + tag.length ≤ last →
          StartTag.ofMarkup? (((document.take last).drop first).drop (offset - first)) = some tag ∧
            (at? document offset =
                some (expand ((document.take last).drop first) (offset - first) tag.text) ∨
              expand ((document.take last).drop first) (offset - first) tag.text = tag.text)) ∧
      (∀ {context : Context}, context.StandsIn document →
        (∀ {text : String} {s : Selector}, Selector.compile text = .ok s →
          ∀ e ∈ (s.query document context).entries, AgreesWith document e) ∧
          ∀ (c : Condition), ∀ e ∈ (c.query document context).entries, AgreesWith document e) ∧
      ∀ {e : Nat × Bytes} {content : Region}, e.2.StandsAt e.1 document →
        Region.content? e.1 e.2 = some content →
          ∀ child ∈ content.children, AgreesWith document (child.offset, child.element) := by
  refine ⟨expand_slice, fun {context} hcontext ↦ ⟨?_, ?_⟩, ?_⟩
  · intro text s hcompile e he
    obtain ⟨r, hpiece, hresolved⟩ := Selector.isResolvedIn_of_mem_query hcompile hcontext he
    exact hresolved.agreesWith hpiece
  · intro c e he
    obtain ⟨r, hpiece, hresolved⟩ := Condition.isResolvedIn_of_mem_query hcontext he
    exact hresolved.agreesWith hpiece
  · intro e content he hcontent child hchild
    exact (isResolvedIn_of_mem_children hchild).agreesWith
      (Region.isPieceOf_content hcontent he)

/-- The end tag of the inner element stands behind that of the outer one, so that inside the outer
one only its start tag is left, while in the document it has a content. -/
theorem Element.agreesWith_of_found_crossed :
    let document := Bytes.ofString "<div><p id>x</div></p>"
    let tag : StartTag := ⟨Bytes.ofString "p", Bytes.ofString " id"⟩
    let s : Selector := ⟨"p", [[⟨some "p", .descendant, []⟩]]⟩
    let context := (Selection.run document [.ofOffsets [0]]).context
    let outer : Nat × Bytes := (0, Bytes.ofString "<div><p id>x</div>")
    let content : Region := ⟨5, Bytes.ofString "<p id>x"⟩
    let child : Child := ⟨5, tag.text, tag.text⟩
    at? document 5 = some (Bytes.ofString "<p id>x</div></p>") ∧
      (StartTag.ofMarkup? (document.drop 5) = some tag ∧ 5 + tag.length ≤ 12 ∧
        (at? document 5 = some (expand ((document.take 12).drop 5) (5 - 5) tag.text) ∨
          expand ((document.take 12).drop 5) (5 - 5) tag.text = tag.text)) ∧
      (context.StandsIn document ∧ Selector.compile "p" = .ok s ∧
        (5, tag.text) ∈ (s.query document context).entries ∧
          (5, tag.text) ∈ ((Condition.all [⟨"id", .present, ""⟩]).query document context).entries ∧
            AgreesWith document (5, tag.text)) ∧
      outer.2.StandsAt outer.1 document ∧ Region.content? outer.1 outer.2 = some content ∧
        child ∈ content.children ∧ AgreesWith document (child.offset, child.element) := by
  intro document tag s context outer content child
  have hstart : StartTag.ofMarkup? (document.drop 5) = some tag := by decide
  have hlength : 5 + tag.length ≤ 12 := by decide
  have hcontext : context.StandsIn document := Selection.standsIn_run document _
  have hs : Selector.compile "p" = .ok s := by rfl
  have hhit : (5, tag.text) ∈ (s.query document context).entries := by decide +kernel
  have hmet : (5, tag.text) ∈
      ((Condition.all [⟨"id", .present, ""⟩]).query document context).entries := by decide +kernel
  have hplace : outer.2.StandsAt outer.1 document := ⟨[], Bytes.ofString "</p>", by decide, rfl⟩
  have hcontent : Region.content? outer.1 outer.2 = some content := by decide +kernel
  have hchild : child ∈ content.children := by decide +kernel
  obtain ⟨hslice, hfound, hchildren⟩ := agreesWith_of_found document
  exact ⟨by decide +kernel, ⟨hstart, hlength, (hslice hstart (Nat.le_refl 5) hlength).2⟩,
    ⟨hcontext, hs, hhit, hmet, (hfound hcontext).1 hs _ hhit⟩, hplace, hcontent, hchild,
    hchildren hplace hcontent child hchild⟩

end MarkupSelect
