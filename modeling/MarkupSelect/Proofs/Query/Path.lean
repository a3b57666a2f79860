import MarkupSelect.Proofs.Element.Placed
import MarkupSelect.Proofs.Query.Fits

/-!
# The path to a hit

Every hit of a query is the end of a path: its elements fit the steps of one alternative in turn,
and each of them lies in the content of the one before, as a direct child where the step asks for
one. This holds of every text and of every context.
-/

namespace MarkupSelect

/-- An element is one that a step takes in a region: it fits, it lies in the region, and it is a
direct child there if the step asks for one. -/
structure Step.Takes (s : Step) (r : Region) (e : Nat × Bytes) : Prop where
  fits : s.Fits e.2
  holds : r.Holds e
  isMarkup : Element.IsMarkup e.2
  child : s.combinator = .child → ∃ child ∈ r.children, (child.offset, child.element) = e

/-- The elements that the steps of an alternative take in turn, the first in the region and each
other in the content of the one before. -/
inductive Alternative.Path : Alternative → Region → List (Nat × Bytes) → Prop
  | last {s : Step} {r : Region} {e : Nat × Bytes} (h : s.Takes r e) : Path [s] r [e]
  | step {s : Step} {a : Alternative} {r content : Region} {e : Nat × Bytes}
      {path : List (Nat × Bytes)} (h : s.Takes r e)
      (hcontent : Region.content? e.1 e.2 = some content) (hpath : Path a content path) :
      Path (s :: a) r (e :: path)

/-! ### One step -/

namespace Plan

variable {plan : Plan} {r : Region} {s : Step}

/-- What a plan finds anywhere in a region is expanded from a start tag that it tests and that
passes. -/
theorem of_mem_descendants {e : Nat × Bytes} (h : e ∈ plan.descendants r) :
    ∃ i tag, StartTag.ofMarkup? (r.text.drop i) = some tag ∧
      e = (r.absolute i, Element.expand r.text i tag.text) ∧
        plan.Offers r (r.absolute i, tag.text) ∧ plan.Accepts tag.text := by
  obtain ⟨d, hd, rfl⟩ := List.mem_map.mp h
  obtain ⟨hoffer, haccept⟩ := mem_search hd
  obtain ⟨i, tag, rfl, htag⟩ := hoffer.starts
  have hi : r.absolute i - r.base = i := Nat.add_sub_cancel_left _ _
  dsimp only at haccept ⊢
  rw [hi]
  exact ⟨i, tag, htag, rfl, hoffer, haccept⟩

/-- What a plan finds anywhere in a region is an element of the region. -/
theorem isResolvedIn_of_mem_descendants {e : Nat × Bytes} (h : e ∈ plan.descendants r) :
    Element.IsResolvedIn r e := by
  obtain ⟨i, tag, htag, rfl, -⟩ := of_mem_descendants h
  exact ⟨i, tag, htag, rfl⟩

/-- What a plan finds anywhere in a region fits the step. -/
theorem fits_of_mem_descendants (hs : s.IsRead) (hp : ofStep? s = some plan) {e : Nat × Bytes}
    (h : e ∈ plan.descendants r) : s.Fits e.2 := by
  obtain ⟨i, tag, htag, rfl, hoffer, haccept⟩ := of_mem_descendants h
  apply (fits_of_accepts hs hp hoffer haccept).congr
  rw [StartTag.ofMarkup?_text htag, Element.ofMarkup?_expand htag]

/-- What is found at the offset of a child in its start tag alone is that start tag. -/
theorem mem_search_of_contains {child : Child} (hmem : child ∈ r.children)
    (h : (plan.search ⟨child.offset, child.startTag⟩).contains child.offset = true) :
    (child.offset, child.startTag) ∈ (plan.search ⟨child.offset, child.startTag⟩).entries := by
  obtain ⟨i, tag, -, htag, hstart, -⟩ := Region.mem_children hmem
  obtain ⟨e, he, hoffset⟩ := List.any_eq_true.mp h
  obtain ⟨j, other, rfl, hother⟩ := (mem_search he).1.starts
  have hj : j = 0 := by
    have := beq_iff_eq.mp hoffset
    simp only [Region.absolute] at this
    omega
  subst hj
  rw [List.drop_zero, hstart, StartTag.ofMarkup?_text htag] at hother
  rw [← Option.some.inj hother, ← hstart] at he
  exact he

/-- A child whose start tag alone is found at its offset fits the step. -/
theorem fits_of_contains (hs : s.IsRead) (hp : ofStep? s = some plan) {child : Child}
    (hmem : child ∈ r.children)
    (h : (plan.search ⟨child.offset, child.startTag⟩).contains child.offset = true) :
    s.Fits child.element := by
  obtain ⟨hoffer, haccept⟩ := mem_search (mem_search_of_contains hmem h)
  obtain ⟨i, tag, -, htag, hstart, helement⟩ := Region.mem_children hmem
  apply (fits_of_accepts hs hp hoffer haccept).congr
  rw [hstart, helement, StartTag.ofMarkup?_text htag, Element.ofMarkup?_expand htag]

end Plan

namespace Step

variable {s : Step} {r : Region} {e : Nat × Bytes}

/-- What a plan hits in a region is an element of the region. -/
theorem isResolvedIn_of_mem_hitsIn {plan : Plan} {combinator : Combinator}
    (h : e ∈ hitsIn plan combinator r) : Element.IsResolvedIn r e := by
  unfold hitsIn at h
  split at h
  · exact Plan.isResolvedIn_of_mem_descendants h
  · obtain ⟨child, hmem, rfl⟩ := List.mem_map.mp h
    exact Element.isResolvedIn_of_mem_children (List.mem_filter.mp hmem).1

/-- What a plan hits in a region is what its step takes there. -/
theorem takes_of_mem_hitsIn {plan : Plan} (hs : s.IsRead) (hp : Plan.ofStep? s = some plan)
    (h : e ∈ hitsIn plan s.combinator r) : s.Takes r e := by
  have hresolved := isResolvedIn_of_mem_hitsIn h
  unfold hitsIn at h
  split at h
  · next hc =>
    refine ⟨Plan.fits_of_mem_descendants hs hp h, hresolved.holds, hresolved.isMarkup, ?_⟩
    intro hchild
    rw [hc] at hchild
    contradiction
  · obtain ⟨child, hmem, rfl⟩ := List.mem_map.mp h
    obtain ⟨hchild, hfound⟩ := List.mem_filter.mp hmem
    exact ⟨Plan.fits_of_contains hs hp hchild hfound, hresolved.holds, hresolved.isMarkup,
      fun _ ↦ ⟨child, hchild, rfl⟩⟩

/-- What a step selects in some regions it takes in one of them. -/
theorem takes_of_mem_select (hs : s.IsRead) {regions : List Region}
    (h : e ∈ (s.select regions).entries) : ∃ r ∈ regions, s.Takes r e := by
  unfold select at h
  split at h
  · contradiction
  · next plan hp =>
    have hclaim := Matches.mem_of_mem_ofList h
    obtain ⟨r, hr, hmem⟩ := List.mem_flatMap.mp hclaim
    exact ⟨r, hr, takes_of_mem_hitsIn hs hp hmem⟩

end Step

/-! ### Where a query begins -/

/-- The contents of matches are those of their elements. -/
theorem Matches.mem_contents {m : Matches} {r : Region} (h : r ∈ m.contents) :
    ∃ e ∈ m.entries, Region.content? e.1 e.2 = some r := List.mem_filterMap.mp h

/-- A region is a piece of a document. -/
def Region.IsPieceOf (r : Region) (document : Bytes) : Prop :=
  (Region.whole document).Holds (r.base, r.text)

/-- The content of an element that stands in a document is a piece of the document. -/
theorem Region.isPieceOf_content {document : Bytes} {content : Region} {e : Nat × Bytes}
    (h : Region.content? e.1 e.2 = some content) (he : e.2.StandsAt e.1 document) :
    content.IsPieceOf document :=
  Region.holds_content h (Region.holds_whole.mpr he)

/-- The elements of a context stand in a document. -/
def Context.StandsIn (context : Context) (document : Bytes) : Prop :=
  ∀ elements, context = .selected elements → ∀ e ∈ elements.entries, e.2.StandsAt e.1 document

/-- A query begins in pieces of the document. -/
theorem Context.StandsIn.isPieceOf {context : Context} {document : Bytes}
    (h : context.StandsIn document) : ∀ r ∈ context.regions document, r.IsPieceOf document := by
  intro r hr
  unfold Context.regions at hr
  split at hr
  · rw [List.mem_singleton] at hr
    rw [hr]
    exact Region.holds_whole.mpr ⟨[], [], by rw [List.nil_append, List.append_nil]; rfl, rfl⟩
  · next elements =>
    obtain ⟨d, hd, hcontent⟩ := Matches.mem_contents hr
    exact Region.isPieceOf_content hcontent (h elements rfl d hd)

/-! ### All steps -/

namespace Alternative

variable {a : Alternative} {r : Region} {path : List (Nat × Bytes)} {e : Nat × Bytes}

/-- All of a path lies where it begins. -/
theorem Path.holds (h : a.Path r path) : ∀ e ∈ path, r.Holds e := by
  induction h with
  | last h =>
    intro e he
    rw [List.mem_singleton.mp he]
    exact h.holds
  | step h hcontent _ ih =>
    intro e he
    rcases List.mem_cons.mp he with rfl | he
    · exact h.holds
    · exact (Region.holds_content hcontent h.holds).trans (ih e he)

/-- All of a path are elements. -/
theorem Path.isMarkup (h : a.Path r path) : ∀ e ∈ path, Element.IsMarkup e.2 := by
  induction h with
  | last h =>
    intro e he
    rw [List.mem_singleton.mp he]
    exact h.isMarkup
  | step h _ _ ih =>
    intro e he
    rcases List.mem_cons.mp he with rfl | he
    · exact h.isMarkup
    · exact ih e he

/-- What the last stage finds is the end of a path. -/
theorem path_of_mem_stages {regions : List Region} {stage : Stage} (ha : ∀ s ∈ a, s.IsRead)
    (hlast : (stages regions a).getLast? = some stage) (h : e ∈ stage.hits.entries) :
    ∃ r ∈ regions, ∃ path, a.Path r path ∧ path.getLast? = some e := by
  induction a generalizing regions with
  | nil => contradiction
  | cons s a ih =>
    have hs := ha s List.mem_cons_self
    unfold stages at hlast
    dsimp only at hlast
    rw [List.getLast?_cons] at hlast
    cases a with
    | nil =>
      have hstage : ⟨regions.length, s.select regions⟩ = stage := by
        simpa [stages] using hlast
      subst hstage
      obtain ⟨r, hr, htakes⟩ := Step.takes_of_mem_select hs h
      exact ⟨r, hr, [e], .last htakes, rfl⟩
    | cons t a =>
      split at hlast
      · next hempty =>
        -- Without hits the search ends here, and there is no hit.
        rw [List.getLast?_nil, Option.getD_none] at hlast
        rw [← Option.some.inj hlast] at h
        rw [List.isEmpty_iff.mp hempty] at h
        contradiction
      · have hlater : (stages (s.select regions).contents (t :: a)).getLast? = some stage := by
          unfold stages at hlast ⊢
          dsimp only at hlast ⊢
          rw [List.getLast?_cons, Option.getD_some] at hlast
          rw [List.getLast?_cons, hlast]
        obtain ⟨content, hcontent, path, hpath, hend⟩ :=
          ih (fun u hu ↦ ha u (List.mem_cons_of_mem _ hu)) hlater
        obtain ⟨d, hd, hregion⟩ := Matches.mem_contents hcontent
        obtain ⟨r, hr, htakes⟩ := Step.takes_of_mem_select hs hd
        refine ⟨r, hr, d :: path, .step htakes hregion hpath, ?_⟩
        rw [List.getLast?_cons, hend, Option.getD_some]

/-- What an alternative selects is the end of a path that begins in a region of the context. -/
theorem path_of_mem_select (ha : a.IsRead) {document : Bytes} {context : Context}
    (h : e ∈ (a.select document context).entries) :
    ∃ r ∈ context.regions document, ∃ path, a.Path r path ∧ path.getLast? = some e := by
  unfold select at h
  split at h
  · next stage hlast => exact path_of_mem_stages ha.steps hlast h
  · next hnone =>
    rw [List.getLast?_eq_none_iff] at hnone
    cases a with
    | nil => exact absurd rfl ha.ne_nil
    | cons s a => contradiction

end Alternative

namespace Selector

/-- What a selector finds one of its alternatives selects. -/
theorem exists_mem_select {s : Selector} {document : Bytes} {context : Context} {e : Nat × Bytes}
    (h : e ∈ (s.query document context).entries) :
    ∃ a ∈ s.alternatives, e ∈ (a.select document context).entries :=
  (Matches.exists_of_mem_foldl_union h).resolve_left (by simp)

/-- Every hit of a compiled selector, in every document and every context, is the end of a path of
one of its alternatives that begins in a region of the context. -/
theorem path_of_mem_query {text : String} {s : Selector} (hs : compile text = .ok s)
    {document : Bytes} {context : Context} {e : Nat × Bytes}
    (h : e ∈ (s.query document context).entries) :
    ∃ a ∈ s.alternatives, ∃ r ∈ context.regions document, ∃ path,
      a.Path r path ∧ path.getLast? = some e := by
  obtain ⟨a, ha, hmem⟩ := exists_mem_select h
  exact ⟨a, ha, Alternative.path_of_mem_select (isRead_of_compile hs a ha) hmem⟩

/-- A child with an attribute is the end of a path of two elements, although the first end tag in
the document belongs to nothing. -/
theorem path_of_mem_query_child :
    let s : Selector := ⟨"div > p[class]",
      [[⟨some "div", .descendant, []⟩, ⟨some "p", .child, [⟨"class", .present, ""⟩]⟩]]⟩
    let document := Bytes.ofString "</p><div><p class=a>x</p></div>"
    let e : Nat × Bytes := (9, Bytes.ofString "<p class=a>x</p>")
    (compile "div > p[class]" = .ok s ∧ e ∈ (s.query document .document).entries) ∧
      ∃ a ∈ s.alternatives, ∃ r ∈ Context.regions .document document, ∃ path,
        a.Path r path ∧ path.getLast? = some e := by
  intro s document e
  have hs : compile "div > p[class]" = .ok s := by rfl
  have he : e ∈ (s.query document .document).entries := by decide +kernel
  exact ⟨⟨hs, he⟩, path_of_mem_query hs he⟩

end Selector

end MarkupSelect
