import MarkupSelect.Proofs.Locate.Part
import MarkupSelect.Proofs.Query.Path

/-!
# Children among descendants

A step that asks for children searches the start tag of each child by itself, and one that asks for
descendants searches the region at once. What is found in a start tag by itself is found in the
region, so that the children are among the descendants. The search for an identifier is excepted: it
ends at the first, which may lie inside another child.
-/

namespace MarkupSelect

/-- The start tag of a child lies in the region. -/
theorem Region.holds_startTag {r : Region} {child : Child} (h : child ∈ r.children) :
    r.Holds (child.offset, child.startTag) := by
  obtain ⟨i, tag, hoffset, htag, hstart, -⟩ := mem_children h
  refine ⟨i, hoffset, ?_⟩
  rw [hstart]
  exact Bytes.standsAt_of_prefix_drop (Element.offset_le_of_ofMarkup? htag)
    (StartTag.text_prefix_of_ofMarkup? htag)

namespace Plan

variable {plan : Plan} {r : Region}

/-- What a plan tests in a part of a region it tests in the region. -/
theorem Offers.of_holds {part : Region} {e : Nat × Bytes}
    (h : r.Holds (part.base, part.text)) (ho : plan.Offers part e) : plan.Offers r e := by
  cases plan with
  | tag name => exact Region.tagsNamed_of_holds h ho
  | tagUnder name c => exact Region.tagsNamed_of_holds h ho
  | id value => exact Region.tagsWith_of_holds h ho
  | classes words => exact Region.tagsWith_of_holds h ho
  | condition c =>
    obtain ⟨field, hfield, ho⟩ := ho
    exact ⟨field, hfield, Region.tagsWith_of_holds h ho⟩

/-- A child whose start tag is found by itself is found anywhere in the region. -/
theorem mem_descendants_of_contains (hid : ∀ value, plan ≠ .id value) {child : Child}
    (hchild : child ∈ r.children)
    (h : (plan.search ⟨child.offset, child.startTag⟩).contains child.offset = true) :
    (child.offset, child.element) ∈ plan.descendants r := by
  obtain ⟨hoffer, haccept⟩ := mem_search (mem_search_of_contains hchild h)
  have hfound := mem_search_of_accepts hid (hoffer.of_holds (Region.holds_startTag hchild)) haccept
  obtain ⟨i, tag, hoffset, -, hstart, helement⟩ := Region.mem_children hchild
  have hi : child.offset - r.base = i := by omega
  apply List.mem_map.mpr
  refine ⟨_, hfound, ?_⟩
  rw [hi, hstart, helement]

end Plan

namespace Step

variable {s : Step} {r : Region} {e : Nat × Bytes}

/-- In one region a step selects what its plan hits there. -/
theorem mem_select_singleton_iff :
    e ∈ (s.select [r]).entries ↔ ∃ plan, Plan.ofStep? s = some plan ∧
      e ∈ hitsIn plan s.combinator r := by
  unfold select
  split
  · next hnone => simp [hnone]
  · next plan hplan =>
    rw [List.flatMap_singleton, Matches.mem_ofList_iff]
    · simp [hplan]
    · intro a ha b hb hab
      exact (isResolvedIn_of_mem_hitsIn ha).eq_of_offset (isResolvedIn_of_mem_hitsIn hb) hab

/-- Among the children of a region a step selects those whose start tag is found by itself. -/
theorem mem_select_child_iff :
    e ∈ ({ s with combinator := .child }.select [r]).entries ↔
      ∃ plan, Plan.ofStep? s = some plan ∧ ∃ child ∈ r.children,
        (plan.search ⟨child.offset, child.startTag⟩).contains child.offset = true ∧
          e = (child.offset, child.element) := by
  rw [mem_select_singleton_iff]
  apply exists_congr
  intro plan
  apply and_congr_right
  intro _
  rw [hitsIn, List.mem_map]
  apply exists_congr
  intro child
  rw [List.mem_filter, and_assoc, @eq_comm _ e]

/-- The plan of a step that does not ask for an identifier alone does not search for one. -/
theorem ne_id_of_ofStep? {plan : Plan} (hplan : Plan.ofStep? s = some plan)
    (hid : s.tag = none → ∀ value, s.predicates ≠ [⟨"id", .equals, value⟩]) (value : String) :
    plan ≠ .id value := by
  rintro rfl
  cases Plan.of_ofStep? hplan with
  | @id p htag hpreds hident =>
    obtain ⟨hname, hoperator⟩ := Plan.name_operator_of_isIdentifier hident
    apply hid htag p.value
    rw [hpreds, ← hname, ← hoperator]

/-- In every region a step selects among the children exactly those whose start tag its plan finds
by itself at its offset, and all of them are with the same offset and the same markup among the
descendants that it selects, unless it asks for an identifier alone. -/
theorem select_child_subset (s : Step)
    (hid : s.tag = none → ∀ value, s.predicates ≠ [⟨"id", .equals, value⟩]) (r : Region) :
    (∀ e, e ∈ ({ s with combinator := .child }.select [r]).entries ↔
      ∃ plan, Plan.ofStep? s = some plan ∧ ∃ child ∈ r.children,
        (plan.search ⟨child.offset, child.startTag⟩).contains child.offset = true ∧
          e = (child.offset, child.element)) ∧
      ∀ e ∈ ({ s with combinator := .child }.select [r]).entries,
        e ∈ ({ s with combinator := .descendant }.select [r]).entries := by
  constructor
  · exact fun e ↦ mem_select_child_iff
  · intro e he
    obtain ⟨plan, hplan, child, hmem, hfound, rfl⟩ := mem_select_child_iff.mp he
    rw [mem_select_singleton_iff]
    exact ⟨plan, hplan, Plan.mem_descendants_of_contains (ne_id_of_ofStep? hplan hid) hmem hfound⟩

/-- A child is found although the name of the attribute stands in a value of the child before it as
well, and in an element inside that one. -/
theorem select_child_subset_class :
    let s : Step := ⟨none, .child, [⟨"class", .anyWord, "a"⟩, ⟨"id", .present, ""⟩]⟩
    let r : Region :=
      ⟨7, Bytes.ofString "<i title=' class'><b id class=a>x</b></i> < <P CLASS='a b' id>y</p>"⟩
    let e : Nat × Bytes := (51, Bytes.ofString "<P CLASS='a b' id>y</p>")
    (s.tag = none → ∀ value, s.predicates ≠ [⟨"id", .equals, value⟩]) ∧
      e ∈ ({ s with combinator := .child }.select [r]).entries ∧
      e ∈ ({ s with combinator := .descendant }.select [r]).entries := by
  intro s r e
  have hid : s.tag = none → ∀ value, s.predicates ≠ [⟨"id", .equals, value⟩] := by
    intro _ value
    simp [s]
  have he : e ∈ ({ s with combinator := .child }.select [r]).entries := by decide +kernel
  exact ⟨hid, he, (select_child_subset s hid r).2 e he⟩

/-- The search for an identifier ends at the first, which need not be a child. -/
example :
    let r : Region := ⟨0, Bytes.ofString "<b><i id=x></i></b><u id=x></u>"⟩
    let predicates : List Predicate := [⟨"id", .equals, "x"⟩]
    ((Step.mk none .child predicates).select [r]).offsets = [19] ∧
      ((Step.mk none .descendant predicates).select [r]).offsets = [3] := by
  decide +kernel

end Step

end MarkupSelect
