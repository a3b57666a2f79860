import MarkupSelect.Proofs.Attribute.LetterCase
import MarkupSelect.Proofs.Condition.Anchors
import MarkupSelect.Proofs.Locate.Found

/-!
# Searches by anchors

A search for a condition comes upon the start tags that carry one of its anchors, whichever anchor
that is and however often it stands there, and keeps each of which the condition holds. So the order
of the groups does not matter to it.
-/

namespace MarkupSelect.Region

variable {r : Region} {c d : Condition} {e : Nat × Bytes}

/-- A search for a condition finds the start tags of known elements that carry a valid anchor and of
which the condition holds. -/
theorem mem_findCondition_iff_carries :
    e ∈ (r.findCondition c).entries ↔
      ∃ i tag, e = (r.absolute i, StartTag.text tag) ∧
        StartTag.ofMarkup? (r.text.drop i) = some tag ∧ Tag.isKnown tag.name = true ∧
          (∃ field ∈ c.anchors, Attribute.isName (Bytes.ofString field) = true ∧
            tag.Carries (Bytes.ofString field)) ∧
          c.evaluate (AttributeMap.ofMarkupValid tag.text) = true := by
  rw [mem_findCondition_iff]
  constructor
  · rintro ⟨⟨field, hfield, hmem⟩, hholds⟩
    obtain ⟨hname, i, tag, rfl, htag, hknown, hcarries⟩ := mem_tagsWith_iff_carries.mp hmem
    exact ⟨i, tag, rfl, htag, hknown, ⟨field, hfield, hname, hcarries⟩, hholds⟩
  · rintro ⟨i, tag, rfl, htag, hknown, ⟨field, hfield, hname, hcarries⟩, hholds⟩
    exact ⟨⟨field, hfield, mem_tagsWith_iff_carries.mpr ⟨hname, i, tag, rfl, htag, hknown,
      hcarries⟩⟩, hholds⟩

/-- Conditions with the same groups in another order find the same. -/
theorem findCondition_of_perm (h : c.groups.Perm d.groups) :
    r.findCondition d = r.findCondition c := by
  apply Matches.ext_mem
  intro e
  simp only [mem_findCondition_iff, Condition.mem_anchors_of_perm h, Condition.evaluate_of_perm h]

/-- Searching by anchors is filtering all candidates. Attributes of which a condition with groups
holds include one of its anchors; a search finds exactly the start tags of known elements that carry
a valid anchor and of which the condition holds; and it does not depend on the order of the
groups. -/
theorem findCondition_exact (hc : c.IsFormed) (r : Region) :
    (∀ attributes : AttributeMap, c.isEmpty = false → c.evaluate attributes = true →
      ∃ field ∈ c.anchors, attributes.contains (Bytes.ofString field) = true) ∧
    (∀ e, e ∈ (r.findCondition c).entries ↔
      ∃ i tag, e = (r.absolute i, StartTag.text tag) ∧
        StartTag.ofMarkup? (r.text.drop i) = some tag ∧ Tag.isKnown tag.name = true ∧
          (∃ field ∈ c.anchors, Attribute.isName (Bytes.ofString field) = true ∧
            tag.Carries (Bytes.ofString field)) ∧
          c.evaluate (AttributeMap.ofMarkupValid tag.text) = true) ∧
    ∀ d : Condition, c.groups.Perm d.groups → r.findCondition d = r.findCondition c :=
  ⟨fun _ hne hholds ↦ hc.exists_anchor hne hholds, fun _ ↦ mem_findCondition_iff_carries,
    fun _ h ↦ findCondition_of_perm h⟩

/-- The condition is read from a text with two groups; the second is met by the tag in the middle,
and the tag at the end has another identifier. -/
theorem findCondition_exact_read :
    let c : Condition :=
      ⟨[[⟨"id", .equals, "1"⟩, ⟨"class", .present, ""⟩], [⟨"title", .present, ""⟩]]⟩
    let d : Condition :=
      ⟨[[⟨"title", .present, ""⟩], [⟨"id", .equals, "1"⟩, ⟨"class", .present, ""⟩]]⟩
    let r : Region := ⟨5, Bytes.ofString "<p id=1 class><a title=id><b class id=1><i id=2 class>"⟩
    let tag : StartTag := ⟨Bytes.ofString "a", Bytes.ofString " title=id"⟩
    (Condition.read "id=1 AND class OR title" = .ok c ∧ c.isEmpty = false ∧
      c.evaluate (AttributeMap.ofMarkupValid tag.text) = true ∧ c.groups.Perm d.groups) ∧
      (∃ field ∈ c.anchors,
        (AttributeMap.ofMarkupValid tag.text).contains (Bytes.ofString field) = true) ∧
      (19, tag.text) ∈ (r.findCondition c).entries ∧ r.findCondition d = r.findCondition c := by
  intro c d r tag
  have hread : Condition.read "id=1 AND class OR title" = .ok c := by decide +kernel
  have hholds : c.evaluate (AttributeMap.ofMarkupValid tag.text) = true := by decide +kernel
  have hperm : c.groups.Perm d.groups := .swap _ _ _
  have hcarries : tag.Carries (Bytes.ofString "title") :=
    ⟨[], Ascii.space, Bytes.ofString "title=id", by decide, by decide, by decide, by decide,
      by decide⟩
  obtain ⟨hanchor, hfound, horder⟩ := findCondition_exact (.read hread) r
  refine ⟨⟨hread, rfl, hholds, hperm⟩, hanchor _ rfl hholds, ?_, horder d hperm⟩
  apply (hfound _).mpr
  exact ⟨14, tag, by decide, by decide, by decide, ⟨"title", by decide, by decide, hcarries⟩,
    hholds⟩

/-! ### The order of the atoms -/

/-- In a region the attributes that a condition asks for are set apart: in a start tag of a known
element of which a group holds, each field of the group follows white space. -/
def SetsApart (r : Region) (c : Condition) : Prop :=
  ∀ i tag, StartTag.ofMarkup? (r.text.drop i) = some tag → Tag.isKnown tag.name = true →
    ∀ group ∈ c.groups,
      (∀ a ∈ group, a.evaluate (AttributeMap.ofMarkupValid tag.text) = true) →
        ∀ a ∈ group, tag.Spaces (Bytes.ofString a.field)

/-- The field of an atom that holds of a tag is a valid name. -/
theorem isName_of_evaluate {a : Atom} {markup : Bytes}
    (h : a.evaluate (AttributeMap.ofMarkupValid markup) = true) :
    Attribute.isName (Bytes.ofString a.field) = true := by
  obtain ⟨d, hd, hagree⟩ := List.any_eq_true.mp (Condition.contains_of_evaluate h)
  rw [AttributeMap.ofMarkupValid, AttributeMap.entries_retain, List.mem_filter] at hd
  rw [← Attribute.isName_lower, ← Bytes.agree_iff.mp hagree, Attribute.isName_lower]
  exact hd.2

private theorem mem_findCondition_of_reordered (hc : ∀ group ∈ c.groups, group ≠ [])
    (hplain : c.OpensPlain) (hapart : r.SetsApart c) (h : c.Reordered d)
    (he : e ∈ (r.findCondition c).entries) : e ∈ (r.findCondition d).entries := by
  obtain ⟨i, tag, rfl, htag, hknown, ⟨field, hfield, hname, hcarries⟩, hholds⟩ :=
    mem_findCondition_iff_carries.mp he
  obtain ⟨first, rest, hmem, rfl⟩ := Condition.mem_anchors_iff.mp hfield
  -- The tag is offered for a name without `<`, so its attribute list holds none.
  have hless : Ascii.less ∉ tag.attributes := by
    apply hcarries.less_not_mem
    · rintro hnil
      rw [hnil] at hname
      contradiction
    · exact hplain _ hmem first List.mem_cons_self
  have hne : c.isEmpty = false := List.isEmpty_eq_false_iff_exists_mem.mpr ⟨_, hmem⟩
  obtain ⟨group, hgroup, hall⟩ := (Condition.evaluate_iff hne).mp hholds
  obtain ⟨other, hother, hperm⟩ := h.symm.exists_perm hgroup
  obtain ⟨a, others, rfl⟩ : ∃ a others, other = a :: others := by
    apply List.exists_cons_of_ne_nil
    rintro rfl
    exact hc group hgroup hperm.nil_eq.symm
  have ha : a ∈ group := hperm.mem_iff.mp List.mem_cons_self
  have hspaces := hapart i tag htag hknown group hgroup hall a ha
  apply mem_findCondition_iff_carries.mpr
  refine ⟨i, tag, rfl, htag, hknown, ⟨a.field, ?_, ?_, hspaces.carries hless⟩, ?_⟩
  · exact Condition.mem_anchors_iff.mpr ⟨a, others, hother, rfl⟩
  · exact isName_of_evaluate (hall a ha)
  · rw [← h.evaluate_eq]
    exact hholds

/-- Where the attributes that a condition asks for are set apart, and no field begins with a `<`,
the order of the atoms in a group does not matter to the search. -/
theorem findCondition_of_reordered (hc : c.IsFormed) (hplain : c.OpensPlain)
    (hapart : r.SetsApart c) (h : c.Reordered d) : r.findCondition d = r.findCondition c := by
  have hd : ∀ group ∈ d.groups, group ≠ [] := by
    rintro _ hgroup rfl
    obtain ⟨other, hother, hperm⟩ := h.exists_perm hgroup
    exact hc.ne_nil other hother hperm.eq_nil
  have hplain' : d.OpensPlain := by
    intro group hgroup a ha
    obtain ⟨other, hother, hperm⟩ := h.exists_perm hgroup
    exact hplain other hother a (hperm.mem_iff.mpr ha)
  have hapart' : r.SetsApart d := by
    intro i tag htag hknown group hgroup hall a ha
    obtain ⟨other, hother, hperm⟩ := h.exists_perm hgroup
    apply hapart i tag htag hknown other hother _ a (hperm.mem_iff.mpr ha)
    exact fun b hb ↦ hall b (hperm.mem_iff.mp hb)
  apply Matches.ext_mem
  intro e
  exact ⟨mem_findCondition_of_reordered hd hplain' hapart' h.symm,
    mem_findCondition_of_reordered hc.ne_nil hplain hapart h⟩

end MarkupSelect.Region
