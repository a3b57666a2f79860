import MarkupSelect.Proofs.Forest.Written
import MarkupSelect.Proofs.Locate.Candidates

/-!
# The start tags in a rendering

Every `<` of a rendering opens a node or an end tag. So the start tags that can be found in the
rendering of a forest are those of its nodes, each at its offset, and the search for a name comes
upon those of the nodes of that name.
-/

namespace MarkupSelect

namespace StartTag

variable {tag : StartTag}

/-- Behind its first byte a plain tag holds no `<`. -/
theorem IsPlain.less_not_mem_text (h : tag.IsPlain) :
    Ascii.less ∉ tag.name ++ tag.attributes ++ [Ascii.greater] := by
  have hname : Ascii.less ∉ tag.name := h.isProper.not_mem_name (by decide)
  simp only [List.mem_append, List.mem_singleton, not_or]
  exact ⟨⟨hname, h.less_not_mem⟩, by decide⟩

/-- Behind its first byte the end tag holds no `<`. -/
theorem IsPlain.less_not_mem_endTag (h : tag.IsPlain) :
    Ascii.less ∉ Ascii.slash :: (tag.name ++ [Ascii.greater]) := by
  have hname : Ascii.less ∉ tag.name := h.isProper.not_mem_name (by decide)
  simp only [List.mem_cons, List.mem_append, List.not_mem_nil, or_false, not_or]
  exact ⟨by decide, hname, by decide⟩

/-- A plain tag is found where it stands. -/
theorem IsPlain.ofMarkup?_of_prefix (h : tag.IsPlain) {text : Bytes} (hstart : tag.text <+: text) :
    ofMarkup? text = some tag := ofMarkup?_eq_some_iff.mpr ⟨h.isProper, hstart⟩

end StartTag

private theorem eq_nil_of_less {rest before after : Bytes} (h : Ascii.less ∉ rest)
    (hsplit : Ascii.less :: rest = before ++ Ascii.less :: after) : before = [] ∧ after = rest := by
  cases before with
  | nil => exact ⟨rfl, ((List.cons.inj hsplit).2).symm⟩
  | cons b before =>
    have hrest : rest = before ++ Ascii.less :: after := (List.cons.inj hsplit).2
    rw [hrest] at h
    exact absurd (by simp) h

namespace Forest

variable {forest : Forest} {offset : Nat} {n : Node}

/-- A `<` of a rendering opens a node or stands in front of a `/`. -/
theorem exists_node_of_less (hw : forest.WellFormed) (offset : Nat) {before after : Bytes}
    (h : forest.render = before ++ Ascii.less :: after) :
    (∃ n ∈ forest.nodes offset, n.offset = offset + before.length) ∨
      after.head? = some Ascii.slash := by
  induction hw generalizing offset before after with
  | empty => exact absurd h (by simp [render])
  | text hcontent _ ih =>
    rw [render] at h
    rcases Bytes.append_eq_append_cons h with ⟨rest, hsplit, -⟩ | ⟨lead, hsplit, rfl⟩
    · rw [hsplit] at hcontent
      exact absurd (by simp) hcontent
    · rw [nodes, List.length_append, ← Nat.add_assoc]
      exact ih _ hsplit
  | @element tag children rest hwritten _ _ ihc ihr =>
    have htag := hwritten.tag_plain
    rw [render, hwritten.element_eq, List.append_assoc, List.append_assoc] at h
    rcases Bytes.append_eq_append_cons h with ⟨last, hsplit, -⟩ | ⟨lead, hsplit, rfl⟩
    · -- In the start tag.
      obtain ⟨rfl, -⟩ := eq_nil_of_less htag.less_not_mem_text hsplit
      exact .inl ⟨_, mem_nodes_element.mpr (.inl rfl), rfl⟩
    rcases Bytes.append_eq_append_cons hsplit with ⟨last, hchildren, rfl⟩ | ⟨lead', hsplit', rfl⟩
    · -- Among the children.
      rcases ihc (offset + tag.length) hchildren with ⟨n, hn, hoffset⟩ | hslash
      · refine .inl ⟨n, mem_nodes_element.mpr (.inr (.inl hn)), ?_⟩
        rw [hoffset, List.length_append, StartTag.length]
        omega
      · apply Or.inr
        rw [List.head?_append, hslash]
        rfl
    rcases Bytes.append_eq_append_cons hsplit' with ⟨last, hclosing, rfl⟩ | ⟨lead'', hrest, rfl⟩
    · -- In the end tag.
      apply Or.inr
      unfold StartTag.closing at hclosing
      split at hclosing
      · exact absurd hclosing (by simp)
      · obtain ⟨-, rfl⟩ := eq_nil_of_less htag.less_not_mem_endTag hclosing
        rfl
    · -- Behind the element.
      rcases ihr (offset + (tag.element children.render).length) hrest with
        ⟨n, hn, hoffset⟩ | hslash
      · refine .inl ⟨n, mem_nodes_element.mpr (.inr (.inr hn)), ?_⟩
        rw [hoffset, hwritten.element_eq]
        simp only [List.length_append]
        omega
      · exact .inr hslash

end Forest

namespace Region

variable {forest : Forest} {offset : Nat} {e : Nat × Bytes}

private theorem exists_split_of_ofMarkup? {text : Bytes} {i : Nat} {tag : StartTag}
    (h : StartTag.ofMarkup? (text.drop i) = some tag) :
    ∃ before after, text = before ++ Ascii.less :: after ∧ before.length = i ∧
      tag.name <+: after := by
  obtain ⟨rest, hrest⟩ := StartTag.text_prefix_of_ofMarkup? h
  refine ⟨text.take i, tag.name ++ (tag.attributes ++ [Ascii.greater] ++ rest), ?_,
    by simp [Element.offset_le_of_ofMarkup? h], List.prefix_append _ _⟩
  have hsplit := List.take_append_drop i text
  rw [← hrest, StartTag.text] at hsplit
  simpa using hsplit.symm

/-- The start tags in the rendering of a forest are those of its nodes. -/
theorem starts_rendering_iff (hw : forest.WellFormed) :
    (rendering offset forest).Starts e ↔
      ∃ n ∈ forest.nodes offset, e = (n.offset, n.tag.text) := by
  have hfound : ∀ n ∈ forest.nodes offset, ∃ i, n.offset = offset + i ∧
      StartTag.ofMarkup? (forest.render.drop i) = some n.tag := by
    intro n hn
    obtain ⟨i, hoffset, hstands⟩ := holds_node hw hn
    refine ⟨i, hoffset, ?_⟩
    apply (hw.of_mem hn).written.tag_plain.ofMarkup?_of_prefix
    exact n.text_prefix.trans hstands.prefix_drop
  constructor
  · rintro ⟨i, tag, rfl, htag⟩
    obtain ⟨before, after, hsplit, rfl, hname⟩ := exists_split_of_ofMarkup? htag
    rcases Forest.exists_node_of_less hw offset hsplit with ⟨n, hn, hoffset⟩ | hslash
    · refine ⟨n, hn, ?_⟩
      obtain ⟨i, hi, hstart⟩ := hfound n hn
      obtain rfl : before.length = i := by omega
      have heq : some tag = some n.tag := htag.symm.trans hstart
      rw [Option.some.inj heq, hoffset]
      rfl
    · -- A start tag does not begin with `</`.
      have hproper := StartTag.isProper_of_ofMarkup? htag
      obtain ⟨b, name, hb⟩ := List.exists_cons_of_ne_nil hproper.name_ne_nil
      obtain ⟨rest, rfl⟩ := hname
      rw [hb] at hslash
      have hbyte : b = Ascii.slash := Option.some.inj hslash
      have hmem : b ∈ tag.name := by
        rw [hb]
        exact List.mem_cons_self
      exact absurd hmem (hproper.not_mem_name (by rw [hbyte]; decide))
  · rintro ⟨n, hn, rfl⟩
    obtain ⟨i, hi, hstart⟩ := hfound n hn
    exact ⟨i, n.tag, by rw [hi]; rfl, hstart⟩

/-- The one start tag in a plain start tag is itself. -/
theorem starts_text_iff {tag : StartTag} (htag : tag.IsPlain) :
    Starts ⟨offset, tag.text⟩ e ↔ e = (offset, tag.text) := by
  have hself := htag.ofMarkup?_of_prefix (List.prefix_refl _)
  constructor
  · rintro ⟨i, other, rfl, hother⟩
    obtain ⟨before, after, hsplit, rfl, -⟩ := exists_split_of_ofMarkup? hother
    obtain ⟨rfl, -⟩ := eq_nil_of_less htag.less_not_mem_text hsplit
    have heq : some tag = some other := hself.symm.trans hother
    rw [Option.some.inj heq]
    rfl
  · rintro rfl
    exact ⟨0, tag, rfl, hself⟩

/-- The search for a name comes upon the start tags of the nodes of that name. -/
theorem mem_tagsNamed_rendering_iff (hw : forest.WellFormed) {name : Bytes}
    (hname : name.lower = name) :
    e ∈ (rendering offset forest).tagsNamed name ↔
      ∃ n ∈ forest.nodes offset, n.tag.name = name ∧ e = (n.offset, n.tag.text) := by
  constructor
  · intro he
    obtain ⟨hstarts, hfound⟩ := mem_tagsNamed he
    obtain ⟨n, hn, rfl⟩ := (starts_rendering_iff hw).mp hstarts
    have htag := (hw.of_mem hn).written.tag_plain
    rw [StartTag.nameOf?, htag.ofMarkup?_of_prefix (List.prefix_refl _), Option.map_some,
      StartTag.lowerName, htag.name_plain.lower_eq, hname] at hfound
    exact ⟨n, hn, Option.some.inj hfound, rfl⟩
  · rintro ⟨n, hn, rfl, rfl⟩
    have htag := (hw.of_mem hn).written.tag_plain
    exact mem_tagsNamed_of_starts htag.isProper htag.less_not_mem htag.isSpace
      ((starts_rendering_iff hw).mpr ⟨n, hn, rfl⟩)

end Region

end MarkupSelect
