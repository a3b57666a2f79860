import MarkupSelect.Proofs.Element.Nesting

/-!
# Elements in their places

Whatever is cut out of a region, a child, the content of an element or an element expanded from its
start tag, stands in the region as far from its beginning as the offset says. This holds of every
text, whether its tags are balanced or not.
-/

namespace MarkupSelect

/-- An entry lies in a region: its markup stands there, as far behind the base as its offset
says. -/
def Region.Holds (r : Region) (e : Nat × Bytes) : Prop :=
  ∃ i, e.1 = r.base + i ∧ e.2.StandsAt i r.text

/-- A region in which another one lies, holds what the other holds. -/
theorem Region.Holds.trans {r inner : Region} {e : Nat × Bytes}
    (h : r.Holds (inner.base, inner.text)) (he : inner.Holds e) : r.Holds e := by
  obtain ⟨i, hbase, hi⟩ := h
  obtain ⟨j, hoffset, hj⟩ := he
  dsimp only at hbase hi
  exact ⟨i + j, by omega, hj.trans hi⟩

/-- What lies in a region ends inside it. -/
theorem Region.Holds.length_le {r : Region} {e : Nat × Bytes} (h : r.Holds e) :
    r.base ≤ e.1 ∧ e.1 + e.2.length ≤ r.base + r.text.length := by
  obtain ⟨i, hoffset, hi⟩ := h
  have := hi.length_le
  omega

/-- In a whole document an entry lies at its offset. -/
theorem Region.holds_whole {document : Bytes} {e : Nat × Bytes} :
    (Region.whole document).Holds e ↔ e.2.StandsAt e.1 document := by
  constructor
  · rintro ⟨i, hoffset, hi⟩
    rw [hoffset, Region.whole, Nat.zero_add]
    exact hi
  · exact fun h ↦ ⟨e.1, by simp [Region.whole], h⟩

namespace Element

/-- A markup as elements have it: it begins with a start tag and ends with a `>`. -/
structure IsMarkup (markup : Bytes) : Prop where
  startTag : (StartTag.ofMarkup? markup).isSome
  closed : markup.getLast? = some Ascii.greater

/-- A start tag begins inside its text. -/
theorem offset_le_of_ofMarkup? {text : Bytes} {offset : Nat} {tag : StartTag}
    (h : StartTag.ofMarkup? (text.drop offset) = some tag) : offset ≤ text.length := by
  refine Nat.le_of_not_lt fun hlt ↦ ?_
  rw [List.drop_of_length_le (Nat.le_of_lt hlt)] at h
  simp [StartTag.ofMarkup?] at h

/-- An element stands where its start tag stands. -/
theorem standsAt_expand {text : Bytes} {offset : Nat} {tag : StartTag}
    (h : StartTag.ofMarkup? (text.drop offset) = some tag) :
    (expand text offset tag.text).StandsAt offset text :=
  Bytes.standsAt_of_prefix_drop (offset_le_of_ofMarkup? h) (List.take_prefix _ _)

/-- An element begins with the start tag that it was expanded from. -/
theorem ofMarkup?_expand {text : Bytes} {offset : Nat} {tag : StartTag}
    (h : StartTag.ofMarkup? (text.drop offset) = some tag) :
    StartTag.ofMarkup? (expand text offset tag.text) = some tag := by
  refine StartTag.ofMarkup?_of_prefix h ?_
  refine List.prefix_of_prefix_length_le (StartTag.text_prefix_of_ofMarkup? h)
    (List.take_prefix _ _) ?_
  have hbounds := extent_bounds h
  rw [expand, List.length_take, Nat.min_eq_left hbounds.2]
  exact hbounds.1

/-- An element begins with its start tag and ends with a `>`. -/
theorem isMarkup_expand {text : Bytes} {offset : Nat} {tag : StartTag}
    (h : StartTag.ofMarkup? (text.drop offset) = some tag) :
    IsMarkup (expand text offset tag.text) := by
  refine ⟨by rw [ofMarkup?_expand h, Option.isSome_some], ?_⟩
  obtain ⟨lead, rest, hsplit, he, -⟩ := exists_extent_eq h
  have hcut : (lead ++ Ascii.greater :: rest).take (lead.length + 1) = lead ++ [Ascii.greater] := by
    rw [List.take_length_add_append]
    rfl
  rw [expand, he, hsplit, hcut, List.getLast?_concat]

/-- The element at an offset of a document stands there. -/
theorem at?_eq_some {document : Bytes} {offset : Nat} {markup : Bytes}
    (h : at? document offset = some markup) :
    markup.StandsAt offset document ∧ IsMarkup markup := by
  obtain ⟨tag, htag, rfl⟩ := Option.map_eq_some_iff.mp h
  exact ⟨standsAt_expand htag, isMarkup_expand htag⟩

end Element

/-! ### Children -/

private theorem Child.mem_inText {skip position : Nat} {text : Bytes} {child : Child}
    (h : child ∈ Child.inText skip position text) :
    ∃ i tag, child.offset = position + i ∧ StartTag.ofMarkup? (text.drop i) = some tag ∧
      child.startTag = tag.text ∧ child.element = Element.expand text i tag.text := by
  induction text generalizing skip position with
  | nil => simp [inText] at h
  | cons b text ih =>
    have hlater : ∀ skip, child ∈ inText skip (position + 1) text →
        ∃ i tag, child.offset = position + i ∧ StartTag.ofMarkup? ((b :: text).drop i) = some tag ∧
          child.startTag = tag.text ∧ child.element = Element.expand (b :: text) i tag.text := by
      intro skip hmem
      obtain ⟨i, tag, hoffset, htag, hstart, helement⟩ := ih hmem
      exact ⟨i + 1, tag, by omega, htag, hstart, helement⟩
    cases skip with
    | succ skip => exact hlater skip h
    | zero =>
      rw [inText] at h
      split at h
      · split at h
        next => simp at h
        next tag htag =>
          rcases List.mem_cons.mp h with rfl | h
          · exact ⟨0, tag, rfl, htag, rfl, rfl⟩
          · exact hlater _ h
      · exact hlater 0 h

/-- A child is the element of a start tag in the region. -/
theorem Region.mem_children {r : Region} {child : Child} (h : child ∈ r.children) :
    ∃ i tag, child.offset = r.base + i ∧ StartTag.ofMarkup? (r.text.drop i) = some tag ∧
      child.startTag = tag.text ∧ child.element = Element.expand r.text i tag.text :=
  Child.mem_inText h

/-! ### Elements of a region -/

namespace Element

/-- An entry is an element of a region: it is resolved inside the region from a start tag there. -/
def IsResolvedIn (r : Region) (e : Nat × Bytes) : Prop :=
  ∃ i tag, StartTag.ofMarkup? (r.text.drop i) = some tag ∧
    e = (r.absolute i, expand r.text i tag.text)

/-- An element of a region lies there. -/
theorem IsResolvedIn.holds {r : Region} {e : Nat × Bytes} (h : IsResolvedIn r e) : r.Holds e := by
  obtain ⟨i, tag, htag, rfl⟩ := h
  exact ⟨i, rfl, standsAt_expand htag⟩

/-- At an offset of a region one element is resolved. -/
theorem IsResolvedIn.eq_of_offset {r : Region} {d e : Nat × Bytes} (hd : IsResolvedIn r d)
    (he : IsResolvedIn r e) (h : d.1 = e.1) : d = e := by
  obtain ⟨i, tag, htag, rfl⟩ := hd
  obtain ⟨j, other, hother, rfl⟩ := he
  have hij : i = j := Nat.add_left_cancel h
  subst hij
  rw [htag] at hother
  rw [Option.some.inj hother]

/-- An element of a region begins with a start tag and ends with a `>`. -/
theorem IsResolvedIn.isMarkup {r : Region} {e : Nat × Bytes} (h : IsResolvedIn r e) :
    IsMarkup e.2 := by
  obtain ⟨i, tag, htag, rfl⟩ := h
  exact isMarkup_expand htag

/-- A child is an element of its region. -/
theorem isResolvedIn_of_mem_children {r : Region} {child : Child} (h : child ∈ r.children) :
    IsResolvedIn r (child.offset, child.element) := by
  obtain ⟨i, tag, hoffset, htag, -, helement⟩ := Region.mem_children h
  exact ⟨i, tag, htag, by rw [hoffset, helement, Region.absolute]⟩

end Element

/-! ### Content -/

/-- The parts of a markup are what it consists of, and the first is its start tag. -/
theorem Parts.ofMarkup?_eq_some {markup : Bytes} {parts : Parts}
    (h : Parts.ofMarkup? markup = some parts) :
    (∃ tag, StartTag.ofMarkup? markup = some tag ∧ parts.startTag = tag.text) ∧
      markup = parts.join := by
  unfold Parts.ofMarkup? at h
  split at h
  next => simp at h
  next tag htag =>
    split at h
    next => simp at h
    next position _ =>
      split at h
      next => simp at h
      next hle =>
        obtain rfl := Option.some.inj h
        refine ⟨⟨tag, htag, rfl⟩, ?_⟩
        obtain ⟨rest, rfl⟩ := StartTag.text_prefix_of_ofMarkup? htag
        have hdrop : (tag.text ++ rest).drop tag.length = rest := List.drop_left
        obtain ⟨k, hk⟩ := Nat.exists_eq_add_of_le (Nat.le_of_not_lt hle)
        have hend : (tag.text ++ rest).drop position = rest.drop k := by
          rw [hk, ← List.drop_drop, hdrop]
        rw [Parts.join, hdrop, hend, hk, Nat.add_sub_cancel_left, List.append_assoc,
          List.take_append_drop]

/-- The content of an element lies in what the element lies in. -/
theorem Region.holds_content {r content : Region} {e : Nat × Bytes}
    (h : Region.content? e.1 e.2 = some content) (he : r.Holds e) :
    r.Holds (content.base, content.text) := by
  obtain ⟨parts, hparts, rfl⟩ := Option.map_eq_some_iff.mp h
  obtain ⟨-, hjoin⟩ := Parts.ofMarkup?_eq_some hparts
  obtain ⟨i, hoffset, hi⟩ := he
  have hstands : parts.content.StandsAt parts.startTag.length e.2 :=
    ⟨parts.startTag, parts.endTag, hjoin, rfl⟩
  exact ⟨i + parts.startTag.length, by dsimp only; omega, hstands.trans hi⟩

end MarkupSelect
