import MarkupSelect.Proofs.Element.Scope
import MarkupSelect.Proofs.Locate.Candidates

/-!
# Searches in a part of a region

What the nearest brackets tell of a place in a part of a text they tell of it in the whole text. So
a start tag that a search comes upon in a part of a region it comes upon in the region. The whole
may offer more: a tag is not seen in a part that ends in front of its `>`.
-/

namespace MarkupSelect

namespace Place

/-- A place in a part of a text as a place in the whole text. -/
def widen (lead rest : Bytes) (p : Place) : Place := ⟨p.before ++ lead.reverse, p.after ++ rest⟩

@[simp] theorem text_widen (lead rest : Bytes) (p : Place) :
    (p.widen lead rest).text = lead ++ p.text ++ rest := by
  simp [widen, text]

@[simp] theorem offset_widen (lead rest : Bytes) (p : Place) :
    (p.widen lead rest).offset = lead.length + p.offset := by
  rw [widen, offset, offset, List.length_append, List.length_reverse, Nat.add_comm]

private theorem opened_append_of_opened {next : UInt8} {before : Bytes}
    (h : opened next before = true) (more : Bytes) : opened next (before ++ more) = true := by
  induction before generalizing next with
  | nil => contradiction
  | cons b before ih =>
    rw [opened] at h
    rw [List.cons_append, opened]
    split at h
    · next hless =>
      rw [if_pos hless]
      exact h
    · next hless =>
      rw [if_neg hless]
      split at h
      · contradiction
      · next hgreater =>
        rw [if_neg hgreater]
        exact ih h

private theorem closed_append_of_closed {after : Bytes} (h : closed after = true) (more : Bytes) :
    closed (after ++ more) = true := by
  rw [closed_eq, beq_iff_eq] at h ⊢
  rw [List.find?_append, h, Option.some_or]

/-- A place that is inside a start tag in the part is so in the whole. -/
theorem insideStartTag_widen {p : Place} (h : p.insideStartTag = true) (lead rest : Bytes) :
    (p.widen lead rest).insideStartTag = true := by
  obtain ⟨before, after⟩ := p
  cases after with
  | nil => contradiction
  | cons b after =>
    rw [insideStartTag] at h
    rw [widen, insideStartTag]
    dsimp only at h ⊢
    rw [Bool.and_eq_true] at h
    rw [List.cons_append]
    dsimp only
    rw [opened_append_of_opened h.1, closed_append_of_closed h.2, Bool.and_self]

/-- The piece around a place in the part is the piece around it in the whole. -/
theorem enclosing?_widen {p : Place} {e : Nat × Bytes} (h : p.enclosing? = some e)
    (lead rest : Bytes) : (p.widen lead rest).enclosing? = some (lead.length + e.1, e.2) := by
  obtain ⟨front, before, back, after, hbefore, hfront, hafter, hback, rfl⟩ :=
    enclosing?_eq_some_iff.mp h
  rw [enclosing?_eq_some_iff]
  refine ⟨front, before ++ lead.reverse, back, after ++ rest, ?_, hfront, ?_, hback, ?_⟩
  · rw [widen, hbefore, List.append_assoc, List.cons_append]
  · rw [widen, hafter, List.append_assoc, List.cons_append]
  · rw [List.length_append, List.length_reverse, Nat.add_comm]

end Place

namespace Region

variable {name : Bytes} {p : Place}

/-- A place that begins a start tag in the part begins the same one in the whole. -/
theorem tagAt?_widen {tag : Bytes} (h : tagAt? name p = some tag) (lead rest : Bytes) :
    tagAt? name (p.widen lead rest) = some tag := by
  rw [tagAt?_eq_some_iff] at h ⊢
  obtain ⟨⟨b, hb, hends⟩, found, hproper, hless, hstart, rfl⟩ := h
  have hlt := (List.getElem?_eq_some_iff.mp hb).1
  refine ⟨⟨b, ?_, hends⟩, found, hproper, hless, hstart.trans (List.prefix_append _ _), rfl⟩
  rw [Place.widen, List.getElem?_append_left hlt, hb]

/-- The start tag around a place in the part is the one around it in the whole. -/
theorem tagAround?_widen {e : Nat × Bytes} (h : tagAround? p = some e) (lead rest : Bytes) :
    tagAround? (p.widen lead rest) = some (lead.length + e.1, e.2) := by
  unfold tagAround? at h ⊢
  rw [Option.ite_none_right_eq_some, Bool.and_eq_true, Option.filter_eq_some_iff] at h
  obtain ⟨⟨hspace, hinside⟩, henclosing, hknown⟩ := h
  have hhead : (p.widen lead rest).before.head?.any Ascii.isSpace = true := by
    dsimp only [Place.widen]
    cases hbefore : p.before with
    | nil =>
      rw [hbefore] at hspace
      contradiction
    | cons b before =>
      rw [hbefore] at hspace
      exact hspace
  rw [hhead, Place.insideStartTag_widen hinside, Bool.and_self, if_pos rfl,
    Place.enclosing?_widen henclosing]
  exact Option.filter_some_pos hknown

variable {r part : Region} {e : Nat × Bytes}

/-- The start tags of a name in a part of a region are start tags of that name in the region. -/
theorem tagsNamed_of_holds (h : r.Holds (part.base, part.text)) (he : e ∈ part.tagsNamed name) :
    e ∈ r.tagsNamed name := by
  obtain ⟨i, hbase, lead, rest, htext, rfl⟩ := h
  dsimp only at hbase htext
  obtain ⟨hname, p, hp, hb, tag, htag, rfl⟩ := mem_tagsNamed_iff.mp he
  rw [mem_tagsNamed_iff]
  refine ⟨hname, p.widen lead rest, ?_, ?_, tag, tagAt?_widen htag lead rest, ?_⟩
  · rw [Place.text_widen, hp, htext]
  · rw [Place.widen, Bytes.beginsWith_append (Bytes.length_le_of_beginsWith hb), hb]
  · rw [Place.offset_widen, absolute, absolute, hbase, Nat.add_assoc]

/-- The start tags with an attribute name in a part of a region are start tags with that name in the
region. -/
theorem tagsWith_of_holds (h : r.Holds (part.base, part.text)) (he : e ∈ part.tagsWith name) :
    e ∈ r.tagsWith name := by
  obtain ⟨i, hbase, lead, rest, htext, rfl⟩ := h
  dsimp only at hbase htext
  obtain ⟨hname, p, hp, hb, d, hd, rfl⟩ := mem_tagsWith_iff.mp he
  rw [mem_tagsWith_iff]
  refine ⟨hname, p.widen lead rest, ?_, ?_, _, tagAround?_widen hd lead rest, ?_⟩
  · rw [Place.text_widen, hp, htext]
  · rw [Place.widen, Bytes.beginsWith_append (Bytes.length_le_of_beginsWith hb), hb]
  · rw [absolute, absolute, hbase, Nat.add_assoc]

end Region

end MarkupSelect
