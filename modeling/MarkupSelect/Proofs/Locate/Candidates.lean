import MarkupSelect.Locate
import MarkupSelect.Proofs.Element.LetterCase
import MarkupSelect.Proofs.Tag
import MarkupSelect.Proofs.Text.Place

/-!
# The start tags that a search comes upon

Whatever a search offers to its filter is a start tag of the region, at its offset. A search by name
offers the tags of that name, a search by an attribute the tags of known elements that carry the
name: behind white space, with no bracket between them and the brackets of the tag.
-/

namespace MarkupSelect

/-! ### Names in an attribute list -/

/-- A name stands in the attribute list of a tag, in any letter case and behind white space. In the
list there is no `<` before it, and the first bracket behind its first byte is the `>` of the
tag. -/
def StartTag.Carries (tag : StartTag) (name : Bytes) : Prop :=
  ∃ lead s behind, tag.attributes = lead ++ s :: behind ∧ Ascii.isSpace s = true ∧
    Bytes.beginsWith name behind = true ∧ Ascii.less ∉ lead ∧ Ascii.less ∉ behind.drop 1

/-- A name stands in the attribute list of a tag, in any letter case and behind white space. -/
def StartTag.Spaces (tag : StartTag) (name : Bytes) : Prop :=
  ∃ lead s behind, tag.attributes = lead ++ s :: behind ∧ Ascii.isSpace s = true ∧
    Bytes.beginsWith name behind = true

/-- A tag whose attribute list holds no `<` carries every name that stands there behind white
space. -/
theorem StartTag.Spaces.carries {tag : StartTag} {name : Bytes} (h : tag.Spaces name)
    (hless : Ascii.less ∉ tag.attributes) : tag.Carries name := by
  obtain ⟨lead, s, behind, hattributes, hs, hb⟩ := h
  rw [hattributes, List.mem_append, List.mem_cons, not_or, not_or] at hless
  exact ⟨lead, s, behind, hattributes, hs, hb, hless.1,
    fun hmem ↦ hless.2.2 (List.mem_of_mem_drop hmem)⟩

/-- Only a name that begins with a `<` is carried by a tag whose attribute list holds a `<`. -/
theorem StartTag.Carries.less_not_mem {tag : StartTag} {name : Bytes} (h : tag.Carries name)
    (hne : name ≠ []) (hname : name.head? ≠ some Ascii.less) : Ascii.less ∉ tag.attributes := by
  obtain ⟨lead, s, behind, hattributes, hs, hb, hlead, hbehind⟩ := h
  obtain ⟨written, rest, rfl, hwritten⟩ := Bytes.beginsWith_iff_exists.mp hb
  obtain ⟨b, others, rfl⟩ := List.exists_cons_of_ne_nil hne
  cases written with
  | nil => contradiction
  | cons w written =>
    have hw : w ≠ Ascii.less := by
      rintro rfl
      have hlower := (List.cons.inj hwritten).1
      rw [(Ascii.toLower_eq_iff rfl).mpr rfl, eq_comm, Ascii.toLower_eq_iff rfl] at hlower
      exact hname (congrArg some hlower)
    rw [hattributes, List.mem_append, List.mem_cons, List.cons_append, List.mem_cons]
    rintro (hmem | rfl | rfl | hmem)
    · exact hlead hmem
    · contradiction
    · exact hw rfl
    · exact hbehind hmem

/-! ### By the name of the tag -/

/-- The tag that begins with `<` and a name, behind which the name ends, is a tag of that name. -/
theorem StartTag.lowerName_of_beginsWith {name text : Bytes} {tag : StartTag}
    (hname : name.all Tag.isNameByte = true)
    (hb : Bytes.beginsWith (Element.openLiteral name) text = true)
    (hends : ∀ b ∈ (text.drop (Element.openLiteral name).length).head?, Tag.isNameByte b = false)
    (htag : StartTag.ofMarkup? text = some tag) : tag.lowerName = name.lower := by
  obtain ⟨lead, rest, rfl, hlead⟩ := Bytes.beginsWith_iff_exists.mp hb
  have hlen : lead.length = (Element.openLiteral name).length := by
    simpa using congrArg List.length hlead
  rw [← hlen, List.drop_left] at hends
  cases lead with
  | nil => simp [Element.openLiteral] at hlen
  | cons b lead =>
    have hcons := List.cons.inj hlead
    obtain rfl : b = Ascii.less := (Ascii.toLower_eq_iff rfl).mp (hcons.1.trans (by decide))
    have hagree : Bytes.lower lead = name.lower := hcons.2
    have hbytes := Tag.all_isNameByte_of_lower hagree.symm hname
    have hfound : tag.name = lead := by
      rw [StartTag.name_of_ofMarkup? htag]
      exact (Bytes.takeWhile_append_of_head hbytes hends).1
    rw [StartTag.lowerName, hfound, hagree]

namespace Region

/-- A start tag of a region, with its offset in the document. -/
def Starts (r : Region) (e : Nat × Bytes) : Prop :=
  ∃ i tag, e = (r.absolute i, StartTag.text tag) ∧ StartTag.ofMarkup? (r.text.drop i) = some tag

/-- At an offset begins one start tag. -/
theorem Starts.eq_of_offset {r : Region} {d e : Nat × Bytes} (hd : r.Starts d) (he : r.Starts e)
    (h : d.1 = e.1) : d = e := by
  obtain ⟨i, tag, rfl, htag⟩ := hd
  obtain ⟨j, tag', rfl, htag'⟩ := he
  have hij : i = j := Nat.add_left_cancel h
  subst hij
  rw [htag] at htag'
  rw [Option.some.inj htag']

/-- Exactly the start tags of a name are offered whose name ends at white space or `>` and whose `<`
the nearest brackets tell to open a start tag. -/
theorem mem_tagsNamed_iff {r : Region} {name : Bytes} {e : Nat × Bytes} :
    e ∈ r.tagsNamed name ↔
      (name ≠ [] ∧ name.all Tag.isNameByte = true) ∧
        ∃ p : Place, p.text = r.text ∧ Bytes.beginsWith (Element.openLiteral name) p.after = true ∧
          ∃ tag, tagAt? name p = some tag ∧ e = (r.absolute p.offset, tag) := by
  unfold tagsNamed
  split
  · next h =>
    rw [Bool.or_eq_true, List.isEmpty_iff, Bool.not_eq_true'] at h
    constructor
    · intro hmem
      simp at hmem
    · rintro ⟨⟨hne, hall⟩, -⟩
      rcases h with h | h
      · exact absurd h hne
      · rw [h] at hall
        contradiction
  · next h =>
    rw [Bool.or_eq_true, List.isEmpty_iff, Bool.not_eq_true', not_or, Bool.not_eq_false] at h
    have hless : Ascii.less ∉ name := by
      intro hmem
      have := List.all_eq_true.mp h.2 _ hmem
      contradiction
    simp only [List.mem_filterMap, Option.map_eq_some_iff, Element.openLiteral,
      Place.mem_all_less_iff hless]
    constructor
    · rintro ⟨p, ⟨htext, hb⟩, tag, htag, he⟩
      exact ⟨h, p, htext, hb, tag, htag, he.symm⟩
    · rintro ⟨-, p, htext, hb, tag, htag, he⟩
      exact ⟨p, ⟨htext, hb⟩, tag, htag, he.symm⟩

/-- What is offered for a name is a start tag of the region, and has that name. -/
theorem mem_tagsNamed {r : Region} {name : Bytes} {e : Nat × Bytes} (h : e ∈ r.tagsNamed name) :
    r.Starts e ∧ StartTag.nameOf? e.2 = some name.lower := by
  obtain ⟨⟨-, hname⟩, p, htext, hb, text, htag, rfl⟩ := mem_tagsNamed_iff.mp h
  unfold tagAt? at htag
  dsimp only at htag
  rw [Option.ite_none_right_eq_some, Bool.and_eq_true] at htag
  obtain ⟨⟨hends, -⟩, hstart⟩ := htag
  obtain ⟨tag, hfound, rfl⟩ := Option.map_eq_some_iff.mp hstart
  refine ⟨⟨p.offset, tag, rfl, ?_⟩, ?_⟩
  · rw [← htext, Place.drop_offset, hfound]
  · rw [StartTag.nameOf?, StartTag.ofMarkup?_text hfound, Option.map_some]
    apply congrArg some
    apply StartTag.lowerName_of_beginsWith hname hb _ hfound
    intro b hmem
    rw [Option.mem_def.mp hmem, Option.any_some, Bool.or_eq_true, beq_iff_eq] at hends
    rcases hends with hspace | rfl
    · exact Tag.isNameByte_of_isSpace hspace
    · decide

/-! ### By the name of an attribute -/

/-- White space is no part of an attribute name. -/
theorem isSpace_eq_false_of_isNameByte {b : UInt8} (h : Attribute.isNameByte b = true) :
    Ascii.isSpace b = false := by
  simp only [Attribute.isNameByte, Bool.not_eq_true', Bool.or_eq_false_iff] at h
  exact h.2

/-- A search for an attribute name comes upon every place at which the name stands in a tag. -/
theorem mem_all_of_tagAround? {name : Bytes} (hname : Attribute.isName name = true) {p : Place}
    (hb : Bytes.beginsWith name p.after = true) {d : Nat × Bytes} (hd : tagAround? p = some d) :
    p ∈ Place.all name p.text := by
  simp only [Attribute.isName, Bool.and_eq_true, Bool.not_eq_true', List.isEmpty_eq_false_iff,
    List.all_eq_true] at hname
  unfold tagAround? at hd
  rw [Option.ite_none_right_eq_some, Bool.and_eq_true] at hd
  apply Place.mem_all_of_space hname.1 _ hd.1.1 hb
  intro b hmem
  exact isSpace_eq_false_of_isNameByte (hname.2 b hmem)

/-- Exactly the start tags around the places are offered at which the name stands behind white
space. -/
theorem mem_tagsWith_iff {r : Region} {name : Bytes} {e : Nat × Bytes} :
    e ∈ r.tagsWith name ↔
      Attribute.isName name = true ∧
        ∃ p : Place, p.text = r.text ∧ Bytes.beginsWith name p.after = true ∧
          ∃ d, tagAround? p = some d ∧ e = (r.absolute d.1, d.2) := by
  unfold tagsWith
  split
  · next h =>
    rw [Bool.not_eq_true'] at h
    simp [h]
  · next h =>
    rw [Bool.not_eq_true', Bool.not_eq_false] at h
    simp only [List.mem_filterMap, Option.map_eq_some_iff]
    constructor
    · rintro ⟨p, hp, d, hd, he⟩
      obtain ⟨htext, hb⟩ := Place.of_mem_all hp
      exact ⟨h, p, htext, hb, d, hd, he.symm⟩
    · rintro ⟨-, p, htext, hb, d, hd, he⟩
      refine ⟨p, ?_, d, hd, he.symm⟩
      rw [← htext]
      exact mem_all_of_tagAround? h hb hd

/-- The tag around a place is a start tag of the text, of a known element. -/
theorem tagAround?_eq_some {p : Place} {e : Nat × Bytes} (h : tagAround? p = some e) :
    ∃ tag, StartTag.ofMarkup? (p.text.drop e.1) = some tag ∧ e.2 = tag.text ∧
      Tag.isKnown tag.name = true := by
  unfold tagAround? at h
  rw [Option.ite_none_right_eq_some, Option.filter_eq_some_iff] at h
  obtain ⟨-, henclosing, hknown⟩ := h
  obtain ⟨lead, before, rest, after, hbefore, -, hafter, -, rfl⟩ :=
    Place.enclosing?_eq_some_iff.mp henclosing
  unfold StartTag.isKnownTag at hknown
  split at hknown
  · next tag htag =>
    rw [Bool.and_eq_true, beq_iff_eq] at hknown
    have hall := (StartTag.text_prefix_of_ofMarkup? htag).eq_of_length hknown.1
    refine ⟨tag, ?_, hall.symm, hknown.2⟩
    apply StartTag.ofMarkup?_of_prefix htag
    rw [hall]
    refine ⟨after, ?_⟩
    simp [Place.text, hbefore, hafter]
  · contradiction

/-- What is offered for an attribute is a start tag of the region. -/
theorem mem_tagsWith {r : Region} {name : Bytes} {e : Nat × Bytes} (h : e ∈ r.tagsWith name) :
    r.Starts e := by
  obtain ⟨-, p, htext, -, d, hd, rfl⟩ := mem_tagsWith_iff.mp h
  obtain ⟨tag, htag, heq, -⟩ := tagAround?_eq_some hd
  rw [htext] at htag
  exact ⟨d.1, tag, by rw [heq], htag⟩

/-! ### Tags without an inner `<` -/

variable {r : Region} {tag : StartTag} {offset : Nat}

private theorem exists_split_of_starts (h : r.Starts (offset, tag.text)) :
    ∃ before after, r.text = before ++ (tag.text ++ after) ∧ offset = r.absolute before.length := by
  obtain ⟨i, other, heq, hfound⟩ := h
  rw [Prod.mk.injEq] at heq
  obtain ⟨after, hafter⟩ := StartTag.text_prefix_of_ofMarkup? hfound
  rw [← heq.2] at hafter
  have hle : i ≤ r.text.length := by
    apply Nat.le_of_not_lt
    intro hlt
    rw [List.drop_of_length_le (Nat.le_of_lt hlt)] at hfound
    contradiction
  refine ⟨r.text.take i, after, ?_, ?_⟩
  · rw [hafter, List.take_append_drop]
  · rw [heq.1, List.length_take, Nat.min_eq_left hle]

/-- From the `<` of a start tag to the first `<` in its attribute list there are no brackets. -/
theorem isBracket_eq_false_of_isProper (hproper : tag.IsProper) {lead : Bytes}
    (hlead : lead <+: tag.attributes) (hless : Ascii.less ∉ lead) :
    ∀ b ∈ tag.name ++ lead, Place.isBracket b = false := by
  intro b hb
  rw [Place.isBracket, Bool.or_eq_false_iff, beq_eq_false_iff_ne, beq_eq_false_iff_ne]
  constructor
  · rintro rfl
    rcases List.mem_append.mp hb with hb | hb
    · exact hproper.not_mem_name (by decide) hb
    · exact hless hb
  · rintro rfl
    rcases List.mem_append.mp hb with hb | hb
    · exact hproper.not_mem_name (by decide) hb
    · exact hproper.greater_not_mem (hlead.subset hb)

/-- In front of the name of a start tag a place is inside a start tag exactly if no `<` stands in
the attribute list. -/
theorem insideStartTag_next_iff (hproper : tag.IsProper) {p : Place} {rest : Bytes}
    (h : p.after = tag.text ++ rest) :
    p.next.insideStartTag = true ↔ Ascii.less ∉ tag.attributes := by
  obtain ⟨b, others, hname⟩ := List.exists_cons_of_ne_nil hproper.name_ne_nil
  have hnot : ∀ c, Tag.isNameByte c = false → c ≠ b ∧ c ∉ others := by
    intro c hc
    have := hproper.not_mem_name hc
    rw [hname, List.mem_cons, not_or] at this
    exact this
  have hslash := hnot Ascii.slash (by decide)
  have hless := hnot Ascii.less (by decide)
  have hgreater := hnot Ascii.greater (by decide)
  have hclosed : Ascii.greater ∉ others ++ tag.attributes := by
    rw [List.mem_append, not_or]
    exact ⟨hgreater.2, hproper.greater_not_mem⟩
  have hnext : p.next =
      ⟨Ascii.less :: p.before, b :: (others ++ tag.attributes ++ Ascii.greater :: rest)⟩ := by
    rw [Place.next, h]
    simp [StartTag.text, hname]
  have hopened : Place.opened b (Ascii.less :: p.before) = true := by
    rw [Place.opened, if_pos rfl]
    exact bne_iff_ne.mpr (Ne.symm hslash.1)
  rw [hnext, Place.insideStartTag]
  dsimp only
  rw [hopened, Bool.true_and, Place.closed_append_iff hclosed, List.mem_append, not_or]
  exact and_iff_right hless.2

/-- A place begins a start tag for a name if a start tag is there, white space or `>` follows as
many bytes as `<` and the name have, and no `<` stands in the attribute list. -/
theorem tagAt?_eq_some_iff {name markup : Bytes} {p : Place} :
    tagAt? name p = some markup ↔
      (∃ b, p.after[name.length + 1]? = some b ∧ (Ascii.isSpace b = true ∨ b = Ascii.greater)) ∧
        ∃ tag : StartTag, tag.IsProper ∧ Ascii.less ∉ tag.attributes ∧ tag.text <+: p.after ∧
          tag.text = markup := by
  have hends : ((p.after.drop (Element.openLiteral name).length).head?.any fun b ↦
      Ascii.isSpace b || b == Ascii.greater) = true ↔
        ∃ b, p.after[name.length + 1]? = some b ∧ (Ascii.isSpace b = true ∨ b = Ascii.greater) := by
    rw [List.head?_drop, Element.openLiteral, List.length_cons]
    cases p.after[name.length + 1]? with
    | none => simp
    | some b => simp
  unfold tagAt?
  dsimp only
  rw [Option.ite_none_right_eq_some, Bool.and_eq_true, hends, and_assoc, Option.map_eq_some_iff]
  apply and_congr_right
  intro _
  constructor
  · rintro ⟨hinside, tag, htag, rfl⟩
    obtain ⟨hproper, rest, hrest⟩ := StartTag.ofMarkup?_eq_some_iff.mp htag
    exact ⟨tag, hproper, (insideStartTag_next_iff hproper hrest.symm).mp hinside, ⟨rest, hrest⟩,
      rfl⟩
  · rintro ⟨tag, hproper, hless, ⟨rest, hrest⟩, rfl⟩
    exact ⟨(insideStartTag_next_iff hproper hrest.symm).mpr hless, tag,
      StartTag.ofMarkup?_eq_some_iff.mpr ⟨hproper, rest, hrest⟩, rfl⟩

/-- A start tag whose attribute list holds no `<` and begins with white space is offered for its
name. -/
theorem mem_tagsNamed_of_starts (hproper : tag.IsProper) (hless : Ascii.less ∉ tag.attributes)
    (hhead : ∀ b ∈ tag.attributes.head?, Ascii.isSpace b = true) (h : r.Starts (offset, tag.text)) :
    (offset, tag.text) ∈ r.tagsNamed tag.name := by
  obtain ⟨before, after, htext, rfl⟩ := exists_split_of_starts h
  have hopen : tag.text ++ after =
      Element.openLiteral tag.name ++ (tag.attributes ++ Ascii.greater :: after) := by
    simp [StartTag.text, Element.openLiteral]
  have hbyte : (tag.text ++ after)[tag.name.length + 1]? =
      (tag.attributes ++ Ascii.greater :: after).head? := by
    rw [← List.head?_drop, hopen]
    exact congrArg List.head? List.drop_left
  have hends : ∃ b, (tag.text ++ after)[tag.name.length + 1]? = some b ∧
      (Ascii.isSpace b = true ∨ b = Ascii.greater) := by
    rw [hbyte]
    cases hattributes : tag.attributes with
    | nil => exact ⟨_, rfl, .inr rfl⟩
    | cons b attributes =>
      rw [hattributes] at hhead
      exact ⟨b, rfl, .inl (hhead b rfl)⟩
  rw [mem_tagsNamed_iff]
  refine ⟨⟨hproper.name_ne_nil, hproper.name_bytes⟩, ⟨before.reverse, tag.text ++ after⟩, ?_, ?_,
    tag.text, ?_, ?_⟩
  · rw [htext, Place.text, List.reverse_reverse]
  · exact Bytes.beginsWith_iff_exists.mpr ⟨_, _, hopen, rfl⟩
  · rw [tagAt?_eq_some_iff]
    exact ⟨hends, tag, hproper, hless, List.prefix_append _ _, rfl⟩
  · rw [Place.offset, List.length_reverse]

/-! ### Tags that carry a name -/

private theorem insideStartTag_iff_of_attributes (hproper : tag.IsProper) {lead behind : Bytes}
    {s : UInt8} (hattributes : tag.attributes = lead ++ s :: behind)
    (hs : Ascii.isSpace s = true) (hless : Ascii.less ∉ lead) (hne : behind ≠ [])
    (before after : Bytes) :
    Place.insideStartTag ⟨(tag.name ++ lead ++ [s]).reverse ++ Ascii.less :: before,
        behind ++ Ascii.greater :: after⟩ = true ↔
      Ascii.less ∉ behind.drop 1 := by
  rw [List.append_cons] at hattributes
  have hgreater := hproper.greater_not_mem
  rw [hattributes, List.mem_append, not_or] at hgreater
  have hslash := hproper.head?_ne_slash
  rw [hattributes, ← List.append_assoc, ← List.append_assoc] at hslash
  apply Place.insideStartTag_iff _ hgreater.2 hne hslash
  rw [List.append_assoc]
  apply isBracket_eq_false_of_isProper hproper ⟨behind, hattributes.symm⟩
  rw [List.mem_append, List.mem_singleton, not_or]
  refine ⟨hless, ?_⟩
  rintro rfl
  contradiction

/-- A start tag of a known element around a place carries the name that stands at the place. -/
theorem carries_of_tagAround? {p : Place} {name : Bytes} {e : Nat × Bytes}
    (hname : Attribute.isName name = true) (hb : Bytes.beginsWith name p.after = true)
    (h : tagAround? p = some e) :
    ∃ tag, StartTag.ofMarkup? (p.text.drop e.1) = some tag ∧ e.2 = tag.text ∧
      Tag.isKnown tag.name = true ∧ tag.Carries name := by
  obtain ⟨tag, htag, htext, hknown⟩ := tagAround?_eq_some h
  refine ⟨tag, htag, htext, hknown, ?_⟩
  have hproper := StartTag.isProper_of_ofMarkup? htag
  unfold tagAround? at h
  rw [Option.ite_none_right_eq_some, Bool.and_eq_true, Option.filter_eq_some_iff] at h
  obtain ⟨⟨hspace, hinside⟩, henclosing, -⟩ := h
  obtain ⟨lead, before, behind, after, hbefore, hless, hafter, hgreater, rfl⟩ :=
    Place.enclosing?_eq_some_iff.mp henclosing
  -- The white space in front of the place is the last byte of the list before it.
  obtain ⟨s, lead, rfl⟩ : ∃ s others, lead = s :: others := by
    apply List.exists_cons_of_ne_nil
    rintro rfl
    rw [hbefore] at hspace
    contradiction
  have hs : Ascii.isSpace s = true := by
    rw [hbefore] at hspace
    exact hspace
  have hinner : tag.name ++ tag.attributes = lead.reverse ++ s :: behind := by
    rw [StartTag.text] at htext
    simpa using (List.append_cancel_right (List.cons.inj htext).2).symm
  obtain ⟨others, hattributes, hlead⟩ := hproper.exists_lead hs hinner
  have hother : Ascii.less ∉ others := by
    intro hmem
    apply hless
    apply List.mem_cons_of_mem
    rw [← List.mem_reverse, hlead]
    exact List.mem_append_right _ hmem
  rw [Attribute.isName, Bool.and_eq_true] at hname
  have hb' : Bytes.beginsWith name behind = true := by
    rw [hafter, Bytes.beginsWith_append_cons_iff (by decide)] at hb
    · exact hb
    · intro hmem
      have := List.all_eq_true.mp hname.2 _ hmem
      contradiction
  refine ⟨others, s, behind, hattributes, hs, hb', hother, ?_⟩
  have hne : behind ≠ [] := by
    rintro rfl
    rw [Bytes.eq_nil_of_beginsWith_nil hb'] at hname
    exact absurd hname.1 (by decide)
  rw [← insideStartTag_iff_of_attributes hproper hattributes hs hother hne before after, ← hlead,
    ← List.reverse_cons, List.reverse_reverse, ← hbefore, ← hafter]
  exact hinside

/-- The place in a start tag of a known element at which a name stands has the tag around it. -/
theorem exists_tagAround? {name : Bytes} (hproper : tag.IsProper)
    (hknown : Tag.isKnown tag.name = true) (hname : name ≠ []) (h : tag.Carries name)
    (before after : Bytes) :
    ∃ p : Place, p.text = before ++ (tag.text ++ after) ∧ Bytes.beginsWith name p.after = true ∧
      tagAround? p = some (before.length, tag.text) := by
  obtain ⟨lead, s, behind, hattributes, hs, hb, hless, hbehind⟩ := h
  have hne : behind ≠ [] := by
    rintro rfl
    exact hname (Bytes.eq_nil_of_beginsWith_nil hb)
  refine ⟨⟨(tag.name ++ lead ++ [s]).reverse ++ Ascii.less :: before.reverse,
    behind ++ Ascii.greater :: after⟩, ?_, ?_, ?_⟩
  · rw [Place.text, StartTag.text, hattributes]
    simp
  · obtain ⟨written, rest, rfl, hwritten⟩ := Bytes.beginsWith_iff_exists.mp hb
    exact Bytes.beginsWith_iff_exists.mpr ⟨written, _, List.append_assoc _ _ _, hwritten⟩
  · have hinside := (insideStartTag_iff_of_attributes hproper hattributes hs hless hne
      before.reverse after).mpr hbehind
    have hgreater := hproper.greater_not_mem
    rw [hattributes, List.mem_append, List.mem_cons, not_or, not_or] at hgreater
    have hlead : Ascii.less ∉ (tag.name ++ lead ++ [s]).reverse := by
      rw [List.mem_reverse, List.mem_append, List.mem_append, List.mem_singleton]
      rintro ((hmem | hmem) | rfl)
      · exact hproper.not_mem_name (by decide) hmem
      · exact hless hmem
      · contradiction
    have henclosing := Place.enclosing?_append hlead hgreater.2.2 before.reverse after
    have htext : Ascii.less :: ((tag.name ++ lead ++ [s]).reverse.reverse ++ behind ++
        [Ascii.greater]) = tag.text := by
      rw [StartTag.text, hattributes]
      simp
    rw [htext, List.length_reverse] at henclosing
    rw [tagAround?, hinside, henclosing, List.reverse_concat, List.cons_append, List.head?_cons,
      Option.any_some, hs, Bool.and_self, if_pos rfl]
    apply Option.filter_some_pos
    rw [hproper.isKnownTag_text, hknown]

/-- A start tag of a known element that carries a name is offered for it. -/
theorem mem_tagsWith_of_carries (hproper : tag.IsProper) (hknown : Tag.isKnown tag.name = true)
    {name : Bytes} (hname : Attribute.isName name = true) (hcarries : tag.Carries name)
    (h : r.Starts (offset, tag.text)) : (offset, tag.text) ∈ r.tagsWith name := by
  obtain ⟨before, after, htext, rfl⟩ := exists_split_of_starts h
  have hne : name ≠ [] := by
    rintro rfl
    contradiction
  obtain ⟨p, hp, hb, hd⟩ := exists_tagAround? hproper hknown hne hcarries before after
  exact mem_tagsWith_iff.mpr ⟨hname, p, hp.trans htext.symm, hb, _, hd, rfl⟩

/-- Exactly the start tags of known elements are offered for a name that carry it. -/
theorem mem_tagsWith_iff_carries {name : Bytes} {e : Nat × Bytes} :
    e ∈ r.tagsWith name ↔
      Attribute.isName name = true ∧ ∃ i tag, e = (r.absolute i, StartTag.text tag) ∧
        StartTag.ofMarkup? (r.text.drop i) = some tag ∧ Tag.isKnown tag.name = true ∧
          tag.Carries name := by
  constructor
  · intro h
    obtain ⟨hname, p, htext, hb, d, hd, rfl⟩ := mem_tagsWith_iff.mp h
    obtain ⟨tag, htag, heq, hknown, hcarries⟩ := carries_of_tagAround? hname hb hd
    rw [htext] at htag
    exact ⟨hname, d.1, tag, by rw [heq], htag, hknown, hcarries⟩
  · rintro ⟨hname, i, tag, rfl, htag, hknown, hcarries⟩
    exact mem_tagsWith_of_carries (StartTag.isProper_of_ofMarkup? htag) hknown hname hcarries
      ⟨i, tag, rfl, htag⟩

/-- A start tag of a known element whose attribute list holds no `<` is offered for every name that
stands in the list behind white space. -/
theorem mem_tagsWith_of_starts (hproper : tag.IsProper) (hless : Ascii.less ∉ tag.attributes)
    (hknown : Tag.isKnown tag.name = true) {name lead rest : Bytes} {s : UInt8}
    (hname : Attribute.isName name = true) (hs : Ascii.isSpace s = true)
    (hattributes : tag.attributes = lead ++ s :: (name ++ rest)) (h : r.Starts (offset, tag.text)) :
    (offset, tag.text) ∈ r.tagsWith name := by
  have hspaces : tag.Spaces name :=
    ⟨lead, s, _, hattributes, hs, Bytes.beginsWith_iff_exists.mpr ⟨name, rest, rfl, rfl⟩⟩
  exact mem_tagsWith_of_carries hproper hknown hname (hspaces.carries hless) h

end Region

end MarkupSelect
