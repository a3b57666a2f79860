import MarkupSelect.Element
import MarkupSelect.Proofs.Text.LetterCase

/-!
# Letter case and elements

The structure of a markup does not depend on letter case: start tags, the ends of elements, direct
children and contents lie in the markup in lower case where they lay before, in lower case
themselves.
-/

namespace MarkupSelect

/-! ### Names -/

namespace Tag

/-- Whether a byte can stand in a tag name does not depend on its letter case. -/
@[simp] theorem isNameByte_toLower (b : UInt8) : isNameByte (Ascii.toLower b) = isNameByte b :=
  Ascii.forall_byte (p := fun b ↦ isNameByte (Ascii.toLower b) = isNameByte b) (by decide +kernel) b

/-- Names that agree are made of name bytes alike. -/
theorem all_isNameByte_of_lower {s t : Bytes} (h : s.lower = t.lower)
    (hs : s.all isNameByte = true) : t.all isNameByte = true := by
  rw [← Bytes.all_lower isNameByte_toLower, ← h, Bytes.all_lower isNameByte_toLower, hs]

@[simp] theorem isVoid_lower (name : Bytes) : isVoid name.lower = isVoid name :=
  isVoid_congr (Bytes.agree_iff.mpr name.lower_lower)

@[simp] theorem isKnown_lower (name : Bytes) : isKnown name.lower = isKnown name :=
  isKnown_congr (Bytes.agree_iff.mpr name.lower_lower)

end Tag

/-! ### Start tags -/

namespace StartTag

/-- A start tag in lower case. -/
def lower (tag : StartTag) : StartTag := ⟨tag.name.lower, tag.attributes.lower⟩

@[simp] theorem text_lower (tag : StartTag) : tag.lower.text = tag.text.lower := by
  rw [text, text, Bytes.lower_cons, Bytes.lower_append, Bytes.lower_append]
  rfl

@[simp] theorem length_lower (tag : StartTag) : tag.lower.length = tag.length := by
  rw [length, length, text_lower, Bytes.length_lower]

private theorem ofRest?_lower (rest : Bytes) : ofRest? rest.lower = (ofRest? rest).map lower := by
  have hname := Tag.isNameByte_toLower
  have hopen := Ascii.toLower_bne (c := Ascii.greater) rfl
  rw [ofRest?, ofRest?, Bytes.takeWhile_lower hname, Bytes.dropWhile_lower hname,
    Bytes.isEmpty_lower, Bytes.contains_lower rfl, Bytes.takeWhile_lower hopen]
  split
  · rfl
  · rfl

/-- A start tag is found in a markup in lower case if one is found in the markup. -/
theorem ofMarkup?_lower (markup : Bytes) :
    ofMarkup? markup.lower = (ofMarkup? markup).map lower := by
  cases markup with
  | nil => rfl
  | cons b rest =>
    rw [Bytes.lower_cons, ofMarkup?, ofMarkup?, ofRest?_lower]
    simp only [Ascii.toLower_eq_iff (b := b) (c := Ascii.less) rfl]
    split
    · rfl
    · rfl

/-- Whether a text is the start tag of a known element does not depend on letter case. -/
theorem isKnownTag_lower (text : Bytes) : isKnownTag text.lower = isKnownTag text := by
  rw [isKnownTag, isKnownTag, ofMarkup?_lower, Bytes.length_lower]
  cases ofMarkup? text with
  | none => rfl
  | some tag =>
    rw [Option.map_some]
    dsimp only
    rw [length_lower, lower, Tag.isKnown_lower]

end StartTag

/-! ### The ends of elements -/

namespace Element

private theorem openLiteral_lower (name : Bytes) :
    openLiteral name.lower = (openLiteral name).lower := rfl

private theorem endTag_lower (name : Bytes) : endTag name.lower = (endTag name).lower := by
  rw [endTag, endTag, Bytes.lower_cons, Bytes.lower_cons, Bytes.lower_append]
  rfl

private theorem startsTag_lower (name text : Bytes) :
    startsTag name.lower text.lower = startsTag name text := by
  have hends : ∀ b, (Ascii.isSpace (Ascii.toLower b) || Ascii.toLower b == Ascii.greater ||
      Ascii.toLower b == Ascii.slash) =
        (Ascii.isSpace b || b == Ascii.greater || b == Ascii.slash) := fun b ↦ by
    rw [Ascii.isSpace_toLower, Ascii.toLower_beq rfl, Ascii.toLower_beq rfl]
  rw [startsTag, startsTag, openLiteral_lower, Bytes.beginsWith_lower_left,
    Bytes.beginsWith_lower_right, Bytes.length_lower, ← Bytes.lower_drop,
    Bytes.head?_any_lower hends]

private theorem firstStart?_lower (name : Bytes) (position : Nat) (text : Bytes) :
    firstStart? name.lower position text.lower = firstStart? name position text := by
  induction text generalizing position with
  | nil => rfl
  | cons b text ih =>
    have hb := startsTag_lower name (b :: text)
    rw [Bytes.lower_cons] at hb ⊢
    rw [firstStart?, firstStart?, hb, ih]

private theorem closingFrom?_lower (name markup : Bytes) (openFrom closeFrom : Nat) :
    closingFrom? name.lower markup.lower openFrom closeFrom =
      closingFrom? name markup openFrom closeFrom := by
  have hsearch : ∀ start, Bytes.search? markup.lower (endTag name.lower) start =
      Bytes.search? markup (endTag name) start := fun start ↦ by
    rw [endTag_lower, Bytes.search?_lower]
  have hstart : ∀ start, firstStart? name.lower start (markup.lower.drop start) =
      firstStart? name start (markup.drop start) := fun start ↦ by
    rw [← Bytes.lower_drop, firstStart?_lower]
  fun_induction closingFrom? name markup openFrom closeFrom with
  | case1 openFrom closeFrom h => rw [closingFrom?, hsearch, h]
  | case2 openFrom closeFrom closeAt h hnone =>
    rw [closingFrom?, hsearch, h]
    dsimp only
    rw [hstart, hnone]
  | case3 openFrom closeFrom closeAt h openAt hsome hlt ih =>
    rw [closingFrom?, hsearch, h]
    dsimp only
    rw [hstart, hsome]
    dsimp only
    rw [if_pos hlt, openLiteral_lower, endTag_lower, Bytes.length_lower, Bytes.length_lower, ih]
  | case4 openFrom closeFrom closeAt h openAt hsome hlt =>
    rw [closingFrom?, hsearch, h]
    dsimp only
    rw [hstart, hsome]
    dsimp only
    rw [if_neg hlt]

/-- An element in lower case is as long as the element. -/
theorem extent_lower (markup startTag : Bytes) :
    extent markup.lower startTag.lower = extent markup startTag := by
  rw [extent, extent, StartTag.ofMarkup?_lower, Bytes.length_lower]
  cases StartTag.ofMarkup? startTag with
  | none => rfl
  | some tag =>
    have hend : endTagPosition? tag.name.lower markup.lower = endTagPosition? tag.name markup := by
      rw [endTagPosition?, openLiteral_lower, Bytes.length_lower, closingFrom?_lower]
      rfl
    rw [Option.map_some]
    dsimp only [StartTag.lower]
    rw [Tag.isVoid_lower, hend, endTag_lower, Bytes.length_lower]

/-- An element of a text in lower case is the element of the text in lower case. -/
theorem expand_lower (text : Bytes) (offset : Nat) (startTag : Bytes) :
    expand text.lower offset startTag.lower = (expand text offset startTag).lower := by
  rw [expand, expand, ← Bytes.lower_drop, extent_lower, Bytes.lower_take]

end Element

/-! ### Children and contents -/

/-- A child in lower case. -/
def Child.lower (child : Child) : Child :=
  ⟨child.offset, child.startTag.lower, child.element.lower⟩

/-- A region in lower case. -/
def Region.lower (r : Region) : Region := ⟨r.base, r.text.lower⟩

private theorem Child.inText_lower (skip position : Nat) (text : Bytes) :
    inText skip position text.lower = (inText skip position text).map lower := by
  induction text generalizing skip position with
  | nil => rfl
  | cons b text ih =>
    cases skip with
    | succ skip => exact ih skip (position + 1)
    | zero =>
      have hstart := StartTag.ofMarkup?_lower (b :: text)
      have hextent := Element.extent_lower (b :: text)
      have htake := fun n ↦ Bytes.lower_take n (b :: text)
      rw [Bytes.lower_cons] at hstart hextent htake ⊢
      rw [inText, inText, Bytes.head?_any_lower Ascii.isLetter_toLower, hstart]
      simp only [Ascii.toLower_eq_iff (b := b) (c := Ascii.less) rfl]
      split
      · cases StartTag.ofMarkup? (b :: text) with
        | none => rfl
        | some tag =>
          rw [Option.map_some]
          dsimp only
          rw [StartTag.text_lower, hextent, ih, ← htake]
          rfl
      · exact ih 0 (position + 1)

/-- The children of a region in lower case are those of the region in lower case. -/
theorem Region.children_lower (r : Region) : r.lower.children = r.children.map Child.lower :=
  Child.inText_lower 0 r.base r.text

/-- Parts in lower case. -/
def Parts.lower (parts : Parts) : Parts :=
  ⟨parts.startTag.lower, parts.content.lower, parts.endTag.lower⟩

/-- The parts of a markup in lower case are those of the markup in lower case. -/
theorem Parts.ofMarkup?_lower (markup : Bytes) :
    ofMarkup? markup.lower = (ofMarkup? markup).map lower := by
  rw [ofMarkup?, ofMarkup?, StartTag.ofMarkup?_lower]
  cases StartTag.ofMarkup? markup with
  | none => rfl
  | some tag =>
    have hlast : Bytes.searchLast? markup.lower (Element.endTag tag.lower.name) =
        Bytes.searchLast? markup (Element.endTag tag.name) := by
      rw [StartTag.lower, Element.endTag_lower, Bytes.searchLast?_lower]
    rw [Option.map_some]
    dsimp only
    rw [hlast, StartTag.length_lower, StartTag.text_lower, ← Bytes.lower_drop]
    cases Bytes.searchLast? markup (Element.endTag tag.name) with
    | none => rfl
    | some position =>
      dsimp only
      rw [← Bytes.lower_take, ← Bytes.lower_drop]
      split
      · rfl
      · rfl

/-- The content of an element in lower case is that of the element in lower case. -/
theorem Region.content?_lower (offset : Nat) (element : Bytes) :
    content? offset element.lower = (content? offset element).map lower := by
  rw [content?, content?, Parts.ofMarkup?_lower, Option.map_map, Option.map_map]
  congr 1
  funext parts
  rw [Function.comp_apply, Parts.lower, Bytes.length_lower]
  rfl

/-! ### Inside start tags -/

namespace Place

private theorem opened_lower (next : UInt8) (before : Bytes) :
    opened (Ascii.toLower next) before.lower = opened next before := by
  induction before generalizing next with
  | nil => rfl
  | cons b before ih =>
    rw [Bytes.lower_cons, opened, opened, ih, Ascii.toLower_bne rfl]
    simp only [Ascii.toLower_eq_iff (b := b) (c := Ascii.less) rfl,
      Ascii.toLower_eq_iff (b := b) (c := Ascii.greater) rfl]

private theorem closed_lower (after : Bytes) : closed after.lower = closed after := by
  induction after with
  | nil => rfl
  | cons b after ih =>
    rw [Bytes.lower_cons, closed, closed, ih]
    simp only [Ascii.toLower_eq_iff (b := b) (c := Ascii.less) rfl,
      Ascii.toLower_eq_iff (b := b) (c := Ascii.greater) rfl]

/-- Whether a place lies inside a start tag does not depend on letter case. -/
theorem insideStartTag_lower (p : Place) : p.lower.insideStartTag = p.insideStartTag := by
  obtain ⟨before, after⟩ := p
  cases after with
  | nil => rfl
  | cons b after =>
    rw [lower, Bytes.lower_cons, insideStartTag]
    dsimp only
    rw [opened_lower, closed_lower]
    rfl

/-- The nearest brackets around a place enclose the same in lower case. -/
theorem enclosing?_lower (p : Place) :
    p.lower.enclosing? = p.enclosing?.map fun e ↦ (e.1, e.2.lower) := by
  rw [enclosing?, enclosing?, lower, Bytes.contains_lower rfl, Bytes.contains_lower rfl,
    Bytes.takeWhile_lower (Ascii.toLower_bne rfl), Bytes.takeWhile_lower (Ascii.toLower_bne rfl)]
  split
  · dsimp only
    rw [Option.map_some, Bytes.lower_cons, Bytes.lower_append, Bytes.lower_append,
      Bytes.lower_reverse, Bytes.length_lower]
    exact congrArg some (Prod.ext (by rw [← p.offset_lower]; rfl) rfl)
  · rfl

end Place

end MarkupSelect
