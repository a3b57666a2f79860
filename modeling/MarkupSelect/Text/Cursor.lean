import MarkupSelect.Text.Search

/-!
# Places, cursors and regions

Three ways to stand in a text: a place, from which both directions are seen; a cursor, from which
single bytes are searched forward; and a region, a piece that knows its offset in the document. They
are the scanning helpers of the components `scanner` and `span` in `SPEC_FULL.md` §10.
-/

namespace MarkupSelect

/-!
### Places

A place is what lies before it, the nearest byte first, and what lies after it. A search for a
literal gives the places at which it stands, and goes on behind each of them.
-/

/-- A place in a text: the bytes before it, the nearest first, and the bytes after it. -/
structure Place where
  before : Bytes
  after : Bytes
deriving DecidableEq, Repr

namespace Place

/-- The place at an offset of a text; beyond the end it is the end. -/
def ofOffset (text : Bytes) (offset : Nat) : Place := ⟨(text.take offset).reverse, text.drop offset⟩

/-- The number of bytes before the place. -/
def offset (p : Place) : Nat := p.before.length

/-- The text that the place is in. -/
def text (p : Place) : Bytes := p.before.reverse ++ p.after

/-- The place one byte further on, or the same at the end. -/
def next (p : Place) : Place :=
  match p.after with
  | [] => p
  | b :: after => ⟨b :: p.before, after⟩

/-- The places at which a literal stands, where a place found is followed by the search behind the
literal; `skip` bytes are passed before the search begins. -/
def hits (literal : Bytes) (skip : Nat) (before : Bytes) : (after : Bytes) → List Place
  | [] => []
  | b :: after =>
    if skip = 0 && Bytes.beginsWith literal (b :: after) then
      ⟨before, b :: after⟩ :: hits literal (literal.length - 1) (b :: before) after
    else hits literal (skip - 1) (b :: before) after

/-- The places of a text at which a literal stands, found one behind the other. -/
def all (literal text : Bytes) : List Place := hits literal 0 [] text

/-- A place keeps the whole text. -/
@[simp] theorem text_ofOffset (t : Bytes) (offset : Nat) : (ofOffset t offset).text = t := by
  simp [ofOffset, text]

/-- A place inside the text is at its offset. -/
theorem offset_ofOffset {t : Bytes} {i : Nat} (h : i ≤ t.length) : (ofOffset t i).offset = i := by
  simp [ofOffset, offset, h]

/-- A place is determined by its text and its offset. -/
theorem ofOffset_text_offset (p : Place) : ofOffset p.text p.offset = p := by
  simp [ofOffset, text, offset]

@[simp] theorem text_next (p : Place) : p.next.text = p.text := by
  unfold next
  split <;> simp_all [text]

/-- Every place found is in the text searched. -/
theorem text_of_mem_hits {literal before after : Bytes} {skip : Nat} {p : Place}
    (h : p ∈ hits literal skip before after) : p.text = before.reverse ++ after := by
  fun_induction hits literal skip before after with
  | case1 => simp at h
  | case2 skip before b after _ ih =>
    rcases List.mem_cons.mp h with rfl | h
    · simp [text]
    · simpa using ih h
  | case3 skip before b after _ ih => simpa using ih h

/-- The literal stands at every place found. -/
theorem beginsWith_of_mem_hits {literal before after : Bytes} {skip : Nat} {p : Place}
    (h : p ∈ hits literal skip before after) : Bytes.beginsWith literal p.after = true := by
  fun_induction hits literal skip before after with
  | case1 => simp at h
  | case2 skip before b after hb ih =>
    rcases List.mem_cons.mp h with rfl | h
    · simp_all
    · exact ih h
  | case3 skip before b after _ ih => exact ih h

end Place

/-!
### Cursors

A cursor is a position in a text from which single bytes are searched. Searching does not move it,
and it never stands beyond the end of the text.
-/

/-- A text and a position in it or at its end. -/
structure Cursor where
  text : Bytes
  position : Nat
  position_le : position ≤ text.length

namespace Cursor

/-- The cursor at the beginning of a text. -/
def start (text : Bytes) : Cursor := ⟨text, 0, Nat.zero_le _⟩

/-- The cursor moved to a position, or to the end if the text ends before it. -/
def moveTo (c : Cursor) (position : Nat) : Cursor :=
  ⟨c.text, min position c.text.length, Nat.min_le_right _ _⟩

/-- The first place of a byte at or after the cursor. -/
def findByte? (c : Cursor) (byte : UInt8) : Option Nat :=
  ((c.text.drop c.position).findIdx? (· == byte)).map (c.position + ·)

/-- The first `<` at or after the cursor. -/
def findTag? (c : Cursor) : Option Nat := c.findByte? Ascii.less

/-- Moving a cursor keeps its text. -/
@[simp] theorem text_moveTo (c : Cursor) (position : Nat) : (c.moveTo position).text = c.text := rfl

end Cursor

/-!
### Regions

A region is a piece of a document that knows where it begins, so that what a search finds in it can
be given by the offset in the document: the pair of a base offset and a slice that §9 asks for in
place of padding.
-/

/-- A piece of a document, with the offset at which it begins there. -/
structure Region where
  base : Nat
  text : Bytes
deriving DecidableEq, Repr

namespace Region

/-- The region of a whole document. -/
def whole (document : Bytes) : Region := ⟨0, document⟩

/-- The offset in the document of an offset in the region. -/
def absolute (r : Region) (relative : Nat) : Nat := r.base + relative

@[simp] theorem absolute_whole (document : Bytes) (i : Nat) : (whole document).absolute i = i := by
  simp [absolute, whole]

end Region

end MarkupSelect
