import MarkupSelect.Matches
import MarkupSelect.Tag

/-!
# Elements

Where an element ends, what its parts are, and which elements are its direct children. This is the
boundary resolver of `SPEC_FULL.md` §4.1; its operations have their names in §6 and §10.
-/

namespace MarkupSelect

/-!
### Where an element ends

The end of an element is found without a tree. Behind the name of its start tag, the next start tag
of the same name is compared with the next end tag of that name: a start tag that comes first takes
that end tag, and the first end tag in front of which no start tag is left closes the element. An
element that no end tag closes consists of its start tag alone.
-/

namespace Element

/-- The literal `<name`. -/
def openLiteral (name : Bytes) : Bytes := Ascii.less :: name

/-- The end tag `</name>`. -/
def endTag (name : Bytes) : Bytes := Ascii.less :: Ascii.slash :: (name ++ [Ascii.greater])

/-- An end tag is no empty literal. -/
theorem endTag_ne_nil (name : Bytes) : endTag name ≠ [] := List.cons_ne_nil _ _

/-- Whether a tag of exactly this name begins the text: white space, `>` or `/` ends the name. -/
def startsTag (name text : Bytes) : Bool :=
  Bytes.beginsWith (openLiteral name) text &&
    (text.drop (openLiteral name).length).head?.any fun b ↦
      Ascii.isSpace b || b == Ascii.greater || b == Ascii.slash

/-- The first position at which a tag of exactly this name begins, where `text` lies at
`position`. -/
def firstStart? (name : Bytes) (position : Nat) : Bytes → Option Nat
  | [] => none
  | b :: text =>
    if startsTag name (b :: text) then some position else firstStart? name (position + 1) text

/-- The position of the end tag that closes an element of this name. The next start tag and the next
end tag are sought by themselves; a start tag that comes first takes the end tag away, and the
search goes on behind both; §4.1. -/
def closingFrom? (name markup : Bytes) (openFrom closeFrom : Nat) : Option Nat :=
  match _h : Bytes.search? markup (endTag name) closeFrom with
  | none => none
  | some closeAt =>
    match firstStart? name openFrom (markup.drop openFrom) with
    | none => some closeAt
    | some openAt =>
      if openAt < closeAt then
        closingFrom? name markup (openAt + (openLiteral name).length)
          (closeAt + (endTag name).length)
      else some closeAt
termination_by markup.length - closeFrom
decreasing_by
  have := Bytes.search?_bounds _h
  simp only [endTag, List.length_cons] at this ⊢
  omega

/-- The position of the end tag of an element of this name; the markup begins with its start tag. -/
def endTagPosition? (name markup : Bytes) : Option Nat :=
  closingFrom? name markup (openLiteral name).length (openLiteral name).length

/-- The number of bytes of the element that the markup begins with, whose start tag is given
(`resolve_end`, §4.1); a void element is its start tag (§12). -/
def extent (markup startTag : Bytes) : Nat :=
  match StartTag.ofMarkup? startTag with
  | none => startTag.length
  | some tag =>
    if Tag.isVoid tag.name then startTag.length
    else
      match endTagPosition? tag.name markup with
      | some position => position + (endTag tag.name).length
      | none => startTag.length

/-- The offset behind the element whose start tag lies at an offset of a text. -/
def endOffset (text : Bytes) (offset : Nat) (startTag : Bytes) : Nat :=
  offset + extent (text.drop offset) startTag

/-- The element whose start tag lies at an offset of a text. -/
def expand (text : Bytes) (offset : Nat) (startTag : Bytes) : Bytes :=
  (text.drop offset).take (extent (text.drop offset) startTag)

/-- The element whose start tag begins at an offset of a document, if one does (`element_at`). -/
def at? (document : Bytes) (offset : Nat) : Option Bytes :=
  (StartTag.ofMarkup? (document.drop offset)).map fun tag ↦ expand document offset tag.text

end Element

/-!
### Parts

An element that has an end tag consists of its start tag, its content and the last end tag of its
name with whatever follows that.
-/

/-- An element in three parts: its start tag, everything between that and the end tag, and the end
tag with what follows it. -/
structure Parts where
  startTag : Bytes
  content : Bytes
  endTag : Bytes
deriving DecidableEq, Repr

namespace Parts

/-- The parts of a markup that begins with a start tag and has an end tag of the same name behind
it; §4.1, `splitElement`. -/
def ofMarkup? (markup : Bytes) : Option Parts :=
  match StartTag.ofMarkup? markup with
  | none => none
  | some tag =>
    match Bytes.searchLast? markup (Element.endTag tag.name) with
    | none => none
    | some position =>
      if position < tag.length then none
      else
        some ⟨tag.text, (markup.drop tag.length).take (position - tag.length), markup.drop position⟩

/-- The parts one behind the other. -/
def join (p : Parts) : Bytes := p.startTag ++ p.content ++ p.endTag

end Parts

/-- The content of the element at an offset as a region of the document. -/
def Region.content? (offset : Nat) (element : Bytes) : Option Region :=
  (Parts.ofMarkup? element).map fun parts ↦ ⟨offset + parts.startTag.length, parts.content⟩

/-!
### Direct children

A child begins at a `<` that a letter follows and reaches to the end of its element, behind which
the next one is sought, so that the elements inside a child are no children. A `<` with a letter
that begins no start tag ends the search.
-/

/-- A direct child: the offset of its start tag in the document, its start tag, and all of it,
through its end tag or the start tag alone. -/
structure Child where
  offset : Nat
  startTag : Bytes
  element : Bytes
deriving DecidableEq, Repr

namespace Child

/-- The children in a text that lies at `position`, after `skip` bytes are passed. -/
def inText (skip position : Nat) : Bytes → List Child
  | [] => []
  | b :: text =>
    match skip with
    | skip + 1 => inText skip (position + 1) text
    | 0 =>
      if b = Ascii.less && text.head?.any Ascii.isLetter then
        match StartTag.ofMarkup? (b :: text) with
        | none => []
        | some tag =>
          let size := Element.extent (b :: text) tag.text
          ⟨position, tag.text, (b :: text).take size⟩ :: inText (size - 1) (position + 1) text
      else inText 0 (position + 1) text

end Child

/-- The direct children in a region, in the order of their offsets; §4.1, `children`. -/
def Region.children (r : Region) : List Child := Child.inText 0 r.base r.text

/-!
### Elements by their offsets

A selection can be rebuilt from the offsets of its elements alone.
-/

/-- The elements of a document whose start tags begin at the given offsets; an offset at which no
start tag begins is passed over. -/
def Matches.ofOffsets (document : Bytes) (offsets : List Nat) : Matches :=
  .ofList (offsets.filterMap fun offset ↦ (Element.at? document offset).map (offset, ·))

end MarkupSelect
