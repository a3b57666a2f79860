import MarkupSelect.Text.Cursor

/-!
# Tags

The names of elements and attributes, the grammar of a start tag, and the test whether a place lies
inside one. Specified in `SPEC_FULL.md` §3, §4.3 and §12, as the component `tags` of §10.
-/

namespace MarkupSelect

/-!
### Names

What a tag name and an attribute name may be made of, the elements that never have content, and the
elements that an attribute search knows.
-/

namespace Tag

/-- A byte of a tag name: a letter, a digit or `_`. -/
def isNameByte (b : UInt8) : Bool := Ascii.isLetter b || Ascii.isDigit b || b == Ascii.underscore

/-- The elements that never have content or an end tag, as §12 lists them. -/
def voidNames : List Bytes :=
  ["area", "base", "br", "col", "command", "embed", "hr", "img", "input", "keygen", "link", "meta",
    "param", "source", "track", "wbr"].map Bytes.ofString

/-- The elements whose start tags an attribute search accepts; the whitelist of §12. -/
def knownNames : List Bytes :=
  ["a", "abbr", "address", "area", "article", "aside", "audio", "b", "base", "bdi", "bdo",
    "blockquote", "body", "br", "button", "canvas", "caption", "cite", "code", "col", "colgroup",
    "command", "datalist", "dd", "del", "details", "dfn", "div", "dl", "dt", "em", "embed",
    "fieldset", "figcaption", "figure", "footer", "form", "frameset", "frame", "h1", "h2", "h3",
    "h4", "h5", "h6", "head", "header", "hgroup", "hr", "html", "i", "iframe", "img", "input",
    "ins", "kbd", "keygen", "label", "legend", "li", "link", "map", "mark", "menu", "meta", "meter",
    "nav", "noscript", "object", "ol", "optgroup", "option", "output", "p", "param", "pre",
    "progress", "q", "rp", "rt", "ruby", "s", "samp", "script", "section", "select", "small",
    "source", "span", "strong", "style", "sub", "summary", "sup", "table", "tbody", "td",
    "textarea", "tfoot", "th", "thead", "time", "title", "tr", "track", "u", "ul", "var", "video",
    "wbr"].map Bytes.ofString

/-- Whether the element of this name, in any letter case, never has content; §6, `isVoidTag`. -/
def isVoid (name : Bytes) : Bool := voidNames.any (Bytes.agree name)

/-- Whether an attribute search knows the element of this name, in any letter case; §6,
`isKnownTag`. -/
def isKnown (name : Bytes) : Bool := knownNames.any (Bytes.agree name)

/-- Letter case does not matter to the table of void elements. -/
theorem isVoid_congr {s t : Bytes} (h : s.agree t = true) : isVoid s = isVoid t := by
  rw [isVoid, isVoid, Bytes.agree_congr h]

/-- Letter case does not matter to the table of known elements. -/
theorem isKnown_congr {s t : Bytes} (h : s.agree t = true) : isKnown s = isKnown t := by
  rw [isKnown, isKnown, Bytes.agree_congr h]

end Tag

namespace Attribute

/-- A byte of an attribute name: no quote, `>`, `/`, `=` or white space. -/
def isNameByte (b : UInt8) : Bool :=
  !(Ascii.isQuote b || b == Ascii.greater || b == Ascii.slash || b == Ascii.equals ||
    Ascii.isSpace b)

/-- Whether a name could be written in a tag so that it is read back as one attribute; §12,
`is_valid_attribute_name`. -/
def isName (name : Bytes) : Bool := !name.isEmpty && name.all isNameByte

end Attribute

/-!
### Start tags

A start tag is `<`, a name of one or more name bytes, and everything up to the first `>`. The part
between the name and the `>` is its attribute list.
-/

/-- A start tag, by the two parts that vary: the name as it is written, and everything between the
name and the closing `>`; §3. -/
structure StartTag where
  name : Bytes
  attributes : Bytes
deriving DecidableEq, Repr

namespace StartTag

/-- The tag from `<` to `>`. -/
def text (tag : StartTag) : Bytes := Ascii.less :: (tag.name ++ tag.attributes ++ [Ascii.greater])

/-- The number of bytes of the tag. -/
def length (tag : StartTag) : Nat := tag.text.length

/-- The name in lower case. -/
def lowerName (tag : StartTag) : Bytes := tag.name.lower

/-- The tag split off the text behind its `<`. -/
def ofRest? (rest : Bytes) : Option StartTag :=
  let name := rest.takeWhile Tag.isNameByte
  let behind := rest.dropWhile Tag.isNameByte
  if !name.isEmpty && behind.contains Ascii.greater then
    some ⟨name, behind.takeWhile (· != Ascii.greater)⟩
  else none

/-- The start tag that a markup begins with, if it begins with one. -/
def ofMarkup? : Bytes → Option StartTag
  | [] => none
  | b :: rest => if b = Ascii.less then ofRest? rest else none

/-- The lower case name of the start tag that a markup begins with; §6, `tagName`. -/
def nameOf? (markup : Bytes) : Option Bytes := (ofMarkup? markup).map lowerName

/-- Whether a text is one start tag of a known element and nothing else (`is_valid_start_tag`). -/
def isKnownTag (text : Bytes) : Bool :=
  match ofMarkup? text with
  | some tag => tag.length == text.length && Tag.isKnown tag.name
  | none => false

/-- A tag is two bytes longer than its name and its attribute list. -/
theorem length_eq (tag : StartTag) : tag.length = tag.name.length + tag.attributes.length + 2 := by
  simp [length, text]
  omega

/-- A tag is not empty. -/
theorem length_pos (tag : StartTag) : 0 < tag.length := by
  simp [length_eq]

/-- The parts found behind `<` make up the beginning of the rest. -/
theorem ofRest?_eq_some {rest : Bytes} {tag : StartTag} (h : ofRest? rest = some tag) :
    tag.name ≠ [] ∧ tag.name.all Tag.isNameByte = true ∧ Ascii.greater ∉ tag.attributes ∧
      tag.name ++ tag.attributes ++ [Ascii.greater] <+: rest := by
  simp only [ofRest?, Option.ite_none_right_eq_some, Bool.and_eq_true, Bool.not_eq_true',
    Option.some.injEq] at h
  obtain ⟨⟨hname, hclose⟩, rfl⟩ := h
  obtain ⟨attributes, behind, hsplit, hgreater⟩ :=
    List.eq_append_cons_of_mem (List.contains_iff_mem.mp hclose)
  have hall : ∀ b ∈ attributes, (b != Ascii.greater) = true :=
    fun b hb ↦ bne_iff_ne.mpr fun h ↦ hgreater (h ▸ hb)
  have htake : (rest.dropWhile Tag.isNameByte).takeWhile (· != Ascii.greater) = attributes := by
    rw [hsplit, List.takeWhile_append_of_pos hall, List.takeWhile_cons_of_neg (by simp),
      List.append_nil]
  refine ⟨by simpa using hname, List.all_takeWhile, by rwa [htake], behind, ?_⟩
  rw [htake, List.append_assoc, List.append_assoc, List.singleton_append, ← hsplit,
    List.takeWhile_append_dropWhile]

/-- A markup that begins with a start tag begins with the tag's text. -/
theorem text_prefix_of_ofMarkup? {markup : Bytes} {tag : StartTag}
    (h : ofMarkup? markup = some tag) :
    tag.text <+: markup := by
  cases markup with
  | nil => simp [ofMarkup?] at h
  | cons b rest =>
    simp only [ofMarkup?] at h
    split at h
    next hb =>
      subst hb
      exact List.cons_prefix_cons.mpr ⟨rfl, (ofRest?_eq_some h).2.2.2⟩
    next => simp at h

end StartTag

/-!
### Inside a start tag

Whether a place lies inside a start tag is told from the nearest angle brackets alone: backward it
must be a `<` that no `/` follows, and forward, behind the byte at the place, a `>`. A place without
a bracket on one of its sides is outside, which §4.3 would have inside.
-/

namespace Place

/-- Whether the nearest bracket backward opens a start tag, where `next` is the byte in front of
which the bytes of the list lie. -/
def opened (next : UInt8) : Bytes → Bool
  | [] => false
  | b :: before =>
    if b = Ascii.less then next != Ascii.slash
    else if b = Ascii.greater then false
    else opened b before

/-- Whether the nearest bracket forward is a `>`. -/
def closed : Bytes → Bool
  | [] => false
  | b :: after => if b = Ascii.greater then true else if b = Ascii.less then false else closed after

/-- Whether a place lies inside a start tag; the end of the text does not (§4.3). -/
def insideStartTag (p : Place) : Bool :=
  match p.after with
  | [] => false
  | b :: after => opened b p.before && closed after

/-- The offset of the nearest `<` backward, and the text from there through the nearest `>`
forward. -/
def enclosing? (p : Place) : Option (Nat × Bytes) :=
  if p.before.contains Ascii.less && p.after.contains Ascii.greater then
    let lead := p.before.takeWhile (· != Ascii.less)
    let rest := p.after.takeWhile (· != Ascii.greater)
    some (p.offset - lead.length - 1, Ascii.less :: (lead.reverse ++ rest ++ [Ascii.greater]))
  else none

/-- An angle bracket. -/
def isBracket (b : UInt8) : Bool := b == Ascii.less || b == Ascii.greater

/-- Forward, the first bracket decides. -/
theorem closed_eq (after : Bytes) :
    closed after = (after.find? isBracket == some Ascii.greater) := by
  induction after with
  | nil => rfl
  | cons b after ih =>
    by_cases hg : b = Ascii.greater
    · simp [closed, isBracket, hg]
    · by_cases hl : b = Ascii.less
      · subst hl
        rfl
      · simp [closed, isBracket, hg, hl, ih]

end Place

end MarkupSelect
