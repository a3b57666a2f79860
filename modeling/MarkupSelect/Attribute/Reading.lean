import MarkupSelect.Attribute.Map
import MarkupSelect.Text.Blank

/-!
# Reading the attributes of a start tag

An attribute list is read as names, each with a value if a `=` follows it at once. White space may
stand between a `=` and its value. A value in quotes ends at the same quote, any other at white
space, and both at the end of the list. What is written without a name is passed over. This is the
attribute extractor of `SPEC_FULL.md` §4.2, with what §12 adds on the end of the list.
-/

namespace MarkupSelect

namespace Attribute

/-- A byte that continues a name. -/
def continuesName (b : UInt8) : Bool := !(b == Ascii.equals || Ascii.isSpace b)

/-- What follows the name at the beginning of an attribute list. -/
def afterName (text : Bytes) : Bytes := text.dropWhile continuesName

/-- A value, read from behind the `=` and white space, and what follows it. -/
def takeValue : Bytes → Bytes × Bytes
  | [] => ([], [])
  | b :: text =>
    if Ascii.isQuote b then (text.takeWhile (· != b), (text.dropWhile (· != b)).drop 1)
    else ((b :: text).takeWhile (! Ascii.isSpace ·), (b :: text).dropWhile (! Ascii.isSpace ·))

/-- Reading a value only shortens the list. -/
theorem length_takeValue_le (text : Bytes) : (takeValue text).2.length ≤ text.length := by
  cases text with
  | nil => simp [takeValue]
  | cons b text =>
    simp only [takeValue]
    split
    · have := (List.dropWhile_sublist (· != b) (l := text)).length_le
      simp
      omega
    · exact (List.dropWhile_sublist _).length_le

/-- The attributes written in an attribute list, in order, those with an empty name included. -/
def written (text : Bytes) : List (Bytes × Option Bytes) :=
  match _h : text.dropWhile Ascii.isSpace with
  | [] => []
  | b :: rest =>
    let name := (b :: rest).takeWhile continuesName
    match _h' : afterName (b :: rest) with
    | [] => [(name, none)]
    | c :: behind =>
      if c = Ascii.equals then
        let read := takeValue (behind.dropWhile Ascii.isSpace)
        (name, some read.1) :: written read.2
      else (name, none) :: written behind
termination_by text.length
decreasing_by
  all_goals
    have h₁ := (List.dropWhile_sublist Ascii.isSpace (l := text)).length_le
    have h₂ := (List.dropWhile_sublist continuesName (l := b :: rest)).length_le
    have h₃ := (List.dropWhile_sublist Ascii.isSpace (l := behind)).length_le
    have h₄ := length_takeValue_le (behind.dropWhile Ascii.isSpace)
    rw [_h] at h₁
    rw [← afterName, _h'] at h₂
    simp only [List.length_cons] at h₁ h₂ h₃
    omega

/-- A text without the `/` at its end, if one is there. -/
def withoutSlash (text : Bytes) : Bytes :=
  if text.getLast? = some Ascii.slash then text.dropLast else text

/-- An attribute list without the blanks at its end and without the `/` of a tag that closes
itself. -/
def trimmed (text : Bytes) : Bytes := Bytes.trimEnd (withoutSlash (Bytes.trimEnd text))

/-- The named attributes of an attribute list, the names in lower case. -/
def named (text : Bytes) : List (Bytes × Option Bytes) :=
  ((written (trimmed text)).filter (! ·.1.isEmpty)).map fun e ↦ (Bytes.lower e.1, e.2)

end Attribute

namespace AttributeMap

/-- The attributes of a start tag. -/
def ofStartTag (tag : StartTag) : AttributeMap := ofList (Attribute.named tag.attributes)

/-- The attributes of the start tag that a markup begins with, none if there is no such tag; §6,
`extractAttributes`. -/
def ofMarkup (markup : Bytes) : AttributeMap :=
  match StartTag.ofMarkup? markup with
  | some tag => ofStartTag tag
  | none => empty

/-- The attributes of a markup whose names could be written in a tag; `extractAttributes` with
validation. -/
def ofMarkupValid (markup : Bytes) : AttributeMap := (ofMarkup markup).retain Attribute.isName

end AttributeMap

end MarkupSelect
