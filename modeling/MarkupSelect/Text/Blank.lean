import MarkupSelect.Text.Bytes

/-!
# Blanks

The characters of the Unicode property `White_Space`. Selectors and conditions are trimmed of them
at both ends, and the attribute list of a tag at its end, where they are found by their encodings.
-/

namespace MarkupSelect

namespace Text

/-- The characters with the property `White_Space`. -/
def blanks : List Char :=
  ['\t', '\n', '\x0B', '\x0C', '\r', ' ', '\u0085', '\u00A0', '\u1680', '\u2000', '\u2001',
    '\u2002', '\u2003', '\u2004', '\u2005', '\u2006', '\u2007', '\u2008', '\u2009', '\u200A',
    '\u2028', '\u2029', '\u202F', '\u205F', '\u3000']

/-- Whether a character is a blank. -/
def isBlank (c : Char) : Bool := blanks.contains c

/-- White space of ASCII without the vertical tab. -/
def isAsciiBlank (c : Char) : Bool :=
  c == ' ' || c == '\t' || c == '\n' || c == '\x0C' || c == '\r'

/-- The text without the blanks at its beginning. -/
def trimStart (cs : List Char) : List Char := cs.dropWhile isBlank

/-- The text without the blanks at its end. -/
def trimEnd (cs : List Char) : List Char := (cs.reverse.dropWhile isBlank).reverse

/-- The text without the blanks at its ends. -/
def trim (cs : List Char) : List Char := trimEnd (trimStart cs)

/-- A trimmed text does not begin with a blank. -/
theorem isBlank_head_trimStart {c : Char} {cs rest : List Char} (h : trimStart cs = c :: rest) :
    isBlank c = false := by
  have hd := List.head?_dropWhile_not isBlank cs
  rw [trimStart] at h
  simpa [h] using hd

end Text

namespace Bytes

/-- What follows the reversed encoding of one blank at the beginning of a reversed text. -/
def dropBlank? (reversed : Bytes) : Option Bytes :=
  Text.blanks.findSome? fun c ↦ strip? (String.utf8EncodeChar c).reverse reversed

/-- Dropping a blank leaves less. -/
theorem length_lt_of_dropBlank? {r s : Bytes} (h : dropBlank? r = some s) :
    s.length < r.length := by
  obtain ⟨c, -, hc⟩ := List.exists_of_findSome?_eq_some h
  have hlen := congrArg List.length (strip?_eq_some_iff.mp hc)
  have := c.utf8Size_pos
  simp at hlen
  omega

/-- A reversed text without the blanks that it begins with. -/
def dropBlanks (reversed : Bytes) : Bytes :=
  match _h : dropBlank? reversed with
  | none => reversed
  | some rest => dropBlanks rest
termination_by reversed.length
decreasing_by exact length_lt_of_dropBlank? _h

/-- The text without the blanks at its end. -/
def trimEnd (text : Bytes) : Bytes := (dropBlanks text.reverse).reverse

end Bytes

end MarkupSelect
