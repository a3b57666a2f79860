/-!
# Texts as bytes

Markup is handled as the bytes of its UTF-8 encoding, and every offset counts bytes: the document
and its positions in `SPEC_FULL.md` §3.
-/

namespace MarkupSelect

/-!
### Bytes of the ASCII range

The bytes that markup gives a meaning to, the classes its grammars use, and letter case. Case and
classes are those of ASCII alone: a byte above `0x7F` is of no class and has no other case, so every
test here may be made inside the encoding of any character.
-/

namespace Ascii

/-- The byte `<`, which opens a tag. -/
abbrev less : UInt8 := 0x3C

/-- The byte `>`, which closes a tag. -/
abbrev greater : UInt8 := 0x3E

/-- The byte `/`. -/
abbrev slash : UInt8 := 0x2F

/-- The byte `=`. -/
abbrev equals : UInt8 := 0x3D

/-- The byte `"`. -/
abbrev doubleQuote : UInt8 := 0x22

/-- The byte `'`. -/
abbrev singleQuote : UInt8 := 0x27

/-- The byte `_`. -/
abbrev underscore : UInt8 := 0x5F

/-- The byte `-`. -/
abbrev hyphen : UInt8 := 0x2D

/-- The byte `[`. -/
abbrev openBracket : UInt8 := 0x5B

/-- The byte `]`. -/
abbrev closeBracket : UInt8 := 0x5D

/-- The byte of the digit `0`. -/
abbrev zero : UInt8 := 0x30

/-- The byte of a blank. -/
abbrev space : UInt8 := 0x20

/-- White space in markup: blank, tab, line feed, vertical tab, form feed, carriage return. -/
def isSpace (b : UInt8) : Bool := b == space || (0x09 ≤ b && b ≤ 0x0D)

/-- A letter `A` to `Z`. -/
def isUpper (b : UInt8) : Bool := 0x41 ≤ b && b ≤ 0x5A

/-- A letter `a` to `z`. -/
def isLower (b : UInt8) : Bool := 0x61 ≤ b && b ≤ 0x7A

/-- A letter of either case. -/
def isLetter (b : UInt8) : Bool := isUpper b || isLower b

/-- A digit `0` to `9`. -/
def isDigit (b : UInt8) : Bool := 0x30 ≤ b && b ≤ 0x39

/-- Either of the two quotes. -/
def isQuote (b : UInt8) : Bool := b == doubleQuote || b == singleQuote

/-- The lower case of a letter; any other byte is left alone. -/
def toLower (b : UInt8) : UInt8 := if isUpper b then b + 0x20 else b

/-- The upper case of a letter; any other byte is left alone. -/
def toUpper (b : UInt8) : UInt8 := if isLower b then b - 0x20 else b

/-- Whether a byte is the given one in lower or in upper case. -/
def isEitherCase (letter b : UInt8) : Bool := b == toLower letter || b == toUpper letter

/-- A property of all bytes is settled by the 256 cases. -/
theorem forall_byte {p : UInt8 → Prop} (h : ∀ n : Fin 256, p (UInt8.ofFin n)) (b : UInt8) : p b :=
  h b.toFin

/-- Lowering twice is lowering once. -/
@[simp] theorem toLower_toLower (b : UInt8) : toLower (toLower b) = toLower b :=
  forall_byte (p := fun b ↦ toLower (toLower b) = toLower b) (by decide +kernel) b

/-- A lowered byte is no upper case letter. -/
@[simp] theorem isUpper_toLower (b : UInt8) : isUpper (toLower b) = false :=
  forall_byte (p := fun b ↦ isUpper (toLower b) = false) (by decide +kernel) b

/-- A byte that is no upper case letter is its own lower case. -/
theorem toLower_of_not_isUpper {b : UInt8} (h : isUpper b = false) : toLower b = b := by
  simp [toLower, h]

/-- White space has no letter case. -/
@[simp] theorem isSpace_toLower (b : UInt8) : isSpace (toLower b) = isSpace b :=
  forall_byte (p := fun b ↦ isSpace (toLower b) = isSpace b) (by decide +kernel) b

end Ascii

/-!
### Texts

Names are compared without regard to ASCII letter case.
-/

/-- A text as the list of the bytes of its UTF-8 encoding. -/
abbrev Bytes := List UInt8

namespace Bytes

/-- The encoding of a list of characters. -/
def ofChars (cs : List Char) : Bytes := cs.flatMap String.utf8EncodeChar

/-- The encoding of a string. -/
def ofString (s : String) : Bytes := ofChars s.toList

/-- The string with this encoding, if the bytes encode one. -/
def toString? (text : Bytes) : Option String := String.fromUTF8? text.toByteArray

/-- The text with every ASCII letter in lower case. -/
def lower (text : Bytes) : Bytes := text.map Ascii.toLower

/-- Whether two texts are equal but for the case of ASCII letters. -/
def agree (s t : Bytes) : Bool := s.lower == t.lower

/-- What follows `lead` in a text that begins with it, byte for byte. -/
def strip? (lead text : Bytes) : Option Bytes :=
  if lead.isPrefixOf text then some (text.drop lead.length) else none

/-- Stripping finds exactly the rest. -/
theorem strip?_eq_some_iff {lead text rest : Bytes} :
    strip? lead text = some rest ↔ text = lead ++ rest := by
  unfold strip?
  split
  next h =>
    obtain ⟨t, rfl⟩ := List.isPrefixOf_iff_prefix.mp h
    simp [eq_comm]
  next h =>
    simp only [reduceCtorEq, false_iff]
    rintro rfl
    exact h (List.isPrefixOf_iff_prefix.mpr (List.prefix_append lead rest))

@[simp] theorem ofChars_nil : ofChars [] = [] := rfl

@[simp] theorem ofChars_cons (c : Char) (cs : List Char) :
    ofChars (c :: cs) = String.utf8EncodeChar c ++ ofChars cs := rfl

@[simp] theorem ofChars_append (cs ds : List Char) :
    ofChars (cs ++ ds) = ofChars cs ++ ofChars ds := by
  simp [ofChars]

@[simp] theorem length_lower (text : Bytes) : text.lower.length = text.length := by
  simp [lower]

@[simp] theorem lower_lower (text : Bytes) : text.lower.lower = text.lower := by
  simp [lower, Function.comp_def]

@[simp] theorem lower_append (s t : Bytes) : (s ++ t).lower = s.lower ++ t.lower := by
  simp [lower]

@[simp] theorem agree_refl (s : Bytes) : agree s s = true := by simp [agree]

/-- Agreement is equality of the lower case forms. -/
theorem agree_iff {s t : Bytes} : agree s t = true ↔ s.lower = t.lower := by simp [agree]

/-- Agreement does not depend on which text comes first. -/
theorem agree_comm (s t : Bytes) : agree s t = agree t s := by
  simp [agree, Bool.beq_comm]

/-- Texts that agree, agree with the same texts. -/
theorem agree_congr {s t : Bytes} (h : agree s t = true) : agree s = agree t := by
  funext u
  simp [agree, agree_iff.mp h]

end Bytes

/-!
### Words

A value such as that of `class` lists words, separated by white space of ASCII.
-/

namespace Bytes

/-- The pieces between white space, the empty ones included. -/
def pieces : Bytes → List Bytes
  | [] => [[]]
  | b :: text =>
    if Ascii.isSpace b then [] :: pieces text
    else
      match pieces text with
      | [] => [[b]]
      | piece :: rest => (b :: piece) :: rest

/-- The words of a value, in order; §12 compares by words. -/
def words (value : Bytes) : List Bytes := (pieces value).filter (! ·.isEmpty)

@[simp] theorem words_nil : words [] = [] := by simp [words, pieces]

end Bytes

end MarkupSelect
