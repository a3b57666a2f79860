import MarkupSelect.Condition.Basic
import MarkupSelect.Text.Blank

/-!
# Reading conditions

A condition is written as atoms joined by ` AND ` into groups and by ` OR ` between the groups;
inside quotes neither joins anything. An atom is a field, an operator by its symbol or by words, and
a value; a field alone asks for the presence of the attribute. A value in quotes is taken without
them and without the backslashes that escape. The grammar is that of `SPEC_FULL.md` §4.4 and §12,
but that a field may end at an operator as well as at white space.
-/

namespace MarkupSelect

/-- Why a condition cannot be read: there is no field where an atom should be, no operator follows
the field, or the quote that begins a value is not closed; §11.1. -/
inductive ConditionError where
  | missingField
  | unknownOperator (field rest : String)
  | unterminatedQuote (value : String)
deriving DecidableEq, Repr

/-- The wording of an error. -/
def ConditionError.message : ConditionError → String
  | missingField => "empty condition between AND/OR"
  | unknownOperator field rest => "unknown operator after `" ++ field ++ "`: `" ++ rest ++ "`"
  | unterminatedQuote value => "unterminated quote in condition `" ++ value ++ "`"

namespace Operator

/-- The spellings of the operators, symbols and words. -/
def aliases : List (String × Operator) :=
  [("=", equals), ("equals", equals), ("is", equals), ("!=", notEquals), ("is not", notEquals),
    ("<", less), ("is less than", less), (">", greater), ("is greater than", greater),
    ("<=", lessOrEqual), ("is less than or equals", lessOrEqual), (">=", greaterOrEqual),
    ("is greater than or equals", greaterOrEqual), ("|=", hyphenated),
    ("contains prefix", hyphenated), ("~=", anyWord), ("contains word", anyWord),
    ("contains any word", anyWord), ("~~=", allWords), ("contains all word", allWords),
    ("contains all words", allWords), ("!*=", notContains), ("does not contain", notContains),
    ("*=", contains), ("contains", contains), ("!^=", notStartsWith),
    ("does not start with", notStartsWith), ("^=", startsWith), ("starts with", startsWith),
    ("!$=", notEndsWith), ("does not end with", notEndsWith), ("$=", endsWith),
    ("ends with", endsWith)]

/-- Whether a spelling consists of words. -/
def isWorded (spelling : List Char) : Bool := spelling.head?.any Char.isAlpha

/-- A character at which a word ends. -/
def endsWord (c : Char) : Bool := Text.isAsciiBlank c || c == '"' || c == '\''

/-- Whether a spelling stands at the beginning of a text, in any letter case; words must be followed
by white space, a quote or the end. -/
def isSpelled (spelling text : List Char) : Bool :=
  (text.take spelling.length).map Char.toLower == spelling.map Char.toLower &&
    (!isWorded spelling || (text.drop spelling.length).head?.all endsWord)

/-- The longest of some spellings. -/
def longest? : List (String × Operator) → Option (String × Operator)
  | [] => none
  | a :: rest =>
    match longest? rest with
    | none => some a
    | some b => if b.1.length < a.1.length then some a else some b

/-- The operator that a text begins with by its longest spelling, and the text behind it; §12. -/
def ofText? (text : List Char) : Option (Operator × List Char) :=
  (longest? (aliases.filter fun a ↦ isSpelled a.1.toList text)).map fun a ↦
    (a.2, text.drop a.1.length)

end Operator

namespace Condition

/-- The text up to the closing quote without the backslashes that escape; `none` if no quote closes
it. -/
def unescape? (quote : Char) : List Char → Option (List Char)
  | [] => none
  | '\\' :: [] => none
  | '\\' :: c :: rest => (unescape? quote rest).map (c :: ·)
  | c :: rest => if c = quote then some [] else (unescape? quote rest).map (c :: ·)

/-- The value that a text stands for: what its quotes enclose, or itself if it does not begin with
one. -/
def readValue (text : List Char) : Except ConditionError String :=
  match text with
  | [] => .ok ""
  | c :: inner =>
    if c = '"' || c = '\'' then
      match unescape? c inner with
      | some value => .ok (String.ofList value)
      | none => .error (.unterminatedQuote (String.ofList text))
    else .ok (String.ofList text)

/-- A character at which a field ends. -/
def endsField (c : Char) : Bool :=
  Text.isAsciiBlank c || ['=', '!', '<', '>', '|', '~', '*', '^', '$'].contains c

/-- The atom that a text stands for. -/
def readAtom (text : List Char) : Except ConditionError Atom :=
  let text := Text.trim text
  let field := text.takeWhile (! endsField ·)
  let rest := Text.trimStart (text.dropWhile (! endsField ·))
  let name := String.ofList (field.map Char.toLower)
  if field.isEmpty then .error .missingField
  else if rest.isEmpty then .ok ⟨name, .present, ""⟩
  else
    match Operator.ofText? rest with
    | none => .error (.unknownOperator (String.ofList field) (String.ofList rest))
    | some (operator, value) => do
      let value ← readValue (Text.trim value)
      return ⟨name, operator, value⟩

/-- A list of pieces with one more character at the beginning of the first. -/
def extend (c : Char) : List (List Char) → List (List Char)
  | [] => [[c]]
  | piece :: pieces => (c :: piece) :: pieces

/-- The pieces of a text between the separators that stand outside quotes; `quote` is the quote that
is open, and `skip` characters of a separator are still to be passed. -/
def split (separator : List Char) :
    (quote : Option Char) → (skip : Nat) → List Char → List (List Char)
  | _, _, [] => [[]]
  | quote, skip + 1, _ :: text => split separator quote skip text
  | some _, 0, '\\' :: [] => [['\\']]
  | some q, 0, '\\' :: c :: text => extend '\\' (extend c (split separator (some q) 0 text))
  | some q, 0, c :: text => extend c (split separator (if c = q then none else some q) 0 text)
  | none, 0, c :: text =>
    if c = '"' || c = '\'' then extend c (split separator (some c) 0 text)
    else if separator.isPrefixOf (c :: text) then
      [] :: split separator none (separator.length - 1) text
    else extend c (split separator none 0 text)

/-- The group of atoms that a text stands for. -/
def readGroup (text : List Char) : Except ConditionError (List Atom) :=
  (split " AND ".toList none 0 text).mapM readAtom

/-- The condition that a text stands for; a blank text is the condition that always holds. Outside
quotes ` OR ` is cut first and ` AND ` within (§4.4). -/
def read (text : String) : Except ConditionError Condition :=
  if (Text.trim text.toList).isEmpty then .ok always
  else do
    let groups ← (split " OR ".toList none 0 text.toList).mapM readGroup
    return ⟨groups⟩

end Condition

end MarkupSelect
