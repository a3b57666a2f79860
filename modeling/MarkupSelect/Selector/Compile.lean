import MarkupSelect.Selector.Basic
import MarkupSelect.Text.Blank

/-!
# Compiling selectors

The characters of a selector are classed as lexemes, and the lexemes are fed one by one to a builder
of steps and alternatives. This is the selector compiler of `SPEC_FULL.md` §4.5, with the details of
§12.
-/

namespace MarkupSelect

/-!
### Lexemes

Each character of a selector is punctuation, a blank or a literal. A backslash in front of
punctuation makes a literal of it; the two together are one lexeme.
-/

/-- The kinds of characters in a selector: one that stands for itself, one with a meaning of its
own, and a blank; the character classification of §4.5. -/
inductive CharKind where
  | literal
  | punctuation
  | space
deriving DecidableEq, Repr

namespace CharKind

/-- The characters that have, or are kept for, a meaning of their own. -/
def reserved : List Char :=
  ['!', '"', '#', '$', '%', '&', '\'', '(', ')', '*', '+', ',', '.', '/', ':', ';', '<', '=', '>',
    '?', '@', '[', '\\', ']', '^', '\x60', '\x7b', '|', '\x7d', '~']

/-- Whether a character is kept as punctuation. -/
def isReserved (c : Char) : Bool := reserved.contains c

/-- The kind of a character that no backslash precedes. -/
def ofChar (c : Char) : CharKind :=
  if isReserved c then .punctuation else if Text.isBlank c then .space else .literal

end CharKind

/-- A character of a selector, without a backslash in front of it, with the kind it has where it
stands. -/
structure Lexeme where
  kind : CharKind
  char : Char
deriving DecidableEq, Repr

namespace Lexeme

/-- Whether a lexeme is a certain punctuation. -/
def isPunctuation (l : Lexeme) (c : Char) : Bool := l.kind == .punctuation && l.char == c

/-- The lexemes of a text. -/
def ofText : List Char → List Lexeme
  | [] => []
  | [c] => [⟨CharKind.ofChar c, c⟩]
  | c :: d :: text =>
    if c = '\\' && CharKind.isReserved d then ⟨.literal, d⟩ :: ofText text
    else ⟨CharKind.ofChar c, c⟩ :: ofText (d :: text)

end Lexeme

/-!
### The builder

The lexemes are fed one by one to a builder that knows which part of a step it is reading, the step
so far, the steps of the alternative so far and the alternatives before. The classes of a step are
gathered and become one predicate when the step ends.
-/

/-- The two short forms of a predicate, `#id` and `.class`. -/
inductive Shorthand where
  | identifier
  | className
deriving DecidableEq, Repr

/-- The character that begins a short form. -/
def Shorthand.char : Shorthand → Char
  | identifier => '#'
  | className => '.'

/-- The part of a selector that is being read, with what has been read of it. Between two parts the
next lexeme begins one; the value in a bracket is read up to its quote if it began with one, and
`afterValue` is what may stand between the value and the end of the bracket. -/
inductive Reading where
  | between
  | tagName (name : List Char)
  | shorthand (kind : Shorthand) (name : List Char)
  | attributeName (name : List Char)
  | operator (name symbol : List Char)
  | value (name symbol : List Char) (quote : Option Char) (value : List Char)
  | afterValue (name symbol value : List Char)
deriving DecidableEq, Repr

/-- A selector in the making: the part that is being read, the alternatives that are complete, the
steps of this one that are, and of this step its tag name, its predicates but for its classes, its
classes, and the combinator in front of it; the state of the walk in §4.5. -/
structure Builder where
  reading : Reading
  alternatives : List Alternative
  steps : List Step
  tag : Option String
  predicates : List Predicate
  classes : List String
  pending : Combinator
deriving DecidableEq, Repr

namespace Builder

/-- The builder that has read nothing. -/
def empty : Builder := ⟨.between, [], [], none, [], [], .descendant⟩

/-- The characters of which operators consist. -/
def operatorChars : List Char := ['=', '!', '<', '>', '|', '~', '*', '^', '$']

/-- A string of lower case letters, where there were letters. -/
def lowered (name : List Char) : String := String.ofList (name.map Char.toLower)

/-- The step has a tag name, which must be the one that it has already, if it has one. -/
def withTag (b : Builder) (name : List Char) : Except SelectorError Builder :=
  let name := lowered name
  match b.tag with
  | none => .ok { b with reading := .between, tag := some name }
  | some first =>
    if first = name then .ok { b with reading := .between }
    else .error (.conflictingTagNames first name)

/-- The step has an identifier or one more class. -/
def withShorthand (b : Builder) (kind : Shorthand) (name : List Char) :
    Except SelectorError Builder :=
  if name.isEmpty then .error (.emptyShorthand kind.char)
  else
    match kind with
    | .identifier =>
      .ok { b with
        reading := .between
        predicates := b.predicates ++ [⟨"id", .equals, String.ofList name⟩] }
    | .className => .ok { b with reading := .between, classes := b.classes ++ [String.ofList name] }

/-- The operator of a bracket; without a symbol it asks for the presence of the attribute. -/
def operatorOf (symbol : List Char) : Except SelectorError Operator :=
  if symbol.isEmpty then .ok .present
  else
    match Operator.ofSymbol? (String.ofList symbol) with
    | some operator => .ok operator
    | none => .error (.unknownOperator (String.ofList symbol))

/-- The step has the predicate of a bracket. -/
def withPredicate (b : Builder) (name symbol value : List Char) : Except SelectorError Builder := do
  let operator ← operatorOf symbol
  return { b with
    reading := .between
    predicates := b.predicates ++ [⟨lowered name, operator, String.ofList value⟩] }

/-- The predicate that all classes of a step amount to. -/
def classPredicates : List String → List Predicate
  | [] => []
  | [c] => [⟨"class", .anyWord, c⟩]
  | classes => [⟨"class", .allWords, " ".intercalate classes⟩]

/-- The step is complete; if nothing was read of one, the combinator in front of it stays. -/
def endStep (b : Builder) : Builder :=
  let predicates := b.predicates ++ classPredicates b.classes
  if b.tag.isNone && predicates.isEmpty then b
  else
    { b with
      steps := b.steps ++ [⟨b.tag, b.pending, predicates⟩]
      tag := none
      predicates := []
      classes := []
      pending := .descendant }

/-- The alternative is complete. -/
def endAlternative (b : Builder) : Except SelectorError Builder :=
  let b := b.endStep
  if b.pending = .child then .error .danglingCombinator
  else if b.steps.isEmpty then .error .emptyAlternative
  else .ok { b with alternatives := b.alternatives ++ [b.steps], steps := [] }

/-- A lexeme between two parts begins the next one, ends the step or ends the alternative. -/
def between (b : Builder) (position : Nat) (l : Lexeme) : Except SelectorError Builder :=
  match l.kind with
  | .literal => .ok { b with reading := .tagName [l.char] }
  | .space => .ok b.endStep
  | .punctuation =>
    if l.char = '#' then .ok { b with reading := .shorthand .identifier [] }
    else if l.char = '.' then .ok { b with reading := .shorthand .className [] }
    else if l.char = '[' then .ok { b with reading := .attributeName [] }
    else if l.char = '>' then
      let b := b.endStep
      if b.pending = .child then .error (.unexpectedToken l.char position)
      else .ok { b with pending := .child }
    else if l.char = ',' then b.endAlternative
    else .error (.unexpectedToken l.char position)

/-- A lexeme behind an attribute name or in the operator of a bracket. -/
def inOperator (b : Builder) (position : Nat) (l : Lexeme) (name symbol : List Char) :
    Except SelectorError Builder :=
  if l.kind = .space then .ok { b with reading := .operator name symbol }
  else if l.isPunctuation ']' then b.withPredicate name symbol []
  else if l.kind = .punctuation && operatorChars.contains l.char then
    .ok { b with reading := .operator name (symbol ++ [l.char]) }
  else if symbol.isEmpty then .error (.unexpectedToken l.char position)
  else if l.isPunctuation '"' || l.isPunctuation '\'' then
    .ok { b with reading := .value name symbol (some l.char) [] }
  else .ok { b with reading := .value name symbol none [l.char] }

/-- A lexeme in the attribute name of a bracket. -/
def inAttributeName (b : Builder) (position : Nat) (l : Lexeme) (name : List Char) :
    Except SelectorError Builder :=
  match l.kind with
  | .literal => .ok { b with reading := .attributeName (name ++ [l.char]) }
  | .space =>
    .ok { b with reading := if name.isEmpty then .attributeName [] else .operator name [] }
  | .punctuation =>
    if name.isEmpty then .error (.unexpectedToken l.char position)
    else b.inOperator position l name []

/-- A lexeme in the value of a bracket. -/
def inValue (b : Builder) (l : Lexeme) (name symbol : List Char) (quote : Option Char)
    (value : List Char) : Except SelectorError Builder :=
  match quote with
  | some q =>
    if l.isPunctuation q then .ok { b with reading := .afterValue name symbol value }
    else .ok { b with reading := .value name symbol quote (value ++ [l.char]) }
  | none =>
    if l.kind = .space then .ok { b with reading := .afterValue name symbol value }
    else if l.isPunctuation ']' then b.withPredicate name symbol value
    else .ok { b with reading := .value name symbol quote (value ++ [l.char]) }

/-- The builder after one more lexeme, which is the one at the position. -/
def feed (b : Builder) (position : Nat) (l : Lexeme) : Except SelectorError Builder :=
  match b.reading with
  | .between => b.between position l
  | .tagName name =>
    if l.kind = .literal then .ok { b with reading := .tagName (name ++ [l.char]) }
    else do (← b.withTag name).between position l
  | .shorthand kind name =>
    if l.kind = .literal then .ok { b with reading := .shorthand kind (name ++ [l.char]) }
    else do (← b.withShorthand kind name).between position l
  | .attributeName name => b.inAttributeName position l name
  | .operator name symbol => b.inOperator position l name symbol
  | .value name symbol quote value => b.inValue l name symbol quote value
  | .afterValue name symbol value =>
    if l.kind = .space then .ok b
    else if l.isPunctuation ']' then b.withPredicate name symbol value
    else .error (.unexpectedToken l.char position)

/-- The builder after some more lexemes, of which the first is the one at the position. -/
def feedAll (b : Builder) (position : Nat) : List Lexeme → Except SelectorError Builder
  | [] => .ok b
  | l :: lexemes => do (← b.feed position l).feedAll (position + 1) lexemes

/-- The alternatives, now that there are no more lexemes. -/
def finish (b : Builder) : Except SelectorError (List Alternative) := do
  let b ←
    match b.reading with
    | .between => .ok b
    | .tagName name => b.withTag name
    | .shorthand kind name => b.withShorthand kind name
    | _ => .error .unterminatedBracket
  return (← b.endAlternative).alternatives

/-- Feeding two lists of lexemes is feeding one behind the other. -/
theorem feedAll_append (b : Builder) (position : Nat) (ls ms : List Lexeme) :
    b.feedAll position (ls ++ ms) =
      b.feedAll position ls >>= fun b ↦ b.feedAll (position + ls.length) ms := by
  induction ls generalizing b position with
  | nil => rfl
  | cons l ls ih =>
    simp only [List.cons_append, feedAll, bind_assoc, List.length_cons]
    congr
    funext b
    rw [ih, Nat.add_assoc, Nat.add_comm 1]

end Builder

/-!
### The compiler

Before the lexemes are read, the ends of the text are looked at: a selector ends with no punctuation
but `]` and begins with none but `#`, `.` and `[`.
-/

namespace Selector

/-- The error that the ends of a trimmed text make, if they make one; the pre-validation of §4.5. -/
def edgeError? (text : List Char) : Option SelectorError :=
  match text.head?, text.getLast? with
  | some first, some last =>
    if CharKind.isReserved last && last != ']' then some (.trailingPunctuation last)
    else if CharKind.isReserved first && !(['#', '.', '['].contains first) then
      some (.leadingPunctuation first)
    else none
  | _, _ => some .empty

/-- The alternatives that a trimmed text stands for. -/
def alternativesOf (text : List Char) : Except SelectorError (List Alternative) := do
  (← Builder.empty.feedAll 0 (Lexeme.ofText text)).finish

/-- The selector that a text stands for; §6, `compileSelector`. -/
def compile (text : String) : Except SelectorError Selector :=
  let trimmed := Text.trim text.toList
  match edgeError? trimmed with
  | some error => .error error
  | none => do return ⟨String.ofList trimmed, ← alternativesOf trimmed⟩

end Selector

end MarkupSelect
