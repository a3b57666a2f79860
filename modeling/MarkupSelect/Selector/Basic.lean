import MarkupSelect.Condition.Basic

/-!
# Selectors

A selector is a list of alternatives, each a list of steps from the outside inward. A step asks for
a tag name, for predicates on attributes, or for both, and says how it lies in what the step before
it selects. These are the compiled selectors of `SPEC_FULL.md` §3.
-/

namespace MarkupSelect

/-- How a step lies in what the step before it selects: anywhere inside, or as a direct child. -/
inductive Combinator where
  | descendant
  | child
deriving DecidableEq, Repr

/-- A comparison of an attribute that a step asks for; the name is in lower case. -/
structure Predicate where
  name : String
  operator : Operator
  value : String
deriving DecidableEq, Repr

/-- What one element has to meet: the name of its tag in lower case, if that matters, and predicates
on its attributes. -/
structure Step where
  tag : Option String
  combinator : Combinator
  predicates : List Predicate
deriving DecidableEq, Repr

/-- The steps from the outside inward. -/
abbrev Alternative := List Step

/-- A selector that has been compiled: its alternatives in the order written, with the text they
were compiled from, without the blanks at its ends. -/
structure Selector where
  source : String
  alternatives : List Alternative
deriving DecidableEq, Repr

/-- Why a text is no selector. Positions count lexemes; the failures are those of §11.1. -/
inductive SelectorError where
  | empty
  | leadingPunctuation (char : Char)
  | trailingPunctuation (char : Char)
  | conflictingTagNames (first second : String)
  | unknownOperator (symbol : String)
  | unterminatedBracket
  | unexpectedToken (char : Char) (position : Nat)
  | emptyShorthand (char : Char)
  | emptyAlternative
  | danglingCombinator
deriving DecidableEq, Repr

/-- The wording of an error. -/
def SelectorError.message : SelectorError → String
  | empty => "empty selector"
  | leadingPunctuation char => "selector may not start with `" ++ char.toString ++ "`"
  | trailingPunctuation char => "selector may not end with `" ++ char.toString ++ "`"
  | conflictingTagNames first second =>
    "one step names two tags: `" ++ first ++ "` and `" ++ second ++ "`"
  | unknownOperator symbol => "unknown attribute operator `" ++ symbol ++ "`"
  | unterminatedBracket => "unterminated `[`"
  | unexpectedToken char position =>
    "unexpected `" ++ char.toString ++ "` at character " ++ toString position
  | emptyShorthand char => "`" ++ char.toString ++ "` must be followed by a name"
  | emptyAlternative => "empty alternative between commas"
  | danglingCombinator => "`>` is not followed by a step"

end MarkupSelect
